import Fstree.Truthful

/-!
# Reusing the digests of a saved index

A refresh reuses the digests of an index that an earlier run has saved. When that
run saw the disk `d₀` and left a Merkle-consistent index, the digests reused on
the disk `d` are those of the old entries, and an entry whose metadata did not
change has not changed otherwise (`Fstree.Unchanged`). So the digest of a file is
right (`Fstree.Prior.refresh_file`); the digest of a directory is right if the
directory lists the same names as before (`Fstree.Prior.refresh_dir`), because
then all its children keep their digests too (`Fstree.Prior.refresh_child`) – a
child that lost its digest would have taken the directory's with it.

Nothing here says that the two runs ignore the same paths.
-/

namespace Fstree

open SortedBy

/-- **Entries whose metadata did not change have not changed**: what `lstat` and
`readlink` say being the same, so are the bytes of a file and the names in a
directory. -/
def Unchanged (d₀ d : Disk) (root : List Name) : Prop :=
  ∀ ns n₀ n, d₀.get (root ++ ns) = some n₀ → d.get (root ++ ns) = some n →
    n₀.status = n.status → n₀.mtime = n.mtime → n₀.target = n.target →
    n₀.content = n.content ∧
      (n.isDir = true → ∀ m, d₀.get (root ++ (ns ++ [m])) = none ↔
        d.get (root ++ (ns ++ [m])) = none)

theorem unchanged_refl (d : Disk) (root : List Name) : Unchanged d d root := by
  intro ns n₀ n h₀ h _ _ _
  obtain rfl := Option.some.inj (h₀.symm.trans h)
  exact ⟨rfl, fun _ _ => Iff.rfl⟩

/-- **Two scans see alike**: in a directory that has the same metadata at both times `lstat`
fails for the same entries. -/
def SeesAlike (d₀ : Disk) (lost₀ : List Name → Bool) (d : Disk) (lost : List Name → Bool)
    (root : List Name) : Prop :=
  ∀ ns n₀ n, d₀.get (root ++ ns) = some n₀ → d.get (root ++ ns) = some n →
    n₀.status = n.status → n₀.mtime = n.mtime → n₀.target = n.target →
      ∀ m, d₀.get (root ++ (ns ++ [m])) ≠ none → d.get (root ++ (ns ++ [m])) ≠ none →
        lost₀ (root ++ (ns ++ [m])) = lost (root ++ (ns ++ [m]))

theorem seesAlike_refl (d : Disk) (lost : List Name → Bool) (root : List Name) :
    SeesAlike d lost d lost root :=
  fun _ _ _ _ _ _ _ _ _ _ _ => rfl

/-- Complete scans see alike. -/
theorem Scan.Complete.seesAlike {d₀ d : Disk} {ignores₀ ignores : Bytes → Bool}
    {root : List Name} {s₀ : Scan d₀ ignores₀ root} {s : Scan d ignores root} (h₀ : s₀.Complete)
    (h : s.Complete) : SeesAlike d₀ s₀.lost d s.lost root :=
  fun _ _ _ _ _ _ _ _ _ hm₀ hm => (h₀ _ hm₀).trans (h _ hm).symm

/-- A digest a refresh has given is empty only if it is none. -/
theorem refresh_empty_iff {H : HashFunction} {d : Disk} {ignores : Bytes → Bool} {root : List Name}
    {s : Scan d ignores root} {old : List Inode} (hold : StrictBy Inode.path old) {p : Bytes} :
    (refresh H s old p).empty = false ↔ refresh H s old p ≠ Digest.none := by
  constructor
  · intro he hn
    rw [hn] at he
    cases he
  · intro hn
    obtain ⟨i, -, -, o, -, -, hr, heq⟩ := refresh_reused hold hn
    rw [heq, hr.not_empty]

/-- Strings of listed inodes have a size that is a `size_t`. -/
theorem Scan.lengths {d : Disk} (hd : d.WellFormed) {ignores : Bytes → Bool} {root : List Name}
    {s : Scan d ignores root} {i : Inode} (hi : i ∈ s.inodes) :
    i.path.length < 2 ^ 64 ∧ i.name.length < 2 ^ 64 ∧ i.target.length < 2 ^ 64 := by
  obtain ⟨ns, n, node, hl, rfl⟩ := s.mem_inodes.mp hi
  have hget := hl.get
  have hlen := hd.path_length (root ++ (ns ++ [n])) (by rw [hget]; simp)
  have hpath := lt_of_le_of_lt (pathStr_length_le root (ns ++ [n])) hlen
  have hname := lt_of_le_of_lt (pathStr_length_le ns [n]) hpath
  exact ⟨by simpa [scanned] using hpath, by simpa [scanned, Inode.name] using hname,
    hd.target_length _ _ hget⟩

/-- **What an earlier run has left**: a Merkle-consistent index of the scan of the
disk as it was. -/
structure Prior (H : HashFunction) (d₀ : Disk) (ignores₀ : Bytes → Bool) (root : List Name) where
  scan : Scan d₀ ignores₀ root
  hash : Hashes
  merkle : scan.index.Merkle H (d₀.contentAt root) hash

namespace Prior

variable {H : HashFunction} {d₀ d : Disk} {ignores₀ ignores : Bytes → Bool} {root : List Name}
  (prior : Prior H d₀ ignores₀ root)

/-- The inodes, with their digests. -/
def inodes : List Inode := prior.scan.inodes.map prior.hash.apply

/-- The inodes as they are loaded from the saved index. -/
def old : List Inode := prior.inodes.map Inode.saved

theorem strictBy_old : StrictBy Inode.path prior.old :=
  StrictBy.map (fun _ _ => rfl) (StrictBy.map (fun _ _ => rfl) prior.scan.strictBy_inodes)

theorem mem_old {o : Inode} :
    o ∈ prior.old ↔ ∃ i₀ ∈ prior.scan.inodes, (prior.hash.apply i₀).saved = o := by
  simp [old, inodes]

theorem parentClosed_old : ParentClosed prior.old := by
  intro o ho ns n hp
  obtain ⟨i₀, hi₀, rfl⟩ := prior.mem_old.mp ho
  obtain ⟨ms, m, hpath, hparent⟩ := prior.scan.index.named i₀ hi₀
  obtain ⟨rfl, -⟩ : ms = ns ∧ m = n := by
    have hpp : pathStr (ms ++ [m]) = pathStr (ns ++ [n]) := hpath.symm.trans hp
    simpa using hpp
  rcases prior.scan.mem_inodes_parent hi₀ hparent with hnil | ⟨j, hj, hjp, -⟩
  · exact Or.inl (pathStr_eq_nil.mp hnil)
  · exact Or.inr ⟨_, prior.mem_old.mpr ⟨j, hj, rfl⟩, hjp⟩

theorem saved_target {i₀ : Inode} (h : i₀ ∈ prior.scan.inodes) :
    (prior.hash.apply i₀).saved.target = i₀.target := by
  cases hl : i₀.isSymlink with
  | true => simp [Inode.saved, Hashes.apply, hl]
  | false => simp [Inode.saved, Hashes.apply, hl, prior.scan.index.target_nil i₀ h hl]

/-- **A match**: an inode of the scan and an old one with its path and metadata. -/
structure Match (s : Scan d ignores root) (prior : Prior H d₀ ignores₀ root) (ns : List Name)
    (node : Node) (hash : Digest) : Prop where
  ne_nil : ns ≠ []
  now : Listed d s.lost ignores root ns node
  before : ∃ node₀, Listed d₀ prior.scan.lost ignores₀ root ns node₀ ∧ node₀.status = node.status ∧
    node₀.mtime = node.mtime ∧ node₀.target = node.target
  hash_eq : hash = prior.hash (pathStr ns)

variable {prior} {s : Scan d ignores root}

/-- **Every digest a refresh gives comes from a match.** -/
theorem match_of_refresh {p : Bytes} (h : refresh H s prior.old p ≠ Digest.none) :
    ∃ ns node, p = pathStr ns ∧ Match s prior ns node (refresh H s prior.old p) := by
  obtain ⟨i, hi, rfl, o, ho, hop, hr, heq⟩ := refresh_reused prior.strictBy_old h
  obtain ⟨i₀, hi₀, rfl⟩ := prior.mem_old.mp ho
  obtain ⟨ns, n, node, hl, rfl⟩ := s.mem_inodes.mp hi
  obtain ⟨ms, m, node₀, hl₀, rfl⟩ := prior.scan.mem_inodes.mp hi₀
  obtain ⟨-, hstatus, hmtime, htarget⟩ := Inode.isEquivalent_iff.mp hr.equivalent
  rw [prior.saved_target hi₀] at htarget
  obtain ⟨rfl, rfl⟩ : ms = ns ∧ m = n := by simpa [scanned] using hop
  refine ⟨ms ++ [m], node, by simp [scanned], by simp, hl,
    ⟨node₀, hl₀, hstatus, hmtime, htarget⟩, ?_⟩
  rw [heq]
  simp [scanned]

/-- A child of a directory that keeps its digest keeps its own, if it was listed
before. -/
theorem refresh_child {ns : List Name} {n : Name} {node node₀ : Node}
    (hl : Listed d s.lost ignores root (ns ++ [n]) node)
    (hl₀ : Listed d₀ prior.scan.lost ignores₀ root (ns ++ [n]) node₀)
    (h : refresh H s prior.old (pathStr ns) ≠ Digest.none) :
    refresh H s prior.old (pathStr (ns ++ [n])) ≠ Digest.none := by
  intro hn
  have hi : scanned (pathStr ns) n node ∈ s.inodes := s.mem_inodes.mpr ⟨ns, n, node, hl, rfl⟩
  have ho : (prior.hash.apply (scanned (pathStr ns) n node₀)).saved ∈ prior.old :=
    prior.mem_old.mpr ⟨_, prior.scan.mem_inodes.mpr ⟨ns, n, node₀, hl₀, rfl⟩, rfl⟩
  refine h (refresh_parent prior.strictBy_old hi ho rfl ?_ rfl)
  simpa [scanned] using hn

/-- **The digest a file keeps is the sum of its bytes.** -/
theorem refresh_file (hun : Unchanged d₀ d root) {i : Inode} (hi : i ∈ s.inodes)
    (hf : i.isFile = true) (h : refresh H s prior.old i.path ≠ Digest.none) :
    refresh H s prior.old i.path = H.sum (d.contentAt root i.path) := by
  obtain ⟨ns, n, node, hl, rfl⟩ := s.mem_inodes.mp hi
  obtain ⟨ms, node', hp, hm⟩ := match_of_refresh h
  obtain rfl : ns ++ [n] = ms := by simpa [scanned] using hp
  obtain rfl := hm.now.node_eq hl
  obtain ⟨node₀, hl₀, hstatus, hmtime, htarget⟩ := hm.before
  have hpath : (scanned (pathStr ns) n node').path = pathStr (ns ++ [n]) := by simp [scanned]
  have hf₀ : (scanned (pathStr ns) n node₀).isFile = true := by
    simpa [scanned, Inode.isFile, hstatus] using hf
  have hsum := prior.merkle.file _ (prior.scan.mem_inodes.mpr ⟨ns, n, node₀, hl₀, rfl⟩) hf₀
  have hpath₀ : (scanned (pathStr ns) n node₀).path = pathStr (ns ++ [n]) := by simp [scanned]
  rw [hpath₀, Disk.contentAt_pathStr hl₀.get] at hsum
  rw [hm.hash_eq, hsum, hpath, Disk.contentAt_pathStr hl.get,
    (hun _ _ _ hl₀.get hl.get hstatus hmtime htarget).1]

/-- What is neither a file nor a directory keeps no digest: it had none. -/
theorem refresh_other {i : Inode} (hi : i ∈ s.inodes) (hf : i.isFile = false)
    (hd : i.isDirectory = false) : refresh H s prior.old i.path = Digest.none := by
  by_contra h
  obtain ⟨ns, n, node, hl, rfl⟩ := s.mem_inodes.mp hi
  obtain ⟨ms, node', hp, hm⟩ := match_of_refresh h
  obtain rfl : ns ++ [n] = ms := by simpa [scanned] using hp
  obtain rfl := hm.now.node_eq hl
  obtain ⟨node₀, hl₀, hstatus, -, -⟩ := hm.before
  have hother := prior.merkle.other _ (prior.scan.mem_inodes.mpr ⟨ns, n, node₀, hl₀, rfl⟩)
    (by simpa [scanned, Inode.isFile, hstatus] using hf)
    (by simpa [scanned, Inode.isDirectory, hstatus] using hd)
  have hpath₀ : (scanned (pathStr ns) n node₀).path = pathStr (ns ++ [n]) := by simp [scanned]
  rw [hpath₀] at hother
  exact h (hm.hash_eq.trans hother)

/-- **The digest a directory keeps is the sum of its tree object**, if it lists the
names it listed before. -/
theorem refresh_dir {ns : List Name} {node : Node} (hl : Listed d s.lost ignores root ns node)
    (hdir : node.isDir = true) (h : refresh H s prior.old (pathStr ns) ≠ Digest.none)
    (hsame : ∀ n, (∃ node, Listed d s.lost ignores root (ns ++ [n]) node) ↔
      ∃ node₀, Listed d₀ prior.scan.lost ignores₀ root (ns ++ [n]) node₀) :
    refresh H s prior.old (pathStr ns) =
      H.sum (s.index.tree (refresh H s prior.old) (pathStr ns)) := by
  obtain ⟨ms, node', hp, hm⟩ := match_of_refresh h
  obtain rfl : ns = ms := pathStr_injective hp
  obtain rfl := hm.now.node_eq hl
  obtain ⟨node₀, hl₀, hstatus, -, -⟩ := hm.before
  -- the old inode is the directory the digest was the sum of
  obtain ⟨ks, k, rfl⟩ : ∃ ks k, ns = ks ++ [k] := by
    rcases List.eq_nil_or_concat' ns with rfl | ⟨ks, k, rfl⟩
    · exact absurd rfl hm.ne_nil
    · exact ⟨ks, k, rfl⟩
  have hdir₀ : (scanned (pathStr ks) k node₀).isDirectory = true := by
    have : node₀.status.type = .directory := by
      rw [hstatus]
      exact Node.status_type_eq_directory.mpr hdir
    simpa [scanned, Inode.isDirectory] using this
  have hsum := prior.merkle.dir _ (prior.scan.mem_inodes.mpr ⟨ks, k, node₀, hl₀, rfl⟩) hdir₀
  have hpath₀ : (scanned (pathStr ks) k node₀).path = pathStr (ks ++ [k]) := by simp [scanned]
  rw [hpath₀] at hsum
  rw [hm.hash_eq, hsum]
  -- and its children are recorded as they are now
  have hentry : ∀ n node₁ node₂, Listed d₀ prior.scan.lost ignores₀ root (ks ++ [k] ++ [n]) node₁ →
      Listed d s.lost ignores root (ks ++ [k] ++ [n]) node₂ →
      (prior.hash.apply (scanned (pathStr (ks ++ [k])) n node₁)).entry =
        ((refresh H s prior.old).apply (scanned (pathStr (ks ++ [k])) n node₂)).entry := by
    intro n node₁ node₂ h₁ h₂
    have hc := refresh_child h₂ h₁ h
    obtain ⟨ls, node', hp', hm'⟩ := match_of_refresh hc
    obtain rfl : ks ++ [k] ++ [n] = ls := pathStr_injective hp'
    obtain rfl := hm'.now.node_eq h₂
    obtain ⟨node₀', hl', hstatus', -, htarget'⟩ := hm'.before
    obtain rfl := hl'.node_eq h₁
    refine Inode.entry_eq_iff.mpr ⟨rfl, hstatus', htarget', ?_⟩
    simpa [scanned] using hm'.hash_eq.symm
  refine congrArg H.sum (Index.tree_eq_of_entries _ fun e => ?_)
  constructor
  · rintro ⟨c, hc, hp, rfl⟩
    obtain ⟨ls, n, node₁, h₁, rfl⟩ := prior.scan.mem_inodes.mp hc
    obtain rfl : ls = ks ++ [k] := pathStr_injective (by simpa [scanned] using hp)
    obtain ⟨node₂, h₂⟩ := (hsame n).mpr ⟨node₁, h₁⟩
    exact ⟨_, s.mem_inodes.mpr ⟨_, n, node₂, h₂, rfl⟩, hp, (hentry n _ _ h₁ h₂).symm⟩
  · rintro ⟨c, hc, hp, rfl⟩
    obtain ⟨ls, n, node₂, h₂, rfl⟩ := s.mem_inodes.mp hc
    obtain rfl : ls = ks ++ [k] := pathStr_injective (by simpa [scanned] using hp)
    obtain ⟨node₁, h₁⟩ := (hsame n).mp ⟨node₂, h₂⟩
    exact ⟨_, prior.scan.mem_inodes.mpr ⟨_, n, node₁, h₁, rfl⟩, hp, hentry n _ _ h₁ h₂⟩

end Prior

end Fstree
