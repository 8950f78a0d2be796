import Fstree.ReadBack
import Fstree.RoundTrip

/-!
# What a saved index records

A `write-tree` or a checkout leaves a saved index. It records a Merkle-consistent scan of the
disk, but not its mtimes: those of a checkout are of the moment an inode was made, and what was
made later may have changed them (`Fstree.Records`).

What the next command may conclude from them is that an entry that has the mtime on record is as
it was left (`Fstree.Shows`); it need not know when that was. Then the index is one of a disk that
differs in its mtimes, where an entry that is on record has the mtime on record, and any other has
not the one it has now; nothing but changed metadata has changed since
(`Fstree.Records.exists_prior`). So the digests that a refresh keeps are truthful
(`Fstree.Prior.truthful`), and so are the mtimes that a checkout compares
(`Fstree.Records.truthfulMtimes`).
-/

namespace Fstree

open SortedBy

section Records

variable {H : HashFunction} {d d' : Disk} {ignores : Bytes → Bool} {root ns : List Name}
  {lost : List Name → Bool} {old : List Inode} {times : List Name → Time}

/-! ### Scans of a disk with other mtimes -/

/-- What a scan has listed looks as what is there and can be seen, as far as `lstat` sees it. -/
theorem Scan.mem_looks (hd : d.Closed) (s : Scan d ignores root)
    {x : Bytes × FileStatus × Bytes} : x ∈ s.inodes.map Inode.look ↔
      ∃ ns node, d.get (root ++ ns) = some node ∧ (Visible ignores ns ∧ Seen s.lost root ns) ∧
        (pathStr ns, node.status, node.target) = x := by
  rw [List.mem_map]
  constructor
  · rintro ⟨i, hi, rfl⟩
    obtain ⟨ns, n, node, hl, rfl⟩ := s.mem_inodes.mp hi
    obtain ⟨hget, hv⟩ := (Fstree.listed_iff hd).mp hl
    exact ⟨ns ++ [n], node, hget, hv, by simp [Inode.look, scanned]⟩
  · rintro ⟨ns, node, hget, hv, rfl⟩
    obtain ⟨i, hi, hp, -⟩ := s.exists_inode ((Fstree.listed_iff hd).mpr ⟨hget, hv⟩)
    obtain ⟨-, node', hget', hstatus, -, htarget⟩ := s.exists_node hi hp
    obtain rfl := Option.some.inj (hget.symm.trans hget')
    exact ⟨i, hi, by rw [Inode.look, hp, hstatus, htarget]⟩

theorem Scan.strictBy_looks (s : Scan d ignores root) :
    StrictBy Prod.fst (s.inodes.map Inode.look) :=
  s.strictBy_inodes.map fun _ _ => rfl

/-- **A scan does not look at mtimes.** -/
theorem Scan.looks_dated (hd : d.Closed) (s : Scan d ignores root)
    (s' : Scan (d.dated times) ignores root) (hlost : s'.lost = s.lost) :
    s.inodes.map Inode.look = s'.inodes.map Inode.look := by
  refine s.strictBy_looks.eq_of_mem_iff s'.strictBy_looks fun x => ?_
  rw [s.mem_looks hd, s'.mem_looks hd.dated, hlost]
  constructor
  · rintro ⟨ns, node, hget, hv, rfl⟩
    have hlike := node.like_dated (times (root ++ ns))
    exact ⟨ns, _, by rw [Disk.get_dated, hget, Option.map_some], hv,
      by rw [hlike.status, hlike.target]⟩
  · rintro ⟨ns, node, hget, hv, rfl⟩
    rw [Disk.get_dated] at hget
    obtain ⟨m, hm, rfl⟩ := Option.map_eq_some_iff.mp hget
    have hlike := m.like_dated (times (root ++ ns))
    exact ⟨ns, m, hm, hv, by rw [hlike.status, hlike.target]⟩

/-- **Nor does an add**: the digests are those of the disk with other mtimes. -/
theorem Index.Merkle.dated {s : Scan d ignores root} {hs : Hashes}
    (hm : s.index.Merkle H (d.contentAt root) hs) (hd : d.Closed)
    (s' : Scan (d.dated times) ignores root) (hlost : s'.lost = s.lost) :
    s'.index.Merkle H ((d.dated times).contentAt root) hs := by
  refine hm.of_look (s.looks_dated hd s' hlost) fun i hi _ => ?_
  obtain ⟨ns, hns⟩ := s.exists_names hi
  obtain ⟨-, node, hget, -⟩ := s.exists_node hi hns
  have hget' : (d.dated times).get (root ++ ns) = some (node.dated (times (root ++ ns))) := by
    rw [Disk.get_dated, hget, Option.map_some]
  rw [hns, Disk.contentAt_pathStr hget, Disk.contentAt_pathStr hget', (node.like_dated _).content]

/-! ### The saved index -/

/-- **An index that was saved of a disk**: that of a Merkle-consistent scan, in which `lstat` has
failed for the paths in `lost`, with some mtimes. -/
def Records (H : HashFunction) (ignores : Bytes → Bool) (root : List Name) (d : Disk)
    (lost : List Name → Bool) (old : List Inode) : Prop :=
  ∃ prior : Prior H d ignores root, prior.scan.lost = lost ∧ List.Forall₂ ReadBack prior.old old

/-- **Changes show in the mtimes**: what has the mtime on record is, but for its permissions, as it
was before. -/
def Shows (old : List Inode) (d d' : Disk) (root : List Name) : Prop :=
  ∀ o ∈ old, ∀ ns, o.path = pathStr ns → ∀ m n, d.get (root ++ ns) = some m →
    d'.get (root ++ ns) = some n → n.mtime = o.mtime →
      n.status.type = m.status.type ∧ n.content = m.content ∧
        (n.isDir = true → ∀ k, d.get (root ++ (ns ++ [k])) = none ↔
          d'.get (root ++ (ns ++ [k])) = none)

theorem shows_refl (old : List Inode) (d : Disk) (root : List Name) : Shows old d d root := by
  intro o _ ns _ m n hm hn _
  obtain rfl := Option.some.inj (hm.symm.trans hn)
  exact ⟨rfl, rfl, fun _ _ => Iff.rfl⟩

/-- **`lstat` sees as before**: of a directory with the mtime on record it fails for the same
entries. -/
def SeesOnRecord (old : List Inode) (lost : List Name → Bool) (d' : Disk)
    (lost' : List Name → Bool) (root : List Name) : Prop :=
  ∀ o ∈ old, ∀ ns, o.path = pathStr ns → ∀ n, d'.get (root ++ ns) = some n → n.mtime = o.mtime →
    ∀ k, d'.get (root ++ (ns ++ [k])) ≠ none →
      lost (root ++ (ns ++ [k])) = lost' (root ++ (ns ++ [k]))

theorem seesOnRecord_refl (old : List Inode) (lost : List Name → Bool) (d' : Disk)
    (root : List Name) : SeesOnRecord old lost d' lost root :=
  fun _ _ _ _ _ _ _ _ _ => rfl

/-- A complete scan sees as a complete scan did before. -/
theorem Scan.Complete.seesOnRecord {s : Scan d' ignores root} (hs : s.Complete) :
    SeesOnRecord old (fun _ => false) d' s.lost root :=
  fun _ _ _ _ _ _ _ _ hk => (hs _ hk).symm

/-- The mtimes on record; what is not on record has another than now. -/
def recordedTimes (old : List Inode) (d' : Disk) (root : List Name) (q : List Name) : Time :=
  match lookup Inode.path (pathStr (q.drop root.length)) old with
  | some o => o.mtime
  | none => ((d'.get q).map Node.mtime).getD 0 + 1

theorem recordedTimes_of_mem (hold : StrictBy Inode.path old) {o : Inode} (ho : o ∈ old)
    (hp : o.path = pathStr ns) : recordedTimes old d' root (root ++ ns) = o.mtime := by
  rw [recordedTimes, List.drop_left, hold.lookup_eq_some_iff.mpr ⟨ho, hp⟩]

/-- What is as old as on record is on record. -/
theorem exists_of_recordedTimes (hold : StrictBy Inode.path old) {n : Node}
    (hn : d'.get (root ++ ns) = some n) (ht : recordedTimes old d' root (root ++ ns) = n.mtime) :
    ∃ o ∈ old, o.path = pathStr ns ∧ n.mtime = o.mtime := by
  rw [recordedTimes, List.drop_left, hn, Option.map_some, Option.getD_some] at ht
  cases hlook : lookup Inode.path (pathStr ns) old with
  | none =>
    rw [hlook] at ht
    simp at ht
  | some o =>
    rw [hlook] at ht
    obtain ⟨ho, hp⟩ := hold.lookup_eq_some_iff.mp hlook
    exact ⟨o, ho, hp, ht.symm⟩

/-- A scan finds the mtimes on record. -/
theorem mtime_of_recordedTimes (hold : StrictBy Inode.path old)
    (s : Scan (d.dated (recordedTimes old d' root)) ignores root) {t o : Inode}
    (ht : t ∈ s.inodes) (ho : o ∈ old) (hp : o.path = t.path) : t.mtime = o.mtime := by
  obtain ⟨ns, hns⟩ := s.exists_names ht
  obtain ⟨-, node, hget, -, hnode, -⟩ := s.exists_node ht hns
  rw [Disk.get_dated] at hget
  obtain ⟨m, -, rfl⟩ := Option.map_eq_some_iff.mp hget
  rw [hnode, Node.mtime_dated, recordedTimes_of_mem hold ho (hp.trans hns)]

namespace Records

variable (h : Records H ignores root d lost old)
include h

theorem strictBy : StrictBy Inode.path old := by
  obtain ⟨prior, -, hread⟩ := h
  have hpaths : prior.old.map Inode.path = old.map Inode.path :=
    (Fetched.path_of_made hread).symm
  have hs : (prior.old.map Inode.path).Pairwise (· < ·) := List.pairwise_map.mpr prior.strictBy_old
  exact List.pairwise_map.mp (hpaths ▸ hs)

/-- **The saved index is that of a disk from which only metadata has changed.** -/
theorem exists_prior (hd : d.Closed) (hshow : Shows old d d' root) :
    ∃ d₁, ∃ prior : Prior H d₁ ignores root, prior.old = old ∧ Unchanged d₁ d' root ∧
      ∀ lost', SeesOnRecord old lost d' lost' root →
        SeesAlike d₁ prior.scan.lost d' lost' root := by
  have hsorted := h.strictBy
  obtain ⟨prior, rfl, hread⟩ := h
  have hdir : (d.dated (recordedTimes old d' root)).IsDir root :=
    Disk.isDir_dated.mpr prior.scan.isDir
  let s' : Scan (d.dated (recordedTimes old d' root)) ignores root :=
    .sequentialLosing _ prior.scan.lost _ _ hdir
  refine ⟨_, ⟨s', prior.hash, prior.merkle.dated hd s' rfl⟩, ?_, ?_, ?_⟩
  · have hlooks := prior.scan.looks_dated hd s' rfl
    have hlen : prior.scan.inodes.length = s'.inodes.length := by
      simpa using congrArg List.length hlooks
    have hlen' : prior.scan.inodes.length = old.length := by
      simpa [Prior.old, Prior.inodes] using hread.length_eq
    change (s'.inodes.map prior.hash.apply).map Inode.saved = old
    refine List.ext_getElem (by simp [← hlen, hlen']) fun k hk hk' => ?_
    rw [List.length_map, List.length_map] at hk
    have hks : k < prior.scan.inodes.length := by omega
    have hlook : prior.scan.inodes[k].look = s'.inodes[k].look := by
      have hl := List.getElem_of_eq hlooks (by simpa using hks)
      simpa using hl
    obtain ⟨time, ho⟩ : ReadBack (prior.hash.apply prior.scan.inodes[k]).saved old[k] := by
      have hr := hread.get (by simpa [Prior.old, Prior.inodes] using hks) hk'
      simpa [Prior.old, Prior.inodes] using hr
    have ht : s'.inodes[k] ∈ s'.inodes := List.getElem_mem hk
    have hmem : old[k] ∈ old := List.getElem_mem hk'
    simp only [List.getElem_map]
    generalize s'.inodes[k] = t at hlook ht ⊢
    generalize prior.scan.inodes[k] = i at hlook ho
    generalize old[k] = o at ho hmem ⊢
    obtain ⟨hpath, hstatus, htarget⟩ := Inode.look_eq_iff.mp hlook
    have hop : o.path = t.path := by
      rw [ho, ← hpath]
      rfl
    have hmtime : t.mtime = time := by rw [mtime_of_recordedTimes hsorted s' ht hmem hop, ho]
    rw [ho]
    simp only [Inode.saved, Hashes.apply, Inode.setHash, Inode.isSymlink, hpath, hstatus, htarget,
      hmtime]
  · intro ns n₀ n hn₀ hn _ hmtime _
    rw [Disk.get_dated] at hn₀
    obtain ⟨m, hm, rfl⟩ := Option.map_eq_some_iff.mp hn₀
    rw [Node.mtime_dated] at hmtime
    obtain ⟨o, ho, hop, ht⟩ := exists_of_recordedTimes hsorted hn hmtime
    obtain ⟨-, hcontent, hnames⟩ := hshow o ho ns hop m n hm hn ht
    refine ⟨(m.like_dated _).content.trans hcontent.symm, fun hdir k => ?_⟩
    rw [Disk.get_dated, Option.map_eq_none_iff]
    exact hnames hdir k
  · intro lost' hsee ns n₀ n hn₀ hn _ hmtime _ k _ hk
    rw [Disk.get_dated] at hn₀
    obtain ⟨m, hm, rfl⟩ := Option.map_eq_some_iff.mp hn₀
    rw [Node.mtime_dated] at hmtime
    obtain ⟨o, ho, hop, ht⟩ := exists_of_recordedTimes hsorted hn hmtime
    exact hsee o ho ns hop n hn ht k hk

/-- **A file with the mtime on record has the content on record.** -/
theorem truthfulMtimes (hshow : Shows old d d' root) :
    TruthfulMtimes (fun _ => H.sum) root old d' := by
  obtain ⟨prior, -, hread⟩ := h
  intro o ho ns hp perms content hget
  obtain ⟨k, hk, rfl⟩ := List.mem_iff_getElem.mp ho
  have hkp : k < prior.old.length := by rw [hread.length_eq]; exact hk
  obtain ⟨time, he⟩ : ReadBack prior.old[k] old[k] := by simpa using hread.get hkp hk
  obtain ⟨i, hi, hsaved⟩ := prior.mem_old.mp (List.getElem_mem hkp)
  rw [← hsaved] at he
  have hip : i.path = pathStr ns := by rw [← hp, he]; rfl
  obtain ⟨-, m, hm, hstatus, -⟩ := prior.scan.exists_node hi hip
  obtain ⟨htype, hcontent, -⟩ := hshow _ ho ns hp m _ hm hget rfl
  have hf : i.isFile = true := by
    rw [Inode.isFile, hstatus, ← htype]
    rfl
  have hsum := prior.merkle.file i hi hf
  rw [hip, Disk.contentAt_pathStr hm, ← hcontent, ← hip] at hsum
  rw [he]
  exact hsum.symm

end Records

end Records

end Fstree
