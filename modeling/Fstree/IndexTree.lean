import Fstree.IgnoreChange
import Fstree.MerkleTree
import Fstree.RoundTrip

/-!
# The Merkle tree of an index

`write-tree` leaves an index whose digests are those of its tree objects and files; `push` and
`pull` know nothing but a digest, and what is reachable from it. Among byte strings no two of
which collide there is one under each digest (`Fstree.HashFunction.original`), and with these a
Merkle-consistent index is the Merkle tree under the digest of its root
(`Fstree.Index.Within.merkleTree`): what is reachable is what the index lists
(`Fstree.Index.Within.reachable_iff`).

So a digest says all there is to say about a tree. Two runs print one digest exactly if they have
listed the same things with the same contents (`Fstree.writeTree_digest_iff`).
-/

namespace Fstree

open SortedBy

/-! ### What is under a digest -/

section Original

variable {H : HashFunction} {S : Set Bytes} {d : Digest} {b : Bytes} {st : Store}

open Classical in
/-- **The byte string under a digest**, among those of a set. -/
noncomputable def HashFunction.original (H : HashFunction) (S : Set Bytes) (d : Digest) : Bytes :=
  if h : ∃ b ∈ S, H.sum b = d then h.choose else []

theorem original_eq (hS : H.CollisionFree S) (hb : b ∈ S) (hd : H.sum b = d) :
    H.original S d = b := by
  have hex : ∃ b ∈ S, H.sum b = d := ⟨b, hb, hd⟩
  rw [HashFunction.original, dif_pos hex]
  exact hS hex.choose_spec.1 hb (hex.choose_spec.2.trans hd.symm)

/-- **A content-addressed store of these byte strings** has the right one under each digest. -/
theorem agrees_original (hS : H.CollisionFree S) (hst : ContentAddressed H st)
    (hmem : ∀ k b, st k = some b → b ∈ S) : st.Agrees (H.original S) H := by
  intro d b hd hb
  have halg : d.alg = H.alg := by rw [← hd, H.sum_alg]
  refine (original_eq hS ?_ ?_).symm
  · exact hb.elim (hmem _ b) (hmem _ b)
  · exact hb.elim (hst.trees d b halg) (hst.files d b halg)

end Original

/-! ### Indexes as trees -/

namespace Index

variable {L : Index} {H : HashFunction} {S : Set Bytes} {content : Bytes → Bytes} {hs : Hashes}
  {base ns : List Name} {p : Bytes} {r i : Inode} {d : Digest}

/-- **A Merkle-consistent index whose byte strings are in a set.** -/
structure Within (L : Index) (H : HashFunction) (S : Set Bytes) (content : Bytes → Bytes)
    (hs : Hashes) : Prop where
  merkle : L.Merkle H content hs
  encodable : L.Encodable hs
  root : L.tree hs [] ∈ S
  dirs : ∀ i ∈ L.inodes, i.isDirectory = true → L.tree hs i.path ∈ S
  files : ∀ i ∈ L.inodes, i.isFile = true → content i.path ∈ S

/-- The root, or a directory of the index. -/
def IsTreeAt (L : Index) (p : Bytes) : Prop :=
  p = [] ∨ ∃ i ∈ L.inodes, i.isDirectory = true ∧ i.path = p

/-- A child is listed under the name it has in the tree object. -/
theorem exists_name (hs : Hashes) {c : Inode} (hc : c ∈ L.inodes)
    (hp : c.parent = some (pathStr base)) : ∃ n : Name, c.path = pathStr (base ++ [n]) ∧
      ((hs.apply c).decoded []).path = n.bytes := by
  obtain ⟨ms, n, hpath, hparent⟩ := L.named c hc
  obtain rfl : ms = base := pathStr_injective (Option.some.inj (hparent.symm.trans hp))
  exact ⟨n, hpath, by simp [Inode.decoded, Inode.name, hpath, joinPath]⟩

namespace Within

variable (w : L.Within H S content hs) (hS : H.CollisionFree S)
include w hS

theorem original_tree (hp : L.IsTreeAt p) : H.original S (hs p) = L.tree hs p := by
  rcases hp with rfl | ⟨i, hi, hd, rfl⟩
  · exact original_eq hS w.root w.merkle.root.symm
  · exact original_eq hS (w.dirs i hi hd) (w.merkle.dir i hi hd).symm

theorem original_file (hi : i ∈ L.inodes) (hf : i.isFile = true) :
    H.original S (hs i.path) = content i.path :=
  original_eq hS (w.files i hi hf) (w.merkle.file i hi hf).symm

theorem sum_original_tree (hp : L.IsTreeAt p) : H.sum (H.original S (hs p)) = hs p := by
  rw [w.original_tree hS hp]
  rcases hp with rfl | ⟨i, hi, hd, rfl⟩
  · exact w.merkle.root.symm
  · exact (w.merkle.dir i hi hd).symm

/-- The tree object of a directory is read. -/
theorem decodeTree_original (hp : L.IsTreeAt p) : decodeTree [] (H.original S (hs p)) =
    ((L.entries hs p).map (·.decoded []), none) := by
  rw [w.original_tree hS hp]
  exact L.decodeTree_tree (fun c hc _ => w.encodable c hc) []

/-- **The records of a directory** are its children. -/
theorem mem_records (hp : L.IsTreeAt p) : r ∈ records (H.original S) (hs p) ↔
    ∃ c ∈ L.inodes, c.parent = some p ∧ (hs.apply c).decoded [] = r := by
  rw [records, w.decodeTree_original hS hp]
  simp [entries, and_assoc]

/-- The children of a directory have different names. -/
theorem nodup_records (hp : L.IsTreeAt (pathStr base)) :
    ((records (H.original S) (hs (pathStr base))).map Inode.path).Nodup := by
  rw [records, w.decodeTree_original hS hp, entries, List.map_map, List.map_map]
  refine List.Nodup.map_on (fun c hc c' hc' he => ?_) (L.strictBy_listed _).nodup
  obtain ⟨hc, hcp⟩ := L.mem_listed.mp hc
  obtain ⟨hc', hcp'⟩ := L.mem_listed.mp hc'
  obtain ⟨n, hpath, hn⟩ := exists_name hs hc hcp
  obtain ⟨m, hpath', hm⟩ := exists_name hs hc' hcp'
  obtain rfl : n = m := Name.ext (hn.symm.trans (he.trans hm))
  exact L.eq_of_path_eq hc hc' (hpath.trans hpath'.symm)

/-- One level of the tree. -/
theorem merkleTree_node (base : List Name) (hp : L.IsTreeAt (pathStr base))
    (hdirs : ∀ c ∈ L.inodes, c.parent = some (pathStr base) → c.isDirectory = true →
      MerkleTree (H.original S) H (hs c.path)) :
    MerkleTree (H.original S) H (hs (pathStr base)) := by
  refine .node (w.sum_original_tree hS hp) (by rw [w.decodeTree_original hS hp]) (fun r hr => ?_)
    (w.nodup_records hS hp) (fun r hr hf => ?_) (fun r hr hd => ?_) <;>
    obtain ⟨c, hc, hcp, rfl⟩ := (w.mem_records hS hp).mp hr
  · obtain ⟨n, -, hn⟩ := exists_name hs hc hcp
    exact ⟨n, hn⟩
  · change H.sum (H.original S (hs c.path)) = hs c.path
    rw [w.original_file hS hc hf, ← w.merkle.file c hc hf]
  · exact hdirs c hc hcp hd

/-- **A Merkle-consistent index is a Merkle tree.** -/
theorem merkleTree : MerkleTree (H.original S) H (hs []) := by
  have hall : ∀ i ∈ L.inodes, i.isDirectory = true → MerkleTree (H.original S) H (hs i.path) := by
    refine L.induction_children fun i hi ih hd => ?_
    obtain ⟨ms, n, hpath, -⟩ := L.named i hi
    rw [hpath] at ih ⊢
    exact w.merkleTree_node hS _ (Or.inr ⟨i, hi, hd, hpath⟩) ih
  exact w.merkleTree_node hS [] (Or.inl rfl) fun c hc _ hd => hall c hc hd

/-- What is reached by names is listed at them. -/
theorem exists_listed (base : List Name) (hp : L.IsTreeAt (pathStr base))
    (hr : Reachable (H.original S) (hs (pathStr base)) ns r) :
    ∃ i ∈ L.inodes, i.path = pathStr (base ++ ns) ∧ (hs.apply i).decoded [] = r := by
  generalize hd : hs (pathStr base) = d at hr
  induction hr generalizing base with
  | @top d n r mem name =>
    obtain ⟨c, hc, hcp, rfl⟩ := (w.mem_records hS hp).mp (hd ▸ mem)
    obtain ⟨m, hpath, hm⟩ := exists_name hs hc hcp
    obtain rfl : m = n := Name.ext (hm.symm.trans name)
    exact ⟨c, hc, hpath, rfl⟩
  | @deeper d n r ns s mem name dir rest ih =>
    obtain ⟨c, hc, hcp, rfl⟩ := (w.mem_records hS hp).mp (hd ▸ mem)
    obtain ⟨m, hpath, hm⟩ := exists_name hs hc hcp
    obtain rfl : m = n := Name.ext (hm.symm.trans name)
    obtain ⟨i, hi, hip, hir⟩ := ih _ (Or.inr ⟨c, hc, dir, hpath⟩) (congrArg hs hpath.symm)
    exact ⟨i, hi, by rw [hip, List.append_assoc, List.singleton_append], hir⟩

/-- What is listed is reached, by the names below the directory. -/
theorem reachable_of_listed (base : List Name) (hp : L.IsTreeAt (pathStr base)) (hns : ns ≠ [])
    (hi : i ∈ L.inodes) (hpath : i.path = pathStr (base ++ ns)) :
    Reachable (H.original S) (hs (pathStr base)) ns ((hs.apply i).decoded []) := by
  induction ns generalizing base with
  | nil => exact absurd rfl hns
  | cons n rest ih =>
    rw [List.append_cons] at hpath
    obtain ⟨j, hj, hjp, hjd⟩ := L.exists_above (base ++ [n]) rest (by simp) i hi hpath
    have hparent : j.parent = some (pathStr base) := by
      obtain ⟨ms, m, hm, hparent⟩ := L.named j hj
      obtain ⟨rfl, -⟩ := pathStr_concat_inj.mp (hm.symm.trans hjp)
      exact hparent
    obtain ⟨m, hm, hname⟩ := exists_name hs hj hparent
    obtain ⟨-, rfl⟩ := pathStr_concat_inj.mp (hm.symm.trans hjp)
    have hmem := (w.mem_records hS hp).mpr ⟨j, hj, hparent, rfl⟩
    by_cases hrest : rest = []
    · subst hrest
      rw [List.append_nil] at hpath
      obtain rfl := L.eq_of_path_eq hi hj (hpath.trans hjp.symm)
      exact .top hmem hname
    · refine .deeper hmem hname (hjd hrest) ?_
      have hbelow := ih _ (Or.inr ⟨j, hj, hjd hrest, hjp⟩) hrest hpath
      rwa [← hjp] at hbelow

/-- **What is reachable from the root is what is listed.** -/
theorem reachable_iff : Reachable (H.original S) (hs []) ns r ↔
    ns ≠ [] ∧ ∃ i ∈ L.inodes, i.path = pathStr ns ∧ (hs.apply i).decoded [] = r := by
  constructor
  · intro hr
    exact ⟨hr.ne_nil, w.exists_listed hS [] (Or.inl rfl) hr⟩
  · rintro ⟨hns, i, hi, hpath, rfl⟩
    exact w.reachable_of_listed hS [] (Or.inl rfl) hns hi hpath

omit w hS in
/-- The record of a listed inode, at its place. -/
theorem entry_reachedBy (hi : i ∈ L.inodes) (hpath : i.path = pathStr ns) :
    (((hs.apply i).decoded []).reachedBy ns).entry = (hs.apply i).entry := by
  refine Inode.entry_eq_iff.mpr ⟨hpath.symm, rfl, ?_, rfl⟩
  cases hl : (hs.apply i).isSymlink with
  | true => simp [Inode.reachedBy, Inode.decoded, hl]
  | false =>
    simp only [Inode.reachedBy, Inode.decoded, hl]
    exact (L.target_nil i hi hl).symm

/-- **The inodes of the index are what is reachable.** -/
theorem mem_entries_iff {e : Entry} : e ∈ L.inodes.map (fun i => (hs.apply i).entry) ↔
    ∃ ns r, Reachable (H.original S) (hs []) ns r ∧ e = (r.reachedBy ns).entry := by
  constructor
  · intro he
    obtain ⟨i, hi, rfl⟩ := List.mem_map.mp he
    obtain ⟨ms, n, hpath, -⟩ := L.named i hi
    exact ⟨ms ++ [n], _, (w.reachable_iff hS).mpr ⟨by simp, i, hi, hpath, rfl⟩,
      (entry_reachedBy hi hpath).symm⟩
  · rintro ⟨ns, r, hr, rfl⟩
    obtain ⟨-, i, hi, hpath, rfl⟩ := (w.reachable_iff hS).mp hr
    exact List.mem_map.mpr ⟨i, hi, (entry_reachedBy hi hpath).symm⟩

/-- The digests of files of the tree are those of the files that are listed. -/
theorem fileIn_iff : FileIn (H.original S) (hs []) d ↔
    ∃ i ∈ L.inodes, i.isFile = true ∧ hs i.path = d := by
  constructor
  · rintro ⟨ns, r, hr, hf, rfl⟩
    obtain ⟨-, i, hi, -, rfl⟩ := (w.reachable_iff hS).mp hr
    exact ⟨i, hi, hf, rfl⟩
  · rintro ⟨i, hi, hf, rfl⟩
    obtain ⟨ms, n, hpath, -⟩ := L.named i hi
    exact ⟨ms ++ [n], _, (w.reachable_iff hS).mpr ⟨by simp, i, hi, hpath, rfl⟩, hf, rfl⟩

/-- The digests of tree objects of the tree are those of the root and of the directories. -/
theorem treeIn_iff : TreeIn (H.original S) (hs []) d ↔ ∃ p, L.IsTreeAt p ∧ hs p = d := by
  constructor
  · rintro (rfl | ⟨ns, r, hr, hd, rfl⟩)
    · exact ⟨[], Or.inl rfl, rfl⟩
    · obtain ⟨-, i, hi, -, rfl⟩ := (w.reachable_iff hS).mp hr
      exact ⟨i.path, Or.inr ⟨i, hi, hd, rfl⟩, rfl⟩
  · rintro ⟨p, rfl | ⟨i, hi, hd, rfl⟩, rfl⟩
    · exact Or.inl rfl
    · obtain ⟨ms, n, hpath, -⟩ := L.named i hi
      exact Or.inr ⟨ms ++ [n], _, (w.reachable_iff hS).mpr ⟨by simp, i, hi, hpath, rfl⟩, hd, rfl⟩

/-- **An index with the same digest at its root lists the same**, digests included. -/
theorem entries_eq {L' : Index} {content' : Bytes → Bytes} {hs' : Hashes}
    (w' : L'.Within H S content' hs') (hroot : hs [] = hs' []) :
    (sortBy Inode.path L.inodes).map (fun i => (hs.apply i).entry) =
      (sortBy Inode.path L'.inodes).map fun i => (hs'.apply i).entry := by
  have hsorted : ∀ {L : Index} {hs : Hashes},
      StrictBy Entry.path ((sortBy Inode.path L.inodes).map fun i => (hs.apply i).entry) :=
    fun {L hs} => StrictBy.map (fun _ _ => rfl) (strictBy_sortBy L.nodup_paths)
  have hmem : ∀ {L : Index} {hs : Hashes} {e : Entry},
      e ∈ (sortBy Inode.path L.inodes).map (fun i => (hs.apply i).entry) ↔
        e ∈ L.inodes.map fun i => (hs.apply i).entry := by
    intro L hs e
    simp only [List.mem_map, mem_sortBy]
  refine hsorted.eq_of_mem_iff hsorted fun e => ?_
  rw [hmem, hmem, w.mem_entries_iff hS, w'.mem_entries_iff hS, hroot]

end Within

end Index

/-! ### The digest of a tree -/

section Digest

variable {H : HashFunction} {S : Set Bytes} {d₁ d₂ : Disk} {ignores₁ ignores₂ : Bytes → Bool}
  {root₁ root₂ : List Name}

/-- **A good run leaves an index within the byte strings it has at hand.** -/
theorem WriteTree.Good.within {ignores : Bytes → Bool} {d : Disk} {root : List Name}
    {file : Option Bytes} {st : Store} {w : WriteTree H d ignores root file st} (hw : w.Good)
    (hd : d.WellFormed) (hall : ∀ b ∈ w.atHand, b ∈ S) :
    w.scan.index.Within H S (d.contentAt root) w.final.hash where
  merkle := hw.merkle
  encodable := hw.merkle.encodable hd
  root := hall _ Index.mem_atHand_root
  dirs _ hi hdir := hall _ (Index.mem_atHand_of_dir hi hdir (Or.inl rfl))
  files _ hi hf := hall _ (Index.mem_atHand_of_file hi hf (Or.inl rfl))

/-- **Scans are of the same tree**: the same paths with the same types, permissions and targets,
and files with the same contents. -/
structure Scan.SameTree (s₁ : Scan d₁ ignores₁ root₁) (s₂ : Scan d₂ ignores₂ root₂) : Prop where
  looks : s₁.inodes.map Inode.look = s₂.inodes.map Inode.look
  contents : ∀ i ∈ s₁.inodes, i.isFile = true →
    d₁.contentAt root₁ i.path = d₂.contentAt root₂ i.path

/-- Scans of one directory under the same rules are of the same tree, if `lstat` fails for the same
entries. -/
theorem Scan.sameTree (s s' : Scan d₁ ignores₁ root₁)
    (hlost : ∀ p, d₁.lstat s.lost p = d₁.lstat s'.lost p) : s.SameTree s' where
  looks := by rw [s.inodes_eq s' hlost]
  contents _ _ _ := rfl

/-- Merkle-consistent scans of the same tree have the same digest at their roots. -/
theorem Scan.SameTree.root_eq {s₁ : Scan d₁ ignores₁ root₁} {s₂ : Scan d₂ ignores₂ root₂}
    {hs₁ hs₂ : Hashes} (h : s₁.SameTree s₂) (hm₁ : s₁.index.Merkle H (d₁.contentAt root₁) hs₁)
    (hm₂ : s₂.index.Merkle H (d₂.contentAt root₂) hs₂) : hs₁ [] = hs₂ [] := by
  have hm : s₂.index.Merkle H (d₂.contentAt root₂) hs₁ := hm₁.of_look h.looks h.contents
  exact (hm.unique hm₂).2

/-- **Scans with the same digest at their roots are of the same tree.** -/
theorem sameTree_of_root_eq {s₁ : Scan d₁ ignores₁ root₁} {s₂ : Scan d₂ ignores₂ root₂}
    {hs₁ hs₂ : Hashes} (hS : H.CollisionFree S)
    (w₁ : s₁.index.Within H S (d₁.contentAt root₁) hs₁)
    (w₂ : s₂.index.Within H S (d₂.contentAt root₂) hs₂) (hroot : hs₁ [] = hs₂ []) :
    s₁.SameTree s₂ := by
  have hentries := w₁.entries_eq hS w₂ hroot
  have hsort₁ : sortBy Inode.path s₁.index.inodes = s₁.inodes := s₁.strictBy_inodes.sortBy_eq
  have hsort₂ : sortBy Inode.path s₂.index.inodes = s₂.inodes := s₂.strictBy_inodes.sortBy_eq
  rw [hsort₁, hsort₂] at hentries
  refine ⟨?_, fun i hi hf => ?_⟩
  · have hlooks := congrArg (List.map fun e : Entry => (e.path, e.status, e.target)) hentries
    rwa [List.map_map, List.map_map] at hlooks
  · have hmem : (hs₁.apply i).entry ∈ s₂.inodes.map fun j => (hs₂.apply j).entry :=
      hentries ▸ List.mem_map_of_mem (f := fun j => (hs₁.apply j).entry) hi
    obtain ⟨j, hj, he⟩ := List.mem_map.mp hmem
    obtain ⟨hpath, hstatus, -, hhash⟩ := Inode.entry_eq_iff.mp he
    have hpath : j.path = i.path := hpath
    have hstatus : j.status = i.status := hstatus
    have hhash : hs₂ j.path = hs₁ i.path := hhash
    -- both are the byte string under one digest
    rw [← w₁.original_file hS hi hf, ← hhash,
      w₂.original_file hS hj (by rwa [Inode.isFile, hstatus]), hpath]

/-- **A digest is a tree.** Two runs of `write-tree`, each on a saved index that is up to date, on
any two disks, under any rules and on any content-addressed stores, print the same digest exactly if
they have listed the same paths with the same types, permissions and targets, and the files have the
same contents: neither mtimes nor what is ignored, cached or saved has a part in it. That is so if
no temporary file of a tree object loses bytes when it is closed. -/
theorem writeTree_digest_iff {file₁ file₂ : Option Bytes} {st₁ st₂ : Store}
    (hd₁ : d₁.WellFormed) (hd₂ : d₂.WellFormed) (w₁ : WriteTree H d₁ ignores₁ root₁ file₁ st₁)
    (w₂ : WriteTree H d₂ ignores₂ root₂ file₂ st₂) (hcur₁ : w₁.Current S) (hcur₂ : w₂.Current S)
    (hwhole₁ : w₁.Whole) (hwhole₂ : w₂.Whole) (hS : H.CollisionFree S)
    (hall₁ : ∀ b ∈ w₁.atHand, b ∈ S) (hall₂ : ∀ b ∈ w₂.atHand, b ∈ S)
    (hst₁ : ContentAddressed H st₁) (hst₂ : ContentAddressed H st₂) :
    w₁.digest = w₂.digest ↔ w₁.scan.SameTree w₂.scan := by
  have hgood₁ := hcur₁.good hwhole₁ hS hall₁ hst₁
  have hgood₂ := hcur₂.good hwhole₂ hS hall₂ hst₂
  exact ⟨sameTree_of_root_eq hS (hgood₁.within hd₁ hall₁) (hgood₂.within hd₂ hall₂),
    fun h => h.root_eq hgood₁.merkle hgood₂.merkle⟩

end Digest

open Sample in
/-- Two runs on the sample, the second on the index the first has saved. -/
theorem writeTree_digest_iff_sample :
    first.digest = second.digest ↔ first.scan.SameTree second.scan :=
  writeTree_digest_iff (S := {b | b ∈ strings}) disk_wellFormed disk_wellFormed first second
    (Or.inl rfl) (founded_second.current collisionFree) (WriteTree.whole_ofThread _ _ _)
    (WriteTree.whole_ofThread _ _ _) collisionFree atHand_first atHand_second
    (contentAddressed_empty _) (contentAddressed_empty _)

end Fstree
