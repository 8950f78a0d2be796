import Fstree.Scan
import Mathlib.Data.List.Induction

/-!
# Indexes

An index is a list of inodes with, for each directory, the inodes that are its
children; the two are built together by a scan, by a merge, and by the reader of
trees. `Fstree.Index` carries what all of them keep: the paths are distinct, a
parent pointer cuts the last name off, a directory stands before its children,
and the children of a directory that are not ignored are the listed inodes that
point to it. The digests of an index live beside it, in a map from paths
(`Fstree.Hashes`), because they are what changes while the shape stays.

`Fstree.Index.tree` is the content of the tree object of a directory: its
children sorted by path. It depends on the digests of the listed children only
(`Fstree.Index.tree_congr`), and it determines them
(`Fstree.Index.entries_eq_of_tree_eq`).

An index is **Merkle-consistent** (`Fstree.Index.Merkle`) when the digest of a
file is the sum of its content and the digest of a directory is the sum of its
tree object. There is one way to be so (`Fstree.Index.Merkle.unique`).
-/

namespace Fstree

open SortedBy

/-! ### Digests by path -/

/-- The digests of the inodes of an index, by path. -/
abbrev Hashes := Bytes → Digest

namespace Hashes

/-- No inode has a digest. -/
def clean : Hashes := fun _ => Digest.none

/-- `inode::set_hash` of the inode at a path. -/
def set (hs : Hashes) (p : Bytes) (h : Digest) : Hashes := Function.update hs p h

@[simp] theorem set_self (hs : Hashes) (p : Bytes) (h : Digest) : hs.set p h p = h := by
  simp [set]

theorem set_of_ne (hs : Hashes) {p q : Bytes} (hq : q ≠ p) (h : Digest) :
    hs.set p h q = hs q := by
  simp [set, hq]

/-- An inode with the digest of its path. -/
def apply (hs : Hashes) (i : Inode) : Inode := i.setHash (hs i.path)

@[simp] theorem apply_path (hs : Hashes) (i : Inode) : (hs.apply i).path = i.path := rfl

@[simp] theorem apply_hash (hs : Hashes) (i : Inode) : (hs.apply i).hash = hs i.path := rfl

@[simp] theorem apply_ignored (hs : Hashes) (i : Inode) : (hs.apply i).ignored = i.ignored := rfl

end Hashes

/-! ### Indexes -/

/-- **An index**: `_inodes`, and `_children` by the path of the directory. -/
structure Index where
  inodes : List Inode
  children : Bytes → List Inode
  nodup_paths : (inodes.map Inode.path).Nodup
  /-- A parent pointer cuts the last name off. -/
  named : ∀ i ∈ inodes, ∃ ns n, i.path = pathStr (ns ++ [n]) ∧ i.parent = some (pathStr ns)
  not_ignored : ∀ i ∈ inodes, i.ignored = false
  /-- Only a symlink has a target. -/
  target_nil : ∀ i ∈ inodes, i.isSymlink = false → i.target = []
  /-- No inode stands before its parent. -/
  parents_first : inodes.Pairwise fun i j => i.parent ≠ some j.path
  parent_mem : ∀ i ∈ inodes, ∀ p, i.parent = some p →
    p = [] ∨ ∃ j ∈ inodes, j.path = p ∧ j.isDirectory = true
  nodup_children : ∀ p, ((children p).map Inode.path).Nodup
  mem_children : ∀ p c, (c ∈ children p ∧ c.ignored = false) ↔ (c ∈ inodes ∧ c.parent = some p)

/-- The index a scan makes. -/
def Scan.index {d : Disk} {ignores : Bytes → Bool} {root : List Name}
    (s : Scan d ignores root) : Index where
  inodes := s.inodes
  children := s.children
  nodup_paths := s.strictBy_inodes.nodup_keys
  named := fun i hi => by
    obtain ⟨ns, n, node, -, rfl⟩ := s.mem_inodes.mp hi
    exact ⟨ns, n, by simp [scanned], by simp [scanned]⟩
  not_ignored := fun i hi => s.not_ignored hi
  target_nil := fun i hi hl => by
    obtain ⟨ns, n, node, -, rfl⟩ := s.mem_inodes.mp hi
    exact Node.target_of_not_isLink (by simpa [scanned, Inode.isSymlink] using hl)
  parents_first := by
    refine s.strictBy_inodes.imp_of_mem fun {i j} hi _ hij hp => ?_
    exact lt_asymm hij (s.parent_lt hi hp)
  parent_mem := fun i hi p hp => s.mem_inodes_parent hi hp
  nodup_children := fun p => s.nodup_paths_marked.sublist (List.filter_sublist.map _)
  mem_children := fun p c => by
    rw [Scan.children, List.mem_filter, Scan.inodes, List.mem_filter, mem_sortBy]
    simp only [decide_eq_true_eq, Bool.not_eq_true']
    tauto

namespace Index

variable (L : Index)

theorem path_ne_nil {i : Inode} (h : i ∈ L.inodes) : i.path ≠ [] := by
  obtain ⟨ns, n, hp, -⟩ := L.named i h
  simp [hp]

theorem exists_parent {i : Inode} (h : i ∈ L.inodes) : ∃ p, i.parent = some p := by
  obtain ⟨ns, n, -, hp⟩ := L.named i h
  exact ⟨_, hp⟩

/-- A parent is shorter than its child. -/
theorem parent_length_lt {i : Inode} (h : i ∈ L.inodes) {p : Bytes} (hp : i.parent = some p) :
    p.length < i.path.length := by
  obtain ⟨ns, n, hpath, hparent⟩ := L.named i h
  obtain rfl : pathStr ns = p := Option.some.inj (by rw [← hparent, ← hp])
  rw [hpath]
  exact pathStr_length_lt ns n

/-- **Listed inodes are told apart by their paths.** -/
theorem eq_of_path_eq {i j : Inode} (hi : i ∈ L.inodes) (hj : j ∈ L.inodes)
    (h : i.path = j.path) : i = j :=
  eq_of_key_eq L.nodup_paths hi hj h

/-- The directories above a listed inode are listed. -/
theorem exists_above (ks rest : List Name) (hk : ks ≠ []) : ∀ i ∈ L.inodes,
    i.path = pathStr (ks ++ rest) → ∃ j ∈ L.inodes, j.path = pathStr ks ∧
      (rest ≠ [] → j.isDirectory = true) := by
  induction rest using List.reverseRecOn with
  | nil => exact fun i hi hp => ⟨i, hi, by simpa using hp, fun h => absurd rfl h⟩
  | append_singleton rest r ih =>
    intro i hi hp
    obtain ⟨ns, n, hpath, hparent⟩ := L.named i hi
    rw [← List.append_assoc] at hp
    obtain ⟨rfl, -⟩ := pathStr_concat_inj.mp (hpath.symm.trans hp)
    rcases L.parent_mem i hi _ hparent with hnil | ⟨j, hj, hjp, hjd⟩
    · simp [hk] at hnil
    · obtain ⟨k, hk', hkp, hkd⟩ := ih j hj hjp
      refine ⟨k, hk', hkp, fun _ => ?_⟩
      by_cases hrest : rest = []
      · rw [hrest, List.append_nil, ← hkp] at hjp
        rwa [L.eq_of_path_eq hk' hj hjp.symm]
      · exact hkd hrest

/-- **A part of an index** that holds the directory of everything in it. -/
def restrict (P : Inode → Prop) [DecidablePred P]
    (hP : ∀ i ∈ L.inodes, P i → ∀ j ∈ L.inodes, i.parent = some j.path → P j) : Index where
  inodes := L.inodes.filter P
  children p := (L.inodes.filter P).filter fun i => i.parent = some p
  nodup_paths := L.nodup_paths.sublist (List.filter_sublist.map _)
  named i hi := L.named i (List.mem_filter.mp hi).1
  not_ignored i hi := L.not_ignored i (List.mem_filter.mp hi).1
  target_nil i hi := L.target_nil i (List.mem_filter.mp hi).1
  parents_first := L.parents_first.sublist List.filter_sublist
  parent_mem i hi p hp := by
    obtain ⟨hmem, hPi⟩ := List.mem_filter.mp hi
    refine (L.parent_mem i hmem p hp).imp id ?_
    rintro ⟨j, hj, rfl, hd⟩
    exact ⟨j, List.mem_filter.mpr ⟨hj, by simpa using hP i hmem (by simpa using hPi) j hj hp⟩,
      rfl, hd⟩
  nodup_children p :=
    L.nodup_paths.sublist ((List.filter_sublist.trans List.filter_sublist).map _)
  mem_children p c := by
    constructor
    · rintro ⟨hc, -⟩
      obtain ⟨hmem, hp⟩ := List.mem_filter.mp hc
      exact ⟨hmem, by simpa using hp⟩
    · rintro ⟨hc, hp⟩
      exact ⟨List.mem_filter.mpr ⟨hc, by simpa using hp⟩,
        L.not_ignored c (List.mem_filter.mp hc).1⟩

/-! ### Tree objects of an index -/

/-- The listed children of a directory, sorted. -/
def listed (p : Bytes) : List Inode :=
  sortBy Inode.path (L.inodes.filter fun i => i.parent = some p)

@[simp] theorem mem_listed {p : Bytes} {c : Inode} :
    c ∈ L.listed p ↔ c ∈ L.inodes ∧ c.parent = some p := by
  simp [listed]

theorem strictBy_listed (p : Bytes) : StrictBy Inode.path (L.listed p) :=
  strictBy_sortBy (L.nodup_paths.sublist (List.filter_sublist.map _))

/-- The sorted children of a directory that are not ignored are the listed ones. -/
theorem sorted_children (p : Bytes) :
    ((sortBy Inode.path (L.children p)).filter fun c => !c.ignored) = L.listed p := by
  refine ((strictBy_sortBy (L.nodup_children p)).filter _).eq_of_mem_iff (L.strictBy_listed p)
    fun c => ?_
  rw [List.mem_filter, mem_sortBy, mem_listed, ← L.mem_children]
  simp

/-- The listed children of a directory, with their digests. -/
def entries (hs : Hashes) (p : Bytes) : List Inode := (L.listed p).map hs.apply

/-- **The content of the tree object** of a directory: its children, sorted, with
their digests. -/
def tree (hs : Hashes) (p : Bytes) : Bytes :=
  encodeTree ((sortBy Inode.path (L.children p)).map hs.apply)

theorem filter_map_apply (hs : Hashes) (l : List Inode) :
    ((l.map hs.apply).filter fun c => !c.ignored) =
      (l.filter fun c => !c.ignored).map hs.apply := by
  rw [List.filter_map]
  rfl

theorem tree_eq (hs : Hashes) (p : Bytes) :
    L.tree hs p = treeHeader ++ (L.entries hs p).flatMap putChild := by
  rw [tree, encodeTree, filter_map_apply, sorted_children, entries]

/-- **A tree object depends on the digests of the listed children.** -/
theorem tree_congr {hs hs' : Hashes} {p : Bytes}
    (h : ∀ c ∈ L.inodes, c.parent = some p → hs c.path = hs' c.path) :
    L.tree hs p = L.tree hs' p := by
  have he : L.entries hs p = L.entries hs' p := List.map_congr_left fun c hc => by
    obtain ⟨hmem, hp⟩ := L.mem_listed.mp hc
    rw [Hashes.apply, Hashes.apply, h c hmem hp]
  rw [tree_eq, tree_eq, he]

/-- **Directories with the same records have one tree object.** -/
theorem tree_eq_of_entries {L' : Index} {hs hs' : Hashes} {p : Bytes}
    (h : ∀ e, (∃ c ∈ L.inodes, c.parent = some p ∧ (hs.apply c).entry = e) ↔
      ∃ c ∈ L'.inodes, c.parent = some p ∧ (hs'.apply c).entry = e) :
    L.tree hs p = L'.tree hs' p := by
  have hsort : ∀ (L : Index) (hs : Hashes),
      StrictBy Entry.path ((L.entries hs p).map Inode.entry) :=
    fun L hs => StrictBy.map (fun _ _ => rfl) (StrictBy.map (fun _ _ => rfl) (L.strictBy_listed p))
  have hentries : (L.entries hs p).map Inode.entry = (L'.entries hs' p).map Inode.entry := by
    refine (hsort L hs).eq_of_mem_iff (hsort L' hs') fun e => ?_
    simpa [entries, and_assoc] using h e
  have hput : ∀ l l' : List Inode, l.map Inode.entry = l'.map Inode.entry →
      l.flatMap putChild = l'.flatMap putChild := by
    intro l
    induction l with
    | nil =>
      intro l' hl
      rw [List.map_eq_nil_iff.mp hl.symm]
    | cons a l ih =>
      intro l' hl
      obtain ⟨b, l'', rfl, hb, hl''⟩ := List.map_eq_cons_iff.mp hl.symm
      rw [List.flatMap_cons, List.flatMap_cons, putChild_congr hb, ih l'' hl''.symm]
  rw [tree_eq, tree_eq, hput _ _ hentries]

/-- The records of a directory can be read back. -/
def EncodableAt (hs : Hashes) (p : Bytes) : Prop :=
  ∀ c ∈ L.inodes, c.parent = some p → (hs.apply c).Encodable

theorem encodable_children {hs : Hashes} {p : Bytes} (h : L.EncodableAt hs p) :
    ∀ c ∈ (sortBy Inode.path (L.children p)).map hs.apply, c.ignored = false → c.Encodable := by
  intro c hc hign
  obtain ⟨c', hc', rfl⟩ := List.mem_map.mp hc
  obtain ⟨hmem, hp⟩ := (L.mem_children p c').mp ⟨mem_sortBy.mp hc', hign⟩
  exact h c' hmem hp

/-- **Reading the tree object of a directory** gives its listed children. -/
theorem decodeTree_tree {hs : Hashes} {p : Bytes} (h : L.EncodableAt hs p) (parent : Bytes) :
    decodeTree parent (L.tree hs p) = ((L.entries hs p).map (·.decoded parent), none) := by
  rw [tree, decodeTree_encodeTree (L.encodable_children h), filter_map_apply, sorted_children,
    entries]

/-- **A tree object determines the entries of its directory.** -/
theorem entries_eq_of_tree_eq {L' : Index} {hs hs' : Hashes} {p p' : Bytes}
    (h : L.EncodableAt hs p) (h' : L'.EncodableAt hs' p') (he : L.tree hs p = L'.tree hs' p')
    (parent : Bytes) :
    (L.entries hs p).map (·.decoded parent) = (L'.entries hs' p').map (·.decoded parent) := by
  have hd := L.decodeTree_tree h parent
  rw [he, L'.decodeTree_tree h'] at hd
  exact (congrArg Prod.fst hd).symm

/-- The records two directories have alike, one for one. -/
theorem exists_entry_of_tree_eq {L L' : Index} {hs hs' : Hashes} {p : Bytes}
    (h : L.EncodableAt hs p) (h' : L'.EncodableAt hs' p) (he : L.tree hs p = L'.tree hs' p)
    {c : Inode} (hc : c ∈ L.inodes) (hp : c.parent = some p) :
    ∃ c' ∈ L'.inodes, c'.parent = some p ∧ c'.path = c.path ∧ c'.status = c.status ∧
      hs' c'.path = hs c.path := by
  have hl := L.entries_eq_of_tree_eq h h' he p
  have hm : (hs.apply c).decoded p ∈ (L.entries hs p).map (·.decoded p) :=
    List.mem_map_of_mem (List.mem_map_of_mem (L.mem_listed.mpr ⟨hc, hp⟩))
  rw [hl] at hm
  obtain ⟨e, he', heq⟩ := List.mem_map.mp hm
  obtain ⟨c', hc', rfl⟩ := List.mem_map.mp he'
  obtain ⟨hmem, hp'⟩ := L'.mem_listed.mp hc'
  have hpath : ∀ {L : Index} {hs : Hashes} {c : Inode}, c ∈ L.inodes → c.parent = some p →
      ((hs.apply c).decoded p).path = c.path := by
    intro L hs c hc hp
    obtain ⟨ns, n, hpath, hparent⟩ := L.named c hc
    obtain rfl : pathStr ns = p := Option.some.inj (by rw [← hparent, ← hp])
    simp [Inode.decoded, Inode.name, hpath]
  refine ⟨c', hmem, hp', ?_, ?_, ?_⟩
  · have h1 := congrArg Inode.path heq
    rwa [hpath hmem hp', hpath hc hp] at h1
  · have h2 := congrArg Inode.status heq
    exact h2
  · have h3 := congrArg Inode.hash heq
    exact h3

/-! ### Merkle consistency -/

/-- **A Merkle-consistent index**: the digest of a file is the sum of its
content, the digest of a directory – the root included – the sum of its tree
object, and nothing else has one. -/
structure Merkle (H : HashFunction) (content : Bytes → Bytes) (hs : Hashes) : Prop where
  file : ∀ i ∈ L.inodes, i.isFile = true → hs i.path = H.sum (content i.path)
  dir : ∀ i ∈ L.inodes, i.isDirectory = true → hs i.path = H.sum (L.tree hs i.path)
  other : ∀ i ∈ L.inodes, i.isFile = false → i.isDirectory = false → hs i.path = Digest.none
  root : hs [] = H.sum (L.tree hs [])

/-- The digests of a Merkle-consistent index are well formed. -/
theorem Merkle.wellFormed {L : Index} {H : HashFunction} {content : Bytes → Bytes} {hs : Hashes}
    (h : L.Merkle H content hs) {i : Inode} (hi : i ∈ L.inodes) : (hs i.path).WellFormed := by
  by_cases hf : i.isFile = true
  · rw [h.file i hi hf]
    exact H.sum_wellFormed _
  · by_cases hd : i.isDirectory = true
    · rw [h.dir i hi hd]
      exact H.sum_wellFormed _
    · rw [h.other i hi (by simpa using hf) (by simpa using hd)]
      exact Or.inl rfl

/-- Merkle consistency is a matter of the inodes. -/
theorem Merkle.of_inodes_eq {L L' : Index} {H : HashFunction} {content : Bytes → Bytes}
    {hs : Hashes} (h : L.Merkle H content hs) (he : L.inodes = L'.inodes) :
    L'.Merkle H content hs := by
  have htree : ∀ p, L.tree hs p = L'.tree hs p := fun p =>
    L.tree_eq_of_entries fun e => by rw [he]
  refine ⟨fun i hi => h.file i (he ▸ hi), fun i hi hd => ?_, fun i hi => h.other i (he ▸ hi), ?_⟩
  · rw [← htree]
    exact h.dir i (he ▸ hi) hd
  · rw [← htree]
    exact h.root

/-- No listed path is longer. -/
theorem length_le_maximum {i : Inode} (h : i ∈ L.inodes) :
    i.path.length ≤ (L.inodes.map fun i => i.path.length).foldr max 0 := by
  have hm : i.path.length ∈ L.inodes.map fun i => i.path.length := List.mem_map.mpr ⟨i, h, rfl⟩
  exact List.le_max_of_le' 0 hm le_rfl

/-- **Induction over an index from the leaves**: what holds of an inode as soon as
it holds of its children holds of all inodes. -/
theorem induction_children {P : Inode → Prop}
    (h : ∀ i ∈ L.inodes, (∀ c ∈ L.inodes, c.parent = some i.path → P c) → P i) :
    ∀ i ∈ L.inodes, P i := by
  suffices hs : ∀ k : ℕ, ∀ i ∈ L.inodes,
      (L.inodes.map fun i => i.path.length).foldr max 0 - i.path.length ≤ k → P i from
    fun i hi => hs _ i hi le_rfl
  intro k
  induction k with
  | zero =>
    intro i hi hk
    refine h i hi fun c hc hp => ?_
    have h1 := L.parent_length_lt hc hp
    have h2 := L.length_le_maximum hc
    omega
  | succ k ih =>
    intro i hi hk
    refine h i hi fun c hc hp => ih c hc ?_
    have h1 := L.parent_length_lt hc hp
    omega

/-- **There is one way to be Merkle-consistent.** -/
theorem Merkle.unique {L : Index} {H : HashFunction} {content : Bytes → Bytes} {hs hs' : Hashes}
    (h : L.Merkle H content hs) (h' : L.Merkle H content hs') :
    (∀ i ∈ L.inodes, hs i.path = hs' i.path) ∧ hs [] = hs' [] := by
  have hall : ∀ i ∈ L.inodes, hs i.path = hs' i.path := by
    refine L.induction_children fun i hi ih => ?_
    by_cases hf : i.isFile = true
    · rw [h.file i hi hf, h'.file i hi hf]
    · by_cases hd : i.isDirectory = true
      · rw [h.dir i hi hd, h'.dir i hi hd, L.tree_congr ih]
      · have hf' : i.isFile = false := by simpa using hf
        have hd' : i.isDirectory = false := by simpa using hd
        rw [h.other i hi hf' hd', h'.other i hi hf' hd']
  refine ⟨hall, ?_⟩
  rw [h.root, h'.root, L.tree_congr fun c hc _ => hall c hc]

end Index

end Fstree
