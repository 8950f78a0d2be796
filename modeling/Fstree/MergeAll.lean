import Fstree.MergeTree
import Fstree.Overlay

/-!
# Merging the indexes of several paths

`simple::write_tree` of several paths begins with an empty index, and merges into it the index of
each path, one after the other (`Fstree.runMerges`). Each of them is written before, and it is the
index of a scan, so its list is that of a tree (`Fstree.WriteTree.treeList`); and a merge of two
such lists is such a list again (`Fstree.treeList_mergeNodes`).

So the merges end, and the last index that lists a path decides what stands there, if nothing that
was merged later has something else than a directory above it (`Fstree.write_all_overlays`). It
does not suffice to look at the first and the last: what a file has hidden does not come back when
a later index has a directory in its place.
-/

namespace Fstree

open SortedBy

/-! ### Merging two lists of trees -/

section Two

variable {A B : List Inode} {i : Inode}

/-- **Where an inode of a merge comes from.** -/
theorem exists_of_mem_mergeNodes (hA : TreeList A) (hB : TreeList B) (hi : i ∈ mergeNodes A B) :
    ∃ ns n j, (j ∈ B ∨ j ∈ A ∧ j.path ∉ B.map Inode.path) ∧ j.path = pathStr (ns ++ [n]) ∧
      i = placed (pathStr ns) j := by
  obtain ⟨ns, n, j, -, ⟨hp, hj⟩, rfl⟩ := (mem_mergeNodes hA.toSiblings hB.toSiblings).mp hi
  refine ⟨ns, n, j, hj.imp id fun ⟨hj, hnone⟩ => ⟨hj, fun hmem => ?_⟩, hp, rfl⟩
  obtain ⟨k, hk, hkp⟩ := List.mem_map.mp hmem
  exact hnone k hk (hkp.trans hp)

theorem parent_of_mem_mergeNodes (hA : TreeList A) (hB : TreeList B) (hi : i ∈ mergeNodes A B) :
    i.parent = some (parentPath i.path) := by
  obtain ⟨ns, n, j, -, hp, rfl⟩ := exists_of_mem_mergeNodes hA hB hi
  rw [placed_parent, placed_path, hp, parentPath_pathStr]

/-- **A merge of two trees is a tree.** -/
theorem treeList_mergeNodes (hA : TreeList A) (hB : TreeList B) : TreeList (mergeNodes A B) where
  normal i hi := by
    obtain ⟨ns, n, j, hj, -, rfl⟩ := exists_of_mem_mergeNodes hA hB hi
    rw [placed_path]
    exact hj.elim (hB.normal j) fun hj => hA.normal j hj.1
  nodup := List.pairwise_map.mpr
    ((pairwise_mergeRecursive hA.toSiblings hB.toSiblings _ []).imp fun h => h.1)
  closed i hi q hq := by
    obtain ⟨ks, rest, rfl, hp, hk, hr⟩ := hq
    obtain ⟨ns, n, j, habove, hpick, rfl⟩ :=
      (mem_mergeNodes hA.toSiblings hB.toSiblings).mp hi
    have he : ns ++ [n] = ks ++ rest := pathStr_injective (hpick.1.symm.trans hp)
    obtain ⟨dir, hdir, hisdir⟩ := habove ks rest he hk hr
    rw [List.nil_append] at hdir
    obtain ⟨as, a, rfl⟩ := (List.eq_nil_or_concat' ks).resolve_left hk
    -- what is above the directory is above the inode
    have hup : Above A B [] (as ++ [a]) := fun bs cs hbc hb hc =>
      habove bs (cs ++ rest) (by rw [he, hbc, List.append_assoc]) hb (by simp [hc])
    exact ⟨placed (pathStr as) dir, (mem_mergeNodes hA.toSiblings hB.toSiblings).mpr
      ⟨as, a, dir, hup, hdir, rfl⟩, hdir.1, hisdir⟩
  siblings := by
    refine (pairwise_mergeRecursive hA.toSiblings hB.toSiblings _ []).imp_of_mem
      fun hi hj h hparent => h.2.2 ?_
    rw [parent_of_mem_mergeNodes hA hB hi, parent_of_mem_mergeNodes hA hB hj, hparent]

end Two

/-! ### Merging many -/

/-- **The merges of `simple::write_tree`**: each list is merged into what was made of those before
it. -/
def runMerges (fuel : ℕ) (lists : List (List Inode)) : Option (List Inode) :=
  lists.foldlM (fun current other => (runMerge current other fuel).map Merging.inodes) []

/-- What the merges make. -/
def mergeAll (lists : List (List Inode)) : List Inode := lists.foldl mergeNodes []

section Many

variable {lists : List (List Inode)} {L M : List Inode} {p : Bytes} {i j : Inode} {fuel : ℕ}

theorem treeList_nil : TreeList [] where
  normal := nofun
  nodup := List.nodup_nil
  closed := nofun
  siblings := List.Pairwise.nil

theorem mergeAll_concat (L : List Inode) :
    mergeAll (lists ++ [L]) = mergeNodes (mergeAll lists) L := by
  rw [mergeAll, List.foldl_append]
  rfl

theorem forall_lists_concat {L : List Inode} {p : List Inode → Prop} :
    (∀ M ∈ lists ++ [L], p M) ↔ (∀ M ∈ lists, p M) ∧ p L := by
  rw [List.forall_mem_append, List.forall_mem_singleton]

/-- **Many trees are merged to a tree.** -/
theorem treeList_mergeAll (h : ∀ L ∈ lists, TreeList L) : TreeList (mergeAll lists) := by
  induction lists using List.reverseRecOn with
  | nil => exact treeList_nil
  | append_singleton lists L ih =>
    obtain ⟨hlists, hL⟩ := forall_lists_concat.mp h
    rw [mergeAll_concat]
    exact treeList_mergeNodes (ih hlists) hL

/-- Nothing is listed that no index has listed. -/
theorem exists_of_mem_mergeAll (h : ∀ L ∈ lists, TreeList L) (hi : i ∈ mergeAll lists) :
    ∃ L ∈ lists, i.path ∈ L.map Inode.path := by
  induction lists using List.reverseRecOn generalizing i with
  | nil => cases hi
  | append_singleton lists L ih =>
    obtain ⟨hlists, hL⟩ := forall_lists_concat.mp h
    rw [mergeAll_concat] at hi
    obtain ⟨ns, n, j, hj, -, rfl⟩ := exists_of_mem_mergeNodes (treeList_mergeAll hlists) hL hi
    rcases hj with hj | ⟨hj, -⟩
    · exact ⟨L, by simp, List.mem_map.mpr ⟨j, hj, rfl⟩⟩
    · obtain ⟨M, hM, hmem⟩ := ih hlists hj
      exact ⟨M, List.mem_append_left _ hM, hmem⟩

theorem maxPath_le {nodes : List Inode} {n : ℕ} (h : ∀ i ∈ nodes, i.path.length ≤ n) :
    maxPath nodes ≤ n := by
  induction nodes with
  | nil => exact Nat.zero_le n
  | cons i nodes ih =>
    obtain ⟨hi, hnodes⟩ := List.forall_mem_cons.mp h
    exact max_le hi (ih hnodes)

/-- **The merges end**: the calls go no deeper than the longest path of all indexes. -/
theorem runMerges_eq (h : ∀ L ∈ lists, TreeList L) (hfuel : maxPath lists.flatten < fuel) :
    runMerges fuel lists = some (mergeAll lists) := by
  have hpath : ∀ L ∈ lists, ∀ i ∈ L, i.path.length < fuel := fun L hL i hi =>
    lt_of_le_of_lt (le_maxPath (List.mem_flatten.mpr ⟨L, hL, hi⟩)) hfuel
  have hpos : 0 < fuel := Nat.zero_lt_of_lt hfuel
  clear hfuel
  induction lists using List.reverseRecOn with
  | nil => rfl
  | append_singleton lists L ih =>
    obtain ⟨hlists, hL⟩ := forall_lists_concat.mp h
    obtain ⟨hpaths, hpathL⟩ := forall_lists_concat.mp hpath
    have hshort : ∀ i ∈ mergeAll lists ++ L, i.path.length ≤ fuel - 1 := by
      intro i hi
      rcases List.mem_append.mp hi with hi | hi
      · obtain ⟨M, hM, hmem⟩ := exists_of_mem_mergeAll hlists hi
        obtain ⟨j, hj, hjp⟩ := List.mem_map.mp hmem
        have hlt := hpaths M hM j hj
        rw [hjp] at hlt
        omega
      · have hlt := hpathL i hi
        omega
    have hmerge := runMerge_eq (treeList_mergeAll hlists).toSiblings hL.toSiblings
      (lt_of_le_of_lt (maxPath_le hshort) (by omega) : _ < fuel)
    rw [runMerges, List.foldlM_append, ← runMerges, ih hlists hpaths, mergeAll_concat]
    simp [hmerge, Merging.ofInodes]

/-- That some element has `P` and all behind it have `Q`, when one more is put at the end. -/
theorem exists_split_concat {α : Type*} {l : List α} {a : α} {P Q : α → Prop} :
    (∃ pre b post, l ++ [a] = pre ++ b :: post ∧ P b ∧ ∀ c ∈ post, Q c) ↔
      P a ∨ Q a ∧ ∃ pre b post, l = pre ++ b :: post ∧ P b ∧ ∀ c ∈ post, Q c := by
  constructor
  · rintro ⟨pre, b, post, he, hb, hpost⟩
    rcases List.eq_nil_or_concat' post with rfl | ⟨post, c, rfl⟩
    · obtain ⟨-, he⟩ := List.append_inj' he rfl
      obtain rfl : a = b := by simpa using he
      exact Or.inl hb
    · rw [List.forall_mem_append, List.forall_mem_singleton] at hpost
      rw [← List.cons_append, ← List.append_assoc] at he
      obtain ⟨rfl, he⟩ := List.append_inj' he rfl
      obtain rfl : a = c := by simpa using he
      exact Or.inr ⟨hpost.2, pre, b, post, rfl, hb, hpost.1⟩
  · rintro (ha | ⟨ha, pre, b, post, rfl, hb, hpost⟩)
    · exact ⟨l, a, [], rfl, ha, nofun⟩
    · refine ⟨pre, b, post ++ [a], by simp, hb, ?_⟩
      rw [List.forall_mem_append, List.forall_mem_singleton]
      exact ⟨hpost, ha⟩

/-- **What is listed**: what some index lists, if no later one has something else than a directory
above it. -/
theorem mem_paths_mergeAll (h : ∀ L ∈ lists, TreeList L) (p : Bytes) :
    p ∈ (mergeAll lists).map Inode.path ↔
      ∃ pre L post, lists = pre ++ L :: post ∧ p ∈ L.map Inode.path ∧
        ∀ M ∈ post, ∀ b ∈ M, Ancestor b.path p → b.isDirectory = true := by
  induction lists using List.reverseRecOn with
  | nil => simp [mergeAll]
  | append_singleton lists L ih =>
    obtain ⟨hlists, hL⟩ := forall_lists_concat.mp h
    rw [mergeAll_concat, mem_paths_mergeNodes (treeList_mergeAll hlists) hL, ih hlists,
      exists_split_concat]
    exact or_congr_right and_comm

/-- **The last list with a path.** -/
def LastWith (lists : List (List Inode)) (p : Bytes) (L : List Inode) : Prop :=
  ∃ pre post, lists = pre ++ L :: post ∧ p ∈ L.map Inode.path ∧
    ∀ M ∈ post, p ∉ M.map Inode.path

theorem LastWith.mem (h : LastWith lists p L) : L ∈ lists := by
  obtain ⟨pre, post, rfl, -⟩ := h
  simp

theorem LastWith.listed (h : LastWith lists p L) : p ∈ L.map Inode.path := by
  obtain ⟨-, -, -, hp, -⟩ := h
  exact hp

theorem lastWith_concat : LastWith (lists ++ [M]) p L ↔
    M = L ∧ p ∈ M.map Inode.path ∨ p ∉ M.map Inode.path ∧ LastWith lists p L := by
  have hiff : ∀ ls, LastWith ls p L ↔ ∃ pre K post, ls = pre ++ K :: post ∧
      (K = L ∧ p ∈ K.map Inode.path) ∧ ∀ M ∈ post, p ∉ M.map Inode.path := by
    intro ls
    constructor
    · rintro ⟨pre, post, he, hp, hpost⟩
      exact ⟨pre, L, post, he, ⟨rfl, hp⟩, hpost⟩
    · rintro ⟨pre, K, post, he, ⟨rfl, hp⟩, hpost⟩
      exact ⟨pre, post, he, hp, hpost⟩
  rw [hiff, exists_split_concat, ← hiff]

/-- **What is merged is a clone** of what the last list with its path has. -/
theorem LastWith.eq_placed (h : LastWith lists i.path L) (htree : ∀ M ∈ lists, TreeList M)
    (hi : i ∈ mergeAll lists) (hj : j ∈ L) (hp : j.path = i.path) :
    i = placed (parentPath i.path) j := by
  induction lists using List.reverseRecOn generalizing i with
  | nil => cases h.mem
  | append_singleton lists K ih =>
    obtain ⟨hlists, hK⟩ := forall_lists_concat.mp htree
    rw [mergeAll_concat] at hi
    obtain ⟨ns, n, k, hk, hkp, rfl⟩ := exists_of_mem_mergeNodes (treeList_mergeAll hlists) hK hi
    rw [placed_path, hkp, parentPath_pathStr]
    rcases lastWith_concat.mp h with ⟨rfl, hmem⟩ | ⟨hnot, h⟩
    · have hkK : k ∈ K := hk.resolve_right fun hk => hk.2 hmem
      obtain rfl : j = k := eq_of_key_eq hK.nodup hj hkK hp
      rfl
    · obtain ⟨hk, -⟩ := hk.resolve_left fun hk => hnot (List.mem_map.mpr ⟨k, hk, rfl⟩)
      rw [ih (i := k) h hlists hk hp]
      rfl

/-- **The last index that lists a path decides** what is there. -/
theorem shows_of_mem_mergeAll (h : ∀ L ∈ lists, TreeList L) (hi : i ∈ mergeAll lists)
    {pre post : List (List Inode)} {L : List Inode} (he : lists = pre ++ L :: post)
    (hlast : ∀ M ∈ post, i.path ∉ M.map Inode.path) {a : Inode} (ha : a ∈ L)
    (hp : a.path = i.path) : i.Shows a ∧ i.hash = a.hash := by
  have hL : LastWith lists i.path L := ⟨pre, post, he, List.mem_map.mpr ⟨a, ha, hp⟩, hlast⟩
  obtain ⟨q, rfl⟩ : ∃ q, i = placed q a := ⟨_, hL.eq_placed h hi ha hp⟩
  exact ⟨⟨rfl, rfl, rfl, rfl⟩, rfl⟩

end Many

/-! ### Writing several paths -/

/-- **The loop of `simple::write_tree`** over several paths: each is written by itself, and
merged into the index, of which the list before and after is given. -/
inductive WritesAndMerges (H : HashFunction) : Store → List Inode → Store → List Inode → Prop
  | nil {st inodes} : WritesAndMerges H st inodes st inodes
  | cons {st st' inodes inodes' d root file}
      (w : WriteTree H d (fun _ => false) root file st)
      (h : WritesAndMerges H w.final.store (mergeNodes inodes w.inodes) st' inodes') :
      WritesAndMerges H st inodes st' inodes'

/-- The digests of the inodes of a list. -/
def digestsOf (inodes : List Inode) : Hashes := fun p =>
  ((lookup Inode.path p inodes).map Inode.hash).getD Digest.none

/-- **The writing of several paths**, one after the other, and the lists of their indexes. -/
inductive WritesAll (H : HashFunction) : Store → List (List Inode) → Store → Prop
  | nil {st} : WritesAll H st [] st
  | cons {st st' lists d root file} (w : WriteTree H d (fun _ => false) root file st)
      (h : WritesAll H w.final.store lists st') : WritesAll H st (w.inodes :: lists) st'

section Write

variable {H : HashFunction} {d : Disk} {ignores : Bytes → Bool} {root : List Name}
  {file : Option Bytes} {st st' : Store} {lists : List (List Inode)} {L inodes inodes' : List Inode}

/-- The list of a scan is that of a tree. -/
theorem Scan.treeList (s : Scan d ignores root) : TreeList s.inodes where
  normal i hi := by
    obtain ⟨ns, n, node, hl, rfl⟩ := s.mem_inodes.mp hi
    refine ⟨ns ++ [n], by simp, by simp [scanned], fun m hm => ?_⟩
    have hres := hl.1.not_reserved m hm
    simp only [reserved, List.mem_cons, not_or] at hres
    exact ⟨hres.1, hres.2.1⟩
  nodup := s.strictBy_inodes.nodup_keys
  closed i hi q hq := by
    obtain ⟨ks, rest, rfl, hp, hk, hr⟩ := hq
    obtain ⟨dir, hdir, hdp, hd⟩ := s.index.exists_above ks rest hk i hi hp
    exact ⟨dir, hdir, hdp, hd hr⟩
  siblings := s.strictBy_inodes.imp_of_mem fun _ _ h _ => h

/-- Digests do not matter for it. -/
theorem TreeList.map_apply (h : TreeList L) (hs : Hashes) : TreeList (L.map hs.apply) where
  normal := List.forall_mem_map.mpr h.normal
  nodup := by
    rw [List.map_map]
    exact h.nodup
  closed := List.forall_mem_map.mpr fun i hi q hq => by
    obtain ⟨dir, hdir, hdp, hd⟩ := h.closed i hi q hq
    exact ⟨hs.apply dir, List.mem_map_of_mem hdir, hdp, hd⟩
  siblings := List.pairwise_map.mpr h.siblings

theorem WriteTree.treeList (w : WriteTree H d ignores root file st) : TreeList w.inodes :=
  w.scan.treeList.map_apply _

theorem WritesAll.treeLists (h : WritesAll H st lists st') : ∀ L ∈ lists, TreeList L := by
  induction h with
  | nil => exact nofun
  | cons w _ ih => exact List.forall_mem_cons.mpr ⟨w.treeList, ih⟩

/-- **The loop of `simple::write_tree`** writes the paths, and merges their lists. -/
theorem writesAndMerges_iff : WritesAndMerges H st inodes st' inodes' ↔
    ∃ lists, WritesAll H st lists st' ∧ inodes' = lists.foldl mergeNodes inodes := by
  constructor
  · intro h
    induction h with
    | nil => exact ⟨[], .nil, rfl⟩
    | cons w _ ih =>
      obtain ⟨lists, hall, rfl⟩ := ih
      exact ⟨w.inodes :: lists, .cons w hall, rfl⟩
  · rintro ⟨lists, h, rfl⟩
    induction h generalizing inodes with
    | nil => exact .nil
    | cons w _ ih => exact .cons w ih

end Write

/-- **Writing several paths lays them over each other**, and ends. The index is that of a tree. A
path is in it if one of the indexes lists it, and no later one has something else than a directory
above it; and what stands there, with its digest, is what the last index that lists the path has
there. -/
theorem write_all_overlays {H : HashFunction} {st st' : Store} {lists : List (List Inode)}
    (h : WritesAll H st lists st') :
    ∃ nodes, WritesAndMerges H st [] st' nodes ∧
      (∀ fuel, maxPath lists.flatten < fuel → runMerges fuel lists = some nodes) ∧
      TreeList nodes ∧
      (∀ p, p ∈ nodes.map Inode.path ↔ ∃ pre L post, lists = pre ++ L :: post ∧
        p ∈ L.map Inode.path ∧
          ∀ M ∈ post, ∀ b ∈ M, Ancestor b.path p → b.isDirectory = true) ∧
      ∀ i ∈ nodes, ∀ pre L post, lists = pre ++ L :: post →
        (∀ M ∈ post, i.path ∉ M.map Inode.path) →
          ∀ a ∈ L, a.path = i.path → i.Shows a ∧ i.hash = a.hash :=
  ⟨mergeAll lists, writesAndMerges_iff.mpr ⟨lists, h, rfl⟩,
    fun _ => runMerges_eq h.treeLists, treeList_mergeAll h.treeLists,
    mem_paths_mergeAll h.treeLists, fun _ hi _ _ _ he hlast _ ha hp =>
      shows_of_mem_mergeAll h.treeLists hi he hlast ha hp⟩

set_option maxRecDepth 8000 in
/-- The two sample workspaces are written: the symlinks `d/l` of the first and `d/m` of the second
are both in the index. -/
theorem write_all_overlays_sample : ∃ nodes,
    WritesAndMerges Sample.hashM Store.empty [] Sample.storeM nodes ∧
      pathStr [Sample.d, Sample.l] ∈ nodes.map Inode.path ∧
      pathStr [Sample.d, Sample.m] ∈ nodes.map Inode.path := by
  obtain ⟨nodes, hrun, -, -, hpaths, -⟩ :=
    write_all_overlays (.cons Sample.left (.cons Sample.right .nil))
  refine ⟨nodes, hrun, (hpaths _).mpr
    ⟨[], Sample.left.inodes, [Sample.right.inodes], rfl, by decide, fun M hM b hb hbelow => ?_⟩,
    (hpaths _).mpr ⟨[Sample.left.inodes], Sample.right.inodes, [], rfl, by decide, nofun⟩⟩
  obtain rfl := List.mem_singleton.mp hM
  have hnodes : ∀ b ∈ Sample.right.inodes,
      b.isDirectory = true ∨ b.path = pathStr [Sample.d, Sample.m] := by decide
  refine (hnodes b hb).resolve_right fun hm => ?_
  -- nothing is below `d/m`
  obtain ⟨ns, ms, hns, hl, -, hms⟩ := hbelow
  obtain rfl : [Sample.d, Sample.m] = ns := pathStr_injective (hm.symm.trans hns)
  have hlen := congrArg List.length (pathStr_injective hl)
  simp [hms] at hlen

end Fstree
