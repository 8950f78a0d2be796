import Fstree.IndexGlob
import Fstree.RefreshRule

/-!
# Ignored inodes that are found

After a refresh `_inodes` is the list of a scan and `_root` is the root of it. An ignored file or
symlink is not in the list, but it is still a child of its directory, with a flag that says so:
`operator<<` looks at the flag, and `glob_match_node` does not.

The tree of the scan (`Fstree.Scan.tree`) mirrors the list in the sense of `Fstree.Mirrors`, and has
each inode once (`Fstree.Scan.nodup_tree`). So what `index::glob` finds is what the pattern matches
in the tree, ignored or not (`Fstree.glob_listed_iff`): the pattern `a` finds a file `a` that the
ignore list names (`Fstree.glob_finds_ignored`).
-/

namespace Fstree

open Codec SortedBy

/-! ### The tree of a scan -/

/-- The tree below an inode, as deep as the fuel goes: the children of an inode are kept by its
path. -/
def inodeTree (children : Bytes → List Inode) : ℕ → Inode → InodeTree
  | 0, i => .node i []
  | fuel + 1, i => .node i ((children i.path).map (inodeTree children fuel))

/-- `inode()`, the root of a scan. -/
def scanRoot : Inode where
  path := []
  status := ⟨.directory, 0⟩
  mtime := 0
  size := 0
  target := []

/-- `_children` of the inode with path `p`, with their digests. -/
def Scan.childrenOf {d : Disk} {ignores : Bytes → Bool} {root : List Name} (s : Scan d ignores root)
    (hs : Hashes) (p : Bytes) : List Inode := (s.children p).map hs.apply

/-- **`_root` after a scan**, with the digests that a refresh has set. -/
def Scan.tree {d : Disk} {ignores : Bytes → Bool} {root : List Name} (s : Scan d ignores root)
    (hs : Hashes) : InodeTree :=
  inodeTree (s.childrenOf hs) (d.depth + 1) scanRoot

/-- `_inodes` after a refresh, with its digests. -/
def Refreshing.list (r : Refreshing) : List Inode := r.inodes.map r.hashes.apply

/-- **`index::refresh`** from a scan. -/
def Scan.refreshed {d : Disk} {ignores : Bytes → Bool} {root : List Name} (H : HashFunction)
    (s : Scan d ignores root) (old : List Inode) : Refreshing :=
  runRefresh H s.parentOf s.inodes old

/-- **`index::glob`** with a list of patterns: what they find is sorted, and what has the path of
the one before it is dropped. -/
def globPatterns (patterns : List Bytes) (root : InodeTree) (inodes : List Inode) :
    Except String (List Inode) := do
  let result ← patterns.foldlM (fun result p => do return result ++ (← glob p root inodes)) []
  return uniqueBy Inode.path (sortBy Inode.path result)

section Tree

variable {d : Disk} {ignores : Bytes → Bool} {root : List Name} (s : Scan d ignores root)
  (hs : Hashes) {ns : List Name} {n : Name} {node : Node} {i j : Inode}

/-- **The inodes of a scan** are made of what it visits. -/
theorem Scan.mem_marked : i ∈ s.marked ↔ ∃ ns n node,
    Visits d s.lost ignores root [] (ns ++ [n]) node ∧
    i = mark ignores (scanned (pathStr ns) n node) := by
  simp only [marked, List.mem_map, s.mem_appended]
  constructor
  · rintro ⟨_, ⟨ns, n, node, hv, rfl⟩, rfl⟩
    exact ⟨ns, n, node, hv, rfl⟩
  · rintro ⟨ns, n, node, hv, rfl⟩
    exact ⟨_, ⟨ns, n, node, hv, rfl⟩, rfl⟩

theorem mark_isDirectory : (mark ignores i).isDirectory = i.isDirectory := by
  rw [mark]
  split <;> rfl

/-- The inode at a path is the one made of what is visited there. -/
theorem Scan.eq_mark (hi : i ∈ s.marked) (hp : i.path = pathStr (ns ++ [n]))
    (hv : Visits d s.lost ignores root [] (ns ++ [n]) node) :
    i = mark ignores (scanned (pathStr ns) n node) := by
  refine eq_of_key_eq s.nodup_paths_marked hi (s.mem_marked.mpr ⟨ns, n, node, hv, rfl⟩) ?_
  rw [hp]
  simp [scanned]

/-- What is visited has an inode. -/
theorem Scan.exists_marked (hv : Visits d s.lost ignores root [] (ns ++ [n]) node) :
    ∃ i ∈ s.children (pathStr ns), i.path = pathStr (ns ++ [n]) ∧ i.isDirectory = node.isDir := by
  refine ⟨mark ignores (scanned (pathStr ns) n node), ?_, by simp [scanned], ?_⟩
  · exact List.mem_filter.mpr ⟨s.mem_marked.mpr ⟨ns, n, node, hv, rfl⟩, by simp [scanned]⟩
  · rw [mark_isDirectory]
    simp [scanned, Inode.isDirectory]

/-- A child of a path is visited there. -/
theorem Scan.mem_children (hc : i ∈ s.children (pathStr ns)) : i ∈ s.marked ∧
    ∃ n node, Visits d s.lost ignores root [] (ns ++ [n]) node ∧ i.path = pathStr (ns ++ [n]) := by
  obtain ⟨hi, hparent⟩ := List.mem_filter.mp hc
  refine ⟨hi, ?_⟩
  obtain ⟨ms, n, node, hv, rfl⟩ := s.mem_marked.mp hi
  obtain rfl : ms = ns := by simpa [scanned] using hparent
  exact ⟨n, node, hv, by simp [scanned]⟩

/-- A tree below an inode is that of a child. -/
theorem Scan.mem_subtrees {fuel : ℕ} {p : Bytes} {t : InodeTree}
    (ht : t ∈ (s.childrenOf hs p).map (inodeTree (s.childrenOf hs) fuel)) :
    ∃ c ∈ s.children p, t = inodeTree (s.childrenOf hs) fuel (hs.apply c) := by
  obtain ⟨i, hi, rfl⟩ := List.mem_map.mp ht
  obtain ⟨c, hc, rfl⟩ := List.mem_map.mp hi
  exact ⟨c, hc, rfl⟩

/-- **The tree below an inode is at its place.** -/
theorem Scan.placed_inodeTree (fuel : ℕ) (hi : i ∈ s.marked) (hp : i.path = pathStr (ns ++ [n])) :
    (inodeTree (s.childrenOf hs) fuel (hs.apply i)).Placed ns := by
  induction fuel generalizing i ns n with
  | zero => exact .node hp (fun h => absurd rfl h) fun c hc => absurd hc List.not_mem_nil
  | succ fuel ih =>
    refine .node hp (fun hne => ?_) fun t ht => ?_
    · obtain ⟨t, ht⟩ := List.exists_mem_of_ne_nil _ hne
      obtain ⟨c, hc, -⟩ := s.mem_subtrees hs ht
      rw [Hashes.apply_path, hp] at hc
      -- a directory is above what is visited
      obtain ⟨-, m, node, hv, -⟩ := s.mem_children hc
      obtain ⟨habove, -⟩ := visits_concat.mp hv
      obtain ⟨dir, hdir, hd⟩ := habove.resolve_left (by simp)
      change i.isDirectory = true
      rw [s.eq_mark hi hp hdir, mark_isDirectory]
      simpa [scanned, Inode.isDirectory] using hd
    · obtain ⟨c, hc, rfl⟩ := s.mem_subtrees hs ht
      rw [Hashes.apply_path, hp] at hc
      obtain ⟨hc, m, node, -, hpath⟩ := s.mem_children hc
      exact ih hc hpath

/-- What is in the tree below an inode is that inode, or made by the scan. -/
theorem Scan.marked_of_has (fuel : ℕ) (hi : i ∈ s.marked)
    (hj : (inodeTree (s.childrenOf hs) fuel (hs.apply i)).Has j) :
    ∃ k ∈ s.marked, j = hs.apply k := by
  induction fuel generalizing i with
  | zero =>
    cases hj with
    | self => exact ⟨i, hi, rfl⟩
    | child hc => cases hc
  | succ fuel ih =>
    cases hj with
    | self => exact ⟨i, hi, rfl⟩
    | child ht hj =>
      obtain ⟨c, hc, rfl⟩ := s.mem_subtrees hs ht
      exact ih (List.mem_filter.mp hc).1 hj

theorem inodeTree_has_self (children : Bytes → List Inode) (fuel : ℕ) :
    (inodeTree children fuel i).Has i := by
  cases fuel <;> exact .self

/-- **All that is visited is in the tree**, if it has the depth. -/
theorem Scan.exists_has {base rest : List Name} (hv : Visits d s.lost ignores root base rest node)
    (hbase : base = [] ∨ ∃ dir, Visits d s.lost ignores root [] base dir ∧ dir.isDir = true)
    {fuel : ℕ}
    (hfuel : rest.length ≤ fuel + 1) (hj : j ∈ s.marked) (hp : j.path = pathStr (base ++ rest)) :
    ∃ c ∈ s.children (pathStr base),
      (inodeTree (s.childrenOf hs) fuel (hs.apply c)).Has (hs.apply j) := by
  induction hv generalizing fuel with
  | @here base n node hget hres hign =>
    have hv : Visits d s.lost ignores root [] (base ++ [n]) node :=
      visits_concat.mpr ⟨hbase, hget, hres, hign⟩
    refine ⟨j, ?_, inodeTree_has_self _ _⟩
    rw [s.eq_mark hj hp hv]
    exact List.mem_filter.mpr ⟨s.mem_marked.mpr ⟨base, n, node, hv, rfl⟩, by simp [scanned]⟩
  | @down base n dir rest node hget hdir hres hign hrest ih =>
    have hv : Visits d s.lost ignores root [] (base ++ [n]) dir :=
      visits_concat.mpr ⟨hbase, hget, hres, fun _ => hign⟩
    have hlen := List.length_pos_of_ne_nil hrest.ne_nil
    rw [List.length_cons] at hfuel
    obtain ⟨fuel, rfl⟩ : ∃ f, fuel = f + 1 := ⟨fuel - 1, by omega⟩
    obtain ⟨c, hc, hcp, -⟩ := s.exists_marked hv
    obtain ⟨b, hb, hhas⟩ := @ih (Or.inr ⟨dir, hv, hdir⟩) fuel (by omega) (by simpa using hp)
    refine ⟨c, hc, .child (List.mem_map_of_mem (List.mem_map_of_mem ?_)) hhas⟩
    rwa [Hashes.apply_path, hcp]

/-- **The inodes of the tree** are those of the scan, ignored or not. -/
theorem Scan.belowRoot_iff : BelowRoot (s.tree hs) j ↔ ∃ i ∈ s.marked, j = hs.apply i := by
  constructor
  · rintro ⟨t, ht, hj⟩
    obtain ⟨c, hc, rfl⟩ := s.mem_subtrees hs ht
    exact s.marked_of_has hs d.depth (List.mem_filter.mp hc).1 hj
  · rintro ⟨i, hi, rfl⟩
    obtain ⟨ns, n, node, hv, he⟩ := s.mem_marked.mp hi
    -- the tree is as deep as the disk
    have hlen : (ns ++ [n]).length ≤ d.depth := by
      have h := Disk.length_le_depth (d := d) (p := root ++ ([] ++ (ns ++ [n])))
        (by rw [hv.get]; simp)
      rw [List.length_append, List.nil_append] at h
      omega
    obtain ⟨c, hc, hhas⟩ := s.exists_has hs hv (Or.inl rfl) (hlen.trans (Nat.le_succ _)) hi
      (by rw [he]; simp [scanned])
    refine ⟨_, List.mem_map_of_mem (List.mem_map_of_mem ?_), hhas⟩
    simpa [scanRoot] using hc

/-- **The tree of a scan mirrors its list.** -/
theorem Scan.mirrors : Mirrors (s.tree hs) (s.inodes.map hs.apply) where
  placed := by
    intro t ht
    obtain ⟨c, hc, rfl⟩ := s.mem_subtrees hs ht
    have hc : c ∈ s.children (pathStr []) := by simpa [scanRoot] using hc
    obtain ⟨hc, n, node, -, hp⟩ := s.mem_children hc
    exact s.placed_inodeTree hs _ hc hp
  mem_iff q := by
    constructor
    · rintro ⟨j, hj, rfl⟩
      obtain ⟨i, hi, rfl⟩ := List.mem_map.mp hj
      exact ⟨_, (s.belowRoot_iff hs).mpr ⟨i, s.mem_marked_of_mem_inodes hi, rfl⟩,
        (s.not_ignored hi :), rfl⟩
    · rintro ⟨j, hj, hign, rfl⟩
      obtain ⟨i, hi, rfl⟩ := (s.belowRoot_iff hs).mp hj
      exact ⟨_, List.mem_map_of_mem (List.mem_filter.mpr ⟨mem_sortBy.mpr hi, by simpa using hign⟩),
        rfl⟩

/-! ### Each inode is in the tree once -/

theorem mem_nodes_iff_has {t : InodeTree} : j ∈ t.nodes ↔ t.Has j := by
  induction t using InodeTree.induction with
  | _ i cs ih =>
    rw [InodeTree.nodes, List.mem_cons, mem_nodes_list]
    constructor
    · rintro (rfl | ⟨c, hc, hj⟩)
      · exact .self
      · exact .child hc ((ih c hc).mp hj)
    · intro h
      cases h with
      | self => exact Or.inl rfl
      | child hc hj => exact Or.inr ⟨_, hc, (ih _ hc).mpr hj⟩

/-- What is in the tree below a child has a path below it. -/
theorem Scan.path_of_mem_nodes (fuel : ℕ) (hi : i ∈ s.marked) (hp : i.path = pathStr (ns ++ [n]))
    (hj : j ∈ (inodeTree (s.childrenOf hs) fuel (hs.apply i)).nodes) :
    ∃ ms, j.path = pathStr (ns ++ n :: ms) := by
  have hplaced := s.placed_inodeTree hs fuel hi hp
  rw [mem_nodes_iff_has] at hj
  generalize htree : inodeTree (s.childrenOf hs) fuel (hs.apply i) = t at hplaced hj
  have htop : ∃ cs, t = .node (hs.apply i) cs := by
    rw [← htree]
    cases fuel <;> exact ⟨_, rfl⟩
  obtain ⟨cs, rfl⟩ := htop
  cases hj with
  | self => exact ⟨[], hp⟩
  | child hc hj =>
    cases hplaced with
    | @node _ m _ _ hpath _ hcs =>
      obtain ⟨m', ms, hpath'⟩ := (hcs _ hc).path hj
      obtain rfl : m = n := by simpa using pathStr_injective (hpath.symm.trans hp)
      exact ⟨m' :: ms, by rw [hpath', List.append_assoc]; rfl⟩

/-- The trees below the children of a path share nothing. -/
theorem Scan.nodup_subtrees (fuel : ℕ) (h : ∀ c ∈ s.children (pathStr ns),
    (inodeTree (s.childrenOf hs) fuel (hs.apply c)).nodes.Nodup) :
    (InodeTree.nodes.list
      ((s.childrenOf hs (pathStr ns)).map (inodeTree (s.childrenOf hs) fuel))).Nodup := by
  refine nodup_nodes_list.mpr ⟨fun t ht => ?_, ?_⟩
  · obtain ⟨c, hc, rfl⟩ := s.mem_subtrees hs ht
    exact h c hc
  · rw [childrenOf, List.map_map, List.pairwise_map]
    have hpaths : (s.children (pathStr ns)).Pairwise fun c c' => c.path ≠ c'.path :=
      List.pairwise_map.mp (s.nodup_paths_marked.sublist (List.filter_sublist.map _))
    refine hpaths.imp_of_mem fun hc hc' hne j hj hj' => hne ?_
    obtain ⟨hc, m, -, -, hp⟩ := s.mem_children hc
    obtain ⟨hc', m', -, -, hp'⟩ := s.mem_children hc'
    -- a node of both would have a path below both
    obtain ⟨ms, hpath⟩ := s.path_of_mem_nodes hs fuel hc hp hj
    obtain ⟨ms', hpath'⟩ := s.path_of_mem_nodes hs fuel hc' hp' hj'
    have he : ns ++ m :: ms = ns ++ m' :: ms' := pathStr_injective (hpath.symm.trans hpath')
    obtain ⟨rfl, -⟩ := List.cons.inj (List.append_cancel_left he)
    exact hp.trans hp'.symm

theorem Scan.nodup_inodeTree (fuel : ℕ) (hi : i ∈ s.marked) (hp : i.path = pathStr (ns ++ [n])) :
    (inodeTree (s.childrenOf hs) fuel (hs.apply i)).nodes.Nodup := by
  induction fuel generalizing i ns n with
  | zero => exact List.nodup_singleton _
  | succ fuel ih =>
    rw [inodeTree, InodeTree.nodes, Hashes.apply_path, hp, List.nodup_cons]
    refine ⟨fun hmem => ?_, s.nodup_subtrees hs fuel fun c hc => ?_⟩
    · obtain ⟨t, ht, hj⟩ := mem_nodes_list.mp hmem
      obtain ⟨c, hc, rfl⟩ := s.mem_subtrees hs ht
      obtain ⟨hc, m, -, -, hcp⟩ := s.mem_children hc
      obtain ⟨ms, hpath⟩ := s.path_of_mem_nodes hs fuel hc hcp hj
      have he := pathStr_injective (hp.symm.trans hpath)
      rw [List.append_assoc, List.append_cancel_left_eq] at he
      cases he
    · obtain ⟨hc, m, -, -, hcp⟩ := s.mem_children hc
      exact ih hc hcp

/-- **Each inode is in the tree of a scan once**, and in its list. -/
theorem Scan.nodup_tree : (InodeTree.nodes.list (s.tree hs).children).Nodup ∧
    (s.inodes.map hs.apply).Nodup := by
  constructor
  · have hroot : ∀ c ∈ s.children (pathStr []),
        (inodeTree (s.childrenOf hs) d.depth (hs.apply c)).nodes.Nodup := fun c hc => by
      obtain ⟨hc, m, -, -, hp⟩ := s.mem_children hc
      exact s.nodup_inodeTree hs d.depth hc hp
    have hnodup := s.nodup_subtrees hs d.depth hroot
    rwa [pathStr_nil] at hnodup
  · have hkeys : (s.inodes.map fun i => (hs.apply i).path).Nodup := s.strictBy_inodes.nodup_keys
    exact List.Nodup.of_map Inode.path (by rwa [List.map_map])

/-- **With one `**` at most**, nothing is found twice in the tree of a scan. -/
theorem Scan.nodup_globRecursive {p : Bytes} (hp : (effectiveSegs p).count deepSegment ≤ 1) :
    (globRecursive p (s.tree hs)).Nodup :=
  nodup_globRecursive_of_count_le_one (s.nodup_tree hs).1 hp

/-! ### What is found -/

/-- **The pattern finds nothing that is ignored**: it matches no file or symlink that the scan
visits – `lstat` has seen it – and the ignore list names. -/
def SparesIgnored (s : Scan d ignores root) (p : Bytes) : Prop :=
  ∀ ns node, Visits d s.lost ignores root [] ns node → ignores (pathStr ns) = true → ¬ Found p ns

/-- An inode of the tree is listed if and only if it is not ignored. -/
theorem Scan.mem_list_iff (hi : i ∈ s.marked) :
    hs.apply i ∈ s.inodes.map hs.apply ↔ i.ignored = false := by
  constructor
  · intro hmem
    obtain ⟨j, hj, he⟩ := List.mem_map.mp hmem
    have hpath : (hs.apply j).path = (hs.apply i).path := congrArg Inode.path he
    obtain rfl : j = i :=
      eq_of_key_eq s.nodup_paths_marked (s.mem_marked_of_mem_inodes hj) hi hpath
    exact s.not_ignored hj
  · intro hign
    exact List.mem_map_of_mem (List.mem_filter.mpr ⟨mem_sortBy.mpr hi, by simpa using hign⟩)

/-- **The ignored inodes** of the tree are what the scan visits and the ignore list names. -/
theorem Scan.ignored_iff : (∃ i ∈ s.marked, i.path = pathStr ns ∧ i.ignored = true) ↔
    ∃ node, Visits d s.lost ignores root [] ns node ∧ ignores (pathStr ns) = true := by
  constructor
  · rintro ⟨i, hi, hp, hign⟩
    obtain ⟨ms, n, node, hv, rfl⟩ := s.mem_marked.mp hi
    obtain rfl : ms ++ [n] = ns := by simpa [scanned] using hp
    refine ⟨node, hv, ?_⟩
    rw [mark] at hign
    split_ifs at hign
    · cases hign
    · simpa [scanned] using hign
  · rintro ⟨node, hv, hign⟩
    rcases List.eq_nil_or_concat' ns with rfl | ⟨ms, n, rfl⟩
    · exact absurd rfl hv.ne_nil
    · have hdir : node.isDir = false := by
        by_contra hd
        have hno := hv.dir_not_ignored (by simpa using hd)
        rw [List.nil_append, hign] at hno
        cases hno
      refine ⟨_, s.mem_marked.mpr ⟨ms, n, node, hv, rfl⟩, by simp [scanned], ?_⟩
      simp [mark, scanned, Inode.isDirectory, hdir, hign]

/-- **What `index::glob` finds** in the index of a scan is in its tree, and of what is ignored it
finds what the pattern matches. -/
theorem Scan.mem_glob {p : Bytes} {found : List Inode}
    (h : glob p (s.tree hs) (s.inodes.map hs.apply) = .ok found) :
    (∀ j ∈ found, ∃ i ∈ s.marked, j = hs.apply i) ∧
      ∀ i ∈ s.marked, i.ignored = true → ∀ x, i.path = pathStr x →
        (hs.apply i ∈ found ↔ Found p x) := by
  by_cases hroot : (s.tree hs).children = []
  · have hnone : ∀ i ∈ s.marked, False := fun i hi => by
      obtain ⟨c, hc, -⟩ := (s.belowRoot_iff hs).mpr ⟨i, hi, rfl⟩
      rw [hroot] at hc
      exact absurd hc List.not_mem_nil
    refine ⟨fun j hj => ?_, fun i hi => (hnone i hi).elim⟩
    rw [glob, if_neg (not_not_intro hroot)] at h
    obtain ⟨i, hi, -⟩ := List.mem_map.mp ((globLinear_sublist h).subset hj)
    exact (hnone i (s.mem_marked_of_mem_inodes hi)).elim
  · obtain rfl : globRecursive p (s.tree hs) = found :=
      Except.ok.inj ((if_pos hroot).symm.trans h)
    have hfound := fun j => @mem_globRecursive _ j p (s.mirrors hs).placed
    refine ⟨fun j hj => (s.belowRoot_iff hs).mp ((hfound j).mp hj).1, fun i hi _ x hx => ?_⟩
    rw [hfound]
    constructor
    · rintro ⟨-, y, hy, hp⟩
      obtain rfl : x = y := pathStr_injective (hx.symm.trans hy)
      exact hp
    · exact fun hp => ⟨(s.belowRoot_iff hs).mpr ⟨i, hi, rfl⟩, x, hx, hp⟩

/-- Nothing that is found is ignored exactly when the patterns find nothing that is ignored. -/
theorem Scan.spares_iff {patterns : List Bytes} {found : List Inode}
    (hmarked : ∀ j ∈ found, ∃ i ∈ s.marked, j = hs.apply i)
    (hfound : ∀ i ∈ s.marked, i.ignored = true → ∀ x, i.path = pathStr x →
      (hs.apply i ∈ found ↔ ∃ p ∈ patterns, Found p x)) :
    (∀ j ∈ found, j.ignored = false) ↔ ∀ p ∈ patterns, SparesIgnored s p := by
  constructor
  · intro h p hp ns node hv hign hmatch
    obtain ⟨i, hi, hpath, hmark⟩ := s.ignored_iff.mpr ⟨node, hv, hign⟩
    have hno := h _ ((hfound i hi hmark ns hpath).mpr ⟨p, hp, hmatch⟩)
    rw [Hashes.apply_ignored, hmark] at hno
    cases hno
  · intro h j hj
    obtain ⟨i, hi, rfl⟩ := hmarked j hj
    by_contra hmark
    have hmark : i.ignored = true := by simpa using hmark
    obtain ⟨ns, n, node, -, he⟩ := s.mem_marked.mp hi
    have hpath : i.path = pathStr (ns ++ [n]) := by
      rw [he]
      simp [scanned]
    obtain ⟨p, hp, hmatch⟩ := (hfound i hi hmark _ hpath).mp hj
    obtain ⟨node', hv, hign⟩ := s.ignored_iff.mp ⟨i, hi, hpath, hmark⟩
    exact h p hp _ _ hv hign hmatch

/-- **All that is found is listed**, and nothing of it is ignored, exactly when the patterns find
nothing that is ignored. -/
theorem Scan.listed_iff {patterns : List Bytes} {found : List Inode}
    (hmarked : ∀ j ∈ found, ∃ i ∈ s.marked, j = hs.apply i)
    (hfound : ∀ i ∈ s.marked, i.ignored = true → ∀ x, i.path = pathStr x →
      (hs.apply i ∈ found ↔ ∃ p ∈ patterns, Found p x)) :
    ((∀ j ∈ found, j ∈ s.inodes.map hs.apply) ↔
        ∀ p ∈ patterns, SparesIgnored s p) ∧
      ((∀ j ∈ found, j.ignored = false) ↔ ∀ p ∈ patterns, SparesIgnored s p) := by
  have hsame : (∀ j ∈ found, j ∈ s.inodes.map hs.apply) ↔ ∀ j ∈ found, j.ignored = false := by
    refine forall₂_congr fun j hj => ?_
    obtain ⟨i, hi, rfl⟩ := hmarked j hj
    exact s.mem_list_iff hs hi
  have hspares := s.spares_iff hs hmarked hfound
  exact ⟨hsame.trans hspares, hspares⟩

/-- The loop over the patterns finds what each of them finds. -/
theorem mem_foldlM_glob {patterns : List Bytes} {tree : InodeTree}
    {inodes before result : List Inode}
    (h : patterns.foldlM (fun result p => do return result ++ (← glob p tree inodes)) before =
      .ok result) :
    (∀ j ∈ result, j ∈ before ∨ ∃ p ∈ patterns, ∃ one, glob p tree inodes = .ok one ∧ j ∈ one) ∧
      before ⊆ result ∧ ∀ p ∈ patterns, ∃ one, glob p tree inodes = .ok one ∧ one ⊆ result := by
  induction patterns generalizing before with
  | nil =>
    obtain rfl : before = result := Except.ok.inj h
    exact ⟨fun j hj => Or.inl hj, fun _ hj => hj, by simp⟩
  | cons p patterns ih =>
    rw [List.foldlM_cons] at h
    cases hone : glob p tree inodes with
    | error e =>
      rw [hone] at h
      cases h
    | ok one =>
      rw [hone] at h
      obtain ⟨hfrom, hbefore, hall⟩ := ih h
      rw [List.append_subset] at hbefore
      refine ⟨fun j hj => ?_, hbefore.1, List.forall_mem_cons.mpr ⟨⟨one, hone, hbefore.2⟩, hall⟩⟩
      rcases hfrom j hj with hj | ⟨q, hq, rest⟩
      · rcases List.mem_append.mp hj with hj | hj
        · exact Or.inl hj
        · exact Or.inr ⟨p, List.mem_cons_self, one, hone, hj⟩
      · exact Or.inr ⟨q, List.mem_cons_of_mem _ hq, rest⟩

/-- **What `index::glob` finds with a list of patterns** is what it finds with each, except that of
several with one path one is left. -/
theorem mem_globPatterns {patterns : List Bytes} {tree : InodeTree} {inodes found : List Inode}
    (h : globPatterns patterns tree inodes = .ok found) :
    (∀ j ∈ found, ∃ p ∈ patterns, ∃ one, glob p tree inodes = .ok one ∧ j ∈ one) ∧
      ∀ p ∈ patterns, ∃ one, glob p tree inodes = .ok one ∧
        ∀ j ∈ one, ∃ k ∈ found, k.path = j.path := by
  rw [globPatterns] at h
  cases hresult :
    patterns.foldlM (fun result p => do return result ++ (← glob p tree inodes)) [] with
  | error e =>
    rw [hresult] at h
    cases h
  | ok result =>
    rw [hresult] at h
    obtain rfl : uniqueBy Inode.path (sortBy Inode.path result) = found := Except.ok.inj h
    obtain ⟨hfrom, -, hall⟩ := mem_foldlM_glob hresult
    constructor
    · intro j hj
      exact (hfrom j (mem_sortBy.mp (mem_of_mem_uniqueBy hj))).resolve_left List.not_mem_nil
    · intro p hp
      obtain ⟨one, hone, hsub⟩ := hall p hp
      exact ⟨one, hone, fun j hj => exists_mem_uniqueBy (mem_sortBy.mpr (hsub hj))⟩

/-- **After a refresh all that `index::glob` finds is in `_inodes`**, for one pattern or a list of
them, exactly when the patterns match no file or symlink that the ignore list names and that the
scan has read in a directory it has entered. -/
theorem glob_listed_iff (H : HashFunction) (old : List Inode) :
    (∀ p found, glob p (s.tree (s.refreshed H old).hashes) (s.refreshed H old).list = .ok found →
      ((∀ j ∈ found, j ∈ (s.refreshed H old).list) ↔ SparesIgnored s p) ∧
        ((∀ j ∈ found, j.ignored = false) ↔ SparesIgnored s p)) ∧
    ∀ patterns found,
      globPatterns patterns (s.tree (s.refreshed H old).hashes) (s.refreshed H old).list =
        .ok found →
      ((∀ j ∈ found, j ∈ (s.refreshed H old).list) ↔
        ∀ p ∈ patterns, SparesIgnored s p) ∧
        ((∀ j ∈ found, j.ignored = false) ↔ ∀ p ∈ patterns, SparesIgnored s p) := by
  rw [Refreshing.list, Scan.refreshed, inodes_runRefresh]
  generalize (runRefresh H s.parentOf s.inodes old).hashes = hs
  constructor
  · intro p found h
    obtain ⟨hmarked, hfound⟩ := s.mem_glob hs h
    have hlisted := @Scan.listed_iff _ _ _ s hs [p] found hmarked (by simpa using hfound)
    simpa using hlisted
  · intro patterns found h
    obtain ⟨hfrom, hall⟩ := mem_globPatterns h
    refine s.listed_iff hs (fun j hj => ?_) fun i hi hmark x hx => ⟨fun hj => ?_, ?_⟩
    · obtain ⟨p, -, one, hone, hj⟩ := hfrom j hj
      exact (s.mem_glob hs hone).1 j hj
    · obtain ⟨p, hp, one, hone, hj⟩ := hfrom _ hj
      exact ⟨p, hp, ((s.mem_glob hs hone).2 i hi hmark x hx).mp hj⟩
    · rintro ⟨p, hp, hmatch⟩
      obtain ⟨one, hone, hsub⟩ := hall p hp
      obtain ⟨k, hk, hpath⟩ := hsub _ (((s.mem_glob hs hone).2 i hi hmark x hx).mpr hmatch)
      -- no other inode of the tree has the path
      obtain ⟨q, -, one', hone', hk'⟩ := hfrom k hk
      obtain ⟨i', hi', rfl⟩ := (s.mem_glob hs hone').1 k hk'
      obtain rfl : i' = i := eq_of_key_eq s.nodup_paths_marked hi' hi hpath
      exact hk

end Tree

/-! ### A file that is ignored -/

namespace Sample

/-- The ignore list with the pattern `a`. -/
def ignoresA : Bytes → Bool := matchPath [nameA.bytes]

/-- A directory with a file `a` and a directory. -/
def diskA : Disk where
  entries := [([], .dir 0o755 1 0), ([nameA], .file 0o644 2 (ascii ['x'])),
    ([nameD], .dir 0o755 3 0)]

/-- Its scan. -/
def scanA : Scan diskA ignoresA [] := .sequential diskA _ [] (by decide)

end Sample

open Sample in
set_option maxRecDepth 8000 in
/-- The pattern `a` in a directory where `a` is ignored. -/
theorem glob_listed_iff_sample :
    (∀ j ∈ globRecursive nameA.bytes (scanA.tree (scanA.refreshed (.ofTable []) []).hashes),
      j ∈ (scanA.refreshed (.ofTable []) []).list) ↔ SparesIgnored scanA nameA.bytes :=
  ((glob_listed_iff scanA (.ofTable []) []).1 nameA.bytes _ (if_pos (by decide))).1

open Sample in
set_option maxRecDepth 8000 in
/-- **An ignored file is found**: the pattern `a` finds the file `a` that the ignore list names. -/
theorem glob_finds_ignored : ¬ ∀ (H : HashFunction) (inclusive : List Bytes) (d : Disk)
    (root : List Name) (s : Scan d (matchPath inclusive) root) (old : List Inode) (p : Bytes)
    (found : List Inode),
    glob p (s.tree (s.refreshed H old).hashes) (s.refreshed H old).list = .ok found →
      ∀ j ∈ found, j ∈ (s.refreshed H old).list := by
  intro hclaim
  have hall := hclaim (.ofTable []) [nameA.bytes] diskA [] scanA [] nameA.bytes _
    (if_pos (by decide))
  have hfound : { scanned [] nameA (.file 0o644 2 (ascii ['x'])) with ignored := true } ∈
      globRecursive nameA.bytes (scanA.tree (scanA.refreshed (.ofTable []) []).hashes) := by decide
  exact absurd (hall _ hfound) (by decide)

end Fstree
