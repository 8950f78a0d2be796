import Fstree.Merge

/-!
# A merge is an overlay

`index::merge_recursive` appends to `_inodes` and to the children of directories as it goes, and
calls itself for every directory it has appended (`Fstree.runMergeRecursive`). Nothing in the code
bounds the depth. The paths do: a call is for a directory that is listed, so it ends, and has
appended what `Fstree.mergeRecursive` says, with each inode at its place among the children of its
directory (`Fstree.runMergeRecursive_eq`).

If both lists are those of trees (`Fstree.TreeList`) the result is the other index laid over this
one (`Fstree.merge_overlays`): all of the other, and of this what is not below something that
is no directory in the other.
-/

namespace Fstree

open SortedBy TwoCursor

/-! ### The merge, and the children it sorts -/

/-- **What a merge has made so far**: `_inodes`, and the children of the directories by their
paths. -/
structure Merging where
  inodes : List Inode
  children : Bytes → List Inode

namespace Merging

/-- A clone is added to the directory `p`, and to `_inodes`. -/
def append (s : Merging) (p : Bytes) (node : Inode) : Merging where
  inodes := s.inodes ++ [placed p node]
  children := Function.update s.children p (s.children p ++ [placed p node])

/-- `parent->sort()` -/
def sort (s : Merging) (p : Bytes) : Merging :=
  { s with children := Function.update s.children p (sortBy Inode.path (s.children p)) }

/-- The list, with every inode among the children of its parent. -/
def ofInodes (l : List Inode) : Merging := ⟨l, fun p => l.filter fun i => i.parent = some p⟩

end Merging

/-- **`index::merge_recursive`** for the directory `p`, if the calls go no deeper than `fuel`. -/
def runMergeRecursive (current other : List Inode) : ℕ → Bytes → Merging → Option Merging
  | 0, _, _ => none
  | fuel + 1, p, s =>
    ((TwoCursor.merge Inode.path (directChildren p current) (directChildren p other)).foldlM
      (fun (s : Merging) (node : Inode) =>
        if node.isDirectory then runMergeRecursive current other fuel node.path (s.append p node)
        else some (s.append p node)) s).map fun s => s.sort p

/-- **`index::merge`** -/
def runMerge (current other : List Inode) (fuel : ℕ) : Option Merging :=
  runMergeRecursive current other fuel [] ⟨[], fun _ => []⟩

section Run

variable {current other l : List Inode} {p : Bytes} {base : List Name} {fuel : ℕ}

theorem Merging.append_ofInodes (l : List Inode) (p : Bytes) (node : Inode) :
    (ofInodes l).append p node = ofInodes (l ++ [placed p node]) := by
  refine congrArg (Merging.mk _) (funext fun q => ?_)
  by_cases hq : q = p
  · rw [hq, Function.update_self, List.filter_append]
    simp [ofInodes]
  · rw [Function.update_of_ne hq, List.filter_append]
    simp [ofInodes, Ne.symm hq]

/-- The children that are in order already are not moved. -/
theorem Merging.sort_ofInodes (h : StrictBy Inode.path (l.filter fun i => i.parent = some p)) :
    (ofInodes l).sort p = ofInodes l := by
  refine congrArg (Merging.mk _) (funext fun q => ?_)
  by_cases hq : q = p
  · rw [hq, Function.update_self]
    exact h.sortBy_eq
  · rw [Function.update_of_ne hq]
    rfl

/-- Siblings are in order in the list. -/
def SiblingOrder (l : List Inode) : Prop :=
  l.Pairwise fun i j => i.parent = j.parent → i.path < j.path

theorem SiblingOrder.strictBy_filter (h : SiblingOrder l) (p : Bytes) :
    StrictBy Inode.path (l.filter fun i => i.parent = some p) := by
  refine (List.Pairwise.filter _ h).imp_of_mem fun {i j} hi hj hlt => hlt ?_
  have hip : i.parent = some p := by simpa using (List.mem_filter.mp hi).2
  have hjp : j.parent = some p := by simpa using (List.mem_filter.mp hj).2
  rw [hip, hjp]

/-- The paths bound the depth of the names. -/
theorem length_lt_of_mem_merge (hc : Siblings current) (ho : Siblings other) {node : Inode}
    (hnode : node ∈ TwoCursor.merge Inode.path (directChildren (pathStr base) current)
      (directChildren (pathStr base) other)) : base.length < maxPath (current ++ other) := by
  obtain ⟨n, hpath, hmem⟩ := (mem_merge_directChildren hc ho).mp hnode
  have hin : node ∈ current ++ other :=
    List.mem_append.mpr (hmem.elim Or.inr fun hj => Or.inl hj.1)
  have hle := le_maxPath hin
  have hlen := length_le_pathStr (base ++ [n])
  rw [List.length_append, List.length_singleton] at hlen
  rw [hpath] at hle
  omega

/-- The loop of a call, over a part of what is directly in the directory, if the calls that it makes
end. -/
theorem foldlM_runMergeRecursive (hc : Siblings current) (ho : Siblings other)
    (hfuel : maxPath (current ++ other) < fuel + 1 + base.length)
    (hcalls : ∀ (base : List Name), maxPath (current ++ other) < fuel + base.length → 0 < fuel →
      ∀ l : List Inode, SiblingOrder (l ++ mergeRecursive current other fuel (pathStr base)) →
        runMergeRecursive current other fuel (pathStr base) (.ofInodes l) =
          some (.ofInodes (l ++ mergeRecursive current other fuel (pathStr base))))
    {nodes : List Inode} (hnodes : ∀ node ∈ nodes, node ∈ TwoCursor.merge Inode.path
      (directChildren (pathStr base) current) (directChildren (pathStr base) other))
    (hl : SiblingOrder (l ++ nodes.flatMap fun node => placed (pathStr base) node ::
      if node.isDirectory then mergeRecursive current other fuel node.path else [])) :
    nodes.foldlM (fun s node => if node.isDirectory then
        runMergeRecursive current other fuel node.path (s.append (pathStr base) node)
      else some (s.append (pathStr base) node)) (Merging.ofInodes l) =
    some (.ofInodes (l ++ nodes.flatMap fun node => placed (pathStr base) node ::
      if node.isDirectory then mergeRecursive current other fuel node.path else [])) := by
  induction nodes generalizing l with
  | nil => simp
  | cons node nodes ih =>
    obtain ⟨hnode, hnodes⟩ := List.forall_mem_cons.mp hnodes
    obtain ⟨n, hpath, -⟩ := (mem_merge_directChildren hc ho).mp hnode
    have hdeep := length_lt_of_mem_merge hc ho hnode
    rw [List.flatMap_cons, List.cons_append] at hl ⊢
    rw [List.foldlM_cons, Merging.append_ofInodes]
    by_cases hdir : node.isDirectory = true
    · simp only [if_pos hdir] at hl ⊢
      have hlen : (base ++ [n]).length = base.length + 1 := by simp
      have hin : SiblingOrder (l ++ [placed (pathStr base) node] ++
          mergeRecursive current other fuel node.path) := by
        refine List.Pairwise.sublist ?_ hl
        simp
      -- the call for the directory, and then the rest of the loop
      have hcall := hcalls (base ++ [n]) (by omega) (by omega)
        (l ++ [placed (pathStr base) node]) (hpath ▸ hin)
      rw [← hpath] at hcall
      have hrest := @ih (l ++ [placed (pathStr base) node] ++
        mergeRecursive current other fuel node.path) hnodes (by simpa using hl)
      rw [hcall]
      simpa using hrest
    · simp only [if_neg hdir] at hl ⊢
      have hrest := @ih (l ++ [placed (pathStr base) node]) hnodes (by simpa using hl)
      simpa using hrest

/-- **A call ends**, and has appended what the merge lists below its directory. -/
theorem runMergeRecursive_eq (hc : Siblings current) (ho : Siblings other) (fuel : ℕ)
    (base : List Name) (hfuel : maxPath (current ++ other) < fuel + base.length) (hpos : 0 < fuel)
    (l : List Inode) (hl : SiblingOrder (l ++ mergeRecursive current other fuel (pathStr base))) :
    runMergeRecursive current other fuel (pathStr base) (.ofInodes l) =
      some (.ofInodes (l ++ mergeRecursive current other fuel (pathStr base))) := by
  induction fuel generalizing base l with
  | zero => exact absurd hpos (lt_irrefl 0)
  | succ fuel ih =>
    have hrun := foldlM_runMergeRecursive hc ho hfuel ih (fun _ h => h) hl
    rw [runMergeRecursive, hrun]
    exact congrArg some (Merging.sort_ofInodes (hl.strictBy_filter _))

/-- Calls that go deeper append no more. -/
theorem mergeRecursive_succ (hc : Siblings current) (ho : Siblings other) (fuel : ℕ)
    (base : List Name) (hfuel : maxPath (current ++ other) < fuel + base.length) :
    mergeRecursive current other (fuel + 1) (pathStr base) =
      mergeRecursive current other fuel (pathStr base) := by
  induction fuel generalizing base with
  | zero =>
    rw [mergeRecursive, mergeRecursive, List.flatMap_eq_nil_iff]
    intro node hnode
    have := length_lt_of_mem_merge hc ho hnode
    omega
  | succ fuel ih =>
    rw [mergeRecursive, mergeRecursive]
    refine List.flatMap_congr fun node hnode => ?_
    obtain ⟨n, hpath, -⟩ := (mem_merge_directChildren hc ho).mp hnode
    rw [hpath, ih (base ++ [n]) (by simp; omega)]

/-- **A merge ends**, and its list is the one that `Fstree.mergeNodes` describes. -/
theorem runMerge_eq (hc : Siblings current) (ho : Siblings other)
    (hfuel : maxPath (current ++ other) < fuel) :
    runMerge current other fuel = some (.ofInodes (mergeNodes current other)) := by
  have hstable : mergeRecursive current other fuel [] = mergeNodes current other := by
    rw [mergeNodes, ← pathStr_nil]
    induction fuel, hfuel using Nat.le_induction with
    | base => rfl
    | succ k hk ih => exact (mergeRecursive_succ hc ho k [] hk).trans ih
  have hin : SiblingOrder (mergeRecursive current other fuel (pathStr [])) :=
    (pairwise_mergeRecursive hc ho fuel []).imp fun h => h.2.2
  have hrun := runMergeRecursive_eq hc ho fuel [] (by simpa using hfuel) (by omega) [] hin
  rw [List.nil_append, pathStr_nil, hstable] at hrun
  exact hrun

end Run

/-! ### Lists of trees -/

/-- **The list of a tree**: its paths are relative and normalized and each is there once, every
proper ancestor is listed as a directory, and siblings are in the order of their paths. -/
structure TreeList (nodes : List Inode) : Prop where
  normal : ∀ i ∈ nodes, ∃ ns, ns ≠ [] ∧ i.path = pathStr ns ∧
    ∀ n ∈ ns, n.bytes ≠ [dot] ∧ n.bytes ≠ [dot, dot]
  nodup : (nodes.map Inode.path).Nodup
  closed : ∀ i ∈ nodes, ∀ q, Ancestor q i.path → ∃ dir ∈ nodes, dir.path = q ∧
    dir.isDirectory = true
  siblings : nodes.Pairwise fun i j => parentPath i.path = parentPath j.path → i.path < j.path

section Overlay

variable {A B nodes : List Inode} {i : Inode}

theorem TreeList.exists_names (h : TreeList nodes) (hi : i ∈ nodes) :
    ∃ ns n, i.path = pathStr (ns ++ [n]) := by
  obtain ⟨ns, hne, hp, -⟩ := h.normal i hi
  obtain ⟨ks, k, rfl⟩ := (List.eq_nil_or_concat' ns).resolve_left hne
  exact ⟨ks, k, hp⟩

theorem TreeList.parentPath_ne (h : TreeList nodes) (hi : i ∈ nodes) :
    parentPath i.path ≠ [dot] := by
  obtain ⟨ns, hne, hp, hnormal⟩ := h.normal i hi
  obtain ⟨ks, k, rfl⟩ := (List.eq_nil_or_concat' ns).resolve_left hne
  rw [hp, parentPath_pathStr]
  intro hdot
  -- it would be a directory of the root with that name
  have hks : ks = [⟨[dot], by decide, by decide⟩] :=
    pathStr_injective (by rw [hdot, pathStr_singleton])
  refine (hnormal ⟨[dot], by decide, by decide⟩ ?_).1 rfl
  rw [hks]
  exact List.mem_append_left _ List.mem_cons_self

theorem TreeList.toSiblings (h : TreeList nodes) : Siblings nodes where
  named _ hi := h.exists_names hi
  plain _ hi := h.parentPath_ne hi
  sorted p := by
    have hparent : ∀ {i : Inode}, i ∈ nodes.filter (isDirectChild p) → parentPath i.path = p := by
      intro i hi
      obtain ⟨hmem, hc⟩ := List.mem_filter.mp hi
      rw [isDirectChild] at hc
      split_ifs at hc with hp
      · rw [hp]
        exact (of_decide_eq_true hc).resolve_right (h.parentPath_ne hmem)
      · exact of_decide_eq_true hc
    refine (List.Pairwise.filter _ h.siblings).imp_of_mem fun hi hj hlt => hlt ?_
    rw [hparent hi, hparent hj]

/-- Every proper ancestor of what is picked is a picked directory. -/
theorem above_of_ancestors {ns : List Name} {n : Name}
    (h : ∀ ks rest, ns ++ [n] = ks ++ rest → ks ≠ [] → rest ≠ [] →
      ∃ dir, Picked A B ks dir ∧ dir.isDirectory = true) : Above A B [] (ns ++ [n]) :=
  fun ks rest he hk hr => by
    rw [List.nil_append]
    exact h ks rest he hk hr

theorem TreeList.closed_names (h : TreeList nodes) (hi : i ∈ nodes) {ks rest : List Name}
    (hp : i.path = pathStr (ks ++ rest)) (hk : ks ≠ []) (hr : rest ≠ []) :
    ∃ dir ∈ nodes, dir.path = pathStr ks ∧ dir.isDirectory = true :=
  h.closed i hi _ ⟨ks, rest, rfl, hp, hk, hr⟩

/-- **What an overlay lists**: what the other index does, and of this one what is not below
something that is no directory in the other. -/
theorem mem_paths_mergeNodes (hA : TreeList A) (hB : TreeList B) (p : Bytes) :
    p ∈ (mergeNodes A B).map Inode.path ↔ p ∈ B.map Inode.path ∨
      (p ∈ A.map Inode.path ∧ ∀ b ∈ B, Ancestor b.path p → b.isDirectory = true) := by
  constructor
  · intro h
    obtain ⟨i, hi, rfl⟩ := List.mem_map.mp h
    obtain ⟨ns, n, j, habove, hpick, rfl⟩ :=
      (mem_mergeNodes hA.toSiblings hB.toSiblings).mp hi
    rcases hpick.2 with hj | ⟨hj, -⟩
    · exact Or.inl (List.mem_map.mpr ⟨j, hj, rfl⟩)
    · refine Or.inr ⟨List.mem_map.mpr ⟨j, hj, rfl⟩, ?_⟩
      rintro b hb ⟨ks, rest, hbp, hjp, hk, hr⟩
      have he : ns ++ [n] = ks ++ rest := pathStr_injective (hpick.1.symm.trans hjp)
      obtain ⟨dir, hdir, hisdir⟩ := habove ks rest he hk hr
      rcases hdir.2 with hd | ⟨-, hnone⟩
      · rwa [eq_of_key_eq hB.nodup hb hd (hbp.trans hdir.1.symm)]
      · exact absurd hbp (hnone b hb)
  · intro h
    rw [List.mem_map]
    by_cases hpB : p ∈ B.map Inode.path
    · obtain ⟨b, hb, rfl⟩ := List.mem_map.mp hpB
      obtain ⟨ns, n, hp⟩ := hB.exists_names hb
      have habove : Above A B [] (ns ++ [n]) := above_of_ancestors fun ks rest he hk hr => by
        obtain ⟨dir, hd, hdp, hisdir⟩ := hB.closed_names hb (hp.trans (congrArg _ he)) hk hr
        exact ⟨dir, ⟨hdp, Or.inl hd⟩, hisdir⟩
      exact ⟨placed (pathStr ns) b, (mem_mergeNodes hA.toSiblings hB.toSiblings).mpr
        ⟨ns, n, b, habove, ⟨hp, Or.inl hb⟩, rfl⟩, rfl⟩
    · obtain ⟨hpA, hover⟩ := h.resolve_left hpB
      obtain ⟨a, ha, rfl⟩ := List.mem_map.mp hpA
      obtain ⟨ns, n, hp⟩ := hA.exists_names ha
      have habove : Above A B [] (ns ++ [n]) := above_of_ancestors fun ks rest he hk hr => by
        have hpa : a.path = pathStr (ks ++ rest) := hp.trans (congrArg _ he)
        by_cases hb : ∃ b ∈ B, b.path = pathStr ks
        · obtain ⟨b, hb, hbp⟩ := hb
          exact ⟨b, ⟨hbp, Or.inl hb⟩, hover b hb ⟨ks, rest, hbp, hpa, hk, hr⟩⟩
        · obtain ⟨dir, hd, hdp, hisdir⟩ := hA.closed_names ha hpa hk hr
          exact ⟨dir, ⟨hdp, Or.inr ⟨hd, fun k hkB hkp => hb ⟨k, hkB, hkp⟩⟩⟩, hisdir⟩
      have hnone : ∀ k ∈ B, k.path ≠ pathStr (ns ++ [n]) := fun k hk he =>
        hpB (List.mem_map.mpr ⟨k, hk, he.trans hp.symm⟩)
      exact ⟨placed (pathStr ns) a, (mem_mergeNodes hA.toSiblings hB.toSiblings).mpr
        ⟨ns, n, a, habove, ⟨hp, Or.inr ⟨ha, hnone⟩⟩, rfl⟩, rfl⟩

end Overlay

/-- The inode shows this one's status, type included, and its time, size and target. -/
def Inode.Shows (i j : Inode) : Prop :=
  i.status = j.status ∧ i.mtime = j.mtime ∧ i.size = j.size ∧ i.target = j.target

/-- **A merge computes the overlay**, and ends. It lists each path once: those of the other index,
and those of this one that are not below something that is no directory in the other. What is at
a path is the other index's if it lists it, and this one's if it does not; and the children of
each directory are in order, and are what is listed directly below it. -/
theorem merge_overlays {A B : List Inode} (hA : TreeList A) (hB : TreeList B) :
    ∃ s : Merging, (∀ fuel, maxPath (A ++ B) < fuel → runMerge A B fuel = some s) ∧
      (s.inodes.map Inode.path).Nodup ∧
      (∀ p, p ∈ s.inodes.map Inode.path ↔ p ∈ B.map Inode.path ∨
        (p ∈ A.map Inode.path ∧ ∀ b ∈ B, Ancestor b.path p → b.isDirectory = true)) ∧
      (∀ i ∈ s.inodes, (∀ b ∈ B, b.path = i.path → i.Shows b) ∧
        (i.path ∉ B.map Inode.path → ∀ a ∈ A, a.path = i.path → i.Shows a)) ∧
      ∀ p, StrictBy Inode.path (s.children p) ∧
        ∀ i, i ∈ s.children p ↔ i ∈ s.inodes ∧ parentPath i.path = p := by
  have hpairs := pairwise_mergeRecursive hA.toSiblings hB.toSiblings (maxPath (A ++ B) + 1) []
  have horder : SiblingOrder (mergeNodes A B) := hpairs.imp fun h => h.2.2
  refine ⟨.ofInodes (mergeNodes A B), fun fuel hfuel =>
    runMerge_eq hA.toSiblings hB.toSiblings hfuel, List.pairwise_map.mpr (hpairs.imp fun h => h.1),
    mem_paths_mergeNodes hA hB, fun i hi => ?_, fun p => ⟨horder.strictBy_filter p, fun i => ?_⟩⟩
  · obtain ⟨ns, n, j, -, hpick, rfl⟩ := (mem_mergeNodes hA.toSiblings hB.toSiblings).mp hi
    refine ⟨fun b hb hp => ?_, fun hnone a ha hp => ?_⟩
    · have hpickb : Picked A B (ns ++ [n]) b := ⟨hp.trans hpick.1, Or.inl hb⟩
      rw [hpickb.eq hA.toSiblings hB.toSiblings hpick]
      exact ⟨rfl, rfl, rfl, rfl⟩
    · have hnot : ∀ k ∈ B, k.path ≠ pathStr (ns ++ [n]) := fun k hk he =>
        hnone (List.mem_map.mpr ⟨k, hk, he.trans hpick.1.symm⟩)
      have hpicka : Picked A B (ns ++ [n]) a := ⟨hp.trans hpick.1, Or.inr ⟨ha, hnot⟩⟩
      rw [hpicka.eq hA.toSiblings hB.toSiblings hpick]
      exact ⟨rfl, rfl, rfl, rfl⟩
  · have hparent : ∀ i ∈ mergeNodes A B, i.parent = some (parentPath i.path) := by
      intro i hi
      obtain ⟨ns, n, j, -, hpick, rfl⟩ := (mem_mergeNodes hA.toSiblings hB.toSiblings).mp hi
      rw [placed_parent, placed_path, hpick.1, parentPath_pathStr]
    rw [Merging.ofInodes, List.mem_filter]
    refine and_congr_right fun hi => ?_
    rw [decide_eq_true_eq, hparent i hi, Option.some.injEq]

namespace Sample

/-- A list with a directory, and a file in it. -/
def underlay : List Inode :=
  [scanned [] nameD (.dir 0o755 1 0), scanned nameD.bytes nameA (.file 0o644 2 (ascii ['x']))]

/-- A list in which the directory is a file. -/
def overlay : List Inode := [scanned [] nameD (.file 0o644 3 (ascii ['y']))]

theorem treeList_underlay : TreeList underlay where
  normal i hi := by
    rcases List.mem_pair.mp hi with rfl | rfl
    · exact ⟨[nameD], by decide, by decide, by decide⟩
    · exact ⟨[nameD, nameA], by decide, by decide, by decide⟩
  nodup := by decide
  closed i hi q hq := by
    obtain ⟨ns, ms, rfl, hp, hns, hms⟩ := hq
    refine ⟨_, List.mem_cons_self, ?_, rfl⟩
    rcases List.mem_pair.mp hi with rfl | rfl
    · have he : [nameD] = ns ++ ms := pathStr_injective hp
      obtain ⟨k, ns, rfl⟩ := List.exists_cons_of_ne_nil hns
      simp [hms] at he
    · have he : [nameD, nameA] = ns ++ ms := pathStr_injective hp
      obtain ⟨k, ns, rfl⟩ := List.exists_cons_of_ne_nil hns
      obtain ⟨rfl, he⟩ := List.cons.inj he
      obtain ⟨m, ms, rfl⟩ := List.exists_cons_of_ne_nil hms
      cases ns with
      | nil => decide
      | cons k ns => simp at he
  siblings := by decide

theorem treeList_overlay : TreeList overlay where
  normal i hi := by
    obtain rfl := List.mem_singleton.mp hi
    exact ⟨[nameD], by decide, by decide, by decide⟩
  nodup := by decide
  closed i hi q hq := by
    obtain ⟨ns, ms, rfl, hp, hns, hms⟩ := hq
    obtain rfl := List.mem_singleton.mp hi
    have he : [nameD] = ns ++ ms := pathStr_injective hp
    obtain ⟨k, ns, rfl⟩ := List.exists_cons_of_ne_nil hns
    simp [hms] at he
  siblings := by decide

end Sample

/-- The file that takes the place of a directory takes what was in it away. -/
theorem merge_overlays_sample :
    ∃ s : Merging, (∀ fuel, 3 < fuel → runMerge Sample.underlay Sample.overlay fuel = some s) ∧
      pathStr [Sample.nameD] ∈ s.inodes.map Inode.path ∧
      pathStr [Sample.nameD, Sample.nameA] ∉ s.inodes.map Inode.path := by
  obtain ⟨s, hrun, -, hpaths, -⟩ :=
    merge_overlays Sample.treeList_underlay Sample.treeList_overlay
  refine ⟨s, hrun, (hpaths _).mpr (Or.inl (by decide)), fun h => ?_⟩
  rcases (hpaths _).mp h with h | ⟨-, h⟩
  · exact absurd h (by decide)
  · have hdir := h _ List.mem_cons_self ⟨[Sample.nameD], [Sample.nameA], by decide, rfl, by decide,
      by decide⟩
    exact absurd hdir (by decide)

end Fstree
