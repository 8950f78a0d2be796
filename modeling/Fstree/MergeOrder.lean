import Fstree.MergeAll

/-!
# The order in which merges list

`index::merge_recursive` goes down into a directory as soon as it has appended it, so a merge lists
the inodes in the order of the names on their paths, one name after the other
(`Fstree.strictBy_names_mergeAll`). This is not that of the paths as strings: a name that goes on
from that of a directory with a byte before the slash stands after what is in the directory, and
its path is before it.

So the list is sorted by path **exactly when** there is no such name beside a directory with
entries in the trees, laid over each other as they are merged (`Fstree.mergeAll_strictBy_iff`).
-/

namespace Fstree

open SortedBy

/-! ### The names on a path -/

/-- The names on the path of an inode. -/
def Inode.names (i : Inode) : List Bytes := i.path.splitOn slash

section Names

variable {i j : Inode} {ns ms base ks ks' : List Name} {n m : Name}

theorem Inode.names_eq (hns : ns ≠ []) (hp : i.path = pathStr ns) :
    i.names = ns.map Name.bytes := by
  rw [Inode.names, hp]
  exact List.splitOn_intercalate slash (by simpa using fun a _ => a.slash_notMem)
    (by simpa using hns)

/-- The names of two paths that part at a name. -/
theorem map_bytes_lt (h : n.bytes < m.bytes) :
    (base ++ n :: ks).map Name.bytes < (base ++ m :: ks').map Name.bytes := by
  rw [List.map_append, List.map_append, append_lt_append_left_iff]
  exact List.cons_lt_cons_iff.mpr (Or.inl h)

theorem map_bytes_lt_append (hm : ms ≠ []) :
    ns.map Name.bytes < (ns ++ ms).map Name.bytes := by
  obtain ⟨m, ms, rfl⟩ := List.exists_cons_of_ne_nil hm
  simpa using (append_lt_append_left_iff (ns.map Name.bytes) [] _).mpr (List.nil_lt_cons _ _)

/-- **Names are before others** if they go on to them, or where they part the smaller one is
theirs. -/
theorem names_lt_cases (h : ns.map Name.bytes < ms.map Name.bytes) :
    (∃ ks, ks ≠ [] ∧ ms = ns ++ ks) ∨ ∃ base n m ks ks', ns = base ++ n :: ks ∧
      ms = base ++ m :: ks' ∧ n.bytes < m.bytes := by
  induction ns generalizing ms with
  | nil => exact Or.inl ⟨ms, by rintro rfl; exact lt_irrefl _ h, rfl⟩
  | cons n ns ih =>
    cases ms with
    | nil => exact absurd h (List.not_lt_nil _)
    | cons m ms =>
      rcases List.cons_lt_cons_iff.mp h with hlt | ⟨he, hlt⟩
      · exact Or.inr ⟨[], n, m, ns, ms, rfl, rfl, hlt⟩
      · obtain rfl := Name.ext he
        rcases ih hlt with ⟨ks, hks, rfl⟩ | ⟨base, u, v, ks, ks', rfl, rfl, huv⟩
        · exact Or.inl ⟨ks, hks, rfl⟩
        · exact Or.inr ⟨n :: base, u, v, ks, ks', rfl, rfl, huv⟩

end Names

/-! ### What a merge lists, in the order of the names -/

section Merge

variable {current other : List Inode} {lists : List (List Inode)} {L : List Inode} {i : Inode}
  {ns ms : List Name}

/-- **A call lists in the order of the names**: the inode it appends, then what is below it, then
the next one. -/
theorem strictBy_names_mergeRecursive (hc : Siblings current) (ho : Siblings other) (fuel : ℕ)
    (base : List Name) :
    StrictBy Inode.names (mergeRecursive current other fuel (pathStr base)) := by
  induction fuel generalizing base with
  | zero => exact strictBy_nil
  | succ fuel ih =>
    refine List.pairwise_flatMap.mpr ⟨fun node hnode => ?_, ?_⟩
    · obtain ⟨n, hpick⟩ := (mem_merge_directChildren hc ho).mp hnode
      refine List.pairwise_cons.mpr ⟨fun i hi => ?_, ?_⟩
      · by_cases hdir : node.isDirectory = true
        · rw [if_pos hdir, hpick.1, mem_mergeRecursive hc ho] at hi
          obtain ⟨ms, m, j, -, -, hj, rfl⟩ := hi
          rw [Inode.names_eq (i := placed _ node) (by simp) hpick.1,
            Inode.names_eq (i := placed _ j) (by simp) hj.1, List.append_assoc]
          exact map_bytes_lt_append (by simp)
        · rw [if_neg hdir] at hi
          cases hi
      · split_ifs with hdir
        · rw [hpick.1]
          exact ih _
        · exact strictBy_nil
    · refine (TwoCursor.strictBy_merge (hc.sorted _) (ho.sorted _)).imp_of_mem ?_
      intro a b ha hb hlt x hx y hy
      obtain ⟨n, hpa⟩ := (mem_merge_directChildren hc ho).mp ha
      obtain ⟨n', hpb⟩ := (mem_merge_directChildren hc ho).mp hb
      rw [hpa.1, hpb.1] at hlt
      have hnames : n.bytes < n'.bytes := by
        rcases lt_trichotomy n.bytes n'.bytes with h | h | h
        · exact h
        · rw [Name.ext h] at hlt
          exact absurd hlt (lt_irrefl _)
        · exact absurd hlt (lt_asymm ((pathStr_lt_pathStr h).mpr (Or.inl rfl)))
      obtain ⟨ms, m, rest, he, hxp, -⟩ := names_of_mem_block hc ho hpa.1 hx
      obtain ⟨ms', m', rest', he', hyp, -⟩ := names_of_mem_block hc ho hpb.1 hy
      rw [Inode.names_eq (by simp) hxp, Inode.names_eq (by simp) hyp, he, he']
      exact map_bytes_lt hnames

/-- **Merges list in the order of the names.** -/
theorem strictBy_names_mergeAll (h : ∀ L ∈ lists, TreeList L) :
    StrictBy Inode.names (mergeAll lists) := by
  induction lists using List.reverseRecOn with
  | nil => exact strictBy_nil
  | append_singleton lists L _ =>
    obtain ⟨hlists, hL⟩ := forall_lists_concat.mp h
    rw [mergeAll_concat]
    exact strictBy_names_mergeRecursive (treeList_mergeAll hlists).toSiblings hL.toSiblings _ []

/-- **A path of the trees, laid over each other** in their order: one of them lists it, and no
later one has something else than a directory above it. -/
def Stands (trees : List (List Inode)) (ns : List Name) : Prop :=
  ∃ pre L post, trees = pre ++ L :: post ∧ pathStr ns ∈ L.map Inode.path ∧
    ∀ M ∈ post, ∀ b ∈ M, Ancestor b.path (pathStr ns) → b.isDirectory = true

/-- **No name comes between a directory and what is in it**: one that goes on from the name of a
directory with entries beside it does so with a byte after the slash. -/
def NamesApart (trees : List (List Inode)) : Prop :=
  ∀ ns (d s x : Name) c rest, Stands trees (ns ++ [d, x]) → Stands trees (ns ++ [s]) →
    s.bytes = d.bytes ++ c :: rest → slash < c

theorem stands_iff (h : ∀ L ∈ lists, TreeList L) :
    Stands lists ns ↔ pathStr ns ∈ (mergeAll lists).map Inode.path :=
  (mem_paths_mergeAll h _).symm

/-- What is above a path stands there. -/
theorem stands_above (h : ∀ L ∈ lists, TreeList L) (hi : i ∈ mergeAll lists)
    (hp : i.path = pathStr (ns ++ ms)) (hns : ns ≠ []) : Stands lists ns := by
  rw [stands_iff h]
  by_cases hms : ms = []
  · exact List.mem_map.mpr ⟨i, hi, by rw [hp, hms, List.append_nil]⟩
  · obtain ⟨dir, hdir, hdp, -⟩ := (treeList_mergeAll h).closed_names hi hp hns hms
    exact List.mem_map.mpr ⟨dir, hdir, hdp⟩

/-- **The merges of several trees list in the order of the paths** if and only if no name comes
between a directory and what is in it. -/
theorem mergeAll_strictBy_iff (h : ∀ L ∈ lists, TreeList L) :
    StrictBy Inode.path (mergeAll lists) ↔ NamesApart lists := by
  rw [(strictBy_names_mergeAll h).strictBy_iff]
  constructor
  · intro hall ns d s x c rest hd hs he
    obtain ⟨i, hi, hip⟩ := List.mem_map.mp ((stands_iff h).mp hd)
    obtain ⟨j, hj, hjp⟩ := List.mem_map.mp ((stands_iff h).mp hs)
    have hlt : d.bytes < s.bytes := he ▸ lt_append_cons _ _ _
    have hnames : i.names < j.names := by
      rw [Inode.names_eq (by simp) hip, Inode.names_eq (by simp) hjp]
      exact map_bytes_lt hlt
    have hpath := hall i hi j hj hnames
    rw [hip, hjp, pathStr_lt_pathStr hlt] at hpath
    exact hpath.resolve_left (by simp) c rest he
  · intro hapart i hi j hj hlt
    obtain ⟨ns, n, hip⟩ := (treeList_mergeAll h).exists_names hi
    obtain ⟨ms, m, hjp⟩ := (treeList_mergeAll h).exists_names hj
    rw [Inode.names_eq (by simp) hip, Inode.names_eq (by simp) hjp] at hlt
    rcases names_lt_cases hlt with ⟨ks, hks, he⟩ | ⟨base, u, v, ks, ks', hu, hv, huv⟩
    · rw [hip, hjp, he]
      exact pathStr_lt_append hks
    · rw [hu] at hip
      rw [hv] at hjp
      rw [hip, hjp, pathStr_lt_pathStr huv]
      by_cases hks : ks = []
      · exact Or.inl hks
      -- there is something below the smaller name
      obtain ⟨x, ks, rfl⟩ := List.exists_cons_of_ne_nil hks
      have hix : i.path = pathStr ((base ++ [u, x]) ++ ks) := by simpa using hip
      have hjv : j.path = pathStr ((base ++ [v]) ++ ks') := by simpa using hjp
      exact Or.inr fun c rest he => hapart base u v x c rest (stands_above h hi hix (by simp))
        (stands_above h hj hjv (by simp)) he

end Merge

end Fstree
