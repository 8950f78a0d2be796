import Mathlib.Data.List.Induction
import Fstree.Truthful

/-!
# Merging two indexes

`index::merge` builds a new index from two lists of inodes. It looks, from the
root down, for the inodes of both lists that are directly in a directory, merges
these by path – of two inodes with one path it takes the other index's – and
descends into every directory it has taken (`Fstree.mergeRecursive`). The new
inodes keep the digests they had, also the directories that are in both lists and
have got children from both.

A merge lists an inode that the rules pick (`Fstree.Picked`) if it is in the root
or in a directory that is listed (`Fstree.mem_merge_concat`).
-/

namespace Fstree

open SortedBy TwoCursor

/-! ### The merge -/

/-- `index::clone_node`. -/
def cloneNode (source : Inode) : Inode where
  path := source.path
  hash := source.hash
  status := source.status
  mtime := source.mtime
  size := source.size
  target := source.target

/-- A clone that is put into the directory `p`. -/
def placed (p : Bytes) (source : Inode) : Inode := { cloneNode source with parent := some p }

@[simp] theorem placed_path (p : Bytes) (source : Inode) : (placed p source).path = source.path :=
  rfl

@[simp] theorem placed_parent (p : Bytes) (source : Inode) : (placed p source).parent = some p :=
  rfl

@[simp] theorem placed_hash (p : Bytes) (source : Inode) : (placed p source).hash = source.hash :=
  rfl

/-- The inode is directly in the directory `p`, by its path. -/
def isDirectChild (p : Bytes) (node : Inode) : Bool :=
  if p = [] then parentPath node.path = [] ∨ parentPath node.path = [dot]
  else parentPath node.path = p

/-- The inodes that are directly in a directory, in the order of the list. -/
def directChildren (p : Bytes) (nodes : List Inode) : List Inode :=
  nodes.filter (isDirectChild p)

/-- `index::merge_recursive`: the inodes it appends, in their order. -/
def mergeRecursive (current other : List Inode) : ℕ → Bytes → List Inode
  | 0, _ => []
  | fuel + 1, p =>
    (TwoCursor.merge Inode.path (directChildren p current) (directChildren p other)).flatMap
      fun node => placed p node ::
        if node.isDirectory then mergeRecursive current other fuel node.path else []

/-- A path is no longer than this. -/
def maxPath (nodes : List Inode) : ℕ := (nodes.map fun i => i.path.length).foldr max 0

/-- `index::merge`: the new `_inodes`. The recursion goes down one name at a time,
so the longest path bounds it. -/
def mergeNodes (current other : List Inode) : List Inode :=
  mergeRecursive current other (maxPath (current ++ other) + 1) []

/-- Inodes with relative paths, of which those in one directory are in order. -/
structure Siblings (nodes : List Inode) : Prop where
  named : ∀ i ∈ nodes, ∃ ns n, i.path = pathStr (ns ++ [n])
  /-- No directory of the root is called `.`. -/
  plain : ∀ i ∈ nodes, parentPath i.path ≠ [dot]
  sorted : ∀ p, StrictBy Inode.path (directChildren p nodes)

/-- **What a merge can work with**: inodes with relative paths, of which those in one
directory are in order. -/
structure Mergeable (nodes : List Inode) : Prop extends Siblings nodes where
  target_nil : ∀ i ∈ nodes, i.isSymlink = false → i.target = []

theorem le_maxPath {nodes : List Inode} {i : Inode} (h : i ∈ nodes) :
    i.path.length ≤ maxPath nodes := by
  have hm : i.path.length ∈ nodes.map fun i => i.path.length := List.mem_map.mpr ⟨i, h, rfl⟩
  exact List.le_max_of_le' 0 hm le_rfl

theorem length_le_pathStr (ns : List Name) : ns.length ≤ (pathStr ns).length := by
  induction ns using List.reverseRecOn with
  | nil => simp
  | append_singleton ns n ih =>
    have h := pathStr_length_lt ns n
    rw [List.length_append, List.length_singleton]
    omega

section Merge

variable {current other : List Inode}

/-- The inodes directly in a directory are those with one name more. -/
theorem Siblings.mem_directChildren {nodes : List Inode} (h : Siblings nodes) {base : List Name}
    {i : Inode} : i ∈ directChildren (pathStr base) nodes ↔
      i ∈ nodes ∧ ∃ n, i.path = pathStr (base ++ [n]) := by
  rw [directChildren, List.mem_filter]
  refine and_congr_right fun hi => ?_
  obtain ⟨ns, n, hp⟩ := h.named i hi
  have hplain := h.plain i hi
  have hiff : isDirectChild (pathStr base) i = true ↔ pathStr ns = pathStr base := by
    rw [hp, parentPath_pathStr] at hplain
    rw [isDirectChild, hp, parentPath_pathStr]
    split_ifs with hb
    · simp [hb, hplain]
    · simp
  rw [hiff, hp]
  simp

/-- Inodes that are told apart by their paths. -/
theorem Siblings.eq_of_path_eq {nodes : List Inode} (h : Siblings nodes) {i j : Inode}
    (hi : i ∈ nodes) (hj : j ∈ nodes) (hp : i.path = j.path) : i = j := by
  obtain ⟨ns, n, hpath⟩ := h.named i hi
  exact eq_of_key_eq (h.sorted (pathStr ns)).nodup_keys (h.mem_directChildren.mpr ⟨hi, n, hpath⟩)
    (h.mem_directChildren.mpr ⟨hj, n, hp ▸ hpath⟩) hp

/-- **The inode a merge picks for a path**: the other index's, or else this one's. -/
def Picked (current other : List Inode) (ns : List Name) (j : Inode) : Prop :=
  j.path = pathStr ns ∧ (j ∈ other ∨ j ∈ current ∧ ∀ k ∈ other, k.path ≠ pathStr ns)

/-- One inode is picked for a path. -/
theorem Picked.eq (hc : Siblings current) (ho : Siblings other) {ns : List Name} {i j : Inode}
    (hi : Picked current other ns i) (hj : Picked current other ns j) : i = j := by
  obtain ⟨hip, hi⟩ := hi
  obtain ⟨hjp, hj⟩ := hj
  rcases hi with hi | ⟨hi, hin⟩
  · rcases hj with hj | ⟨-, hjn⟩
    · exact ho.eq_of_path_eq hi hj (hip.trans hjp.symm)
    · exact absurd hip (hjn i hi)
  · rcases hj with hj | ⟨hj, -⟩
    · exact absurd hjp (hin j hj)
    · exact hc.eq_of_path_eq hi hj (hip.trans hjp.symm)

/-- The merge of what is directly in a directory. -/
theorem mem_merge_directChildren (hc : Siblings current) (ho : Siblings other) {base : List Name}
    {j : Inode} :
    j ∈ TwoCursor.merge Inode.path (directChildren (pathStr base) current)
        (directChildren (pathStr base) other) ↔ ∃ n, Picked current other (base ++ [n]) j := by
  rw [mem_merge (hc.sorted _) (ho.sorted _), ho.mem_directChildren, hc.mem_directChildren]
  constructor
  · rintro (⟨hj, n, hp⟩ | ⟨⟨hj, n, hp⟩, hne⟩)
    · exact ⟨n, hp, Or.inl hj⟩
    · refine ⟨n, hp, Or.inr ⟨hj, fun k hk hkp => ?_⟩⟩
      exact hne k (ho.mem_directChildren.mpr ⟨hk, n, hkp⟩) (hkp.trans hp.symm)
  · rintro ⟨n, hp, hj | ⟨hj, hne⟩⟩
    · exact Or.inl ⟨hj, n, hp⟩
    · refine Or.inr ⟨⟨hj, n, hp⟩, fun k hk hkp => ?_⟩
      exact hne k (ho.mem_directChildren.mp hk).1 (hkp.trans hp)

/-- **The names above are picked directories**: all proper prefixes of `ms`, below
`base`. -/
def Above (current other : List Inode) (base ms : List Name) : Prop :=
  ∀ ks rest, ms = ks ++ rest → ks ≠ [] → rest ≠ [] →
    ∃ dir, Picked current other (base ++ ks) dir ∧ dir.isDirectory = true

theorem above_cons {base ms : List Name} {m : Name} (hms : ms ≠ []) :
    Above current other base (m :: ms) ↔
      (∃ dir, Picked current other (base ++ [m]) dir ∧ dir.isDirectory = true) ∧
        Above current other (base ++ [m]) ms := by
  constructor
  · intro h
    refine ⟨h [m] ms rfl (by simp) hms, fun ks rest he _ hr => ?_⟩
    simpa using h (m :: ks) rest (by simp [he]) (by simp) hr
  · rintro ⟨hdir, h⟩ ks rest he hk hr
    obtain ⟨k, ks, rfl⟩ := List.exists_cons_of_ne_nil hk
    obtain ⟨rfl, rfl⟩ : m = k ∧ ms = ks ++ rest := by simpa using he
    by_cases hks : ks = []
    · rwa [hks]
    · simpa using h ks rest rfl hks hr

theorem above_concat {base ns : List Name} {n : Name} :
    Above current other base (ns ++ [n]) ↔
      ns = [] ∨ (∃ dir, Picked current other (base ++ ns) dir ∧ dir.isDirectory = true) ∧
        Above current other base ns := by
  constructor
  · intro h
    by_cases hns : ns = []
    · exact Or.inl hns
    · exact Or.inr ⟨h ns [n] rfl hns (by simp), fun ks rest he hk hr =>
        h ks (rest ++ [n]) (by simp [he]) hk (by simp)⟩
  · intro h ks rest he hk hr
    obtain ⟨rest, r, rfl⟩ := (List.eq_nil_or_concat' rest).resolve_left hr
    rw [← List.append_assoc] at he
    obtain ⟨rfl, -⟩ := List.append_inj' he rfl
    obtain ⟨hdir, hup⟩ := h.resolve_left (by simp [hk])
    by_cases hrest : rest = []
    · simpa [hrest] using hdir
    · exact hup ks rest rfl hk hrest

/-- **What a merge appends below a directory.** -/
theorem mem_mergeRecursive (hc : Siblings current) (ho : Siblings other) {fuel : ℕ}
    {base : List Name} {i : Inode} : i ∈ mergeRecursive current other fuel (pathStr base) ↔
      ∃ ms n j, ms.length < fuel ∧ Above current other base (ms ++ [n]) ∧
        Picked current other (base ++ ms ++ [n]) j ∧ i = placed (pathStr (base ++ ms)) j := by
  induction fuel generalizing base with
  | zero => simp [mergeRecursive]
  | succ fuel ih =>
    rw [mergeRecursive, List.mem_flatMap]
    constructor
    · rintro ⟨j, hj, hi⟩
      obtain ⟨n, hpick⟩ := (mem_merge_directChildren hc ho).mp hj
      rcases List.mem_cons.mp hi with rfl | hi
      · exact ⟨[], n, j, by simp, above_concat.mpr (Or.inl rfl), by simpa using hpick, by simp⟩
      · by_cases hdir : j.isDirectory = true
        · rw [if_pos hdir, hpick.1, ih] at hi
          obtain ⟨ms, m, k, hlen, habove, hk, rfl⟩ := hi
          refine ⟨n :: ms, m, k, by simpa using hlen, ?_, by simpa using hk, by simp⟩
          exact (above_cons (by simp)).mpr ⟨⟨j, hpick, hdir⟩, habove⟩
        · rw [if_neg hdir] at hi
          cases hi
    · rintro ⟨ms, m, k, hlen, habove, hk, rfl⟩
      match ms with
      | [] =>
        exact ⟨k, (mem_merge_directChildren hc ho).mpr ⟨m, by simpa using hk⟩, by simp⟩
      | n :: ms =>
        obtain ⟨⟨dir, hpick, hdir⟩, hup⟩ := (above_cons (by simp)).mp habove
        refine ⟨dir, (mem_merge_directChildren hc ho).mpr ⟨n, hpick⟩, List.mem_cons_of_mem _ ?_⟩
        rw [if_pos hdir, hpick.1, ih]
        exact ⟨ms, m, k, by simpa using hlen, hup, by simpa using hk, by simp⟩

/-- **What a merge lists.** -/
theorem mem_mergeNodes (hc : Siblings current) (ho : Siblings other) {i : Inode} :
    i ∈ mergeNodes current other ↔ ∃ ns n j, Above current other [] (ns ++ [n]) ∧
      Picked current other (ns ++ [n]) j ∧ i = placed (pathStr ns) j := by
  rw [mergeNodes, ← pathStr_nil, mem_mergeRecursive hc ho]
  simp only [List.nil_append]
  refine exists_congr fun ns => exists_congr fun n => exists_congr fun j =>
    ⟨fun h => h.2, fun h => ⟨?_, h⟩⟩
  -- the path is no longer than the longest
  have hmem : j ∈ current ++ other :=
    List.mem_append.mpr (h.2.1.2.elim Or.inr fun hj => Or.inl hj.1)
  have hle := le_maxPath hmem
  rw [h.2.1.1] at hle
  have hlen := length_le_pathStr (ns ++ [n])
  rw [List.length_append, List.length_singleton] at hlen
  omega

/-- A directory of the merge, or the root. -/
def MergedDir (current other : List Inode) (ns : List Name) : Prop :=
  ns = [] ∨ ∃ dir ∈ mergeNodes current other, dir.path = pathStr ns ∧ dir.isDirectory = true

theorem mergedDir_iff (hc : Siblings current) (ho : Siblings other) {ns : List Name} {n : Name} :
    MergedDir current other ns ↔ Above current other [] (ns ++ [n]) := by
  rw [above_concat, MergedDir]
  refine or_congr_right' fun hns => ?_
  obtain ⟨ks, k, rfl⟩ := (List.eq_nil_or_concat' ns).resolve_left hns
  constructor
  · rintro ⟨dir, hmem, hp, hdir⟩
    obtain ⟨ms, m, j, habove, hpick, rfl⟩ := (mem_mergeNodes hc ho).mp hmem
    have he : ms ++ [m] = ks ++ [k] := pathStr_injective (hpick.1.symm.trans hp)
    rw [he] at habove hpick
    exact ⟨⟨j, hpick, hdir⟩, habove⟩
  · rintro ⟨⟨dir, hpick, hdir⟩, habove⟩
    exact ⟨placed (pathStr ks) dir, (mem_mergeNodes hc ho).mpr ⟨ks, k, dir, habove, hpick, rfl⟩,
      hpick.1, hdir⟩

/-- **A merge lists what is picked in its directories.** -/
theorem mem_merge_concat (hc : Siblings current) (ho : Siblings other) {i : Inode} :
    i ∈ mergeNodes current other ↔ ∃ ns n j, MergedDir current other ns ∧
      Picked current other (ns ++ [n]) j ∧ i = placed (pathStr ns) j := by
  rw [mem_mergeNodes hc ho]
  exact exists_congr fun ns => exists_congr fun n => exists_congr fun j =>
    and_congr_left fun _ => (mergedDir_iff hc ho).symm

/-- The names of what is appended below one name. -/
theorem names_of_mem_block (hc : Siblings current) (ho : Siblings other) {fuel : ℕ}
    {base : List Name} {n : Name} {node i : Inode} (hnode : node.path = pathStr (base ++ [n]))
    (hi : i ∈ placed (pathStr base) node ::
      if node.isDirectory then mergeRecursive current other fuel node.path else []) :
    ∃ ms m rest, ms ++ [m] = n :: rest ∧ i.path = pathStr (base ++ (ms ++ [m])) ∧
      i.parent = some (pathStr (base ++ ms)) := by
  rcases List.mem_cons.mp hi with rfl | hi
  · exact ⟨[], n, [], rfl, hnode, by simp⟩
  · by_cases hdir : node.isDirectory = true
    · rw [if_pos hdir, hnode, mem_mergeRecursive hc ho] at hi
      obtain ⟨ms, m, j, -, -, hpick, rfl⟩ := hi
      exact ⟨n :: ms, m, ms ++ [m], rfl, by simpa using hpick.1, by simp⟩
    · rw [if_neg hdir] at hi
      cases hi

/-- **No inode of a merge stands before its parent**, no path is listed twice, and what is in one
directory is in order. -/
theorem pairwise_mergeRecursive (hc : Siblings current) (ho : Siblings other) (fuel : ℕ)
    (base : List Name) : (mergeRecursive current other fuel (pathStr base)).Pairwise fun i j =>
      i.path ≠ j.path ∧ i.parent ≠ some j.path ∧ (i.parent = j.parent → i.path < j.path) := by
  induction fuel generalizing base with
  | zero => exact List.Pairwise.nil
  | succ fuel ih =>
    rw [mergeRecursive, List.pairwise_flatMap]
    constructor
    · intro node hnode
      obtain ⟨n, hpick⟩ := (mem_merge_directChildren hc ho).mp hnode
      refine List.pairwise_cons.mpr ⟨fun i hi => ?_, ?_⟩
      · by_cases hdir : node.isDirectory = true
        · rw [if_pos hdir, hpick.1, mem_mergeRecursive hc ho] at hi
          obtain ⟨ms, m, j, -, -, hj, rfl⟩ := hi
          have hpath : (placed (pathStr (base ++ [n] ++ ms)) j).path =
              pathStr (base ++ [n] ++ ms ++ [m]) := hj.1
          rw [hpath]
          refine ⟨fun he => ?_, fun he => ?_, fun he => ?_⟩
          · have h := pathStr_injective (hpick.1.symm.trans he)
            simp at h
          · have h := pathStr_injective (Option.some.inj he)
            simp at h
          · have h := pathStr_injective (Option.some.inj he)
            simp at h
        · rw [if_neg hdir] at hi
          cases hi
      · split_ifs with hdir
        · rw [hpick.1]
          exact ih _
        · exact List.Pairwise.nil
    · -- what is below two names has no path in common
      refine (strictBy_merge (hc.sorted _) (ho.sorted _)).imp_of_mem ?_
      intro a b ha hb hlt x hx y hy
      obtain ⟨n, hpa⟩ := (mem_merge_directChildren hc ho).mp ha
      obtain ⟨n', hpb⟩ := (mem_merge_directChildren hc ho).mp hb
      have hne : n ≠ n' := by
        rintro rfl
        exact absurd (hpa.1.trans hpb.1.symm) (ne_of_lt hlt)
      obtain ⟨ms, m, rest, he, hxp, hxq⟩ := names_of_mem_block hc ho hpa.1 hx
      obtain ⟨ms', m', rest', he', hyp, hyq⟩ := names_of_mem_block hc ho hpb.1 hy
      rw [hxp, hxq, hyp, hyq]
      refine ⟨fun h => ?_, fun h => ?_, fun h => ?_⟩
      · rw [he, he'] at h
        exact hne (by simpa using pathStr_injective h : n = n' ∧ _).1
      · have hms : ms = ms' ++ [m'] := by simpa using pathStr_injective (Option.some.inj h)
        rw [hms, he'] at he
        exact hne (by simpa using he.symm : n = n' ∧ _).1
      · -- in one directory there are only the two themselves
        obtain rfl : ms = ms' := by simpa using pathStr_injective (Option.some.inj h)
        cases ms with
        | nil =>
          obtain rfl := (List.cons.inj he).1
          obtain rfl := (List.cons.inj he').1
          rw [List.nil_append, List.nil_append, ← hpa.1, ← hpb.1]
          exact hlt
        | cons k ms => exact absurd ((List.cons.inj he).1.symm.trans (List.cons.inj he').1) hne

/-- **The index a merge makes.** -/
def mergeIndex (hc : Mergeable current) (ho : Mergeable other) : Index where
  inodes := mergeNodes current other
  children p := (mergeNodes current other).filter fun i => i.parent = some p
  nodup_paths := List.pairwise_map.mpr
    ((pairwise_mergeRecursive hc.toSiblings ho.toSiblings _ []).imp fun h => h.1)
  named i hi := by
    obtain ⟨ns, n, j, -, hpick, rfl⟩ := (mem_mergeNodes hc.toSiblings ho.toSiblings).mp hi
    exact ⟨ns, n, hpick.1, rfl⟩
  not_ignored i hi := by
    obtain ⟨ns, n, j, -, -, rfl⟩ := (mem_mergeNodes hc.toSiblings ho.toSiblings).mp hi
    rfl
  target_nil i hi hl := by
    obtain ⟨ns, n, j, -, hpick, rfl⟩ := (mem_mergeNodes hc.toSiblings ho.toSiblings).mp hi
    exact hpick.2.elim (fun hj => ho.target_nil j hj hl) fun hj => hc.target_nil j hj.1 hl
  parents_first := (pairwise_mergeRecursive hc.toSiblings ho.toSiblings _ []).imp fun h => h.2.1
  parent_mem i hi p hp := by
    obtain ⟨ns, n, j, hdir, hpick, rfl⟩ := (mem_merge_concat hc.toSiblings ho.toSiblings).mp hi
    obtain rfl : pathStr ns = p := Option.some.inj hp
    exact hdir.imp (fun h => by rw [h, pathStr_nil]) id
  nodup_children p := (List.pairwise_map.mpr
    ((pairwise_mergeRecursive hc.toSiblings ho.toSiblings _ []).imp fun h => h.1)).sublist
      (List.filter_sublist.map _)
  mem_children p c := by
    constructor
    · rintro ⟨h, -⟩
      simpa using h
    · rintro ⟨h, hp⟩
      obtain ⟨ns, n, j, -, -, rfl⟩ := (mem_mergeNodes hc.toSiblings ho.toSiblings).mp h
      exact ⟨List.mem_filter.mpr ⟨h, by simpa using hp⟩, rfl⟩

end Merge

end Fstree
