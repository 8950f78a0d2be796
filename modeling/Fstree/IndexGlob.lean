import Fstree.GlobSegment

/-!
# Globbing an index

`index::glob` has two ways to find the inodes that a pattern matches. If the root has children
it goes down the tree, one segment of the pattern for each level (`Fstree.globRecursive`);
otherwise it matches the path of each listed inode with a `glob_list` that has the one pattern
(`Fstree.globLinear`). A comment at the first says that it mirrors the semantics of the second.

The first finds what the segments match from some directory on (`Fstree.mem_globRecursive`). The
expression of the second takes what is below a match as well (`Fstree.taken_iff_found`), so that
a directory is found alone by the first, and with all that is in it by the second
(`Fstree.globs_disagree`). It has other rules too for a `?` and for a `**` that does not end the
pattern, and it knows nothing of ignored inodes, which are in the tree but not in the list. When
the two find the same is `Fstree.glob_agree_iff`.

A segment is matched as it should be if there is no `*` in the name
(`Fstree.globMatchSegment_iff`).
-/

namespace Fstree

open Codec DeepPath Wildcard

/-! ### The tree and the list -/

/-- An inode of a tree. -/
inductive InodeTree.Has : InodeTree → Inode → Prop
  | self {i cs} : Has (.node i cs) i
  | child {i cs c j} (hc : c ∈ cs) (hj : c.Has j) : Has (.node i cs) j

/-- **A tree at its place**, below the directory `up`: each inode has the path of the inode
above it, and a name. Inodes with children are directories. -/
inductive InodeTree.Placed : List Name → InodeTree → Prop
  | node {up n i cs} (hpath : i.path = pathStr (up ++ [n]))
      (hdir : cs ≠ [] → i.isDirectory = true) (hcs : ∀ c ∈ cs, c.Placed (up ++ [n])) :
      Placed up (.node i cs)

/-- An inode below the root. -/
def BelowRoot (root : InodeTree) (i : Inode) : Prop := ∃ c ∈ root.children, c.Has i

/-- **The tree mirrors the list**: the paths below the root, but for those of ignored inodes,
are the paths that are listed. -/
structure Mirrors (root : InodeTree) (inodes : List Inode) : Prop where
  placed : ∀ c ∈ root.children, c.Placed []
  mem_iff : ∀ q, (∃ i ∈ inodes, i.path = q) ↔
    ∃ i, BelowRoot root i ∧ i.ignored = false ∧ i.path = q

/-! ### What is found in the tree -/

/-- **The segments of the pattern match a path from some directory on**, from the root if the
pattern is anchored. -/
def Found (p : Bytes) (x : List Name) : Prop :=
  splitGlobPattern p ≠ [] ∧ ∃ up ns, x = up ++ ns ∧ (anchored p = true → up = []) ∧
    SegsMatch CodeMatch (splitGlobPattern p) ns

variable {t root : InodeTree} {cs : List InodeTree} {segs : List Bytes} {up : List Name}
  {i j : Inode} {n : Name}

/-- An inode of a tree has a path below the place of the tree. -/
theorem InodeTree.Placed.path (ht : t.Placed up) (hj : t.Has j) :
    ∃ n ns, j.path = pathStr (up ++ n :: ns) := by
  induction ht with
  | node hpath _ _ ih =>
    cases hj with
    | self => exact ⟨_, [], hpath⟩
    | child hc hj =>
      obtain ⟨n, ns, hj⟩ := ih _ hc hj
      exact ⟨_, n :: ns, by rw [hj, List.append_assoc]; rfl⟩

/-- **A node of a placed tree has the names of its path**, from the tree on. -/
theorem InodeTree.Placed.at_iff (ht : t.Placed up) {bs : List Bytes} : t.At bs j ↔
    ∃ ns : List Name, bs = ns.map Name.bytes ∧ t.Has j ∧ j.path = pathStr (up ++ ns) := by
  constructor
  · intro hat
    induction hat generalizing up with
    | self =>
      cases ht with
      | @node up n i cs hpath hdir hcs =>
        exact ⟨[n], by rw [Inode.name, hpath, fileName_pathStr]; rfl, .self, hpath⟩
    | child hdir hc _ ih =>
      cases ht with
      | @node up n i cs hpath hdir hcs =>
        obtain ⟨ns, rfl, hj, hp⟩ := ih (hcs _ hc)
        refine ⟨n :: ns, by rw [Inode.name, hpath, fileName_pathStr]; rfl, .child hc hj, ?_⟩
        rw [hp, List.append_assoc]
        rfl
  · rintro ⟨ns, rfl, hj, hp⟩
    induction ht generalizing ns with
    | @node up n i cs hpath hdir hcs ih =>
      have hname : i.name = n.bytes := by rw [Inode.name, hpath, fileName_pathStr]
      cases hj with
      | self =>
        rw [hpath, pathStr_inj, List.append_cancel_left_eq] at hp
        subst hp
        rw [List.map_singleton, ← hname]
        exact .self
      | child hc hj =>
        obtain ⟨m, ms, hm⟩ := (hcs _ hc).path hj
        rw [hm, List.append_assoc, pathStr_inj, List.append_cancel_left_eq] at hp
        subst hp
        have hat := ih _ hc _ hj hm
        rw [List.singleton_append, List.map_cons, ← hname]
        exact .child (hdir (List.ne_nil_of_mem hc)) hc hat

/-- The segments match names if they match their bytes. -/
theorem segsMatch_iff {M : Bytes → Bytes → Prop} {ns : List Name} :
    SegsMatch M segs ns ↔ Matches deepSegment M segs (ns.map Name.bytes) := by
  rw [matches_map]
  constructor
  · intro h
    induction h with
    | nil => exact ⟨_, .nil⟩
    | name hseg hn _ ih => exact ih.imp fun _ h => .name hseg hn h
    | deep hsegs _ ih => exact ih.elim fun _ h => ⟨_, .deep hsegs h⟩
    | last hns => exact ⟨_, .last hns⟩
  · rintro ⟨ks, h⟩
    induction h with
    | nil => exact .nil
    | name hseg hn _ ih => exact .name hseg hn ih
    | deep hsegs _ ih => exact .deep hsegs ih
    | last hns => exact .last hns

theorem segsMatch_deep {M : Bytes → Bytes → Prop} {ns : List Name} (hsegs : segs ≠ []) :
    SegsMatch M (deepSegment :: segs) ns ↔ ∃ up ms, ns = up ++ ms ∧ SegsMatch M segs ms := by
  constructor
  · intro h
    cases h with
    | name hne => exact absurd rfl hne
    | deep _ hs => exact ⟨_, _, rfl, hs⟩
    | last => exact absurd rfl hsegs
  · rintro ⟨up, ms, rfl, hs⟩
    exact .deep hsegs hs

/-- **What `glob_match_node` finds in a placed tree**: the inodes whose names, from the tree on, the
segments match. -/
theorem mem_globMatchNode (ht : t.Placed up) :
    j ∈ globMatchNode t segs ↔
      ∃ ns, (t.Has j ∧ j.path = pathStr (up ++ ns)) ∧ SegsMatch CodeMatch segs ns := by
  rw [mem_globMatchNode_iff]
  constructor
  · rintro ⟨bs, hat, hm⟩
    obtain ⟨ns, rfl, hj⟩ := ht.at_iff.mp hat
    exact ⟨ns, hj, segsMatch_iff.mpr hm⟩
  · rintro ⟨ns, hj, hm⟩
    exact ⟨_, ht.at_iff.mpr ⟨ns, rfl, hj⟩, segsMatch_iff.mp hm⟩

/-- The segments of a pattern that is not anchored are looked for in every directory. -/
theorem segsMatch_effectiveSegs {p : Bytes} (hp : splitGlobPattern p ≠ []) (x : List Name) :
    SegsMatch CodeMatch (effectiveSegs p) x ↔ Found p x := by
  rw [effectiveSegs, Found]
  cases ha : anchored p with
  | true =>
    constructor
    · exact fun h => ⟨hp, [], x, rfl, fun _ => rfl, h⟩
    · rintro ⟨-, up, ns, rfl, hup, h⟩
      rw [hup rfl]
      exact h
  | false =>
    rw [if_neg Bool.false_ne_true, segsMatch_deep hp]
    constructor
    · rintro ⟨up, ns, rfl, h⟩
      exact ⟨hp, up, ns, rfl, by simp, h⟩
    · rintro ⟨-, up, ns, rfl, -, h⟩
      exact ⟨up, ns, rfl, h⟩

/-- **What `glob_recursive` finds.** -/
theorem mem_globRecursive {p : Bytes} (ht : ∀ c ∈ root.children, c.Placed []) :
    j ∈ globRecursive p root ↔ BelowRoot root j ∧ ∃ x, j.path = pathStr x ∧ Found p x := by
  rw [globRecursive]
  split_ifs with hp
  · simp [Found, hp]
  · rw [mem_matchChildren]
    constructor
    · rintro ⟨c, hc, hj⟩
      obtain ⟨x, ⟨hj, hx⟩, h⟩ := (mem_globMatchNode (ht c hc)).mp hj
      exact ⟨⟨c, hc, hj⟩, x, hx, (segsMatch_effectiveSegs hp x).mp h⟩
    · rintro ⟨⟨c, hc, hj⟩, x, hx, h⟩
      exact ⟨c, hc, (mem_globMatchNode (ht c hc)).mpr
        ⟨x, ⟨hj, hx⟩, (segsMatch_effectiveSegs hp x).mpr h⟩⟩

/-! ### What is found in the list -/

/-- **What `glob_linear` finds**: the inodes whose paths the expression takes. -/
theorem globLinear_eq {p : Bytes} (h : ∀ c ∈ p, globByte c = true) (inodes : List Inode) :
    ∃ found, globLinear p inodes = .ok found ∧ found ⊆ inodes ∧
      ∀ j ∈ inodes, ∀ x, j.path = pathStr x → (j ∈ found ↔ Taken [p] x) := by
  have hneg : p.head? ≠ some 33 := fun he =>
    absurd (h 33 (List.mem_of_head? he)) (by decide)
  refine ⟨inodes.filter fun i => matchPath ([stripSlashes p].filter (· ≠ [])) i.path, ?_,
    List.filter_subset_self _, ?_⟩
  · rw [globLinear, addPattern_eq hneg]
    rfl
  · intro j hj x hx
    rw [List.mem_filter, hx, matchPath_iff (by simp), Taken]
    simp only [hj, true_and, List.mem_filter, decide_eq_true_eq, and_assoc, List.map_singleton]

/-- **What is found in the tree is listed**: it is no ignored inode. -/
def FindsListed (p : Bytes) (root : InodeTree) (inodes : List Inode) : Prop :=
  ∀ i, BelowRoot root i → ∀ x, i.path = pathStr x → Found p x → ∃ j ∈ inodes, j.path = i.path

/-- **The two ways find alike**: what is found in the tree is listed, and a listed inode is found
in the tree exactly when the expression takes its path. -/
structure GlobsAlike (p : Bytes) (root : InodeTree) (inodes : List Inode) : Prop where
  listed : FindsListed p root inodes
  alike : ∀ i ∈ inodes, ∀ x, i.path = pathStr x → (Found p x ↔ Taken [p] x)

/-- What is listed has a path. -/
theorem Mirrors.path {inodes : List Inode} (hm : Mirrors root inodes) (hi : i ∈ inodes) :
    (∃ j, BelowRoot root j ∧ j.path = i.path) ∧ ∃ x, i.path = pathStr x := by
  obtain ⟨j, ⟨c, hc, hj⟩, -, he⟩ := (hm.mem_iff i.path).mp ⟨i, hi, rfl⟩
  obtain ⟨n, ns, hpath⟩ := (hm.placed c hc).path hj
  exact ⟨⟨j, ⟨c, hc, hj⟩, he⟩, _, he.symm.trans hpath⟩

/-- **The same paths are found** exactly when the two ways find alike. -/
theorem paths_eq_iff {p : Bytes} {inodes found : List Inode} (hm : Mirrors root inodes)
    (hsub : found ⊆ inodes)
    (hfound : ∀ j ∈ inodes, ∀ x, j.path = pathStr x → (j ∈ found ↔ Taken [p] x)) :
    (∀ q, q ∈ (globRecursive p root).map Inode.path ↔ q ∈ found.map Inode.path) ↔
      GlobsAlike p root inodes := by
  simp only [List.mem_map]
  constructor
  · intro h
    have htree : ∀ i, BelowRoot root i → ∀ x, i.path = pathStr x → Found p x →
        ∃ j ∈ found, j.path = i.path := fun i hi x hx hp =>
      (h i.path).mp ⟨i, (mem_globRecursive hm.placed).mpr ⟨hi, x, hx, hp⟩, rfl⟩
    refine ⟨fun i hi x hx hp => ?_, fun i hi x hx => ⟨fun hp => ?_, fun ht => ?_⟩⟩
    · obtain ⟨j, hj, he⟩ := htree i hi x hx hp
      exact ⟨j, hsub hj, he⟩
    · obtain ⟨⟨k, hk, hki⟩, -⟩ := hm.path hi
      obtain ⟨j, hj, he⟩ := htree k hk x (hki.trans hx) hp
      exact (hfound j (hsub hj) x (he.trans (hki.trans hx))).mp hj
    · obtain ⟨j, hj, he⟩ := (h i.path).mpr ⟨i, (hfound i hi x hx).mpr ht, rfl⟩
      obtain ⟨-, y, hy, hp⟩ := (mem_globRecursive hm.placed).mp hj
      rw [hy, hx, pathStr_inj] at he
      exact he ▸ hp
  · rintro ⟨hlisted, halike⟩ q
    constructor
    · rintro ⟨i, hi, rfl⟩
      obtain ⟨hi, x, hx, hp⟩ := (mem_globRecursive hm.placed).mp hi
      obtain ⟨j, hj, he⟩ := hlisted i hi x hx hp
      have hjx := he.trans hx
      exact ⟨j, (hfound j hj x hjx).mpr ((halike j hj x hjx).mp hp), he⟩
    · rintro ⟨j, hj, rfl⟩
      obtain ⟨⟨k, hk, he⟩, x, hx⟩ := hm.path (hsub hj)
      have hp := (halike j (hsub hj) x hx).mpr ((hfound j (hsub hj) x hx).mp hj)
      exact ⟨k, (mem_globRecursive hm.placed).mpr ⟨hk, x, he.trans hx, hp⟩, he⟩

/-! ### Plain patterns -/

theorem modifyHead_nil_append (l : List Bytes) : l.modifyHead ([] ++ ·) = l := by
  cases l <;> rfl

theorem splitSegments_eq {seg p : Bytes} (hp : seg ≠ [] ∨ p ≠ [])
    (hlast : p.getLast? ≠ some slash) :
    splitSegments seg p = (p.splitOn slash).modifyHead (seg ++ ·) := by
  induction p generalizing seg with
  | nil =>
    obtain ⟨c, seg, rfl⟩ := List.exists_cons_of_ne_nil (hp.resolve_right (by simp))
    simp [splitSegments]
  | cons c p ih =>
    have hlast' : p ≠ [] → p.getLast? ≠ some slash := fun hne => by
      rwa [List.getLast?_cons_of_ne_nil hne] at hlast
    rw [splitSegments, List.splitOn_cons_eq_if_modifyHead]
    by_cases hc : c = slash
    · subst hc
      have hne : p ≠ [] := by
        rintro rfl
        exact hlast rfl
      rw [if_pos rfl, ih (Or.inr hne) (hlast' hne), modifyHead_nil_append]
      simp
    · have hpl : p.getLast? ≠ some slash := by
        by_cases hne : p = []
        · simp [hne]
        · exact hlast' hne
      rw [if_neg hc, ih (Or.inl (by simp)) hpl]
      simp [hc, List.modifyHead_modifyHead, Function.comp_def]

theorem splitSegments_concat (seg q : Bytes) :
    splitSegments seg (q ++ [slash]) = (q.splitOn slash).modifyHead (seg ++ ·) := by
  induction q generalizing seg with
  | nil => simp [splitSegments]
  | cons c q ih =>
    rw [List.cons_append, splitSegments, List.splitOn_cons_eq_if_modifyHead]
    by_cases hc : c = slash
    · rw [if_pos hc, ih, modifyHead_nil_append]
      simp [hc]
    · rw [if_neg hc, ih]
      simp [hc, List.modifyHead_modifyHead, Function.comp_def]

theorem getLast?_stripSlashes_ne (p : Bytes) : (stripSlashes p).getLast? ≠ some slash := by
  rw [stripSlashes, List.getLast?_reverse]
  intro h
  have hneg := List.head?_dropWhile_not (· = slash) p.reverse
  rw [h] at hneg
  simp at hneg

/-- **One slash at most ends a pattern.** -/
def OneSlash (p : Bytes) : Prop := p = stripSlashes p ∨ p = stripSlashes p ++ [slash]

theorem anchored_stripSlashes {p : Bytes} (hp : stripSlashes p ≠ []) (hend : OneSlash p) :
    anchored (stripSlashes p) = anchored p := by
  rw [OneSlash] at hend
  generalize stripSlashes p = q at hp hend
  obtain ⟨c, q, rfl⟩ := List.exists_cons_of_ne_nil hp
  rcases hend with rfl | rfl <;> rfl

/-- The segments that the two ways make of a pattern are the same, if at most one slash ends it. -/
theorem splitGlobPattern_eq {p : Bytes} (hp : stripSlashes p ≠ []) (hend : OneSlash p) :
    splitGlobPattern p = segments (stripSlashes p) := by
  have hlast := getLast?_stripSlashes_ne p
  have hanch := anchored_stripSlashes hp hend
  rw [OneSlash] at hend
  rw [splitGlobPattern, segments, ← hanch]
  generalize stripSlashes p = q at hp hend hlast
  obtain ⟨c, q, rfl⟩ := List.exists_cons_of_ne_nil hp
  rcases hend with rfl | rfl
  · have hne : (if anchored (c :: q) then q else c :: q) ≠ [] ∧
        (if anchored (c :: q) then q else c :: q).getLast? ≠ some slash := by
      split_ifs with ha
      · have hc : c = slash := by simpa [anchored] using ha
        have hq : q ≠ [] := by
          rintro rfl
          exact hlast (by rw [hc]; rfl)
        rw [List.getLast?_cons_of_ne_nil hq] at hlast
        exact ⟨hq, hlast⟩
      · exact ⟨hp, hlast⟩
    rw [List.tail_cons, splitSegments_eq (Or.inr hne.1) hne.2, modifyHead_nil_append]
  · have htail : (if anchored (c :: q) then (c :: q ++ [slash]).tail else c :: q ++ [slash]) =
        (if anchored (c :: q) then q else c :: q) ++ [slash] := by
      split_ifs <;> rfl
    rw [htail, splitSegments_concat, modifyHead_nil_append, List.tail_cons]

/-- A pattern of slashes has no segment, if it has at most one. -/
theorem splitGlobPattern_eq_nil {p : Bytes} (hp : stripSlashes p = []) (hend : OneSlash p) :
    splitGlobPattern p = [] := by
  rw [OneSlash, hp] at hend
  rcases hend with rfl | rfl <;> rfl

theorem SegsMatch.mono {M M' : Bytes → Bytes → Prop} {ns : List Name}
    (h : SegsMatch M segs ns) (hM : ∀ s ∈ segs, ∀ n ∈ ns, M s n.bytes → M' s n.bytes) :
    SegsMatch M' segs ns := by
  induction h with
  | nil => exact .nil
  | name hseg hn _ ih =>
    exact .name hseg (hM _ List.mem_cons_self _ List.mem_cons_self hn)
      (ih fun s hs n hn => hM s (List.mem_cons_of_mem _ hs) n (List.mem_cons_of_mem _ hn))
  | deep hsegs _ ih =>
    exact .deep hsegs
      (ih fun s hs n hn => hM s (List.mem_cons_of_mem _ hs) n (List.mem_append_right _ hn))
  | last hne => exact .last hne

/-- What is between separators is there before it is split. -/
theorem subset_of_mem_splitOn {q s : Bytes} (hs : s ∈ q.splitOn slash) : s ⊆ q := by
  induction q generalizing s with
  | nil =>
    rw [List.splitOn_nil, List.mem_singleton] at hs
    rw [hs]
    exact List.Subset.refl _
  | cons c q ih =>
    rw [List.splitOn_cons_eq_if_modifyHead] at hs
    obtain ⟨t, ts, hts⟩ := List.exists_cons_of_ne_nil (List.splitOn_ne_nil slash q)
    rw [hts] at hs ih
    split_ifs at hs with hc
    · rcases List.mem_cons.mp hs with rfl | hs
      · exact List.nil_subset _
      · exact List.subset_cons_of_subset c (ih hs)
    · rcases List.mem_cons.mp hs with rfl | hs
      · exact List.cons_subset_cons c (ih List.mem_cons_self)
      · exact List.subset_cons_of_subset c (ih (List.mem_cons_of_mem _ hs))

theorem subset_of_mem_segments {p s : Bytes} (hs : s ∈ segments p) : s ⊆ p := by
  rw [segments] at hs
  split_ifs at hs
  · exact List.Subset.trans (subset_of_mem_splitOn hs) (List.tail_subset p)
  · exact subset_of_mem_splitOn hs

/-- A plain pattern takes what is found in the tree, and all that is below. -/
theorem taken_iff_found {p : Bytes} {x : List Name} (hp : PlainPattern (stripSlashes p))
    (hend : OneSlash p) (hclear : Clear (pathStr x))
    (hstar : asterisk ∈ p → asterisk ∉ pathStr x) :
    Taken [p] x ↔ ∃ y z, x = y ++ z ∧ Found p y := by
  by_cases hne : stripSlashes p = []
  · constructor
    · rintro ⟨q, hq, hq', -⟩
      rw [List.map_singleton, List.mem_singleton, hne] at hq
      exact absurd hq hq'
    · rintro ⟨y, z, -, h, -⟩
      exact absurd (splitGlobPattern_eq_nil hne hend) h
  rw [← ignored_iff_taken (by simpa using hp) hclear, Ignored]
  simp only [List.map_singleton, List.mem_singleton, exists_eq_left]
  have hsplit := splitGlobPattern_eq hne hend
  have hsub : ∀ c ∈ stripSlashes p, c ∈ p := ( stripSlashes_prefix p).subset
  have hname : ∀ n ∈ x, ∀ s ∈ segments (stripSlashes p), CodeMatch s n.bytes ↔ SegMatch s n.bytes :=
    fun n hn s hs => globMatchSegment_iff fun hm hn' =>
      hstar (hsub _ (subset_of_mem_segments hs hm)) (bytes_subset_pathStr hn hn')
  rw [anchored_stripSlashes hne hend]
  constructor
  · rintro ⟨up, ns, below, rfl, hup, hs⟩
    refine ⟨up ++ ns, below, rfl, ?_, up, ns, rfl, hup, ?_⟩
    · rw [hsplit]
      exact List.splitOn_ne_nil _ _
    · rw [hsplit]
      exact hs.mono fun s hs n hn => (hname n (by simp [hn]) s hs).mpr
  · rintro ⟨y, z, rfl, -, up, ns, rfl, hup, hs⟩
    rw [hsplit] at hs
    exact ⟨up, ns, z, rfl, hup, hs.mono fun s hs n hn => (hname n (by simp [hn]) s hs).mp⟩

/-- **What is below a thing that is found is found.** -/
def FindsBelow (p : Bytes) (inodes : List Inode) : Prop :=
  ∀ i ∈ inodes, ∀ y z, i.path = pathStr (y ++ z) → Found p y → Found p (y ++ z)

/-- **For a plain pattern the two ways find alike** if nothing is found that is not listed, and what
is below a thing that is found is found as well. -/
theorem globsAlike_iff {p : Bytes} {inodes : List Inode} (hp : PlainPattern (stripSlashes p))
    (hend : OneSlash p)
    (hpaths : ∀ i ∈ inodes, Clear i.path ∧ (asterisk ∈ p → asterisk ∉ i.path)) :
    GlobsAlike p root inodes ↔ FindsListed p root inodes ∧ FindsBelow p inodes := by
  have htaken : ∀ i ∈ inodes, ∀ x, i.path = pathStr x →
      (Taken [p] x ↔ ∃ y z, x = y ++ z ∧ Found p y) := fun i hi x hx =>
    taken_iff_found hp hend (hx ▸ (hpaths i hi).1) (hx ▸ (hpaths i hi).2)
  constructor
  · refine fun halike => ⟨halike.listed, fun i hi y z hx hy => ?_⟩
    exact (halike.alike i hi _ hx).mpr ((htaken i hi _ hx).mpr ⟨y, z, rfl, hy⟩)
  · rintro ⟨hlisted, hbelow⟩
    refine ⟨hlisted, fun i hi x hx => ?_⟩
    rw [htaken i hi x hx]
    constructor
    · exact fun hx => ⟨x, [], (List.append_nil x).symm, hx⟩
    · rintro ⟨y, z, rfl, hy⟩
      exact hbelow i hi y z hx hy

/-- **The two ways find the same paths** of a plain pattern, that at most one slash ends, exactly
when nothing is found in the tree that is not listed, and what is below a thing that is found is
found as well. In the paths there are no line terminators, and no `*` if there is one in the
pattern. -/
theorem glob_agree_iff {p : Bytes} (h : ∀ c ∈ p, globByte c = true) {inodes : List Inode}
    (hm : Mirrors root inodes) (hp : PlainPattern (stripSlashes p)) (hend : OneSlash p)
    (hpaths : ∀ i ∈ inodes, Clear i.path ∧ (asterisk ∈ p → asterisk ∉ i.path)) :
    ∃ found, globLinear p inodes = .ok found ∧
      ((∀ q, q ∈ (globRecursive p root).map Inode.path ↔ q ∈ found.map Inode.path) ↔
        FindsListed p root inodes ∧ FindsBelow p inodes) := by
  obtain ⟨found, heq, hsub, hfound⟩ := globLinear_eq h inodes
  exact ⟨found, heq, (paths_eq_iff hm hsub hfound).trans (globsAlike_iff hp hend hpaths)⟩

namespace Sample

theorem belowRoot_globRoot {i : Inode} : BelowRoot globRoot i ↔ i = globDir ∨ i = globFile := by
  constructor
  · rintro ⟨c, hc, hi⟩
    rw [globRoot, InodeTree.children, List.mem_singleton] at hc
    subst hc
    cases hi with
    | self => exact Or.inl rfl
    | child hc hi =>
      rw [List.mem_singleton] at hc
      subst hc
      cases hi with
      | self => exact Or.inr rfl
      | child hc => cases hc
  · rintro (rfl | rfl)
    · exact ⟨_, List.mem_singleton.mpr rfl, .self⟩
    · exact ⟨_, List.mem_singleton.mpr rfl, .child (List.mem_singleton.mpr rfl) .self⟩

/-- The tree mirrors its list. -/
theorem mirrors_globRoot : Mirrors globRoot [globDir, globFile] where
  placed := by
    intro c hc
    rw [globRoot, InodeTree.children, List.mem_singleton] at hc
    subst hc
    refine .node (n := ⟨ascii ['d'], by decide, by decide⟩) (by decide) (fun _ => rfl) ?_
    intro c hc
    rw [List.mem_singleton] at hc
    subst hc
    exact .node (n := ⟨ascii ['f'], by decide, by decide⟩) (by decide) (fun h => absurd rfl h)
      (by simp)
  mem_iff q := by
    constructor
    · rintro ⟨i, hi, rfl⟩
      simp only [List.mem_cons, List.not_mem_nil, or_false] at hi
      refine ⟨i, belowRoot_globRoot.mpr hi, ?_, rfl⟩
      rcases hi with rfl | rfl <;> rfl
    · rintro ⟨i, hi, -, rfl⟩
      exact ⟨i, by simpa using belowRoot_globRoot.mp hi, rfl⟩

/-- The pattern `d`. -/
def globPattern : Bytes := ascii ['d']

end Sample

open Sample in
set_option maxRecDepth 8000 in
/-- The pattern `d`, where `d` is a directory with a file in it. -/
theorem glob_agree_iff_sample :
    ∃ found, globLinear globPattern [globDir, globFile] = .ok found ∧
      ((∀ q, q ∈ (globRecursive globPattern globRoot).map Inode.path ↔ q ∈ found.map Inode.path) ↔
        FindsListed globPattern globRoot [globDir, globFile] ∧
          FindsBelow globPattern [globDir, globFile]) := by
  refine @glob_agree_iff globRoot globPattern (by decide) _ mirrors_globRoot
    ⟨[], globPattern, by decide, by simp, Or.inl ⟨by decide, by decide⟩⟩ (Or.inl (by decide))
    fun i hi => ?_
  rcases List.mem_cons.mp hi with rfl | hi
  · exact ⟨by unfold Clear; decide, by decide⟩
  · obtain rfl := List.mem_singleton.mp hi
    exact ⟨by unfold Clear; decide, by decide⟩

open Sample in
set_option maxRecDepth 8000 in
/-- **The two ways do not find the same**: the pattern `d` finds the directory in the tree, and
in the list the file in it as well. -/
theorem globs_disagree : ¬ ∀ (p : Bytes), (∀ c ∈ p, globByte c = true) →
    ∀ (root : InodeTree) (inodes : List Inode), Mirrors root inodes →
      ∃ found, globLinear p inodes = .ok found ∧
        ∀ q, q ∈ (globRecursive p root).map Inode.path ↔ q ∈ found.map Inode.path := by
  intro hclaim
  obtain ⟨found, hfound, hsame⟩ := hclaim globPattern (by decide) _ _ mirrors_globRoot
  have hlinear : globLinear globPattern [globDir, globFile] = .ok [globDir, globFile] := by decide
  obtain rfl : [globDir, globFile] = found := Except.ok.inj (hlinear.symm.trans hfound)
  exact absurd ((hsame globFile.path).mpr (by simp)) (by decide)

end Fstree
