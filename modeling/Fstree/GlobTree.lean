import Fstree.Foundations.DeepPath
import Fstree.Foundations.Wildcard
import Fstree.GlobList
import Fstree.Model.Inode

/-!
# What is found in a tree, and how often

`index::glob` goes down the tree of an index if its root has children, and otherwise it goes down
the list (`Fstree.glob`). This is about the tree.

`glob_match_node` goes down a tree with the segments that are left. At a `**` it goes on with the
next segment at the same node, and with the same segment at the children, and it appends what it
finds on either way. So it finds the nodes whose names the segments match
(`Fstree.mem_globMatchNode_iff`), in any tree at all, and it finds a node once for each way in which
they do (`Fstree.nodup_globMatchNode`).

So `glob_recursive` finds what it should (`Fstree.globRecursive_iff`), if its own way to split a
pattern is taken for granted: nothing stands after a slash that ends it, and no pattern without a
segment finds anything (`Fstree.globRecursive_split`).

A pattern that does not begin with a slash has a `**` put before it. With another `**` of its own,
even at its end, there may be two ways: `**` finds what is two levels down twice
(`Fstree.glob_not_nodup`). With one `**` in all there are never two
(`Fstree.nodup_globRecursive_of_count_le_one`).
-/

namespace Fstree

open Codec DeepPath Wildcard

/-! ### Down the tree -/

/-- **`glob_match_segment`.** The loop ends in the rounds that are given to it. -/
def globMatchSegment (pat name : Bytes) : Bool :=
  search (fun c => c = asterisk) (fun c b => c = question ∨ c = b)
    (cost (name.length + 1) pat name none) pat name none

/-- The loop of `split_glob_pattern`, with the segment that has been read so far. -/
def splitSegments : Bytes → Bytes → List Bytes
  | [], [] => []
  | seg, [] => [seg]
  | seg, c :: p => if c = slash then seg :: splitSegments [] p else splitSegments (seg ++ [c]) p

/-- **`split_glob_pattern`.** -/
def splitGlobPattern (pattern : Bytes) : List Bytes :=
  splitSegments [] (if anchored pattern then pattern.tail else pattern)

/-- **The tree of an index**: an inode and its children. -/
inductive InodeTree
  | node (inode : Inode) (children : List InodeTree)

/-- The children of an inode. -/
def InodeTree.children : InodeTree → List InodeTree
  | node _ cs => cs

/-- `glob_match_node` for an inode; `below` is what it does with the children. -/
def globMatchInode (i : Inode) (below : List Bytes → List Inode) : List Bytes → List Inode
  | [] => []
  | seg :: segs =>
    if seg = deepSegment then
      if segs = [] then i :: if i.isDirectory then below [seg] else []
      else globMatchInode i below segs ++ if i.isDirectory then below (seg :: segs) else []
    else if globMatchSegment seg i.name then
      if segs = [] then [i] else if i.isDirectory then below segs else []
    else []

/-- **`glob_match_node`**: the inodes it appends, for the segments from `seg_idx` on. -/
def globMatchNode : InodeTree → List Bytes → List Inode
  | .node i cs => globMatchInode i (children cs)
where
  /-- The loop over the children. -/
  children : List InodeTree → List Bytes → List Inode
    | [] => fun _ => []
    | c :: cs => fun segs => globMatchNode c segs ++ children cs segs

/-- `effective_segs`. -/
def effectiveSegs (pattern : Bytes) : List Bytes :=
  if anchored pattern then splitGlobPattern pattern
  else deepSegment :: splitGlobPattern pattern

/-- **`index::glob_recursive`**, from the root. -/
def globRecursive (pattern : Bytes) (root : InodeTree) : List Inode :=
  if splitGlobPattern pattern = [] then []
  else globMatchNode.children root.children (effectiveSegs pattern)

/-- **`index::glob_linear`**, of a pattern of the characters whose expressions `std::regex` accepts
(`Fstree.globByte`), or one that is negated. -/
def globLinear (pattern : Bytes) (inodes : List Inode) : Except String (List Inode) := do
  let inclusive ← addPattern [] pattern
  return inodes.filter fun i => matchPath inclusive i.path

/-- **`index::glob`** with one pattern. -/
def glob (pattern : Bytes) (root : InodeTree) (inodes : List Inode) : Except String (List Inode) :=
  if root.children ≠ [] then return globRecursive pattern root else globLinear pattern inodes

/-- `glob_match_segment`, as a relation. -/
def CodeMatch (seg name : Bytes) : Prop := globMatchSegment seg name = true

/-! ### The nodes of a tree -/

/-- **A node of a tree, and its names** from the top of the tree down: what is in a directory. -/
inductive InodeTree.At : InodeTree → List Bytes → Inode → Prop
  | self {i cs} : At (.node i cs) [i.name] i
  | child {i cs c ns j} (hdir : i.isDirectory = true) (hc : c ∈ cs) (hj : At c ns j) :
      At (.node i cs) (i.name :: ns) j

/-- A node in the children of an inode, and its names. -/
def InChildren (i : Inode) (cs : List InodeTree) (ns : List Bytes) (j : Inode) : Prop :=
  i.isDirectory = true ∧ ∃ c ∈ cs, c.At ns j

/-- **The nodes of a tree**, the top first. -/
def InodeTree.nodes : InodeTree → List Inode
  | .node i cs => i :: list cs
where
  /-- The nodes of several trees. -/
  list : List InodeTree → List Inode
    | [] => []
    | c :: cs => c.nodes ++ list cs

section Tree

variable {t root : InodeTree} {cs : List InodeTree} {segs : List Bytes} {ns ns' : List Bytes}
  {i j : Inode}

/-- What holds of a tree if it holds of the children holds of all trees. -/
theorem InodeTree.induction {P : InodeTree → Prop}
    (h : ∀ i cs, (∀ c ∈ cs, P c) → P (.node i cs)) (t : InodeTree) : P t :=
  @InodeTree.rec P (fun cs => ∀ c ∈ cs, P c) h (fun _ hc => absurd hc List.not_mem_nil)
    (fun _ _ hc hcs => List.forall_mem_cons.mpr ⟨hc, hcs⟩) t

theorem InodeTree.at_node : (InodeTree.node i cs).At ns j ↔
    (ns = [i.name] ∧ j = i) ∨ ∃ ms, ns = i.name :: ms ∧ InChildren i cs ms j := by
  constructor
  · intro h
    cases h with
    | self => exact Or.inl ⟨rfl, rfl⟩
    | child hdir hc hj => exact Or.inr ⟨_, rfl, hdir, _, hc, hj⟩
  · rintro (⟨rfl, rfl⟩ | ⟨ms, rfl, hdir, c, hc, hj⟩)
    · exact .self
    · exact .child hdir hc hj

theorem InodeTree.At.ne_nil (h : t.At ns j) : ns ≠ [] := by
  cases h <;> exact List.cons_ne_nil _ _

theorem InChildren.ne_nil (h : InChildren i cs ns j) : ns ≠ [] := by
  obtain ⟨-, c, -, hj⟩ := h
  exact hj.ne_nil

/-! ### What is found -/

theorem mem_matchChildren :
    j ∈ globMatchNode.children cs segs ↔ ∃ c ∈ cs, j ∈ globMatchNode c segs := by
  induction cs with
  | nil => simp [globMatchNode.children]
  | cons c cs ih => simp [globMatchNode.children, ih]

/-- What is found in the children, of a directory only. -/
def findBelow (i : Inode) (cs : List InodeTree) (segs : List Bytes) : List Inode :=
  if i.isDirectory then globMatchNode.children cs segs else []

theorem globMatchInode_nil {below : List Bytes → List Inode} : globMatchInode i below [] = [] := rfl

/-- The four cases of `glob_match_node`. -/
theorem globMatchInode_last {below : List Bytes → List Inode} :
    globMatchInode i below [deepSegment] =
      i :: if i.isDirectory then below [deepSegment] else [] := by
  rw [globMatchInode, if_pos rfl, if_pos rfl]

theorem globMatchInode_deep {below : List Bytes → List Inode} (hs : segs ≠ []) :
    globMatchInode i below (deepSegment :: segs) = globMatchInode i below segs ++
      if i.isDirectory then below (deepSegment :: segs) else [] := by
  rw [globMatchInode, if_pos rfl, if_neg hs]

theorem globMatchInode_name {below : List Bytes → List Inode} {seg : Bytes}
    (hseg : seg ≠ deepSegment) : globMatchInode i below (seg :: segs) =
      if globMatchSegment seg i.name then
        if segs = [] then [i] else if i.isDirectory then below segs else []
      else [] := by
  rw [globMatchInode, if_neg hseg]

/-- A node is the inode itself, or in the children. -/
theorem exists_at_node {P : List Bytes → Prop} : (∃ ns, (InodeTree.node i cs).At ns j ∧ P ns) ↔
    (j = i ∧ P [i.name]) ∨ ∃ ns, InChildren i cs ns j ∧ P (i.name :: ns) := by
  constructor
  · rintro ⟨ns, hat, hP⟩
    rcases InodeTree.at_node.mp hat with ⟨rfl, rfl⟩ | ⟨ms, rfl, hc⟩
    · exact Or.inl ⟨rfl, hP⟩
    · exact Or.inr ⟨ms, hc, hP⟩
  · rintro (⟨rfl, hP⟩ | ⟨ms, hc, hP⟩)
    · exact ⟨_, .self, hP⟩
    · exact ⟨_, InodeTree.at_node.mpr (Or.inr ⟨ms, rfl, hc⟩), hP⟩

theorem forall_at_node {P : List Bytes → Prop} :
    (∀ ns j, (InodeTree.node i cs).At ns j → P ns) ↔
      P [i.name] ∧ ∀ ns j, InChildren i cs ns j → P (i.name :: ns) := by
  constructor
  · exact fun h => ⟨h _ _ .self,
      fun ns j hc => h _ j (InodeTree.at_node.mpr (Or.inr ⟨ns, rfl, hc⟩))⟩
  · rintro ⟨hP, hrest⟩ ns j hat
    rcases InodeTree.at_node.mp hat with ⟨rfl, -⟩ | ⟨ms, rfl, hc⟩
    · exact hP
    · exact hrest ms j hc

/-- **What is found at an inode**, if what is found in its children is what it should be. -/
theorem mem_globMatchInode_iff
    (hbelow : ∀ segs j, j ∈ findBelow i cs segs ↔
      ∃ ns, InChildren i cs ns j ∧ Matches deepSegment CodeMatch segs ns) :
    j ∈ globMatchInode i (globMatchNode.children cs) segs ↔
      ∃ ns, (InodeTree.node i cs).At ns j ∧ Matches deepSegment CodeMatch segs ns := by
  rw [exists_at_node]
  induction segs with
  | nil => simp [globMatchInode_nil, matches_nil]
  | cons seg segs ih =>
    by_cases hseg : seg = deepSegment
    · subst hseg
      by_cases hs : segs = []
      · subst hs
        -- a last `**` takes the inode and goes on in the children
        rw [globMatchInode_last, List.mem_cons]
        change j = i ∨ j ∈ findBelow i cs [deepSegment] ↔ _
        rw [hbelow]
        simp only [matches_last, ne_eq, reduceCtorEq, not_false_eq_true, and_true]
        exact or_congr_right (exists_congr fun ns => ⟨And.left, fun h => ⟨h, h.ne_nil⟩⟩)
      · -- it takes nothing, or the inode and stays for the children
        rw [globMatchInode_deep hs, List.mem_append]
        change _ ∨ j ∈ findBelow i cs (deepSegment :: segs) ↔ _
        rw [hbelow]
        refine (or_congr_left ih).trans ?_
        simp only [matches_deep_cons hs, matches_none, reduceCtorEq, or_false, and_or_left,
          exists_or, or_assoc]
    · rw [globMatchInode_name hseg]
      simp only [matches_name_cons hseg, matches_none, CodeMatch]
      by_cases hm : globMatchSegment seg i.name = true
      · rw [if_pos hm]
        by_cases hs : segs = []
        · subst hs
          rw [if_pos rfl]
          simp only [hm, matches_nil, List.mem_singleton, and_self, and_true, true_and]
          refine ⟨Or.inl, fun h => h.resolve_right ?_⟩
          rintro ⟨ns, hc, rfl⟩
          exact hc.ne_nil rfl
        · rw [if_neg hs]
          change j ∈ findBelow i cs segs ↔ _
          rw [hbelow]
          simp [hm, hs]
      · rw [if_neg hm]
        simp [hm]

/-- What is found in the children of an inode. -/
theorem mem_findBelow_of_forall (hcs : ∀ c ∈ cs, j ∈ globMatchNode c segs ↔
      ∃ ns, c.At ns j ∧ Matches deepSegment CodeMatch segs ns) : j ∈ findBelow i cs segs ↔
    ∃ ns, InChildren i cs ns j ∧ Matches deepSegment CodeMatch segs ns := by
  rw [findBelow]
  split_ifs with hdir
  · rw [mem_matchChildren]
    constructor
    · rintro ⟨c, hc, hj⟩
      obtain ⟨ns, hat, h⟩ := (hcs c hc).mp hj
      exact ⟨ns, ⟨hdir, c, hc, hat⟩, h⟩
    · rintro ⟨ns, ⟨-, c, hc, hat⟩, h⟩
      exact ⟨c, hc, (hcs c hc).mpr ⟨ns, hat, h⟩⟩
  · simp [InChildren, hdir]

/-- **What `glob_match_node` finds in a tree**: the nodes whose names the segments match. -/
theorem mem_globMatchNode_iff : j ∈ globMatchNode t segs ↔
    ∃ ns, t.At ns j ∧ Matches deepSegment CodeMatch segs ns := by
  induction t using InodeTree.induction generalizing j segs with
  | _ i cs ih =>
    rw [globMatchNode]
    exact mem_globMatchInode_iff fun segs j => mem_findBelow_of_forall fun c hc => ih c hc

theorem mem_findBelow : j ∈ findBelow i cs segs ↔
    ∃ ns, InChildren i cs ns j ∧ Matches deepSegment CodeMatch segs ns :=
  mem_findBelow_of_forall fun _ _ => mem_globMatchNode_iff

/-- **Recursive glob is sound and complete.** It finds the nodes below the root whose names the
segments match, with a `**` before them if no slash begins the pattern; a pattern without a segment
finds nothing. -/
theorem globRecursive_iff (p : Bytes) (root : InodeTree) (j : Inode) :
    j ∈ globRecursive p root ↔ splitGlobPattern p ≠ [] ∧ ∃ c ∈ root.children, ∃ ns, c.At ns j ∧
      Matches deepSegment CodeMatch
        (if anchored p then splitGlobPattern p else deepSegment :: splitGlobPattern p) ns := by
  rw [globRecursive]
  by_cases hp : splitGlobPattern p = []
  · simp [hp]
  · rw [if_neg hp, mem_matchChildren, effectiveSegs]
    simp only [mem_globMatchNode_iff, ne_eq, hp, not_false_eq_true, true_and]

namespace Sample

/-- A directory with a file in it. -/
def globDir : Inode := ⟨ascii ['d'], Digest.none, ⟨.directory, 0o755⟩, 1, 0, [], some [], false⟩

@[inherit_doc globDir] def globFile : Inode :=
  ⟨ascii ['d', '/', 'f'], Digest.none, ⟨.regular, 0o644⟩, 2, 1, [], some (ascii ['d']), false⟩

/-- The tree of an index, with a root without a name. -/
def globRoot : InodeTree :=
  .node ⟨[], Digest.none, ⟨.directory, 0o755⟩, 0, 0, [], none, false⟩
    [.node globDir [.node globFile []]]

end Sample

open Sample in
set_option maxRecDepth 8000 in
/-- **A pattern is not split at every slash.** The empty pattern finds nothing, not even with the
`**` that is put before it, and nothing is left after the slash of `d/`, which finds `d`. -/
theorem globRecursive_split :
    (¬ ∀ (p : Bytes) (root : InodeTree) (j : Inode), j ∈ globRecursive p root ↔
      ∃ c ∈ root.children, ∃ ns, c.At ns j ∧ Matches deepSegment CodeMatch
        (if anchored p then splitGlobPattern p else deepSegment :: splitGlobPattern p) ns) ∧
    ¬ ∀ (p : Bytes) (root : InodeTree) (j : Inode), j ∈ globRecursive p root ↔
      ∃ c ∈ root.children, ∃ ns, c.At ns j ∧ Matches deepSegment CodeMatch
        (if anchored p then segments p else deepSegment :: segments p) ns := by
  have hat : ∃ c ∈ globRoot.children, c.At [ascii ['d']] globDir :=
    ⟨_, List.mem_singleton.mpr rfl, .self⟩
  constructor
  · intro hclaim
    obtain ⟨c, hc, hat⟩ := hat
    have hfound : globDir ∈ globRecursive [] globRoot :=
      (hclaim [] globRoot globDir).mpr ⟨c, hc, _, hat, matches_last.mpr (List.cons_ne_nil _ _)⟩
    exact absurd hfound List.not_mem_nil
  · intro hclaim
    have hfound : globDir ∈ globRecursive (ascii ['d', '/']) globRoot := by decide
    obtain ⟨c, hc, ns, hat, hm⟩ := (hclaim _ _ _).mp hfound
    have hsegs : segments (ascii ['d', '/']) = [ascii ['d'], []] := by decide
    rw [if_neg (by decide), hsegs] at hm
    -- a name would have to be empty
    obtain ⟨n, hn, hempty⟩ : ∃ n ∈ ns, CodeMatch [] n := by
      obtain ⟨ks, hway⟩ := hm
      obtain ⟨up, ms, ls, rfl, -, hway⟩ := (way_deep (List.cons_ne_nil _ _)).mp hway
      obtain ⟨d, ms, rfl, -, hway⟩ := (way_name (by decide)).mp hway
      obtain ⟨n, ms, rfl, hn, -⟩ := (way_name (by decide)).mp hway
      exact ⟨n, by simp, hn⟩
    have hne : n ≠ [] := by
      rw [globRoot, InodeTree.children, List.mem_singleton] at hc
      subst hc
      rcases InodeTree.at_node.mp hat with ⟨rfl, -⟩ | ⟨ms, rfl, -, c, hc, hat⟩
      · rw [List.mem_singleton.mp hn]
        decide
      · rw [List.mem_singleton.mp hc] at hat
        rcases InodeTree.at_node.mp hat with ⟨rfl, -⟩ | ⟨-, -, -, c, hc, -⟩
        · simp only [List.mem_cons, List.not_mem_nil, or_false] at hn
          rcases hn with rfl | rfl <;> decide
        · cases hc
    obtain ⟨b, n, rfl⟩ := List.exists_cons_of_ne_nil hne
    simp [CodeMatch, globMatchSegment, Wildcard.search, Wildcard.cost] at hempty

/-! ### How often it is found -/

theorem mem_nodes_list : j ∈ InodeTree.nodes.list cs ↔ ∃ c ∈ cs, j ∈ c.nodes := by
  induction cs with
  | nil => simp [InodeTree.nodes.list]
  | cons c cs ih => simp [InodeTree.nodes.list, ih]

theorem InodeTree.At.mem_nodes (h : t.At ns j) : j ∈ t.nodes := by
  induction h with
  | self => exact List.mem_cons_self
  | child hdir hc _ ih => exact List.mem_cons_of_mem _ (mem_nodes_list.mpr ⟨_, hc, ih⟩)

/-- The trees share no node, and have no node twice. -/
theorem nodup_nodes_list : (InodeTree.nodes.list cs).Nodup ↔
    (∀ c ∈ cs, c.nodes.Nodup) ∧ cs.Pairwise fun c c' => ∀ j ∈ c.nodes, j ∉ c'.nodes := by
  induction cs with
  | nil => simp [InodeTree.nodes.list]
  | cons c cs ih =>
    rw [InodeTree.nodes.list, List.nodup_append', ih, List.forall_mem_cons, List.pairwise_cons,
      List.disjoint_left]
    simp only [mem_nodes_list, not_exists, not_and]
    constructor
    · rintro ⟨hc, ⟨hcs, hpw⟩, hdisj⟩
      exact ⟨⟨hc, hcs⟩, fun c' hc' j hj => hdisj hj c' hc', hpw⟩
    · rintro ⟨⟨hc, hcs⟩, hdisj, hpw⟩
      exact ⟨hc, ⟨hcs, hpw⟩, fun j hj c' hc' => hdisj c' hc' j hj⟩

/-- In two of the trees there are different nodes. -/
theorem eq_of_mem_nodes (h : (InodeTree.nodes.list cs).Nodup) {c c' : InodeTree} (hc : c ∈ cs)
    (hc' : c' ∈ cs) (hj : j ∈ c.nodes) (hj' : j ∈ c'.nodes) : c = c' := by
  by_contra hne
  have hsymm : Std.Symm fun c c' : InodeTree => ∀ j ∈ c.nodes, j ∉ c'.nodes :=
    ⟨fun _ _ h j hj hj' => h j hj' hj⟩
  exact (nodup_nodes_list.mp h).2.forall hc hc' hne j hj hj'

/-- **A node has its names once.** -/
theorem InodeTree.At.names_eq (hd : t.nodes.Nodup) (h : t.At ns j) (h' : t.At ns' j) :
    ns = ns' := by
  induction h generalizing ns' with
  | @self i cs =>
    rcases InodeTree.at_node.mp h' with ⟨rfl, -⟩ | ⟨ms, -, -, c, hc, hj⟩
    · rfl
    · exact absurd (mem_nodes_list.mpr ⟨c, hc, hj.mem_nodes⟩) (List.nodup_cons.mp hd).1
  | @child i cs c ns j hdir hc hj ih =>
    have hlist := (List.nodup_cons.mp hd).2
    rcases InodeTree.at_node.mp h' with ⟨-, rfl⟩ | ⟨ms, rfl, -, c', hc', hj'⟩
    · exact absurd (mem_nodes_list.mpr ⟨c, hc, hj.mem_nodes⟩) (List.nodup_cons.mp hd).1
    · -- the node is in one child only
      obtain rfl := eq_of_mem_nodes hlist hc hc' hj.mem_nodes hj'.mem_nodes
      rw [ih ((nodup_nodes_list.mp hlist).1 c hc) hj']

/-- What is found in a tree is in it. -/
theorem mem_nodes_of_globMatchNode (h : j ∈ globMatchNode t segs) : j ∈ t.nodes := by
  obtain ⟨ns, hat, -⟩ := mem_globMatchNode_iff.mp h
  exact hat.mem_nodes

/-- Several trees that share no node find each thing once if each of them does. -/
theorem nodup_matchChildren (hd : (InodeTree.nodes.list cs).Nodup) :
    (globMatchNode.children cs segs).Nodup ↔ ∀ c ∈ cs, (globMatchNode c segs).Nodup := by
  induction cs with
  | nil => simp [globMatchNode.children]
  | cons c cs ih =>
    rw [InodeTree.nodes.list, List.nodup_append', List.disjoint_left] at hd
    rw [globMatchNode.children, List.nodup_append', List.disjoint_left, ih hd.2.1,
      List.forall_mem_cons]
    refine and_congr_right fun _ => and_iff_left fun j hj hj' => ?_
    obtain ⟨c', hc', hj'⟩ := mem_matchChildren.mp hj'
    exact hd.2.2 (mem_nodes_of_globMatchNode hj)
      (mem_nodes_list.mpr ⟨c', hc', mem_nodes_of_globMatchNode hj'⟩)

/-- An inode is not found in its own children. -/
theorem notMem_findBelow (hd : (InodeTree.node i cs).nodes.Nodup) : i ∉ findBelow i cs segs := by
  intro hi
  obtain ⟨ns, ⟨-, c, hc, hat⟩, -⟩ := mem_findBelow.mp hi
  exact (List.nodup_cons.mp hd).1 (mem_nodes_list.mpr ⟨c, hc, hat.mem_nodes⟩)

/-- **A `**` finds a node a second time** if the segments behind it match the names of the node
and it matches those in the children, too. -/
theorem disjoint_findBelow (hd : (InodeTree.node i cs).nodes.Nodup) :
    List.Disjoint (globMatchInode i (globMatchNode.children cs) segs)
        (findBelow i cs (deepSegment :: segs)) ↔
      ∀ ns j, InChildren i cs ns j → ¬ (Matches deepSegment CodeMatch segs (i.name :: ns) ∧
        Matches deepSegment CodeMatch (deepSegment :: segs) ns) := by
  rw [List.disjoint_left]
  simp only [mem_globMatchInode_iff fun _ _ => mem_findBelow, mem_findBelow]
  constructor
  · rintro h ns j hc ⟨hm, hdeep⟩
    exact h ⟨_, InodeTree.at_node.mpr (Or.inr ⟨ns, rfl, hc⟩), hm⟩ ⟨ns, hc, hdeep⟩
  · rintro h j ⟨ns, hat, hm⟩ ⟨ms, hc, hdeep⟩
    have he := hat.names_eq hd (InodeTree.at_node.mpr (Or.inr ⟨ms, rfl, hc⟩))
    exact h ms j hc ⟨he ▸ hm, hdeep⟩

/-- **How often things are found at an inode**, if what is found in its children is found as often
as it should be. -/
theorem nodup_globMatchInode (hd : (InodeTree.node i cs).nodes.Nodup)
    (hbelow : ∀ segs, (findBelow i cs segs).Nodup ↔
      ∀ ns j, InChildren i cs ns j → Unique deepSegment CodeMatch segs ns) :
    (globMatchInode i (globMatchNode.children cs) segs).Nodup ↔
      ∀ ns j, (InodeTree.node i cs).At ns j → Unique deepSegment CodeMatch segs ns := by
  induction segs with
  | nil => simp [globMatchInode_nil, unique_nil]
  | cons seg segs ih =>
    by_cases hseg : seg = deepSegment
    · subst hseg
      by_cases hs : segs = []
      · subst hs
        -- the children do not have the inode that the `**` takes first
        rw [globMatchInode_last, List.nodup_cons]
        change i ∉ findBelow i cs _ ∧ (findBelow i cs _).Nodup ↔ _
        rw [hbelow]
        simp only [notMem_findBelow hd, not_false_eq_true, unique_last, implies_true, and_self]
      · rw [globMatchInode_deep hs, List.nodup_append']
        change _ ∧ (findBelow i cs _).Nodup ∧ List.Disjoint _ (findBelow i cs _) ↔ _
        refine (and_congr (ih.trans forall_at_node) (and_congr_left' (hbelow _))).trans ?_
        rw [forall_at_node, disjoint_findBelow hd]
        simp only [unique_deep_cons hs, unique_none, matches_none, reduceCtorEq, and_false,
          not_false_eq_true, and_true]
        constructor
        · rintro ⟨⟨htop, hnext⟩, hdeep, hnot⟩
          exact ⟨htop, fun ns j hc => ⟨hnext ns j hc, hdeep ns j hc, hnot ns j hc⟩⟩
        · rintro ⟨htop, hall⟩
          exact ⟨⟨htop, fun ns j hc => (hall ns j hc).1⟩, fun ns j hc => (hall ns j hc).2.1,
            fun ns j hc => (hall ns j hc).2.2⟩
    · rw [globMatchInode_name hseg, forall_at_node]
      simp only [unique_name_cons hseg, unique_none, implies_true, true_and, CodeMatch]
      by_cases hm : globMatchSegment seg i.name = true
      · rw [if_pos hm]
        by_cases hs : segs = []
        · subst hs
          simp [unique_nil]
        · rw [if_neg hs]
          change (findBelow i cs segs).Nodup ↔ _
          rw [hbelow]
          simp [hm]
      · rw [if_neg hm]
        simp [hm]

/-- **A tree finds each node once** if and only if there are not two ways in which the segments
match its names. -/
theorem nodup_globMatchNode (hd : t.nodes.Nodup) : (globMatchNode t segs).Nodup ↔
    ∀ ns j, t.At ns j → Unique deepSegment CodeMatch segs ns := by
  induction t using InodeTree.induction generalizing segs with
  | _ i cs ih =>
    have hlist := (List.nodup_cons.mp hd).2
    rw [globMatchNode]
    refine nodup_globMatchInode hd fun segs => ?_
    rw [findBelow]
    split_ifs with hdir
    · rw [nodup_matchChildren hlist]
      constructor
      · rintro h ns j ⟨-, c, hc, hat⟩
        exact (ih c hc ((nodup_nodes_list.mp hlist).1 c hc)).mp (h c hc) ns j hat
      · exact fun h c hc => (ih c hc ((nodup_nodes_list.mp hlist).1 c hc)).mpr
          fun ns j hat => h ns j ⟨hdir, c, hc, hat⟩
    · simp [InChildren, hdir]

/-- **What is found in the tree is found once** exactly when there are not two ways. -/
theorem nodup_globRecursive {p : Bytes} (htree : (InodeTree.nodes.list root.children).Nodup) :
    (globRecursive p root).Nodup ↔ ∀ c ∈ root.children, ∀ ns j, c.At ns j →
      Unique deepSegment CodeMatch (effectiveSegs p) ns := by
  rw [globRecursive]
  split_ifs with hp
  · refine iff_of_true List.nodup_nil fun c _ ns j _ => ?_
    rw [effectiveSegs, hp]
    split_ifs
    · exact unique_nil
    · exact unique_last
  · rw [nodup_matchChildren htree]
    exact forall₂_congr fun c hc => nodup_globMatchNode ((nodup_nodes_list.mp htree).1 c hc)

/-- **With one `**` at most nothing is found twice.** -/
theorem nodup_globRecursive_of_count_le_one {p : Bytes}
    (htree : (InodeTree.nodes.list root.children).Nodup)
    (hp : (effectiveSegs p).count deepSegment ≤ 1) : (globRecursive p root).Nodup :=
  (nodup_globRecursive htree).mpr fun _ _ ns _ _ => unique_of_count_le_one hp ns

/-- What is found in the list is some of the list, in its order. -/
theorem globLinear_sublist {p : Bytes} {inodes found : List Inode}
    (h : globLinear p inodes = .ok found) : found.Sublist inodes := by
  rw [globLinear] at h
  cases hadd : addPattern [] p with
  | error e =>
    rw [hadd] at h
    cases h
  | ok inclusive =>
    rw [hadd] at h
    obtain rfl : _ = found := Except.ok.inj h
    exact List.filter_sublist

/-- **`index::glob` returns no inode twice**, in an index that has none twice, exactly when it goes
down the list, or there are not two ways in which the segments match the names of one node. -/
theorem glob_nodup_iff {p : Bytes} {inodes found : List Inode}
    (htree : (InodeTree.nodes.list root.children).Nodup) (hlist : inodes.Nodup)
    (h : glob p root inodes = .ok found) :
    found.Nodup ↔ (root.children ≠ [] → ∀ c ∈ root.children, ∀ ns j, c.At ns j →
      Unique deepSegment CodeMatch (effectiveSegs p) ns) := by
  rw [glob] at h
  split_ifs at h with hroot
  · obtain rfl : globRecursive p root = found := Except.ok.inj h
    rw [nodup_globRecursive htree]
    exact ⟨fun h _ => h, fun h => h hroot⟩
  · exact iff_of_true (hlist.sublist (globLinear_sublist h)) fun hne => absurd hne hroot

end Tree

open Sample in
set_option maxRecDepth 8000 in
/-- The pattern `**`, and a directory with a file in it. -/
theorem glob_nodup_iff_sample :
    [globDir, globFile, globFile].Nodup ↔ (globRoot.children ≠ [] → ∀ c ∈ globRoot.children,
      ∀ ns j, c.At ns j → Unique deepSegment CodeMatch (effectiveSegs deepSegment) ns) :=
  @glob_nodup_iff globRoot deepSegment [globDir, globFile] _ (by decide) (by decide) (by decide)

open Sample in
set_option maxRecDepth 8000 in
/-- **A thing is returned twice**: `**` takes the file in a directory once with the `**` that is put
before it at the directory, and once with it at the file. -/
theorem glob_not_nodup : ¬ ∀ (p : Bytes) (root : InodeTree) (inodes found : List Inode),
    (InodeTree.nodes.list root.children).Nodup → inodes.Nodup → glob p root inodes = .ok found →
      found.Nodup := by
  intro hclaim
  have hfound : glob deepSegment globRoot [globDir, globFile] =
      .ok [globDir, globFile, globFile] := by decide
  exact absurd (hclaim _ _ _ _ (by decide) (by decide) hfound) (by decide)

end Fstree
