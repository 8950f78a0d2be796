import Fstree.GlobIgnored
import Fstree.IndexHeap

/-!
# Globs in the handle

`index::glob` goes down the tree if the root has children, and otherwise down the list. Every
operation of the handle leaves it a root without children. So `simple::glob` goes down the list,
after any operations: the other way is never taken. The index that the operation has built would
find other paths, unless the two ways find alike (`Fstree.handle_glob`).
-/

namespace Fstree

open Transition

/-! ### Globs on the heap -/

/-- The tree below an inode on the heap, down to a depth. -/
def Heap.tree (h : Heap) : ℕ → ℕ → InodeTree
  | 0, a => .node (h.object a).fields []
  | depth + 1, a => .node (h.object a).fields ((h.object a).children.map (h.tree depth))

/-- What `_inodes` points to. -/
def IndexValue.list (x : IndexValue) (h : Heap) : List Inode :=
  x.inodes.map fun a => (h.object a).fields

/-- **`index::glob`**, with one pattern, of an index on the heap. -/
def IndexValue.glob (x : IndexValue) (h : Heap) (pattern : Bytes) : Except String (List Inode) :=
  Fstree.glob pattern (h.tree h.size x.root) (x.list h)

section Tree

variable {h h' : Heap} {x : IndexValue} {a depth : ℕ}

/-- **The size of the heap is depth enough**: from a parent to a child the addresses grow. -/
theorem Heap.tree_eq (ho : h.Ordered) (ha : a < h.size) (hdepth : h.size ≤ depth + a) :
    h.tree depth a = .node (h.object a).fields ((h.object a).children.map (h.tree depth)) := by
  induction depth generalizing a with
  | zero => omega
  | succ depth ih =>
    rw [tree]
    refine congrArg (InodeTree.node _) (List.map_congr_left fun c hc => ?_)
    have hlt := ho a ha c hc
    rw [ih hlt.2 (by omega), tree]

theorem Heap.tree_leaf (ha : (h.object a).children = []) :
    h.tree depth a = .node (h.object a).fields [] := by
  cases depth with
  | zero => rfl
  | succ depth => rw [tree, ha, List.map_nil]

/-- Clearing keeps the fields. -/
theorem Heap.Cleared.list (hc : h.Cleared h') : x.list h' = x.list h :=
  List.map_congr_left fun a _ => hc.fields a

/-- An index whose root has no children goes down its list. -/
theorem IndexValue.glob_of_leaf (hroot : (h.object x.root).children = []) (p : Bytes) :
    x.glob h p = globLinear p (x.list h) := by
  rw [IndexValue.glob, Heap.tree_leaf hroot]
  rfl

end Tree

/-! ### What the handle finds -/

section Alike

variable {root : InodeTree} {inodes : List Inode} {p : Bytes}

/-- Nothing is listed if the root has no children. -/
theorem Mirrors.globsAlike_of_leaf (hm : Mirrors root inodes) (hroot : root.children = []) :
    GlobsAlike p root inodes := by
  have hbelow : ∀ i, ¬ BelowRoot root i := by
    rintro i ⟨c, hc, -⟩
    rw [hroot] at hc
    cases hc
  refine ⟨fun i hi => absurd hi (hbelow i), fun i hi => ?_⟩
  obtain ⟨⟨j, hj, -⟩, -⟩ := hm.path hi
  exact absurd hj (hbelow j)

/-- `index::glob` and `index::glob_linear` find the same paths exactly if the two ways find
alike. -/
theorem Mirrors.exists_glob (hm : Mirrors root inodes) (hp : ∀ c ∈ p, globByte c = true) :
    ∃ found found', glob p root inodes = .ok found ∧ globLinear p inodes = .ok found' ∧
      ((∀ q, q ∈ found.map Inode.path ↔ q ∈ found'.map Inode.path) ↔
        GlobsAlike p root inodes) := by
  obtain ⟨found, heq, hsub, hfound⟩ := globLinear_eq hp inodes
  by_cases hroot : root.children = []
  · have hglob : glob p root inodes = .ok found := by
      rw [glob, if_neg (not_not_intro hroot), heq]
    exact ⟨found, found, hglob, heq,
      iff_of_true (fun _ => Iff.rfl) (hm.globsAlike_of_leaf hroot)⟩
  · exact ⟨_, found, if_pos hroot, heq, paths_eq_iff hm hsub hfound⟩

end Alike

/-- **The root of the handle has no children**, after any operations. -/
theorem root_children_of_reaches {fields : Inode} {s : Heap × IndexValue}
    (hrun : Reaches HandleStep (handleStart fields) s) : (s.1.object s.2.root).children = [] := by
  cases hrun with
  | refl => rfl
  | tail _ hs =>
    obtain ⟨h, -, hdestroy⟩ := hs
    exact (IndexValue.destroy_spec hdestroy).2 _ (List.mem_cons_self ..)

/-- **The handle never goes down a tree.** After any operations its `glob` finds what
`glob_linear` finds. Any further operation returns, and leaves the list that it has built; but on a
tree that mirrors its list, `glob` finds the same paths before the local index is destroyed, and
after it in the handle, exactly if the two ways find alike. For a plain pattern this is that nothing
is found in the tree that is not listed, and that what is below a thing that is found is found. -/
theorem handle_glob {fields : Inode} {s : Heap × IndexValue}
    (hrun : Reaches HandleStep (handleStart fields) s) :
    (∀ p, s.2.glob s.1 p = globLinear p (s.2.list s.1)) ∧
      ∀ h x, BuildsLocal s.1 h x → ∃ h', HandleStep s (h', x) ∧ x.list h' = x.list h ∧
        ∀ p, (∀ c ∈ p, globByte c = true) → Mirrors (h.tree h.size x.root) (x.list h) →
          ∃ found found', x.glob h p = .ok found ∧ x.glob h' p = .ok found' ∧
            ((∀ q, q ∈ found.map Inode.path ↔ q ∈ found'.map Inode.path) ↔
              GlobsAlike p (h.tree h.size x.root) (x.list h)) ∧
            (PlainPattern (stripSlashes p) → OneSlash p →
              (∀ i ∈ x.list h, Clear i.path ∧ (asterisk ∈ p → asterisk ∉ i.path)) →
                ((∀ q, q ∈ found.map Inode.path ↔ q ∈ found'.map Inode.path) ↔
                  FindsListed p (h.tree h.size x.root) (x.list h) ∧ FindsBelow p (x.list h))) := by
  refine ⟨fun p => IndexValue.glob_of_leaf (root_children_of_reaches hrun) p, fun h x hb => ?_⟩
  obtain ⟨hx, ho⟩ := hb.isTree (ordered_of_reaches hrun)
  obtain ⟨h', hdestroy⟩ := IndexValue.exists_destroy ho hx.lt
  obtain ⟨hcleared, hnil⟩ := IndexValue.destroy_spec hdestroy
  refine ⟨h', ⟨h, hb, hdestroy⟩, hcleared.list, fun p hp hm => ?_⟩
  obtain ⟨found, found', hglob, hlinear, hiff⟩ := hm.exists_glob hp
  refine ⟨found, found', hglob, ?_, hiff, fun hplain hend hpaths =>
    hiff.trans (globsAlike_iff hplain hend hpaths)⟩
  rw [IndexValue.glob_of_leaf (hnil x.root (List.mem_cons_self ..)), hcleared.list, hlinear]

namespace Sample

/-- The heap on which a directory `d` has been loaded, with a file in it. -/
def globHeap : Heap :=
  (((handleStart dirFields).1.alloc dirFields).add globDir 1).add globFile 2

/-- The index that was loaded. -/
def globIndex : IndexValue := ⟨1, [2, 3]⟩

theorem builds_glob : BuildsLocal (handleStart dirFields).1 globHeap globIndex :=
  .one ⟨dirFields, .head (.add globDir (Or.inl rfl)) <|
    .head (.add globFile (Or.inr ⟨by decide, rfl⟩)) <|
      .head (.push (l := []) (c := 2) (r := [3]) rfl) <|
        .single (.push (l := []) (c := 3) (r := []) rfl)⟩

/-- The tree mirrors its list. -/
theorem mirrors_globHeap :
    Mirrors (globHeap.tree globHeap.size globIndex.root) (globIndex.list globHeap) :=
  ⟨mirrors_globRoot.placed, mirrors_globRoot.mem_iff⟩

end Sample

open Sample in
set_option maxRecDepth 8000 in
/-- The pattern `d` finds the directory in the tree that was loaded, and in the handle the file in
it as well: the two ways do not find alike. -/
theorem handle_glob_sample : ∃ h', HandleStep (handleStart dirFields) (h', globIndex) ∧
    globIndex.glob globHeap globPattern = .ok [globDir] ∧
      globIndex.glob h' globPattern = .ok [globDir, globFile] ∧
        ¬ GlobsAlike globPattern (globHeap.tree globHeap.size 1) [globDir, globFile] := by
  obtain ⟨h', hstep, hlist, halike⟩ := (handle_glob .refl).2 _ _ builds_glob
  have hbefore : globIndex.glob globHeap globPattern = .ok [globDir] := by decide
  have hafter : globIndex.glob h' globPattern = .ok [globDir, globFile] := by
    have hlinear : globIndex.glob h' globPattern = _ := (handle_glob (.single hstep)).1 globPattern
    rw [hlinear, hlist]
    decide
  obtain ⟨found, found', hfound, hfound', hiff, -⟩ :=
    halike globPattern (by decide) mirrors_globHeap
  obtain rfl : [globDir] = found := Except.ok.inj (hbefore.symm.trans hfound)
  obtain rfl : [globDir, globFile] = found' := Except.ok.inj (hafter.symm.trans hfound')
  refine ⟨h', hstep, hbefore, hafter, fun ha => ?_⟩
  exact absurd ((hiff.mpr ha globFile.path).mpr (by simp)) (by decide)

end Fstree
