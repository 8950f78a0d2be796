import Fstree.Foundations.BinarySearch
import Fstree.ListOrder
import Fstree.MergeOrder

/-!
# The simple handle

The bindings for Python work on a handle, `simple`, that holds one index: `load`, `pull` and
`write_tree` build an index and leave it there (`Fstree.SimpleStep`), and `lookup` finds the
inode at a path in it, by binary search (`Fstree.findNodeByPath`).

The search needs the list to be in the order of the paths, and the scan of `write_tree`
sorts its list. But `load` and `pull` leave the inodes in the order in which the workers
have appended them, level by level, and a merge leaves the inodes below a directory right
after it. The command for a checkout sorts the index first; the handle does not, so it does
not find what it holds (`Fstree.lookup_not_exact`). Where the trees and the workers are such that
these orders are that of the paths (`Fstree.Operation.InOrder`), it does (`Fstree.lookup_exact`);
and it finds everything only in a list that is sorted (`Fstree.findNodeByPath_exact_iff`).
-/

namespace Fstree

open Codec SortedBy Transition

/-! ### Looking a path up -/

/-- The elements of a path that is not absolute: the names between the separators, and an
empty one if a separator ends it. -/
def pathElements (p : Bytes) : List Bytes :=
  let names := p.splitOn slash
  names.filter (· ≠ []) ++ if p.getLast? = some slash ∧ names.any (· ≠ []) then [[]] else []

/-- `operator==` of paths, which compares their elements. -/
def samePath (p q : Bytes) : Bool :=
  (p.head? = some slash) = (q.head? = some slash) ∧ pathElements p = pathElements q

/-- **`index::find_node_by_path`** in `_inodes`. -/
def findNodeByPath (inodes : List Inode) (path : Bytes) : Option Inode :=
  inodes[lowerBound Inode.path path inodes]?.filter fun i => samePath i.path path

theorem samePath_self (p : Bytes) : samePath p p = true := by simp [samePath]

/-- The names of a path string. -/
theorem pathElements_pathStr {ns : List Name} (hns : ns ≠ []) :
    pathElements (pathStr ns) = ns.map Name.bytes := by
  have hsplit : (pathStr ns).splitOn slash = ns.map Name.bytes :=
    List.splitOn_intercalate slash (by simpa using fun a _ => a.slash_notMem) (by simpa using hns)
  have hlast := pathStr_getLast?_ne ns
  simp only [pathElements, hsplit, hlast, false_and, if_false, List.append_nil]
  exact List.filter_eq_self.mpr (by simpa using fun a _ => a.ne_nil)

/-- Path strings are the same path only if they are equal. -/
theorem samePath_pathStr {ns ms : List Name} (hns : ns ≠ []) (hms : ms ≠ []) :
    samePath (pathStr ns) (pathStr ms) = true ↔ ns = ms := by
  simp only [samePath, pathElements_pathStr hns, pathElements_pathStr hms, decide_eq_true_eq]
  refine ⟨fun h => List.map_injective_iff.mpr Name.bytes_injective h.2, ?_⟩
  rintro rfl
  exact ⟨rfl, rfl⟩

/-- **A path is looked up right**: an inode with the path is found if there is one. -/
def LooksUp (inodes : List Inode) (p : Bytes) : Prop :=
  (∃ i, findNodeByPath inodes p = some i ∧ i.path = p) ↔ ∃ i ∈ inodes, i.path = p

/-- In a sorted list every path is. -/
theorem looksUp_of_strictBy {inodes : List Inode} (h : StrictBy Inode.path inodes) (p : Bytes) :
    LooksUp inodes p := by
  constructor
  · rintro ⟨i, hi, hp⟩
    obtain ⟨hat, -⟩ := Option.filter_eq_some_iff.mp hi
    exact ⟨i, List.mem_of_getElem? hat, hp⟩
  · rintro ⟨i, hi, rfl⟩
    exact ⟨i, Option.filter_eq_some_iff.mpr ⟨h.getElem?_lowerBound hi, samePath_self _⟩, rfl⟩

/-- **Only in a sorted list all paths are looked up right.** -/
theorem findNodeByPath_exact_iff {inodes : List Inode}
    (hnamed : ∀ i ∈ inodes, ∃ ns, ns ≠ [] ∧ i.path = pathStr ns)
    (hnd : (inodes.map Inode.path).Nodup) :
    (∀ ns : List Name, LooksUp inodes (pathStr ns)) ↔ StrictBy Inode.path inodes := by
  refine ⟨fun h => strictBy_of_found hnd fun i hi => ?_, fun h ns => looksUp_of_strictBy h _⟩
  obtain ⟨ns, -, hp⟩ := hnamed i hi
  obtain ⟨j, hj, hjp⟩ := (h ns).mpr ⟨i, hi, hp⟩
  obtain ⟨hat, -⟩ := Option.filter_eq_some_iff.mp hj
  have hji : j = i := eq_of_key_eq hnd (List.mem_of_getElem? hat) hi (hjp.trans hp.symm)
  rw [hp, hat, hji]

/-! ### The operations -/

/-- **The handle**: the cache, and `_inodes` of `_index`. -/
structure Handle where
  store : Store
  inodes : List Inode

/-- A handle is made, with an empty index. -/
def Handle.start (st : Store) : Handle := ⟨st, []⟩

/-- The inodes are in the order of their paths. -/
def Handle.Sorted (h : Handle) : Prop := StrictBy Inode.path h.inodes

/-- `simple::lookup`. -/
def Handle.lookup (h : Handle) (path : Bytes) : Option Inode := findNodeByPath h.inodes path

/-- **What an operation of the handle is about.** -/
inductive Operation
  /-- `load` or `pull`: the tree objects that may be read, the digest of the root, and the inodes in
  the order in which the workers have appended them. -/
  | read (source : Digest → Bytes → Prop) (hash : Digest) (appended : List Inode)
  /-- `write_tree` of one path. -/
  | writeTree
  /-- `write_tree` of several paths: the trees, in the order in which they are merged. -/
  | writeTrees (trees : List (List Inode))
  /-- Another command that uses the cache. -/
  | other

/-- **An operation of the handle** that returns. -/
inductive SimpleStep (H : HashFunction) : Operation → Handle → Handle → Prop
  | load {st inodes inodes' sched fuel hash}
      (hread : indexFromTree st sched fuel hash = some (.ok inodes')) :
      SimpleStep H (.read (held st noRemote) hash inodes') ⟨st, inodes⟩ ⟨st, inodes'⟩
  | pull {st inodes remote hash σ} (hrun : Reaches (PullStep remote) (PullState.start st hash) σ)
      (hreturned : σ.main = .returned) :
      SimpleStep H (.read (held st remote) hash σ.inodes) ⟨st, inodes⟩ ⟨σ.store, σ.inodes⟩
  | writeTree {st inodes d root file} (w : WriteTree H d (fun _ => false) root file st) :
      SimpleStep H .writeTree ⟨st, inodes⟩ ⟨w.final.store, w.inodes⟩
  /-- The trees are written and merged, one after the other; at the end is the `add` of the merged
  index. -/
  | writeTrees {st inodes st' trees calls final} {L : Index} (hwrite : WritesAll H st trees st')
      (hL : L.inodes = mergeAll trees)
      (hrun : Reaches (AddStep H L calls) (AddState.start L st' (digestsOf (mergeAll trees))) final)
      (hreturned : final.main = .returned) :
      SimpleStep H (.writeTrees trees) ⟨st, inodes⟩
        ⟨final.store, (mergeAll trees).map final.hash.apply⟩
  | other {st st' inodes} : SimpleStep H .other ⟨st, inodes⟩ ⟨st', inodes⟩

/-- **The operation leaves its inodes in order.** For a tree that is read: each level of it is
before the next, and the workers of each level append in turn. For trees that are merged: no name
comes between a directory and what is in it. The scan of a single path is sorted as it is made. -/
def Operation.InOrder : Operation → Prop
  | read source hash appended => TreeInOrder source hash ∧ AppendedInTurn source hash appended
  | writeTrees trees => NamesApart trees
  | _ => True

/-! ### What the handle finds -/

/-- **An operation that leaves its inodes in order leaves a sorted list.** -/
theorem SimpleStep.sorted {H : HashFunction} {op : Operation} {h h' : Handle}
    (hs : SimpleStep H op h h') (horder : op.InOrder) (hsorted : h.Sorted) : h'.Sorted := by
  cases hs with
  | load hread => exact (indexFromTree_strictBy_iff hread).mpr horder
  | pull hrun => exact pull_strictBy hrun horder.1 horder.2
  | writeTree w => exact w.scan.strictBy_inodes.map fun _ _ => rfl
  | writeTrees hwrite =>
    exact ((mergeAll_strictBy_iff hwrite.treeLists).mpr horder).map fun _ _ => rfl
  | other => exact hsorted

/-- **A handle finds what it holds**, after any operations that leave their inodes in order: an
inode with a path is found if and only if there is one. -/
theorem lookup_exact {H : HashFunction} {st : Store} {h : Handle}
    (hrun : Reaches (fun h h' => ∃ op, SimpleStep H op h h' ∧ op.InOrder) (Handle.start st) h)
    (p : Bytes) :
    (∃ i, h.lookup p = some i ∧ i.path = p) ↔ ∃ i ∈ h.inodes, i.path = p := by
  have hsorted : h.Sorted :=
    hrun.invariant strictBy_nil fun _ _ hs ⟨_, hstep, horder⟩ => hstep.sorted horder hs
  exact looksUp_of_strictBy hsorted p

namespace Sample

/-- The list that a single worker loads from a digest. -/
def loaded (st : Store) (hash : Digest) : List Inode :=
  match indexFromTree st .sequential 5 hash with
  | some (.ok inodes) => inodes
  | _ => []

set_option maxRecDepth 8000 in
theorem loaded_first : indexFromTree first.final.store .sequential 5 first.digest =
    some (.ok (loaded first.final.store first.digest)) := by decide

set_option maxRecDepth 8000 in
/-- The inodes of the sample are loaded in the order of their paths. -/
theorem step_loaded : ∃ op, SimpleStep hash op ⟨first.final.store, first.inodes⟩
    ⟨first.final.store, loaded first.final.store first.digest⟩ ∧ op.InOrder :=
  ⟨_, .load loaded_first, (indexFromTree_strictBy_iff loaded_first).mp (by unfold StrictBy; decide)⟩

/-- The workspace of the sample is written, and its tree loaded again. -/
theorem reaches_loaded :
    Reaches (fun h h' => ∃ op, SimpleStep hash op h h' ∧ op.InOrder) (.start Store.empty)
      ⟨first.final.store, loaded first.final.store first.digest⟩ :=
  .tail (.single ⟨_, .writeTree first, trivial⟩) step_loaded

end Sample

set_option maxRecDepth 8000 in
/-- The symlink of the sample is found. -/
theorem lookup_exact_sample : ∃ i,
    Handle.lookup ⟨Sample.first.final.store, Sample.loaded Sample.first.final.store
      Sample.first.digest⟩ (ascii ['d', '/', 'l']) = some i ∧ i.path = ascii ['d', '/', 'l'] :=
  (lookup_exact Sample.reaches_loaded _).mpr (by decide)

namespace Sample

/-- A file that stands after the directory `d`. -/
def file : Name := ⟨ascii ['e'], by decide, by decide⟩

/-- The digest of the root of the tree that is not loaded in order. -/
def unsortedHash : Digest := ⟨.sha1, hexString 40 1⟩

/-- A cache with a tree: the directory `d`, with a symlink `l` in it, and the file `e`. -/
def unsortedStore : Store :=
  (Store.empty.put (treePath ⟨.sha1, hexString 40 2⟩) treeD).put (treePath unsortedHash)
    (encodeTree [(scanned [] d (.dir 0o755 3 0)).setHash ⟨.sha1, hexString 40 2⟩,
      (scanned [] file (.file 0o644 2 (ascii ['x']))).setHash ⟨.sha1, hexString 40 3⟩])

set_option maxRecDepth 8000 in
/-- `d`, `e` and `d/l` are loaded, in this order. -/
theorem step_unsorted : ∃ op, SimpleStep hash op (.start unsortedStore)
    ⟨unsortedStore, loaded unsortedStore unsortedHash⟩ := by
  have hread : indexFromTree unsortedStore .sequential 5 unsortedHash =
    some (.ok (loaded unsortedStore unsortedHash)) := by decide
  exact ⟨_, .load hread⟩

end Sample

set_option maxRecDepth 8000 in
/-- **A handle does not find what it holds**: the symlink `d/l` is listed after the file
`e`, and the binary search looks for it before. -/
theorem lookup_not_exact : ¬ ∀ (H : HashFunction) (st : Store) (h : Handle),
    Reaches (fun h h' => ∃ op, SimpleStep H op h h') (Handle.start st) h → ∀ ns : List Name,
      (∃ i, h.lookup (pathStr ns) = some i ∧ i.path = pathStr ns) ↔
        ∃ i ∈ h.inodes, i.path = pathStr ns := by
  intro hclaim
  obtain ⟨i, hi, -⟩ := (hclaim Sample.hash _ _ (.single Sample.step_unsorted)
    [Sample.d, Sample.l]).mpr (by decide)
  have hnone : Handle.lookup ⟨Sample.unsortedStore, Sample.loaded Sample.unsortedStore
      Sample.unsortedHash⟩ (pathStr [Sample.d, Sample.l]) = none := by decide
  rw [hnone] at hi
  cases hi

end Fstree
