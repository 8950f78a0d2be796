import Fstree.MergeAll

/-!
# The stored tree of several paths

After the merges `simple::write_tree` adds the merged index to the cache. All indexes that were
merged are in the cache, so nothing is dirty but the root: `cache::add` makes one tree object, and
every other directory keeps the digest that the last index with it had. So what is stored is not
what is listed. At each name of the root there is what the last path with this name has there, and
nothing that the paths before it have below it (`Fstree.writeTrees_readsBack`).
-/

namespace Fstree

open SortedBy Transition

/-! ### The last index with a path -/

section Last

variable {lists : List (List Inode)} {L M : List Inode} {p : Bytes} {i j : Inode}

/-- There is a last list with a path, if any has it. -/
theorem exists_lastWith (hL : L ∈ lists) (hp : p ∈ L.map Inode.path) : ∃ M, LastWith lists p M := by
  induction lists using List.reverseRecOn with
  | nil => cases hL
  | append_singleton lists K ih =>
    by_cases hK : p ∈ K.map Inode.path
    · exact ⟨K, lastWith_concat.mpr (Or.inl ⟨rfl, hK⟩)⟩
    · have hmem : L ∈ lists := (List.mem_append.mp hL).resolve_right fun h => by
        rw [List.mem_singleton.mp h] at hp
        exact hK hp
      obtain ⟨M, hM⟩ := ih hmem
      exact ⟨M, lastWith_concat.mpr (Or.inr ⟨hK, hM⟩)⟩

/-- There is only one. -/
theorem LastWith.eq (h : LastWith lists p L) (h' : LastWith lists p M) : L = M := by
  induction lists using List.reverseRecOn with
  | nil => cases h.mem
  | append_singleton lists K ih =>
    rcases lastWith_concat.mp h with ⟨rfl, hp⟩ | ⟨hK, h⟩
    · exact ((lastWith_concat.mp h').resolve_right fun h => h.1 hp).1
    · exact ih h ((lastWith_concat.mp h').resolve_left fun h => hK (h.1 ▸ h.2)).2

/-- What is listed comes from the last list with its path. -/
theorem exists_placed (htree : ∀ M ∈ lists, TreeList M) (hi : i ∈ mergeAll lists) :
    ∃ L, LastWith lists i.path L ∧ ∃ j ∈ L, j.path = i.path ∧ i = placed (parentPath i.path) j := by
  obtain ⟨K, hK, hmem⟩ := exists_of_mem_mergeAll htree hi
  obtain ⟨L, hL⟩ := exists_lastWith hK hmem
  obtain ⟨j, hj, hjp⟩ := List.mem_map.mp hL.listed
  exact ⟨L, hL, j, hj, hjp, hL.eq_placed htree hi hj hjp⟩

/-- The first name of a path is listed with it. -/
theorem TreeList.topName_mem (h : TreeList L) (hp : p ∈ L.map Inode.path) :
    topName p ∈ L.map Inode.path := by
  obtain ⟨i, hi, rfl⟩ := List.mem_map.mp hp
  obtain ⟨ns, hns, hip, -⟩ := h.normal i hi
  obtain ⟨k, ks, rfl⟩ := List.exists_cons_of_ne_nil hns
  rw [hip, topName_pathStr]
  by_cases hks : ks = []
  · exact List.mem_map.mpr ⟨i, hi, by rw [hip, hks, pathStr_singleton]⟩
  · obtain ⟨dir, hdir, hdp, -⟩ := h.closed i hi (pathStr [k]) ⟨[k], ks, rfl, hip, by simp, hks⟩
    exact List.mem_map.mpr ⟨dir, hdir, by rw [hdp, pathStr_singleton]⟩

theorem Ancestor.topName_eq {q : Bytes} (h : Ancestor q p) : topName q = topName p := by
  obtain ⟨ns, ms, rfl, rfl, hns, -⟩ := h
  obtain ⟨k, ks, rfl⟩ := List.exists_cons_of_ne_nil hns
  rw [List.cons_append, topName_pathStr, topName_pathStr]

/-- **A path is held**: the last list with its first name has it. -/
def HeldBy (lists : List (List Inode)) (p : Bytes) (L : List Inode) : Prop :=
  LastWith lists (topName p) L ∧ p ∈ L.map Inode.path

/-- The last list with the first name is the last list with the path. -/
theorem HeldBy.lastWith (h : HeldBy lists p L) (htree : ∀ M ∈ lists, TreeList M) :
    LastWith lists p L := by
  obtain ⟨⟨pre, post, rfl, -, hpost⟩, hp⟩ := h
  exact ⟨pre, post, rfl, hp, fun M hM hmem =>
    hpost M hM ((htree M (by simp [hM])).topName_mem hmem)⟩

/-- **What is held is listed**: nothing that is merged later is above it. -/
theorem HeldBy.mem_mergeAll (h : HeldBy lists p L) (htree : ∀ M ∈ lists, TreeList M) :
    p ∈ (mergeAll lists).map Inode.path := by
  obtain ⟨⟨pre, post, rfl, -, hpost⟩, hp⟩ := h
  refine (mem_paths_mergeAll htree p).mpr ⟨pre, L, post, rfl, hp, fun M hM b hb habove => ?_⟩
  have hmem := (htree M (by simp [hM])).topName_mem (List.mem_map_of_mem (f := Inode.path) hb)
  rw [habove.topName_eq] at hmem
  exact absurd hmem (hpost M hM)

/-- The directories above what is held are held. -/
theorem HeldBy.above {q : Bytes} (h : HeldBy lists p L) (htree : ∀ M ∈ lists, TreeList M)
    (hq : Ancestor q p) : HeldBy lists q L := by
  refine ⟨hq.topName_eq ▸ h.1, ?_⟩
  obtain ⟨i, hi, rfl⟩ := List.mem_map.mp h.2
  obtain ⟨dir, hdir, hdp, -⟩ := (htree L h.1.mem).closed i hi q hq
  exact List.mem_map.mpr ⟨dir, hdir, hdp⟩

end Last

/-! ### The index of the merges -/

section Parents

variable {L : Index} {i : Inode} {p : Bytes}

theorem Index.parent_eq (hi : i ∈ L.inodes) : i.parent = some (parentPath i.path) := by
  obtain ⟨ns, n, hp, hparent⟩ := L.named i hi
  rw [hparent, hp, parentPath_pathStr]

theorem Index.ancestor_of_parent (hi : i ∈ L.inodes) (hp : i.parent = some p) (hne : p ≠ []) :
    Ancestor p i.path := by
  obtain ⟨ns, n, hpath, hparent⟩ := L.named i hi
  obtain rfl : pathStr ns = p := Option.some.inj (hparent.symm.trans hp)
  exact ⟨ns, [n], rfl, hpath, fun h => hne (by rw [h, pathStr_nil]), by simp⟩

end Parents

/-- **An index of a scan that is in the cache.** -/
structure Written (H : HashFunction) (st : Store) where
  disk : Disk
  ignores : Bytes → Bool
  root : List Name
  scan : Scan disk ignores root
  hash : Hashes
  content : Bytes → Bytes
  cached : scan.index.Cached H content hash st

namespace Written

variable {H : HashFunction} {st : Store}

def index (w : Written H st) : Index := w.scan.index

/-- `_inodes`. -/
def inodes (w : Written H st) : List Inode := w.index.hashed w.hash

theorem treeLists (ws : List (Written H st)) : ∀ L ∈ ws.map inodes, TreeList L :=
  List.forall_mem_map.mpr fun w _ => w.scan.treeList.map_apply w.hash

theorem mem_paths {w : Written H st} {p : Bytes} :
    p ∈ w.inodes.map Inode.path ↔ ∃ b ∈ w.index.inodes, b.path = p := by
  rw [inodes, Index.hashed, List.map_map, List.mem_map]
  rfl

theorem mem_entries {w : Written H st} {e : Entry} :
    e ∈ w.inodes.map Inode.entry ↔ ∃ b ∈ w.index.inodes, (w.hash.apply b).entry = e := by
  rw [inodes, Index.hashed, List.map_map, List.mem_map]
  rfl

end Written

section Merged

variable {H : HashFunction} {st : Store} {ws : List (Written H st)} {N : Index} {i : Inode}

/-- **Where a merged inode comes from.** -/
theorem exists_written (hi : i ∈ mergeAll (ws.map Written.inodes)) :
    ∃ w ∈ ws, LastWith (ws.map Written.inodes) i.path w.inodes ∧ ∃ b ∈ w.index.inodes,
      b.path = i.path ∧ i = placed (parentPath i.path) (w.hash.apply b) := by
  obtain ⟨L, hL, j, hj, hp, he⟩ := exists_placed (Written.treeLists ws) hi
  obtain ⟨w, hw, rfl⟩ := List.mem_map.mp hL.mem
  obtain ⟨b, hb, rfl⟩ := Index.mem_hashed.mp hj
  exact ⟨w, hw, hL, b, hb, hp, he⟩

/-- The inode is held by some list. -/
def Held (ws : List (Written H st)) (i : Inode) : Prop :=
  ∃ L, HeldBy (ws.map Written.inodes) i.path L

theorem Held.parent : ∀ i ∈ N.inodes, Held ws i →
    ∀ j ∈ N.inodes, i.parent = some j.path → Held ws j := by
  rintro i hi ⟨L, hL⟩ j hj hp
  have habove := Index.ancestor_of_parent hi hp (N.path_ne_nil hj)
  exact ⟨L, hL.above (Written.treeLists ws) habove⟩

open Classical in
/-- **The part of the merged index that is stored.** -/
noncomputable def heldIndex (ws : List (Written H st)) (N : Index) : Index :=
  N.restrict (Held ws) Held.parent

theorem mem_heldIndex : i ∈ (heldIndex ws N).inodes ↔ i ∈ N.inodes ∧ Held ws i := by
  simp [heldIndex, Index.restrict]

/-- What is directly in the root is held. -/
theorem held_of_root (hN : N.inodes = mergeAll (ws.map Written.inodes)) (hi : i ∈ N.inodes)
    (hp : i.parent = some []) : Held ws i := by
  obtain ⟨w, -, hw, -⟩ := exists_written (hN ▸ hi)
  obtain ⟨ns, n, hpath, hpar⟩ := N.named i hi
  rw [hpar] at hp
  obtain rfl : ns = [] := pathStr_eq_nil.mp (Option.some.inj hp)
  have htop : topName i.path = i.path := by
    rw [hpath, List.nil_append, topName_pathStr, pathStr_singleton]
  exact ⟨w.inodes, htop.symm ▸ hw, hw.listed⟩

end Merged

/-! ### Adding it -/

/-- **A run of `cache::add` on a merged index** that returns, on the cache `st` that has the indexes
it was merged of. -/
structure AddMerged {H : HashFunction} {st : Store} (ws : List (Written H st)) where
  index : Index
  inodes_eq : index.inodes = mergeAll (ws.map Written.inodes)
  calls : AddCalls
  final : AddState
  run : Reaches (AddStep H index calls) (AddState.start index st (digestsOf index.inodes)) final
  returned : final.main = .returned

namespace AddMerged

variable {H : HashFunction} {S : Set Bytes} {st : Store} {ws : List (Written H st)}
  {w : Written H st} {i b : Inode} {p : Bytes} (m : AddMerged ws)

/-- The byte strings that must not collide: the tree object of the root, and what the cache has
under its digest. -/
def atHand : List Bytes :=
  m.index.tree m.final.hash [] :: (m.final.store (treePath (m.final.hash []))).toList

theorem added : Added H m.index m.calls st (digestsOf m.index.inodes) m.final.store m.final.hash :=
  added_of_returned m.run m.returned

/-- **Nothing but the root is digested.** -/
theorem hash_eq (hi : i ∈ m.index.inodes) : m.final.hash i.path = i.hash := by
  have hbefore : digestsOf m.index.inodes i.path = i.hash := by
    rw [digestsOf, (lookup_eq_some_iff m.index.nodup_paths).mpr ⟨hi, rfl⟩]
    rfl
  obtain ⟨w, -, -, b, hb, hp, he⟩ := exists_written (m.inodes_eq ▸ hi)
  have hhash : i.hash = w.hash b.path := by rw [he]; rfl
  have hstatus : i.status = b.status := by rw [he]; rfl
  obtain ⟨hfile, hdir⟩ := w.cached.not_needed hb
  by_cases hf : i.isFile = true
  · rcases (m.added.file i hi hf).1 with ⟨-, heq⟩ | ⟨hempty, -⟩
    · rw [heq, hbefore]
    · rw [hbefore, hhash, hfile (by simpa [Inode.isFile, hstatus] using hf)] at hempty
      cases hempty
  · rw [Index.kept_of_added m.added hi (by simpa using hf) fun hd => by
      rw [hbefore, hhash]
      exact hdir (by simpa [Inode.isDirectory, hstatus] using hd), hbefore]

/-- The record of a merged inode is the one of the last index with its path. -/
theorem entry_eq (hi : i ∈ m.index.inodes)
    (hlast : LastWith (ws.map Written.inodes) i.path w.inodes) (hb : b ∈ w.index.inodes)
    (hp : b.path = i.path) : (m.final.hash.apply i).entry = (w.hash.apply b).entry := by
  have he := hlast.eq_placed (Written.treeLists ws) (m.inodes_eq ▸ hi)
    (Index.mem_hashed.mpr ⟨b, hb, rfl⟩) hp
  have hstatus : i.status = b.status := by rw [he]; rfl
  have htarget : i.target = b.target := by rw [he]; rfl
  have hhash : m.final.hash i.path = w.hash b.path := by
    rw [m.hash_eq hi, he]
    rfl
  exact Inode.entry_eq_iff.mpr ⟨hp.symm, hstatus, htarget, hhash⟩

/-- What an index holds is there. -/
theorem exists_held {L : List Inode} (h : HeldBy (ws.map Written.inodes) p L) :
    ∃ c ∈ (heldIndex ws m.index).inodes, HeldBy (ws.map Written.inodes) c.path L ∧ c.path = p := by
  obtain ⟨c, hc, rfl⟩ := List.mem_map.mp (h.mem_mergeAll (Written.treeLists ws))
  rw [← m.inodes_eq] at hc
  exact ⟨c, mem_heldIndex.mpr ⟨hc, L, h⟩, h, rfl⟩

/-- **The tree object of a directory that is held** is the one of the index that holds it. -/
theorem tree_held (hheld : HeldBy (ws.map Written.inodes) p w.inodes) :
    (heldIndex ws m.index).tree m.final.hash p = w.index.tree w.hash p := by
  have hne : p ≠ [] := by
    obtain ⟨b, hb, rfl⟩ := Written.mem_paths.mp hheld.2
    exact w.index.path_ne_nil hb
  refine Index.tree_eq_of_entries _ fun e => ?_
  constructor
  · rintro ⟨c, hc, hpar, rfl⟩
    obtain ⟨hmem, L, hL⟩ := mem_heldIndex.mp hc
    have habove := Index.ancestor_of_parent hmem hpar hne
    obtain rfl : L = w.inodes := hL.1.eq (habove.topName_eq ▸ hheld.1)
    obtain ⟨b, hb, hbp⟩ := Written.mem_paths.mp hL.2
    refine ⟨b, hb, ?_, (m.entry_eq hmem (hL.lastWith (Written.treeLists ws)) hb hbp).symm⟩
    rw [Index.parent_eq hb, hbp, ← Index.parent_eq hmem, hpar]
  · rintro ⟨b, hb, hpar, rfl⟩
    have hb' : HeldBy (ws.map Written.inodes) b.path w.inodes :=
      ⟨(Index.ancestor_of_parent hb hpar hne).topName_eq ▸ hheld.1,
        Written.mem_paths.mpr ⟨b, hb, rfl⟩⟩
    obtain ⟨c, hc, hcheld, hcp⟩ := m.exists_held hb'
    refine ⟨c, hc, ?_, m.entry_eq (mem_heldIndex.mp hc).1
      (hcheld.lastWith (Written.treeLists ws)) hb hcp.symm⟩
    rw [Index.parent_eq hc, hcp, ← Index.parent_eq hb, hpar]

/-- The tree object of the root lists the root of the merged index. -/
theorem tree_root :
    (heldIndex ws m.index).tree m.final.hash [] = m.index.tree m.final.hash [] := by
  refine Index.tree_eq_of_entries _ fun e => exists_congr fun c => ?_
  rw [mem_heldIndex, and_assoc]
  exact and_congr_right fun hmem => and_iff_right_of_imp fun h =>
    held_of_root m.inodes_eq hmem h.1

/-- An inode that is held has the record of the index that holds it. -/
theorem exists_holder (hi : i ∈ (heldIndex ws m.index).inodes) :
    ∃ w ∈ ws, HeldBy (ws.map Written.inodes) i.path w.inodes ∧ ∃ b ∈ w.index.inodes,
      b.path = i.path ∧ (m.final.hash.apply i).entry = (w.hash.apply b).entry := by
  obtain ⟨hmem, L, hL⟩ := mem_heldIndex.mp hi
  obtain ⟨w, hw, rfl⟩ := List.mem_map.mp hL.1.mem
  obtain ⟨b, hb, hbp⟩ := Written.mem_paths.mp hL.2
  exact ⟨w, hw, hL, b, hb, hbp, m.entry_eq hmem (hL.lastWith (Written.treeLists ws)) hb hbp⟩

/-- **What is held is stored.** -/
theorem stored (hst : TreesAddressed H st) (hwhole : Lossless m.calls.leaves)
    (hS : H.CollisionFree S) (hw : ∀ b ∈ m.atHand, b ∈ S) :
    (heldIndex ws m.index).Stored m.final.hash m.final.store := by
  constructor
  · obtain ⟨hmade, hhas⟩ := m.added.made [] (Index.mem_rebuilt.mpr (Or.inl rfl))
    have hsum := hmade.eq hwhole
    obtain ⟨b, hb⟩ := Option.isSome_iff_exists.mp hhas
    have haddr : TreesAddressed H m.final.store := treesAddressed_of_run m.run hst
    have hb' : b = m.index.tree m.final.hash [] := by
      refine hS (hw _ ?_) (hw _ (List.mem_cons_self ..)) ?_
      · rw [atHand, hb]
        simp
      · rw [haddr _ b (by rw [hsum, H.sum_alg]) hb]
        exact hsum
    rw [hb, hb', m.tree_root]
  · intro i hi hd
    obtain ⟨w, -, hheld, b, hb, hbp, he⟩ := m.exists_holder hi
    obtain ⟨-, hstatus, -, hhash⟩ := Inode.entry_eq_iff.mp he
    have hbd : b.isDirectory = true := by
      rw [← hd, Inode.isDirectory, Inode.isDirectory]
      exact congrArg (fun s : FileStatus => decide (s.type = .directory)) hstatus.symm
    have hkept := treePath_kept m.run (w.cached.stored.dir b hb hbd)
    have hhash : m.final.hash i.path = w.hash b.path := hhash
    rw [hhash, hkept, m.tree_held hheld, hbp]
    rfl

theorem encodable : (heldIndex ws m.index).Encodable m.final.hash := by
  intro i hi
  obtain ⟨w, -, -, b, hb, -, he⟩ := m.exists_holder hi
  obtain ⟨hpath, -, htarget, hhash⟩ := Inode.entry_eq_iff.mp he
  obtain ⟨h1, h2, h3⟩ := w.cached.encodable b hb
  refine ⟨hhash ▸ h1, ?_, htarget ▸ h3⟩
  rw [Inode.name, hpath]
  exact h2

/-- **What is read back** is what is held. -/
theorem exists_readBack (hst : TreesAddressed H st) (hwhole : Lossless m.calls.leaves)
    (hS : H.CollisionFree S) (hw : ∀ b ∈ m.atHand, b ∈ S) (sched : Schedule) :
    ∃ levels, ∀ fuel ≥ levels, ∃ l,
      indexFromTree m.final.store sched fuel (m.final.hash []) = some (.ok l) ∧
        (l.map Inode.path).Nodup ∧ ∀ e, e ∈ l.map Inode.entry ↔
          ∃ L, LastWith (ws.map Written.inodes) (topName e.path) L ∧ e ∈ L.map Inode.entry := by
  refine ⟨(heldIndex ws m.index).levels, fun fuel hfuel => ?_⟩
  obtain ⟨l, hl, hperm⟩ :=
    Index.indexFromTree_perm m.encodable (m.stored hst hwhole hS hw) sched hfuel
  refine ⟨l, hl, ?_, fun e => ?_⟩
  · have hpaths := hperm.map Entry.path
    rw [List.map_map, List.map_map] at hpaths
    exact hpaths.nodup_iff.mpr (heldIndex ws m.index).nodup_paths
  rw [hperm.mem_iff, List.mem_map]
  constructor
  · rintro ⟨i, hi, rfl⟩
    obtain ⟨w, -, hheld, b, hb, -, he⟩ := m.exists_holder hi
    exact ⟨_, hheld.1, Written.mem_entries.mpr ⟨b, hb, he.symm⟩⟩
  · rintro ⟨L, hlast, he⟩
    obtain ⟨w, -, rfl⟩ := List.mem_map.mp hlast.mem
    obtain ⟨b, hb, rfl⟩ := Written.mem_entries.mp he
    obtain ⟨i, hi, hheld, hip⟩ :=
      m.exists_held (p := b.path) ⟨hlast, Written.mem_paths.mpr ⟨b, hb, rfl⟩⟩
    exact ⟨i, hi, m.entry_eq (mem_heldIndex.mp hi).1 (hheld.lastWith (Written.treeLists ws)) hb
      hip.symm⟩

end AddMerged

/-! ### The whole run -/

/-- **The writing of several paths**, as `WritesAll`, each of which leaves a Merkle-consistent index
and a content-addressed cache. -/
inductive WritesGood (H : HashFunction) : Store → List (List Inode) → Store → Prop
  | nil {st} : WritesGood H st [] st
  | cons {st st' lists d root file} (w : WriteTree H d (fun _ => false) root file st)
      (hd : d.WellFormed) (hgood : w.Good) (h : WritesGood H w.final.store lists st') :
      WritesGood H st (w.inodes :: lists) st'

section Run

variable {H : HashFunction} {st st' : Store} {lists : List (List Inode)} {L : Index}
  {content : Bytes → Bytes} {hs : Hashes}

theorem WritesGood.writesAll (h : WritesGood H st lists st') : WritesAll H st lists st' := by
  induction h with
  | nil => exact .nil
  | cons w _ _ _ ih => exact .cons w ih

/-- **It is the loop of `simple::write_tree`**, which leaves the merged index. -/
theorem WritesGood.writesAndMerges (h : WritesGood H st lists st') :
    WritesAndMerges H st [] st' (mergeAll lists) :=
  writesAndMerges_iff.mpr ⟨lists, h.writesAll, rfl⟩

theorem WritesGood.treesAddressed (h : WritesGood H st lists st') (hst : TreesAddressed H st) :
    TreesAddressed H st' := by
  induction h with
  | nil => exact hst
  | cons w _ hgood _ ih => exact ih hgood.addressed.trees

/-- What is in the cache stays there. -/
theorem Index.Cached.written {ignores : Bytes → Bool} {d : Disk} {root : List Name}
    {file : Option Bytes} (c : L.Cached H content hs st) (w : WriteTree H d ignores root file st) :
    L.Cached H content hs w.final.store where
  merkle := c.merkle
  encodable := c.encodable
  stored := ⟨treePath_kept w.run c.stored.root, fun i hi hd =>
    treePath_kept w.run (c.stored.dir i hi hd)⟩
  objects i hi hf := w.added.present _ (c.objects i hi hf)

theorem Index.Cached.kept (c : L.Cached H content hs st) (h : WritesGood H st lists st') :
    L.Cached H content hs st' := by
  induction h with
  | nil => exact c
  | cons w _ _ _ ih => exact ih (c.written w)

theorem WriteTree.Good.cached {ignores : Bytes → Bool} {d : Disk} {root : List Name}
    {file : Option Bytes} {w : WriteTree H d ignores root file st} (h : w.Good)
    (hd : d.WellFormed) :
    w.scan.index.Cached H (d.contentAt root) w.final.hash w.final.store where
  merkle := h.merkle
  encodable := h.merkle.encodable hd
  stored := h.stored
  objects i hi hf := by
    rw [Store.hasObject, h.objects i hi hf]
    rfl

/-- **All indexes are in the cache in the end.** -/
theorem WritesGood.exists_written (h : WritesGood H st lists st') :
    ∃ ws : List (Written H st'), ws.map Written.inodes = lists := by
  induction h with
  | nil => exact ⟨[], rfl⟩
  | @cons st st' lists d root file w hd hgood h ih =>
    obtain ⟨ws, rfl⟩ := ih
    exact ⟨⟨d, _, root, w.scan, w.final.hash, d.contentAt root, (hgood.cached hd).kept h⟩ :: ws,
      rfl⟩

end Run

/-- **What is stored of several paths.** They are written one after the other, their indexes are
merged, and the merged index is added to the cache. What reads back under its digest is, at each
name of the root, what the last path with this name has there and below it, and nothing else,
whatever else the merged index lists – if the temporary file of its root loses no bytes when it is
closed. -/
theorem writeTrees_readsBack {H : HashFunction} {S : Set Bytes} {st st' : Store}
    {lists : List (List Inode)} {L : Index} {calls : AddCalls} {final : AddState}
    (h : WritesGood H st lists st') (hL : L.inodes = mergeAll lists)
    (hrun : Reaches (AddStep H L calls) (AddState.start L st' (digestsOf L.inodes)) final)
    (hreturned : final.main = .returned) (hwhole : Lossless calls.leaves)
    (hst : TreesAddressed H st) (hS : H.CollisionFree S)
    (hw : ∀ b ∈ L.tree final.hash [] :: (final.store (treePath (final.hash []))).toList, b ∈ S)
    (sched : Schedule) : ∃ levels, ∀ fuel ≥ levels, ∃ l,
      indexFromTree final.store sched fuel (final.hash []) = some (.ok l) ∧
        (l.map Inode.path).Nodup ∧ ∀ e, e ∈ l.map Inode.entry ↔
          ∃ K, LastWith lists (topName e.path) K ∧ e ∈ K.map Inode.entry := by
  obtain ⟨ws, rfl⟩ := h.exists_written
  exact AddMerged.exists_readBack ⟨L, hL, calls, final, hrun, hreturned⟩ (h.treesAddressed hst)
    hwhole hS hw sched

namespace Sample

set_option maxRecDepth 8000 in
theorem good_left : left.Good :=
  WriteTree.good_of_truthful left.truthful_of_none (WriteTree.whole_ofThread _ _ _) collisionFree_M
    (by decide) (contentAddressed_empty hashM)

set_option maxRecDepth 8000 in
theorem good_right : right.Good :=
  WriteTree.good_of_truthful right.truthful_of_none (WriteTree.whole_ofThread _ _ _)
    collisionFree_M (by decide) good_left.addressed

/-- The two workspaces are written. -/
theorem writesGood_both : WritesGood hashM Store.empty [left.inodes, right.inodes] storeM :=
  .cons left disk_wellFormed good_left (.cons right diskM_wellFormed good_right .nil)

set_option maxRecDepth 8000 in
theorem inodes_joint : (merged inOrder_left inOrder_right left.final.hash right.final.hash).inodes =
    mergeAll [left.inodes, right.inodes] := by decide

end Sample

set_option maxRecDepth 8000 in
/-- The directory `d` is in both workspaces: only what the second has in it is read back. -/
theorem writeTrees_readsBack_sample : ∃ levels, ∀ fuel ≥ levels, ∃ l,
    indexFromTree Sample.joint.final.store .sequential fuel Sample.joint.digest = some (.ok l) ∧
      pathStr [Sample.d, Sample.m] ∈ l.map Inode.path ∧
      pathStr [Sample.d, Sample.l] ∉ l.map Inode.path := by
  obtain ⟨levels, h⟩ := writeTrees_readsBack Sample.writesGood_both Sample.inodes_joint
    Sample.joint.run Sample.joint.returned Sample.whole_joint
    (contentAddressed_empty Sample.hashM).trees Sample.collisionFree_M Sample.atHand_joint
    .sequential
  refine ⟨levels, fun fuel hfuel => ?_⟩
  obtain ⟨l, hl, -, hread⟩ := h fuel hfuel
  -- the second is the last with a `d`
  have hlast : LastWith [Sample.left.inodes, Sample.right.inodes] Sample.d.bytes
      Sample.right.inodes := ⟨[Sample.left.inodes], [], rfl, by decide, nofun⟩
  refine ⟨l, hl, ?_, fun hmem => ?_⟩
  · obtain ⟨j, hj, hjp⟩ : ∃ j ∈ Sample.right.inodes, j.path = pathStr [Sample.d, Sample.m] := by
      decide
    have htop : topName j.entry.path = Sample.d.bytes := by
      rw [show j.entry.path = j.path from rfl, hjp, topName_pathStr]
    obtain ⟨i, hi, he⟩ := List.mem_map.mp
      ((hread j.entry).mpr ⟨_, htop.symm ▸ hlast, List.mem_map_of_mem hj⟩)
    exact List.mem_map.mpr ⟨i, hi, (congrArg Entry.path he).trans hjp⟩
  · obtain ⟨i, hi, hip⟩ := List.mem_map.mp hmem
    obtain ⟨K, hK, he⟩ := (hread i.entry).mp (List.mem_map_of_mem hi)
    have htop : topName i.entry.path = Sample.d.bytes := by
      rw [show i.entry.path = i.path from rfl, hip, topName_pathStr]
    obtain rfl : K = Sample.right.inodes := (htop ▸ hK).eq hlast
    obtain ⟨j, hj, hje⟩ := List.mem_map.mp he
    have hnot : ∀ j ∈ Sample.right.inodes, j.path ≠ pathStr [Sample.d, Sample.l] := by decide
    exact hnot j hj ((congrArg Entry.path hje).trans hip)

end Fstree
