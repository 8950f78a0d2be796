import Fstree.Index
import Fstree.Model.Store

/-!
# Reading a tree back into an index

`cache::index_from_tree` reads the tree objects level by level: one job for each
directory of the level, which decodes the tree object and then appends each child
to the index and, if it is a directory, to the next level, under one mutex. The
order of the appends is the scheduler's (`Fstree.Schedule`), and it is the same in
both lists.

If the store holds the tree object of every directory of a Merkle-consistent index
(`Fstree.Index.Stored`), reading from the root digest succeeds under every schedule, and
what is appended are the entries of the index, each once, in some order
(`Fstree.Index.indexFromTree_perm`); sorting gives the sort of the index
(`Fstree.Index.sort_indexFromTree`).
-/

namespace Fstree

open SortedBy

/-! ### The reader -/

/-- Why a tree could not be read. -/
inductive ReadError
  | notFound (hash : Digest)
  | decode (hash : Digest) (e : TreeError)
deriving DecidableEq

/-- The text of the exception. -/
def ReadError.message : ReadError → String
  | notFound hash => "tree object not found in local cache: " ++ text hash.string
  | decode hash e => e.message hash

/-- `cache::read_tree`: the children of a directory. -/
def readTree (st : Store) (tree : Inode) : Except ReadError (List Inode) :=
  match st (treePath tree.hash) with
  | none => .error (.notFound tree.hash)
  | some bs =>
    match decodeTree tree.path bs with
    | (children, none) => .ok children
    | (_, some e) => .error (.decode tree.hash e)

/-- **What is read of a directory.** -/
theorem readTree_eq_ok {st : Store} {tree : Inode} {children : List Inode} :
    readTree st tree = .ok children ↔ ∃ bs, st (treePath tree.hash) = some bs ∧
      decodeTree tree.path bs = (children, none) := by
  rw [readTree]
  split
  · simp [*]
  · rename_i bs hbs
    split
    · rename_i hdecode
      simp [hbs, hdecode]
    · rename_i hdecode
      simp [hbs, hdecode]

/-- **A schedule**: the order in which the jobs of each level append. -/
structure Schedule where
  order : ℕ → List Inode → List Inode
  perm : ∀ n l, (order n l).Perm l

/-- The schedule of a single thread. -/
def Schedule.sequential : Schedule := ⟨fun _ l => l, fun _ l => List.Perm.refl l⟩

/-- The children of the directories of a level, or the exception of one that could
not be read. -/
def readLevel (st : Store) : List Inode → Except ReadError (List Inode)
  | [] => .ok []
  | t :: ts => do
    let children ← readTree st t
    let rest ← readLevel st ts
    return children ++ rest

theorem readLevel_cons_eq_ok {st : Store} {t : Inode} {ts l : List Inode} :
    readLevel st (t :: ts) = .ok l ↔
      ∃ l₁ l₂, readTree st t = .ok l₁ ∧ readLevel st ts = .ok l₂ ∧ l = l₁ ++ l₂ := by
  rw [readLevel]
  cases readTree st t with
  | error e => exact iff_of_false (by rintro ⟨⟩) (by rintro ⟨_, _, ⟨⟩, -⟩)
  | ok l₁ =>
    cases readLevel st ts with
    | error e => exact iff_of_false (by rintro ⟨⟩) (by rintro ⟨_, _, -, ⟨⟩, -⟩)
    | ok l₂ =>
      constructor
      · intro h
        exact ⟨l₁, l₂, rfl, rfl, (Except.ok.inj h).symm⟩
      · rintro ⟨_, _, h₁, h₂, rfl⟩
        obtain rfl := Except.ok.inj h₁
        obtain rfl := Except.ok.inj h₂
        rfl

/-- The loop of `cache::index_from_tree`, at level `n`: `index` holds what was
appended so far. There is no answer if `fuel` levels were not enough. -/
def readLevels (st : Store) (sched : Schedule) :
    ℕ → ℕ → List Inode → List Inode → Option (Except ReadError (List Inode))
  | _, _, [], index => some (.ok index)
  | 0, _, _ :: _, _ => none
  | fuel + 1, n, t :: ts, index =>
    match readLevel st (t :: ts) with
    | .error e => some (.error e)
    | .ok children =>
      let appended := sched.order n children
      readLevels st sched fuel (n + 1) (appended.filter Inode.isDirectory) (index ++ appended)

/-- The root inode of an index that is to be read from `hash`. -/
def rootInode (hash : Digest) : Inode where
  path := []
  hash := hash
  status := ⟨.directory, 0⟩
  mtime := 0
  size := 0
  target := []

/-- **`cache::index_from_tree`** into a fresh index. -/
def indexFromTree (st : Store) (sched : Schedule) (fuel : ℕ) (hash : Digest) :
    Option (Except ReadError (List Inode)) :=
  readLevels st sched fuel 0 [rootInode hash] []

/-- More levels make no difference. -/
theorem readLevels_of_le {st : Store} {sched : Schedule} {fuel fuel' n : ℕ} {ts index : List Inode}
    {r : Except ReadError (List Inode)} (h : readLevels st sched fuel n ts index = some r)
    (hle : fuel ≤ fuel') : readLevels st sched fuel' n ts index = some r := by
  induction fuel generalizing fuel' n ts index with
  | zero =>
    cases ts with
    | nil => rwa [readLevels] at h ⊢
    | cons t ts => rw [readLevels] at h; cases h
  | succ fuel ih =>
    cases ts with
    | nil => rwa [readLevels] at h ⊢
    | cons t ts =>
      obtain ⟨fuel', rfl⟩ := Nat.exists_eq_succ_of_ne_zero (by omega : fuel' ≠ 0)
      rw [readLevels] at h ⊢
      cases hread : readLevel st (t :: ts) with
      | error e => rwa [hread] at h
      | ok children =>
        rw [hread] at h
        exact ih h (by omega)

/-! ### Reading an index back -/

namespace Index

variable (L : Index)

/-- The number of directories above a path. -/
def depth (p : Bytes) : ℕ := p.count slash

theorem depth_child {i : Inode} (h : i ∈ L.inodes) {p : Bytes} (hp : i.parent = some p) :
    depth i.path = if p = [] then 0 else depth p + 1 := by
  obtain ⟨ns, n, hpath, hparent⟩ := L.named i h
  obtain rfl : pathStr ns = p := Option.some.inj (by rw [← hparent, ← hp])
  have hn : n.bytes.count slash = 0 := List.count_eq_zero.mpr n.slash_notMem
  by_cases hns : ns = []
  · simp [depth, hpath, hns, hn]
  · rw [depth, hpath, pathStr_concat hns, List.count_append, List.count_cons_self, hn]
    simp [depth, hns]

/-- The directories at a level, by path: the root first. -/
def dirsAt : ℕ → List Bytes
  | 0 => [[]]
  | n + 1 => (L.inodes.filter fun i => i.isDirectory ∧ depth i.path = n).map Inode.path

/-- The inodes at a level are the children of the directories at it. -/
theorem listed_dirsAt (n : ℕ) :
    ((L.dirsAt n).flatMap L.listed).Perm (L.inodes.filter fun i => depth i.path = n) := by
  have hnodup : L.inodes.Nodup := L.nodup_paths.of_map
  have hdirs : (L.dirsAt n).Nodup := by
    cases n with
    | zero => exact List.nodup_singleton _
    | succ n => exact L.nodup_paths.sublist (List.filter_sublist.map _)
  refine (List.perm_ext_iff_of_nodup ?_ (hnodup.filter _)).mpr fun i => ?_
  · refine List.nodup_flatMap.mpr ⟨fun p _ => (L.strictBy_listed p).nodup, hdirs.imp ?_⟩
    intro p q hpq
    refine List.disjoint_left.mpr fun c hc hc' => hpq ?_
    exact Option.some.inj ((L.mem_listed.mp hc).2.symm.trans (L.mem_listed.mp hc').2)
  · simp only [List.mem_flatMap, mem_listed, List.mem_filter, decide_eq_true_eq]
    constructor
    · rintro ⟨p, hp, hi, hip⟩
      refine ⟨hi, ?_⟩
      rw [L.depth_child hi hip]
      cases n with
      | zero => rw [if_pos (List.mem_singleton.mp hp)]
      | succ n =>
        obtain ⟨j, hj, rfl⟩ := List.mem_map.mp hp
        obtain ⟨hjl, hjd⟩ := List.mem_filter.mp hj
        rw [if_neg (L.path_ne_nil hjl), (of_decide_eq_true hjd).2]
    · rintro ⟨hi, hd⟩
      obtain ⟨p, hp⟩ := L.exists_parent hi
      refine ⟨p, ?_, hi, hp⟩
      rw [L.depth_child hi hp] at hd
      rcases L.parent_mem i hi p hp with rfl | ⟨j, hj, rfl, hjd⟩
      · obtain rfl : 0 = n := by simpa using hd
        exact List.mem_singleton.mpr rfl
      · rw [if_neg (L.path_ne_nil hj)] at hd
        rw [← hd]
        exact List.mem_map.mpr ⟨j, List.mem_filter.mpr ⟨hj, by simp [hjd]⟩, rfl⟩

/-- Below a level without directories there is nothing. -/
theorem depth_lt_of_dirsAt_eq_nil {n : ℕ} (h : L.dirsAt n = []) :
    ∀ i ∈ L.inodes, depth i.path < n := by
  suffices hs : ∀ m, ∀ i ∈ L.inodes, depth i.path = m → m < n from fun i hi => hs _ i hi rfl
  intro m
  induction m with
  | zero =>
    intro i _ _
    cases n with
    | zero => simp [dirsAt] at h
    | succ n => exact Nat.succ_pos n
  | succ m ih =>
    intro i hi hd
    obtain ⟨p, hp⟩ := L.exists_parent hi
    rw [L.depth_child hi hp] at hd
    rcases L.parent_mem i hi p hp with rfl | ⟨j, hj, rfl, hjd⟩
    · simp at hd
    · rw [if_neg (L.path_ne_nil hj)] at hd
      have hjm : depth j.path = m := Nat.succ.inj hd
      have hlt := ih j hj hjm
      rcases Nat.lt_or_ge (m + 1) n with hmn | hmn
      · exact hmn
      · obtain rfl : n = m + 1 := by omega
        have hmem : j.path ∈ L.dirsAt (m + 1) :=
          List.mem_map.mpr ⟨j, List.mem_filter.mpr ⟨hj, by simp [hjd, hjm]⟩, rfl⟩
        rw [h] at hmem
        cases hmem

/-- The inodes have records that can be read back. -/
def Encodable (hs : Hashes) : Prop := ∀ i ∈ L.inodes, (hs.apply i).Encodable

/-- **The store holds the tree objects of an index.** -/
structure Stored (hs : Hashes) (st : Store) : Prop where
  root : st (treePath (hs [])) = some (L.tree hs [])
  dir : ∀ i ∈ L.inodes, i.isDirectory = true →
    st (treePath (hs i.path)) = some (L.tree hs i.path)

variable {L} {hs : Hashes} {st : Store}

/-- A child that is read back records what it did. -/
theorem entry_decoded {c : Inode} {p : Bytes} (h : c ∈ L.inodes) (hp : c.parent = some p) :
    ((hs.apply c).decoded p).entry = (hs.apply c).entry := by
  obtain ⟨ns, n, hpath, hparent⟩ := L.named c h
  obtain rfl : pathStr ns = p := Option.some.inj (by rw [← hparent, ← hp])
  refine Inode.entry_eq_iff.mpr ⟨?_, rfl, ?_, rfl⟩
  · simp [Inode.decoded, Inode.name, hpath]
  · cases hl : (hs.apply c).isSymlink with
    | true => simp [Inode.decoded, hl]
    | false =>
      simp only [Inode.decoded, hl]
      exact (L.target_nil c h hl).symm

/-- The records of what is read from a directory. -/
theorem entries_decoded (p : Bytes) :
    ((L.entries hs p).map (·.decoded p)).map Inode.entry =
      (L.listed p).map fun c => (hs.apply c).entry := by
  rw [entries, List.map_map, List.map_map]
  refine List.map_congr_left fun c hc => ?_
  obtain ⟨hmem, hp⟩ := L.mem_listed.mp hc
  exact entry_decoded hmem hp

/-- Path and digest: what the reader uses of a directory. -/
def treeKey (t : Inode) : Bytes × Digest := (t.path, t.hash)

theorem readTree_of_stored (henc : L.Encodable hs) (hst : L.Stored hs st) {n : ℕ} {p : Bytes}
    (hp : p ∈ L.dirsAt n) {t : Inode} (hkey : treeKey t = (p, hs p)) :
    readTree st t = .ok ((L.entries hs p).map (·.decoded p)) := by
  obtain ⟨rfl, hhash⟩ := Prod.mk.inj hkey
  have hobj : st (treePath t.hash) = some (L.tree hs t.path) := by
    rw [hhash]
    cases n with
    | zero =>
      rw [List.mem_singleton.mp hp]
      exact hst.root
    | succ n =>
      obtain ⟨j, hj, hjp⟩ := List.mem_map.mp hp
      obtain ⟨hjl, hjd⟩ := List.mem_filter.mp hj
      rw [← hjp]
      exact hst.dir j hjl (of_decide_eq_true hjd).1
  have hdec : decodeTree t.path (L.tree hs t.path) = _ :=
    L.decodeTree_tree (fun c hc _ => henc c hc) t.path
  rw [readTree, hobj]
  simp only [hdec]

/-- **A level is read**: its directories, in any order, give the inodes at it. -/
theorem readLevel_of_stored (henc : L.Encodable hs) (hst : L.Stored hs st) {n : ℕ}
    {ts : List Inode} (hts : (ts.map treeKey).Perm ((L.dirsAt n).map fun p => (p, hs p))) :
    ∃ children, readLevel st ts = .ok children ∧ (children.map Inode.entry).Perm
      ((L.inodes.filter fun i => depth i.path = n).map fun c => (hs.apply c).entry) := by
  have hmem : ∀ t ∈ ts, ∃ p ∈ L.dirsAt n, treeKey t = (p, hs p) := fun t ht => by
    obtain ⟨p, hp, he⟩ := List.mem_map.mp (hts.mem_iff.mp (List.mem_map_of_mem (f := treeKey) ht))
    exact ⟨p, hp, he.symm⟩
  have hread : readLevel st ts =
      .ok (ts.flatMap fun t => (L.entries hs t.path).map (·.decoded t.path)) := by
    clear hts
    induction ts with
    | nil => rfl
    | cons t ts ih =>
      obtain ⟨p, hp, hkey⟩ := hmem t (by simp)
      obtain ⟨rfl, -⟩ := Prod.mk.inj hkey
      rw [readLevel, readTree_of_stored henc hst hp hkey, ih fun u hu => hmem u (by simp [hu])]
      rfl
  refine ⟨_, hread, ?_⟩
  have hpaths : (ts.map Inode.path).Perm (L.dirsAt n) := by
    simpa [List.map_map, Function.comp_def, treeKey] using hts.map Prod.fst
  have hflat : (ts.flatMap fun t => (L.entries hs t.path).map (·.decoded t.path)).map Inode.entry =
      ((ts.map Inode.path).flatMap L.listed).map fun c => (hs.apply c).entry := by
    rw [List.map_flatMap, List.flatMap_map, List.map_flatMap]
    exact List.flatMap_congr fun t _ => entries_decoded t.path
  rw [hflat]
  exact ((hpaths.flatMap_right _).trans (L.listed_dirsAt n)).map _

/-- The directories among the inodes of a level are those of the next. -/
theorem dirs_of_level {n : ℕ} {l : List Inode}
    (hl : (l.map Inode.entry).Perm
      ((L.inodes.filter fun i => depth i.path = n).map fun c => (hs.apply c).entry)) :
    ((l.filter Inode.isDirectory).map treeKey).Perm
      ((L.dirsAt (n + 1)).map fun p => (p, hs p)) := by
  have hfilter : ∀ l : List Inode, (l.filter Inode.isDirectory).map treeKey =
      ((l.map Inode.entry).filter fun e => e.status.type = .directory).map
        fun e => (e.path, e.hash) := by
    intro l
    rw [List.filter_map, List.map_map]
    rfl
  have hentry : ((L.inodes.filter fun i => depth i.path = n).map fun c => (hs.apply c).entry) =
      ((L.inodes.filter fun i => depth i.path = n).map hs.apply).map Inode.entry := by
    rw [List.map_map]
    rfl
  have hdirs : (L.dirsAt (n + 1)).map (fun p => (p, hs p)) =
      (((L.inodes.filter fun i => depth i.path = n).map hs.apply).filter Inode.isDirectory).map
        treeKey := by
    have hpred : Inode.isDirectory ∘ hs.apply = Inode.isDirectory := rfl
    rw [dirsAt, List.map_map, List.filter_map, List.map_map, List.filter_filter, hpred]
    simp only [Bool.decide_and, Bool.decide_eq_true]
    rfl
  rw [hfilter, hdirs, hfilter, ← hentry]
  exact (hl.filter _).map _

/-- The inodes above the next level are those above this one, and those at it. -/
theorem perm_filter_succ (n : ℕ) :
    ((L.inodes.filter fun i => depth i.path < n) ++
      L.inodes.filter fun i => depth i.path = n).Perm
      (L.inodes.filter fun i => depth i.path < n + 1) := by
  have hnodup : L.inodes.Nodup := L.nodup_paths.of_map
  refine (List.perm_ext_iff_of_nodup ?_ (hnodup.filter _)).mpr fun i => ?_
  · refine (hnodup.filter _).append (hnodup.filter _) (List.disjoint_left.mpr fun i hi hi' => ?_)
    have h1 := of_decide_eq_true (List.mem_filter.mp hi).2
    have h2 := of_decide_eq_true (List.mem_filter.mp hi').2
    omega
  · simp only [List.mem_append, List.mem_filter, decide_eq_true_eq]
    constructor
    · rintro (⟨h, hd⟩ | ⟨h, hd⟩)
      · exact ⟨h, by omega⟩
      · exact ⟨h, by omega⟩
    · rintro ⟨h, hd⟩
      rcases Nat.lt_or_ge (depth i.path) n with hlt | hge
      · exact Or.inl ⟨h, hlt⟩
      · exact Or.inr ⟨h, by omega⟩

/-- **The loop reads an index back**: from level `n` on, with the inodes above it
appended, everything is read. The induction is on the levels left. -/
theorem readLevels_of_stored (henc : L.Encodable hs) (hst : L.Stored hs st) (sched : Schedule)
    (fuel : ℕ) : ∀ {n : ℕ} {ts index : List Inode}, 0 < n + fuel →
    (∀ i ∈ L.inodes, depth i.path + 1 < n + fuel) →
    (ts.map treeKey).Perm ((L.dirsAt n).map fun p => (p, hs p)) →
    (index.map Inode.entry).Perm
      ((L.inodes.filter fun i => depth i.path < n).map fun c => (hs.apply c).entry) →
    ∃ l, readLevels st sched fuel n ts index = some (.ok l) ∧
      (l.map Inode.entry).Perm (L.inodes.map fun c => (hs.apply c).entry) := by
  have hdone : ∀ {n : ℕ} {index : List Inode}, L.dirsAt n = [] → (index.map Inode.entry).Perm
      ((L.inodes.filter fun i => depth i.path < n).map fun c => (hs.apply c).entry) →
      (index.map Inode.entry).Perm (L.inodes.map fun c => (hs.apply c).entry) := by
    intro n index hnil hindex
    have hall : (L.inodes.filter fun i => depth i.path < n) = L.inodes :=
      List.filter_eq_self.mpr fun i hi => decide_eq_true (L.depth_lt_of_dirsAt_eq_nil hnil i hi)
    rwa [hall] at hindex
  induction fuel with
  | zero =>
    intro n ts index hpos hdepth hts hindex
    have hnil : L.dirsAt n = [] := by
      cases n with
      | zero => exact absurd hpos (lt_irrefl _)
      | succ n =>
        refine List.map_eq_nil_iff.mpr (List.filter_eq_nil_iff.mpr fun i hi hd => ?_)
        have h1 := hdepth i hi
        have h2 := (of_decide_eq_true hd).2
        omega
    have hts' : ts = [] := by simpa [hnil] using hts
    exact ⟨index, by rw [hts', readLevels], hdone hnil hindex⟩
  | succ fuel ih =>
    intro n ts index hpos hdepth hts hindex
    cases ts with
    | nil =>
      have hnil : L.dirsAt n = [] := by simpa using hts.symm
      exact ⟨index, by rw [readLevels], hdone hnil hindex⟩
    | cons t ts =>
      obtain ⟨children, hread, hchildren⟩ := readLevel_of_stored henc hst hts
      have happ : ((sched.order n children).map Inode.entry).Perm
          ((L.inodes.filter fun i => depth i.path = n).map fun c => (hs.apply c).entry) :=
        ((sched.perm n children).map _).trans hchildren
      have hindex' : ((index ++ sched.order n children).map Inode.entry).Perm
          ((L.inodes.filter fun i => depth i.path < n + 1).map fun c => (hs.apply c).entry) := by
        rw [List.map_append]
        refine (hindex.append happ).trans ?_
        rw [← List.map_append]
        exact (L.perm_filter_succ n).map _
      obtain ⟨l, hl, hperm⟩ := @ih (n + 1) _ _ (by omega)
        (fun i hi => by have := hdepth i hi; omega) (dirs_of_level happ) hindex'
      exact ⟨l, by simp only [readLevels, hread, hl], hperm⟩

/-- More levels than an index has. -/
def levels (L : Index) : ℕ := (L.inodes.map fun i => depth i.path).foldr max 0 + 2

theorem depth_lt_levels {i : Inode} (h : i ∈ L.inodes) : depth i.path + 1 < L.levels := by
  have hm : depth i.path ∈ L.inodes.map fun i => depth i.path := List.mem_map.mpr ⟨i, h, rfl⟩
  have hmax : depth i.path ≤ (L.inodes.map fun i => depth i.path).foldr max 0 :=
    List.le_max_of_le' 0 hm le_rfl
  rw [levels]
  omega

/-- **Reading an index back**: under every schedule the reader succeeds, and
appends the entries of the index, each once. -/
theorem indexFromTree_perm (henc : L.Encodable hs) (hst : L.Stored hs st) (sched : Schedule)
    {fuel : ℕ} (hfuel : L.levels ≤ fuel) :
    ∃ l, indexFromTree st sched fuel (hs []) = some (.ok l) ∧
      (l.map Inode.entry).Perm (L.inodes.map fun c => (hs.apply c).entry) := by
  have hlev : 2 ≤ L.levels := by rw [levels]; omega
  refine readLevels_of_stored henc hst sched fuel (by omega) (fun i hi => ?_) ?_ ?_
  · have := L.depth_lt_levels hi
    omega
  · exact List.Perm.refl _
  · simp

/-- Sorting the inodes sorts their records. -/
theorem map_entry_sortBy {l : List Inode} (h : (l.map Inode.path).Nodup) :
    (sortBy Inode.path l).map Inode.entry = sortBy Entry.path (l.map Inode.entry) := by
  have hn : ((l.map Inode.entry).map Entry.path).Nodup := by
    rwa [List.map_map]
  have hs : StrictBy Entry.path ((sortBy Inode.path l).map Inode.entry) :=
    StrictBy.map (fun _ _ => rfl) (strictBy_sortBy h)
  refine hs.eq_of_mem_iff (strictBy_sortBy hn) fun e => ?_
  simp

/-- Sorting the inodes, and giving them their digests. -/
theorem map_apply_sortBy (L : Index) (hs : Hashes) :
    (sortBy Inode.path L.inodes).map hs.apply = sortBy Inode.path (L.inodes.map hs.apply) := by
  have hn : ((L.inodes.map hs.apply).map Inode.path).Nodup := by
    rw [List.map_map]
    exact L.nodup_paths
  have hs' : StrictBy Inode.path ((sortBy Inode.path L.inodes).map hs.apply) :=
    StrictBy.map (fun _ _ => rfl) (strictBy_sortBy L.nodup_paths)
  refine hs'.eq_of_mem_iff (strictBy_sortBy hn) fun i => ?_
  simp

/-- **Reading an index back, sorted**, gives the records of the sorted index. -/
theorem sort_indexFromTree (henc : L.Encodable hs) (hst : L.Stored hs st) (sched : Schedule)
    {fuel : ℕ} (hfuel : L.levels ≤ fuel) :
    ∃ l, indexFromTree st sched fuel (hs []) = some (.ok l) ∧
      (sortBy Inode.path l).map Inode.entry =
        ((sortBy Inode.path L.inodes).map hs.apply).map Inode.entry := by
  obtain ⟨l, hl, hperm⟩ := indexFromTree_perm henc hst sched hfuel
  have hpaths : (L.inodes.map fun c => (hs.apply c).entry).map Entry.path =
      L.inodes.map Inode.path := by
    rw [List.map_map]
    rfl
  have hlp : (l.map Inode.path).Nodup := by
    have h := (hperm.map Entry.path).nodup_iff.mpr (by rw [hpaths]; exact L.nodup_paths)
    rwa [List.map_map] at h
  refine ⟨l, hl, ?_⟩
  have hn : ((L.inodes.map hs.apply).map Inode.path).Nodup := by
    rw [List.map_map]
    exact L.nodup_paths
  rw [map_apply_sortBy, map_entry_sortBy hlp, map_entry_sortBy hn]
  refine sortBy_eq_of_perm (by rwa [List.map_map]) ?_
  rw [List.map_map]
  exact hperm

end Index

end Fstree
