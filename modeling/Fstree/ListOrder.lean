import Fstree.Foundations.LevelOrder
import Fstree.Pull

/-!
# The order in which trees are listed

`cache::index_from_tree` and `cache::pull` append to `_inodes` level by level: a level of the tree
is there before the next one is read (`Fstree.indexFromTree_levels`, `Fstree.pull_byLevel`). Within
a level the workers append in any order.

What a level is depends on the tree objects that may be read, which are those in the cache and, for
a pull, what the remote may answer (`Fstree.held`). The list is in the order of the paths if each
level of that tree is before the next one, and the workers of one level append in turn, and after
`index_from_tree` only then (`Fstree.indexFromTree_strictBy_iff`). For the levels this means that
what is beside a directory with entries, or beside its parents, is before them: a name after that
of the directory has to go on from it with a byte that is before the slash.
-/

namespace Fstree

open LevelOrder Pool SortedBy Transition

/-! ### The tree that is read -/

/-- **The tree objects that may be read**: what is in the cache, or what the remote may answer to a
request whose answer would be put there. -/
def held (st : Store) (remote : Digest → Bytes → Prop) (hash : Digest) (object : Bytes) : Prop :=
  st (treePath hash) = some object ∨ st (treePath hash) = none ∧
    ∃ asked, treePath asked = treePath hash ∧ remote asked object

/-- Nothing can be asked. -/
def noRemote : Digest → Bytes → Prop := fun _ _ => False

/-- **An entry of a directory**, in one of the tree objects that may be read. -/
def EntryOf (source : Digest → Bytes → Prop) (tree c : Inode) : Prop :=
  ∃ object children, source tree.hash object ∧ decodeTree tree.path object = (children, none) ∧
    c ∈ children

/-- The entries of a directory are its children. -/
def ChildOf (source : Digest → Bytes → Prop) (d c : Inode) : Prop :=
  d.isDirectory = true ∧ EntryOf source d c

/-- **An inode of a level of the tree** under a digest. -/
abbrev TreeLevel (source : Digest → Bytes → Prop) (hash : Digest) : ℕ → Inode → Prop :=
  AtLevel (EntryOf source (rootInode hash)) (ChildOf source)

/-- **Each level of the tree under a digest is before the next**, in the order of the paths. -/
def TreeInOrder (source : Digest → Bytes → Prop) (hash : Digest) : Prop :=
  LevelsInOrder (EntryOf source (rootInode hash)) (ChildOf source) Inode.path

/-- **The workers of each level append in turn**, each inode after those of its level with smaller
paths. -/
def AppendedInTurn (source : Digest → Bytes → Prop) (hash : Digest) (appended : List Inode) :
    Prop :=
  InTurn (EntryOf source (rootInode hash)) (ChildOf source) Inode.path appended

/-- What the directories of a level have in them is on it. -/
def HoldsLevel (source : Digest → Bytes → Prop) (hash : Digest) (n : ℕ) (tree : Inode) : Prop :=
  ∀ c, EntryOf source tree c → TreeLevel source hash n c

section Tree

variable {source : Digest → Bytes → Prop} {hash : Digest} {st : Store}
  {remote : Digest → Bytes → Prop} {t c : Inode} {n : ℕ}

theorem holdsLevel_root : HoldsLevel source hash 0 (rootInode hash) := fun _ h => .top h

theorem holdsLevel_of_treeLevel (ht : TreeLevel source hash n t) (hd : t.isDirectory = true) :
    HoldsLevel source hash (n + 1) t := fun _ h => .child ht ⟨hd, h⟩

/-- Without a remote, the entries are those that are read. -/
theorem entryOf_noRemote : EntryOf (held st noRemote) t c ↔
    ∃ children, readTree st t = .ok children ∧ c ∈ children := by
  simp only [EntryOf, held, noRemote, readTree_eq_ok, and_false, exists_false, or_false]
  constructor
  · rintro ⟨object, children, hobject, hdecode, hc⟩
    exact ⟨children, ⟨object, hobject, hdecode⟩, hc⟩
  · rintro ⟨children, ⟨object, hobject, hdecode⟩, hc⟩
    exact ⟨object, children, hobject, hdecode, hc⟩

end Tree

/-! ### Reading a tree from the cache -/

section Load

variable {st : Store} {sched : Schedule} {hash : Digest} {n fuel : ℕ} {ts index l : List Inode}

/-- What the jobs of a level read. -/
theorem mem_readLevel {children : List Inode} (h : readLevel st ts = .ok children) {c : Inode} :
    c ∈ children ↔ ∃ t ∈ ts, EntryOf (held st noRemote) t c := by
  induction ts generalizing children with
  | nil =>
    obtain rfl : [] = children := Except.ok.inj h
    simp
  | cons t ts ih =>
    obtain ⟨cs, rest, hread, hrest, rfl⟩ := readLevel_cons_eq_ok.mp h
    simp [ih hrest, entryOf_noRemote, hread]

/-- The directories a level of the tree is read from. -/
def LevelTrees (st : Store) (hash : Digest) (n : ℕ) (ts : List Inode) : Prop :=
  ∀ c, TreeLevel (held st noRemote) hash n c ↔ ∃ t ∈ ts, EntryOf (held st noRemote) t c

theorem levelTrees_root : LevelTrees st hash 0 [rootInode hash] := fun c => by
  constructor
  · rintro ⟨h⟩
    exact ⟨_, List.mem_singleton.mpr rfl, h⟩
  · rintro ⟨t, ht, h⟩
    rw [List.mem_singleton.mp ht] at h
    exact .top h

/-- The directories of a level are what the next one is read from. -/
theorem LevelTrees.next (h : ∀ c, c ∈ l ↔ TreeLevel (held st noRemote) hash n c) :
    LevelTrees st hash (n + 1) (l.filter Inode.isDirectory) := fun c => by
  simp only [List.mem_filter, h]
  constructor
  · rintro (_ | ⟨ht, hd, hc⟩)
    exact ⟨_, ⟨ht, hd⟩, hc⟩
  · rintro ⟨t, ⟨ht, hd⟩, hc⟩
    exact .child ht ⟨hd, hc⟩

/-- Below a level that is read from no directory there is none. -/
theorem LevelTrees.not_treeLevel (h : LevelTrees st hash n []) (k : ℕ) (c : Inode) :
    ¬ TreeLevel (held st noRemote) hash (n + k) c := by
  induction k generalizing c with
  | zero => simpa using (h c).mp
  | succ k ih =>
    rintro (_ | ⟨ht, -⟩)
    exact ih _ ht

/-- **The loop appends the levels**, one after the other. -/
theorem readLevels_levels (hts : LevelTrees st hash n ts)
    (h : readLevels st sched fuel n ts index = some (.ok l)) :
    ∃ blocks, l = index ++ blocks.flatten ∧
      Levels (EntryOf (held st noRemote) (rootInode hash)) (ChildOf (held st noRemote)) n
        blocks := by
  induction fuel generalizing n ts index with
  | zero =>
    cases ts with
    | nil =>
      obtain rfl : index = l := by simpa [readLevels] using h
      exact ⟨[], by simp, fun k c => by simpa using hts.not_treeLevel k c⟩
    | cons t ts => simp [readLevels] at h
  | succ fuel ih =>
    cases ts with
    | nil =>
      obtain rfl : index = l := by simpa [readLevels] using h
      exact ⟨[], by simp, fun k c => by simpa using hts.not_treeLevel k c⟩
    | cons t ts =>
      rw [readLevels] at h
      cases hread : readLevel st (t :: ts) with
      | error e => simp [hread] at h
      | ok children =>
        rw [hread] at h
        have hlevel : ∀ c, c ∈ sched.order n children ↔
            TreeLevel (held st noRemote) hash n c := fun c => by
          rw [(sched.perm n children).mem_iff, mem_readLevel hread, hts c]
        obtain ⟨blocks, rfl, hblocks⟩ := ih (LevelTrees.next hlevel) h
        refine ⟨sched.order n children :: blocks, by simp, fun k c => ?_⟩
        cases k with
        | zero => simpa using (hlevel c).symm
        | succ k =>
          rw [List.getElem?_cons_succ, ← hblocks k c, Nat.add_assoc, Nat.add_comm 1 k]

/-- **An index that is loaded is made of the levels of the tree.** -/
theorem indexFromTree_levels (h : indexFromTree st sched fuel hash = some (.ok l)) :
    ∃ blocks, l = blocks.flatten ∧
      Levels (EntryOf (held st noRemote) (rootInode hash)) (ChildOf (held st noRemote)) 0
        blocks := by
  simpa using readLevels_levels levelTrees_root h

/-- **An index that is loaded is sorted** if and only if each level of the tree is before the next,
and the workers of each level append in turn. -/
theorem indexFromTree_strictBy_iff (h : indexFromTree st sched fuel hash = some (.ok l)) :
    StrictBy Inode.path l ↔
      TreeInOrder (held st noRemote) hash ∧ AppendedInTurn (held st noRemote) hash l := by
  obtain ⟨blocks, rfl, hblocks⟩ := indexFromTree_levels h
  exact strictBy_flatten_iff hblocks

end Load

/-! ### Pulling a tree -/

section Pull

variable {remote : Digest → Bytes → Prop} {st st₀ : Store} {hash : Digest} {n : ℕ}
  {σ τ : PullState} {j : PullJob} {e : PullEffect}

/-- The level a job is about: that of the trees it reads has their entries on it, and the inodes it
appends are on it. -/
def PullJob.OfLevel (source : Digest → Bytes → Prop) (hash : Digest) (n : ℕ) : PullJob → Prop
  | tree t | askTree t | readTree t => HoldsLevel source hash n t
  | treeRead _ cs | walk cs => ∀ c ∈ cs, TreeLevel source hash n c
  | route c todo => ∀ c' ∈ c :: todo, TreeLevel source hash n c'
  | _ => True

/-- The level the calling thread is about. -/
def PullMain.OfLevel (source : Digest → Bytes → Prop) (hash : Digest) (n : ℕ) : PullMain → Prop
  | fetching todo => ∀ t ∈ todo, HoldsLevel source hash n t
  | listing todo => ∀ cs ∈ todo, ∀ c ∈ cs, TreeLevel source hash n c
  | _ => True

/-- **A pull is at a level**: its jobs are about it, and nothing of a later one is listed. -/
structure PullState.AtLevel (source : Digest → Bytes → Prop) (hash : Digest) (n : ℕ)
    (σ : PullState) : Prop where
  jobs : ∀ j ∈ σ.jobs, j.OfLevel source hash n
  main : σ.main.OfLevel source hash n
  newTrees : (∃ todo, σ.main = .listing todo) →
    ∀ t ∈ σ.newTrees, HoldsLevel source hash (n + 1) t
  inodes : ∀ i ∈ σ.inodes, ∃ m ≤ n, TreeLevel source hash m i
  byLevel : ByLevel (EntryOf source (rootInode hash)) (ChildOf source) σ.inodes

/-- What is at the path of a tree object is what may be read there. -/
theorem PullStoreInv.held (hi : PullStoreInv remote st₀ σ) {h : Digest} {b : Bytes}
    (hb : σ.store (treePath h) = some b) : held st₀ remote h b := by
  rcases hi.answered _ _ hb with h₀ | ⟨asked, hremote, hp | hp⟩
  · exact Or.inl h₀
  · exact absurd hp.symm (filePath_ne_treePath asked h)
  · cases h₀ : st₀ (treePath h) with
    | none => exact Or.inr ⟨h₀, asked, hp.symm, hremote⟩
    | some b₀ =>
      have he := hi.kept _ _ h₀
      rw [hb] at he
      exact Or.inl (h₀.trans he.symm)

/-- **A step of a job stays on its level**, and what it appends is there; what it leaves to the next
level has its entries there. -/
theorem PullJobStep.ofLevel {source : Digest → Bytes → Prop}
    (hst : ∀ h b, st (treePath h) = some b → source h b) (hs : PullJobStep remote st j e)
    (hj : j.OfLevel source hash n) :
    e.job.OfLevel source hash n ∧ (∀ k ∈ e.spawned, k.OfLevel source hash n) ∧
      (∀ t ∈ e.newTrees, HoldsLevel source hash (n + 1) t) ∧
      (e.inodes = [] ∨ ∃ c, e.inodes = [c] ∧ TreeLevel source hash n c) := by
  cases hs with
  | treePresent | treeMissing | treeArrives => exact ⟨hj, by simp, by simp, Or.inl rfl⟩
  | treeIsRead hread =>
    obtain ⟨object, hobject, hdecode⟩ := readTree_eq_ok.mp hread
    exact ⟨fun c hc => hj c ⟨object, _, hst _ _ hobject, hdecode, hc⟩, by simp, by simp, Or.inl rfl⟩
  | append => exact ⟨hj, by simp, by simp, Or.inr ⟨_, rfl, hj _ List.mem_cons_self⟩⟩
  | passLink =>
    exact ⟨fun c hc => hj c (List.mem_cons_of_mem _ hc), by simp, by simp, Or.inl rfl⟩
  | pushTree hlink hdir =>
    refine ⟨fun c hc => hj c (List.mem_cons_of_mem _ hc), by simp, fun t ht => ?_, Or.inl rfl⟩
    rw [List.mem_singleton.mp ht]
    exact holdsLevel_of_treeLevel (hj _ List.mem_cons_self) hdir
  | enqueueObject =>
    refine ⟨fun c hc => hj c (List.mem_cons_of_mem _ hc), fun k hk => ?_, by simp, Or.inl rfl⟩
    rw [List.mem_singleton.mp hk]
    trivial
  | _ => exact ⟨trivial, by simp, by simp, Or.inl rfl⟩

/-- **The step of a job keeps a pull at its level.** -/
theorem PullState.AtLevel.job {source : Digest → Bytes → Prop} (h : σ.AtLevel source hash n)
    (hst : ∀ h b, σ.store (treePath h) = some b → source h b) {l r : List PullJob}
    (hjobs : σ.jobs = l ++ j :: r) (hstep : PullJobStep remote σ.store j e) :
    PullState.AtLevel source hash n { σ with
      store := e.store
      inodes := σ.inodes ++ e.inodes
      newTrees := σ.newTrees ++ e.newTrees
      jobs := (l ++ e.job :: r) ++ e.spawned
      wg := (σ.wg.settle e.job.outcome).add e.spawned.length } := by
  have hall := h.jobs
  rw [hjobs, List.forall_mem_append, List.forall_mem_cons] at hall
  obtain ⟨hl, hj, hr⟩ := hall
  obtain ⟨hjob, hspawned, hnew, hinodes⟩ := hstep.ofLevel hst hj
  refine ⟨?_, h.main, fun hm => ?_, ?_, ?_⟩
  · exact List.forall_mem_append.mpr
      ⟨List.forall_mem_append.mpr ⟨hl, List.forall_mem_cons.mpr ⟨hjob, hr⟩⟩, hspawned⟩
  · exact List.forall_mem_append.mpr ⟨h.newTrees hm, hnew⟩
  · rcases hinodes with he | ⟨c, he, hc⟩
    · simpa [he] using h.inodes
    · simp only [he]
      exact List.forall_mem_append.mpr ⟨h.inodes, by simpa using ⟨n, le_rfl, hc⟩⟩
  · rcases hinodes with he | ⟨c, he, hc⟩
    · simpa [he] using h.byLevel
    · simp only [he]
      exact h.byLevel.concat h.inodes hc

/-- **A step keeps a pull at its level, or takes it to the next.** -/
theorem PullState.AtLevel.step {source : Digest → Bytes → Prop} (h : σ.AtLevel source hash n)
    (hst : ∀ h b, σ.store (treePath h) = some b → source h b) (hs : PullStep remote σ τ) :
    ∃ n, τ.AtLevel source hash n := by
  have hmain' := h.main
  cases hs with
  | job hjobs hstep => exact ⟨n, h.job hst hjobs hstep⟩
  | enqueueTree hmain =>
    rw [hmain] at hmain'
    obtain ⟨ht, htodo⟩ := List.forall_mem_cons.mp hmain'
    exact ⟨n, List.forall_mem_append.mpr ⟨h.jobs, List.forall_mem_singleton.mpr ht⟩, htodo,
      by simp, h.inodes, h.byLevel⟩
  | treesRead hmain =>
    refine ⟨n, by simp, fun cs hcs => ?_, by simp, h.inodes, h.byLevel⟩
    obtain ⟨j, hj, hjcs⟩ := List.mem_filterMap.mp hcs
    have hjob := h.jobs j hj
    cases j with
    | treeRead t children =>
      obtain rfl := Option.some.inj hjcs
      exact hjob
    | _ => cases hjcs
  | enqueueWalk hmain =>
    rw [hmain] at hmain'
    obtain ⟨hcs, htodo⟩ := List.forall_mem_cons.mp hmain'
    exact ⟨n, List.forall_mem_append.mpr ⟨h.jobs, List.forall_mem_singleton.mpr hcs⟩, htodo,
      fun _ => h.newTrees ⟨_, hmain⟩, h.inodes, h.byLevel⟩
  | nextLevel hmain =>
    have hinodes : ∀ i ∈ σ.inodes, ∃ m ≤ n + 1, TreeLevel source hash m i := fun i hi => by
      obtain ⟨m, hm, hat⟩ := h.inodes i hi
      exact ⟨m, hm.trans (Nat.le_succ n), hat⟩
    refine ⟨n + 1, by simp, ?_, ?_, hinodes, h.byLevel⟩
    · by_cases hnew : σ.newTrees = []
      · simp [hnew, PullMain.OfLevel]
      · simpa [hnew, PullMain.OfLevel] using h.newTrees ⟨_, hmain⟩
    · rintro ⟨todo, hm⟩
      by_cases hnew : σ.newTrees = [] <;> simp [hnew] at hm
  | rethrow => exact ⟨n, h.jobs, trivial, by simp, h.inodes, h.byLevel⟩

theorem atLevel_start {source : Digest → Bytes → Prop} :
    (PullState.start st hash).AtLevel source hash 0 where
  jobs _ hj := by cases hj
  main t ht := by
    rw [List.mem_singleton.mp ht]
    exact holdsLevel_root
  newTrees _ _ ht := by cases ht
  inodes _ hi := by cases hi
  byLevel := List.Pairwise.nil

/-- **A pull appends level by level.** -/
theorem pull_byLevel (hrun : Reaches (PullStep remote) (PullState.start st hash) σ) :
    ByLevel (EntryOf (held st remote) (rootInode hash)) (ChildOf (held st remote)) σ.inodes := by
  have hstep : ∀ u v, (PullStoreInv remote st u ∧ ∃ n, u.AtLevel (held st remote) hash n) →
      PullStep remote u v →
      PullStoreInv remote st v ∧ ∃ n, v.AtLevel (held st remote) hash n := by
    rintro u v ⟨hstore, n, hat⟩ hs
    exact ⟨hstore.step hs, hat.step (fun _ _ => hstore.held) hs⟩
  obtain ⟨-, n, hat⟩ := hrun.invariant ⟨pullStoreInv_start, 0, atLevel_start⟩ hstep
  exact hat.byLevel

/-- **An index that is pulled is sorted** if each level of the tree is before the next, and the
workers of each level append in turn. -/
theorem pull_strictBy (hrun : Reaches (PullStep remote) (PullState.start st hash) σ)
    (htree : TreeInOrder (held st remote) hash)
    (hturn : AppendedInTurn (held st remote) hash σ.inodes) : StrictBy Inode.path σ.inodes :=
  (pull_byLevel hrun).strictBy htree hturn

end Pull

end Fstree
