import Fstree.Foundations.Transition
import Fstree.Index
import Fstree.Model.Store

/-!
# Adding an index to the cache

`cache::add` enqueues a job for every file of the index, which digests it if it
is dirty and copies it into the store if its object is missing, and collects the
directories that are dirty or whose tree object is missing. When all jobs have
finished it makes the tree objects of these, in reverse order, and of the root.

It is a transition relation (`Fstree.AddStep`): the loop over the index, the jobs
and the work of the operating system take their steps in any order. A job first
digests, then looks for the object, then copies it, and the copy goes *straight
to the path of the object*: it is truncated when it is opened and grows from
there (`Fstree.Job`). Two files with one digest may be copied to one object at
once, because the lock of the store is held by the process and not by the job.
A tree object is written to a temporary file, digested there, and renamed.

What the calls of the operating system do is not fixed (`Fstree.AddCalls`): a file may change
between two reads, and the temporary file of a tree object may lose bytes when it is closed,
because `create_dirtree` does not look at what `fclose` returns. Where none is lost, the digest of
a directory is that of its tree object (`Fstree.Lossless`).
-/

namespace Fstree

open SortedBy Transition

/-! ### The state of an add -/

/-- **A job of `cache::add`**, for the file at some path. -/
inductive Job
  /-- Not enqueued yet. -/
  | absent
  /-- In the queue of the pool. -/
  | queued
  /-- The inode has a digest. -/
  | hashed
  /-- `has_object` has returned false. -/
  | missing
  /-- `copy_file` has opened its source, which reads as `src`, and its target, and
  has written the first `off` bytes. -/
  | copying (src : Bytes) (off : ℕ)
  /-- `wg.done()` -/
  | done
  /-- `wg.exception()`, from anywhere but the middle of the copy. -/
  | failed
  /-- `wg.exception()`, from the middle of the copy: what was written stays. -/
  | torn
deriving DecidableEq

/-- The wait group does not count the job. -/
def Job.finished : Job → Bool
  | absent | done | failed | torn => true
  | _ => false

/-- The wait group has an exception from the job. -/
def Job.threw : Job → Bool
  | failed | torn => true
  | _ => false

/-- `copy_file` is copying. -/
def Job.isCopying : Job → Bool
  | copying .. => true
  | _ => false

/-- **Where the calling thread is.** -/
inductive AddMain
  /-- In the loop over the index, with the inodes left and the directories pushed
  to `dirty_dirs`. -/
  | scanning (todo : List Inode) (dirtyDirs : List Bytes)
  /-- At the next directory to make a tree object of. -/
  | trees (todo : List Bytes)
  /-- In `create_dirtree`, with a temporary file that holds `tmp` and was digested. -/
  | publishing (p : Bytes) (tmp : Bytes) (todo : List Bytes)
  | returned
  | threw
deriving DecidableEq

/-- **What the calls of a `cache::add` do**: what a file may be read as, by its path; and what may
be left in the temporary file of a tree object when it has been closed, by what was written. The
writes fill the buffer of a `FILE`, and `fclose` writes the rest, which may fail. -/
structure AddCalls where
  reads : Bytes → Bytes → Prop
  leaves : Bytes → Bytes → Prop

/-- No temporary file loses bytes when it is closed. -/
def Lossless (leaves : Bytes → Bytes → Prop) : Prop := ∀ b tmp, leaves b tmp → tmp = b

/-- Of what was written `left` is left, whatever the file. -/
def leaving (left : Bytes → Bytes) (b tmp : Bytes) : Prop := tmp = left b

theorem lossless_leaving : Lossless (leaving id) := fun _ _ h => h

/-- **The state of a `cache::add`.** -/
structure AddState where
  store : Store
  hash : Hashes
  job : Bytes → Job
  main : AddMain

namespace AddState

/-- The path of the object of the file at `p`. -/
def object (σ : AddState) (p : Bytes) : Bytes := filePath (σ.hash p)

/-- All jobs have finished: the count of the wait group is zero. -/
def Idle (σ : AddState) : Prop := ∀ p, (σ.job p).finished = true

end AddState

/-- `pwrite` of one byte: a file that is too short is filled with zeros. -/
def writeByte (b : Bytes) (off : ℕ) (x : Byte) : Bytes :=
  b.take off ++ List.replicate (off - b.length) 0 ++ x :: b.drop (off + 1)

/-- The directory has to be made a tree object of: it is dirty, or its tree
object is missing. -/
def needsTree (st : Store) (h : Digest) : Bool := h.empty || !st.hasTree h

/-- **One step of the job for a file** that reads as one of `read`, on the store,
the digest of the inode and the job itself. -/
inductive JobStep (H : HashFunction) (read : Bytes → Prop) :
    Store × Digest × Job → Store × Digest × Job → Prop
  | rehash {st h b} (hdirty : h.empty = true) (hread : read b) :
      JobStep H read (st, h, .queued) (st, H.sum b, .hashed)
  | clean {st h} (hdirty : h.empty = false) :
      JobStep H read (st, h, .queued) (st, h, .hashed)
  | present {st h} (hobj : st.hasObject h = true) :
      JobStep H read (st, h, .hashed) (st, h, .done)
  | missing {st h} (hobj : st.hasObject h = false) :
      JobStep H read (st, h, .hashed) (st, h, .missing)
  -- `update_existing`: an object that has turned up and is not older is left alone
  | skipCopy {st h} (hobj : st.hasObject h = true) :
      JobStep H read (st, h, .missing) (st, h, .done)
  | openCopy {st h src} (hread : read src) :
      JobStep H read (st, h, .missing) (st.put (filePath h) [], h, .copying src 0)
  | write {st h src off x b} (hsrc : src[off]? = some x) (hobj : st (filePath h) = some b) :
      JobStep H read (st, h, .copying src off)
        (st.put (filePath h) (writeByte b off x), h, .copying src (off + 1))
  | finish {st h src} : JobStep H read (st, h, .copying src src.length) (st, h, .done)
  -- any of the calls a job makes may fail, also in the middle of the copy
  | fail {st h j} (hjob : j.finished = false) (hcopy : j.isCopying = false) :
      JobStep H read (st, h, j) (st, h, .failed)
  | failPermissions {st h src} :
      JobStep H read (st, h, .copying src src.length) (st, h, .failed)
  | tear {st h src off} : JobStep H read (st, h, .copying src off) (st, h, .torn)

/-- **One step of `cache::add`**: of the job of a file, or of the calling thread. -/
inductive AddStep (H : HashFunction) (L : Index) (calls : AddCalls) : AddState → AddState → Prop
  | job {σ : AddState} {p st h j}
      (hstep : JobStep H (calls.reads p) (σ.store, σ.hash p, σ.job p) (st, h, j)) :
      AddStep H L calls σ
        { σ with store := st, hash := σ.hash.set p h, job := Function.update σ.job p j }
  | enqueue {σ : AddState} {i todo dirs} (hmain : σ.main = .scanning (i :: todo) dirs)
      (hfile : i.isFile = true) :
      AddStep H L calls σ
        { σ with job := Function.update σ.job i.path .queued, main := .scanning todo dirs }
  | collect {σ : AddState} {i todo dirs} (hmain : σ.main = .scanning (i :: todo) dirs)
      (hdir : i.isDirectory = true) :
      AddStep H L calls σ { σ with
        main := .scanning todo
          (if needsTree σ.store (σ.hash i.path) then dirs ++ [i.path] else dirs) }
  | skip {σ : AddState} {i todo dirs} (hmain : σ.main = .scanning (i :: todo) dirs)
      (hfile : i.isFile = false) (hdir : i.isDirectory = false) :
      AddStep H L calls σ { σ with main := .scanning todo dirs }
  | wait {σ : AddState} {dirs} (hmain : σ.main = .scanning [] dirs) (hidle : σ.Idle)
      (hok : ∀ p, (σ.job p).threw = false) :
      AddStep H L calls σ { σ with main := .trees (dirs.reverse ++ [[]]) }
  | rethrow {σ : AddState} {dirs p} (hmain : σ.main = .scanning [] dirs) (hidle : σ.Idle)
      (hfailed : (σ.job p).threw = true) :
      AddStep H L calls σ { σ with main := .threw }
  -- `fclose` may fail, and what is in the file then is digested
  | hashTree {σ : AddState} {p tmp todo} (hmain : σ.main = .trees (p :: todo))
      (hclose : calls.leaves (L.tree σ.hash p) tmp) :
      AddStep H L calls σ { σ with
        hash := σ.hash.set p (H.sum tmp)
        main := .publishing p tmp todo }
  -- the temporary file is removed if the tree object is there already
  | publishKnown {σ : AddState} {p tmp todo} (hmain : σ.main = .publishing p tmp todo)
      (hobj : σ.store.hasTree (σ.hash p) = true) :
      AddStep H L calls σ { σ with main := .trees todo }
  | publish {σ : AddState} {p tmp todo} (hmain : σ.main = .publishing p tmp todo)
      (hobj : σ.store.hasTree (σ.hash p) = false) :
      AddStep H L calls σ { σ with
        store := σ.store.put (treePath (σ.hash p)) tmp
        main := .trees todo }
  | failTree {σ : AddState}
      (hmain : (∃ todo, σ.main = .trees todo) ∨ ∃ p tmp todo, σ.main = .publishing p tmp todo) :
      AddStep H L calls σ { σ with main := .threw }
  | return {σ : AddState} (hmain : σ.main = .trees []) :
      AddStep H L calls σ { σ with main := .returned }

/-- Files of a fixed content. -/
def readsAs (content : Bytes → Bytes) (leaves : Bytes → Bytes → Prop) : AddCalls where
  reads p b := b = content p
  leaves := leaves

/-- A `cache::add` of an index begins. -/
def AddState.start (L : Index) (st : Store) (hs : Hashes) : AddState where
  store := st
  hash := hs
  job := fun _ => .absent
  main := .scanning L.inodes []

/-! ### What a job does -/

section Job

variable {H : HashFunction} {read : Bytes → Prop} {st st' : Store} {h h' : Digest} {j j' : Job}

theorem Store.put_isSome {st : Store} {k k' : Bytes} (b : Bytes) (hk : (st k').isSome = true) :
    (st.put k b k').isSome = true := by
  by_cases he : k' = k
  · subst he
    simp
  · rwa [Store.put_of_ne _ he]

/-- A job removes no object. -/
theorem JobStep.isSome (hs : JobStep H read (st, h, j) (st', h', j')) {k : Bytes}
    (hk : (st k).isSome = true) : (st' k).isSome = true := by
  cases hs with
  | openCopy => exact Store.put_isSome _ hk
  | write => exact Store.put_isSome _ hk
  | _ => exact hk

/-- A job does not touch tree objects. -/
theorem JobStep.treePath_eq (hs : JobStep H read (st, h, j) (st', h', j')) (d : Digest) :
    st' (treePath d) = st (treePath d) := by
  have hne : ∀ b, st.put (filePath h) b (treePath d) = st (treePath d) := fun b =>
    st.put_of_ne (filePath_ne_treePath h d).symm b
  cases hs with
  | openCopy => exact hne _
  | write => exact hne _
  | _ => rfl

/-- A job that takes a step has been enqueued, and has not finished. -/
theorem JobStep.not_finished (hs : JobStep H read (st, h, j) (st', h', j')) :
    j.finished = false := by
  cases hs with
  | fail hjob => exact hjob
  | _ => rfl

theorem JobStep.ne_absent (hs : JobStep H read (st, h, j) (st', h', j')) : j' ≠ .absent := by
  cases hs <;> simp

/-- **The digest of a file is settled**: it had one, or it was read and digested. -/
def Settled (H : HashFunction) (read : Bytes → Prop) (before h : Digest) : Prop :=
  before.empty = false ∧ h = before ∨ before.empty = true ∧ ∃ b, read b ∧ h = H.sum b

/-- What holds of a job that began with the digest `before`. -/
def JobInv (H : HashFunction) (read : Bytes → Prop) (before : Digest) :
    Store × Digest × Job → Prop
  | (_, h, .absent) => h = before
  | (_, h, .queued) => h = before
  | (_, _, .failed) => True
  | (_, _, .torn) => True
  | (st, h, .done) => Settled H read before h ∧ st.hasObject h = true
  | (st, h, .copying _ _) => Settled H read before h ∧ st.hasObject h = true
  | (_, h, _) => Settled H read before h

/-- **A step of a job keeps what holds of it.** -/
theorem JobStep.inv {before : Digest} (hs : JobStep H read (st, h, j) (st', h', j'))
    (hi : JobInv H read before (st, h, j)) : JobInv H read before (st', h', j') := by
  cases hs with
  | rehash hdirty hread =>
    obtain rfl : h = before := hi
    exact Or.inr ⟨hdirty, _, hread, rfl⟩
  | clean hdirty =>
    obtain rfl : h = before := hi
    exact Or.inl ⟨hdirty, rfl⟩
  | present hobj => exact ⟨hi, hobj⟩
  | missing => exact hi
  | skipCopy hobj => exact ⟨hi, hobj⟩
  | openCopy => exact ⟨hi, by simp [Store.hasObject]⟩
  | write => exact ⟨hi.1, by simp [Store.hasObject]⟩
  | finish => exact hi
  | fail => trivial
  | failPermissions => trivial
  | tear => trivial

/-- What holds of a job is kept by everything that removes no object. -/
theorem JobInv.mono {before : Digest} (hi : JobInv H read before (st, h, j))
    (hst : ∀ k, (st k).isSome = true → (st' k).isSome = true) :
    JobInv H read before (st', h, j) := by
  cases j with
  | done => exact ⟨hi.1, hst _ hi.2⟩
  | copying => exact ⟨hi.1, hst _ hi.2⟩
  | _ => exact hi

end Job

/-! ### What an add does -/

namespace Index

variable (L : Index)

/-- There is a file at the path. -/
def IsFilePath (p : Bytes) : Prop := ∃ i ∈ L.inodes, i.isFile = true ∧ i.path = p

/-- The directories among some inodes that have to be made tree objects of, when
the add begins. -/
def collected (st : Store) (hs : Hashes) (l : List Inode) : List Bytes :=
  (l.filter fun i => i.isDirectory && needsTree st (hs i.path)).map Inode.path

/-- The directories `cache::add` makes tree objects of, in their order. -/
def rebuilt (st : Store) (hs : Hashes) : List Bytes :=
  (collected st hs L.inodes).reverse ++ [[]]

variable {L}

theorem mem_collected {st : Store} {hs : Hashes} {l : List Inode} {p : Bytes} :
    p ∈ collected st hs l ↔
      ∃ i ∈ l, i.isDirectory = true ∧ needsTree st (hs i.path) = true ∧ i.path = p := by
  simp [collected, and_assoc]

theorem mem_rebuilt {st : Store} {hs : Hashes} {p : Bytes} :
    p ∈ L.rebuilt st hs ↔ p = [] ∨
      ∃ i ∈ L.inodes, i.isDirectory = true ∧ needsTree st (hs i.path) = true ∧ i.path = p := by
  rw [rebuilt, List.mem_append, List.mem_reverse, mem_collected, List.mem_singleton, or_comm]

theorem isFile_of_isDirectory {i : Inode} (h : i.isDirectory = true) : i.isFile = false := by
  have ht : i.status.type = .directory := by simpa [Inode.isDirectory] using h
  simp [Inode.isFile, ht]

end Index

section Add

variable {H : HashFunction} {L : Index} {calls : AddCalls} {leaves : Bytes → Bytes → Prop}
  {st₀ : Store} {hs₀ : Hashes}

/-- **The digest of a directory** is that of what was left of its tree object. -/
def TreeSum (H : HashFunction) (leaves : Bytes → Bytes → Prop) (tree : Bytes) (h : Digest) : Prop :=
  ∃ tmp, leaves tree tmp ∧ h = H.sum tmp

theorem TreeSum.eq {tree : Bytes} {h : Digest} (hs : TreeSum H leaves tree h)
    (hl : Lossless leaves) : h = H.sum tree := by
  obtain ⟨tmp, htmp, rfl⟩ := hs
  rw [hl _ _ htmp]

/-- The tree objects made so far, of the directories `made`. -/
structure Made (H : HashFunction) (L : Index) (leaves : Bytes → Bytes → Prop) (hs₀ : Hashes)
    (made : List Bytes) (st : Store) (hs : Hashes) : Prop where
  objects : ∀ p ∈ made, TreeSum H leaves (L.tree hs p) (hs p) ∧ st.hasTree (hs p) = true
  kept : ∀ p, p ∉ made → ¬ L.IsFilePath p → hs p = hs₀ p

/-- **How directories are collected**: what `C` says of the store, of the inodes that the loop has
gone through and of the directories it has collected. -/
structure Collecting (hs₀ : Hashes) (C : Store → List Inode → List Bytes → Prop) : Prop where
  sublist : ∀ {st seen dirs}, C st seen dirs →
    dirs.Sublist ((seen.filter Inode.isDirectory).map Inode.path)
  pass : ∀ {st seen dirs} {i : Inode}, C st seen dirs → i.isDirectory = false →
    C st (seen ++ [i]) dirs
  look : ∀ {st seen dirs} {i : Inode}, C st seen dirs → i.isDirectory = true →
    C st (seen ++ [i]) (if needsTree st (hs₀ i.path) then dirs ++ [i.path] else dirs)
  /-- File objects have no part in it. -/
  trees : ∀ {st st' seen dirs}, C st seen dirs → (∀ d, st' (treePath d) = st (treePath d)) →
    C st' seen dirs

/-- The store has what `st` has, and some more. -/
def Store.Grows (st st' : Store) : Prop := ∀ k, (st k).isSome = true → (st' k).isSome = true

/-- What was collected when the loop was done. -/
def Collected (C : Store → List Inode → List Bytes → Prop) (L : Index) (st : Store)
    (dirs : List Bytes) : Prop :=
  ∃ st', st'.Grows st ∧ C st' L.inodes dirs

/-- What holds of the calling thread, whatever it collects. -/
def CoreMain (C : Store → List Inode → List Bytes → Prop) (H : HashFunction) (L : Index)
    (leaves : Bytes → Bytes → Prop) (hs₀ : Hashes) (σ : AddState) : AddMain → Prop
  | .scanning todo dirs =>
    (∀ p, ¬ L.IsFilePath p → σ.hash p = hs₀ p) ∧
    (∀ i ∈ todo, i.isFile = true → σ.job i.path = .absent) ∧
    ∃ seen, L.inodes = seen ++ todo ∧ C σ.store seen dirs ∧
      ∀ i ∈ seen, i.isFile = true → σ.job i.path ≠ .absent
  | .trees todo =>
    (∀ i ∈ L.inodes, i.isFile = true → σ.job i.path = .done) ∧
    ∃ dirs made, Collected C L σ.store dirs ∧ dirs.reverse ++ [[]] = made ++ todo ∧
      Made H L leaves hs₀ made σ.store σ.hash
  | .publishing p tmp todo =>
    (∀ i ∈ L.inodes, i.isFile = true → σ.job i.path = .done) ∧
    (leaves (L.tree σ.hash p) tmp ∧ σ.hash p = H.sum tmp) ∧
    ∃ dirs made, Collected C L σ.store dirs ∧ dirs.reverse ++ [[]] = made ++ p :: todo ∧
      (∀ q ∈ made, TreeSum H leaves (L.tree σ.hash q) (σ.hash q) ∧
        σ.store.hasTree (σ.hash q) = true) ∧
      ∀ q, q ∉ made → q ≠ p → ¬ L.IsFilePath q → σ.hash q = hs₀ q
  | .returned =>
    (∀ i ∈ L.inodes, i.isFile = true → σ.job i.path = .done) ∧
    ∃ dirs, Collected C L σ.store dirs ∧ Made H L leaves hs₀ (dirs.reverse ++ [[]]) σ.store σ.hash
  | .threw => True

/-- **What holds throughout an add** from the digests `hs₀`, whatever it collects. -/
structure AddCore (C : Store → List Inode → List Bytes → Prop) (H : HashFunction) (L : Index)
    (calls : AddCalls) (hs₀ : Hashes) (σ : AddState) : Prop where
  jobs_file : ∀ p, σ.job p ≠ .absent → L.IsFilePath p
  jobs : ∀ i ∈ L.inodes, i.isFile = true →
    JobInv H (calls.reads i.path) (hs₀ i.path) (σ.store, σ.hash i.path, σ.job i.path)
  main : CoreMain C H L calls.leaves hs₀ σ σ.main

section Core

variable {C : Store → List Inode → List Bytes → Prop}

theorem Store.Grows.trans {st st' st'' : Store} (h : st.Grows st') (h' : st'.Grows st'') :
    st.Grows st'' := fun k hk => h' k (h k hk)

theorem Collected.mono {st st' : Store} {dirs : List Bytes} (h : Collected C L st dirs)
    (hst : st.Grows st') : Collected C L st' dirs := by
  obtain ⟨st₁, hgrow, hC⟩ := h
  exact ⟨st₁, hgrow.trans hst, hC⟩

/-- What was collected is made in an order in which children come before their parents, and no
directory twice. -/
theorem pairwise_collected {dirs : List Bytes}
    (h : dirs.Sublist ((L.inodes.filter Inode.isDirectory).map Inode.path)) :
    (dirs.reverse ++ [[]]).Pairwise fun p q =>
      p ≠ q ∧ ∀ c ∈ L.inodes, c.parent = some p → c.path ≠ q := by
  rw [List.pairwise_append]
  refine ⟨List.pairwise_reverse.mpr (List.Pairwise.sublist h (List.pairwise_map.mpr ?_)),
    List.pairwise_singleton _ _, ?_⟩
  · refine (List.Pairwise.and_mem.mp (L.parents_first.and
      (List.pairwise_map.mp L.nodup_paths))).filter _ |>.imp ?_
    rintro i j ⟨hi, -, hp, hne⟩
    refine ⟨Ne.symm hne, fun c hc hcp hpath => hp ?_⟩
    rw [← L.eq_of_path_eq hc hi hpath, hcp]
  · intro p hp q hq
    obtain rfl : q = [] := by simpa using hq
    obtain ⟨i, hi, rfl⟩ := List.mem_map.mp (h.subset (List.mem_reverse.mp hp))
    exact ⟨L.path_ne_nil (List.mem_of_mem_filter hi), fun c hc _ => L.path_ne_nil hc⟩

/-- What was collected are directories, and no files. -/
theorem not_isFilePath_of_mem_collected {dirs : List Bytes} {p : Bytes}
    (h : dirs.Sublist ((L.inodes.filter Inode.isDirectory).map Inode.path))
    (hp : p ∈ dirs.reverse ++ [[]]) : ¬ L.IsFilePath p := by
  rintro ⟨i, hi, hf, rfl⟩
  rcases List.mem_append.mp hp with hp | hp
  · obtain ⟨j, hj, hjp⟩ := List.mem_map.mp (h.subset (List.mem_reverse.mp hp))
    obtain ⟨hj, hd⟩ := List.mem_filter.mp hj
    rw [L.eq_of_path_eq hj hi hjp] at hd
    rw [Index.isFile_of_isDirectory hd] at hf
    cases hf
  · exact L.path_ne_nil hi (List.mem_singleton.mp hp)

/-- The digest of one more directory is set: those made before keep theirs, since
none of their children is this directory. -/
theorem Made.set {made todo order : List Bytes} {p : Bytes} {st : Store} {hs : Hashes}
    (hm : Made H L leaves hs₀ made st hs)
    (hpair : order.Pairwise fun p q => p ≠ q ∧ ∀ c ∈ L.inodes, c.parent = some p → c.path ≠ q)
    (hr : order = made ++ p :: todo) (h : Digest) :
    (∀ q ∈ made, TreeSum H leaves (L.tree (hs.set p h) q) (hs.set p h q) ∧
      st.hasTree (hs.set p h q) = true) ∧
    L.tree (hs.set p h) p = L.tree hs p := by
  rw [hr, List.pairwise_append] at hpair
  refine ⟨fun q hq => ?_, L.tree_congr fun c hc hcp => hs.set_of_ne ?_ h⟩
  · obtain ⟨hne, hchild⟩ := hpair.2.2 q hq p (by simp)
    rw [hs.set_of_ne hne, L.tree_congr fun c hc hcq => hs.set_of_ne (hchild c hc hcq) h]
    exact hm.objects q hq
  · intro he
    have hlen := L.parent_length_lt hc hcp
    rw [he] at hlen
    exact lt_irrefl _ hlen

/-- One more directory has its tree object. -/
theorem Made.concat {made : List Bytes} {p : Bytes} {st st' : Store} {hs : Hashes}
    (hmono : st.Grows st')
    (hmade : ∀ q ∈ made, TreeSum H leaves (L.tree hs q) (hs q) ∧ st.hasTree (hs q) = true)
    (hkept : ∀ q, q ∉ made → q ≠ p → ¬ L.IsFilePath q → hs q = hs₀ q)
    (hsum : TreeSum H leaves (L.tree hs p) (hs p)) (hobj : st'.hasTree (hs p) = true) :
    Made H L leaves hs₀ (made ++ [p]) st' hs where
  objects q hq := by
    rcases List.mem_append.mp hq with hq | hq
    · exact ⟨(hmade q hq).1, hmono _ (hmade q hq).2⟩
    · rw [List.mem_singleton.mp hq]
      exact ⟨hsum, hobj⟩
  kept q hq hqf := by
    simp only [List.mem_append, List.mem_singleton, not_or] at hq
    exact hkept q hq.1 hq.2 hqf

theorem Made.mono {made : List Bytes} {st st' : Store} {hs : Hashes}
    (hm : Made H L leaves hs₀ made st hs) (hst : st.Grows st') :
    Made H L leaves hs₀ made st' hs where
  objects q hq := ⟨(hm.objects q hq).1, hst _ (hm.objects q hq).2⟩
  kept := hm.kept

/-- A job that was enqueued and that has finished without an exception is done. -/
theorem Job.eq_done {j : Job} (hqueued : j ≠ .absent) (hfin : j.finished = true)
    (hok : j.threw = false) : j = .done := by
  cases j with
  | done => rfl
  | absent => exact absurd rfl hqueued
  | failed => cases hok
  | torn => cases hok
  | _ => cases hfin

theorem addCore_start {st : Store} (hC : C st [] []) :
    AddCore C H L calls hs₀ (AddState.start L st hs₀) where
  jobs_file _ h := absurd rfl h
  jobs _ _ _ := rfl
  main := ⟨fun _ _ => rfl, fun _ _ _ => rfl, [], rfl, hC, by simp⟩

/-- The step of a job, for the whole add. -/
theorem AddCore.job {σ : AddState} (hi : AddCore C H L calls hs₀ σ) (hC : Collecting hs₀ C)
    {p : Bytes} {st : Store} {h : Digest} {j : Job}
    (hs : JobStep H (calls.reads p) (σ.store, σ.hash p, σ.job p) (st, h, j)) :
    AddCore C H L calls hs₀
      { σ with store := st, hash := σ.hash.set p h, job := Function.update σ.job p j } := by
  have hfile : L.IsFilePath p := hi.jobs_file p fun hn => by
    have hf := hs.not_finished
    rw [hn] at hf
    cases hf
  have hne : ∀ q, q ≠ p → σ.hash.set p h q = σ.hash q ∧ Function.update σ.job p j q = σ.job q :=
    fun q hq => ⟨σ.hash.set_of_ne hq h, Function.update_of_ne hq _ _⟩
  have hnot : ∀ q, ¬ L.IsFilePath q → σ.hash.set p h q = σ.hash q := fun q hq =>
    (hne q fun he => hq (he ▸ hfile)).1
  -- a job takes steps only while the calling thread waits or is still in its loop
  have hdone : ¬ ∀ i ∈ L.inodes, i.isFile = true → σ.job i.path = .done := fun hall => by
    obtain ⟨i, hi', hf, rfl⟩ := hfile
    have hn := hs.not_finished
    rw [hall i hi' hf] at hn
    cases hn
  refine ⟨fun q hq => ?_, fun i hil hf => ?_, ?_⟩
  · by_cases hqp : q = p
    · rwa [hqp]
    · exact hi.jobs_file q (by rwa [← (hne q hqp).2])
  · by_cases hip : i.path = p
    · subst hip
      simpa using hs.inv (hi.jobs i hil hf)
    · simp only [hne _ hip]
      exact (hi.jobs i hil hf).mono fun k hk => hs.isSome hk
  · have hm := hi.main
    cases hmain : σ.main with
    | scanning todo dirs =>
      rw [hmain] at hm
      obtain ⟨hhash, habs, seen, hseen, hdirs, henq⟩ := hm
      refine ⟨fun q hq => ?_, fun i hil hf => ?_, seen, hseen, hC.trees hdirs hs.treePath_eq,
        fun i hil hf => ?_⟩
      · exact (hnot q hq).trans (hhash q hq)
      · have hip : i.path ≠ p := fun he => by
          have hn := hs.not_finished
          rw [← he, habs i hil hf] at hn
          cases hn
        simpa [(hne _ hip).2] using habs i hil hf
      · by_cases hip : i.path = p
        · simpa [hip] using hs.ne_absent
        · simpa [(hne _ hip).2] using henq i hil hf
    | trees todo =>
      rw [hmain] at hm
      exact absurd hm.1 hdone
    | publishing q tmp todo =>
      rw [hmain] at hm
      exact absurd hm.1 hdone
    | returned =>
      rw [hmain] at hm
      exact absurd hm.1 hdone
    | threw => trivial

/-- One more inode of the loop, which is no file. -/
theorem CoreMain.next {σ : AddState} {i : Inode} {todo : List Inode} {dirs dirs' : List Bytes}
    (hm : CoreMain C H L leaves hs₀ σ (.scanning (i :: todo) dirs)) (hfile : i.isFile = false)
    (hdirs : ∀ {seen}, C σ.store seen dirs → σ.hash i.path = hs₀ i.path →
      C σ.store (seen ++ [i]) dirs') :
    CoreMain C H L leaves hs₀ σ (.scanning todo dirs') := by
  obtain ⟨hhash, habs, seen, hseen, hd, henq⟩ := hm
  have hil : i ∈ L.inodes := by simp [hseen]
  have hsame : σ.hash i.path = hs₀ i.path := by
    refine hhash _ ?_
    rintro ⟨k, hk, hf, hp⟩
    rw [L.eq_of_path_eq hk hil hp, hfile] at hf
    cases hf
  refine ⟨hhash, fun k hk hf => habs k (List.mem_cons_of_mem _ hk) hf, seen ++ [i],
    by simpa using hseen, hdirs hd hsame, fun k hk hf => ?_⟩
  rcases List.mem_append.mp hk with hk | hk
  · exact henq k hk hf
  · rw [List.mem_singleton.mp hk, hfile] at hf
    cases hf

/-- The job of the next file is enqueued. -/
theorem AddCore.enqueue {σ : AddState} (hi : AddCore C H L calls hs₀ σ) (hC : Collecting hs₀ C)
    {i : Inode} {todo : List Inode} {dirs : List Bytes}
    (hmain : σ.main = .scanning (i :: todo) dirs) (hfile : i.isFile = true) :
    AddCore C H L calls hs₀ { σ with
      job := Function.update σ.job i.path .queued, main := .scanning todo dirs } := by
  have hm := hi.main
  rw [hmain] at hm
  obtain ⟨hhash, habs, seen, hseen, hdirs, henq⟩ := hm
  have hil : i ∈ L.inodes := by simp [hseen]
  have hne : ∀ k ∈ seen ++ todo, k.path ≠ i.path := by
    have hnd := L.nodup_paths
    rw [hseen, List.map_append, List.map_cons] at hnd
    have hnot := (List.nodup_cons.mp (List.nodup_middle.mp hnd)).1
    rw [← List.map_append] at hnot
    exact fun k hk he => hnot (List.mem_map.mpr ⟨k, hk, he⟩)
  have hjob : ∀ q, q ≠ i.path → Function.update σ.job i.path Job.queued q = σ.job q :=
    fun q hq => Function.update_of_ne hq _ _
  have hd : i.isDirectory = false := by
    cases hd : i.isDirectory with
    | false => rfl
    | true =>
      rw [Index.isFile_of_isDirectory hd] at hfile
      cases hfile
  refine ⟨fun q hq => ?_, fun k hk hf => ?_, ⟨hhash, fun k hk hf => ?_, seen ++ [i],
    by simpa using hseen, hC.pass hdirs hd, fun k hk hf => ?_⟩⟩
  · by_cases hqi : q = i.path
    · exact ⟨i, hil, hfile, hqi.symm⟩
    · exact hi.jobs_file q (by rwa [← hjob q hqi])
  · by_cases hki : k.path = i.path
    · obtain rfl := L.eq_of_path_eq hk hil hki
      have hjob := hi.jobs k hk hf
      rw [habs k (by simp) hf] at hjob
      simp only [Function.update_self]
      exact hjob
    · simpa only [hjob _ hki] using hi.jobs k hk hf
  · simpa only [hjob _ (hne k (by simp [hk]))] using habs k (List.mem_cons_of_mem _ hk) hf
  · rcases List.mem_append.mp hk with hk | hk
    · simpa only [hjob _ (hne k (by simp [hk]))] using henq k hk hf
    · simp [List.mem_singleton.mp hk]

/-- **A step of an add keeps what holds of it.** -/
theorem AddCore.step {σ τ : AddState} (hi : AddCore C H L calls hs₀ σ) (hC : Collecting hs₀ C)
    (hstep : AddStep H L calls σ τ) : AddCore C H L calls hs₀ τ := by
  have hm := hi.main
  cases hstep with
  | job hs => exact hi.job hC hs
  | enqueue hmain hfile => exact hi.enqueue hC hmain hfile
  | @collect i todo dirs hmain hdir =>
    rw [hmain] at hm
    refine ⟨hi.jobs_file, hi.jobs, hm.next (Index.isFile_of_isDirectory hdir) fun hd hsame => ?_⟩
    rw [hsame]
    exact hC.look hd hdir
  | @skip i todo dirs hmain hfile hdir =>
    rw [hmain] at hm
    exact ⟨hi.jobs_file, hi.jobs, hm.next hfile fun hd _ => hC.pass hd hdir⟩
  | @wait dirs hmain hidle hok =>
    rw [hmain] at hm
    obtain ⟨hhash, -, seen, hseen, hdirs, henq⟩ := hm
    obtain rfl : L.inodes = seen := by simpa using hseen
    refine ⟨hi.jobs_file, hi.jobs, fun i hil hf => ?_, dirs, [], ⟨σ.store, fun _ hk => hk, hdirs⟩,
      rfl, ⟨by simp, fun p _ hp => hhash p hp⟩⟩
    exact Job.eq_done (henq i hil hf) (hidle i.path) (hok i.path)
  | rethrow => exact ⟨hi.jobs_file, hi.jobs, trivial⟩
  | @hashTree p tmp todo hmain hclose =>
    rw [hmain] at hm
    obtain ⟨hdone, dirs, made, hdirs, hr, hmade⟩ := hm
    obtain ⟨st', hgrow, hcollected⟩ := hdirs
    have hsub := hC.sublist hcollected
    obtain ⟨hkeep, htree⟩ := hmade.set (pairwise_collected hsub) hr (H.sum tmp)
    have hnot : ¬ L.IsFilePath p := not_isFilePath_of_mem_collected hsub (by rw [hr]; simp)
    refine ⟨hi.jobs_file, fun i hil hf => ?_, hdone, ⟨htree.symm ▸ hclose, by simp⟩, dirs, made,
      ⟨st', hgrow, hcollected⟩, hr, hkeep, fun q hq hqp hqf => ?_⟩
    · have hip : i.path ≠ p := fun he => hnot ⟨i, hil, hf, he⟩
      simpa only [σ.hash.set_of_ne hip] using hi.jobs i hil hf
    · simpa only [σ.hash.set_of_ne hqp] using hmade.kept q hq hqf
  | @publishKnown p tmp todo hmain hobj =>
    rw [hmain] at hm
    obtain ⟨hdone, hsum, dirs, made, hdirs, hr, hmade, hkept⟩ := hm
    exact ⟨hi.jobs_file, hi.jobs, hdone, dirs, made ++ [p], hdirs, by simpa using hr,
      .concat (fun _ hk => hk) hmade hkept ⟨tmp, hsum⟩ hobj⟩
  | @publish p tmp todo hmain hobj =>
    rw [hmain] at hm
    obtain ⟨hdone, hsum, dirs, made, hdirs, hr, hmade, hkept⟩ := hm
    have hmono : σ.store.Grows (σ.store.put (treePath (σ.hash p)) tmp) :=
      fun k hk => Store.put_isSome _ hk
    exact ⟨hi.jobs_file, fun i hil hf => (hi.jobs i hil hf).mono hmono, hdone, dirs, made ++ [p],
      hdirs.mono hmono, by simpa using hr,
      .concat hmono hmade hkept ⟨tmp, hsum⟩ (by simp [Store.hasTree])⟩
  | failTree => exact ⟨hi.jobs_file, hi.jobs, trivial⟩
  | «return» hmain =>
    rw [hmain] at hm
    obtain ⟨hdone, dirs, made, hdirs, hr, hmade⟩ := hm
    rw [List.append_nil] at hr
    exact ⟨hi.jobs_file, hi.jobs, hdone, dirs, hdirs, hr ▸ hmade⟩

/-- **What the others do keeps what holds of an add**, if they remove no object. -/
theorem AddCore.others {σ : AddState} (hi : AddCore C H L calls hs₀ σ) {st : Store}
    (hst : σ.store.Grows st)
    (hC : ∀ {seen dirs}, C σ.store seen dirs → C st seen dirs) :
    AddCore C H L calls hs₀ { σ with store := st } := by
  have hm := hi.main
  refine ⟨hi.jobs_file, fun i hil hf => (hi.jobs i hil hf).mono hst, ?_⟩
  change CoreMain C H L calls.leaves hs₀ { σ with store := st } σ.main
  cases hmain : σ.main with
  | scanning todo dirs =>
    rw [hmain] at hm
    obtain ⟨hhash, habs, seen, hseen, hdirs, henq⟩ := hm
    exact ⟨hhash, habs, seen, hseen, hC hdirs, henq⟩
  | trees todo =>
    rw [hmain] at hm
    obtain ⟨hdone, dirs, made, hdirs, hr, hmade⟩ := hm
    exact ⟨hdone, dirs, made, hdirs.mono hst, hr, hmade.mono hst⟩
  | publishing p tmp todo =>
    rw [hmain] at hm
    obtain ⟨hdone, hsum, dirs, made, hdirs, hr, hmade, hkept⟩ := hm
    exact ⟨hdone, hsum, dirs, made, hdirs.mono hst, hr,
      fun q hq => ⟨(hmade q hq).1, hst _ (hmade q hq).2⟩, hkept⟩
  | returned =>
    rw [hmain] at hm
    obtain ⟨hdone, dirs, hdirs, hmade⟩ := hm
    exact ⟨hdone, dirs, hdirs.mono hst, hmade.mono hst⟩
  | threw => trivial

end Core

/-! ### An add alone -/

/-- What holds of the calling thread. -/
def MainInv (H : HashFunction) (L : Index) (leaves : Bytes → Bytes → Prop) (st₀ : Store)
    (hs₀ : Hashes) (σ : AddState) : AddMain → Prop
  | .scanning todo dirs =>
    (∀ d, σ.store (treePath d) = st₀ (treePath d)) ∧
    (∀ p, ¬ L.IsFilePath p → σ.hash p = hs₀ p) ∧
    (∀ i ∈ todo, i.isFile = true → σ.job i.path = .absent) ∧
    ∃ seen, L.inodes = seen ++ todo ∧ dirs = Index.collected st₀ hs₀ seen ∧
      ∀ i ∈ seen, i.isFile = true → σ.job i.path ≠ .absent
  | .trees todo =>
    (∀ i ∈ L.inodes, i.isFile = true → σ.job i.path = .done) ∧
    ∃ made, L.rebuilt st₀ hs₀ = made ++ todo ∧ Made H L leaves hs₀ made σ.store σ.hash
  | .publishing p tmp todo =>
    (∀ i ∈ L.inodes, i.isFile = true → σ.job i.path = .done) ∧
    (leaves (L.tree σ.hash p) tmp ∧ σ.hash p = H.sum tmp) ∧
    ∃ made, L.rebuilt st₀ hs₀ = made ++ p :: todo ∧
      (∀ q ∈ made, TreeSum H leaves (L.tree σ.hash q) (σ.hash q) ∧
        σ.store.hasTree (σ.hash q) = true) ∧
      ∀ q, q ∉ made → q ≠ p → ¬ L.IsFilePath q → σ.hash q = hs₀ q
  | .returned =>
    (∀ i ∈ L.inodes, i.isFile = true → σ.job i.path = .done) ∧
    Made H L leaves hs₀ (L.rebuilt st₀ hs₀) σ.store σ.hash
  | .threw => True

/-- **What holds throughout an add** of an index to the store `st₀`, from the
digests `hs₀`. -/
structure AddInv (H : HashFunction) (L : Index) (calls : AddCalls) (st₀ : Store)
    (hs₀ : Hashes) (σ : AddState) : Prop where
  present : ∀ k, (st₀ k).isSome = true → (σ.store k).isSome = true
  jobs_file : ∀ p, σ.job p ≠ .absent → L.IsFilePath p
  jobs : ∀ i ∈ L.inodes, i.isFile = true →
    JobInv H (calls.reads i.path) (hs₀ i.path) (σ.store, σ.hash i.path, σ.job i.path)
  main : MainInv H L calls.leaves st₀ hs₀ σ σ.main

theorem addInv_start : AddInv H L calls st₀ hs₀ (AddState.start L st₀ hs₀) where
  present _ h := h
  jobs_file _ h := absurd rfl h
  jobs _ _ _ := rfl
  main := ⟨fun _ => rfl, fun _ _ => rfl, fun _ _ _ => rfl, [], rfl, rfl, by simp⟩

/-- What an add alone collects: the directories that need a tree object when it begins. -/
def CollectedAlone (st₀ : Store) (hs₀ : Hashes) (st : Store) (seen : List Inode)
    (dirs : List Bytes) : Prop :=
  (∀ d, st (treePath d) = st₀ (treePath d)) ∧ dirs = Index.collected st₀ hs₀ seen

theorem collecting_alone (st₀ : Store) (hs₀ : Hashes) :
    Collecting hs₀ (CollectedAlone st₀ hs₀) where
  sublist := by
    rintro st seen dirs ⟨-, rfl⟩
    exact (List.monotone_filter_right _ fun i hi => (Bool.and_eq_true_iff.mp hi).1).map _
  pass := by
    rintro st seen dirs i ⟨htree, rfl⟩ hd
    exact ⟨htree, by simp [Index.collected, hd]⟩
  look := by
    rintro st seen dirs i ⟨htree, rfl⟩ hd
    have hneeds : needsTree st (hs₀ i.path) = needsTree st₀ (hs₀ i.path) := by
      rw [needsTree, needsTree, Store.hasTree, Store.hasTree, htree]
    refine ⟨htree, ?_⟩
    rw [hneeds]
    cases hn : needsTree st₀ (hs₀ i.path) <;> simp [Index.collected, hd, hn]
  trees := by
    rintro st st' seen dirs ⟨htree, rfl⟩ hsame
    exact ⟨fun d => (hsame d).trans (htree d), rfl⟩

/-- **What holds of an add alone**, and what holds of every add. -/
theorem addInv_iff {σ : AddState} : AddInv H L calls st₀ hs₀ σ ↔
    st₀.Grows σ.store ∧ AddCore (CollectedAlone st₀ hs₀) H L calls hs₀ σ := by
  have halone : ∀ {dirs}, st₀.Grows σ.store →
      (Collected (CollectedAlone st₀ hs₀) L σ.store dirs ↔
        dirs = Index.collected st₀ hs₀ L.inodes) := fun hst => by
    constructor
    · rintro ⟨-, -, -, rfl⟩
      rfl
    · rintro rfl
      exact ⟨st₀, hst, fun _ => rfl, rfl⟩
  constructor
  · intro h
    refine ⟨h.present, h.jobs_file, h.jobs, ?_⟩
    have hm := h.main
    cases hmain : σ.main with
    | scanning todo dirs =>
      rw [hmain] at hm
      obtain ⟨htree, hhash, habs, seen, hseen, hdirs, henq⟩ := hm
      exact ⟨hhash, habs, seen, hseen, ⟨htree, hdirs⟩, henq⟩
    | trees todo =>
      rw [hmain] at hm
      obtain ⟨hdone, made, hr, hmade⟩ := hm
      exact ⟨hdone, _, made, (halone h.present).mpr rfl, hr, hmade⟩
    | publishing p tmp todo =>
      rw [hmain] at hm
      obtain ⟨hdone, hsum, made, hr, hmade⟩ := hm
      exact ⟨hdone, hsum, _, made, (halone h.present).mpr rfl, hr, hmade⟩
    | returned =>
      rw [hmain] at hm
      exact ⟨hm.1, _, (halone h.present).mpr rfl, hm.2⟩
    | threw => trivial
  · rintro ⟨hst, h⟩
    refine ⟨hst, h.jobs_file, h.jobs, ?_⟩
    have hm := h.main
    cases hmain : σ.main with
    | scanning todo dirs =>
      rw [hmain] at hm
      obtain ⟨hhash, habs, seen, hseen, ⟨htree, hdirs⟩, henq⟩ := hm
      exact ⟨htree, hhash, habs, seen, hseen, hdirs, henq⟩
    | trees todo =>
      rw [hmain] at hm
      obtain ⟨hdone, dirs, made, hdirs, hr, hmade⟩ := hm
      obtain rfl := (halone hst).mp hdirs
      exact ⟨hdone, made, hr, hmade⟩
    | publishing p tmp todo =>
      rw [hmain] at hm
      obtain ⟨hdone, hsum, dirs, made, hdirs, hr, hmade⟩ := hm
      obtain rfl := (halone hst).mp hdirs
      exact ⟨hdone, hsum, made, hr, hmade⟩
    | returned =>
      rw [hmain] at hm
      obtain ⟨hdone, dirs, hdirs, hmade⟩ := hm
      obtain rfl := (halone hst).mp hdirs
      exact ⟨hdone, hmade⟩
    | threw => trivial

/-- No step removes an object. -/
theorem AddStep.grows {σ τ : AddState} (h : AddStep H L calls σ τ) : σ.store.Grows τ.store := by
  cases h with
  | job hs => exact fun k hk => hs.isSome hk
  | publish => exact fun k hk => Store.put_isSome _ hk
  | _ => exact fun _ hk => hk

/-- **A step of an add alone keeps what holds of it.** -/
theorem AddInv.step {σ τ : AddState} (hi : AddInv H L calls st₀ hs₀ σ)
    (hstep : AddStep H L calls σ τ) : AddInv H L calls st₀ hs₀ τ := by
  obtain ⟨hst, hcore⟩ := addInv_iff.mp hi
  exact addInv_iff.mpr
    ⟨hst.trans hstep.grows, hcore.step (collecting_alone st₀ hs₀) hstep⟩

/-- **What an add that returns has done**, from the store `st₀` and the digests
`hs₀` to `st` and `hs`. -/
structure Added (H : HashFunction) (L : Index) (calls : AddCalls) (st₀ : Store)
    (hs₀ : Hashes) (st : Store) (hs : Hashes) : Prop where
  present : ∀ k, (st₀ k).isSome = true → (st k).isSome = true
  /-- Every file has a digest, and an object under it. -/
  file : ∀ i ∈ L.inodes, i.isFile = true →
    Settled H (calls.reads i.path) (hs₀ i.path) (hs i.path) ∧ st.hasObject (hs i.path) = true
  /-- The root, and every directory that was dirty or had no tree object, has the
  digest of what was left of its tree object, which is there. -/
  made : ∀ p, p ∈ L.rebuilt st₀ hs₀ →
    TreeSum H calls.leaves (L.tree hs p) (hs p) ∧ st.hasTree (hs p) = true
  kept : ∀ p, p ∉ L.rebuilt st₀ hs₀ → ¬ L.IsFilePath p → hs p = hs₀ p

/-- **An add that returns** has digested and stored every file, and made the tree
object of every directory that needed one. -/
theorem added_of_returned {σ : AddState}
    (hrun : Reaches (AddStep H L calls) (AddState.start L st₀ hs₀) σ)
    (hret : σ.main = .returned) : Added H L calls st₀ hs₀ σ.store σ.hash := by
  have hinv : AddInv H L calls st₀ hs₀ σ :=
    hrun.invariant addInv_start fun _ _ hi hs => hi.step hs
  have hm := hinv.main
  rw [hret] at hm
  refine ⟨hinv.present, fun i hil hf => ?_, hm.2.objects, hm.2.kept⟩
  have hj := hinv.jobs i hil hf
  rw [hm.1 i hil hf] at hj
  exact hj

/-- **A tree object that is there stays as it is.** -/
theorem treePath_kept {σ : AddState} {d : Digest} {b : Bytes}
    (hrun : Reaches (AddStep H L calls) (AddState.start L st₀ hs₀) σ)
    (hb : st₀ (treePath d) = some b) : σ.store (treePath d) = some b := by
  induction hrun with
  | refl => exact hb
  | @tail σ τ _ hs hi =>
    cases hs with
    | job hs => exact (hs.treePath_eq d).trans hi
    | @publish p tmp todo hmain hobj =>
      have hne : treePath d ≠ treePath (σ.hash p) := fun he => by
        rw [Store.hasTree, ← he, hi] at hobj
        cases hobj
      exact (σ.store.put_of_ne hne tmp).trans hi
    | _ => exact hi

end Add

/-! ### A single thread -/

/-- The step of a job that reads `content` and meets no error. -/
def advanceJob (H : HashFunction) (content : Bytes) :
    Store × Digest × Job → Option (Store × Digest × Job)
  | (st, h, .queued) => some (st, if h.empty then H.sum content else h, .hashed)
  | (st, h, .hashed) => some (st, h, if st.hasObject h then .done else .missing)
  | (st, h, .missing) => some (st.put (filePath h) [], h, .copying content 0)
  | (st, h, .copying src off) =>
    match src[off]?, st (filePath h) with
    | some x, some b => some (st.put (filePath h) (writeByte b off x), h, .copying src (off + 1))
    | _, _ => if off = src.length then some (st, h, .done) else none
  | _ => none

/-- The step of the calling thread, when no job is left. -/
def advanceMain (H : HashFunction) (L : Index) (left : Bytes → Bytes) (σ : AddState) :
    Option AddState :=
  match σ.main with
  | .scanning (i :: todo) dirs =>
    some { σ with
      job := if i.isFile then Function.update σ.job i.path .queued else σ.job
      main := .scanning todo
        (if i.isDirectory && needsTree σ.store (σ.hash i.path) then dirs ++ [i.path] else dirs) }
  | .scanning [] dirs => some { σ with main := .trees (dirs.reverse ++ [[]]) }
  | .trees (p :: todo) =>
    some { σ with
      hash := σ.hash.set p (H.sum (left (L.tree σ.hash p)))
      main := .publishing p (left (L.tree σ.hash p)) todo }
  | .publishing p tmp todo =>
    some { σ with
      store := if σ.store.hasTree (σ.hash p) then σ.store else σ.store.put (treePath (σ.hash p)) tmp
      main := .trees todo }
  | .trees [] => some { σ with main := .returned }
  | _ => none

/-- **The next step of a single thread** that sees no error: of a job if there is
one left, of the calling thread otherwise. Of the temporary files `left` is left. -/
def advance (H : HashFunction) (L : Index) (content left : Bytes → Bytes) (σ : AddState) :
    Option AddState :=
  match L.inodes.find? fun i => !(σ.job i.path).finished with
  | some i =>
    (advanceJob H (content i.path) (σ.store, σ.hash i.path, σ.job i.path)).map fun s =>
      { σ with store := s.1, hash := σ.hash.set i.path s.2.1
               job := Function.update σ.job i.path s.2.2 }
  | none => if L.inodes.all fun i => !(σ.job i.path).threw then advanceMain H L left σ else none

/-- The first `n` steps of a single thread. -/
def runThread (H : HashFunction) (L : Index) (content left : Bytes → Bytes) :
    ℕ → AddState → AddState
  | 0, σ => σ
  | n + 1, σ =>
    match advance H L content left σ with
    | none => σ
    | some τ => runThread H L content left n τ

section Thread

variable {H : HashFunction} {L : Index} {content left : Bytes → Bytes} {st₀ : Store} {hs₀ : Hashes}
  {σ τ : AddState}

theorem jobStep_of_advanceJob {b : Bytes} {s s' : Store × Digest × Job}
    (h : advanceJob H b s = some s') : JobStep H (fun c => c = b) s s' := by
  obtain ⟨st, d, j⟩ := s
  cases j with
  | queued =>
    obtain rfl := Option.some.inj h
    cases hd : d.empty with
    | true => exact .rehash hd rfl
    | false => exact .clean hd
  | hashed =>
    obtain rfl := Option.some.inj h
    cases hobj : st.hasObject d with
    | true => exact .present hobj
    | false => exact .missing hobj
  | missing =>
    obtain rfl := Option.some.inj h
    exact .openCopy rfl
  | copying src off =>
    simp only [advanceJob] at h
    split at h
    · rename_i x c hx hc
      obtain rfl := Option.some.inj h
      exact .write hx hc
    · split at h
      · rename_i hoff
        obtain rfl := Option.some.inj h
        subst hoff
        exact .finish
      · cases h
  | _ => cases h

/-- **A step of the single thread is a step.** -/
theorem addStep_of_advance (hi : ∀ p, σ.job p ≠ .absent → L.IsFilePath p)
    (h : advance H L content left σ = some τ) :
    AddStep H L (readsAs content (leaving left)) σ τ := by
  rw [advance] at h
  split at h
  · obtain ⟨s, hs, rfl⟩ := Option.map_eq_some_iff.mp h
    exact .job (jobStep_of_advanceJob hs)
  · rename_i hnone
    split at h
    · rename_i hall
      have hidle : σ.Idle := fun p => by
        by_cases hp : σ.job p = .absent
        · rw [hp]
          rfl
        · obtain ⟨i, hil, -, rfl⟩ := hi p hp
          simpa using List.find?_eq_none.mp hnone i hil
      have hok : ∀ p, (σ.job p).threw = false := fun p => by
        by_cases hp : σ.job p = .absent
        · rw [hp]
          rfl
        · obtain ⟨i, hil, -, rfl⟩ := hi p hp
          simpa using List.all_eq_true.mp hall i hil
      rw [advanceMain] at h
      cases hmain : σ.main with
      | scanning todo dirs =>
        rw [hmain] at h
        cases todo with
        | nil =>
          obtain rfl := Option.some.inj h
          exact .wait hmain hidle hok
        | cons i todo =>
          obtain rfl := Option.some.inj h
          by_cases hf : i.isFile = true
          · have hd : i.isDirectory = false := by
              cases hd : i.isDirectory with
              | false => rfl
              | true =>
                rw [Index.isFile_of_isDirectory hd] at hf
                cases hf
            simp only [hf, hd, if_true, Bool.false_and, Bool.false_eq_true, if_false]
            exact .enqueue hmain hf
          · have hf' : i.isFile = false := by simpa using hf
            cases hd : i.isDirectory with
            | true =>
              simp only [hf', Bool.true_and, Bool.false_eq_true, if_false]
              exact .collect hmain hd
            | false =>
              simp only [hf', Bool.false_and, Bool.false_eq_true, if_false]
              exact .skip hmain hf' hd
      | trees todo =>
        rw [hmain] at h
        cases todo with
        | nil =>
          obtain rfl := Option.some.inj h
          exact .return hmain
        | cons p todo =>
          obtain rfl := Option.some.inj h
          exact .hashTree hmain rfl
      | publishing p tmp todo =>
        rw [hmain] at h
        obtain rfl := Option.some.inj h
        cases hobj : σ.store.hasTree (σ.hash p) with
        | true => exact .publishKnown hmain hobj
        | false => exact .publish hmain hobj
      | returned =>
        rw [hmain] at h
        cases h
      | threw =>
        rw [hmain] at h
        cases h
    · cases h

/-- **A single thread makes a run**, from wherever an add is. -/
theorem reaches_runThread_of {C : Store → List Inode → List Bytes → Prop} (hC : Collecting hs₀ C)
    (n : ℕ) (hi : AddCore C H L (readsAs content (leaving left)) hs₀ σ) :
    Reaches (AddStep H L (readsAs content (leaving left))) σ (runThread H L content left n σ) := by
  induction n generalizing σ with
  | zero => exact Relation.ReflTransGen.refl
  | succ n ih =>
    rw [runThread]
    cases ha : advance H L content left σ with
    | none => exact Relation.ReflTransGen.refl
    | some τ =>
      have hs := addStep_of_advance hi.jobs_file ha
      exact Relation.ReflTransGen.head hs (ih (hi.step hC hs))

theorem reaches_runThread (n : ℕ) :
    Reaches (AddStep H L (readsAs content (leaving left))) (AddState.start L st₀ hs₀)
      (runThread H L content left n (AddState.start L st₀ hs₀)) :=
  reaches_runThread_of (collecting_alone st₀ hs₀) n (addInv_iff.mp addInv_start).2

end Thread

end Fstree
