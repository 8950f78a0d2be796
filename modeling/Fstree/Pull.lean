import Fstree.Foundations.Pool
import Fstree.Foundations.Transition
import Fstree.ReadTree

/-!
# Pulling a tree from a remote

`cache::pull` works level by level, with two phases for each level. First a job for
every tree of the level gets the tree object from the remote, unless it is in the
cache, and reads it. When all of them have ended, a job for every tree goes through
its children: it appends each to the index, then passes a symlink over, appends a
directory to the next level, and enqueues one more job for anything else, which gets
the object of the file. All jobs share one wait group, also those that jobs enqueue.

It is a transition relation (`Fstree.PullStep`): the jobs and the calling thread
take their steps in any order. What the remote returns is a relation between a digest
and bytes, so that it may answer the same request in different ways; the answer is
written to a temporary file, which is renamed to the path of the object. Nobody looks
at what it is: an object that a pull has added is an answer to the request for it
(`Fstree.PullState.Answered`), and no more.
-/

namespace Fstree

open Pool Transition

/-! ### The state of a pull -/

/-- **A job of `cache::pull`.** -/
inductive PullJob
  /-- `pull_tree` looks for the tree object. -/
  | tree (t : Inode)
  /-- It is not there, and the remote is asked for it. -/
  | askTree (t : Inode)
  /-- `read_tree` reads it. -/
  | readTree (t : Inode)
  /-- The children have been read: `wg.done()`. -/
  | treeRead (t : Inode) (children : List Inode)
  /-- The children of a tree that are left. -/
  | walk (todo : List Inode)
  /-- A child has been appended to the index. -/
  | route (c : Inode) (todo : List Inode)
  | walked
  /-- `pull_object` looks for the object. -/
  | object (h : Digest)
  | askObject (h : Digest)
  | objectThere (h : Digest)
  /-- `wg.exception()` -/
  | failed
deriving DecidableEq

/-- What the wait group knows of a job. -/
def PullJob.outcome : PullJob → Outcome
  | treeRead .. | walked | objectThere _ => .done
  | failed => .failed
  | _ => .running

/-- What one step of a job does: to the store, to itself, and what it appends to the
index, to the list of trees of the next level, and to the queue of the pool. -/
structure PullEffect where
  store : Store
  job : PullJob
  inodes : List Inode := []
  newTrees : List Inode := []
  spawned : List PullJob := []

/-- **One step of a job**, with the store it finds. -/
inductive PullJobStep (remote : Digest → Bytes → Prop) (st : Store) : PullJob → PullEffect → Prop
  | treePresent {t} (hobj : st.hasTree t.hash = true) :
      PullJobStep remote st (.tree t) { store := st, job := .readTree t }
  | treeMissing {t} (hobj : st.hasTree t.hash = false) :
      PullJobStep remote st (.tree t) { store := st, job := .askTree t }
  | treeArrives {t b} (hremote : remote t.hash b) :
      PullJobStep remote st (.askTree t)
        { store := st.put (treePath t.hash) b, job := .readTree t }
  | treeIsRead {t children} (hread : readTree st t = .ok children) :
      PullJobStep remote st (.readTree t) { store := st, job := .treeRead t children }
  -- any of the calls may throw, and reading throws if the tree object is malformed
  | treeFails {j} (hjob : ∃ t, j = .tree t ∨ j = .askTree t ∨ j = .readTree t) :
      PullJobStep remote st j { store := st, job := .failed }
  | append {c todo} :
      PullJobStep remote st (.walk (c :: todo))
        { store := st, job := .route c todo, inodes := [c] }
  | passLink {c todo} (hlink : c.isSymlink = true) :
      PullJobStep remote st (.route c todo) { store := st, job := .walk todo }
  | pushTree {c todo} (hlink : c.isSymlink = false) (hdir : c.isDirectory = true) :
      PullJobStep remote st (.route c todo) { store := st, job := .walk todo, newTrees := [c] }
  | enqueueObject {c todo} (hlink : c.isSymlink = false) (hdir : c.isDirectory = false) :
      PullJobStep remote st (.route c todo)
        { store := st, job := .walk todo, spawned := [.object c.hash] }
  | walked : PullJobStep remote st (.walk []) { store := st, job := .walked }
  | objectPresent {h} (hobj : st.hasObject h = true) :
      PullJobStep remote st (.object h) { store := st, job := .objectThere h }
  | objectMissing {h} (hobj : st.hasObject h = false) :
      PullJobStep remote st (.object h) { store := st, job := .askObject h }
  | objectArrives {h b} (hremote : remote h b) :
      PullJobStep remote st (.askObject h)
        { store := st.put (filePath h) b, job := .objectThere h }
  | objectFails {j} (hjob : ∃ h, j = .object h ∨ j = .askObject h) :
      PullJobStep remote st j { store := st, job := .failed }

/-- **Where the calling thread is.** -/
inductive PullMain
  /-- In the first phase of a level, with the trees left to enqueue. -/
  | fetching (todo : List Inode)
  /-- In the second phase, with the children of the trees left to enqueue. -/
  | listing (todo : List (List Inode))
  | returned
  | threw
deriving DecidableEq

/-- **The state of a `cache::pull`.** -/
structure PullState where
  store : Store
  /-- `_inodes` of the index. -/
  inodes : List Inode
  newTrees : List Inode
  jobs : List PullJob
  wg : WaitGroup
  main : PullMain

/-- The children a job of the first phase has read. -/
def PullJob.children? : PullJob → Option (List Inode)
  | treeRead _ children => some children
  | _ => none

/-- **One step of `cache::pull`**: of a job, or of the calling thread. -/
inductive PullStep (remote : Digest → Bytes → Prop) : PullState → PullState → Prop
  | job {σ : PullState} {l j r e} (hjobs : σ.jobs = l ++ j :: r)
      (hstep : PullJobStep remote σ.store j e) :
      PullStep remote σ { σ with
        store := e.store
        inodes := σ.inodes ++ e.inodes
        newTrees := σ.newTrees ++ e.newTrees
        jobs := (l ++ e.job :: r) ++ e.spawned
        wg := (σ.wg.settle e.job.outcome).add e.spawned.length }
  | enqueueTree {σ : PullState} {t todo} (hmain : σ.main = .fetching (t :: todo)) :
      PullStep remote σ { σ with
        jobs := σ.jobs ++ [.tree t], wg := σ.wg.add 1, main := .fetching todo }
  | treesRead {σ : PullState} (hmain : σ.main = .fetching []) (hidle : σ.wg.count ≤ 0)
      (hok : σ.wg.threw = false) :
      PullStep remote σ { σ with
        newTrees := [], jobs := [], main := .listing (σ.jobs.filterMap PullJob.children?) }
  | enqueueWalk {σ : PullState} {children todo} (hmain : σ.main = .listing (children :: todo)) :
      PullStep remote σ { σ with
        jobs := σ.jobs ++ [.walk children], wg := σ.wg.add 1, main := .listing todo }
  | nextLevel {σ : PullState} (hmain : σ.main = .listing []) (hidle : σ.wg.count ≤ 0)
      (hok : σ.wg.threw = false) :
      PullStep remote σ { σ with
        jobs := [], main := if σ.newTrees = [] then .returned else .fetching σ.newTrees }
  | rethrow {σ : PullState} (hmain : σ.main = .fetching [] ∨ σ.main = .listing [])
      (hidle : σ.wg.count ≤ 0) (hfailed : σ.wg.threw = true) :
      PullStep remote σ { σ with main := .threw }

/-- A `cache::pull` of a digest into a fresh index begins. -/
def PullState.start (st : Store) (h : Digest) : PullState where
  store := st
  inodes := []
  newTrees := []
  jobs := []
  wg := {}
  main := .fetching [rootInode h]

/-! ### What the wait group knows -/

section Counts

variable {remote : Digest → Bytes → Prop} {σ τ : PullState} {st : Store} {j : PullJob}
  {e : PullEffect}

theorem PullJobStep.running (hs : PullJobStep remote st j e) : j.outcome = .running := by
  cases hs with
  | treeFails hjob =>
    obtain ⟨t, rfl | rfl | rfl⟩ := hjob <;> rfl
  | objectFails hjob =>
    obtain ⟨h, rfl | rfl⟩ := hjob <;> rfl
  | _ => rfl

theorem PullJobStep.spawned_running (hs : PullJobStep remote st j e) :
    ∀ k ∈ e.spawned, k.outcome = .running := by
  cases hs with
  | enqueueObject =>
    intro k hk
    rw [List.mem_singleton.mp hk]
    rfl
  | _ => simp

/-- **The wait group counts the jobs.** -/
def PullState.Counts (σ : PullState) : Prop := Pool.Counts PullJob.outcome σ.wg σ.jobs

theorem PullState.counts_start (st : Store) (h : Digest) : (PullState.start st h).Counts :=
  counts_nil

theorem PullState.Counts.step (h : σ.Counts) (hs : PullStep remote σ τ) : τ.Counts := by
  have hc : Pool.Counts PullJob.outcome σ.wg σ.jobs := h
  cases hs with
  | job hjobs hstep =>
    rw [hjobs] at hc
    exact (hc.step hstep.running).spawn _ hstep.spawned_running
  | @enqueueTree t todo hmain => exact hc.spawn [.tree t] (by simp [PullJob.outcome])
  | treesRead hmain hidle => exact hc.clear hidle
  | @enqueueWalk cs todo hmain => exact hc.spawn [.walk cs] (by simp [PullJob.outcome])
  | nextLevel hmain hidle => exact hc.clear hidle
  | rethrow => exact hc

end Counts

/-! ### What a pull adds -/

section Answered

variable {remote : Digest → Bytes → Prop} {σ τ : PullState} {st₀ : Store} {h : Digest}

/-- **What holds of the store throughout a pull**: what was there is there, as it was,
and everything else is an answer of the remote to the request for the digest whose
path it is at. The remote is asked for what was not there. -/
structure PullStoreInv (remote : Digest → Bytes → Prop) (st₀ : Store) (σ : PullState) : Prop where
  kept : ∀ k b, st₀ k = some b → σ.store k = some b
  answered : ∀ k b, σ.store k = some b → st₀ k = some b ∨
    ∃ h, remote h b ∧ (k = filePath h ∨ k = treePath h)
  askTree : ∀ t, PullJob.askTree t ∈ σ.jobs → st₀ (treePath t.hash) = none
  askObject : ∀ h, PullJob.askObject h ∈ σ.jobs → st₀ (filePath h) = none

theorem pullStoreInv_start : PullStoreInv remote st₀ (PullState.start st₀ h) where
  kept _ _ hb := hb
  answered _ _ hb := Or.inl hb
  askTree _ ht := by cases ht
  askObject _ hh := by cases hh

/-- An answer is put where nothing was. -/
theorem PullStoreInv.put {st : Store} {k b : Bytes} {h : Digest}
    (hkept : ∀ k b, st₀ k = some b → st k = some b)
    (hans : ∀ k b, st k = some b → st₀ k = some b ∨
      ∃ h, remote h b ∧ (k = filePath h ∨ k = treePath h))
    (hnone : st₀ k = none) (hremote : remote h b) (hk : k = filePath h ∨ k = treePath h) :
    (∀ k' b', st₀ k' = some b' → st.put k b k' = some b') ∧
      ∀ k' b', st.put k b k' = some b' → st₀ k' = some b' ∨
        ∃ h, remote h b' ∧ (k' = filePath h ∨ k' = treePath h) := by
  constructor
  · intro k' b' hb'
    have hne : k' ≠ k := fun he => by
      rw [he, hnone] at hb'
      cases hb'
    rw [st.put_of_ne hne]
    exact hkept k' b' hb'
  · intro k' b' hb'
    by_cases he : k' = k
    · rw [he, Store.put_self] at hb'
      obtain rfl := Option.some.inj hb'
      exact Or.inr ⟨h, hremote, he ▸ hk⟩
    · rw [st.put_of_ne he] at hb'
      exact hans k' b' hb'

/-- A job that looks finds nothing where nothing was. -/
theorem none_of_missing {st : Store} {k : Bytes} (hkept : ∀ k b, st₀ k = some b → st k = some b)
    (h : (st k).isSome = false) : st₀ k = none := by
  cases hb : st₀ k with
  | none => rfl
  | some b =>
    rw [hkept k b hb] at h
    cases h

/-- **A step of a pull keeps what holds of the store.** -/
theorem PullStoreInv.step (hi : PullStoreInv remote st₀ σ) (hs : PullStep remote σ τ) :
    PullStoreInv remote st₀ τ := by
  obtain ⟨hkept, hans, htree, hobj⟩ := hi
  cases hs with
  | @job l j r e hjobs hstep =>
    rw [hjobs] at htree hobj
    -- the other jobs ask for what they did
    have hrest : (∀ t, e.job = .askTree t → st₀ (treePath t.hash) = none) →
        (∀ h, e.job = .askObject h → st₀ (filePath h) = none) →
        (∀ t, PullJob.askTree t ∈ (l ++ e.job :: r) ++ e.spawned → st₀ (treePath t.hash) = none) ∧
          ∀ h, PullJob.askObject h ∈ (l ++ e.job :: r) ++ e.spawned → st₀ (filePath h) = none := by
      intro ht ho
      have hsp : ∀ t h, PullJob.askTree t ∉ e.spawned ∧ PullJob.askObject h ∉ e.spawned := by
        intro t h
        cases hstep <;> simp
      simp only [List.mem_append, List.mem_cons] at htree hobj ⊢
      refine ⟨fun t hm => ?_, fun h hm => ?_⟩
      · rcases hm with (hm | hm | hm) | hm
        · exact htree t (Or.inl hm)
        · exact ht t hm.symm
        · exact htree t (Or.inr (Or.inr hm))
        · exact absurd hm (hsp t t.hash).1
      · rcases hm with (hm | hm | hm) | hm
        · exact hobj h (Or.inl hm)
        · exact ho h hm.symm
        · exact hobj h (Or.inr (Or.inr hm))
        · exact absurd hm (hsp (rootInode h) h).2
    cases hstep with
    | treeMissing hmiss =>
      obtain ⟨h1, h2⟩ := hrest
        (fun t ht => by
          obtain rfl := PullJob.askTree.inj ht
          exact none_of_missing hkept hmiss) (fun h hh => by cases hh)
      exact ⟨hkept, hans, h1, h2⟩
    | objectMissing hmiss =>
      obtain ⟨h1, h2⟩ := hrest (fun t ht => by cases ht)
        (fun h hh => by
          obtain rfl := PullJob.askObject.inj hh
          exact none_of_missing hkept hmiss)
      exact ⟨hkept, hans, h1, h2⟩
    | @treeArrives t b hremote =>
      obtain ⟨h1, h2⟩ := hrest (fun t ht => by cases ht) (fun h hh => by cases hh)
      obtain ⟨h3, h4⟩ := PullStoreInv.put hkept hans (htree t (by simp)) hremote (Or.inr rfl)
      exact ⟨h3, h4, h1, h2⟩
    | @objectArrives h b hremote =>
      obtain ⟨h1, h2⟩ := hrest (fun t ht => by cases ht) (fun h hh => by cases hh)
      obtain ⟨h3, h4⟩ := PullStoreInv.put hkept hans (hobj h (by simp)) hremote (Or.inl rfl)
      exact ⟨h3, h4, h1, h2⟩
    | _ =>
      obtain ⟨h1, h2⟩ := hrest (fun t ht => by cases ht) (fun h hh => by cases hh)
      exact ⟨hkept, hans, h1, h2⟩
  | enqueueTree | enqueueWalk =>
    exact ⟨hkept, hans, fun t ht => htree t (by simpa using ht),
      fun h hh => hobj h (by simpa using hh)⟩
  | treesRead | nextLevel => exact ⟨hkept, hans, by simp, by simp⟩
  | rethrow => exact ⟨hkept, hans, htree, hobj⟩

end Answered

/-! ### A single thread -/

/-- The step of a job, when the remote has one answer to each request, or none. -/
def pullJobNext (answer : Digest → Option Bytes) (st : Store) : PullJob → Option PullEffect
  | .tree t => some { store := st, job := if st.hasTree t.hash then .readTree t else .askTree t }
  | .askTree t =>
    match answer t.hash with
    | some b => some { store := st.put (treePath t.hash) b, job := .readTree t }
    | none => some { store := st, job := .failed }
  | .readTree t =>
    match readTree st t with
    | .ok children => some { store := st, job := .treeRead t children }
    | .error _ => some { store := st, job := .failed }
  | .walk (c :: todo) => some { store := st, job := .route c todo, inodes := [c] }
  | .walk [] => some { store := st, job := .walked }
  | .route c todo =>
    some { store := st, job := .walk todo
           newTrees := if !c.isSymlink && c.isDirectory then [c] else []
           spawned := if !c.isSymlink && !c.isDirectory then [.object c.hash] else [] }
  | .object h =>
    some { store := st, job := if st.hasObject h then .objectThere h else .askObject h }
  | .askObject h =>
    match answer h with
    | some b => some { store := st.put (filePath h) b, job := .objectThere h }
    | none => some { store := st, job := .failed }
  | _ => none

/-- The step of the calling thread, when no job is left. -/
def pullMainNext (σ : PullState) : Option PullState :=
  match σ.main with
  | .fetching (t :: todo) =>
    some { σ with jobs := σ.jobs ++ [.tree t], wg := σ.wg.add 1, main := .fetching todo }
  | .fetching [] =>
    some (if σ.wg.threw then { σ with main := .threw } else
      { σ with newTrees := [], jobs := [], main := .listing (σ.jobs.filterMap PullJob.children?) })
  | .listing (children :: todo) =>
    some { σ with jobs := σ.jobs ++ [.walk children], wg := σ.wg.add 1, main := .listing todo }
  | .listing [] =>
    some (if σ.wg.threw then { σ with main := .threw } else
      { σ with jobs := []
               main := if σ.newTrees = [] then .returned else .fetching σ.newTrees })
  | _ => none

/-- **The next step of a single thread**: of the first job that has not ended, or of the
calling thread. -/
def pullNext (answer : Digest → Option Bytes) (σ : PullState) : Option PullState :=
  match firstRunning PullJob.outcome σ.jobs with
  | some (l, j, r) =>
    (pullJobNext answer σ.store j).map fun e => { σ with
      store := e.store
      inodes := σ.inodes ++ e.inodes
      newTrees := σ.newTrees ++ e.newTrees
      jobs := (l ++ e.job :: r) ++ e.spawned
      wg := (σ.wg.settle e.job.outcome).add e.spawned.length }
  | none => pullMainNext σ

/-- The first `n` steps of a single thread. -/
def runPull (answer : Digest → Option Bytes) : ℕ → PullState → PullState
  | 0, σ => σ
  | n + 1, σ =>
    match pullNext answer σ with
    | none => σ
    | some τ => runPull answer n τ

section Thread

variable {answer : Digest → Option Bytes} {σ τ : PullState}

theorem pullJobStep_of_next {st : Store} {j : PullJob} {e : PullEffect}
    (h : pullJobNext answer st j = some e) :
    PullJobStep (fun h b => answer h = some b) st j e := by
  cases j with
  | tree t =>
    obtain rfl := Option.some.inj h
    cases hobj : st.hasTree t.hash with
    | true => exact .treePresent hobj
    | false => exact .treeMissing hobj
  | askTree t =>
    cases hb : answer t.hash with
    | some b =>
      simp only [pullJobNext, hb, Option.some.injEq] at h
      exact h ▸ .treeArrives hb
    | none =>
      simp only [pullJobNext, hb, Option.some.injEq] at h
      exact h ▸ .treeFails ⟨t, Or.inr (Or.inl rfl)⟩
  | readTree t =>
    cases hr : readTree st t with
    | ok children =>
      simp only [pullJobNext, hr, Option.some.injEq] at h
      exact h ▸ .treeIsRead hr
    | error err =>
      simp only [pullJobNext, hr, Option.some.injEq] at h
      exact h ▸ .treeFails ⟨t, Or.inr (Or.inr rfl)⟩
  | walk todo =>
    cases todo with
    | nil => exact Option.some.inj h ▸ .walked
    | cons c todo => exact Option.some.inj h ▸ .append
  | route c todo =>
    obtain rfl := Option.some.inj h
    cases hl : c.isSymlink with
    | true => exact .passLink hl
    | false =>
      cases hd : c.isDirectory with
      | true => exact .pushTree hl hd
      | false => exact .enqueueObject hl hd
  | object d =>
    obtain rfl := Option.some.inj h
    cases hobj : st.hasObject d with
    | true => exact .objectPresent hobj
    | false => exact .objectMissing hobj
  | askObject d =>
    cases hb : answer d with
    | some b =>
      simp only [pullJobNext, hb, Option.some.injEq] at h
      exact h ▸ .objectArrives hb
    | none =>
      simp only [pullJobNext, hb, Option.some.injEq] at h
      exact h ▸ .objectFails ⟨d, Or.inr rfl⟩
  | _ => cases h

/-- **A step of the single thread is a step.** -/
theorem pullStep_of_next (hc : σ.Counts) (h : pullNext answer σ = some τ) :
    PullStep (fun h b => answer h = some b) σ τ := by
  rw [pullNext] at h
  split at h
  · rename_i l j r hfirst
    obtain ⟨e, he, rfl⟩ := Option.map_eq_some_iff.mp h
    exact .job (eq_of_firstRunning hfirst) (pullJobStep_of_next he)
  · rename_i hnone
    have hidle : σ.wg.count ≤ 0 := Pool.Counts.count_le hc (idle_of_firstRunning hnone)
    rw [pullMainNext] at h
    cases hmain : σ.main with
    | fetching todo =>
      rw [hmain] at h
      cases todo with
      | cons t todo => exact Option.some.inj h ▸ .enqueueTree hmain
      | nil =>
        cases ht : σ.wg.threw with
        | true =>
          simp only [ht, if_true, Option.some.injEq] at h
          exact h ▸ .rethrow (Or.inl hmain) hidle ht
        | false =>
          simp only [ht, Bool.false_eq_true, if_false, Option.some.injEq] at h
          exact h ▸ .treesRead hmain hidle ht
    | listing todo =>
      rw [hmain] at h
      cases todo with
      | cons children todo => exact Option.some.inj h ▸ .enqueueWalk hmain
      | nil =>
        cases ht : σ.wg.threw with
        | true =>
          simp only [ht, if_true, Option.some.injEq] at h
          exact h ▸ .rethrow (Or.inr hmain) hidle ht
        | false =>
          simp only [ht, Bool.false_eq_true, if_false, Option.some.injEq] at h
          exact h ▸ .nextLevel hmain hidle ht
    | returned =>
      rw [hmain] at h
      cases h
    | threw =>
      rw [hmain] at h
      cases h

/-- **The single thread runs.** -/
theorem reaches_runPull (hc : σ.Counts) (n : ℕ) :
    Reaches (PullStep fun h b => answer h = some b) σ (runPull answer n σ) := by
  induction n generalizing σ with
  | zero => exact Relation.ReflTransGen.refl
  | succ n ih =>
    rw [runPull]
    split
    · exact Relation.ReflTransGen.refl
    · rename_i τ h
      have hs := pullStep_of_next hc h
      exact Relation.ReflTransGen.head hs (ih (hc.step hs))

end Thread

/-! ### A remote that lies -/

namespace Sample

/-- The digest of the tree object of the sample. -/
def wanted : Digest := ⟨.sha1, hexString 40 0x5fafb8692f3557586d5e9de55efd766aaa8b9a31⟩

/-- SHA-1 of the empty tree object. -/
def hashEmpty : HashFunction :=
  .ofTable [(encodeTree [], 0x057b1d604003c9ea7e4f483073d64b0487a36df0)]

/-- A remote that has the empty tree object for every digest. -/
def liar : Digest → Option Bytes := fun _ => some (encodeTree [])

/-- A pull from it into an empty cache. -/
def deceived : PullState := runPull liar 20 (PullState.start Store.empty wanted)

theorem reaches_deceived :
    Reaches (PullStep fun h b => liar h = some b) (PullState.start Store.empty wanted) deceived :=
  reaches_runPull (PullState.counts_start _ _) 20

theorem deceived_returned : deceived.main = .returned := by decide

theorem deceived_store : deceived.store (treePath wanted) = some (encodeTree []) := by decide

end Sample

/-- **What a pull adds is what the remote answered.** Whatever the remote returns, in
every state of a pull – also when it has ended, normally or by an exception – what was
in the cache is there as it was, and every object that was not there is an answer to
the request for the digest whose path it is at. So if the remote answers with bytes of
the digest it was asked for, every added object has the digest it is stored under. -/
theorem pull_adds_answers {remote : Digest → Bytes → Prop} {st₀ : Store} {h : Digest}
    {σ : PullState} (hrun : Reaches (PullStep remote) (PullState.start st₀ h) σ) :
    (∀ k b, st₀ k = some b → σ.store k = some b) ∧
    (∀ k b, σ.store k = some b → st₀ k = none →
      ∃ d, remote d b ∧ (k = filePath d ∨ k = treePath d)) ∧
    ∀ H : HashFunction, (∀ d b, remote d b → H.sum b = d) → ∀ d b, d.alg = H.alg →
      (σ.store (filePath d) = some b → st₀ (filePath d) = none → H.sum b = d) ∧
        (σ.store (treePath d) = some b → st₀ (treePath d) = none → H.sum b = d) := by
  have hinv : PullStoreInv remote st₀ σ :=
    hrun.invariant pullStoreInv_start fun _ _ hi hs => hi.step hs
  have hans : ∀ k b, σ.store k = some b → st₀ k = none →
      ∃ d, remote d b ∧ (k = filePath d ∨ k = treePath d) := fun k b hb hnone =>
    (hinv.answered k b hb).resolve_left fun he => by
      rw [hnone] at he
      cases he
  refine ⟨hinv.kept, hans, fun H hH d b halg => ⟨fun hb hnone => ?_, fun hb hnone => ?_⟩⟩
  · obtain ⟨d', hremote, hk | hk⟩ := hans _ _ hb hnone
    · rw [← hH d' b hremote] at hk
      exact ((filePath_eq_iff H halg).mp hk).symm
    · exact absurd hk (filePath_ne_treePath d d')
  · obtain ⟨d', hremote, hk | hk⟩ := hans _ _ hb hnone
    · exact absurd hk.symm (filePath_ne_treePath d' d)
    · rw [← hH d' b hremote] at hk
      exact ((treePath_eq_iff H halg).mp hk).symm

/-- What the pull from the lying remote has added. -/
theorem pull_adds_answers_sample :
    (∀ k b, Store.empty k = some b → Sample.deceived.store k = some b) ∧
    (∀ k b, Sample.deceived.store k = some b → Store.empty k = none →
      ∃ d, Sample.liar d = some b ∧ (k = filePath d ∨ k = treePath d)) ∧
    ∀ H : HashFunction, (∀ d b, Sample.liar d = some b → H.sum b = d) → ∀ d b, d.alg = H.alg →
      (Sample.deceived.store (filePath d) = some b → Store.empty (filePath d) = none →
        H.sum b = d) ∧
      (Sample.deceived.store (treePath d) = some b → Store.empty (treePath d) = none →
        H.sum b = d) :=
  pull_adds_answers Sample.reaches_deceived

/-- **A pull does not look at what it gets**: it returns with an object that has not the
digest it is stored under. -/
theorem pull_not_contentAddressed : ¬ ∀ (H : HashFunction) (remote : Digest → Bytes → Prop)
    (st₀ : Store) (h : Digest) (σ : PullState),
    Reaches (PullStep remote) (PullState.start st₀ h) σ →
    σ.main = .returned ∨ σ.main = .threw → ∀ d b, d.alg = H.alg →
      (σ.store (filePath d) = some b → st₀ (filePath d) = none → H.sum b = d) ∧
        (σ.store (treePath d) = some b → st₀ (treePath d) = none → H.sum b = d) := fun h => by
  have hsum := (h Sample.hashEmpty _ Store.empty Sample.wanted Sample.deceived
    Sample.reaches_deceived (Or.inl Sample.deceived_returned) Sample.wanted _ rfl).2
    Sample.deceived_store rfl
  exact absurd hsum (by decide)

end Fstree
