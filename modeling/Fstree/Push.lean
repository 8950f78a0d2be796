import Fstree.Foundations.Pool
import Fstree.Foundations.Transition
import Fstree.Model.Inode
import Fstree.Model.Store

/-!
# Pushing a tree to a remote

`cache::push` keeps a list of trees to check. In each round of its loop it takes the
last one and asks the remote what is missing of it: either by `has_tree`, or, if the
remote does not support that, by asking `has_object` for the tree and for every inode of
the index. A job is enqueued for each object and each tree that is missing, and the job
of a tree puts the tree back on the list when it has been written. While there are trees
on the list the next round begins without waiting for the jobs; only when there are none
does the loop wait for them, and look at the list once more.

It is a transition relation (`Fstree.PushStep`) in which the jobs and the calling thread
take their steps in any order, and the remote answers in any way a relation on what it
has allows (`Fstree.Server`). One run of it is that of a single thread
(`Fstree.runPush`).
-/

namespace Fstree

open Pool Transition

/-! ### The remote -/

/-- What a remote has stored. -/
abbrev Remote := Digest → Option Bytes

/-- The remote has an object. -/
def Remote.Has (r : Remote) (h : Digest) : Prop := (r h).isSome = true

/-- What `remote::has_tree` may do. -/
inductive HasTree
  | reports (missingTrees missingObjects : List Digest)
  /-- It throws `unsupported_operation`. -/
  | unsupported
  /-- It throws something else. -/
  | throws

/-- **A remote that is asked**: what it may answer when it has this much. A call of
`has_object` without an answer throws. -/
structure Server where
  hasTree : Remote → Digest → HasTree → Prop
  hasObject : Remote → Digest → Option Bool → Prop

/-! ### The state of a push -/

/-- **A job of `cache::push`.** -/
inductive PushJob
  /-- `push_object` is to write an object. -/
  | object (h : Digest)
  | objectSent (h : Digest)
  /-- `push_tree` is to write a tree object. -/
  | tree (h : Digest)
  | treeSent (h : Digest)
  /-- The tree has been put on the list of trees to check. -/
  | treeListed (h : Digest)
  | done
  | failed
deriving DecidableEq

/-- What the wait group knows of a job. -/
def PushJob.outcome : PushJob → Outcome
  | done => .done
  | failed => .failed
  | _ => .running

/-- Where a job finds the object it writes. -/
def PushJob.source : PushJob → Option (Digest × Bytes)
  | object h => some (h, filePath h)
  | tree h => some (h, treePath h)
  | _ => none

/-- A job that has written its object. -/
def PushJob.sent : PushJob → PushJob
  | object h => objectSent h
  | tree h => treeSent h
  | j => j

/-- What one step of a job does: to the remote, to the list of trees to check, and to
itself. -/
structure PushEffect where
  remote : Remote
  listed : List Digest := []
  job : PushJob

/-- **One step of a job**: `st` is the local cache, `r` what the remote has. -/
inductive PushJobStep (st : Store) (r : Remote) : PushJob → PushEffect → Prop
  | write {j h k b} (hsource : j.source = some (h, k)) (hb : st k = some b) :
      PushJobStep st r j { remote := Function.update r h (some b), job := j.sent }
  -- the object is not there, or the remote has thrown
  | writeFails {j h k} (hsource : j.source = some (h, k)) :
      PushJobStep st r j { remote := r, job := .failed }
  -- the remote has stored the object, and has thrown
  | writeLost {j h k b} (hsource : j.source = some (h, k)) (hb : st k = some b) :
      PushJobStep st r j { remote := Function.update r h (some b), job := .failed }
  | objectDone {h} : PushJobStep st r (.objectSent h) { remote := r, job := .done }
  | list {h} : PushJobStep st r (.treeSent h) { remote := r, listed := [h], job := .treeListed h }
  | treeDone {h} : PushJobStep st r (.treeListed h) { remote := r, job := .done }

/-- **Where the calling thread is.** -/
inductive PushMain
  /-- At the top of the loop. -/
  | top
  /-- It has taken a tree off the list, and calls `has_tree`. -/
  | query (t : Digest)
  /-- `has_tree` is unsupported: it calls `has_object` for the tree. -/
  | askTree (t : Digest)
  /-- It calls `has_object` for the inodes of the index that are left. -/
  | askIndex (t : Digest) (todo : List Inode) (missingTrees missingObjects : List Digest)
  /-- It enqueues jobs, those for objects first. -/
  | enqueue (missingTrees missingObjects : List Digest)
  /-- It looks whether there are trees to check already. -/
  | test
  /-- `wg.wait_rethrow()` -/
  | wait
  /-- At the condition of the loop. -/
  | again
  | returned
  | threw
deriving DecidableEq

/-- **The state of a `cache::push`.** -/
structure PushState where
  remote : Remote
  checkTrees : List Digest
  jobs : List PushJob
  wg : WaitGroup
  main : PushMain

/-- **One step of `cache::push`** of an index from a local cache. -/
inductive PushStep (server : Server) (st : Store) (index : List Inode) :
    PushState → PushState → Prop
  | job {σ : PushState} {l j r e} (hjobs : σ.jobs = l ++ j :: r)
      (hstep : PushJobStep st σ.remote j e) :
      PushStep server st index σ { σ with
        remote := e.remote
        checkTrees := σ.checkTrees ++ e.listed
        jobs := l ++ e.job :: r
        wg := σ.wg.settle e.job.outcome }
  | pop {σ : PushState} {ts t} (hmain : σ.main = .top) (hlist : σ.checkTrees = ts ++ [t]) :
      PushStep server st index σ { σ with checkTrees := ts, main := .query t }
  | reports {σ : PushState} {t trees objects} (hmain : σ.main = .query t)
      (hanswer : server.hasTree σ.remote t (.reports trees objects)) :
      PushStep server st index σ { σ with main := .enqueue trees objects }
  | unsupported {σ : PushState} {t} (hmain : σ.main = .query t)
      (hanswer : server.hasTree σ.remote t .unsupported) :
      PushStep server st index σ { σ with main := .askTree t }
  | queryThrows {σ : PushState} {t} (hmain : σ.main = .query t)
      (hanswer : server.hasTree σ.remote t .throws) :
      PushStep server st index σ { σ with main := .threw }
  | askTree {σ : PushState} {t found} (hmain : σ.main = .askTree t)
      (hanswer : server.hasObject σ.remote t (some found)) :
      PushStep server st index σ { σ with
        main := .askIndex t index (if found then [] else [t]) [] }
  | askTreeThrows {σ : PushState} {t} (hmain : σ.main = .askTree t)
      (hanswer : server.hasObject σ.remote t none) :
      PushStep server st index σ { σ with main := .threw }
  | askInode {σ : PushState} {t i todo trees objects found}
      (hmain : σ.main = .askIndex t (i :: todo) trees objects)
      (hanswer : server.hasObject σ.remote i.hash (some found)) :
      PushStep server st index σ { σ with
        main := .askIndex t todo
          (if !found && i.isDirectory then trees ++ [i.hash] else trees)
          (if !found && !i.isDirectory && i.isFile then objects ++ [i.hash] else objects) }
  | askInodeThrows {σ : PushState} {t i todo trees objects}
      (hmain : σ.main = .askIndex t (i :: todo) trees objects)
      (hanswer : server.hasObject σ.remote i.hash none) :
      PushStep server st index σ { σ with main := .threw }
  | asked {σ : PushState} {t trees objects} (hmain : σ.main = .askIndex t [] trees objects) :
      PushStep server st index σ { σ with main := .enqueue trees objects }
  | enqueueObject {σ : PushState} {trees objects h}
      (hmain : σ.main = .enqueue trees (h :: objects)) :
      PushStep server st index σ { σ with
        jobs := σ.jobs ++ [.object h], wg := σ.wg.add 1, main := .enqueue trees objects }
  | enqueueTree {σ : PushState} {trees h} (hmain : σ.main = .enqueue (h :: trees) []) :
      PushStep server st index σ { σ with
        jobs := σ.jobs ++ [.tree h], wg := σ.wg.add 1, main := .enqueue trees [] }
  | enqueued {σ : PushState} (hmain : σ.main = .enqueue [] []) :
      PushStep server st index σ { σ with main := .test }
  | goOn {σ : PushState} (hmain : σ.main = .test) (hlist : σ.checkTrees ≠ []) :
      PushStep server st index σ { σ with main := .again }
  | stop {σ : PushState} (hmain : σ.main = .test) (hlist : σ.checkTrees = []) :
      PushStep server st index σ { σ with main := .wait }
  | waited {σ : PushState} (hmain : σ.main = .wait) (hidle : σ.wg.count ≤ 0)
      (hok : σ.wg.threw = false) :
      PushStep server st index σ { σ with main := .again }
  | rethrow {σ : PushState} (hmain : σ.main = .wait) (hidle : σ.wg.count ≤ 0)
      (hfailed : σ.wg.threw = true) :
      PushStep server st index σ { σ with main := .threw }
  | nextRound {σ : PushState} (hmain : σ.main = .again) (hlist : σ.checkTrees ≠ []) :
      PushStep server st index σ { σ with main := .top }
  | leave {σ : PushState} (hmain : σ.main = .again) (hlist : σ.checkTrees = []) :
      PushStep server st index σ { σ with main := .returned }

/-- A `cache::push` of the tree under `h` begins. -/
def PushState.start (r : Remote) (h : Digest) : PushState where
  remote := r
  checkTrees := [h]
  jobs := []
  wg := {}
  main := .top

/-! ### What the wait group knows -/

/-- The wait group counts the jobs. -/
def PushState.Counts (σ : PushState) : Prop := Pool.Counts PushJob.outcome σ.wg σ.jobs

theorem PushState.counts_start (r : Remote) (h : Digest) : (PushState.start r h).Counts :=
  counts_nil

section Counts

variable {server : Server} {index : List Inode} {st : Store} {σ τ : PushState} {j : PushJob}
  {e : PushEffect}

theorem PushJob.source_eq {h : Digest} {k : Bytes} (hs : j.source = some (h, k)) :
    (j = .object h ∧ k = filePath h) ∨ (j = .tree h ∧ k = treePath h) := by
  cases j with
  | object d =>
    obtain ⟨rfl, rfl⟩ : d = h ∧ filePath d = k := by simpa [PushJob.source] using hs
    exact Or.inl ⟨rfl, rfl⟩
  | tree d =>
    obtain ⟨rfl, rfl⟩ : d = h ∧ treePath d = k := by simpa [PushJob.source] using hs
    exact Or.inr ⟨rfl, rfl⟩
  | _ => cases hs

theorem PushJobStep.running {r : Remote} (hs : PushJobStep st r j e) : j.outcome = .running := by
  cases hs with
  | write hsource | writeFails hsource | writeLost hsource =>
    rcases PushJob.source_eq hsource with ⟨rfl, -⟩ | ⟨rfl, -⟩ <;> rfl
  | _ => rfl

theorem PushState.Counts.step (h : σ.Counts) (hs : PushStep server st index σ τ) : τ.Counts := by
  have hc : Pool.Counts PushJob.outcome σ.wg σ.jobs := h
  cases hs with
  | job hjobs hstep =>
    rw [hjobs] at hc
    exact hc.step hstep.running
  | @enqueueObject trees objects d hmain => exact hc.spawn [.object d] (by simp [PushJob.outcome])
  | @enqueueTree trees d hmain => exact hc.spawn [.tree d] (by simp [PushJob.outcome])
  | _ => exact hc

end Counts

/-! ### A single thread -/

/-- The answers of a remote that has one for each question. -/
structure Answers where
  hasTree : Remote → Digest → HasTree
  hasObject : Remote → Digest → Option Bool

/-- The remote that gives these answers. -/
def Answers.server (a : Answers) : Server where
  hasTree r t x := x = a.hasTree r t
  hasObject r d x := x = a.hasObject r d

/-- The step of a job that writes what it finds. -/
def pushJobNext (st : Store) (r : Remote) : PushJob → Option PushEffect
  | .objectSent _ => some { remote := r, job := .done }
  | .treeSent h => some { remote := r, listed := [h], job := .treeListed h }
  | .treeListed _ => some { remote := r, job := .done }
  | j => j.source.map fun s =>
    match st s.2 with
    | some b => { remote := Function.update r s.1 (some b), job := j.sent }
    | none => { remote := r, job := .failed }

/-- The step of the calling thread, when no job is left. -/
def pushMainNext (a : Answers) (index : List Inode) (σ : PushState) : Option PushState :=
  match σ.main with
  | .top => σ.checkTrees.getLast?.map fun t =>
    { σ with checkTrees := σ.checkTrees.dropLast, main := .query t }
  | .query t =>
    match a.hasTree σ.remote t with
    | .reports trees objects => some { σ with main := .enqueue trees objects }
    | .unsupported => some { σ with main := .askTree t }
    | .throws => some { σ with main := .threw }
  | .askTree t =>
    match a.hasObject σ.remote t with
    | some found => some { σ with main := .askIndex t index (if found then [] else [t]) [] }
    | none => some { σ with main := .threw }
  | .askIndex t (i :: todo) trees objects =>
    match a.hasObject σ.remote i.hash with
    | some found => some { σ with
        main := .askIndex t todo
          (if !found && i.isDirectory then trees ++ [i.hash] else trees)
          (if !found && !i.isDirectory && i.isFile then objects ++ [i.hash] else objects) }
    | none => some { σ with main := .threw }
  | .askIndex _ [] trees objects => some { σ with main := .enqueue trees objects }
  | .enqueue trees (h :: objects) => some { σ with
      jobs := σ.jobs ++ [.object h], wg := σ.wg.add 1, main := .enqueue trees objects }
  | .enqueue (h :: trees) [] => some { σ with
      jobs := σ.jobs ++ [.tree h], wg := σ.wg.add 1, main := .enqueue trees [] }
  | .enqueue [] [] => some { σ with main := .test }
  | .test => some { σ with main := if σ.checkTrees = [] then .wait else .again }
  | .wait => some { σ with main := if σ.wg.threw then .threw else .again }
  | .again => some { σ with main := if σ.checkTrees = [] then .returned else .top }
  | _ => none

/-- **The next step of a single thread**: of the first job that has not ended, or of the
calling thread. -/
def pushNext (a : Answers) (st : Store) (index : List Inode) (σ : PushState) : Option PushState :=
  match firstRunning PushJob.outcome σ.jobs with
  | some (l, j, r) =>
    (pushJobNext st σ.remote j).map fun e => { σ with
      remote := e.remote
      checkTrees := σ.checkTrees ++ e.listed
      jobs := l ++ e.job :: r
      wg := σ.wg.settle e.job.outcome }
  | none => pushMainNext a index σ

/-- The first `n` steps of a single thread. -/
def runPush (a : Answers) (st : Store) (index : List Inode) : ℕ → PushState → PushState
  | 0, σ => σ
  | n + 1, σ =>
    match pushNext a st index σ with
    | none => σ
    | some τ => runPush a st index n τ

section Thread

variable {a : Answers} {st : Store} {index : List Inode} {σ τ : PushState}

theorem pushJobStep_of_next {r : Remote} {j : PushJob} {e : PushEffect}
    (h : pushJobNext st r j = some e) : PushJobStep st r j e := by
  have hwrite : ∀ {d k}, j.source = some (d, k) →
      (match st k with
        | some b => { remote := Function.update r d (some b), job := j.sent : PushEffect }
        | none => { remote := r, job := .failed }) = e → PushJobStep st r j e := by
    rintro d k hsource rfl
    cases hb : st k with
    | some b => exact .write hsource hb
    | none => exact .writeFails hsource
  cases j with
  | object d => exact hwrite rfl (Option.some.inj h)
  | tree d => exact hwrite rfl (Option.some.inj h)
  | objectSent d => exact Option.some.inj h ▸ .objectDone
  | treeSent d => exact Option.some.inj h ▸ .list
  | treeListed d => exact Option.some.inj h ▸ .treeDone
  | _ => cases h

theorem pushStep_of_mainNext (hidle : σ.wg.count ≤ 0) (h : pushMainNext a index σ = some τ) :
    PushStep a.server st index σ τ := by
  rw [pushMainNext] at h
  cases hmain : σ.main with
  | top =>
    rw [hmain] at h
    obtain ⟨t, ht, rfl⟩ := Option.map_eq_some_iff.mp h
    exact .pop hmain (List.dropLast_append_getLast? t ht).symm
  | query t =>
    simp only [hmain] at h
    split at h
    · rename_i trees objects ha
      exact Option.some.inj h ▸ .reports hmain ha.symm
    · rename_i ha
      exact Option.some.inj h ▸ .unsupported hmain ha.symm
    · rename_i ha
      exact Option.some.inj h ▸ .queryThrows hmain ha.symm
  | askTree t =>
    simp only [hmain] at h
    split at h
    · rename_i found ha
      exact Option.some.inj h ▸ .askTree hmain ha.symm
    · rename_i ha
      exact Option.some.inj h ▸ .askTreeThrows hmain ha.symm
  | askIndex t todo trees objects =>
    cases todo with
    | nil =>
      simp only [hmain] at h
      exact Option.some.inj h ▸ .asked hmain
    | cons i todo =>
      simp only [hmain] at h
      split at h
      · rename_i found ha
        exact Option.some.inj h ▸ .askInode hmain ha.symm
      · rename_i ha
        exact Option.some.inj h ▸ .askInodeThrows hmain ha.symm
  | enqueue trees objects =>
    cases objects with
    | cons d objects =>
      simp only [hmain] at h
      exact Option.some.inj h ▸ .enqueueObject hmain
    | nil =>
      cases trees with
      | cons d trees =>
        simp only [hmain] at h
        exact Option.some.inj h ▸ .enqueueTree hmain
      | nil =>
        simp only [hmain] at h
        exact Option.some.inj h ▸ .enqueued hmain
  | test =>
    simp only [hmain] at h
    obtain rfl := Option.some.inj h
    split_ifs with hlist
    · exact .stop hmain hlist
    · exact .goOn hmain hlist
  | wait =>
    simp only [hmain] at h
    obtain rfl := Option.some.inj h
    cases ht : σ.wg.threw with
    | true => exact .rethrow hmain hidle ht
    | false => exact .waited hmain hidle ht
  | again =>
    simp only [hmain] at h
    obtain rfl := Option.some.inj h
    split_ifs with hlist
    · exact .leave hmain hlist
    · exact .nextRound hmain hlist
  | returned =>
    rw [hmain] at h
    cases h
  | threw =>
    rw [hmain] at h
    cases h

theorem pushStep_of_next (hc : σ.Counts) (h : pushNext a st index σ = some τ) :
    PushStep a.server st index σ τ := by
  rw [pushNext] at h
  split at h
  · rename_i l j r hfirst
    obtain ⟨e, he, rfl⟩ := Option.map_eq_some_iff.mp h
    exact .job (eq_of_firstRunning hfirst) (pushJobStep_of_next he)
  · rename_i hnone
    exact pushStep_of_mainNext (Pool.Counts.count_le hc (idle_of_firstRunning hnone)) h

/-- **The single thread runs.** -/
theorem reaches_runPush (hc : σ.Counts) (n : ℕ) :
    Reaches (PushStep a.server st index) σ (runPush a st index n σ) := by
  induction n generalizing σ with
  | zero => exact Relation.ReflTransGen.refl
  | succ n ih =>
    rw [runPush]
    split
    · exact Relation.ReflTransGen.refl
    · rename_i τ h
      have hs : PushStep a.server st index σ τ := pushStep_of_next hc h
      exact Relation.ReflTransGen.head hs (ih (hc.step hs))

end Thread

end Fstree
