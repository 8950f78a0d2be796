import Fstree.Foundations.Transition
import Mathlib.Algebra.BigOperators.Group.List.Basic
import Mathlib.Algebra.Ring.Nat
import Mathlib.Data.List.Nodup

/-!
# Jobs on a pool of workers

A thread enqueues jobs on a pool and waits for them, and jobs may enqueue more. What such a client
does, if every job has a thread of its own, is one transition relation (`Workers.Client`). Here it
is executed by a pool of `n` workers (`Workers.Step`): a queue under a mutex, a condition variable
on which idle workers sleep, and one on which the calling thread sleeps while it waits. A thread
that has pushed a job to the queue releases the mutex before it notifies a worker, and so the worker
may take the job earlier, or another. When the calling thread has nothing left to do it stops the
pool, and joins the workers, which first take what is in the queue.

What the client does on a pool it can do without (`Workers.reaches_client`). And nothing is lost on
the way: as long as the workers are not joined some thread can take a step that is no spurious
wake-up (`Workers.Inv.exists_step`), every run of a client whose runs all end comes to its end
(`Workers.terminates`), and when the workers are joined all jobs have (`Workers.Inv.all_ended`).
What carries this is that no worker sleeps over a job in the queue unless another is to be notified
(`Workers.Inv.awake`).
-/

namespace Workers

open Transition

/-! ### Clients -/

/-- **What a client does** in a step. -/
inductive Act
  /-- The job at `i` goes on, and enqueues some more. -/
  | job (i spawned : ℕ)
  /-- The calling thread enqueues a job. -/
  | enqueue
  /-- The calling thread does something else. -/
  | main

/-- **A client of a pool**, as if every job had a thread of its own. -/
structure Client (σ : Type*) where
  step : σ → Act → σ → Prop
  /-- Of each job that there is a record of, whether it has yet to end. -/
  jobs : σ → List Bool
  /-- The calling thread waits until no job is left. -/
  waits : σ → Prop
  /-- The calling thread has nothing left to do. -/
  finished : σ → Prop
  /-- What holds of the states. -/
  Inv : σ → Prop
  inv_step : ∀ {s a s'}, Inv s → step s a s' → Inv s'
  jobs_job : ∀ {s i k s'}, Inv s → step s (.job i k) s' → ∃ l b r, l.length = i ∧
    jobs s = l ++ true :: r ∧ jobs s' = (l ++ b :: r) ++ List.replicate k true
  waits_job : ∀ {s i k s'}, step s (.job i k) s' → waits s → waits s'
  finished_job : ∀ {s i k s'}, step s (.job i k) s' → finished s → finished s'
  jobs_enqueue : ∀ {s s'}, Inv s → step s .enqueue s' → jobs s' = jobs s ++ [true]
  jobs_main : ∀ {s s'}, Inv s → step s .main s' → ∀ i : ℕ,
    (jobs s')[i]? = some true ↔ (jobs s)[i]? = some true
  /-- A job that has yet to end can go on. -/
  goes_on : ∀ {s i}, Inv s → (jobs s)[i]? = some true → ∃ k s', step s (.job i k) s'
  /-- So can the calling thread, unless it waits for a job. -/
  main_goes_on : ∀ {s}, Inv s → finished s ∨ (∃ s', step s .enqueue s') ∨ (∃ s', step s .main s') ∨
    waits s ∧ true ∈ jobs s

/-- Any step of a client. -/
def Client.AnyStep {σ : Type*} (C : Client σ) (s s' : σ) : Prop := ∃ a, C.step s a s'

/-! ### The pool -/

/-- **A worker.** -/
inductive Worker
  | idle
  | asleep
  /-- It executes a job, or has just ended one, and has so many calls of `notify_one` to make. -/
  | busy (job : Option ℕ) (notify : ℕ)
  /-- It has returned. -/
  | gone
deriving DecidableEq

namespace Worker

def isIdle (p : Worker) : Bool := p = .idle

/-- The job it executes. -/
def job? : Worker → Option ℕ
  | busy j _ => j
  | _ => none

/-- How many calls of `notify_one` it has to make. -/
def pending : Worker → ℕ
  | busy _ k => k
  | _ => 0

/-- How far it is from sleeping. -/
def rank : Worker → ℕ
  | idle => 1
  | busy _ k => 2 * k + 2
  | _ => 0

/-- It is notified, with all others. -/
def woken (p : Worker) : Worker := if p = .asleep then .idle else p

end Worker

/-- **The calling thread.** -/
inductive Caller
  /-- It has so many calls of `notify_one` to make. -/
  | awake (notify : ℕ)
  /-- It waits. -/
  | asleep
  /-- It has told the workers to stop. -/
  | stopping
  /-- It has notified them all. -/
  | joining
  | joined
deriving DecidableEq

namespace Caller

def pending : Caller → ℕ
  | awake k => k
  | _ => 0

/-- The workers are told to stop. -/
def stops : Caller → Bool
  | awake _ | asleep => false
  | _ => true

/-- A job has ended. -/
def notified : Caller → Caller
  | asleep => awake 0
  | c => c

/-- How far it is from having joined the workers, of which there are `n`. -/
def rank (n : ℕ) : Caller → ℕ
  | awake k => 2 * k + n + 4
  | asleep => n + 3
  | stopping => n + 2
  | joining => 1
  | joined => 0

end Caller

/-- **The state of a pool** and its client. -/
structure State (σ : Type*) where
  client : σ
  queue : List ℕ
  workers : List Worker
  caller : Caller

/-- **`notify_one`**: one of those who are asleep wakes up, if any is. -/
inductive Notified : List Worker → List Worker → Prop
  | one {l r : List Worker} : Notified (l ++ .asleep :: r) (l ++ .idle :: r)
  | none {ws : List Worker} (hall : .asleep ∉ ws) : Notified ws ws

variable {σ : Type*}

/-- A pool of `n` workers, with a client that begins. -/
def State.start (n : ℕ) (s : σ) : State σ where
  client := s
  queue := []
  workers := List.replicate n .idle
  caller := .awake 0

/-- **One step of a thread.** Those who are asleep may wake up for no reason if `spurious`. -/
inductive Step (C : Client σ) (spurious : Prop) : State σ → State σ → Prop
  /-- A job goes on. If it ends, the calling thread is notified. -/
  | job {τ : State σ} {l r i k s} (hw : τ.workers = l ++ .busy (some i) 0 :: r)
      (hs : C.step τ.client (.job i k) s) :
      Step C spurious τ
        { client := s
          queue := τ.queue ++ List.range' (C.jobs τ.client).length k
          workers := l ++ .busy (if (C.jobs s)[i]? = some true then some i else none) k :: r
          caller := if (C.jobs s)[i]? = some true then τ.caller else τ.caller.notified }
  | notify {τ : State σ} {l r j k ws} (hw : τ.workers = l ++ .busy j (k + 1) :: r)
      (hn : Notified (l ++ .busy j k :: r) ws) : Step C spurious τ { τ with workers := ws }
  | finish {τ : State σ} {l r} (hw : τ.workers = l ++ .busy none 0 :: r) :
      Step C spurious τ { τ with workers := l ++ .idle :: r }
  | take {τ : State σ} {l r i q} (hw : τ.workers = l ++ .idle :: r) (hq : τ.queue = i :: q) :
      Step C spurious τ { τ with queue := q, workers := l ++ .busy (some i) 0 :: r }
  | doze {τ : State σ} {l r} (hw : τ.workers = l ++ .idle :: r) (hq : τ.queue = [])
      (hstop : τ.caller.stops = false) :
      Step C spurious τ { τ with workers := l ++ .asleep :: r }
  | leave {τ : State σ} {l r} (hw : τ.workers = l ++ .idle :: r) (hq : τ.queue = [])
      (hstop : τ.caller.stops = true) :
      Step C spurious τ { τ with workers := l ++ .gone :: r }
  | enqueue {τ : State σ} {s} (hc : τ.caller = .awake 0) (hs : C.step τ.client .enqueue s) :
      Step C spurious τ { τ with
        client := s, queue := τ.queue ++ [(C.jobs τ.client).length], caller := .awake 1 }
  | notifyOne {τ : State σ} {k ws} (hc : τ.caller = .awake (k + 1)) (hn : Notified τ.workers ws) :
      Step C spurious τ { τ with workers := ws, caller := .awake k }
  | wait {τ : State σ} (hc : τ.caller = .awake 0) (hwait : C.waits τ.client)
      (hrun : true ∈ C.jobs τ.client) : Step C spurious τ { τ with caller := .asleep }
  | main {τ : State σ} {s} (hc : τ.caller = .awake 0) (hs : C.step τ.client .main s) :
      Step C spurious τ { τ with client := s }
  | stop {τ : State σ} (hc : τ.caller = .awake 0) (hover : C.finished τ.client) :
      Step C spurious τ { τ with caller := .stopping }
  | notifyAll {τ : State σ} (hc : τ.caller = .stopping) :
      Step C spurious τ { τ with workers := τ.workers.map Worker.woken, caller := .joining }
  | join {τ : State σ} (hc : τ.caller = .joining) (hgone : ∀ p ∈ τ.workers, p = .gone) :
      Step C spurious τ { τ with caller := .joined }
  | wakeWorker {τ : State σ} {l r} (hsp : spurious) (hw : τ.workers = l ++ .asleep :: r) :
      Step C spurious τ { τ with workers := l ++ .idle :: r }
  | wakeCaller {τ : State σ} (hsp : spurious) (hc : τ.caller = .asleep) :
      Step C spurious τ { τ with caller := .awake 0 }

/-! ### What the client does -/

section Run

variable {C : Client σ} {sp : Prop} {n : ℕ} {s : σ} {τ τ' : State σ} {ws ws' l r : List Worker}

/-- A step is one of the client, or the client does not see it. -/
theorem Step.client (hs : Step C sp τ τ') :
    C.AnyStep τ.client τ'.client ∨ τ'.client = τ.client := by
  cases hs with
  | job _ hs => exact Or.inl ⟨_, hs⟩
  | enqueue _ hs => exact Or.inl ⟨_, hs⟩
  | main _ hs => exact Or.inl ⟨_, hs⟩
  | _ => exact Or.inr rfl

/-- **What the client does on a pool it can do without.** -/
theorem reaches_client {Other : σ → σ → Prop} (hsub : ∀ {u a v}, C.step u a v → Other u v)
    (hrun : Reaches (Step C sp) (State.start n s) τ) : Reaches Other s τ.client := by
  induction hrun with
  | refl => exact Relation.ReflTransGen.refl
  | tail _ hs ih =>
    rcases hs.client with ⟨_, hclient⟩ | heq
    · exact ih.tail (hsub hclient)
    · rw [heq]
      exact ih

/-! ### The jobs that have yet to end -/

/-- Each job that has yet to end is in the list once. -/
structure Tracks (jobs : List ℕ) (running : List Bool) : Prop where
  nodup : jobs.Nodup
  mem_iff : ∀ i, i ∈ jobs ↔ running[i]? = some true

theorem tracks_nil : Tracks [] [] := ⟨List.nodup_nil, by simp⟩

theorem Tracks.perm {jobs jobs' : List ℕ} {running : List Bool} (h : Tracks jobs running)
    (hp : jobs'.Perm jobs) : Tracks jobs' running :=
  ⟨hp.nodup_iff.mpr h.nodup, fun i => hp.mem_iff.trans (h.mem_iff i)⟩

/-- Some more are enqueued. -/
theorem Tracks.spawn {jobs : List ℕ} {running : List Bool} (h : Tracks jobs running) (k : ℕ) :
    Tracks (jobs ++ List.range' running.length k) (running ++ List.replicate k true) := by
  have hlt : ∀ i ∈ jobs, i < running.length := fun i hi =>
    (List.getElem?_eq_some_iff.mp ((h.mem_iff i).mp hi)).1
  refine ⟨List.nodup_append.mpr ⟨h.nodup, List.nodup_range', fun i hi j hj he => ?_⟩, fun i => ?_⟩
  · have hge := (List.mem_range'_1.mp hj).1
    have := hlt i hi
    omega
  · rw [List.mem_append, h.mem_iff, List.mem_range'_1]
    by_cases hi : i < running.length
    · rw [List.getElem?_append_left hi]
      exact ⟨fun h => h.resolve_right fun h => by omega, Or.inl⟩
    · rw [List.getElem?_append_right (by omega), List.getElem?_replicate,
        List.getElem?_eq_none (by omega)]
      simp only [reduceCtorEq, false_or]
      constructor
      · intro hk
        rw [if_pos (by omega)]
      · intro hk
        split_ifs at hk with hlt'
        omega

/-- One has ended. -/
theorem Tracks.ended {i : ℕ} {jobs : List ℕ} {l r : List Bool}
    (h : Tracks (i :: jobs) (l ++ true :: r)) (hl : l.length = i) :
    Tracks jobs (l ++ false :: r) := by
  obtain ⟨hnot, hnodup⟩ := List.nodup_cons.mp h.nodup
  refine ⟨hnodup, fun j => ?_⟩
  by_cases hj : j = i
  · subst hl hj
    simp [hnot]
  · have hold := h.mem_iff j
    rw [List.mem_cons, or_iff_right hj] at hold
    rw [hold]
    rcases Nat.lt_or_gt_of_ne (hl ▸ hj) with hlt | hgt
    · rw [List.getElem?_append_left hlt, List.getElem?_append_left hlt]
    · obtain ⟨m, hm⟩ : ∃ m, j - l.length = m + 1 := ⟨j - l.length - 1, by omega⟩
      rw [List.getElem?_append_right (by omega), List.getElem?_append_right (by omega), hm,
        List.getElem?_cons_succ, List.getElem?_cons_succ]

/-! ### The invariant -/

/-- How many calls of `notify_one` are to be made. -/
def State.pending (τ : State σ) : ℕ := (τ.workers.map Worker.pending).sum + τ.caller.pending

/-- The jobs that are in the queue, or with a worker. -/
def State.jobs (τ : State σ) : List ℕ := τ.queue ++ τ.workers.filterMap Worker.job?

/-- **What holds in every run.** -/
structure Inv (C : Client σ) (n : ℕ) (τ : State σ) : Prop where
  pos : 0 < n
  client : C.Inv τ.client
  length : τ.workers.length = n
  tracks : Tracks τ.jobs (C.jobs τ.client)
  /-- **No worker sleeps over a job** in the queue, unless another is to be notified. -/
  awake : .asleep ∈ τ.workers → τ.queue.length ≤ τ.workers.countP Worker.isIdle + τ.pending
  /-- When all were notified to stop, none is asleep. -/
  stopped : τ.caller = .joining ∨ τ.caller = .joined → .asleep ∉ τ.workers
  gone : .gone ∈ τ.workers → τ.caller.stops = true
  drained : (∀ p ∈ τ.workers, p = .gone) → τ.queue = []
  waits : τ.caller = .asleep → C.waits τ.client ∧ true ∈ C.jobs τ.client
  finished : τ.caller.stops = true → C.finished τ.client
  joined : τ.caller = .joined → ∀ p ∈ τ.workers, p = .gone

theorem inv_start (hn : 0 < n) (hs : C.Inv s) (hjobs : C.jobs s = []) :
    Inv C n (State.start n s) where
  pos := hn
  client := hs
  length := List.length_replicate
  tracks := by
    have hnone : (List.replicate n Worker.idle).filterMap Worker.job? = [] := by
      simp [Worker.job?]
    rw [State.jobs, State.start, hnone, hjobs]
    exact tracks_nil
  awake h := by simp [State.start] at h
  stopped h := by rcases h with h | h <;> cases h
  gone h := by simp [State.start] at h
  drained _ := rfl
  waits h := by cases h
  finished h := by cases h
  joined h := by cases h

/-- All but one worker are as they were. -/
theorem mem_of_mem_split {p q x : Worker} (h : x ∈ l ++ q :: r) (hne : x ≠ q) :
    x ∈ l ++ p :: r := by
  simp only [List.mem_append, List.mem_cons] at h ⊢
  exact h.imp id fun h => Or.inr (h.resolve_left hne)

theorem idle_split (l r : List Worker) (p : Worker) : (l ++ p :: r).countP Worker.isIdle =
    l.countP Worker.isIdle + r.countP Worker.isIdle + if p.isIdle then 1 else 0 := by
  rw [List.countP_append, List.countP_cons]
  omega

theorem pending_split (l r : List Worker) (p : Worker) :
    ((l ++ p :: r).map Worker.pending).sum =
      (l.map Worker.pending).sum + (r.map Worker.pending).sum + p.pending := by
  rw [List.map_append, List.map_cons, List.sum_append, List.sum_cons]
  omega

namespace Notified

variable (h : Notified ws ws')
include h

theorem length_eq : ws'.length = ws.length := by
  cases h <;> simp

theorem jobs_eq : ws'.filterMap Worker.job? = ws.filterMap Worker.job? := by
  cases h <;> simp [List.filterMap_cons, Worker.job?]

theorem pending_eq : (ws'.map Worker.pending).sum = (ws.map Worker.pending).sum := by
  cases h <;> simp [Worker.pending]

theorem gone_mem (hg : .gone ∈ ws') : .gone ∈ ws := by
  cases h <;> simpa using hg

/-- If one is still asleep, another has woken up. -/
theorem idle_of_asleep (ha : .asleep ∈ ws') :
    ws'.countP Worker.isIdle = ws.countP Worker.isIdle + 1 ∧ .asleep ∈ ws := by
  cases h with
  | one => simp [Worker.isIdle]; omega
  | none hall => exact absurd ha hall

theorem gone_of_all (hall : ∀ p ∈ ws', p = .gone) : ∀ p ∈ ws, p = .gone := by
  cases h with
  | one => exact absurd (hall .idle (by simp)) (by simp)
  | none => exact hall

end Notified

namespace Inv

variable (hi : Inv C n τ)
include hi

/-- As long as a worker has not returned the workers are not joined. -/
theorem ne_joined {p : Worker} (hp : p ∈ τ.workers) (hne : p ≠ .gone) : τ.caller ≠ .joined :=
  fun h => hne (hi.joined h p hp)

/-- Something changes with the workers only. -/
theorem of_workers (hlen : ws.length = τ.workers.length)
    (hjobs : ws.filterMap Worker.job? = τ.workers.filterMap Worker.job?)
    (hawake : .asleep ∈ ws → τ.queue.length ≤
      ws.countP Worker.isIdle + ((ws.map Worker.pending).sum + τ.caller.pending))
    (hstopped : τ.caller = .joining → .asleep ∉ ws)
    (hgone : .gone ∈ ws → τ.caller.stops = true)
    (hdrained : (∀ p ∈ ws, p = .gone) → τ.queue = []) (hne : τ.caller ≠ .joined) :
    Inv C n { τ with workers := ws } where
  pos := hi.pos
  client := hi.client
  length := hlen.trans hi.length
  tracks := by
    have h := hi.tracks
    rw [State.jobs, ← hjobs] at h
    exact h
  awake := hawake
  stopped h := hstopped (h.resolve_right hne)
  gone := hgone
  drained := hdrained
  waits := hi.waits
  finished := hi.finished
  joined h := absurd h hne

/-- A worker goes on, and neither takes a job nor leaves one. -/
theorem of_worker {p q : Worker} (hw : τ.workers = l ++ p :: r) (hp : p ≠ .gone)
    (hjob : q.job? = p.job?)
    (hawake : .asleep ∈ l ++ q :: r → τ.queue.length ≤ (l ++ q :: r).countP Worker.isIdle +
      (((l ++ q :: r).map Worker.pending).sum + τ.caller.pending))
    (hstopped : τ.caller = .joining → q ≠ .asleep) (hgone : q = .gone → τ.caller.stops = true)
    (hdrained : q = .gone → τ.queue = []) :
    Inv C n { τ with workers := l ++ q :: r } := by
  have hmem : ∀ {x}, x ∈ l ++ q :: r → x ≠ q → x ∈ τ.workers := fun h hne =>
    hw ▸ mem_of_mem_split h hne
  refine hi.of_workers (by simp [hw]) ?_ hawake (fun hc ha => ?_) (fun hg => ?_) (fun hall => ?_)
    (hi.ne_joined (by rw [hw]; simp) hp)
  · rw [hw, List.filterMap_append, List.filterMap_append, List.filterMap_cons, List.filterMap_cons,
      hjob]
  · by_cases hq : q = .asleep
    · exact hstopped hc hq
    · exact hi.stopped (Or.inl hc) (hmem ha (Ne.symm hq))
  · by_cases hq : q = .gone
    · exact hgone hq
    · exact hi.gone (hmem hg (Ne.symm hq))
  · exact hdrained (hall q (by simp))

/-- A worker makes a call of `notify_one`. -/
theorem notify {j : Option ℕ} {k : ℕ} (hw : τ.workers = l ++ .busy j (k + 1) :: r)
    (hn : Notified (l ++ .busy j k :: r) ws) : Inv C n { τ with workers := ws } := by
  have hbusy : Worker.busy j (k + 1) ∈ τ.workers := by rw [hw]; simp
  have hsame : ∀ {x : Worker}, x ∈ l ++ .busy j k :: r → x ≠ .busy j k → x ∈ τ.workers :=
    fun hx hne => hw ▸ mem_of_mem_split hx hne
  refine hi.of_workers (by rw [hn.length_eq, hw]; simp) ?_ (fun ha => ?_) (fun hc ha => ?_)
    (fun hg => ?_) (fun hall => ?_) (hi.ne_joined hbusy (by simp))
  · rw [hn.jobs_eq, hw]
    simp [List.filterMap_cons, Worker.job?]
  · obtain ⟨hidle, ha'⟩ := hn.idle_of_asleep ha
    have hlen := hi.awake (hsame ha' (by simp))
    rw [hidle, hn.pending_eq]
    simp only [State.pending, hw, idle_split, pending_split, Worker.isIdle,
      Worker.pending] at hlen ⊢
    simp at hlen ⊢
    omega
  · exact hi.stopped (Or.inl hc) (hsame (hn.idle_of_asleep ha).2 (by simp))
  · exact hi.gone (hsame (hn.gone_mem hg) (by simp))
  · exact absurd (hn.gone_of_all hall (.busy j k) (by simp)) (by simp)

/-- A worker takes a job from the queue. -/
theorem take {i : ℕ} {q : List ℕ} (hw : τ.workers = l ++ .idle :: r) (hq : τ.queue = i :: q) :
    Inv C n { τ with queue := q, workers := l ++ .busy (some i) 0 :: r } := by
  have hidle : Worker.idle ∈ τ.workers := by rw [hw]; simp
  have hmem : ∀ {x : Worker}, x ∈ l ++ .busy (some i) 0 :: r → x ≠ .busy (some i) 0 →
      x ∈ τ.workers := fun hx hne => hw ▸ mem_of_mem_split hx hne
  refine ⟨hi.pos, hi.client, by simpa [hw] using hi.length, ?_, fun ha => ?_, fun hc ha => ?_,
    fun hg => hi.gone (hmem hg (by simp)), fun hall => ?_, hi.waits, hi.finished, fun hc => ?_⟩
  · refine hi.tracks.perm ?_
    rw [State.jobs, State.jobs, hw, hq]
    simp only [List.filterMap_append, List.filterMap_cons, Worker.job?, List.cons_append]
    rw [← List.append_assoc, ← List.append_assoc]
    exact List.perm_middle
  · have hlen := hi.awake (hmem ha (by simp))
    simp only [State.pending, hw, hq, idle_split, pending_split, Worker.isIdle, Worker.pending,
      List.length_cons] at hlen ⊢
    simp at hlen ⊢
    omega
  · exact hi.stopped hc (hmem ha (by simp))
  · exact absurd (hall (.busy (some i) 0) (by simp)) (by simp)
  · exact absurd hc (hi.ne_joined hidle (by simp))

/-- **A job goes on**, or ends. -/
theorem job {i k : ℕ} {s' : σ} (hw : τ.workers = l ++ .busy (some i) 0 :: r)
    (hs : C.step τ.client (.job i k) s') :
    Inv C n
      { client := s'
        queue := τ.queue ++ List.range' (C.jobs τ.client).length k
        workers := l ++ .busy (if (C.jobs s')[i]? = some true then some i else none) k :: r
        caller := if (C.jobs s')[i]? = some true then τ.caller else τ.caller.notified } := by
  have hbusy : Worker.busy (some i) 0 ∈ τ.workers := by rw [hw]; simp
  have hne := hi.ne_joined hbusy (by simp)
  have hmem : ∀ {x : Worker} {j : Option ℕ}, x ∈ l ++ .busy j k :: r → x ≠ .busy j k →
      x ∈ τ.workers := fun hx hne => hw ▸ mem_of_mem_split hx hne
  obtain ⟨l₀, b, r₀, rfl, hold, hnew⟩ := C.jobs_job hi.client hs
  have hb : (C.jobs s')[l₀.length]? = some b := by
    rw [hnew, List.append_assoc, List.getElem?_append_right (Nat.le_refl _)]
    simp
  have htracks := hi.tracks
  rw [hold] at htracks
  have hlen : ∀ b, (l₀ ++ b :: r₀).length = (C.jobs τ.client).length := fun b => by
    rw [hold]
    simp
  have hsplit : τ.jobs = τ.queue ++ (l.filterMap Worker.job? ++
      l₀.length :: r.filterMap Worker.job?) := by
    rw [State.jobs, hw]
    simp [Worker.job?]
  have hperm : ∀ held new : List ℕ, (τ.queue ++ new ++ held).Perm (τ.queue ++ held ++ new) := by
    intro held new
    rw [List.append_assoc, List.append_assoc]
    exact List.Perm.append_left _ List.perm_append_comm
  have hawake : ∀ {j : Option ℕ} {c : Caller}, c.pending = τ.caller.pending →
      Worker.asleep ∈ l ++ .busy j k :: r →
      (τ.queue ++ List.range' (C.jobs τ.client).length k).length ≤
        (l ++ .busy j k :: r).countP Worker.isIdle +
          (((l ++ .busy j k :: r).map Worker.pending).sum + c.pending) := fun hc ha => by
    have h := hi.awake (hmem ha (by simp))
    simp only [State.pending, hw, idle_split, pending_split, Worker.isIdle, Worker.pending,
      List.length_append, List.length_range', hc] at h ⊢
    simp at h ⊢
    omega
  have hlength : ∀ j, (l ++ Worker.busy j k :: r).length = n := fun j => by
    rw [← hi.length, hw]
    simp
  cases b with
  | true =>
    rw [if_pos hb, if_pos hb]
    refine ⟨hi.pos, C.inv_step hi.client hs, hlength _, ?_, hawake rfl,
      fun hc ha => hi.stopped hc (hmem ha (by simp)), fun hg => hi.gone (hmem hg (by simp)),
      fun hall => absurd (hall (.busy (some l₀.length) k) (by simp)) (by simp),
      fun hc => ⟨C.waits_job hs (hi.waits hc).1, List.mem_of_getElem? hb⟩,
      fun hc => C.finished_job hs (hi.finished hc), fun hc => absurd hc hne⟩
    rw [hnew, ← hlen true]
    refine (htracks.spawn k).perm ?_
    rw [hsplit, State.jobs]
    simp only [List.filterMap_append, List.filterMap_cons, Worker.job?]
    exact hperm _ _
  | false =>
    have hb' : ¬ (C.jobs s')[l₀.length]? = some true := by simp [hb]
    rw [if_neg hb', if_neg hb']
    have hpending : τ.caller.notified.pending = τ.caller.pending := by cases τ.caller <;> rfl
    have hstops : τ.caller.notified.stops = τ.caller.stops := by cases τ.caller <;> rfl
    have hstopped : τ.caller.notified = .joining ∨ τ.caller.notified = .joined →
        τ.caller = .joining ∨ τ.caller = .joined := by
      cases τ.caller <;> simp [Caller.notified]
    refine ⟨hi.pos, C.inv_step hi.client hs, hlength _, ?_, hawake hpending,
      fun hc ha => hi.stopped (hstopped hc) (hmem ha (by simp)),
      fun hg => hstops.trans (hi.gone (hmem hg (by simp))),
      fun hall => absurd (hall (.busy none k) (by simp)) (by simp),
      fun hc => ?_, fun hc => C.finished_job hs (hi.finished (hstops.symm.trans hc)), fun hc => ?_⟩
    · rw [hnew, ← hlen false]
      have hfirst : (l₀.length :: (τ.queue ++ (l.filterMap Worker.job? ++
          r.filterMap Worker.job?))).Perm τ.jobs := by
        rw [hsplit, ← List.append_assoc, ← List.append_assoc]
        exact List.perm_middle.symm
      refine (((htracks.perm hfirst).ended rfl).spawn k).perm ?_
      rw [State.jobs]
      simp only [List.filterMap_append, List.filterMap_cons, Worker.job?]
      exact hperm _ _
    · cases hcaller : τ.caller <;> simp [hcaller, Caller.notified] at hc
    · exact absurd ((hstopped (Or.inr hc)).resolve_left fun hj => by
        simp [hj, Caller.notified] at hc) hne

/-- The calling thread enqueues a job. -/
theorem enqueue {s' : σ} (hc : τ.caller = .awake 0) (hs : C.step τ.client .enqueue s') :
    Inv C n { τ with
      client := s', queue := τ.queue ++ [(C.jobs τ.client).length], caller := .awake 1 } := by
  have hstops : τ.caller.stops = false := by rw [hc]; rfl
  have hgone : .gone ∉ τ.workers := fun hg => by
    rw [hi.gone hg] at hstops
    cases hstops
  refine ⟨hi.pos, C.inv_step hi.client hs, hi.length, ?_, fun ha => ?_,
    by simp, fun hg => absurd hg hgone, fun hall => ?_, nofun, nofun, nofun⟩
  · rw [C.jobs_enqueue hi.client hs]
    refine (hi.tracks.spawn 1).perm ?_
    rw [State.jobs, State.jobs, List.append_assoc, List.append_assoc]
    exact List.Perm.append_left _ List.perm_append_comm
  · have h := hi.awake ha
    rw [State.pending, hc] at h
    simp only [State.pending, Caller.pending, List.length_append, List.length_singleton] at h ⊢
    omega
  · -- there are workers, and they have not been told to stop
    obtain ⟨p, hp⟩ := List.exists_mem_of_length_pos (hi.length ▸ hi.pos)
    exact absurd (hall p hp ▸ hp) hgone

/-- The calling thread makes a call of `notify_one`. -/
theorem notifyOne {k : ℕ} (hc : τ.caller = .awake (k + 1)) (hn : Notified τ.workers ws) :
    Inv C n { τ with workers := ws, caller := .awake k } := by
  have hw : Inv C n { τ with workers := ws, caller := .awake (k + 1) } := by
    rw [← hc]
    refine hi.of_workers hn.length_eq hn.jobs_eq (fun ha => ?_) (fun h => by simp [hc] at h)
      (fun hg => hi.gone (hn.gone_mem hg)) (fun hall => hi.drained (hn.gone_of_all hall))
      (by simp [hc])
    obtain ⟨hidle, ha'⟩ := hn.idle_of_asleep ha
    have h := hi.awake ha'
    rw [State.pending] at h
    rw [hidle, hn.pending_eq]
    omega
  refine ⟨hw.pos, hw.client, hw.length, hw.tracks, fun ha => ?_, by simp, hw.gone, hw.drained,
    nofun, nofun, nofun⟩
  obtain ⟨hidle, ha'⟩ := hn.idle_of_asleep ha
  have h := hi.awake ha'
  rw [State.pending, hc] at h
  simp only [State.pending, Caller.pending, hidle, hn.pending_eq] at h ⊢
  omega

/-- Something changes with the calling thread only. -/
theorem of_caller {c : Caller} (hpending : c.pending = τ.caller.pending)
    (hstopped : c = .joining ∨ c = .joined → .asleep ∉ τ.workers)
    (hgone : τ.caller.stops = true → c.stops = true)
    (hwaits : c = .asleep → C.waits τ.client ∧ true ∈ C.jobs τ.client)
    (hover : c.stops = true → C.finished τ.client)
    (hjoined : c = .joined → ∀ p ∈ τ.workers, p = .gone) : Inv C n { τ with caller := c } where
  pos := hi.pos
  client := hi.client
  length := hi.length
  tracks := hi.tracks
  awake ha := by
    have h := hi.awake ha
    rw [State.pending] at h ⊢
    rw [hpending]
    exact h
  stopped := hstopped
  gone hg := hgone (hi.gone hg)
  drained := hi.drained
  waits := hwaits
  finished := hover
  joined := hjoined

/-- All who are asleep are notified. -/
theorem notifyAll (hc : τ.caller = .stopping) :
    Inv C n { τ with workers := τ.workers.map Worker.woken, caller := .joining } := by
  have hwoken : ∀ p ∈ τ.workers.map Worker.woken, p ≠ .asleep := by
    intro p hp he
    obtain ⟨q, -, rfl⟩ := List.mem_map.mp hp
    rw [Worker.woken] at he
    split_ifs at he with hq
    exact hq he
  have hjob : ∀ p : Worker, p.woken.job? = p.job? := fun p => by cases p <;> rfl
  refine ⟨hi.pos, hi.client, by simpa using hi.length, ?_, fun ha => absurd rfl (hwoken _ ha),
    fun _ ha => hwoken _ ha rfl, fun _ => rfl, fun hall => hi.drained fun p hp => ?_,
    nofun, fun _ => hi.finished (by rw [hc]; rfl), nofun⟩
  · have h := hi.tracks
    rw [State.jobs] at h ⊢
    rwa [List.filterMap_map, show Worker.job? ∘ Worker.woken = Worker.job? from funext hjob]
  · have hgone := hall _ (List.mem_map_of_mem hp)
    rw [Worker.woken] at hgone
    split_ifs at hgone
    exact hgone

/-- **A step keeps the invariant.** -/
theorem step (hs : Step C sp τ τ') : Inv C n τ' := by
  cases hs with
  | job hw hs => exact hi.job hw hs
  | notify hw hn => exact hi.notify hw hn
  | @finish l r hw =>
    refine hi.of_worker hw (by simp) rfl (fun ha => ?_) (by simp) (by simp) (by simp)
    have hold : .asleep ∈ τ.workers := by
      rw [hw]
      simpa using ha
    have h := hi.awake hold
    simp only [State.pending, hw, idle_split, pending_split, Worker.isIdle, Worker.pending] at h ⊢
    simp at h ⊢
    omega
  | take hw hq => exact hi.take hw hq
  | @doze l r hw hq hstop =>
    refine hi.of_worker hw (by simp) rfl (fun _ => by simp [hq]) (fun hc => ?_) (by simp) (by simp)
    rw [hc] at hstop
    cases hstop
  | @leave l r hw hq hstop =>
    exact hi.of_worker hw (by simp) rfl (fun _ => by simp [hq]) (fun _ => by simp)
      (fun _ => hstop) (fun _ => hq)
  | enqueue hc hs => exact hi.enqueue hc hs
  | notifyOne hc hn => exact hi.notifyOne hc hn
  | wait hc hwait hrun =>
    refine hi.of_caller (by rw [hc]; rfl) (by simp)
      (fun h => ?_) (fun _ => ⟨hwait, hrun⟩) nofun nofun
    rw [hc] at h
    cases h
  | @main s hc hs =>
    have hsame := C.jobs_main hi.client hs
    refine ⟨hi.pos, C.inv_step hi.client hs, hi.length,
      ⟨hi.tracks.nodup, fun i => (hi.tracks.mem_iff i).trans (hsame i).symm⟩, hi.awake,
      hi.stopped, hi.gone, hi.drained, fun h => ?_, fun h => ?_, hi.joined⟩
    · rw [hc] at h
      cases h
    · rw [hc] at h
      cases h
  | stop hc hover =>
    exact hi.of_caller (by rw [hc]; rfl) (by simp)
      (fun _ => rfl) nofun (fun _ => hover) nofun
  | notifyAll hc => exact hi.notifyAll hc
  | join hc hgone =>
    exact hi.of_caller (by rw [hc]; rfl) (fun _ => hi.stopped (Or.inl hc)) (fun _ => rfl)
      nofun (fun _ => hi.finished (by rw [hc]; rfl)) (fun _ => hgone)
  | @wakeWorker l r _ hw =>
    refine hi.of_worker hw (by simp) rfl (fun ha => ?_) (by simp) (by simp) (by simp)
    have h := hi.awake (by rw [hw]; simp)
    simp only [State.pending, hw, idle_split, pending_split, Worker.isIdle, Worker.pending] at h ⊢
    simp at h ⊢
    omega
  | wakeCaller _ hc =>
    refine hi.of_caller (by rw [hc]; rfl) (by simp)
      (fun h => ?_) nofun nofun nofun
    rw [hc] at h
    cases h

end Inv

/-- **What holds in every run of a pool.** -/
theorem inv_of_run (hn : 0 < n) (hs : C.Inv s) (hjobs : C.jobs s = [])
    (hrun : Reaches (Step C sp) (State.start n s) τ) : Inv C n τ :=
  hrun.invariant (inv_start hn hs hjobs) fun _ _ hi hs => hi.step hs

/-! ### Nothing is lost -/

theorem exists_notified (ws : List Worker) : ∃ ws', Notified ws ws' := by
  by_cases ha : .asleep ∈ ws
  · obtain ⟨l, r, rfl⟩ := List.append_of_mem ha
    exact ⟨_, .one⟩
  · exact ⟨ws, .none ha⟩

namespace Inv

variable (hi : Inv C n τ)
include hi

theorem exists_step_of_busy {j : Option ℕ} {k : ℕ} (hp : .busy j k ∈ τ.workers) :
    ∃ τ', Step C sp τ τ' := by
  obtain ⟨l, r, hw⟩ := List.append_of_mem hp
  cases k with
  | succ k =>
    obtain ⟨ws, hn⟩ := exists_notified (l ++ .busy j k :: r)
    exact ⟨_, .notify hw hn⟩
  | zero =>
    cases j with
    | none => exact ⟨_, .finish hw⟩
    | some i =>
      have hjob : i ∈ τ.jobs := by
        rw [State.jobs, hw]
        simp [Worker.job?]
      obtain ⟨k, s', hs⟩ := C.goes_on hi.client ((hi.tracks.mem_iff i).mp hjob)
      exact ⟨_, .job hw hs⟩

omit hi in
theorem exists_step_of_idle (hp : .idle ∈ τ.workers) : ∃ τ', Step C sp τ τ' := by
  obtain ⟨l, r, hw⟩ := List.append_of_mem hp
  cases hq : τ.queue with
  | cons i q => exact ⟨_, .take hw hq⟩
  | nil =>
    cases hstop : τ.caller.stops with
    | true => exact ⟨_, .leave hw hq hstop⟩
    | false => exact ⟨_, .doze hw hq hstop⟩

/-- While a job is in the queue and the workers are not told to stop, one of them can take a step,
or the calling thread has to notify one. -/
theorem exists_step_of_queue (hq : τ.queue ≠ []) (hstop : τ.caller.stops = false)
    (hcaller : τ.caller.pending = 0) : ∃ τ', Step C sp τ τ' := by
  obtain ⟨p, hp⟩ := List.exists_mem_of_length_pos (hi.length ▸ hi.pos)
  cases p with
  | idle => exact exists_step_of_idle hp
  | busy j k => exact hi.exists_step_of_busy hp
  | gone =>
    rw [hi.gone hp] at hstop
    cases hstop
  | asleep =>
    have hlen := hi.awake hp
    have hpos := List.length_pos_of_ne_nil hq
    rw [State.pending, hcaller] at hlen
    by_cases hidle : 0 < τ.workers.countP Worker.isIdle
    · obtain ⟨q, hq, hqi⟩ := List.countP_pos_iff.mp hidle
      obtain rfl : q = .idle := by simpa [Worker.isIdle] using hqi
      exact exists_step_of_idle hq
    · have hsum : (τ.workers.map Worker.pending).sum ≠ 0 := by omega
      obtain ⟨q, hq, hqp⟩ : ∃ q ∈ τ.workers, q.pending ≠ 0 := by
        obtain ⟨k, hk, hpos⟩ := List.sum_pos_iff_exists_pos_nat.mp (Nat.pos_of_ne_zero hsum)
        obtain ⟨q, hq, rfl⟩ := List.mem_map.mp hk
        exact ⟨q, hq, Nat.pos_iff_ne_zero.mp hpos⟩
      cases q with
      | busy j k => exact hi.exists_step_of_busy hq
      | _ => exact absurd rfl hqp

/-- **No thread waits for ever**: until the workers are joined, some thread can take a step. -/
theorem exists_step (hc : τ.caller ≠ .joined) : ∃ τ', Step C sp τ τ' := by
  cases hcaller : τ.caller with
  | awake k =>
    cases k with
    | succ k =>
      obtain ⟨ws, hn⟩ := exists_notified τ.workers
      exact ⟨_, .notifyOne hcaller hn⟩
    | zero =>
      rcases C.main_goes_on hi.client with hover | ⟨s', hs⟩ | ⟨s', hs⟩ | ⟨hwait, hrun⟩
      · exact ⟨_, .stop hcaller hover⟩
      · exact ⟨_, .enqueue hcaller hs⟩
      · exact ⟨_, .main hcaller hs⟩
      · exact ⟨_, .wait hcaller hwait hrun⟩
  | asleep =>
    obtain ⟨i, hlt, hjob⟩ := List.mem_iff_getElem.mp (hi.waits hcaller).2
    have hmem : i ∈ τ.jobs := (hi.tracks.mem_iff i).mpr (by rw [List.getElem?_eq_getElem hlt, hjob])
    rcases List.mem_append.mp hmem with hq | hw
    · refine hi.exists_step_of_queue (List.ne_nil_of_mem hq) ?_ ?_ <;> rw [hcaller] <;> rfl
    · obtain ⟨p, hp, hpj⟩ := List.mem_filterMap.mp hw
      cases p with
      | busy j k => exact hi.exists_step_of_busy hp
      | _ => cases hpj
  | stopping => exact ⟨_, .notifyAll hcaller⟩
  | joining =>
    by_cases hgone : ∀ p ∈ τ.workers, p = .gone
    · exact ⟨_, .join hcaller hgone⟩
    · push Not at hgone
      obtain ⟨p, hp, hne⟩ := hgone
      cases p with
      | idle => exact exists_step_of_idle hp
      | busy j k => exact hi.exists_step_of_busy hp
      | gone => exact absurd rfl hne
      | asleep => exact absurd hp (hi.stopped (Or.inl hcaller))
  | joined => exact absurd hcaller hc

/-- When no job has yet to end, none is in the queue or with a worker. -/
theorem jobs_eq_nil (hnone : true ∉ C.jobs τ.client) : τ.jobs = [] :=
  List.eq_nil_iff_forall_not_mem.mpr fun _ hi' =>
    hnone (List.mem_of_getElem? ((hi.tracks.mem_iff _).mp hi'))

/-- **When the workers are joined all jobs have ended**, and the client has nothing left to do. -/
theorem all_ended (hc : τ.caller = .joined) :
    τ.queue = [] ∧ true ∉ C.jobs τ.client ∧ C.finished τ.client := by
  have hgone := hi.joined hc
  have hqueue := hi.drained hgone
  refine ⟨hqueue, fun hrun => ?_, hi.finished (by rw [hc]; rfl)⟩
  obtain ⟨i, hlt, hjob⟩ := List.mem_iff_getElem.mp hrun
  have hmem : i ∈ τ.jobs := (hi.tracks.mem_iff i).mpr (by rw [List.getElem?_eq_getElem hlt, hjob])
  rw [State.jobs, hqueue, List.nil_append] at hmem
  obtain ⟨p, hp, hpj⟩ := List.mem_filterMap.mp hmem
  rw [hgone p hp] at hpj
  cases hpj

end Inv

/-! ### Every run ends -/

/-- How far a pool is from its next step of the client, or from its end. -/
def State.rank (τ : State σ) : ℕ :=
  3 * τ.queue.length + (τ.workers.map Worker.rank).sum + τ.caller.rank τ.workers.length

theorem rank_split (l r : List Worker) (p : Worker) :
    ((l ++ p :: r).map Worker.rank).sum =
      (l.map Worker.rank).sum + (r.map Worker.rank).sum + p.rank := by
  rw [List.map_append, List.map_cons, List.sum_append, List.sum_cons]
  omega

theorem Notified.rank_le (h : Notified ws ws') :
    (ws'.map Worker.rank).sum ≤ (ws.map Worker.rank).sum + 1 := by
  cases h with
  | one => simp only [rank_split, Worker.rank]; omega
  | none => omega

theorem rank_woken (ws : List Worker) : ((ws.map Worker.woken).map Worker.rank).sum ≤
    (ws.map Worker.rank).sum + ws.length := by
  induction ws with
  | nil => simp
  | cons p ws ih =>
    have hp : p.woken.rank ≤ p.rank + 1 := by cases p <;> simp [Worker.woken, Worker.rank]
    simp only [List.map_cons, List.sum_cons, List.length_cons] at ih ⊢
    omega

/-- **A step that the client does not see leads on**, unless it is a spurious wake-up. -/
theorem Step.rank_lt (hs : Step C False τ τ') :
    C.AnyStep τ.client τ'.client ∨ τ'.client = τ.client ∧ τ'.rank < τ.rank := by
  cases hs with
  | job _ hs => exact Or.inl ⟨_, hs⟩
  | enqueue _ hs => exact Or.inl ⟨_, hs⟩
  | main _ hs => exact Or.inl ⟨_, hs⟩
  | @notify l r j k ws hw hn =>
    refine Or.inr ⟨rfl, ?_⟩
    have hlen : ws.length = τ.workers.length := by rw [hn.length_eq, hw]; simp
    have hle := hn.rank_le
    rw [rank_split] at hle
    simp only [State.rank, hlen, hw, rank_split, Worker.rank] at hle ⊢
    omega
  | @finish l r hw =>
    refine Or.inr ⟨rfl, ?_⟩
    simp only [State.rank, hw, rank_split, Worker.rank, List.length_append, List.length_cons]
    omega
  | @take l r i q hw hq =>
    refine Or.inr ⟨rfl, ?_⟩
    simp only [State.rank, hw, hq, rank_split, Worker.rank, List.length_append, List.length_cons]
    omega
  | @doze l r hw hq hstop =>
    refine Or.inr ⟨rfl, ?_⟩
    simp only [State.rank, hw, rank_split, Worker.rank, List.length_append, List.length_cons]
    omega
  | @leave l r hw hq hstop =>
    refine Or.inr ⟨rfl, ?_⟩
    simp only [State.rank, hw, rank_split, Worker.rank, List.length_append, List.length_cons]
    omega
  | @notifyOne k ws hc hn =>
    refine Or.inr ⟨rfl, ?_⟩
    have hle := hn.rank_le
    simp only [State.rank, hc, hn.length_eq, Caller.rank]
    omega
  | wait hc =>
    refine Or.inr ⟨rfl, ?_⟩
    simp only [State.rank, hc, Caller.rank]
    omega
  | stop hc =>
    refine Or.inr ⟨rfl, ?_⟩
    simp only [State.rank, hc, Caller.rank]
    omega
  | notifyAll hc =>
    refine Or.inr ⟨rfl, ?_⟩
    have hle := rank_woken τ.workers
    simp only [State.rank, hc, Caller.rank]
    omega
  | join hc =>
    refine Or.inr ⟨rfl, ?_⟩
    simp only [State.rank, hc, Caller.rank]
    omega
  | wakeWorker hsp => exact hsp.elim
  | wakeCaller hsp => exact hsp.elim

/-- **On a pool every run ends** that ends without. -/
theorem terminates {Other : σ → σ → Prop} (hsub : ∀ {u a v}, C.step u a v → Other u v)
    (hend : Terminates Other s) : Terminates (Step C False) (State.start n s) :=
  terminates_of_stutter State.client State.rank hend fun _ _ hs =>
    hs.rank_lt.imp_left fun ⟨_, hclient⟩ => hsub hclient

/-- What is no spurious wake-up is a step where there are such. -/
theorem Step.mono (h : Step C False τ τ') : Step C True τ τ' := by
  cases h with
  | job hw hs => exact .job hw hs
  | notify hw hn => exact .notify hw hn
  | finish hw => exact .finish hw
  | take hw hq => exact .take hw hq
  | doze hw hq hstop => exact .doze hw hq hstop
  | leave hw hq hstop => exact .leave hw hq hstop
  | enqueue hc hs => exact .enqueue hc hs
  | notifyOne hc hn => exact .notifyOne hc hn
  | wait hc hwait hrun => exact .wait hc hwait hrun
  | main hc hs => exact .main hc hs
  | stop hc hover => exact .stop hc hover
  | notifyAll hc => exact .notifyAll hc
  | join hc hgone => exact .join hc hgone
  | wakeWorker hsp => exact hsp.elim
  | wakeCaller hsp => exact hsp.elim

/-- **The workers can be joined**, if every run ends and none is stuck before. -/
theorem exists_joined (hend : Terminates (Step C False) τ)
    (hstep : ∀ u, Reaches (Step C True) τ u → u.caller ≠ .joined → ∃ v, Step C False u v) :
    ∃ u, (Reaches (Step C False) τ u ∧ Reaches (Step C True) τ u) ∧ u.caller = .joined := by
  obtain ⟨u, hu, hjoined⟩ := @Terminates.exists_reaches _ _ _ (Reaches (Step C True) τ)
    (fun u => u.caller = .joined) hend .refl fun u hu hne => by
      obtain ⟨v, hv⟩ := hstep u hu hne
      exact ⟨v, hv, hu.tail hv.mono⟩
  exact ⟨u, ⟨hu, hu.mono fun _ _ => Step.mono⟩, hjoined⟩

end Run

end Workers
