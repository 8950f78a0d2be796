import Fstree.Foundations.Pool
import Fstree.Foundations.Transition
import Mathlib.Data.List.Induction

/-!
# Forking and joining on a pool of workers

A task may fork others, and waits for them at its end. Whoever executes it calls a function; a
task that is forked is either accepted by the pool, if a permit of its semaphore is left, and
executed by a worker, which gives the permit back at the end, or it is executed at once by the
thread that has forked it. There are as many permits as workers. What a task does is a
relation (`ForkJoin.Act`); the threads take their steps in any order (`ForkJoin.Step`), and a worker
that finds the queue empty falls asleep until it is notified.

What holds of the calls alone, whatever the workers do: a call was begun after the one that waits
for it, what is executed inside a call has not been left (`ForkJoin.Shape`), and the wait groups
count the tasks that have not (`ForkJoin.Counted`). A call that goes on, one that forks a task and
one that is left keep both.
-/

namespace ForkJoin

open Pool Transition

/-! ### Calls and workers -/

/-- **What a task does next.** -/
inductive Act (β : Type*)
  | go (b : β)
  /-- It has a task done, and goes on as `b`. -/
  | fork (task b : β)
  /-- It is left by an exception. -/
  | throw
  /-- It is at its end, and waits. -/
  | join

/-- Who executes a call: a thread that is none of the pool, the thread that has forked the task, or
a worker. -/
inductive Mode
  | caller
  | inlined
  | pooled
deriving DecidableEq

/-- **How far a call has got.** -/
inductive Phase (β : Type*)
  | queued (b : β)
  | running (b : β)
  /-- A task was pushed to the queue, and a worker is to be notified. -/
  | notifying (b : β)
  /-- It executes the call at `c`. -/
  | inside (c : ℕ) (b : β)
  | joining
  /-- It has reported, and its permit is to be given back. -/
  | releasing (failed : Bool)
  | ended (failed : Bool)

variable {β : Type*}

namespace Phase

def isQueued : Phase β → Bool
  | queued _ => true
  | _ => false

def isNotifying : Phase β → Bool
  | notifying _ => true
  | _ => false

def isEnded : Phase β → Bool
  | ended _ => true
  | _ => false

/-- The call has been left, and its owner knows. -/
def left : Phase β → Bool
  | releasing _ | ended _ => true
  | _ => false

/-- A call goes on when one that it executes has been left. -/
def resume : Mode → Phase β → Phase β
  | .inlined, inside _ b => running b
  | _, p => p

end Phase

/-- The phase of a call that has been left: if the pool has accepted it, its permit is left to be
given back. -/
def leftPhase (m : Mode) (failed : Bool) : Phase β :=
  if m = .pooled then .releasing failed else .ended failed

/-- **A call**: the one that waits for it, who executes it, how far it has got, and the wait group
of the tasks it forks. -/
structure Call (β : Type*) where
  owner : Option ℕ
  mode : Mode
  phase : Phase β
  wg : WaitGroup := {}

namespace Call

/-- The task was accepted, and has not ended. -/
def accepted (c : Call β) : Bool := c.mode = .pooled && !c.phase.isEnded

/-- A worker has taken it. -/
def taken (c : Call β) : Bool := c.accepted && !c.phase.isQueued

/-- The call at `i` waits for it. -/
def awaited (i : ℕ) (c : Call β) : Bool := c.owner = some i && !c.phase.left

end Call

/-- **A worker.** -/
inductive Worker
  | idle
  | asleep
  | busy (c : ℕ)
deriving DecidableEq

def Worker.isIdle (w : Worker) : Bool := w = .idle

def Worker.isBusy : Worker → Bool
  | busy _ => true
  | _ => false

/-- **The state of a pool**, and of all calls that were ever begun. -/
structure State (β : Type*) where
  calls : List (Call β)
  queue : List ℕ
  permits : ℕ
  workers : List Worker

namespace State

/-- A pool of `n` workers, and threads that begin with these tasks. -/
def start (n : ℕ) (tasks : List β) : State β where
  calls := tasks.map fun b => ⟨none, .caller, .running b, {}⟩
  queue := []
  permits := n
  workers := List.replicate n .idle

/-- The call at `i` goes on. -/
def goOn (σ : State β) (i : ℕ) (c : Call β) (p : Phase β) : State β :=
  { σ with calls := σ.calls.set i { c with phase := p } }

/-- The calls after one has reported to its owner. -/
def report (calls : List (Call β)) (c : Call β) (failed : Bool) : List (Call β) :=
  match c.owner with
  | none => calls
  | some o =>
    match calls[o]? with
    | none => calls
    | some d => calls.set o { d with
        phase := d.phase.resume c.mode
        wg := d.wg.settle (if failed then .failed else .done) }

/-- **A call is left**, and reports. -/
def leave (σ : State β) (i : ℕ) (c : Call β) (failed : Bool) : State β :=
  { σ with calls := report (σ.calls.set i { c with phase := leftPhase c.mode failed }) c failed }

end State

/-- **One step of a thread.** -/
inductive Step (acts : β → Act β → Prop) : State β → State β → Prop
  | go {σ : State β} {i c b b'} (hc : σ.calls[i]? = some c) (hp : c.phase = .running b)
      (ha : acts b (.go b')) : Step acts σ (σ.goOn i c (.running b'))
  /-- There is a permit: the task is pushed to the queue. -/
  | accept {σ : State β} {i c b k b' n} (hc : σ.calls[i]? = some c) (hp : c.phase = .running b)
      (ha : acts b (.fork k b')) (hn : σ.permits = n + 1) :
      Step acts σ { σ with
        calls := σ.calls.set i { c with phase := .notifying b', wg := c.wg.add 1 } ++
          [⟨some i, .pooled, .queued k, {}⟩]
        queue := σ.queue ++ [σ.calls.length]
        permits := n }
  /-- There is none: the thread executes the task. -/
  | inline {σ : State β} {i c b k b'} (hc : σ.calls[i]? = some c) (hp : c.phase = .running b)
      (ha : acts b (.fork k b')) (hn : σ.permits = 0) :
      Step acts σ { σ with
        calls := σ.calls.set i { c with
            phase := .inside σ.calls.length b', wg := c.wg.add 1 } ++
          [⟨some i, .inlined, .running k, {}⟩] }
  | wake {σ : State β} {i c b w} (hc : σ.calls[i]? = some c) (hp : c.phase = .notifying b)
      (hw : σ.workers[w]? = some .asleep) :
      Step acts σ { σ.goOn i c (.running b) with workers := σ.workers.set w .idle }
  /-- No worker is asleep. -/
  | wakeNone {σ : State β} {i c b} (hc : σ.calls[i]? = some c) (hp : c.phase = .notifying b)
      (hw : .asleep ∉ σ.workers) : Step acts σ (σ.goOn i c (.running b))
  | join {σ : State β} {i c b} (hc : σ.calls[i]? = some c) (hp : c.phase = .running b)
      (ha : acts b .join) : Step acts σ (σ.goOn i c .joining)
  | throw {σ : State β} {i c b} (hc : σ.calls[i]? = some c) (hp : c.phase = .running b)
      (ha : acts b .throw) : Step acts σ (σ.leave i c true)
  /-- The wait is over. -/
  | joined {σ : State β} {i c} (hc : σ.calls[i]? = some c) (hp : c.phase = .joining)
      (hcount : c.wg.count ≤ 0) : Step acts σ (σ.leave i c c.wg.threw)
  | release {σ : State β} {i c f w} (hc : σ.calls[i]? = some c) (hp : c.phase = .releasing f)
      (hw : σ.workers[w]? = some (.busy i)) :
      Step acts σ { σ.goOn i c (.ended f) with
        permits := σ.permits + 1
        workers := σ.workers.set w .idle }
  | pop {σ : State β} {w k q c b} (hw : σ.workers[w]? = some .idle) (hq : σ.queue = k :: q)
      (hc : σ.calls[k]? = some c) (hp : c.phase = .queued b) :
      Step acts σ { σ.goOn k c (.running b) with
        queue := q
        workers := σ.workers.set w (.busy k) }

/-- **A worker falls asleep** because the queue is empty, or wakes up though nobody has notified
it. -/
inductive Rest : State β → State β → Prop
  | sleep {σ : State β} {w} (hw : σ.workers[w]? = some .idle) (hq : σ.queue = []) :
      Rest σ { σ with workers := σ.workers.set w .asleep }
  | rouse {σ : State β} {w} (hw : σ.workers[w]? = some .asleep) :
      Rest σ { σ with workers := σ.workers.set w .idle }

/-! ### Counting in lists -/

section Count

variable {α : Type*} {l : List α} {p : α → Bool} {i : ℕ} {x y : α}

/-- **One element of a list is another one**: what is counted. -/
theorem countP_set_add (h : l[i]? = some x) (y : α) :
    (l.set i y).countP p + (if p x then 1 else 0) = l.countP p + if p y then 1 else 0 := by
  obtain ⟨hlt, rfl⟩ := List.getElem?_eq_some_iff.mp h
  have hpos : (if p l[i] then 1 else 0) ≤ l.countP p := by
    split_ifs with hx
    · exact List.countP_pos_iff.mpr ⟨_, List.getElem_mem hlt, hx⟩
    · exact Nat.zero_le _
  rw [List.countP_set hlt]
  omega

theorem countP_set_of_eq (h : l[i]? = some x) (hp : p y = p x) :
    (l.set i y).countP p = l.countP p := by
  have hc := countP_set_add (p := p) h y
  rw [hp] at hc
  omega

theorem countP_lt_countP {q : α → Bool} (h : ∀ z, q z = true → p z = true) (hx : x ∈ l)
    (hp : p x = true) (hq : q x = false) : l.countP q < l.countP p := by
  obtain ⟨s, t, rfl⟩ := List.append_of_mem hx
  have hs := List.countP_mono_left fun z (_ : z ∈ s) => h z
  have ht := List.countP_mono_left fun z (_ : z ∈ t) => h z
  simp only [List.countP_append, List.countP_cons, hp, hq, if_true, Bool.false_eq_true, if_false]
  omega

theorem eq_of_getElem?_set {j : ℕ} {z : α} (h : (l.set i y)[j]? = some z) :
    (j = i ∧ z = y) ∨ (j ≠ i ∧ l[j]? = some z) := by
  rw [List.getElem?_set] at h
  split_ifs at h with hij hlt
  · exact Or.inl ⟨hij.symm, (Option.some.inj h).symm⟩
  · exact Or.inr ⟨fun he => hij he.symm, h⟩

theorem eq_of_getElem?_concat {j : ℕ} {z : α} (h : (l ++ [y])[j]? = some z) :
    (l[j]? = some z) ∨ (j = l.length ∧ z = y) := by
  rcases Nat.lt_or_ge j l.length with hlt | hge
  · rw [List.getElem?_append_left hlt] at h
    exact Or.inl h
  · rw [List.getElem?_append_right hge, List.getElem?_singleton] at h
    split_ifs at h with hj
    exact Or.inr ⟨by omega, (Option.some.inj h).symm⟩

/-- The last element that is not as it should be. -/
theorem exists_last {P : α → Prop} (h : ∃ x ∈ l, ¬ P x) :
    ∃ (i : ℕ) (x : α), l[i]? = some x ∧ ¬ P x ∧
      ∀ (j : ℕ) (y : α), i < j → l[j]? = some y → P y := by
  induction l using List.reverseRecOn with
  | nil =>
    obtain ⟨x, hx, -⟩ := h
    cases hx
  | append_singleton l z ih =>
    by_cases hz : P z
    · obtain ⟨x, hx, hn⟩ := h
      have hxl : x ∈ l := (List.mem_append.mp hx).resolve_right fun he =>
        hn (List.mem_singleton.mp he ▸ hz)
      obtain ⟨i, x, hi, hn, hlast⟩ := ih ⟨x, hxl, hn⟩
      refine ⟨i, x, ?_, hn, fun j y hj hy => ?_⟩
      · rw [List.getElem?_append_left (List.getElem?_eq_some_iff.mp hi).1, hi]
      · rcases eq_of_getElem?_concat hy with hy | ⟨-, rfl⟩
        · exact hlast j y hj hy
        · exact hz
    · refine ⟨l.length, z, by simp, hz, fun j y hj hy => ?_⟩
      have hlt := (List.getElem?_eq_some_iff.mp hy).1
      rw [List.length_append, List.length_singleton] at hlt
      omega

theorem getElem?_concat_of_some {j : ℕ} {z : α} (h : l[j]? = some z) (y : α) :
    (l ++ [y])[j]? = some z := by
  rw [List.getElem?_append_left (List.getElem?_eq_some_iff.mp h).1, h]

theorem mem_set_of_ne {z : α} (h : l[i]? = some x) (y : α) (hz : z ∈ l) (hne : z ≠ x) :
    z ∈ l.set i y := by
  obtain ⟨j, hj⟩ := List.mem_iff_getElem?.mp hz
  have hij : i ≠ j := by
    rintro rfl
    exact hne (Option.some.inj (hj.symm.trans h))
  exact List.mem_of_getElem? (List.getElem?_set_ne hij ▸ hj)

theorem getElem?_set_of_some (h : l[i]? = some x) (y : α) : (l.set i y)[i]? = some y := by
  rw [List.getElem?_set_self (List.getElem?_eq_some_iff.mp h).1]

end Count

/-! ### Reporting to an owner -/

section Report

variable {calls : List (Call β)} {c d : Call β} {i j : ℕ} {failed : Bool}

/-- What the pool counts of a call: not what it waits for, nor whether it executes another. -/
def Countable (f : Call β → Bool) : Prop :=
  ∀ (d : Call β) m wg, f { d with phase := d.phase.resume m, wg := wg } = f d

theorem left_resume (m : Mode) (p : Phase β) : (p.resume m).left = p.left := by
  cases m <;> cases p <;> rfl

theorem isQueued_resume (m : Mode) (p : Phase β) : (p.resume m).isQueued = p.isQueued := by
  cases m <;> cases p <;> rfl

theorem countable_accepted : Countable (Call.accepted : Call β → Bool) := by
  rintro ⟨o, m, p, wg⟩ m' wg'
  cases m' <;> cases p <;> rfl

theorem countable_taken : Countable (Call.taken : Call β → Bool) := by
  rintro ⟨o, m, p, wg⟩ m' wg'
  cases m' <;> cases p <;> rfl

theorem countable_notifying : Countable fun c : Call β => c.phase.isNotifying := by
  rintro ⟨o, m, p, wg⟩ m' wg'
  cases m' <;> cases p <;> rfl

theorem countable_awaited (i : ℕ) : Countable (Call.awaited i : Call β → Bool) := by
  rintro ⟨o, m, p, wg⟩ m' wg'
  cases m' <;> cases p <;> rfl

/-- **A report changes no count.** -/
theorem countP_report {f : Call β → Bool} (hf : Countable f) :
    (State.report calls c failed).countP f = calls.countP f := by
  rw [State.report]
  split
  · rfl
  · split
    · rfl
    · rename_i d hd
      exact countP_set_of_eq hd (hf d c.mode _)

/-- **What a report does**: to the owner, and to nobody else. -/
theorem eq_of_getElem?_report (h : (State.report calls c failed)[j]? = some d) :
    (c.owner ≠ some j ∧ calls[j]? = some d) ∨
      ∃ d₀, c.owner = some j ∧ calls[j]? = some d₀ ∧ d = { d₀ with
        phase := d₀.phase.resume c.mode
        wg := d₀.wg.settle (if failed then .failed else .done) } := by
  rw [State.report] at h
  cases ho : c.owner with
  | none =>
    rw [ho] at h
    exact Or.inl ⟨nofun, h⟩
  | some o =>
    simp only [ho] at h
    cases hd : calls[o]? with
    | none =>
      simp only [hd] at h
      refine Or.inl ⟨fun he => ?_, h⟩
      rw [Option.some.inj he, h] at hd
      cases hd
    | some d₀ =>
      simp only [hd] at h
      rcases eq_of_getElem?_set h with ⟨rfl, rfl⟩ | ⟨hne, h⟩
      · exact Or.inr ⟨d₀, rfl, hd, rfl⟩
      · exact Or.inl ⟨fun he => hne (Option.some.inj he).symm, h⟩

theorem exists_of_getElem?_report (h : calls[j]? = some d) :
    ∃ d', (State.report calls c failed)[j]? = some d' ∧ d'.owner = d.owner ∧ d'.mode = d.mode ∧
      d'.phase.left = d.phase.left ∧ d'.phase.isQueued = d.phase.isQueued := by
  cases hr : (State.report calls c failed)[j]? with
  | none =>
    have hlen : (State.report calls c failed).length = calls.length := by
      rw [State.report]
      split
      · rfl
      · split
        · rfl
        · rw [List.length_set]
    rw [List.getElem?_eq_none_iff, hlen] at hr
    have hlt := (List.getElem?_eq_some_iff.mp h).1
    omega
  | some d' =>
    refine ⟨d', rfl, ?_⟩
    rcases eq_of_getElem?_report hr with ⟨-, he⟩ | ⟨d₀, -, he, rfl⟩
    · rw [h] at he
      obtain rfl := Option.some.inj he
      exact ⟨rfl, rfl, rfl, rfl⟩
    · rw [h] at he
      obtain rfl := Option.some.inj he
      exact ⟨rfl, rfl, left_resume _ _, isQueued_resume _ _⟩

end Report

/-! ### Who waits for whom -/

/-- **The shape of the calls**: a call was begun after the one that waits for it, what is executed
inside a call has not been left, and only what the pool has accepted is queued or gives a permit
back. -/
structure Shape (calls : List (Call β)) : Prop where
  owner : ∀ (i : ℕ) (c : Call β) (o : ℕ), calls[i]? = some c → c.owner = some o → o < i
  inside : ∀ (i : ℕ) (c : Call β) (k : ℕ) (b : β), calls[i]? = some c → c.phase = .inside k b →
    ∃ d, calls[k]? = some d ∧ d.owner = some i ∧ d.mode = .inlined ∧ d.phase.left = false
  pooled : ∀ (i : ℕ) (c : Call β), calls[i]? = some c → c.phase.isQueued = true ∨
    (c.phase.left = true ∧ c.phase.isEnded = false) → c.mode = .pooled

/-- **The wait groups count** the tasks that have not been left. -/
def Counted (calls : List (Call β)) : Prop :=
  ∀ (i : ℕ) (c : Call β), calls[i]? = some c → c.wg.count = (calls.countP (Call.awaited i) : ℕ)

section Shape

variable {calls : List (Call β)} {c d : Call β} {i : ℕ} {p : Phase β} {b k : β} {failed : Bool}

/-- A call goes on, and is not left by it. -/
theorem Shape.goOn (h : Shape calls) (hc : calls[i]? = some c) (hinside : ∀ k b, p ≠ .inside k b)
    (hleft : p.left = c.phase.left)
    (hpooled : p.isQueued = true ∨ (p.left = true ∧ p.isEnded = false) → c.mode = .pooled) :
    Shape (calls.set i { c with phase := p }) where
  owner j d o hd ho := by
    rcases eq_of_getElem?_set hd with ⟨rfl, rfl⟩ | ⟨-, hd⟩
    · exact h.owner j c o hc ho
    · exact h.owner j d o hd ho
  inside j d k b hd hp := by
    rcases eq_of_getElem?_set hd with ⟨rfl, rfl⟩ | ⟨-, hd⟩
    · exact absurd hp (hinside k b)
    · obtain ⟨e, he, ho, hm, hl⟩ := h.inside j d k b hd hp
      by_cases hk : k = i
      · subst hk
        rw [hc] at he
        obtain rfl := Option.some.inj he
        exact ⟨_, getElem?_set_of_some hc _, ho, hm, hleft.trans hl⟩
      · exact ⟨e, by rw [List.getElem?_set_ne (Ne.symm hk), he], ho, hm, hl⟩
  pooled j d hd hp := by
    rcases eq_of_getElem?_set hd with ⟨rfl, rfl⟩ | ⟨-, hd⟩
    · exact hpooled hp
    · exact h.pooled j d hd hp

/-- A call forks a task. -/
theorem Shape.fork (h : Shape calls) (hc : calls[i]? = some c) {wg : WaitGroup} {m : Mode}
    {q : Phase β} (hleft : q.left = false) (hp : p.left = false) (hqueued : p.isQueued = false)
    (hpooled : q.isQueued = true → m = .pooled)
    (hinside : ∀ k b, p = .inside k b → k = calls.length ∧ m = .inlined)
    (hq : ∀ k b, q ≠ .inside k b) :
    Shape (calls.set i { c with phase := p, wg := wg } ++ [⟨some i, m, q, {}⟩]) where
  owner j d o hd ho := by
    have hi := (List.getElem?_eq_some_iff.mp hc).1
    rcases eq_of_getElem?_concat hd with hd | ⟨rfl, rfl⟩
    · rcases eq_of_getElem?_set hd with ⟨rfl, rfl⟩ | ⟨-, hd⟩
      · exact h.owner j c o hc ho
      · exact h.owner j d o hd ho
    · rw [List.length_set]
      exact Option.some.inj ho ▸ hi
  inside j d k b hd hpd := by
    rcases eq_of_getElem?_concat hd with hd | ⟨rfl, rfl⟩
    · rcases eq_of_getElem?_set hd with ⟨rfl, rfl⟩ | ⟨hj, hd⟩
      · obtain ⟨rfl, rfl⟩ := hinside k b hpd
        refine ⟨⟨some _, .inlined, q, {}⟩, ?_, rfl, rfl, hleft⟩
        rw [List.getElem?_append_right (by simp), List.length_set, Nat.sub_self]
        rfl
      · obtain ⟨e, he, ho, hm, hle⟩ := h.inside j d k b hd hpd
        by_cases hk : k = i
        · subst hk
          rw [hc] at he
          obtain rfl := Option.some.inj he
          exact ⟨_, getElem?_concat_of_some (getElem?_set_of_some hc _) _, ho, hm, hp⟩
        · refine ⟨e, getElem?_concat_of_some ?_ _, ho, hm, hle⟩
          rw [List.getElem?_set_ne (Ne.symm hk), he]
    · exact absurd hpd (hq k b)
  pooled j d hd hpd := by
    rcases eq_of_getElem?_concat hd with hd | ⟨rfl, rfl⟩
    · rcases eq_of_getElem?_set hd with ⟨rfl, rfl⟩ | ⟨-, hd⟩
      · simp [hqueued, hp] at hpd
      · exact h.pooled j d hd hpd
    · simp only [hleft, Bool.false_eq_true, false_and, or_false] at hpd
      exact hpooled hpd

theorem left_leftPhase (m : Mode) (failed : Bool) : (leftPhase m failed : Phase β).left = true := by
  cases m <;> rfl

/-- **What a call leaves behind**: itself, the others, and its owner. -/
theorem eq_of_getElem?_leave {j : ℕ} (hne : c.owner ≠ some i)
    (h : (State.report (calls.set i { c with phase := p }) c failed)[j]? = some d) :
    (j = i ∧ d = { c with phase := p }) ∨ (j ≠ i ∧ c.owner ≠ some j ∧ calls[j]? = some d) ∨
    ∃ d₀, j ≠ i ∧ c.owner = some j ∧ calls[j]? = some d₀ ∧ d = { d₀ with
        phase := d₀.phase.resume c.mode
        wg := d₀.wg.settle (if failed then .failed else .done) } := by
  rcases eq_of_getElem?_report h with ⟨ho, h⟩ | ⟨d₀, ho, hd, rfl⟩
  · rcases eq_of_getElem?_set h with ⟨rfl, rfl⟩ | ⟨hj, h⟩
    · exact Or.inl ⟨rfl, rfl⟩
    · exact Or.inr (Or.inl ⟨hj, ho, h⟩)
  · have hj : j ≠ i := fun he => hne (he ▸ ho)
    rw [List.getElem?_set_ne hj.symm] at hd
    exact Or.inr (Or.inr ⟨d₀, hj, ho, hd, rfl⟩)

theorem Shape.owner_ne (h : Shape calls) (hc : calls[i]? = some c) : c.owner ≠ some i :=
  fun ho => absurd (h.owner i c i hc ho) (lt_irrefl i)

/-- A call is left. -/
theorem Shape.leave (h : Shape calls) (hc : calls[i]? = some c) :
    Shape (State.report (calls.set i { c with phase := leftPhase c.mode failed }) c failed) := by
  have hne := h.owner_ne hc
  refine ⟨fun j d o hd ho => ?_, fun j d k b hd hp => ?_, fun j d hd hp => ?_⟩
  · rcases eq_of_getElem?_leave hne hd with ⟨rfl, rfl⟩ | ⟨-, -, hj⟩ | ⟨d₀, -, -, hj, rfl⟩
    · exact h.owner j c o hc ho
    · exact h.owner j d o hj ho
    · exact h.owner j d₀ o hj ho
  · -- what is executed inside `j` is not the call that is left
    have hkeep : ∀ {d₀ : Call β}, calls[j]? = some d₀ → d₀.phase = .inside k b →
        (c.owner = some j → c.mode ≠ .inlined) → ∃ e,
        (State.report (calls.set i { c with phase := leftPhase c.mode failed }) c failed)[k]? =
          some e ∧ e.owner = some j ∧ e.mode = .inlined ∧ e.phase.left = false := by
      intro d₀ hd₀ hp₀ hmode
      obtain ⟨e, he, ho, hm, hle⟩ := h.inside j d₀ k b hd₀ hp₀
      have hki : i ≠ k := by
        rintro rfl
        rw [hc] at he
        obtain rfl := Option.some.inj he
        exact hmode ho hm
      have hset : (calls.set i { c with phase := leftPhase c.mode failed })[k]? = some e := by
        rw [List.getElem?_set_ne hki, he]
      obtain ⟨e', he', ho', hm', hl', -⟩ := @exists_of_getElem?_report _ _ c _ _ failed hset
      exact ⟨e', he', ho'.trans ho, hm'.trans hm, hl'.trans hle⟩
    rcases eq_of_getElem?_leave hne hd with ⟨rfl, rfl⟩ | ⟨-, ho, hj⟩ | ⟨d₀, -, ho, hj, rfl⟩
    · have hleft : (leftPhase c.mode failed : Phase β).left = true := left_leftPhase _ _
      simp only at hp
      rw [hp] at hleft
      cases hleft
    · exact hkeep hj hp fun he => absurd he ho
    · by_cases hm : c.mode = .inlined
      · rw [hm] at hp
        cases hd₀ : d₀.phase <;> simp [Phase.resume, hd₀] at hp
      · refine hkeep hj ?_ fun _ => hm
        cases hmode : c.mode <;> simp_all [Phase.resume]
  · rcases eq_of_getElem?_leave hne hd with ⟨rfl, rfl⟩ | ⟨-, -, hj⟩ | ⟨d₀, -, -, hj, rfl⟩
    · cases hm : c.mode <;> simp_all [leftPhase, Phase.isQueued, Phase.left, Phase.isEnded]
    · exact h.pooled j d hj hp
    · refine h.pooled j d₀ hj ?_
      cases hm : c.mode <;> cases hp₀ : d₀.phase <;>
        simp_all [Phase.resume, Phase.isQueued, Phase.left, Phase.isEnded]

theorem Counted.goOn (h : Counted calls) (hc : calls[i]? = some c) (hleft : p.left = c.phase.left) :
    Counted (calls.set i { c with phase := p }) := by
  intro j d hd
  have hcount : (calls.set i { c with phase := p }).countP (Call.awaited j) =
      calls.countP (Call.awaited j) :=
    countP_set_of_eq hc (by rw [Call.awaited, Call.awaited, hleft])
  rw [hcount]
  rcases eq_of_getElem?_set hd with ⟨rfl, rfl⟩ | ⟨-, hd⟩
  · exact h j c hc
  · exact h j d hd

theorem Counted.fork (h : Counted calls) (hs : Shape calls) (hc : calls[i]? = some c)
    (hl : c.phase.left = false) (hp : p.left = false) {m : Mode} {q : Phase β}
    (hq : q.left = false) :
    Counted (calls.set i { c with phase := p, wg := c.wg.add 1 } ++ [⟨some i, m, q, {}⟩]) := by
  have hi := (List.getElem?_eq_some_iff.mp hc).1
  have hset : ∀ j, (calls.set i { c with phase := p, wg := c.wg.add 1 }).countP (Call.awaited j) =
      calls.countP (Call.awaited j) := fun j =>
    countP_set_of_eq hc (by rw [Call.awaited, Call.awaited, hl, hp])
  have hnew : ∀ j, [(⟨some i, m, q, {}⟩ : Call β)].countP (Call.awaited j) =
      if j = i then 1 else 0 := fun j => by
    by_cases hj : j = i
    · simp [Call.awaited, hq, hj]
    · simp [Call.awaited, hj, Ne.symm hj]
  intro j d hd
  rw [List.countP_append, hset, hnew]
  rcases eq_of_getElem?_concat hd with hd | ⟨rfl, rfl⟩
  · rcases eq_of_getElem?_set hd with ⟨rfl, rfl⟩ | ⟨hj, hd⟩
    · rw [if_pos rfl, WaitGroup.add, h j c hc]
      push_cast
      rfl
    · rw [if_neg hj, h j d hd]
      rfl
  · -- nothing waits for the new call yet
    have hzero : calls.countP (Call.awaited calls.length) = 0 := by
      refine List.countP_eq_zero.mpr fun e he ha => ?_
      obtain ⟨k, hk⟩ := List.mem_iff_getElem?.mp he
      have hlt := (List.getElem?_eq_some_iff.mp hk).1
      have ho : e.owner = some calls.length := by
        simp only [Call.awaited, Bool.and_eq_true, decide_eq_true_eq] at ha
        exact ha.1
      have := hs.owner k e _ hk ho
      omega
    rw [List.length_set, hzero, if_neg (by omega)]
    rfl

theorem Counted.leave (h : Counted calls) (hs : Shape calls) (hc : calls[i]? = some c)
    (hl : c.phase.left = false) :
    Counted (State.report (calls.set i { c with phase := leftPhase c.mode failed }) c failed) := by
  intro j d hd
  have hcount := countP_set_add (p := Call.awaited j) hc { c with phase := leftPhase c.mode failed }
  have hold : Call.awaited j c = decide (c.owner = some j) := by rw [Call.awaited, hl]; simp
  have hnew : Call.awaited j ({ c with phase := leftPhase c.mode failed } : Call β) = false := by
    rw [Call.awaited, left_leftPhase]
    simp
  rw [hold, hnew] at hcount
  rw [countP_report (countable_awaited j)]
  generalize (calls.set i { c with phase := leftPhase c.mode failed }).countP (Call.awaited j) = m
    at hcount ⊢
  have hne := hs.owner_ne hc
  rcases eq_of_getElem?_leave hne hd with ⟨rfl, rfl⟩ | ⟨-, ho, hj⟩ | ⟨d₀, -, ho, hj, rfl⟩
  · simp only [hne, decide_false, Bool.false_eq_true, if_false, add_zero] at hcount
    rw [hcount]
    exact h j c hc
  · simp only [ho, decide_false, Bool.false_eq_true, if_false, add_zero] at hcount
    rw [hcount]
    exact h j d hj
  · simp only [ho, decide_true, if_true, Bool.false_eq_true, if_false, add_zero] at hcount
    have hj := h j d₀ hj
    have hsettle : (d₀.wg.settle (if failed then .failed else .done)).count = d₀.wg.count - 1 := by
      cases failed <;> rfl
    rw [hsettle, hj, ← hcount]
    push_cast
    ring

end Shape

end ForkJoin
