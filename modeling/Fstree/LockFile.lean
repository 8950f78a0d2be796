import Fstree.Foundations.Transition
import Mathlib.Data.Set.Subsingleton
import Mathlib.Logic.Function.Basic

/-!
# The lock of the cache

Every process opens the lock file of a cache once, and the threads of its pool share the
`lock_file`. `lock_file::lock` calls `flock(LOCK_EX)` and returns a context, whose
destructor calls `unlock`, which calls `flock(LOCK_UN)`. The lock belongs to the open
file description, so to the process: a process that holds it is granted it again at once,
and any of its threads releases it.

The threads of one process are therefore not kept apart (`Fstree.lock_not_exclusive`): the
class has a mutex for it, which only the implementation for Windows takes. In a run where
no call is granted what its own process already holds, at most one context is live
(`Fstree.one_context_live`).
-/

namespace Fstree

open Transition

/-! ### The steps of the threads -/

/-- How far a thread has got with `lock_file::lock` and the context it returns. -/
inductive LockPhase
  /-- It is not concerned with the lock. -/
  | away
  /-- In `flock(LOCK_EX)`. -/
  | waiting
  /-- `flock` has returned, and `lock` has yet to return the context. -/
  | granted
  /-- It has the context. -/
  | live
  /-- The destructor of the context has been called. -/
  | leaving
deriving DecidableEq

/-- It has been granted the lock, and has not released it. -/
def LockPhase.Inside (φ : LockPhase) : Prop := φ = .granted ∨ φ = .live ∨ φ = .leaving

/-- **The lock and the threads `T` of the processes `P`.** -/
structure LockState (P T : Type*) where
  /-- The process whose open file description holds the lock. -/
  holder : Option P
  phase : P × T → LockPhase

/-- What a thread does with the lock. -/
inductive LockEvent (P T : Type*)
  /-- `lock()` is called. -/
  | call (c : P × T)
  /-- `flock(LOCK_EX)` returns `0`. -/
  | grant (c : P × T)
  /-- `flock(LOCK_EX)` returns `-1`, and `lock` throws. -/
  | fail (c : P × T)
  /-- `lock` returns the context. -/
  | enter (c : P × T)
  /-- The destructor of the context is called. -/
  | leave (c : P × T)
  /-- It has called `unlock`. -/
  | release (c : P × T)
  /-- A thread of the process calls `unlock` itself. -/
  | unlock (p : P)

/-- Nobody has called anything. -/
def LockState.start {P T : Type*} : LockState P T := ⟨none, fun _ => .away⟩

/-- **The lock excludes**: who is inside is alone there, and its process holds the lock. -/
structure LockState.Excludes {P T : Type*} (σ : LockState P T) : Prop where
  holds : ∀ c, (σ.phase c).Inside → σ.holder = some c.1
  alone : ∀ c d, (σ.phase c).Inside → (σ.phase d).Inside → c = d

theorem LockState.excludes_start {P T : Type*} : (start : LockState P T).Excludes := by
  constructor <;> simp [start, LockPhase.Inside]

variable {P T : Type*} [DecidableEq P] [DecidableEq T]

/-- `flock(LOCK_UN)` on the description of `p`. -/
def unlocked (holder : Option P) (p : P) : Option P := if holder = some p then none else holder

/-- The thread is at `φ`. -/
def LockState.at (σ : LockState P T) (c : P × T) (φ : LockPhase) : LockState P T :=
  { σ with phase := Function.update σ.phase c φ }

/-- **One step of a thread.** -/
inductive LockStep : LockState P T → LockEvent P T → LockState P T → Prop
  | call {σ c} (h : σ.phase c = .away) : LockStep σ (.call c) (σ.at c .waiting)
  /-- The lock is free, or this description has it already. -/
  | grant {σ c} (h : σ.phase c = .waiting) (hfree : σ.holder = none ∨ σ.holder = some c.1) :
      LockStep σ (.grant c) { σ.at c .granted with holder := some c.1 }
  | fail {σ c} (h : σ.phase c = .waiting) : LockStep σ (.fail c) (σ.at c .away)
  | enter {σ c} (h : σ.phase c = .granted) : LockStep σ (.enter c) (σ.at c .live)
  | leave {σ c} (h : σ.phase c = .live) : LockStep σ (.leave c) (σ.at c .leaving)
  | release {σ c} (h : σ.phase c = .leaving) :
      LockStep σ (.release c) { σ.at c .away with holder := unlocked σ.holder c.1 }
  | unlock {σ p} : LockStep σ (.unlock p) { σ with holder := unlocked σ.holder p }

/-- **One step of any thread.** -/
def AnyLockStep (σ τ : LockState P T) : Prop := ∃ e, LockStep σ e τ

/-- The process does not hold the lock when `flock(LOCK_EX)` returns to one of its threads,
nor when one of them calls `unlock` itself. -/
def SoleCaller (σ : LockState P T) : LockEvent P T → Prop
  | .grant c => σ.holder ≠ some c.1
  | .unlock p => σ.holder ≠ some p
  | _ => True

/-- A step where the process has no other use of the lock. -/
def SoleLockStep (σ τ : LockState P T) : Prop := ∃ e, SoleCaller σ e ∧ LockStep σ e τ

/-! ### Who is inside -/

section Steps

variable {σ τ : LockState P T} {c d : P × T} {φ : LockPhase}

@[simp] theorem LockState.at_holder : (σ.at c φ).holder = σ.holder := rfl

theorem LockState.at_self : (σ.at c φ).phase c = φ := Function.update_self ..

theorem LockState.at_ne (h : d ≠ c) : (σ.at c φ).phase d = σ.phase d := Function.update_of_ne h ..

/-- A thread that is still inside, or still outside, changes nothing for the others. -/
theorem LockState.Excludes.at (h : σ.Excludes) (hφ : φ.Inside → (σ.phase c).Inside) :
    (σ.at c φ).Excludes := by
  have key : ∀ d, ((σ.at c φ).phase d).Inside → (σ.phase d).Inside := by
    intro d hd
    rcases eq_or_ne d c with rfl | hdc
    · rw [at_self] at hd
      exact hφ hd
    · rwa [at_ne hdc] at hd
  exact ⟨fun d hd => h.holds d (key d hd), fun d e hd he => h.alone d e (key d hd) (key e he)⟩

/-- **One such step keeps the lock exclusive.** -/
theorem LockState.Excludes.step (h : σ.Excludes) (hs : SoleLockStep σ τ) : τ.Excludes := by
  obtain ⟨e, hsole, hs⟩ := hs
  cases hs with
  | call hc => exact h.at fun hφ => by simp [LockPhase.Inside] at hφ
  | fail hc => exact h.at fun hφ => by simp [LockPhase.Inside] at hφ
  | enter hc => exact h.at fun _ => Or.inl hc
  | leave hc => exact h.at fun _ => Or.inr (Or.inl hc)
  | @grant c hc hfree =>
    -- the lock was free, so nobody was inside
    have hnone : σ.holder = none := hfree.resolve_right hsole
    have hout : ∀ d, ¬ (σ.phase d).Inside := fun d hd => by
      rw [h.holds d hd] at hnone
      cases hnone
    have honly : ∀ d, ((σ.at c .granted).phase d).Inside → d = c := by
      intro d hd
      by_contra hdc
      rw [at_ne hdc] at hd
      exact hout d hd
    refine ⟨fun d hd => ?_, fun d e hd he => (honly d hd).trans (honly e he).symm⟩
    rw [honly d hd]
  | @release c hc =>
    -- the thread that leaves was the only one
    have hout : ∀ d, ¬ ((σ.at c .away).phase d).Inside := by
      intro d hd
      rcases eq_or_ne d c with rfl | hdc
      · simp [at_self, LockPhase.Inside] at hd
      · rw [at_ne hdc] at hd
        exact hdc (h.alone d c hd (Or.inr (Or.inr hc)))
    exact ⟨fun d hd => absurd hd (hout d), fun d _ hd => absurd hd (hout d)⟩
  | @unlock p =>
    have : unlocked σ.holder p = σ.holder := if_neg hsole
    exact ⟨fun d hd => this.trans (h.holds d hd), h.alone⟩

/-- **The lock excludes in the whole run.** -/
theorem LockState.Excludes.run (h : Reaches SoleLockStep .start σ) : σ.Excludes :=
  h.invariant excludes_start fun _ _ => Excludes.step

end Steps

/-! ### One context at a time -/

/-- **At most one context is live**, over all threads of all processes, in every state of a
run in which no call is granted what its own process holds. -/
theorem one_context_live {σ : LockState P T} (hrun : Reaches SoleLockStep .start σ) :
    {c | σ.phase c = .live}.Subsingleton := fun c hc d hd =>
  (LockState.Excludes.run hrun).alone c d (Or.inr (Or.inl hc)) (Or.inr (Or.inl hd))

namespace Sample

/-- The first process is there with its context. -/
def firstInside : LockState Bool Bool :=
  { ((LockState.start.at (false, false) .waiting).at (false, false) .granted).at (false, false)
    .live with holder := some false }

/-- It has left, and the second process waits. -/
def secondWaits : LockState Bool Bool :=
  { ((firstInside.at (false, false) .leaving).at (false, false) .away).at (true, true) .waiting
    with holder := none }

/-- The second process has its context. -/
def secondInside : LockState Bool Bool :=
  { (secondWaits.at (true, true) .granted).at (true, true) .live with holder := some true }

theorem reaches_firstInside : Reaches SoleLockStep .start firstInside :=
  .head ⟨.call (false, false), trivial, .call rfl⟩ <|
    .head ⟨.grant (false, false), by simp [SoleCaller, LockState.start], .grant rfl (Or.inl rfl)⟩ <|
    .single ⟨.enter (false, false), trivial, .enter rfl⟩

theorem reaches_secondInside : Reaches SoleLockStep .start secondInside :=
  reaches_firstInside.trans <| .head ⟨.leave (false, false), trivial, .leave rfl⟩ <|
    .head ⟨.release (false, false), trivial, .release rfl⟩ <|
    .head ⟨.call (true, true), trivial, .call rfl⟩ <|
    .head ⟨.grant (true, true), by simp [SoleCaller, firstInside, unlocked],
      .grant rfl (Or.inl rfl)⟩ <|
    .single ⟨.enter (true, true), trivial, .enter rfl⟩

end Sample

/-- Two processes, one after the other. -/
theorem one_context_live_sample :
    Sample.secondInside.phase (true, true) = .live ∧
      {c | Sample.secondInside.phase c = .live}.Subsingleton :=
  ⟨rfl, one_context_live Sample.reaches_secondInside⟩

/-- Without the mutex nothing else keeps them apart: while a context of the process is live,
a second thread that waits gets one. -/
theorem live_beside {σ : LockState P T} {p : P} {t u : T} (hne : t ≠ u)
    (hholder : σ.holder = some p) (ht : σ.phase (p, t) = .live)
    (hu : σ.phase (p, u) = .waiting) :
    ∃ τ, Reaches AnyLockStep σ τ ∧ τ.phase (p, t) = .live ∧ τ.phase (p, u) = .live := by
  have hpair : (p, t) ≠ (p, u) := fun h => hne (congrArg Prod.snd h)
  let ρ : LockState P T := { σ.at (p, u) .granted with holder := some p }
  have hgrant : AnyLockStep σ ρ := ⟨_, .grant hu (Or.inr hholder)⟩
  have henter : AnyLockStep ρ (ρ.at (p, u) .live) := ⟨_, .enter LockState.at_self⟩
  refine ⟨ρ.at (p, u) .live, .head hgrant (.single henter), ?_, LockState.at_self⟩
  rw [LockState.at_ne hpair]
  exact (LockState.at_ne hpair).trans ht

/-- A thread has a context, and another thread of its process waits. -/
def Sample.secondThread : LockState Unit Bool :=
  { (((LockState.start.at ((), false) .waiting).at ((), false) .granted).at ((), false) .live).at
    ((), true) .waiting with holder := some () }

theorem Sample.reaches_secondThread : Reaches AnyLockStep .start secondThread :=
  .head ⟨.call ((), false), .call rfl⟩ <| .head ⟨.grant ((), false), .grant rfl (Or.inl rfl)⟩ <|
    .head ⟨.enter ((), false), .enter rfl⟩ <| .single ⟨.call ((), true), .call rfl⟩

/-- **The threads of one process are not kept apart**: two of them have a context each. -/
theorem lock_not_exclusive : ¬ ∀ σ : LockState Unit Bool,
    Reaches AnyLockStep .start σ → {c | σ.phase c = .live}.Subsingleton := by
  intro hclaim
  obtain ⟨τ, hτ, ht, hu⟩ := @live_beside Unit Bool _ _ Sample.secondThread () false true
    (by decide) rfl rfl rfl
  exact absurd (hclaim τ (Sample.reaches_secondThread.trans hτ) ht hu) (by decide)

end Fstree
