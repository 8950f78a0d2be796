import Fstree.Foundations.Transition
import Mathlib.Logic.Function.Basic

/-!
# Components beside each other

A family of components that share nothing but an environment, such as a clock, which they see and
do not change. One of them takes a step, or the environment does (`Parallel.Step`).

What a component keeps whatever the environment does is kept by each of them in every run of all
(`Parallel.forall_of_reaches`), and a run of one of them is a run of all in which the others wait
(`Parallel.reaches_own`).
-/

namespace Parallel

open Transition

variable {K S C : Type*} [DecidableEq K] (env : S → S → Prop) (step : S → C → C → Prop)

/-- **One step**, of the environment or of a component that sees it. -/
inductive Step : S × (K → C) → S × (K → C) → Prop
  | env {s s' c} (h : env s s') : Step (s, c) (s', c)
  | own {s} {c : K → C} {k x} (h : step s (c k) x) : Step (s, c) (s, Function.update c k x)

variable {env step} {s : S} {c : K → C} {k : K} {x : C} {τ : S × (K → C)}

/-- **What each component keeps** all of them keep. -/
theorem forall_of_reaches {I : K → S → C → Prop} (hrun : Reaches (Step env step) (s, c) τ)
    (h0 : ∀ k, I k s (c k)) (henv : ∀ k s s' x, I k s x → env s s' → I k s' x)
    (hstep : ∀ k s x y, I k s x → step s x y → I k s y) : ∀ k, I k τ.1 (τ.2 k) := by
  refine @Reaches.invariant _ _ _ _ (fun τ => ∀ k, I k τ.1 (τ.2 k)) hrun h0 fun u v hu hs k => ?_
  cases hs with
  | env h => exact henv k _ _ _ (hu k) h
  | @own s c j x h =>
    change I k s (Function.update c j x k)
    -- only the component that took the step is not as it was
    rcases eq_or_ne k j with rfl | hk
    · rw [Function.update_self]
      exact hstep k _ _ _ (hu k) h
    · rw [Function.update_of_ne hk]
      exact hu k

/-- **A run of one component** is a run of all. -/
theorem reaches_own (hrun : Reaches (step s) (c k) x) :
    Reaches (Step env step) (s, c) (s, Function.update c k x) := by
  induction hrun with
  | refl => rw [Function.update_eq_self]
  | @tail y z _ hs ih =>
    refine ih.tail ?_
    have h : Step env step (s, Function.update c k y)
        (s, Function.update (Function.update c k y) k z) :=
      .own (by rwa [Function.update_self])
    rwa [Function.update_idem] at h

end Parallel
