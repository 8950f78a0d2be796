import Mathlib.Data.Nat.Notation
import Mathlib.Logic.Relation

/-!
# Runs of a transition relation

A program that several threads execute at once is a relation `Step` between
states, one step of some thread at a time, and what the program can do is
`Transition.Reaches`: any number of steps, in any order of the threads.

What holds in every reachable state is proved once per step:
`Transition.Reaches.invariant` is the induction, and
`Transition.Reaches.mono` restricts the steps of a run to those that satisfy a
side condition the steps of this run are known to meet. Two relations are compared
step by step (`Transition.Reaches.simulate`).

That every run ends (`Transition.Terminates`) follows from something well-founded that every
step lowers (`Transition.terminates_of_wellFounded`), such as a number
(`Transition.terminates_of_rank`); the number may start anew at each step of another relation
in which every run ends (`Transition.terminates_of_stutter`). Where every run ends, a run that
need not stop before `P` holds gets there (`Transition.Terminates.exists_reaches`). A property that
comes back after some steps makes a run endless (`Transition.not_terminates`).
-/

namespace Transition

variable {σ : Type*} {Step Step' : σ → σ → Prop} {s t u : σ}

/-- **The states a run reaches**: any number of steps. -/
abbrev Reaches (Step : σ → σ → Prop) : σ → σ → Prop := Relation.ReflTransGen Step

/-- **The invariant rule**: what one step preserves, a run preserves. -/
theorem Reaches.invariant {Inv : σ → Prop} (h : Reaches Step s t) (h0 : Inv s)
    (hstep : ∀ u v, Inv u → Step u v → Inv v) : Inv t := by
  induction h with
  | refl => exact h0
  | tail _ hs ih => exact hstep _ _ ih hs

/-- A run of a larger relation. -/
theorem Reaches.mono (h : Reaches Step s t) (hsub : ∀ u v, Step u v → Step' u v) :
    Reaches Step' s t :=
  Relation.ReflTransGen.mono hsub _ _ h

/-- **The simulation rule**: what a step does, the other relation can do as well, in any number of
steps. -/
theorem Reaches.simulate {τ : Type*} {Other : τ → τ → Prop} {Sim : σ → τ → Prop} {a : τ}
    (h : Reaches Step s t) (h0 : Sim s a)
    (hstep : ∀ u v b, Sim u b → Step u v → ∃ c, Reaches Other b c ∧ Sim v c) :
    ∃ c, Reaches Other a c ∧ Sim t c := by
  induction h with
  | refl => exact ⟨a, Relation.ReflTransGen.refl, h0⟩
  | tail _ hs ih =>
    obtain ⟨b, hb, hsim⟩ := ih
    obtain ⟨c, hc, hsim'⟩ := hstep _ _ _ hsim hs
    exact ⟨c, hb.trans hc, hsim'⟩

/-- **Every run ends**: from this state there is no endless sequence of steps. -/
def Terminates (Step : σ → σ → Prop) (s : σ) : Prop := Acc (fun t u => Step u t) s

/-- **The well-founded rule**: an invariant under which every step lowers what is assigned to the
states. -/
theorem terminates_of_wellFounded {α : Type*} {r : α → α → Prop} (hr : WellFounded r)
    {Inv : σ → Prop} (rank : σ → α) (h0 : Inv s)
    (hstep : ∀ u v, Inv u → Step u v → Inv v ∧ r (rank v) (rank u)) : Terminates Step s := by
  suffices h : ∀ a u, Inv u → rank u = a → Terminates Step u from h _ s h0 rfl
  intro a
  induction a using hr.induction with
  | h a ih =>
    intro u hu ha
    refine ⟨u, fun v hs => ?_⟩
    obtain ⟨hv, hlt⟩ := hstep u v hu hs
    exact ih _ (ha ▸ hlt) v hv rfl

/-- **The progress rule**: if every run ends, and under an invariant some step can be taken that
keeps it until `P` holds, a run can go on to where `P` holds. -/
theorem Terminates.exists_reaches {Inv P : σ → Prop} (h : Terminates Step s) (h0 : Inv s)
    (hstep : ∀ u, Inv u → ¬ P u → ∃ v, Step u v ∧ Inv v) : ∃ t, Reaches Step s t ∧ P t := by
  induction h with
  | intro s _ ih =>
    by_cases hP : P s
    · exact ⟨s, Relation.ReflTransGen.refl, hP⟩
    · obtain ⟨v, hs, hv⟩ := hstep s h0 hP
      obtain ⟨t, ht, hPt⟩ := ih v hs hv
      exact ⟨t, Relation.ReflTransGen.head hs ht, hPt⟩

/-- **The rank rule**: an invariant under which every step lowers a number. -/
theorem terminates_of_rank {Inv : σ → Prop} {rank : σ → ℕ} (h0 : Inv s)
    (hstep : ∀ u v, Inv u → Step u v → Inv v ∧ rank v < rank u) : Terminates Step s :=
  terminates_of_wellFounded Nat.lt_wfRel.wf rank h0 hstep

/-- **The stuttering rule**: every step is one of another relation, in which every run ends, or is
not seen there and lowers a number. -/
theorem terminates_of_stutter {τ : Type*} {Other : τ → τ → Prop} (f : σ → τ) (rank : σ → ℕ)
    (hend : Terminates Other (f s))
    (hstep : ∀ u v, Step u v → Other (f u) (f v) ∨ f v = f u ∧ rank v < rank u) :
    Terminates Step s := by
  suffices h : ∀ a, Terminates Other a → ∀ u, f u = a → Terminates Step u from h _ hend s rfl
  intro a ha
  induction ha with
  | intro a _ ih =>
    suffices h : ∀ k u, f u = a → rank u = k → Terminates Step u from fun u hf => h _ u hf rfl
    intro k
    induction k using Nat.strongRecOn with
    | ind k ihk =>
      rintro u rfl rfl
      refine ⟨u, fun v hs => ?_⟩
      rcases hstep u v hs with hother | ⟨hsame, hlt⟩
      · exact ih _ hother v rfl
      · exact ihk _ hlt v hsame rfl

/-- **The rule for endless runs**: a property that can always be had again, some steps later. -/
theorem not_terminates {P : σ → Prop} (h0 : P s)
    (hagain : ∀ u, P u → ∃ v, Relation.TransGen Step u v ∧ P v) : ¬ Terminates Step s := by
  intro hacc
  suffices h : ∀ t, Reaches Step s t → ¬ P t from h s Relation.ReflTransGen.refl h0
  clear h0
  induction hacc with
  | intro u _ ih =>
    intro t ht hP
    obtain ⟨v, htv, hv⟩ := hagain t hP
    obtain ⟨u', hs, hrest⟩ := Relation.TransGen.head'_iff.mp (Relation.TransGen.trans_right ht htv)
    exact ih u' hs v hrest hv

end Transition
