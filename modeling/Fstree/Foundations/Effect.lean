import Mathlib.Tactic.Common

/-!
# Programs that change a state and may throw

A program is a function from a state to a result and a state (`EStateM`): also when it
throws there is a state it leaves. Two kinds of facts about one are proved along its
text. What it **ensures** (`Effect.Ensures`) is an invariant of the state, which holds
however it ends, and a property of its result. What follows from its having returned is
read off its parts, which have returned one after the other (`Effect.bind_eq_ok`).
-/

namespace Effect

universe u

variable {ε σ α β : Type u}

/-- The state a run leaves. -/
def final : EStateM.Result ε σ α → σ
  | .ok _ s => s
  | .error _ s => s

@[simp] theorem final_ok (a : α) (s : σ) : final (.ok a s : EStateM.Result ε σ α) = s := rfl

@[simp] theorem final_error (e : ε) (s : σ) :
    final (.error e s : EStateM.Result ε σ α) = s := rfl

/-! ### Running a `do` block -/

theorem bind_apply (m : EStateM ε σ α) (f : α → EStateM ε σ β) (s : σ) :
    (m >>= f) s = match m s with
      | .ok a s' => f a s'
      | .error e s' => .error e s' := by
  change EStateM.bind m f s = _
  rw [EStateM.bind]
  cases m s <;> rfl

@[simp] theorem pure_apply (a : α) (s : σ) : (pure a : EStateM ε σ α) s = .ok a s := rfl

/-- **A block returns if its two parts do**, one after the other. -/
theorem bind_eq_ok {m : EStateM ε σ α} {f : α → EStateM ε σ β} {s s'' : σ} {b : β} :
    (m >>= f) s = .ok b s'' ↔ ∃ a s', m s = .ok a s' ∧ f a s' = .ok b s'' := by
  rw [bind_apply]
  cases m s with
  | ok a s' => simp
  | error e s' => simp

/-! ### What is ensured -/

/-- **What a run ensures**: the invariant holds of the state it leaves, however it ends,
and the postcondition of its result, if it returns. -/
def Ensures (I : σ → Prop) (Q : α → Prop) (m : EStateM ε σ α) : Prop :=
  ∀ s, I s → I (final (m s)) ∧ ∀ a s', m s = .ok a s' → Q a

variable {I : σ → Prop} {Q Q' : α → Prop} {R : β → Prop} {m m' : EStateM ε σ α}

theorem Ensures.pure {a : α} (h : Q a) : Ensures I Q (pure a : EStateM ε σ α) :=
  fun _ hs => ⟨hs, fun _ _ he => (EStateM.Result.ok.inj he).1 ▸ h⟩

theorem Ensures.throw (e : ε) : Ensures I Q (throw e : EStateM ε σ α) :=
  fun _ hs => ⟨hs, fun _ _ he => nomatch he⟩

theorem Ensures.get : Ensures I (fun _ => True) (get : EStateM ε σ σ) :=
  fun _ hs => ⟨hs, fun _ _ _ => trivial⟩

theorem Ensures.mono (h : Ensures I Q m) (hQ : ∀ a, Q a → Q' a) : Ensures I Q' m :=
  fun s hs => ⟨(h s hs).1, fun a s' he => hQ a ((h s hs).2 a s' he)⟩

theorem Ensures.bind {f : α → EStateM ε σ β} (hm : Ensures I Q m)
    (hf : ∀ a, Q a → Ensures I R (f a)) : Ensures I R (m >>= f) := by
  intro s hs
  obtain ⟨hI, hQ⟩ := hm s hs
  rw [bind_apply]
  cases hr : m s with
  | ok a s' =>
    rw [hr] at hI
    exact hf a (hQ a s' hr) s' hI
  | error e s' =>
    rw [hr] at hI
    exact ⟨hI, fun _ _ he => nomatch he⟩

theorem Ensures.ite {p : Prop} [Decidable p] (h : p → Ensures I Q m) (h' : ¬ p → Ensures I Q m') :
    Ensures I Q (if p then m else m') := by
  split_ifs with hp
  · exact h hp
  · exact h' hp

end Effect
