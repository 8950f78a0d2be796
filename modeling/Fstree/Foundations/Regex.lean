import Mathlib.Computability.Language

/-!
# Regular expressions with anchors

Regular expressions over an alphabet, with character classes, with anchors for the start and
the end of the text, and the operators of ECMAScript that come to no more than that. They are
run as a backtracking matcher does it: `Regex.run` gives the places that a match can end at,
those that are tried first in front. A repetition goes on only if something was taken.

An expression without anchors denotes a language (`Regex.Denotes`): from every place, it
takes exactly the words of the language. The rules are one for each operator, and the one
for the repetition is `Regex.Denotes.star`. An expression that ends with the anchor for the
end of the text has matched everything (`Regex.Ends`).
-/

/-- **A regular expression.** -/
inductive Regex (α : Type*)
  | empty
  /-- One character of a class. -/
  | cls (p : α → Bool)
  /-- `^` -/
  | start
  /-- `$` -/
  | stop
  | seq (r s : Regex α)
  /-- `r|s` -/
  | alt (r s : Regex α)
  /-- `r?` -/
  | opt (r : Regex α)
  /-- `r*` -/
  | star (r : Regex α)

namespace Regex

open Computability

variable {α : Type*} {r s : Regex α} {L M : Language α} {b b' : Bool} {t k : List α}

/-- Repeating, no more than a number of times: each time something is taken of what is left. -/
def repeated (f : Bool × List α → List (Bool × List α)) :
    ℕ → Bool × List α → List (Bool × List α)
  | 0, st => [st]
  | n + 1, st =>
    ((f st).filter fun st' => st'.2.length < st.2.length).flatMap (repeated f n) ++ [st]

/-- **The matcher**, from a place in the text: whether it is the start, and what is left. -/
def run : Regex α → Bool × List α → List (Bool × List α)
  | empty, st => [st]
  | cls _, (_, []) => []
  | cls p, (_, a :: rest) => if p a then [(false, rest)] else []
  | start, st => if st.1 then [st] else []
  | stop, st => if st.2.isEmpty then [st] else []
  | seq r s, st => (r.run st).flatMap s.run
  | alt r s, st => r.run st ++ s.run st
  | opt r, st => r.run st ++ [st]
  | star r, st => repeated r.run st.2.length st

/-- The whole text is matched. -/
def fullMatch (r : Regex α) (t : List α) : Bool := (r.run (true, t)).any fun st => st.2.isEmpty

/-! ### The language of an expression -/

/-- **The expression denotes the language**: wherever it is tried, it takes the words of
the language. -/
def Denotes (r : Regex α) (L : Language α) : Prop :=
  ∀ b t b' k, (b', k) ∈ r.run (b, t) ↔ ∃ w ∈ L, t = w ++ k ∧ b' = (b && w.isEmpty)

/-- One character of a class. -/
def one (p : α → Bool) : Language α := {w | ∃ a, w = [a] ∧ p a = true}

/-- Characters of a class, any number of them. -/
def many (p : α → Bool) : Language α := {w | ∀ a ∈ w, p a = true}

theorem denotes_cls (p : α → Bool) : (cls p).Denotes (one p) := by
  rintro b (_ | ⟨a, t⟩) b' k
  · refine ⟨nofun, ?_⟩
    rintro ⟨w, ⟨c, rfl, hc⟩, ht, hb⟩
    cases ht
  · constructor
    · intro h
      rw [run] at h
      split_ifs at h with ha
      · obtain ⟨rfl, rfl⟩ := Prod.mk.inj (List.mem_singleton.mp h)
        exact ⟨[a], ⟨a, rfl, ha⟩, rfl, by simp⟩
      · cases h
    · rintro ⟨w, ⟨c, rfl, hc⟩, ht, hb⟩
      obtain ⟨rfl, rfl⟩ := List.cons.inj ht
      rw [run, if_pos hc]
      simpa using hb

theorem Denotes.seq (hr : r.Denotes L) (hs : s.Denotes M) : (r.seq s).Denotes (L * M) := by
  intro b t b' k
  rw [run, List.mem_flatMap]
  constructor
  · rintro ⟨⟨b₁, k₁⟩, h₁, h₂⟩
    obtain ⟨w, hw, rfl, rfl⟩ := (hr b t b₁ k₁).mp h₁
    obtain ⟨w', hw', rfl, rfl⟩ := (hs _ k₁ b' k).mp h₂
    refine ⟨w ++ w', Language.append_mem_mul hw hw', by simp, ?_⟩
    cases w <;> simp
  · rintro ⟨_, ⟨w, hw, w', hw', rfl⟩, rfl, rfl⟩
    refine ⟨(b && w.isEmpty, w' ++ k), (hr _ _ _ _).mpr ⟨w, hw, by simp, rfl⟩,
      (hs _ _ _ _).mpr ⟨w', hw', rfl, ?_⟩⟩
    cases w <;> simp

theorem Denotes.opt (hr : r.Denotes L) : r.opt.Denotes (L + 1) := by
  intro b t b' k
  rw [run, List.mem_append, hr b t b' k, List.mem_singleton, Prod.mk.injEq]
  constructor
  · rintro (⟨w, hw, h⟩ | ⟨rfl, rfl⟩)
    · exact ⟨w, Or.inl hw, h⟩
    · exact ⟨[], Or.inr rfl, by simp⟩
  · rintro ⟨w, hw | hw, rfl, rfl⟩
    · exact Or.inl ⟨w, hw, rfl, rfl⟩
    · obtain rfl : w = [] := hw
      exact Or.inr (by simp)

/-- What a repetition takes, if it may go on long enough. -/
theorem Denotes.repeated (hr : r.Denotes L) {n : ℕ} (hn : t.length ≤ n) :
    (b', k) ∈ Regex.repeated r.run n (b, t) ↔
      ∃ w ∈ L∗, t = w ++ k ∧ b' = (b && w.isEmpty) := by
  induction n generalizing b t with
  | zero =>
    obtain rfl : t = [] := List.length_eq_zero_iff.mp (Nat.le_zero.mp hn)
    rw [Regex.repeated, List.mem_singleton, Prod.mk.injEq]
    constructor
    · rintro ⟨rfl, rfl⟩
      exact ⟨[], Language.nil_mem_kstar _, by simp⟩
    · rintro ⟨w, -, ht, rfl⟩
      obtain ⟨rfl, rfl⟩ := List.append_eq_nil_iff.mp ht.symm
      simp
  | succ n ih =>
    rw [Regex.repeated, List.mem_append, List.mem_flatMap, List.mem_singleton, Prod.mk.injEq]
    constructor
    · rintro (⟨⟨b₁, k₁⟩, h₁, h₂⟩ | ⟨rfl, rfl⟩)
      · obtain ⟨h₁, hlt⟩ := List.mem_filter.mp h₁
        obtain ⟨w, hw, rfl, rfl⟩ := (hr b t b₁ k₁).mp h₁
        have hlt : k₁.length < (w ++ k₁).length := by simpa using hlt
        obtain ⟨w', hw', rfl, rfl⟩ := (ih (by omega)).mp h₂
        refine ⟨w ++ w', ?_, by simp, by cases w <;> simp⟩
        rw [← Language.one_add_self_mul_kstar_eq_kstar]
        exact Or.inr (Language.append_mem_mul hw hw')
      · exact ⟨[], Language.nil_mem_kstar _, by simp⟩
    · rintro ⟨w, hw, rfl, rfl⟩
      obtain ⟨S, rfl, hS⟩ := Language.mem_kstar_iff_exists_nonempty.mp hw
      match S with
      | [] => exact Or.inr (by simp)
      | u :: S =>
        -- the first word is not empty, and the others are left
        obtain ⟨⟨hu, hne⟩, hS⟩ := List.forall_mem_cons.mp hS
        have hpos : 0 < u.length := List.length_pos_iff.mpr hne
        refine Or.inl ⟨(b && u.isEmpty, S.flatten ++ k), List.mem_filter.mpr ⟨?_, ?_⟩,
          (ih ?_).mpr ⟨S.flatten, ?_, rfl, ?_⟩⟩
        · exact (hr _ _ _ _).mpr ⟨u, hu, by simp, rfl⟩
        · simpa using hpos
        · simp only [List.flatten_cons, List.length_append] at hn ⊢
          omega
        · exact Language.mem_kstar_iff_exists_nonempty.mpr ⟨S, rfl, hS⟩
        · cases u <;> simp

/-- **A repetition denotes the repeated words.** -/
theorem Denotes.star (hr : r.Denotes L) : r.star.Denotes (L∗) := fun _ _ _ _ =>
  hr.repeated le_rfl

/-- Repeating one character of a class. -/
theorem kstar_one (p : α → Bool) : (one p)∗ = many p := by
  ext w
  constructor
  · intro hw
    obtain ⟨S, rfl, hS⟩ := Language.mem_kstar.mp hw
    intro a ha
    obtain ⟨u, hu, hau⟩ := List.mem_flatten.mp ha
    obtain ⟨c, rfl, hc⟩ := hS u hu
    rw [List.mem_singleton.mp hau]
    exact hc
  · intro hw
    have hflat : w = (w.map fun a => [a]).flatten := by
      rw [← List.flatMap_def, List.flatMap_singleton']
    refine Language.mem_kstar.mpr ⟨w.map fun a => [a], hflat, fun u hu => ?_⟩
    obtain ⟨a, ha, rfl⟩ := List.mem_map.mp hu
    exact ⟨a, rfl, hw a ha⟩

theorem denotes_star_cls (p : α → Bool) : (cls p).star.Denotes (many p) := by
  rw [← kstar_one]
  exact (denotes_cls p).star

/-! ### Matching to the end -/

/-- **The expression matches the rest of a text** if it is a word of the language. -/
def Ends (r : Regex α) (L : Language α) : Prop :=
  ∀ b t, (∃ st ∈ r.run (b, t), st.2 = []) ↔ t ∈ L

theorem Denotes.ends_stop (hr : r.Denotes L) : (r.seq stop).Ends L := by
  intro b t
  constructor
  · rintro ⟨st, hst, hnil⟩
    obtain ⟨⟨b₁, k₁⟩, h₁, h₂⟩ := List.mem_flatMap.mp hst
    obtain ⟨w, hw, rfl, -⟩ := (hr b t b₁ k₁).mp h₁
    rw [run] at h₂
    split_ifs at h₂ with hk
    · obtain rfl : k₁ = [] := List.isEmpty_iff.mp hk
      simpa using hw
    · cases h₂
  · intro ht
    have h₁ : (b && t.isEmpty, []) ∈ r.run (b, t) :=
      (hr _ _ _ _).mpr ⟨t, ht, (List.append_nil t).symm, rfl⟩
    exact ⟨_, List.mem_flatMap.mpr ⟨_, h₁, List.mem_singleton_self _⟩, rfl⟩

theorem Denotes.seq_ends (hr : r.Denotes L) (hs : s.Ends M) : (r.seq s).Ends (L * M) := by
  intro b t
  constructor
  · rintro ⟨st, hst, hnil⟩
    obtain ⟨⟨b₁, k₁⟩, h₁, h₂⟩ := List.mem_flatMap.mp hst
    obtain ⟨w, hw, rfl, -⟩ := (hr b t b₁ k₁).mp h₁
    exact Language.append_mem_mul hw ((hs b₁ k₁).mp ⟨st, h₂, hnil⟩)
  · rintro ⟨w, hw, k, hk, rfl⟩
    obtain ⟨st, hst, hnil⟩ := (hs (b && w.isEmpty) k).mpr hk
    have h₁ : (b && w.isEmpty, k) ∈ r.run (b, w ++ k) := (hr _ _ _ _).mpr ⟨w, hw, rfl, rfl⟩
    exact ⟨st, List.mem_flatMap.mpr ⟨_, h₁, hst⟩, hnil⟩

theorem fullMatch_iff : r.fullMatch t = true ↔ ∃ st ∈ r.run (true, t), st.2 = [] := by
  simp [fullMatch]

theorem Ends.fullMatch (hr : r.Ends L) : r.fullMatch t = true ↔ t ∈ L :=
  fullMatch_iff.trans (hr true t)

/-- At the start of the text the anchor for it passes. -/
theorem fullMatch_start : (start.seq r).fullMatch t = r.fullMatch t := by
  simp [fullMatch, run]

theorem fullMatch_alt : (r.alt s).fullMatch t = (r.fullMatch t || s.fullMatch t) := by
  simp [fullMatch, run]

end Regex
