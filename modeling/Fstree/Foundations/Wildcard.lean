import Mathlib.Data.List.Forall2
import Mathlib.Data.List.Infix

/-!
# Matching wildcards by going back to the last star

A pattern is a list of letters, some of which are **stars**. A star stands for any text, and
any other letter for one letter that it agrees with (`Fstree.Wildcard.Wild`).

The usual loop (`Fstree.Wildcard.search`) reads the text from the left. It remembers the last
star it has passed, and where in the text that was; at a letter that does not agree it goes
back there, and leaves one more letter of the text to the star. It never has to go back to an
earlier star: where the letters between two stars are found first, nothing is lost. It ends
after a number of rounds that is known before (`Fstree.Wildcard.cost`).

The loop asks for agreement first. A star that agrees with a letter of the text is so taken for
a letter itself, where it stands before that one, and not for a star. What the loop finds, then,
are the texts that match in this sense (`Fstree.Wildcard.Sticky`), for all patterns and texts
(`Fstree.Wildcard.search_eq_true_iff`). If no star agrees with a letter of the text, these are
the texts that match (`Fstree.Wildcard.search_iff`).
-/

namespace Fstree

namespace Wildcard

universe u v

variable {α : Type u} {β : Type v} (star : α → Bool) (agrees : α → β → Bool)

/-- **A pattern matches a text.** -/
inductive Wild : List α → List β → Prop
  | nil : Wild [] []
  | one {a p b t} (ha : star a = false) (hab : agrees a b = true) (h : Wild p t) :
      Wild (a :: p) (b :: t)
  | star {a p w t} (ha : star a = true) (h : Wild p t) : Wild (a :: p) (w ++ t)

/-- **A pattern is found in a text**: it matches, but a star takes a letter it agrees with as any
other letter does, that letter and no more. -/
inductive Sticky : List α → List β → Prop
  | nil : Sticky [] []
  | one {a p b t} (hab : agrees a b = true) (h : Sticky p t) : Sticky (a :: p) (b :: t)
  | star {a p w t} (ha : star a = true) (hfree : ∀ b ∈ (w ++ t).head?, agrees a b = false)
      (h : Sticky p t) : Sticky (a :: p) (w ++ t)

/-- **The loop**: the pattern and the text that are left, and the same after the last star. The
first argument bounds the number of rounds. -/
def search : ℕ → List α → List β → Option (List α × List β) → Bool
  | _, p, [], _ => p.all star
  | 0, _, _ :: _, _ => false
  | fuel + 1, p, b :: t, back =>
    if p.head?.any (agrees · b) then search fuel p.tail t back
    else if p.head?.any star then search fuel p.tail (b :: t) (some (p.tail, b :: t))
    else match back with
      | some (p', t') => search fuel p' t'.tail (some (p', t'.tail))
      | none => false

/-- **The same loop**, which says so when the rounds are used up before its end. -/
def rounds : ℕ → List α → List β → Option (List α × List β) → Option Bool
  | _, p, [], _ => some (p.all star)
  | 0, _, _ :: _, _ => none
  | fuel + 1, p, b :: t, back =>
    if p.head?.any (agrees · b) then rounds fuel p.tail t back
    else if p.head?.any star then rounds fuel p.tail (b :: t) (some (p.tail, b :: t))
    else match back with
      | some (p', t') => rounds fuel p' t'.tail (some (p', t'.tail))
      | none => some false

/-- **A bound for the rounds that are left**, where the whole text is shorter than `k`. -/
def cost (k : ℕ) (p : List α) (t : List β) : Option (List α × List β) → ℕ
  | none => (p.length + 1) * (k * k) + t.length
  | some (p', t') => p'.length * (k * k) + t'.length * k + t.length

variable {star agrees} {p p' u : List α} {s t t' w text : List β} {a : α} {b : β}

/-! ### One letter of the pattern -/

theorem sticky_nil_iff : Sticky star agrees p [] ↔ p.all star = true := by
  constructor
  · intro h
    generalize ht : ([] : List β) = t at h
    induction h with
    | nil => rfl
    | one => simp at ht
    | star ha _ _ ih =>
      rw [List.all_cons, ha, ih (List.append_eq_nil_iff.mp ht.symm).2.symm]
      rfl
  · induction p with
    | nil => exact fun _ => .nil
    | cons a p ih =>
      intro h
      rw [List.all_cons, Bool.and_eq_true] at h
      exact .star (w := []) h.1 (by simp) (ih h.2)

theorem sticky_cons_iff (hab : agrees a b = true) :
    Sticky star agrees (a :: p) (b :: t) ↔ Sticky star agrees p t := by
  constructor
  · intro h
    generalize ht : b :: t = t' at h
    cases h with
    | one _ h => exact (List.cons.inj ht).2 ▸ h
    | star _ hfree => simp [← ht, hab] at hfree
  · exact .one hab

/-- Every letter of the pattern takes a part of the text. -/
theorem Sticky.tail (h : Sticky star agrees (a :: p) t) :
    ∃ s, s <:+ t ∧ Sticky star agrees p s := by
  cases h with
  | one _ h => exact ⟨_, List.suffix_cons _ _, h⟩
  | star _ _ h => exact ⟨_, List.suffix_append _ _, h⟩

theorem sticky_star_iff (ha : star a = true) (hfree : ∀ b ∈ t.head?, agrees a b = false) :
    Sticky star agrees (a :: p) t ↔ ∃ s, s <:+ t ∧ Sticky star agrees p s := by
  constructor
  · exact Sticky.tail
  · rintro ⟨s, ⟨w, rfl⟩, h⟩
    exact .star ha hfree h

/-- **What is found does match.** -/
theorem Sticky.wild (h : Sticky star agrees p t) : Wild star agrees p t := by
  induction h with
  | nil => exact .nil
  | @one a p b t hab _ ih =>
    cases ha : star a with
    | false => exact .one ha hab ih
    | true => exact .star (w := [b]) ha ih
  | star ha _ _ ih => exact .star ha ih

/-- If no star agrees with a letter of the text, what matches is found. -/
theorem Wild.sticky (h : Wild star agrees p t)
    (hstar : ∀ a, star a = true → ∀ b ∈ t, agrees a b = false) : Sticky star agrees p t := by
  induction h with
  | nil => exact .nil
  | one _ hab _ ih => exact .one hab (ih fun a ha b hb => hstar a ha b (List.mem_cons_of_mem _ hb))
  | star ha _ ih =>
    exact .star ha (fun b hb => hstar _ ha b (List.mem_of_mem_head? hb))
      (ih fun a ha b hb => hstar a ha b (List.mem_append_right _ hb))

/-! ### Letters between stars -/

variable (agrees) in
/-- Letters of the pattern agree with a text, one by one. There may be stars among them. -/
def Agree (u : List α) (w : List β) : Prop := List.Forall₂ (fun a b => agrees a b = true) u w

theorem Agree.sticky_iff (hu : Agree agrees u w) :
    Sticky star agrees (u ++ p) (w ++ t) ↔ Sticky star agrees p t := by
  induction hu with
  | nil => rfl
  | cons hab _ ih => rw [List.cons_append, List.cons_append, sticky_cons_iff hab, ih]

/-- **The exchange.** What is found later in the text reads as much of it at least: where it is
not further on, the stars among the letters stand before what they agree with here, too. -/
theorem Agree.cut (hu : Agree agrees u w) (hs : s <:+ w ++ t)
    (h : Sticky star agrees (u ++ p) s) : ∃ s', s' <:+ t ∧ Sticky star agrees p s' := by
  induction hu generalizing s with
  | nil => exact ⟨s, hs, h⟩
  | cons hab _ ih =>
    rcases List.suffix_cons_iff.mp hs with rfl | hs
    · exact ih List.suffix_rfl ((sticky_cons_iff hab).mp h)
    · obtain ⟨s', hs', h⟩ := h.tail
      exact ih (hs'.trans hs) h

/-! ### What one round does -/

/-- **What the loop is to find**: without a star that the pattern has passed, the pattern in the
text; with one, the pattern after the star in an end of the text. -/
def Found (star : α → Bool) (agrees : α → β → Bool) (p : List α) (t : List β) :
    Option (List α × List β) → Prop
  | none => Sticky star agrees p t
  | some (p', t') => ∃ s, s <:+ t' ∧ Sticky star agrees p' s

/-- **What has been read since the last star agrees.** -/
def Behind (agrees : α → β → Bool) (p : List α) (t : List β)
    (back : Option (List α × List β)) : Prop :=
  ∀ p' t', back = some (p', t') → ∃ u w, p' = u ++ p ∧ t' = w ++ t ∧ Agree agrees u w

variable {back : Option (List α × List β)}

theorem behind_none : Behind agrees p t none := nofun

theorem behind_self : Behind agrees p t (some (p, t)) := by
  rintro _ _ ⟨⟩
  exact ⟨[], [], rfl, rfl, .nil⟩

/-- At the end of the text. -/
theorem found_nil (hb : Behind agrees p [] back) :
    Found star agrees p [] back ↔ p.all star = true := by
  have hnil : Sticky star agrees p [] ↔ p.all star = true := sticky_nil_iff
  rw [← hnil]
  match back with
  | none => rfl
  | some (p', t') =>
    obtain ⟨u, w, rfl, rfl, hu⟩ := hb _ _ rfl
    constructor
    · rintro ⟨s, hs, h⟩
      obtain ⟨s', hs', h⟩ := hu.cut hs h
      exact List.suffix_nil.mp hs' ▸ h
    · exact fun h => ⟨_, List.suffix_rfl, hu.sticky_iff.mpr h⟩

/-- **A letter agrees.** -/
theorem Behind.one (hb : Behind agrees (a :: p) (b :: t) back) (hab : agrees a b = true) :
    Behind agrees p t back := by
  intro p' t' he
  obtain ⟨u, w, rfl, rfl, hu⟩ := hb p' t' he
  exact ⟨u ++ [a], w ++ [b], by simp, by simp, List.rel_append hu (.cons hab .nil)⟩

theorem found_one (hab : agrees a b = true) :
    Found star agrees (a :: p) (b :: t) back ↔ Found star agrees p t back := by
  match back with
  | some _ => rfl
  | none => exact sticky_cons_iff hab

/-- **A star is passed**, and an earlier one is not needed any more. -/
theorem found_star (hb : Behind agrees (a :: p) t back) (ha : star a = true)
    (hfree : ∀ b ∈ t.head?, agrees a b = false) :
    Found star agrees (a :: p) t back ↔ Found star agrees p t (some (p, t)) := by
  match back with
  | none => exact sticky_star_iff ha hfree
  | some (p', t') =>
    obtain ⟨u, w, rfl, rfl, hu⟩ := hb _ _ rfl
    constructor
    · rintro ⟨s, hs, h⟩
      obtain ⟨s', hs', h⟩ := hu.cut hs h
      obtain ⟨s'', hs'', h⟩ := h.tail
      exact ⟨s'', hs''.trans hs', h⟩
    · rintro ⟨s, hs, h⟩
      exact ⟨_, List.suffix_rfl, hu.sticky_iff.mpr ((sticky_star_iff ha hfree).mpr ⟨s, hs, h⟩)⟩

/-- **One more letter is left to the star.** -/
theorem found_back (hb : Behind agrees p (b :: t) (some (p', t')))
    (h : ¬ Sticky star agrees p (b :: t)) :
    Found star agrees p (b :: t) (some (p', t')) ↔
      Found star agrees p' t'.tail (some (p', t'.tail)) := by
  obtain ⟨u, w, rfl, rfl, hu⟩ := hb _ _ rfl
  have hne : w ++ b :: t ≠ [] := by simp
  obtain ⟨c, s', hs'⟩ := List.exists_cons_of_ne_nil hne
  constructor
  · rintro ⟨s, hs, hw⟩
    rw [hs'] at hs
    rcases List.suffix_cons_iff.mp hs with rfl | hs
    · rw [← hs'] at hw
      exact absurd (hu.sticky_iff.mp hw) h
    · exact ⟨s, by rwa [hs'], hw⟩
  · rintro ⟨s, hs, hw⟩
    exact ⟨s, hs.trans (List.tail_suffix _), hw⟩

/-! ### The loop -/

theorem rounds_nil (fuel : ℕ) : rounds star agrees fuel p [] back = some (p.all star) := by
  cases fuel <;> rfl

theorem rounds_cons (fuel : ℕ) : rounds star agrees (fuel + 1) p (b :: t) back =
    if p.head?.any (agrees · b) then rounds star agrees fuel p.tail t back
    else if p.head?.any star then rounds star agrees fuel p.tail (b :: t) (some (p.tail, b :: t))
    else match back with
      | some (p', t') => rounds star agrees fuel p' t'.tail (some (p', t'.tail))
      | none => some false := rfl

theorem search_cons (fuel : ℕ) : search star agrees (fuel + 1) p (b :: t) back =
    if p.head?.any (agrees · b) then search star agrees fuel p.tail t back
    else if p.head?.any star then search star agrees fuel p.tail (b :: t) (some (p.tail, b :: t))
    else match back with
      | some (p', t') => search star agrees fuel p' t'.tail (some (p', t'.tail))
      | none => false := rfl

/-- A loop that ends in its rounds ends as the other. -/
theorem search_of_rounds {fuel : ℕ} {v : Bool} (h : rounds star agrees fuel p t back = some v) :
    search star agrees fuel p t back = v := by
  induction fuel generalizing p t back with
  | zero =>
    cases t with
    | nil => exact Option.some.inj h
    | cons b t => cases h
  | succ fuel ih =>
    cases t with
    | nil => exact Option.some.inj h
    | cons b t =>
      rw [rounds_cons] at h
      rw [search_cons]
      split_ifs at h ⊢
      · exact ih h
      · exact ih h
      · match back with
        | none => exact Option.some.inj h
        | some _ => exact ih h

theorem cost_pos (k : ℕ) : 0 < cost k p (b :: t) back := by
  match back with
  | none => exact Nat.add_pos_right _ (Nat.succ_pos _)
  | some _ => exact Nat.add_pos_right _ (Nat.succ_pos _)

theorem cost_one (k : ℕ) : cost k p t back < cost k (a :: p) (b :: t) back := by
  match back with
  | none =>
    have h : (p.length + 1) * (k * k) ≤ (p.length + 1 + 1) * (k * k) :=
      Nat.mul_le_mul_right _ (Nat.le_succ _)
    simp only [cost, List.length_cons]
    omega
  | some _ =>
    simp only [cost, List.length_cons]
    omega

theorem cost_back {k : ℕ} (hk : t'.length < k) (hne : t' ≠ []) :
    cost k p' t'.tail (some (p', t'.tail)) < cost k p (b :: t) (some (p', t')) := by
  obtain ⟨c, s, rfl⟩ := List.exists_cons_of_ne_nil hne
  simp only [cost, List.length_cons, List.tail_cons, Nat.add_mul, Nat.one_mul] at hk ⊢
  omega

theorem cost_star {k : ℕ} (hk : t.length < k) (hback : ∀ p' t', back = some (p', t') →
    p.length < p'.length) : cost k p t (some (p, t)) < cost k (a :: p) t back := by
  have hle : (t.length + 1) * k ≤ k * k := Nat.mul_le_mul_right k hk
  have hsum : t.length * k + t.length < k * k := by
    rw [Nat.add_mul, Nat.one_mul] at hle
    omega
  match back with
  | none =>
    simp only [cost, List.length_cons, Nat.add_mul, Nat.one_mul]
    omega
  | some (p', t') =>
    have hp : (p.length + 1) * (k * k) ≤ p'.length * (k * k) :=
      Nat.mul_le_mul_right _ (hback _ _ rfl)
    rw [Nat.add_mul, Nat.one_mul] at hp
    simp only [cost]
    omega

/-- **The loop ends, and finds what it is to find**, if it has the rounds for it. -/
theorem rounds_found (star : α → Bool) {fuel : ℕ} (ht : t <:+ text)
    (hback : ∀ p' t', back = some (p', t') → t' <:+ text) (hb : Behind agrees p t back)
    (hfuel : cost (text.length + 1) p t back ≤ fuel) :
    ∃ v, rounds star agrees fuel p t back = some v ∧
      (v = true ↔ Found star agrees p t back) := by
  induction fuel generalizing p t back with
  | zero =>
    cases t with
    | nil => exact ⟨_, rounds_nil _, (found_nil hb).symm⟩
    | cons b t => exact absurd hfuel (Nat.not_le_of_lt (cost_pos _))
  | succ fuel ih =>
    cases t with
    | nil => exact ⟨_, rounds_nil _, (found_nil hb).symm⟩
    | cons b t =>
      have ht' : t <:+ text := (List.suffix_cons b t).trans ht
      rw [rounds_cons]
      split_ifs with hagree hpass
      · -- a letter agrees
        obtain ⟨a, p, rfl, hab⟩ : ∃ a p', p = a :: p' ∧ agrees a b = true := by
          cases p with
          | nil => simp at hagree
          | cons a p => exact ⟨a, p, rfl, by simpa using hagree⟩
        rw [List.tail_cons, found_one hab]
        exact ih ht' hback (hb.one hab) (Nat.lt_succ_iff.mp ((cost_one _).trans_le hfuel))
      · -- a star is passed
        obtain ⟨a, p, rfl, ha⟩ : ∃ a p', p = a :: p' ∧ star a = true := by
          cases p with
          | nil => simp at hpass
          | cons a p => exact ⟨a, p, rfl, by simpa using hpass⟩
        have hfree : ∀ c ∈ (b :: t).head?, agrees a c = false := by
          simpa using hagree
        have hlen : (b :: t).length < text.length + 1 := Nat.lt_succ_of_le ht.length_le
        have hless : ∀ p' t', back = some (p', t') → p.length < p'.length := fun p' t' he => by
          obtain ⟨u, w, rfl, -⟩ := hb p' t' he
          simp only [List.length_append, List.length_cons]
          omega
        rw [List.tail_cons, found_star hb ha hfree]
        refine ih ht ?_ behind_self (Nat.lt_succ_iff.mp ((cost_star hlen hless).trans_le hfuel))
        rintro _ _ ⟨⟩
        exact ht
      · have hno : ¬ Sticky star agrees p (b :: t) := by
          intro h
          generalize he : b :: t = s at h
          cases h with
          | nil => cases he
          | one hab => simp [(List.cons.inj he).1, hab] at hagree
          | star ha => simp [ha] at hpass
        match back with
        | none => exact ⟨false, rfl, by simpa [Found] using hno⟩
        | some (p', t') =>
          have hsuffix := hback _ _ rfl
          have hne : t' ≠ [] := by
            obtain ⟨u, w, -, rfl, -⟩ := hb _ _ rfl
            simp
          rw [found_back hb hno]
          refine ih ((List.tail_suffix _).trans hsuffix) ?_ behind_self (Nat.lt_succ_iff.mp
            ((cost_back (Nat.lt_succ_of_le hsuffix.length_le) hne).trans_le hfuel))
          rintro _ _ ⟨⟩
          exact (List.tail_suffix _).trans hsuffix

section Text

variable {fuel : ℕ}

/-- **The loop ends**, for all patterns and texts. -/
theorem rounds_eq_search (hfuel : cost (text.length + 1) p text none ≤ fuel) :
    rounds star agrees fuel p text none = some (search star agrees fuel p text none) := by
  obtain ⟨v, hv, -⟩ := rounds_found star List.suffix_rfl (by simp) behind_none hfuel
  rw [hv, search_of_rounds hv]

/-- **What the loop finds**, for all patterns and texts. -/
theorem search_eq_true_iff (hfuel : cost (text.length + 1) p text none ≤ fuel) :
    search star agrees fuel p text none = true ↔ Sticky star agrees p text := by
  obtain ⟨v, hv, h⟩ := rounds_found star List.suffix_rfl (by simp) behind_none hfuel
  rw [search_of_rounds hv, h]
  rfl

/-- **Matching a pattern.** -/
theorem search_iff (hstar : ∀ a, star a = true → ∀ b ∈ text, agrees a b = false)
    (hfuel : cost (text.length + 1) p text none ≤ fuel) :
    search star agrees fuel p text none = true ↔ Wild star agrees p text := by
  rw [search_eq_true_iff hfuel]
  exact ⟨Sticky.wild, fun h => h.sticky hstar⟩

end Text

end Wildcard

end Fstree
