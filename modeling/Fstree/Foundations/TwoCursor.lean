import Fstree.Foundations.SortedBy

/-!
# The two-cursor walk over two sorted lists

A loop that holds one cursor in each of two lists, compares the keys under the
cursors and advances the smaller one, or both when the keys are equal, is a
**keyed join**: if the lists are strictly sorted, every element of the left
list is visited once, and it is visited together with the element of the right
list that has its key whenever there is one (`TwoCursor.walk_eq_foldl`). So a
program whose loop is a walk is read as a fold over its left list that looks
keys up in the right one, and its invariants are proved by induction on one
list instead of two.

The walk carries a state. Advancing the right cursor alone does nothing: what
is only on the right is skipped.

The same loop with an output is the **merge** of the two lists
(`TwoCursor.merge`): it keeps every key once, and of two elements with one key
the right one (`TwoCursor.mem_merge`).
-/

namespace TwoCursor

open SortedBy

variable {α β κ σ : Type*} [LinearOrder κ]

section Walk

variable (kα : α → κ) (kβ : β → κ) (left : σ → α → σ) (both : σ → α → β → σ)

/-- The part of the walk that moves the right cursor while the left one stays
on `a`; `rest` is the walk of what follows `a`. -/
def seek (a : α) (rest : List β → σ → σ) : List β → σ → σ
  | [], s => rest [] (left s a)
  | b :: bs, s =>
    if kα a < kβ b then rest (b :: bs) (left s a)
    else if kβ b < kα a then seek a rest bs s
    else rest bs (both s a b)

/-- **The two-cursor walk.** The left cursor visits every element, with the
element of the right list under the right cursor when the keys agree. -/
def walk : List α → List β → σ → σ
  | [], _, s => s
  | a :: as, bs, s => seek kα kβ left both a (walk as) bs s

@[simp] theorem walk_nil_right (as : List α) (s : σ) :
    walk kα kβ left both as [] s = as.foldl left s := by
  induction as generalizing s with
  | nil => rfl
  | cons a as ih => simpa [walk, seek] using ih (left s a)

/-- **An invariant of the walk**, of the state and the part of the left list that was
visited. The right list need not be sorted. -/
theorem walk_induction {kα : α → κ} {kβ : β → κ} {left : σ → α → σ} {both : σ → α → β → σ}
    {P : List α → σ → Prop} (hleft : ∀ done s a, P done s → P (done ++ [a]) (left s a))
    (hboth : ∀ done s a b, P done s → P (done ++ [a]) (both s a b)) (l : List α) (r : List β)
    {s : σ} (hs : P [] s) : P l (walk kα kβ left both l r s) := by
  suffices h : ∀ done r s, P done s → P (done ++ l) (walk kα kβ left both l r s) from h [] r s hs
  induction l with
  | nil => exact fun done r s hs => by simpa [walk] using hs
  | cons a as ih =>
    intro done r s hs
    have hrest : ∀ r' s', P (done ++ [a]) s' →
        P (done ++ a :: as) (walk kα kβ left both as r' s') := fun r' s' hs' => by
      simpa using ih (done ++ [a]) r' s' hs'
    rw [walk]
    induction r generalizing s with
    | nil => exact hrest _ _ (hleft done s a hs)
    | cons b bs ihr =>
      rw [seek]
      split_ifs
      · exact hrest _ _ (hleft done s a hs)
      · exact ihr s hs
      · exact hrest _ _ (hboth done s a b hs)

end Walk

section Join

variable {kα : α → κ} {kβ : β → κ} {left : σ → α → σ} {both : σ → α → β → σ}

/-- What a walk does at one element of the left list: the two-sided action with
the element of the right list that has its key, or the one-sided one. -/
def joinStep (kα : α → κ) (kβ : β → κ) (left : σ → α → σ) (both : σ → α → β → σ)
    (r : List β) (s : σ) (a : α) : σ :=
  match lookup kβ (kα a) r with
  | none => left s a
  | some b => both s a b

/-- Seeking past the smaller keys of the right list arrives at the join step. -/
theorem seek_eq_joinStep {r : List β} (hr : StrictBy kβ r) (a : α) (rest : List β → σ → σ) (s : σ)
    (hrest : ∀ r' : List β, r'.IsSuffix r → (∀ b ∈ r, kα a < kβ b → b ∈ r') →
      ∀ s', rest r' s' = rest r s') :
    seek kα kβ left both a rest r s = rest r (joinStep kα kβ left both r s a) := by
  suffices h : ∀ (r' : List β), r'.IsSuffix r → (∀ b ∈ r, b ∉ r' → kβ b < kα a) →
      seek kα kβ left both a rest r' s = rest r (joinStep kα kβ left both r s a) from
    h r (List.suffix_refl r) fun b hb hn => absurd hb hn
  intro r' hsuf hpast
  induction r' with
  | nil =>
    -- every key on the right is smaller, so the key is not there
    have hnone : lookup kβ (kα a) r = none := lookup_eq_none_iff.mpr fun b hb =>
      ne_of_lt (hpast b hb (by simp))
    simp only [seek, joinStep, hnone]
    exact hrest [] hsuf (fun b hb hab => absurd hab (lt_asymm (hpast b hb (by simp)))) _
  | cons b bs ih =>
    have hsuf' : bs.IsSuffix r := (List.suffix_cons b bs).trans hsuf
    have hb : b ∈ r := hsuf.subset (by simp)
    have hbs : StrictBy kβ (b :: bs) := hr.sublist hsuf.sublist
    have habove : ∀ c ∈ bs, kβ b < kβ c := (strictBy_cons.mp hbs).1
    simp only [seek]
    by_cases hlt : kα a < kβ b
    · have hnone : lookup kβ (kα a) r = none := lookup_eq_none_iff.mpr fun c hc => by
        by_cases hcm : c ∈ b :: bs
        · rcases List.mem_cons.mp hcm with rfl | hcb
          · exact ne_of_gt hlt
          · exact ne_of_gt (hlt.trans (habove c hcb))
        · exact ne_of_lt (hpast c hc hcm)
      rw [if_pos hlt, joinStep, hnone]
      refine hrest _ hsuf (fun c hc hac => ?_) _
      by_contra hn
      exact absurd hac (lt_asymm (hpast c hc hn))
    · rw [if_neg hlt]
      by_cases hgt : kβ b < kα a
      · rw [if_pos hgt]
        refine ih hsuf' fun c hc hn => ?_
        by_cases hcb : c = b
        · rwa [hcb]
        · exact hpast c hc (by simp [hcb, hn])
      · have hkey : kβ b = kα a := le_antisymm (not_lt.mp hlt) (not_lt.mp hgt)
        have hsome : lookup kβ (kα a) r = some b := hr.lookup_eq_some_iff.mpr ⟨hb, hkey⟩
        rw [if_neg hgt, joinStep, hsome]
        refine hrest _ hsuf' (fun c hc hac => ?_) _
        by_contra hn
        by_cases hcb : c = b
        · rw [hcb, hkey] at hac
          exact lt_irrefl _ hac
        · exact absurd hac (lt_asymm (hpast c hc (by simp [hcb, hn])))

/-- **The two-cursor walk is a keyed join**: over strictly sorted lists it is
the fold over the left list that looks every key up in the right one. -/
theorem walk_eq_foldl {l : List α} {r : List β} (hl : StrictBy kα l) (hr : StrictBy kβ r) (s : σ) :
    walk kα kβ left both l r s = l.foldl (joinStep kα kβ left both r) s := by
  suffices h : ∀ r' : List β, r'.IsSuffix r → (∀ a ∈ l, ∀ b ∈ r, b ∉ r' → kβ b < kα a) →
      walk kα kβ left both l r' s = l.foldl (joinStep kα kβ left both r) s from
    h r (List.suffix_refl r) fun a _ b hb hn => absurd hb hn
  induction l generalizing s with
  | nil => intro r' _ _; rfl
  | cons a as ih =>
    intro r' hsuf hpast
    obtain ⟨hlow, has⟩ := strictBy_cons.mp hl
    have hr' : StrictBy kβ r' := hr.sublist hsuf.sublist
    -- the join step does not see the part of the right list already passed
    have hstep : ∀ s, joinStep kα kβ left both r' s a = joinStep kα kβ left both r s a := by
      intro s
      have hlk : lookup kβ (kα a) r' = lookup kβ (kα a) r := by
        refine Option.ext fun b => ?_
        rw [hr'.lookup_eq_some_iff, hr.lookup_eq_some_iff]
        refine ⟨fun h => ⟨hsuf.subset h.1, h.2⟩, fun h => ⟨?_, h.2⟩⟩
        by_contra hn
        exact absurd h.2 (ne_of_lt (hpast a (by simp) b h.1 hn))
      rw [joinStep, joinStep, hlk]
    have hwalk : ∀ r'' : List β, r''.IsSuffix r' → (∀ b ∈ r', kα a < kβ b → b ∈ r'') →
        ∀ s', walk kα kβ left both as r'' s' = as.foldl (joinStep kα kβ left both r) s' := by
      intro r'' hsuf'' hkeep s'
      refine ih has s' r'' (hsuf''.trans hsuf) fun c hc b hb hn => ?_
      by_cases hbr : b ∈ r'
      · exact lt_of_le_of_lt (not_lt.mp fun hab => hn (hkeep b hbr hab)) (hlow c hc)
      · exact (hpast a (by simp) b hb hbr).trans (hlow c hc)
    rw [walk, seek_eq_joinStep hr' a _ s fun r'' h1 h2 s' => by
        rw [hwalk r'' h1 h2, hwalk r' (List.suffix_refl _) fun b hb _ => hb], hstep,
      hwalk r' (List.suffix_refl _) fun b hb _ => hb, List.foldl_cons]

end Join

/-! ### Merging -/

section Merge

variable {key : α → κ}

/-- The part of the merge that moves the right cursor while the left one stays
on `a`; `rest` is the merge of what follows `a`. -/
def mergeSeek (key : α → κ) (a : α) (rest : List α → List α) : List α → List α
  | [] => a :: rest []
  | b :: bs =>
    if key a < key b then a :: rest (b :: bs)
    else if key b < key a then b :: mergeSeek key a rest bs
    else b :: rest bs

/-- **The merge of two sorted lists**, which prefers the right one. -/
def merge (key : α → κ) : List α → List α → List α
  | [], bs => bs
  | a :: as, bs => mergeSeek key a (merge key as) bs

/-- The list `m` is the right list and what the left one has besides. -/
structure Merged (key : α → κ) (l r m : List α) : Prop where
  strictBy : StrictBy key m
  mem : ∀ x, x ∈ m ↔ x ∈ r ∨ x ∈ l ∧ ∀ y ∈ r, key y ≠ key x

/-- A next element of the left list that is below all others. -/
theorem Merged.cons_left {a : α} {as r m : List α} (h : Merged key as r m)
    (ha : ∀ x ∈ as, key a < key x) (hr : ∀ y ∈ r, key a < key y) :
    Merged key (a :: as) r (a :: m) where
  strictBy := strictBy_cons.mpr ⟨fun x hx => by
    rcases (h.mem x).mp hx with hx | ⟨hx, -⟩
    · exact hr x hx
    · exact ha x hx, h.strictBy⟩
  mem x := by
    simp only [List.mem_cons, h.mem]
    constructor
    · rintro (rfl | hx | ⟨hx, hy⟩)
      · exact Or.inr ⟨Or.inl rfl, fun y hy => ne_of_gt (hr y hy)⟩
      · exact Or.inl hx
      · exact Or.inr ⟨Or.inr hx, hy⟩
    · rintro (hx | ⟨rfl | hx, hy⟩)
      · exact Or.inr (Or.inl hx)
      · exact Or.inl rfl
      · exact Or.inr (Or.inr ⟨hx, hy⟩)

/-- A next element of the right list that is below all others. -/
theorem Merged.cons_right {b : α} {l bs m : List α} (h : Merged key l bs m)
    (hb : ∀ y ∈ bs, key b < key y) (hl : ∀ x ∈ l, key b < key x) :
    Merged key l (b :: bs) (b :: m) where
  strictBy := strictBy_cons.mpr ⟨fun x hx => by
    rcases (h.mem x).mp hx with hx | ⟨hx, -⟩
    · exact hb x hx
    · exact hl x hx, h.strictBy⟩
  mem x := by
    simp only [h.mem, List.mem_cons, forall_eq_or_imp]
    constructor
    · rintro (hx | hx | ⟨hx, hy⟩)
      · exact Or.inl (Or.inl hx)
      · exact Or.inl (Or.inr hx)
      · exact Or.inr ⟨hx, ne_of_lt (hl x hx), hy⟩
    · rintro ((hx | hx) | ⟨hx, -, hy⟩)
      · exact Or.inl hx
      · exact Or.inr (Or.inl hx)
      · exact Or.inr (Or.inr ⟨hx, hy⟩)

/-- One key on both sides: the right element stands for both. -/
theorem Merged.cons_both {a b : α} {as bs m : List α} (h : Merged key as bs m)
    (ha : ∀ x ∈ as, key a < key x) (hb : ∀ y ∈ bs, key b < key y) (hkey : key a = key b) :
    Merged key (a :: as) (b :: bs) (b :: m) where
  strictBy := strictBy_cons.mpr ⟨fun x hx => by
    rcases (h.mem x).mp hx with hx | ⟨hx, -⟩
    · exact hb x hx
    · exact hkey ▸ ha x hx, h.strictBy⟩
  mem x := by
    simp only [h.mem, List.mem_cons, forall_eq_or_imp]
    constructor
    · rintro (hx | hx | ⟨hx, hy⟩)
      · exact Or.inl (Or.inl hx)
      · exact Or.inl (Or.inr hx)
      · exact Or.inr ⟨Or.inr hx, hkey ▸ ne_of_lt (ha x hx), hy⟩
    · rintro ((hx | hx) | ⟨rfl | hx, hb', hy⟩)
      · exact Or.inl hx
      · exact Or.inr (Or.inl hx)
      · exact absurd hkey.symm hb'
      · exact Or.inr (Or.inr ⟨hx, hy⟩)

theorem merged_mergeSeek {a : α} {as : List α} {rest : List α → List α}
    (ha : ∀ x ∈ as, key a < key x) (hrest : ∀ r, StrictBy key r → Merged key as r (rest r)) :
    ∀ r, StrictBy key r → Merged key (a :: as) r (mergeSeek key a rest r) := by
  intro r
  induction r with
  | nil => exact fun hr => (hrest [] hr).cons_left ha (by simp)
  | cons b bs ih =>
    intro hr
    obtain ⟨hb, hbs⟩ := strictBy_cons.mp hr
    rw [mergeSeek]
    split_ifs with hab hba
    · -- `a` is below everything on the right
      refine (hrest _ hr).cons_left ha fun y hy => ?_
      rcases List.mem_cons.mp hy with rfl | hy
      · exact hab
      · exact hab.trans (hb y hy)
    · -- `b` is below everything else
      refine (ih hbs).cons_right hb fun x hx => ?_
      rcases List.mem_cons.mp hx with rfl | hx
      · exact hba
      · exact hba.trans (ha x hx)
    · -- one key: `b` stands for both
      exact (hrest _ hbs).cons_both ha hb (le_antisymm (not_lt.mp hba) (not_lt.mp hab))

theorem merged_merge {l : List α} (hl : StrictBy key l) :
    ∀ r, StrictBy key r → Merged key l r (merge key l r) := by
  induction l with
  | nil => exact fun r hr => ⟨hr, fun x => by simp [merge]⟩
  | cons a as ih =>
    obtain ⟨ha, has⟩ := strictBy_cons.mp hl
    exact merged_mergeSeek ha (ih has)

/-- A merge of sorted lists is sorted. -/
theorem strictBy_merge {l r : List α} (hl : StrictBy key l) (hr : StrictBy key r) :
    StrictBy key (merge key l r) :=
  (merged_merge hl r hr).strictBy

/-- **What a merge keeps**: the right list, and of the left one what has no key in
common with it. -/
theorem mem_merge {l r : List α} (hl : StrictBy key l) (hr : StrictBy key r) {x : α} :
    x ∈ merge key l r ↔ x ∈ r ∨ x ∈ l ∧ ∀ y ∈ r, key y ≠ key x :=
  (merged_merge hl r hr).mem x

end Merge

end TwoCursor
