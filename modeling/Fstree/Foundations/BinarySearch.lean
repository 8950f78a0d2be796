import Fstree.Foundations.SortedBy

/-!
# Binary search

The loop of `std::lower_bound` on a list with a key: it halves the part of the list in
which the first element is that is not before the key, comparing the element in the middle
with it.

Whatever the list is, the element on the left of the place where the loop ends has been
found to be before the key, and the one at that place not to be
(`SortedBy.lowerBoundFrom_spec`). So in a strictly sorted list every element is found by
its key (`SortedBy.StrictBy.getElem?_lowerBound`), and a list with distinct keys in which
every element is found is strictly sorted (`SortedBy.strictBy_of_found`).
-/

namespace SortedBy

variable {α κ : Type*} [LinearOrder κ] {key : α → κ} {l : List α} {k : κ}

/-- The loop of `std::lower_bound` in the `len` places from `first` on. No more than
`len` passes are made. -/
def lowerBoundFrom (before : ℕ → Bool) : ℕ → ℕ → ℕ → ℕ
  | 0, first, _ => first
  | fuel + 1, first, len =>
    if len = 0 then first
    else if before (first + len / 2) then
      lowerBoundFrom before fuel (first + len / 2 + 1) (len - len / 2 - 1)
    else lowerBoundFrom before fuel first (len / 2)

/-- **`std::lower_bound`**: a place in the list. -/
def lowerBound (key : α → κ) (k : κ) (l : List α) : ℕ :=
  lowerBoundFrom (fun i => l[i]?.any fun a => key a < k) l.length 0 l.length

/-- **Where the loop ends**, between an element that is before and one that is not. -/
theorem lowerBoundFrom_spec {before : ℕ → Bool} {fuel first len r : ℕ} (hfuel : len ≤ fuel)
    (hr : lowerBoundFrom before fuel first len = r) :
    first ≤ r ∧ r ≤ first + len ∧ (first < r → before (r - 1) = true) ∧
      (r < first + len → before r = false) := by
  fun_induction lowerBoundFrom before fuel first len with
  | case1 first len =>
    subst hr
    exact ⟨le_rfl, by omega, by omega, by omega⟩
  | case2 fuel first =>
    subst hr
    exact ⟨le_rfl, by omega, by omega, by omega⟩
  | case3 fuel first len hlen hbefore ih =>
    obtain ⟨hle, hle', hleft, hright⟩ := ih (by omega) hr
    refine ⟨by omega, by omega, fun _ => ?_, fun h => hright (by omega)⟩
    rcases hle.lt_or_eq with hlt | rfl
    · exact hleft hlt
    · exact hbefore
  | case4 fuel first len hlen hbefore ih =>
    obtain ⟨hle, hle', hleft, hright⟩ := ih (by omega) hr
    refine ⟨hle, by omega, hleft, fun _ => ?_⟩
    rcases hle'.lt_or_eq with hlt | rfl
    · exact hright hlt
    · simpa using hbefore

theorem lowerBound_le : lowerBound key k l ≤ l.length := by
  have h := (lowerBoundFrom_spec le_rfl (rfl : _ = lowerBound key k l)).2.1
  omega

/-- What stands on the left of the place is before the key. -/
theorem lt_of_lowerBound {i : ℕ} (hi : i + 1 = lowerBound key k l) {a : α}
    (ha : l[i]? = some a) : key a < k := by
  have h := (lowerBoundFrom_spec le_rfl (rfl : _ = lowerBound key k l)).2.2.1 (by omega)
  rw [← hi, Nat.add_sub_cancel, ha] at h
  simpa using h

/-- What stands at the place is not. -/
theorem le_of_lowerBound {a : α} (ha : l[lowerBound key k l]? = some a) : k ≤ key a := by
  have hlt : lowerBound key k l < l.length := (List.getElem?_eq_some_iff.mp ha).1
  have h := (lowerBoundFrom_spec le_rfl (rfl : _ = lowerBound key k l)).2.2.2 (by omega)
  rw [ha] at h
  simpa using h

/-- **In a strictly sorted list an element is found by its key.** -/
theorem StrictBy.getElem?_lowerBound (h : StrictBy key l) {a : α} (ha : a ∈ l) :
    l[lowerBound key (key a) l]? = some a := by
  obtain ⟨i, hi, rfl⟩ := List.mem_iff_getElem.mp ha
  have hmono := List.pairwise_iff_getElem.mp h
  rcases Nat.lt_trichotomy (lowerBound key (key l[i]) l) i with hlt | heq | hgt
  · -- the place is on the left of the element, and what is there is before it
    have hle := le_of_lowerBound (List.getElem?_eq_getElem (hlt.trans hi))
    exact absurd (hmono _ _ _ hi hlt) hle.not_gt
  · rw [heq]
    exact List.getElem?_eq_getElem hi
  · obtain ⟨j, hj⟩ : ∃ j, j + 1 = lowerBound key (key l[i]) l :=
      ⟨lowerBound key (key l[i]) l - 1, by omega⟩
    have hjl : j < l.length := by
      have : lowerBound key (key l[i]) l ≤ l.length := lowerBound_le
      omega
    have hlt := lt_of_lowerBound hj (List.getElem?_eq_getElem hjl)
    rcases Nat.lt_or_eq_of_le (show i ≤ j by omega) with hij | rfl
    · exact absurd (hmono _ _ hi hjl hij) hlt.not_gt
    · exact absurd hlt (lt_irrefl _)

/-- **If every element is found by its key, the list is strictly sorted.** -/
theorem strictBy_of_found (hnd : (l.map key).Nodup)
    (h : ∀ a ∈ l, l[lowerBound key (key a) l]? = some a) : StrictBy key l := by
  have : IsTrans α fun a b => key a < key b := ⟨fun _ _ _ => lt_trans⟩
  refine List.isChain_iff_pairwise.mp (List.isChain_iff_getElem.mpr fun i hi => ?_)
  have hplace : lowerBound key (key l[i + 1]) l = i + 1 := by
    have hat := h _ (List.getElem_mem hi)
    obtain ⟨hlt, he⟩ := List.getElem?_eq_some_iff.mp hat
    exact (List.Nodup.getElem_inj_iff hnd.of_map).mp he
  exact lt_of_lowerBound hplace.symm (List.getElem?_eq_getElem _)

end SortedBy
