import Fstree.GlobTree

/-!
# One segment of a glob pattern

`glob_match_segment` compares a character of the pattern with one of the name before it asks
whether it is a `*`. So a `*` of the pattern that stands before a `*` of the name takes that
character alone, and the loop neither lets it take nothing nor comes back to let it take more:
the pattern `*` does not match the name `*a`.

The loop always ends (`Fstree.globMatchSegmentRounds_eq`), what it matches does match, and it
finds the names that can be split along the pattern in the way it takes a `*`
(`Fstree.globMatchSegment_eq_true_iff`), among them all that match and have no `*`
(`Fstree.globMatchSegment_iff`).
-/

namespace Fstree

open Codec Wildcard

/-- **The loop of `glob_match_segment`**, for a number of rounds. -/
def globMatchSegmentRounds (fuel : ℕ) (pat name : Bytes) : Option Bool :=
  rounds (fun c => c = asterisk) (fun c b => c = question ∨ c = b) fuel pat name none

/-- **A segment matches a name with stars that are taken for themselves**: as `SegMatch`, but a
`*` that stands before a `*` of the name takes that character and no more. -/
inductive SegMatchLiterally : Bytes → Bytes → Prop
  | nil : SegMatchLiterally [] []
  | literal {c p b} (hc : c ≠ asterisk ∧ c ≠ question) (h : SegMatchLiterally p b) :
      SegMatchLiterally (c :: p) (c :: b)
  | question {c p b} (h : SegMatchLiterally p b) : SegMatchLiterally (question :: p) (c :: b)
  | itself {p b} (h : SegMatchLiterally p b) :
      SegMatchLiterally (asterisk :: p) (asterisk :: b)
  | asterisk {w p b} (hfree : (w ++ b).head? ≠ some asterisk) (h : SegMatchLiterally p b) :
      SegMatchLiterally (asterisk :: p) (w ++ b)

variable {pat name : Bytes}

/-- **Splitting a name along a pattern** is matching a wildcard. -/
theorem wild_iff_segMatch :
    Wild (fun c => c = asterisk) (fun c b => c = question ∨ c = b) pat name ↔
      SegMatch pat name := by
  constructor
  · intro h
    induction h with
    | nil => exact .nil
    | @one c p b t hc hcb _ ih =>
      by_cases hq : c = question
      · exact hq ▸ .question ih
      · obtain rfl := (of_decide_eq_true hcb).resolve_left hq
        exact .literal ⟨of_decide_eq_false hc, hq⟩ ih
    | star hc _ ih => exact of_decide_eq_true hc ▸ .asterisk ih
  · intro h
    induction h with
    | nil => exact .nil
    | literal hc _ ih => exact .one (decide_eq_false hc.1) (decide_eq_true (Or.inr rfl)) ih
    | question _ ih => exact .one (by decide) (decide_eq_true (Or.inl rfl)) ih
    | asterisk _ ih => exact .star (by decide) ih

theorem sticky_iff_segMatchLiterally :
    Sticky (fun c => c = asterisk) (fun c b => c = question ∨ c = b) pat name ↔
      SegMatchLiterally pat name := by
  constructor
  · intro h
    induction h with
    | nil => exact .nil
    | @one c p b t hcb _ ih =>
      by_cases hq : c = question
      · exact hq ▸ .question ih
      · obtain rfl := (of_decide_eq_true hcb).resolve_left hq
        by_cases hc : c = asterisk
        · exact hc ▸ .itself ih
        · exact .literal ⟨hc, hq⟩ ih
    | @star c p w t hc hfree _ ih =>
      obtain rfl := of_decide_eq_true hc
      refine .asterisk (fun he => ?_) ih
      simpa using hfree asterisk he
  · intro h
    induction h with
    | nil => exact .nil
    | literal _ _ ih => exact .one (decide_eq_true (Or.inr rfl)) ih
    | question _ ih => exact .one (decide_eq_true (Or.inl rfl)) ih
    | itself _ ih => exact .one (decide_eq_true (Or.inr rfl)) ih
    | asterisk hfree _ ih =>
      refine .star (by decide) (fun b hb => ?_) ih
      rw [decide_eq_false_iff_not]
      rintro (he | rfl)
      · exact absurd he (by decide)
      · exact hfree hb

/-- Such a name does match. -/
theorem SegMatchLiterally.segMatch (h : SegMatchLiterally pat name) : SegMatch pat name :=
  wild_iff_segMatch.mp (sticky_iff_segMatchLiterally.mpr h).wild

/-- **The loop ends**, for every pattern and every name. -/
theorem globMatchSegmentRounds_eq {fuel : ℕ} (h : cost (name.length + 1) pat name none ≤ fuel) :
    globMatchSegmentRounds fuel pat name = some (globMatchSegment pat name) := by
  rw [globMatchSegmentRounds, rounds_eq_search h, globMatchSegment]
  refine congrArg some (Bool.eq_iff_iff.mpr ?_)
  rw [search_eq_true_iff h, search_eq_true_iff le_rfl]

/-- **What the loop finds.** -/
theorem globMatchSegment_eq_true_iff :
    globMatchSegment pat name = true ↔ SegMatchLiterally pat name := by
  rw [globMatchSegment, search_eq_true_iff le_rfl, sticky_iff_segMatchLiterally]

/-- Without a `*` in the pattern none is taken for itself. -/
theorem SegMatch.literally (h : SegMatch pat name) (hpat : Fstree.asterisk ∉ pat) :
    SegMatchLiterally pat name := by
  induction h with
  | nil => exact .nil
  | literal hc _ ih => exact .literal hc (ih fun hm => hpat (List.mem_cons_of_mem _ hm))
  | question _ ih => exact .question (ih fun hm => hpat (List.mem_cons_of_mem _ hm))
  | asterisk => exact absurd List.mem_cons_self hpat

/-- **A segment matches a name as it should**, if there is no `*` in both. -/
theorem globMatchSegment_iff (h : asterisk ∈ pat → asterisk ∉ name) :
    globMatchSegment pat name = true ↔ SegMatch pat name := by
  by_cases hpat : asterisk ∈ pat
  · have hstar : ∀ c : Byte, decide (c = asterisk) = true → ∀ b ∈ name,
        decide (c = question ∨ c = b) = false := by
      intro c hc b hb
      rw [of_decide_eq_true hc, decide_eq_false_iff_not]
      rintro (he | rfl)
      · exact absurd he (by decide)
      · exact h hpat hb
    rw [globMatchSegment, search_iff hstar le_rfl, wild_iff_segMatch]
  · rw [globMatchSegment_eq_true_iff]
    exact ⟨SegMatchLiterally.segMatch, fun hm => hm.literally hpat⟩

/-- **When a segment is matched exactly**: if a name that can be split along the pattern can be
split so that each `*` before a `*` of the name takes this one; so are all names without a `*`. The
loop ends in any case. -/
theorem globMatchSegment_exact_iff (pat name : Bytes) :
    (∃ least, ∀ fuel ≥ least,
      globMatchSegmentRounds fuel pat name = some (globMatchSegment pat name)) ∧
    ((globMatchSegment pat name = true ↔ SegMatch pat name) ↔
      (SegMatch pat name → SegMatchLiterally pat name)) ∧
    (asterisk ∉ name → (globMatchSegment pat name = true ↔ SegMatch pat name)) := by
  refine ⟨⟨_, fun fuel h => globMatchSegmentRounds_eq h⟩, ?_,
    fun h => globMatchSegment_iff fun _ => h⟩
  rw [globMatchSegment_eq_true_iff]
  exact ⟨fun h => h.mpr, fun h => ⟨SegMatchLiterally.segMatch, h⟩⟩

/-- The pattern `*` and the name `*a`. -/
theorem globMatchSegment_inexact : ¬ ∀ pat name : Bytes,
    (∃ least, ∀ fuel ≥ least,
      globMatchSegmentRounds fuel pat name = some (globMatchSegment pat name)) ∧
    (globMatchSegment pat name = true ↔ SegMatch pat name) := by
  intro h
  have hm : SegMatch [asterisk] [asterisk, 97] := .asterisk (w := [asterisk, 97]) .nil
  exact absurd ((h [asterisk] [asterisk, 97]).2.mpr hm) (by decide)

end Fstree
