import Fstree.Model.Digest
import Mathlib.Data.List.TakeWhile

/-!
# Sizes on the command line

`parse_size` reads a number and a unit. Blanks are removed first, wherever they are, and then
one `B` at the end. The number is read by `std::stoull`, which rejects what has no 64 bits; it
is then multiplied by the unit without a check, so that a product of `2 ^ 64` or more wraps
around (`Fstree.parseSize_of_sizeOf`). The test for the `B` asks an empty string for its last
character, which is undefined.

All other strings are read as they should be (`Fstree.parseSize_exact_iff`).
-/

namespace Fstree

open Codec

/-! ### The parser -/

/-- What `parse_size` throws, with the text. -/
inductive SizeError
  | invalidArgument (what : String)
  | outOfRange (what : String)

/-- `isspace`, in the C locale. -/
def isSpace (c : Byte) : Bool := c = 32 ∨ 9 ≤ c ∧ c ≤ 13

/-- One of `"0123456789"`. -/
def isDigit (c : Byte) : Bool := 48 ≤ c ∧ c ≤ 57

/-- The letter `B`. -/
def letterB : Byte := 66

/-- The number that decimal digits stand for. -/
def decimal (ds : Bytes) : ℕ := ds.foldl (fun n c => 10 * n + (c.val - 48)) 0

/-- `std::stoull`, of text with no blank and no sign before the digits. -/
def stoull (s : Bytes) : Except SizeError (BitVec 64) :=
  let ds := s.takeWhile isDigit
  if ds = [] then .error (.invalidArgument "stoull")
  else if 2 ^ 64 ≤ decimal ds then .error (.outOfRange "stoull")
  else .ok (BitVec.ofNat 64 (decimal ds))

/-- The string without its whitespace. -/
def withoutSpace (s : Bytes) : Bytes := s.filter fun c => !isSpace c

/-- The string without the `B` at its end. -/
def withoutB (s : Bytes) : Bytes := if s.getLast? = some letterB then s.dropLast else s

/-- The number is multiplied by the unit. -/
def multiplyUnit (unit : Bytes) (number : BitVec 64) : Except SizeError (BitVec 64) :=
  if unit = ascii ['K'] then .ok (number * 1000)
  else if unit = ascii ['M'] then .ok (number * 1000 * 1000)
  else if unit = ascii ['G'] then .ok (number * 1000 * 1000 * 1000)
  else if unit = ascii ['T'] then .ok (number * 1000 * 1000 * 1000 * 1000)
  else if unit = ascii ['K', 'i'] then .ok (number * 1024)
  else if unit = ascii ['M', 'i'] then .ok (number * 1024 * 1024)
  else if unit = ascii ['G', 'i'] then .ok (number * 1024 * 1024 * 1024)
  else if unit = ascii ['T', 'i'] then .ok (number * 1024 * 1024 * 1024 * 1024)
  else .error (.invalidArgument ("invalid size unit: " ++ text unit))

/-- **`parse_size`**. There is no result where the behaviour is undefined. -/
def parseSize (size : Bytes) : Option (Except SizeError (BitVec 64)) :=
  let s := withoutSpace size
  -- `back` of an empty string
  if s = [] then none
  else
    let s := withoutB s
    -- `find_first_not_of`
    let digits := s.takeWhile isDigit
    if digits = s then some (stoull s)
    else some (stoull digits >>= multiplyUnit (s.drop digits.length))

/-! ### The sizes that are documented -/

/-- The units with a letter, and what they stand for. -/
def letterUnits : List (Bytes × ℕ) :=
  [(ascii ['K'], 1000), (ascii ['M'], 1000 ^ 2), (ascii ['G'], 1000 ^ 3), (ascii ['T'], 1000 ^ 4),
    (ascii ['K', 'i'], 1024), (ascii ['M', 'i'], 1024 ^ 2), (ascii ['G', 'i'], 1024 ^ 3),
    (ascii ['T', 'i'], 1024 ^ 4)]

/-- **The documented units**: none, and those with a letter, all with an optional `B`. -/
def sizeUnits : List (Bytes × ℕ) :=
  (([], 1) :: letterUnits).flatMap fun u => [u, (u.1 ++ [letterB], u.2)]

/-- **The string is a size**: a decimal number and a unit, with blanks anywhere. -/
def IsSize (size : Bytes) (n factor : ℕ) : Prop :=
  ∃ ds unit, withoutSpace size = ds ++ unit ∧ ds ≠ [] ∧ (∀ c ∈ ds, isDigit c = true) ∧
    decimal ds = n ∧ (unit, factor) ∈ sizeUnits

/-- The string is rejected. -/
def Rejected (size : Bytes) : Prop := ∃ e, parseSize size = some (.error e)

/-- **The string is read exactly, or rejected**, and it is rejected if it is no size or if the
size has no 64 bits. -/
structure ReadExactly (size : Bytes) : Prop where
  exact : Rejected size ∨
    ∃ n factor v, IsSize size n factor ∧ parseSize size = some (.ok v) ∧ v.toNat = n * factor
  other : (¬ ∃ n factor, IsSize size n factor) → Rejected size
  large : ∀ n factor, IsSize size n factor → 2 ^ 64 ≤ n * factor → Rejected size

/-! ### How sizes are read -/

section Read

variable {size ds unit s : Bytes} {n factor : ℕ} {number : BitVec 64}

theorem multiplyUnit_of_mem (h : (unit, factor) ∈ letterUnits) :
    multiplyUnit unit number = .ok (number * BitVec.ofNat 64 factor) := by
  simp only [letterUnits, List.mem_cons, Prod.mk.injEq, List.not_mem_nil, or_false] at h
  rcases h with ⟨rfl, rfl⟩ | ⟨rfl, rfl⟩ | ⟨rfl, rfl⟩ | ⟨rfl, rfl⟩ | ⟨rfl, rfl⟩ | ⟨rfl, rfl⟩ |
    ⟨rfl, rfl⟩ | ⟨rfl, rfl⟩ <;>
  simp +decide [multiplyUnit, BitVec.mul_assoc]

theorem multiplyUnit_of_not_mem (number : BitVec 64)
    (h : ∀ factor, (unit, factor) ∉ letterUnits) :
    ∃ e, multiplyUnit unit number = .error e := by
  have hne : ∀ u ∈ letterUnits.map Prod.fst, unit ≠ u := by
    rintro _ hu rfl
    obtain ⟨⟨u, factor⟩, hmem, rfl⟩ := List.mem_map.mp hu
    exact h factor hmem
  simp only [letterUnits, List.map_cons, List.map_nil, List.forall_mem_cons] at hne
  obtain ⟨h1, h2, h3, h4, h5, h6, h7, h8, -⟩ := hne
  exact ⟨_, by rw [multiplyUnit, if_neg h1, if_neg h2, if_neg h3, if_neg h4, if_neg h5, if_neg h6,
    if_neg h7, if_neg h8]⟩

theorem takeWhile_digits (hds : ∀ c ∈ ds, isDigit c = true)
    (hunit : ∀ c ∈ unit.head?, isDigit c = false) : (ds ++ unit).takeWhile isDigit = ds := by
  rw [List.takeWhile_append_of_pos hds]
  cases unit with
  | nil => simp
  | cons c unit => simpa [List.takeWhile_cons] using hunit

/-- What `stoull` makes of digits. -/
theorem stoull_digits (hds : ∀ c ∈ ds, isDigit c = true) (hne : ds ≠ []) :
    stoull ds = if 2 ^ 64 ≤ decimal ds then .error (.outOfRange "stoull")
      else .ok (BitVec.ofNat 64 (decimal ds)) := by
  have htake : ds.takeWhile isDigit = ds := List.takeWhile_eq_self_iff.mpr hds
  rw [stoull]
  simp only [htake, if_neg hne]

/-- No letter unit begins with a digit, or is empty, or ends with a `B`. -/
theorem letterUnits_plain (h : (unit, factor) ∈ letterUnits) :
    unit ≠ [] ∧ (∀ c ∈ unit.head?, isDigit c = false) ∧ unit.getLast? ≠ some letterB := by
  have hall : ∀ u ∈ letterUnits, u.1 ≠ [] ∧ (∀ c ∈ u.1.head?, isDigit c = false) ∧
      u.1.getLast? ≠ some letterB := by decide +kernel
  exact hall _ h

/-- Without its `B`, a unit is none or a letter unit. -/
theorem withoutB_append (hds : ∀ c ∈ ds, isDigit c = true) (h : (unit, factor) ∈ sizeUnits) :
    ∃ u, withoutB (ds ++ unit) = ds ++ u ∧ (u = [] ∧ factor = 1 ∨ (u, factor) ∈ letterUnits) := by
  have hself : ∀ u, u.getLast? ≠ some letterB → withoutB (ds ++ u) = ds ++ u := by
    intro u hu
    refine if_neg fun hlast => ?_
    rw [List.getLast?_append, Option.or_eq_some_iff] at hlast
    rcases hlast with hlast | ⟨-, hlast⟩
    · exact hu hlast
    · have hB := hds _ (List.mem_of_getLast? hlast)
      exact absurd hB (by decide)
  have hB : ∀ u, withoutB (ds ++ (u ++ [letterB])) = ds ++ u := by
    intro u
    rw [← List.append_assoc, withoutB, if_pos List.getLast?_concat, List.dropLast_concat]
  obtain ⟨⟨u, k⟩, hu, hmem⟩ := List.mem_flatMap.mp h
  have hor : u = [] ∧ k = 1 ∨ (u, k) ∈ letterUnits := by
    rcases List.mem_cons.mp hu with he | hu
    · exact .inl ⟨congrArg Prod.fst he, congrArg Prod.snd he⟩
    · exact .inr hu
  have hlast : u.getLast? ≠ some letterB := by
    rcases hor with ⟨rfl, -⟩ | hu
    · simp
    · exact (letterUnits_plain hu).2.2
  simp only [List.mem_cons, Prod.mk.injEq, List.not_mem_nil, or_false] at hmem
  rcases hmem with ⟨rfl, rfl⟩ | ⟨rfl, rfl⟩
  · exact ⟨_, hself _ hlast, hor⟩
  · exact ⟨u, hB u, hor⟩

theorem IsSize.factor_pos (h : IsSize size n factor) : 0 < factor := by
  obtain ⟨ds, unit, -, -, -, -, hunit⟩ := h
  have hall : ∀ u ∈ sizeUnits, 0 < u.2 := by decide +kernel
  exact hall _ hunit

/-- **How a size is read**: the product wraps around. -/
theorem parseSize_of_isSize (h : IsSize size n factor) :
    parseSize size = some (if 2 ^ 64 ≤ n then .error (.outOfRange "stoull")
      else .ok (BitVec.ofNat 64 (n * factor))) := by
  obtain ⟨ds, unit, hs, hne, hds, rfl, hunit⟩ := h
  obtain ⟨u, hu, hor⟩ := withoutB_append hds hunit
  have hns : ds ++ unit ≠ [] := by simp [hne]
  rw [parseSize]
  simp only [hs, if_neg hns, hu]
  rcases hor with ⟨rfl, rfl⟩ | hmem
  · have htake : ds.takeWhile isDigit = ds := List.takeWhile_eq_self_iff.mpr hds
    rw [List.append_nil, if_pos htake, stoull_digits hds hne, Nat.mul_one]
  · obtain ⟨hu0, hhead, -⟩ := letterUnits_plain hmem
    rw [takeWhile_digits hds hhead, if_neg (by simpa using hu0), List.drop_left,
      stoull_digits hds hne]
    by_cases hbig : 2 ^ 64 ≤ decimal ds
    · rw [if_pos hbig, if_pos hbig]
      rfl
    · rw [if_neg hbig, if_neg hbig, BitVec.ofNat_mul]
      exact congrArg some (multiplyUnit_of_mem hmem)

/-- A unit may have a `B` at its end. -/
theorem mem_sizeUnits {u b : Bytes} (hu : (u, factor) ∈ ([], 1) :: letterUnits)
    (hb : b = [] ∨ b = [letterB]) : (u ++ b, factor) ∈ sizeUnits := by
  refine List.mem_flatMap.mpr ⟨_, hu, ?_⟩
  rcases hb with rfl | rfl <;> simp

/-- A string that is no size is rejected, if it has a character that is no blank. -/
theorem rejected_of_not_isSize (hne : withoutSpace size ≠ [])
    (h : ¬ ∃ n factor, IsSize size n factor) : Rejected size := by
  obtain ⟨b, hb, hs⟩ : ∃ b, (b = [] ∨ b = [letterB]) ∧
      withoutSpace size = withoutB (withoutSpace size) ++ b := by
    by_cases hB : (withoutSpace size).getLast? = some letterB
    · refine ⟨[letterB], .inr rfl, ?_⟩
      rw [withoutB, if_pos hB]
      exact (List.dropLast_append_getLast? _ hB).symm
    · exact ⟨[], .inl rfl, by rw [withoutB, if_neg hB, List.append_nil]⟩
  rw [Rejected, parseSize]
  simp only [if_neg hne]
  generalize withoutB (withoutSpace size) = s at hs ⊢
  have hds : ∀ c ∈ s.takeWhile isDigit, isDigit c = true := fun c hc => List.mem_takeWhile_imp hc
  have hsplit : s = s.takeWhile isDigit ++ s.drop (s.takeWhile isDigit).length :=
    (List.prefix_iff_eq_append.mp (List.takeWhile_prefix _)).symm
  generalize s.takeWhile isDigit = ds at hds hsplit ⊢
  generalize s.drop ds.length = unit at hsplit ⊢
  -- whatever the number is, the unit is none of those that are known
  have hunit : ds ≠ [] → ∀ factor, (unit, factor) ∉ ([], 1) :: letterUnits :=
    fun hds0 factor hmem => h ⟨_, factor, ds, unit ++ b, by rw [hs, hsplit, List.append_assoc],
      hds0, hds, rfl, mem_sizeUnits hmem hb⟩
  by_cases hds0 : ds = []
  · rw [hds0]
    split_ifs with he
    · exact ⟨_, by rw [← he]; rfl⟩
    · exact ⟨_, rfl⟩
  · have hu0 : unit ≠ [] := fun hu => hunit hds0 1 (by simp [hu])
    rw [if_neg fun he => hu0 (by simpa [← he] using hsplit), stoull_digits hds hds0]
    split_ifs with hbig
    · exact ⟨_, rfl⟩
    · obtain ⟨e, he⟩ := multiplyUnit_of_not_mem (BitVec.ofNat 64 (decimal ds))
        fun factor hmem => hunit hds0 factor (List.mem_cons_of_mem _ hmem)
      exact ⟨e, congrArg some he⟩

/-- **When a string is read exactly**, or rejected as it should be: unless it is empty or blank,
or a number that has 64 bits with a unit that makes it too large for them. -/
theorem parseSize_exact_iff (size : Bytes) :
    ReadExactly size ↔ withoutSpace size ≠ [] ∧
      ∀ n factor, IsSize size n factor → n < 2 ^ 64 → n * factor < 2 ^ 64 := by
  constructor
  · intro h
    have hne : withoutSpace size ≠ [] := by
      intro hs
      have hnone : parseSize size = none := by simp [parseSize, hs]
      rcases h.exact with ⟨e, he⟩ | ⟨n, factor, v, -, hv, -⟩
      · rw [hnone] at he
        cases he
      · rw [hnone] at hv
        cases hv
    refine ⟨hne, fun n factor hsize hn => ?_⟩
    by_contra hlarge
    obtain ⟨e, he⟩ := h.large n factor hsize (not_lt.mp hlarge)
    rw [parseSize_of_isSize hsize, if_neg (not_le.mpr hn)] at he
    cases he
  · rintro ⟨hne, hfits⟩
    have hread : ∀ n factor, IsSize size n factor → 2 ^ 64 ≤ n * factor → Rejected size := by
      intro n factor hsize hlarge
      have hn : 2 ^ 64 ≤ n := not_lt.mp fun hn =>
        absurd (hfits n factor hsize hn) (not_lt.mpr hlarge)
      exact ⟨_, by rw [parseSize_of_isSize hsize, if_pos hn]⟩
    refine ⟨?_, rejected_of_not_isSize hne, hread⟩
    by_cases hsize : ∃ n factor, IsSize size n factor
    · obtain ⟨n, factor, hsize⟩ := hsize
      by_cases hlarge : 2 ^ 64 ≤ n * factor
      · exact .inl (hread n factor hsize hlarge)
      · have hn : ¬ 2 ^ 64 ≤ n := fun hn => hlarge (hn.trans (Nat.le_mul_of_pos_right _ ?_))
        · refine .inr ⟨n, factor, _, hsize, by rw [parseSize_of_isSize hsize, if_neg hn], ?_⟩
          rw [BitVec.toNat_ofNat, Nat.mod_eq_of_lt (not_le.mp hlarge)]
        · exact hsize.factor_pos
    · exact .inl (rejected_of_not_isSize hne hsize)

end Read

namespace Sample

theorem isSize_large : IsSize (ascii "16777216 TiB".toList) 16777216 (1024 ^ 4) :=
  ⟨ascii "16777216".toList, ascii "TiB".toList, by decide +kernel, by decide +kernel,
    by decide +kernel, by decide +kernel, by decide +kernel⟩

/-- Nothing is left of it. -/
example : parseSize (ascii "16777216 TiB".toList) = some (.ok 0) := by
  rw [parseSize_of_isSize isSize_large]
  rfl

end Sample

/-- A size of `2 ^ 64` bytes is not rejected. -/
theorem parseSize_not_exact : ¬ ∀ size, ReadExactly size := by
  intro h
  obtain ⟨e, he⟩ := (h _).large _ _ Sample.isSize_large (by decide)
  rw [parseSize_of_isSize Sample.isSize_large, if_neg (by decide)] at he
  cases he

end Fstree
