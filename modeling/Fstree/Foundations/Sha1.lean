import Mathlib.Data.Nat.Find
import Mathlib.Data.Nat.Notation
import Mathlib.Tactic.Ring

/-!
# The SHA-1 standard

SHA-1 takes a string of bits (`Sha1.sum`). The bits are padded to a multiple of 512, with their
number at the end (`Sha1.pad`), and cut into blocks of sixteen words. Each block changes the hash
value in eighty rounds (`Sha1.compress`).

The definitions follow the text of the standard: the padding is the least that does it, the message
schedule is a recurrence, and bits and words are in the order of the standard, the most significant
bit first.
-/

namespace Sha1

/-- A word. -/
abbrev Word := BitVec 32

/-! ### Numbers as strings of bits -/

/-- The `w` low bits of a number, the most significant one first. -/
def binary : ℕ → ℕ → List Bool
  | 0, _ => []
  | w + 1, n => binary w (n / 2) ++ [decide (n % 2 = 1)]

/-- The number that a string of bits stands for. -/
def value (l : List Bool) : ℕ := l.foldl (fun n b => 2 * n + b.toNat) 0

@[simp] theorem length_binary (w n : ℕ) : (binary w n).length = w := by
  induction w generalizing n with
  | zero => rfl
  | succ w ih => simp [binary, ih]

/-- The high bits come first. -/
theorem binary_add (v w n : ℕ) : binary (v + w) n = binary v (n / 2 ^ w) ++ binary w n := by
  induction w generalizing n with
  | zero => simp [binary]
  | succ w ih =>
    have hdiv : n / 2 / 2 ^ w = n / 2 ^ (w + 1) := by
      rw [Nat.div_div_eq_div_mul, Nat.pow_succ, Nat.mul_comm]
    rw [← Nat.add_assoc, binary, ih, hdiv, binary, List.append_assoc]

/-- Only the low bits count. -/
theorem binary_mod (w n : ℕ) : binary w (n % 2 ^ w) = binary w n := by
  induction w generalizing n with
  | zero => rfl
  | succ w ih =>
    have hdiv : n % 2 ^ (w + 1) / 2 = n / 2 % 2 ^ w := by
      rw [Nat.pow_succ, Nat.mul_comm, Nat.mod_mul_right_div_self]
    have hmod : n % 2 ^ (w + 1) % 2 = n % 2 :=
      Nat.mod_mod_of_dvd n (Dvd.intro_left (2 ^ w) rfl)
    rw [binary, hdiv, hmod, ih, binary]

/-- Zero is written with zeros. -/
theorem binary_zero (w : ℕ) : binary w 0 = List.replicate w false := by
  induction w with
  | zero => rfl
  | succ w ih =>
    rw [binary, Nat.zero_div, ih, List.replicate_succ']
    rfl

theorem value_append (l l' : List Bool) :
    value (l ++ l') = value l * 2 ^ l'.length + value l' := by
  -- the induction is on what is read first
  suffices hs : ∀ (l : List Bool) (n : ℕ), l.foldl (fun n b => 2 * n + b.toNat) n =
      n * 2 ^ l.length + value l by
    rw [value, List.foldl_append, hs l']
    rfl
  intro l
  induction l with
  | nil => simp [value]
  | cons b l ih =>
    intro n
    have hvalue : value (b :: l) = b.toNat * 2 ^ l.length + value l := by
      rw [value, List.foldl_cons, ih, Nat.mul_zero, Nat.zero_add]
    rw [List.foldl_cons, ih, hvalue, List.length_cons, Nat.pow_succ]
    ring

theorem value_binary (w n : ℕ) : value (binary w n) = n % 2 ^ w := by
  induction w generalizing n with
  | zero => rw [Nat.pow_zero, Nat.mod_one]; rfl
  | succ w ih =>
    have hbit : value [decide (n % 2 = 1)] = n % 2 := by
      rcases Nat.mod_two_eq_zero_or_one n with h | h <;> simp [value, h]
    have hmod : n % 2 ^ (w + 1) = n % 2 + 2 * (n / 2 % 2 ^ w) := by
      rw [Nat.pow_succ, Nat.mul_comm, Nat.mod_mul]
    rw [binary, value_append, ih, hbit, hmod, List.length_singleton]
    omega

/-! ### Padding -/

theorem exists_zeros (n : ℕ) : ∃ k, (n + 1 + k) % 512 = 448 :=
  ⟨(959 - n % 512) % 512, by omega⟩

/-- **How many zeros are appended**: the least number that leaves room for the length. -/
def zeros (n : ℕ) : ℕ := Nat.find (exists_zeros n)

/-- **The padded message**: a one, zeros, and the length in 64 bits. -/
def pad (m : List Bool) : List Bool :=
  m ++ [true] ++ List.replicate (zeros m.length) false ++ binary 64 m.length

theorem zeros_eq {n k : ℕ} (hk : k < 512) (h : (n + 1 + k) % 512 = 448) : zeros n = k := by
  refine (Nat.find_eq_iff _).mpr ⟨h, fun j hj hcon => ?_⟩
  omega

/-! ### Rounds -/

/-- `f`, for the round `t`: Ch, Parity, Maj and Parity again. -/
def f (t : ℕ) (x y z : Word) : Word :=
  if t ≤ 19 then (x &&& y) ^^^ (~~~x &&& z)
  else if t ≤ 39 then x ^^^ y ^^^ z
  else if t ≤ 59 then (x &&& y) ^^^ (x &&& z) ^^^ (y &&& z)
  else x ^^^ y ^^^ z

/-- `K`, for the round `t`. -/
def K (t : ℕ) : Word :=
  if t ≤ 19 then 0x5a827999
  else if t ≤ 39 then 0x6ed9eba1
  else if t ≤ 59 then 0x8f1bbcdc
  else 0xca62c1d6

/-- **The message schedule**: `W`, for the words `M` of a block. -/
def W (M : ℕ → Word) (t : ℕ) : Word :=
  if t < 16 then M t
  else (W M (t - 3) ^^^ W M (t - 8) ^^^ W M (t - 14) ^^^ W M (t - 16)).rotateLeft 1
termination_by t

/-- Five words: the working variables, or a hash value. -/
structure State where
  a : Word
  b : Word
  c : Word
  d : Word
  e : Word
deriving DecidableEq

/-- The initial hash value. -/
def init : State := ⟨0x67452301, 0xefcdab89, 0x98badcfe, 0x10325476, 0xc3d2e1f0⟩

/-- **One round.** -/
def round (M : ℕ → Word) (s : State) (t : ℕ) : State where
  a := s.a.rotateLeft 5 + f t s.b s.c s.d + s.e + K t + W M t
  b := s.a
  c := s.b.rotateLeft 30
  d := s.c
  e := s.d

/-- The word `t` of the block `i`. -/
def word (l : List Bool) (i t : ℕ) : Word :=
  BitVec.ofNat 32 (value ((l.drop (512 * i + 32 * t)).take 32))

/-- **A block is processed**: eighty rounds, whose result is added to the hash value. -/
def compress (M : ℕ → Word) (h : State) : State :=
  let s := (List.range 80).foldl (round M) h
  ⟨s.a + h.a, s.b + h.b, s.c + h.c, s.d + h.d, s.e + h.e⟩

/-- The hash value after the first blocks. -/
def hashValue (l : List Bool) : ℕ → State
  | 0 => init
  | i + 1 => compress (word l i) (hashValue l i)

/-- **The sum** of a message: the hash value after all blocks. -/
def sum (m : List Bool) : BitVec 160 :=
  let h := hashValue (pad m) ((pad m).length / 512)
  h.a ++ h.b ++ h.c ++ h.d ++ h.e

/-- The first words of the schedule are those of the block. -/
theorem W_of_lt {M : ℕ → Word} {t : ℕ} (h : t < 16) : W M t = M t := by
  rw [W, if_pos h]

/-- The others come from those before. -/
theorem W_of_le {M : ℕ → Word} {t : ℕ} (h : 16 ≤ t) : W M t =
    (W M (t - 3) ^^^ W M (t - 8) ^^^ W M (t - 14) ^^^ W M (t - 16)).rotateLeft 1 := by
  rw [W, if_neg (Nat.not_lt.mpr h)]

end Sha1
