import Fstree.Foundations.Codec

/-!
# Digests

A digest is an algorithm and a string of hexadecimal digits. It travels as text –
on the command line, in tree objects, in the saved index and to a remote – as
`sha1:` or `blake3:` followed by the digits (`Fstree.Digest.string`), and comes
back through `Fstree.Digest.parse`, which also takes the digits alone and tells
the algorithm by their number.

The hash function itself is a build option. `Fstree.HashFunction` is what the
rest of the program knows about it: the algorithm it is, the number of digits it
gives, and that every sum has that many, in lower case. That no two of the byte strings at hand have
one sum is never part of the structure; where it matters it is a hypothesis
about those byte strings.
-/

namespace Fstree

open Codec

/-- The text of a character list, one byte for a character. -/
def ascii (cs : List Char) : Bytes := cs.map fun c => Fin.ofNat 256 c.toNat

/-- A byte string as text, for error messages. -/
def text (bs : Bytes) : String := String.ofList (bs.map fun b => Char.ofNat b.val)

/-- `digest::algorithm`. -/
inductive Algorithm
  | none
  | sha1
  | blake3
deriving DecidableEq

/-- **A digest**: the algorithm, and its hexadecimal digits. -/
structure Digest where
  alg : Algorithm
  hexdigest : Bytes
deriving DecidableEq

namespace Digest

/-- The digest a default-constructed inode has: no algorithm and no digits. -/
def none : Digest := ⟨.none, []⟩

/-- `digest::empty`. -/
def empty (d : Digest) : Bool := d.hexdigest.isEmpty

/-- The byte `:`. -/
def colon : Byte := 58

/-- The prefix that names SHA-1. -/
def sha1Name : Bytes := ascii ['s', 'h', 'a', '1']

/-- The prefix that names BLAKE3. -/
def blake3Name : Bytes := ascii ['b', 'l', 'a', 'k', 'e', '3']

/-- `digest::string`. -/
def string (d : Digest) : Bytes :=
  match d.alg with
  | .none => []
  | .sha1 => sha1Name ++ colon :: d.hexdigest
  | .blake3 => blake3Name ++ colon :: d.hexdigest

/-- What stands before the first colon of a text. -/
def algName (str : Bytes) : Bytes := str.takeWhile (· ≠ colon)

/-- What follows the first colon of a text. -/
def digits (str : Bytes) : Bytes := str.drop ((algName str).length + 1)

/-- `digest::parse`: the empty string is no digest, digits alone tell the
algorithm by their number, and a named algorithm must have its number. -/
def parse (str : Bytes) : Except String Digest :=
  if str = [] then .ok none
  else if colon ∉ str then
    if str.length = 40 then .ok ⟨.sha1, str⟩
    else if str.length = 64 then .ok ⟨.blake3, str⟩
    else .error ("cannot determine algorithm for digest: " ++ text str)
  else
    if algName str = sha1Name then
      if (digits str).length ≠ 40 then
        .error ("invalid sha1 digest length: " ++ text (digits str))
      else .ok ⟨.sha1, digits str⟩
    else if algName str = blake3Name then
      if (digits str).length ≠ 64 then
        .error ("invalid blake3 digest length: " ++ text (digits str))
      else .ok ⟨.blake3, digits str⟩
    else .error ("unknown algorithm: " ++ text (algName str))

/-- **A well-formed digest**: none, or an algorithm with its number of digits. -/
def WellFormed (d : Digest) : Prop :=
  d = none ∨ (d.alg = .sha1 ∧ d.hexdigest.length = 40) ∨
    (d.alg = .blake3 ∧ d.hexdigest.length = 64)

instance (d : Digest) : Decidable d.WellFormed := inferInstanceAs (Decidable (_ ∨ _ ∨ _))

@[simp] theorem empty_none : none.empty = true := rfl

theorem empty_eq_true_iff {d : Digest} : d.empty = true ↔ d.hexdigest = [] := by
  simp [empty]

theorem algName_append {w : Bytes} (h : colon ∉ w) (hex : Bytes) :
    algName (w ++ colon :: hex) = w := by
  have hall : ∀ b ∈ w, (decide (b ≠ colon)) = true := fun b hb =>
    decide_eq_true fun he => h (he ▸ hb)
  rw [algName, List.takeWhile_append_of_pos hall]
  simp

theorem digits_append {w : Bytes} (h : colon ∉ w) (hex : Bytes) :
    digits (w ++ colon :: hex) = hex := by
  rw [digits, algName_append h, List.drop_append]
  simp

/-- **A well-formed digest survives its text.** -/
theorem parse_string {d : Digest} (h : d.WellFormed) : parse d.string = .ok d := by
  obtain ⟨alg, hex⟩ := d
  have h1 : colon ∉ sha1Name := by decide
  have h2 : colon ∉ blake3Name := by decide
  have hne : blake3Name ≠ sha1Name := by decide
  rcases h with h | ⟨rfl, hlen⟩ | ⟨rfl, hlen⟩
  · rw [h]
    rfl
  · simp only at hlen
    simp [parse, string, algName_append h1, digits_append h1, hlen]
  · simp only at hlen
    simp [parse, string, algName_append h2, digits_append h2, hlen, hne]

/-- The text of a well-formed digest is short. -/
theorem length_string_le {d : Digest} (h : d.WellFormed) : d.string.length ≤ 71 := by
  obtain ⟨alg, hex⟩ := d
  have h1 : sha1Name.length = 4 := rfl
  have h2 : blake3Name.length = 6 := rfl
  rcases h with h | ⟨rfl, hlen⟩ | ⟨rfl, hlen⟩
  · rw [h]
    exact Nat.zero_le _
  · simp only at hlen
    simp only [string, List.length_append, List.length_cons, h1]
    omega
  · simp only at hlen
    simp only [string, List.length_append, List.length_cons, h2]
    omega

end Digest

/-- The digits `std::hex` writes. -/
def hexDigits : Bytes :=
  ascii ['0', '1', '2', '3', '4', '5', '6', '7', '8', '9', 'a', 'b', 'c', 'd', 'e', 'f']

/-- A number in hexadecimal, with `std::setfill('0')` and `std::setw(w)`. -/
def hexString : ℕ → ℕ → Bytes
  | 0, _ => []
  | w + 1, n => hexString w (n / 16) ++ [hexDigits.getD (n % 16) 48]

@[simp] theorem length_hexString (w n : ℕ) : (hexString w n).length = w := by
  induction w generalizing n with
  | zero => rfl
  | succ w ih => simp [hexString, ih]

theorem mem_hexDigits_of_mem_hexString {w n : ℕ} {c : Byte} (h : c ∈ hexString w n) :
    c ∈ hexDigits := by
  induction w generalizing n with
  | zero => cases h
  | succ w ih =>
    rcases List.mem_append.mp h with h | h
    · exact ih h
    · have hlt : n % 16 < hexDigits.length := Nat.mod_lt _ (by decide)
      rw [List.mem_singleton.mp h, List.getD_eq_getElem?_getD, List.getElem?_eq_getElem hlt]
      exact List.getElem_mem hlt

/-- **The hash function of a build**: `hash_function`, `hash_digest_length` and
`hashsum_hex`, with what every build guarantees about them. -/
structure HashFunction where
  /-- `hash_function`: the algorithm. -/
  alg : Algorithm
  /-- `hash_digest_length`: its number of digits. -/
  digestLength : ℕ
  /-- `hashsum_hex`: the sum of a byte string. -/
  sum : Bytes → Digest
  /-- One of the two builds. -/
  build : (alg = .sha1 ∧ digestLength = 40) ∨ (alg = .blake3 ∧ digestLength = 64)
  sum_alg : ∀ b, (sum b).alg = alg
  sum_length : ∀ b, (sum b).hexdigest.length = digestLength
  sum_digits : ∀ b, ∀ c ∈ (sum b).hexdigest, c ∈ hexDigits

namespace HashFunction

variable (H : HashFunction)

theorem sum_wellFormed (b : Bytes) : (H.sum b).WellFormed := by
  rcases H.build with ⟨ha, hl⟩ | ⟨ha, hl⟩
  · exact Or.inr (Or.inl ⟨(H.sum_alg b).trans ha, (H.sum_length b).trans hl⟩)
  · exact Or.inr (Or.inr ⟨(H.sum_alg b).trans ha, (H.sum_length b).trans hl⟩)

theorem digestLength_pos : 2 < H.digestLength := by
  rcases H.build with ⟨-, hl⟩ | ⟨-, hl⟩ <;> omega

@[simp] theorem empty_sum (b : Bytes) : (H.sum b).empty = false := by
  have hlen := H.sum_length b
  have hpos := H.digestLength_pos
  cases he : (H.sum b).empty with
  | false => rfl
  | true =>
    rw [Digest.empty_eq_true_iff.mp he] at hlen
    simp only [List.length_nil] at hlen
    omega

/-- **No collisions** among a set of byte strings. -/
def CollisionFree (S : Set Bytes) : Prop := Set.InjOn H.sum S

theorem collisionFree_list {H : HashFunction} {l : List Bytes}
    (h : ∀ b ∈ l, ∀ b' ∈ l, H.sum b = H.sum b' → b = b') : H.CollisionFree {b | b ∈ l} :=
  fun b hb b' hb' => h b hb b' hb'

/-- A SHA-1 build whose sums are written down for finitely many byte strings; every
other one is given the sum `0`. -/
def ofTable (table : List (Bytes × ℕ)) : HashFunction where
  alg := .sha1
  digestLength := 40
  sum b := ⟨.sha1, hexString 40 (((table.find? fun e => e.1 = b).map Prod.snd).getD 0)⟩
  build := Or.inl ⟨rfl, rfl⟩
  sum_alg _ := rfl
  sum_length _ := length_hexString _ _
  sum_digits _ _ h := mem_hexDigits_of_mem_hexString h

end HashFunction

end Fstree
