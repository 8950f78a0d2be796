import Fstree.Foundations.Sha1
import Fstree.Model.Digest

/-!
# The built-in SHA-1

A build without BLAKE3 has its own SHA-1. `hashsum_hex` reads the stream into a buffer, pads it in
place, and goes through it in steps of 64 bytes. Each step fills a table of eighty words, runs the
rounds, and adds what they give to `h0` to `h4`, which are written in hexadecimal at the end.

The padded buffer holds the padded message of the standard (`Fstree.bits_padded`), the table is its
message schedule (`Fstree.Filled.schedule`), and so the digits are those of the SHA-1 sum
(`Fstree.hashsumHex_eq`).
-/

namespace Fstree

open Codec

/-! ### The code of `hash_sha1.cpp` -/

/-- The loop that appends zeros. The size in bits is a `size_t`. -/
def appendZeros (buffer : Bytes) : Bytes :=
  if buffer.length * 8 % 2 ^ 64 % 512 ≠ 448 then appendZeros (buffer ++ [0]) else buffer
termination_by (120 - buffer.length % 64) % 64
decreasing_by
  rw [List.length_append, List.length_singleton]
  omega

/-- `totalBits`. -/
def totalBits (buffer : Bytes) : BitVec 64 := BitVec.ofNat 64 buffer.length * 8

/-- The byte `i` of the length. -/
def lengthByte (totalBits : BitVec 64) (i : ℕ) : Byte :=
  Fin.ofNat 256 ((totalBits >>> (56 - i * 8)) &&& 0xFF).toNat

/-- **The padded buffer.** -/
def padded (stream : Bytes) : Bytes :=
  let buffer := appendZeros (stream ++ [0x80])
  let buffer := buffer ++ List.replicate 8 0
  (List.range 8).foldl (fun buffer i =>
    buffer.set (buffer.length - 8 + i) (lengthByte (totalBits stream) i)) buffer

/-- A byte as an `int`. -/
def promoted (buffer : Bytes) (i : ℕ) : BitVec 32 := BitVec.ofNat 32 (buffer.getD i 0).val

/-- Four bytes as a word. -/
def loadWord (buffer : Bytes) (i : ℕ) : BitVec 32 :=
  promoted buffer i <<< 24 ||| promoted buffer (i + 1) <<< 16 ||| promoted buffer (i + 2) <<< 8 |||
    promoted buffer (i + 3)

/-- The two loops that fill `words`, for the block at `i`. -/
def fillWords (buffer : Bytes) (i : ℕ) : List (BitVec 32) :=
  let words := (List.range 16).foldl (fun words j => words.set j (loadWord buffer (i + j * 4)))
    (List.replicate 80 0)
  (List.range' 16 64).foldl (fun words j =>
    let words := words.set j (words.getD (j - 3) 0 ^^^ words.getD (j - 8) 0 ^^^
      words.getD (j - 14) 0 ^^^ words.getD (j - 16) 0)
    words.set j (words.getD j 0 <<< 1 ||| words.getD j 0 >>> 31)) words

/-- One pass of the loop of the rounds. -/
def roundStep (words : List (BitVec 32)) (s : Sha1.State) (j : ℕ) : Sha1.State :=
  let (f, k) : BitVec 32 × BitVec 32 :=
    if j < 20 then ((s.b &&& s.c) ||| (~~~s.b &&& s.d), 0x5A827999)
    else if j < 40 then (s.b ^^^ s.c ^^^ s.d, 0x6ED9EBA1)
    else if j < 60 then ((s.b &&& s.c) ||| (s.b &&& s.d) ||| (s.c &&& s.d), 0x8F1BBCDC)
    else (s.b ^^^ s.c ^^^ s.d, 0xCA62C1D6)
  let temp := (s.a <<< 5 ||| s.a >>> 27) + f + s.e + k + words.getD j 0
  ⟨temp, s.a, s.b <<< 30 ||| s.b >>> 2, s.c, s.d⟩

/-- The block at `i` is processed. `h0` to `h4` are kept as the variables of the rounds are. -/
def processBlock (buffer : Bytes) (h : Sha1.State) (i : ℕ) : Sha1.State :=
  let words := fillWords buffer i
  let s := (List.range 80).foldl (roundStep words) h
  ⟨h.a + s.a, h.b + s.b, h.c + s.c, h.d + s.d, h.e + s.e⟩

/-- **`hashsum_hex`.** -/
def hashsumHex (stream : Bytes) : Digest :=
  let buffer := padded stream
  let h := (List.range' 0 ((buffer.length + 63) / 64) 64).foldl (processBlock buffer)
    ⟨0x67452301, 0xEFCDAB89, 0x98BADCFE, 0x10325476, 0xC3D2E1F0⟩
  ⟨.sha1, hexString 8 h.a.toNat ++ hexString 8 h.b.toNat ++ hexString 8 h.c.toNat ++
    hexString 8 h.d.toNat ++ hexString 8 h.e.toNat⟩

/-! ### Bits of byte strings -/

/-- **A byte string as a string of bits.** -/
def bits (bs : Bytes) : List Bool := bs.flatMap fun b => Sha1.binary 8 b.val

section Bits

variable {b : Byte} {bs bs' : Bytes} {n : ℕ}

theorem bits_cons : bits (b :: bs) = Sha1.binary 8 b.val ++ bits bs := List.flatMap_cons ..

theorem bits_append : bits (bs ++ bs') = bits bs ++ bits bs' := List.flatMap_append ..

@[simp] theorem length_bits : (bits bs).length = 8 * bs.length := by
  induction bs with
  | nil => rfl
  | cons b bs ih =>
    rw [bits_cons, List.length_append, Sha1.length_binary, ih, List.length_cons]
    omega

theorem drop_bits : (bits bs).drop (8 * n) = bits (bs.drop n) := by
  induction n generalizing bs with
  | zero => rfl
  | succ n ih =>
    cases bs with
    | nil => simp [bits]
    | cons b bs =>
      have hlen : (Sha1.binary 8 b.val).length = 8 := Sha1.length_binary ..
      rw [bits_cons, Nat.mul_succ, Nat.add_comm, ← List.drop_drop, List.drop_left' hlen, ih,
        List.drop_succ_cons]

theorem take_bits : (bits bs).take (8 * n) = bits (bs.take n) := by
  induction n generalizing bs with
  | zero => rfl
  | succ n ih =>
    cases bs with
    | nil => simp [bits]
    | cons b bs =>
      have hlen : (Sha1.binary 8 b.val).length = 8 := Sha1.length_binary ..
      rw [bits_cons, Nat.mul_succ, Nat.add_comm, List.take_append, hlen, Nat.add_sub_cancel_left,
        List.take_of_length_le (by omega), ih, List.take_succ_cons, bits_cons]

/-- Zero bytes are zero bits. -/
theorem bits_replicate (n : ℕ) : bits (List.replicate n 0) = List.replicate (8 * n) false := by
  induction n with
  | zero => rfl
  | succ n ih =>
    have hzero : Sha1.binary 8 (0 : Byte).val = List.replicate 8 false := Sha1.binary_zero 8
    rw [List.replicate_succ, bits_cons, ih, hzero, List.replicate_append_replicate,
      Nat.mul_succ, Nat.add_comm]

/-- A number in bytes, the most significant one first, is the number in bits. -/
theorem bits_reverse_le (w n : ℕ) : bits (le w n).reverse = Sha1.binary (8 * w) n := by
  induction w generalizing n with
  | zero => rfl
  | succ w ih =>
    have hbyte : bits [Fin.ofNat 256 n] = Sha1.binary 8 n := by
      rw [bits_cons, bits, List.flatMap_nil, List.append_nil]
      exact Sha1.binary_mod 8 n
    rw [le, List.reverse_cons, bits_append, ih, hbyte, Nat.mul_succ, Sha1.binary_add]
    rfl

theorem value_bits_cons :
    Sha1.value (bits (b :: bs)) = b.val * 256 ^ bs.length + Sha1.value (bits bs) := by
  have hmod : b.val % 2 ^ 8 = b.val := Nat.mod_eq_of_lt b.isLt
  rw [bits_cons, Sha1.value_append, Sha1.value_binary, hmod, length_bits, Nat.pow_mul]

end Bits

/-! ### Padding -/

section Padding

variable {stream : Bytes}

/-- **The loop ends** when six bytes of a block are filled but for the length. -/
theorem appendZeros_eq (buffer : Bytes) : appendZeros buffer =
    buffer ++ List.replicate ((120 - buffer.length % 64) % 64) 0 := by
  fun_induction appendZeros buffer with
  | case1 buffer h ih =>
    have hlen : (buffer ++ [(0 : Byte)]).length = buffer.length + 1 := List.length_append
    have hcount : (120 - buffer.length % 64) % 64 =
        (120 - (buffer.length + 1) % 64) % 64 + 1 := by omega
    rw [ih, hlen, hcount, List.replicate_succ, List.append_assoc, List.singleton_append]
  | case2 buffer h =>
    have hcount : (120 - buffer.length % 64) % 64 = 0 := by omega
    rw [hcount, List.replicate_zero, List.append_nil]

/-- Places that are written one after the other. -/
theorem foldl_set_range {α : Type*} (f : ℕ → α) (l m : List α) (n : ℕ) (h : m.length = n) :
    (List.range n).foldl (fun buffer i => buffer.set (buffer.length - n + i) (f i)) (l ++ m) =
      l ++ (List.range n).map f := by
  -- the last places are as they were, until their turn comes
  suffices hs : ∀ k ≤ n, (List.range k).foldl
      (fun buffer i => buffer.set (buffer.length - n + i) (f i)) (l ++ m) =
        l ++ (List.range k).map f ++ m.drop k by
    rw [hs n (Nat.le_refl n), ← h, List.drop_length, List.append_nil]
  intro k hk
  induction k with
  | zero => simp
  | succ k ih =>
    have hfirst : (l ++ (List.range k).map f).length = l.length + k := by simp
    have hlt : k < m.length := by omega
    have hdrop : m.drop k = m[k] :: m.drop (k + 1) := List.drop_eq_getElem_cons hlt
    have hplace : (l ++ (List.range k).map f ++ m.drop k).length - n + k = l.length + k := by
      rw [List.length_append, hfirst, List.length_drop]
      omega
    rw [List.range_succ, List.foldl_append, ih (by omega), List.foldl_cons, List.foldl_nil, hplace,
      List.set_append_right _ _ (by omega), hfirst, Nat.sub_self, hdrop, List.set_cons_zero]
    simp

theorem lengthByte_eq {t : BitVec 64} {i : ℕ} (hi : i < 8) :
    lengthByte t i = Fin.ofNat 256 (t.toNat / 256 ^ (7 - i)) := by
  have hexp : 56 - i * 8 = 8 * (7 - i) := by omega
  have hand : ∀ n : ℕ, n &&& 0xFF = n % 256 := fun n => Nat.and_two_pow_sub_one_eq_mod n 8
  refine Fin.ext ?_
  change (t >>> (56 - i * 8) &&& 0xFF).toNat % 256 = t.toNat / 256 ^ (7 - i) % 256
  rw [BitVec.toNat_and, BitVec.toNat_ushiftRight, Nat.shiftRight_eq_div_pow, hexp, Nat.pow_mul]
  exact (congrArg (· % 256) (hand _)).trans (Nat.mod_mod ..)

/-- A number in bytes is its quotients. -/
theorem reverse_le (w n : ℕ) :
    (le w n).reverse = (List.range w).map fun i => Fin.ofNat 256 (n / 256 ^ (w - 1 - i)) := by
  induction w generalizing n with
  | zero => rfl
  | succ w ih =>
    rw [le, List.reverse_cons, ih, List.range_succ, List.map_append]
    refine congrArg₂ _ (List.map_congr_left fun i hi => ?_) ?_
    · have hi := List.mem_range.mp hi
      have hexp : w + 1 - 1 - i = w - 1 - i + 1 := by omega
      rw [hexp, Nat.pow_succ, Nat.mul_comm, Nat.div_div_eq_div_mul]
    · simp

/-- **The bytes of the length.** -/
theorem map_lengthByte (h : stream.length < 2 ^ 61) :
    (List.range 8).map (lengthByte (totalBits stream)) = (le 8 (8 * stream.length)).reverse := by
  have htotal : (totalBits stream).toNat = 8 * stream.length := by
    rw [totalBits, BitVec.toNat_mul, BitVec.toNat_ofNat]
    change stream.length % 2 ^ 64 * 8 % 2 ^ 64 = _
    omega
  rw [reverse_le]
  refine List.map_congr_left fun i hi => ?_
  rw [lengthByte_eq (List.mem_range.mp hi), htotal]

/-- How many zeros are appended to the stream and its `0x80`. -/
def zeroBytes (stream : Bytes) : ℕ := (120 - (stream.length + 1) % 64) % 64

/-- **The padded buffer**: the stream, `0x80`, zeros, and the length. -/
theorem padded_eq (h : stream.length < 2 ^ 61) : padded stream =
    stream ++ [0x80] ++ List.replicate (zeroBytes stream) 0 ++
      (le 8 (8 * stream.length)).reverse := by
  have hlen : (stream ++ [(0x80 : Byte)]).length = stream.length + 1 := List.length_append
  have hset := foldl_set_range (lengthByte (totalBits stream)) (appendZeros (stream ++ [0x80]))
    (List.replicate 8 0) 8 List.length_replicate
  rw [map_lengthByte h, appendZeros_eq, hlen] at hset
  rw [padded, appendZeros_eq, hlen]
  exact hset

theorem length_padded (h : stream.length < 2 ^ 61) :
    (padded stream).length = stream.length + 1 + zeroBytes stream + 8 := by
  rw [padded_eq h]
  simp only [List.length_append, List.length_singleton, List.length_replicate, List.length_reverse,
    length_le]

/-- The buffer is cut into blocks. -/
theorem length_padded_mod (h : stream.length < 2 ^ 61) : (padded stream).length % 64 = 0 := by
  rw [length_padded h, zeroBytes]
  omega

/-- **The padded buffer holds the padded message.** -/
theorem bits_padded (h : stream.length < 2 ^ 61) :
    bits (padded stream) = Sha1.pad (bits stream) := by
  have hone : bits [(0x80 : Byte)] = true :: List.replicate 7 false := by decide
  have hzeros : Sha1.zeros (8 * stream.length) = 7 + 8 * zeroBytes stream := by
    refine Sha1.zeros_eq ?_ ?_ <;> rw [zeroBytes] <;> omega
  rw [padded_eq h, bits_append, bits_append, bits_append, hone, bits_replicate, bits_reverse_le,
    Sha1.pad, length_bits, hzeros, ← List.replicate_append_replicate]
  simp only [List.append_assoc, List.cons_append, List.nil_append]

end Padding

/-! ### Words -/

section Words

variable {buffer : Bytes} {words : List (BitVec 32)} {M : ℕ → Sha1.Word} {i j n : ℕ}

/-- **The shifts put four bytes beside each other.** -/
theorem toNat_loadWord : (loadWord buffer i).toNat =
    (((buffer.getD i 0).val * 256 + (buffer.getD (i + 1) 0).val) * 256 +
      (buffer.getD (i + 2) 0).val) * 256 + (buffer.getD (i + 3) 0).val := by
  have hpromoted : ∀ j, (promoted buffer j).toNat = (buffer.getD j 0).val := fun j => by
    rw [promoted, BitVec.toNat_ofNat]
    exact Nat.mod_eq_of_lt ((buffer.getD j 0).isLt.trans (by decide))
  rw [loadWord]
  simp only [BitVec.toNat_or, BitVec.toNat_shiftLeft, hpromoted, Nat.shiftLeft_eq]
  generalize buffer.getD i 0 = a
  generalize buffer.getD (i + 1) 0 = b
  generalize buffer.getD (i + 2) 0 = c
  generalize buffer.getD (i + 3) 0 = d
  have ha := a.isLt
  have hb := b.isLt
  have hc := c.isLt
  have hd := d.isLt
  have hor : ∀ m k v : ℕ, v < 2 ^ k → m * 2 ^ k ||| v = m * 2 ^ k + v := fun m k v hv => by
    rw [← Nat.shiftLeft_eq]
    exact (Nat.shiftLeft_add_eq_or_of_lt hv m).symm
  have hab : a.val * 2 ^ 24 ||| b.val * 2 ^ 16 = (a.val * 256 + b.val) * 2 ^ 16 := by
    rw [hor _ 24 _ (by omega)]
    omega
  have habc : (a.val * 256 + b.val) * 2 ^ 16 ||| c.val * 2 ^ 8 =
      ((a.val * 256 + b.val) * 256 + c.val) * 2 ^ 8 := by
    rw [hor _ 16 _ (by omega)]
    omega
  have hmod : ∀ m k : ℕ, m < 256 → k ≤ 24 → m * 2 ^ k % 2 ^ 32 = m * 2 ^ k := fun m k hm hk => by
    have hpow : 2 ^ k ≤ 2 ^ 24 := Nat.pow_le_pow_right (by decide) hk
    exact Nat.mod_eq_of_lt (lt_of_lt_of_le (Nat.mul_lt_mul_of_lt_of_le hm hpow (by decide))
      (by decide))
  rw [hmod _ 24 ha (by decide), hmod _ 16 hb (by decide), hmod _ 8 hc (by decide), hab, habc,
    hor _ 8 _ (by omega)]
  rfl

theorem drop_eq_getD_cons (h : n < buffer.length) :
    buffer.drop n = buffer.getD n 0 :: buffer.drop (n + 1) := by
  rw [List.getD_eq_getElem?_getD, List.getElem?_eq_getElem h]
  exact List.drop_eq_getElem_cons h

/-- **Four bytes are a word** of the message. -/
theorem loadWord_eq (h : 64 * i + 4 * j + 4 ≤ buffer.length) :
    loadWord buffer (64 * i + j * 4) = Sha1.word (bits buffer) i j := by
  have hplace : 512 * i + 32 * j = 8 * (64 * i + j * 4) := by omega
  have hlt : 64 * i + j * 4 + 4 ≤ buffer.length := by omega
  generalize 64 * i + j * 4 = m at hplace hlt
  have hbytes : (buffer.drop m).take 4 =
      [buffer.getD m 0, buffer.getD (m + 1) 0, buffer.getD (m + 2) 0, buffer.getD (m + 3) 0] := by
    rw [drop_eq_getD_cons (by omega), drop_eq_getD_cons (by omega), drop_eq_getD_cons (by omega),
      drop_eq_getD_cons (by omega)]
    rfl
  have hbits : ((bits buffer).drop (8 * m)).take 32 = bits ((buffer.drop m).take 4) := by
    have htake : ((bits buffer).drop (8 * m)).take (8 * 4) = bits ((buffer.drop m).take 4) := by
      rw [drop_bits, take_bits]
    exact htake
  have hvalue : ∀ a b c d : Byte, Sha1.value (bits [a, b, c, d]) =
      ((a.val * 256 + b.val) * 256 + c.val) * 256 + d.val := fun a b c d => by
    have hnil : Sha1.value (bits []) = 0 := rfl
    simp only [value_bits_cons, hnil, List.length_cons, List.length_nil]
    omega
  refine BitVec.eq_of_toNat_eq ?_
  rw [toNat_loadWord, Sha1.word, hplace, hbits, hbytes, BitVec.toNat_ofNat, hvalue]
  exact (Nat.mod_eq_of_lt (by omega)).symm

/-- **The table is filled** up to a place. -/
structure Filled (W : ℕ → Sha1.Word) (words : List (BitVec 32)) (n : ℕ) : Prop where
  length_eq : words.length = 80
  get_eq : ∀ t < n, words.getD t 0 = W t

/-- The next word is stored. -/
theorem Filled.set {W : ℕ → Sha1.Word} (h : Filled W words n) (hn : n < 80) :
    Filled W (words.set n (W n)) (n + 1) where
  length_eq := by rw [List.length_set, h.length_eq]
  get_eq t ht := by
    have hlen : n < words.length := by rw [h.length_eq]; exact hn
    rcases Nat.lt_succ_iff_lt_or_eq.mp ht with hlt | rfl
    · rw [List.getD_eq_getElem?_getD, List.getElem?_set_ne (Nat.ne_of_gt hlt),
        ← List.getD_eq_getElem?_getD]
      exact h.get_eq t hlt
    · rw [List.getD_eq_getElem?_getD, List.getElem?_set_self hlen]
      rfl

/-- A loop that counts keeps what each pass does. -/
theorem foldl_range' {β : Type*} {motive : ℕ → β → Prop} {f : β → ℕ → β} {b : β} {s n step : ℕ}
    (h0 : motive 0 b) (hstep : ∀ k x, k < n → motive k x → motive (k + 1) (f x (s + step * k))) :
    motive n ((List.range' s n step).foldl f b) := by
  suffices hs : ∀ k ≤ n, motive k ((List.range' s k step).foldl f b) from hs n (Nat.le_refl n)
  intro k hk
  induction k with
  | zero => exact h0
  | succ k ih =>
    rw [List.range'_concat, List.foldl_append]
    exact hstep k _ hk (ih (Nat.le_of_succ_le hk))

/-- **The table is the message schedule.** -/
theorem Filled.schedule (h : 64 * i + 64 ≤ buffer.length) :
    Filled (Sha1.W (Sha1.word (bits buffer) i)) (fillWords buffer (64 * i)) 80 := by
  have hfirst : Filled (Sha1.W (Sha1.word (bits buffer) i)) ((List.range 16).foldl
      (fun words j => words.set j (loadWord buffer (64 * i + j * 4)))
      (List.replicate 80 0)) 16 := by
    rw [List.range_eq_range']
    refine @foldl_range' _ (fun k words => Filled (Sha1.W (Sha1.word (bits buffer) i)) words k)
      _ _ _ _ _ ⟨List.length_replicate, nofun⟩ fun k words hk hwords => ?_
    have hword : loadWord buffer (64 * i + k * 4) = Sha1.W (Sha1.word (bits buffer) i) k := by
      rw [loadWord_eq (by omega), Sha1.W_of_lt hk]
    rw [Nat.zero_add, Nat.one_mul, hword]
    exact hwords.set (by omega)
  refine @foldl_range' _
    (fun k words => Filled (Sha1.W (Sha1.word (bits buffer) i)) words (16 + k))
    _ _ _ _ _ hfirst fun k words hk hwords => ?_
  rw [Nat.one_mul, ← Nat.add_assoc]
  generalize hn : 16 + k = n at hwords
  have hself : ∀ v, (words.set n v).getD n 0 = v := fun v => by
    have hlen : n < words.length := by rw [hwords.length_eq]; omega
    rw [List.getD_eq_getElem?_getD, List.getElem?_set_self hlen]
    rfl
  simp only [hself, List.set_set]
  rw [hwords.get_eq _ (by omega), hwords.get_eq _ (by omega), hwords.get_eq _ (by omega),
    hwords.get_eq _ (by omega)]
  have hnext := hwords.set (n := n) (by omega)
  rw [Sha1.W_of_le (by omega), BitVec.rotateLeft_def] at hnext
  exact hnext

end Words

/-! ### Rounds -/

section Rounds

variable {buffer : Bytes} {words : List (BitVec 32)} {M : ℕ → Sha1.Word} {s h : Sha1.State}
  {i j : ℕ}

/-- The choice is written with `|`. -/
theorem ch_eq (x y z : BitVec 32) : (x &&& y) ||| (~~~x &&& z) = (x &&& y) ^^^ (~~~x &&& z) := by
  ext i hi
  simp only [BitVec.getElem_or, BitVec.getElem_and, BitVec.getElem_not, BitVec.getElem_xor]
  cases x[i] <;> simp

/-- So is the majority. -/
theorem maj_eq (x y z : BitVec 32) :
    (x &&& y) ||| (x &&& z) ||| (y &&& z) = (x &&& y) ^^^ (x &&& z) ^^^ (y &&& z) := by
  ext i hi
  simp only [BitVec.getElem_or, BitVec.getElem_and, BitVec.getElem_xor]
  cases x[i] <;> cases y[i] <;> cases z[i] <;> rfl

/-- **One pass is one round.** -/
theorem roundStep_eq (hj : j < 80) (hwords : Filled (Sha1.W M) words 80) :
    roundStep words s j = Sha1.round M s j := by
  have h20 : j < 20 ↔ j ≤ 19 := Nat.lt_succ_iff
  have h40 : j < 40 ↔ j ≤ 39 := Nat.lt_succ_iff
  have h60 : j < 60 ↔ j ≤ 59 := Nat.lt_succ_iff
  rw [roundStep, Sha1.round, hwords.get_eq j hj, BitVec.rotateLeft_def, BitVec.rotateLeft_def,
    Sha1.f, Sha1.K, ← ch_eq, ← maj_eq]
  simp only [h20, h40, h60]
  split_ifs <;> rfl

/-- **One pass over a block** is that of the standard. -/
theorem processBlock_eq (hi : 64 * i + 64 ≤ buffer.length) :
    processBlock buffer h (64 * i) = Sha1.compress (Sha1.word (bits buffer) i) h := by
  have hrounds : (List.range 80).foldl (roundStep (fillWords buffer (64 * i))) h =
      (List.range 80).foldl (Sha1.round (Sha1.word (bits buffer) i)) h :=
    List.foldl_ext _ _ _ fun s j hj => roundStep_eq (List.mem_range.mp hj) (Filled.schedule hi)
  simp only [processBlock, Sha1.compress, hrounds, BitVec.add_comm]

/-- **All blocks** are processed. -/
theorem foldl_processBlock {n : ℕ} (hn : buffer.length = 64 * n) :
    (List.range' 0 ((buffer.length + 63) / 64) 64).foldl (processBlock buffer) Sha1.init =
      Sha1.hashValue (bits buffer) n := by
  have hcount : (buffer.length + 63) / 64 = n := by omega
  rw [hcount]
  refine @foldl_range' _ (fun k h => h = Sha1.hashValue (bits buffer) k) _ _ _ _ _ rfl
    fun k h hk he => ?_
  rw [he, Nat.zero_add, processBlock_eq (by omega), Sha1.hashValue]

end Rounds

/-! ### The digits -/

section Digits

/-- The high digits come first. -/
theorem hexString_add (v w n : ℕ) :
    hexString (v + w) n = hexString v (n / 16 ^ w) ++ hexString w n := by
  induction w generalizing n with
  | zero => simp [hexString]
  | succ w ih =>
    have hdiv : n / 16 / 16 ^ w = n / 16 ^ (w + 1) := by
      rw [Nat.div_div_eq_div_mul, Nat.pow_succ, Nat.mul_comm]
    rw [← Nat.add_assoc, hexString, ih, hdiv, hexString, List.append_assoc]

/-- Only the low digits are written. -/
theorem hexString_mod (w n : ℕ) : hexString w (n % 16 ^ w) = hexString w n := by
  induction w generalizing n with
  | zero => rfl
  | succ w ih =>
    have hdiv : n % 16 ^ (w + 1) / 16 = n / 16 % 16 ^ w := by
      rw [Nat.pow_succ, Nat.mul_comm, Nat.mod_mul_right_div_self]
    have hmod : n % 16 ^ (w + 1) % 16 = n % 16 := Nat.mod_mod_of_dvd n (Dvd.intro_left (16 ^ w) rfl)
    rw [hexString, hdiv, hmod, ih, hexString]

/-- A word is written after the words before it. -/
theorem hexString_toNat_append {v k : ℕ} (x : BitVec k) (y : BitVec 32) :
    hexString (v + 8) (x ++ y).toNat = hexString v x.toNat ++ hexString 8 y.toNat := by
  have hsum : (x ++ y).toNat = x.toNat * 16 ^ 8 + y.toNat := by
    rw [BitVec.toNat_append, ← Nat.shiftLeft_add_eq_or_of_lt y.isLt, Nat.shiftLeft_eq]
    rfl
  have hdiv : (x.toNat * 16 ^ 8 + y.toNat) / 16 ^ 8 = x.toNat := by
    have := y.isLt
    omega
  have hmod : (x.toNat * 16 ^ 8 + y.toNat) % 16 ^ 8 = y.toNat := by
    have := y.isLt
    omega
  rw [hsum, hexString_add, hdiv, ← hexString_mod 8, hmod]

/-- **Five words** are written one after the other. -/
theorem hexString_words (a b c d e : BitVec 32) :
    hexString 40 (a ++ b ++ c ++ d ++ e).toNat = hexString 8 a.toNat ++ hexString 8 b.toNat ++
      hexString 8 c.toNat ++ hexString 8 d.toNat ++ hexString 8 e.toNat := by
  have he := hexString_toNat_append (v := 32) (a ++ b ++ c ++ d) e
  have hd := hexString_toNat_append (v := 24) (a ++ b ++ c) d
  have hc := hexString_toNat_append (v := 16) (a ++ b) c
  have hb := hexString_toNat_append (v := 8) a b
  rw [he, hd, hc, hb]

end Digits

/-- The digits of `hashsum_hex` are as many as those of SHA-1. -/
theorem length_hashsumHex (stream : Bytes) : (hashsumHex stream).hexdigest.length = 40 := by
  simp [hashsumHex]

theorem mem_hexDigits_of_mem_hashsumHex {stream : Bytes} {c : Byte}
    (h : c ∈ (hashsumHex stream).hexdigest) : c ∈ hexDigits := by
  simp only [hashsumHex, List.mem_append] at h
  rcases h with (((h | h) | h) | h) | h <;> exact mem_hexDigits_of_mem_hexString h

/-- The build option that `hash.hpp` tests. -/
theorem sha1_isBuild : (Algorithm.sha1 = .sha1 ∧ 40 = 40) ∨ (Algorithm.sha1 = .blake3 ∧ 40 = 64) :=
  Or.inl ⟨rfl, rfl⟩

/-- **The SHA-1 build.** -/
def sha1Build : HashFunction where
  alg := .sha1
  digestLength := 40
  sum := hashsumHex
  build := sha1_isBuild
  sum_alg := fun _ => rfl
  sum_length := length_hashsumHex
  sum_digits _ _ := mem_hexDigits_of_mem_hashsumHex

/-- **The built-in SHA-1 is SHA-1**, for streams of less than `2 ^ 61` bytes: it gives the sum of
the standard in forty lower-case digits. The padded buffer is a number of whole blocks, and ends
with the length in bits, the most significant byte first. -/
theorem hashsumHex_eq (stream : Bytes) (h : stream.length < 2 ^ 61) :
    hashsumHex stream = ⟨.sha1, hexString 40 (Sha1.sum (bits stream)).toNat⟩ ∧
    (hashsumHex stream).hexdigest.length = 40 ∧
    (∀ c ∈ (hashsumHex stream).hexdigest, c ∈ hexDigits) ∧
    (padded stream).length % 64 = 0 ∧
    ∃ k < 64, padded stream =
      stream ++ [0x80] ++ List.replicate k 0 ++ (le 8 (8 * stream.length)).reverse := by
  refine ⟨?_, length_hashsumHex stream, fun c => mem_hexDigits_of_mem_hashsumHex,
    length_padded_mod h, zeroBytes stream, Nat.mod_lt _ (by decide), padded_eq h⟩
  have hlen : (padded stream).length = 64 * ((padded stream).length / 64) := by
    have := length_padded_mod h
    omega
  have hblocks : (Sha1.pad (bits stream)).length / 512 = (padded stream).length / 64 := by
    rw [← bits_padded h, length_bits]
    omega
  have hsum : Sha1.hashValue (Sha1.pad (bits stream)) ((Sha1.pad (bits stream)).length / 512) =
      (List.range' 0 (((padded stream).length + 63) / 64) 64).foldl (processBlock (padded stream))
        Sha1.init := by
    rw [hblocks, foldl_processBlock hlen, bits_padded h]
  rw [Sha1.sum, hsum, hexString_words]
  rfl

namespace Sample

/-- The message `abc`. -/
def abc : Bytes := ascii ['a', 'b', 'c']

end Sample

open Sample in
/-- The digits of `abc` are those of its sum. -/
theorem hashsumHex_eq_sample :
    (hashsumHex abc).hexdigest = hexString 40 (Sha1.sum (bits abc)).toNat := by
  rw [(hashsumHex_eq abc (by decide)).1]

open Sample in
/-- The test vector of the standard. -/
example : (hashsumHex abc).hexdigest = hexString 40 0xa9993e364706816aba3e25717850c26c9cd0d89d := by
  rw [hashsumHex, padded_eq (by decide)]
  decide +kernel

end Fstree
