import Mathlib.Data.List.Basic
import Mathlib.Data.Fin.Basic
import Mathlib.Algebra.Order.Group.Nat
import Mathlib.Tactic.Ring

/-!
# Readers of binary formats

Byte strings, fixed-width little-endian words, length-prefixed blocks and
sequences of records read until the input ends: the vocabulary a binary record
format is written in.

A *reader* (`Codec.Reader`) consumes the front of a byte string or fails. The
one law a format needs is that its reader **reads back** what its writer writes
(`Codec.Reads`): in front of any rest, the written bytes are consumed exactly
and give the value back. It composes along `do` blocks
(`Codec.Reads.bind`), holds of words and blocks (`Codec.reads_word`,
`Codec.reads_block`), and lifts to sequences (`Codec.readAll_flatMap`). A reader
that **notices a cut** (`Codec.Cuts`) makes an error of what was written if some
of it is missing at the end; that composes the same way, and of a sequence that
was cut it leaves the records that are whole (`Codec.readAll_take`).

A sequence is read by `Codec.many`, which keeps what it has read when a record
fails, because a program that appends each record to a list as it goes does.
Its fuel is the length of the input, which is enough as soon as a record takes
at least one byte (`Codec.many_fuel`).
-/

namespace Codec

/-- A byte. -/
abbrev Byte := Fin 256

instance neZero_byte : NeZero 256 := ⟨by decide⟩

instance lawfulBEq_byte : LawfulBEq Byte := inferInstance

/-- A byte string. -/
abbrev Bytes := List Byte

/-! ### Little-endian words -/

/-- The `w` low bytes of a number, least significant first. -/
def le : ℕ → ℕ → Bytes
  | 0, _ => []
  | w + 1, n => Fin.ofNat 256 n :: le w (n / 256)

/-- The number a little-endian byte string stands for. -/
def unLe : Bytes → ℕ
  | [] => 0
  | b :: bs => b.val + 256 * unLe bs

@[simp] theorem length_le (w n : ℕ) : (le w n).length = w := by
  induction w generalizing n with
  | zero => rfl
  | succ w ih => simp [le, ih]

/-- A number that fits its width is read back. -/
theorem unLe_le {w n : ℕ} (h : n < 256 ^ w) : unLe (le w n) = n := by
  induction w generalizing n with
  | zero =>
    have hn : n = 0 := by simpa using h
    simp [le, unLe, hn]
  | succ w ih =>
    have hdiv : n / 256 < 256 ^ w := by
      rw [pow_succ] at h
      exact Nat.div_lt_of_lt_mul (by rwa [mul_comm] at h)
    simp only [le, unLe, ih hdiv, Fin.val_ofNat]
    omega

/-! ### Readers -/

/-- **A reader** takes a value from the front of a byte string, or fails. -/
abbrev Reader (ε : Type) := StateT Bytes (Except ε)

variable {ε α β : Type}

/-- The next `n` bytes. -/
def bytes (e : ε) (n : ℕ) : Reader ε Bytes := fun bs =>
  if n ≤ bs.length then .ok (bs.take n, bs.drop n) else .error e

/-- The next `w` bytes, as a number. -/
def word (e : ε) (w : ℕ) : Reader ε ℕ := do return unLe (← bytes e w)

/-- A block: eight bytes of length, and that many bytes. -/
def block (e : ε) : Reader ε Bytes := do
  let n ← word e 8
  bytes e n

/-- A block as it is written. -/
def putBlock (bs : Bytes) : Bytes := le 8 bs.length ++ bs

/-! ### Reading back what was written -/

/-- **A reader reads a written value back**: in front of any rest it consumes
exactly the written bytes. -/
def Reads (r : Reader ε α) (w : Bytes) (a : α) : Prop :=
  ∀ rest : Bytes, r (w ++ rest) = .ok (a, rest)

theorem reads_pure (a : α) : Reads (pure a : Reader ε α) [] a := fun _ => rfl

/-- **Reading back composes**: what two readers take one after the other is what
was written one after the other. -/
theorem Reads.bind {r : Reader ε α} {f : α → Reader ε β} {w w' : Bytes} {a : α} {b : β}
    (h : Reads r w a) (h' : Reads (f a) w' b) : Reads (r >>= f) (w ++ w') b := by
  intro rest
  have hr : r (w ++ (w' ++ rest)) = .ok (a, w' ++ rest) := h _
  rw [List.append_assoc]
  change (r (w ++ (w' ++ rest))).bind (fun p => f p.1 p.2) = _
  rw [hr]
  exact h' rest

/-- A last step that takes nothing from the input. -/
theorem Reads.map {r : Reader ε α} {f : α → Reader ε β} {w : Bytes} {a : α} {b : β}
    (h : Reads r w a) (h' : Reads (f a) [] b) : Reads (r >>= f) w b := by
  simpa using h.bind h'

theorem reads_bytes (e : ε) {n : ℕ} {w : Bytes} (h : w.length = n) : Reads (bytes e n) w w := by
  intro rest
  subst h
  simp [bytes]

theorem reads_word (e : ε) {w n : ℕ} (h : n < 256 ^ w) : Reads (word e w) (le w n) n := by
  have hb : Reads (bytes e w) (le w n) (le w n) := reads_bytes e (length_le w n)
  refine hb.map ?_
  rw [unLe_le h]
  exact reads_pure n

theorem reads_block (e : ε) {w : Bytes} (h : w.length < 2 ^ 64) :
    Reads (block e) (putBlock w) w :=
  (reads_word e (by norm_num at h ⊢; exact h)).bind (reads_bytes e rfl)

/-! ### Records until the input ends -/

/-- Read records until the input is empty, keeping those read before a failure. -/
def many (r : Reader ε α) : ℕ → Bytes → List α × Option ε
  | 0, _ => ([], none)
  | _ + 1, [] => ([], none)
  | fuel + 1, b :: bs =>
    match r (b :: bs) with
    | .error e => ([], some e)
    | .ok (a, rest) => (a :: (many r fuel rest).1, (many r fuel rest).2)

/-- All records of a byte string. -/
def readAll (r : Reader ε α) (bs : Bytes) : List α × Option ε := many r bs.length bs

@[simp] theorem many_nil (r : Reader ε α) (fuel : ℕ) : many r fuel [] = ([], none) := by
  cases fuel <;> rfl

theorem many_cons_ok {r : Reader ε α} {b : Byte} {bs rest : Bytes} {a : α}
    (h : r (b :: bs) = .ok (a, rest)) (fuel : ℕ) :
    many r (fuel + 1) (b :: bs) = (a :: (many r fuel rest).1, (many r fuel rest).2) := by
  simp [many, h]

theorem many_cons_error {r : Reader ε α} {b : Byte} {bs : Bytes} {e : ε}
    (h : r (b :: bs) = .error e) (fuel : ℕ) : many r (fuel + 1) (b :: bs) = ([], some e) := by
  simp [many, h]

/-- What holds of every record that can be read holds of all that are read. -/
theorem forall_mem_many {r : Reader ε α} {P : α → Prop}
    (h : ∀ bs a rest, r bs = .ok (a, rest) → P a) (fuel : ℕ) (bs : Bytes) :
    ∀ a ∈ (many r fuel bs).1, P a := by
  induction fuel generalizing bs with
  | zero => exact nofun
  | succ fuel ih =>
    cases bs with
    | nil => exact nofun
    | cons b bs =>
      cases hr : r (b :: bs) with
      | error e =>
        rw [many_cons_error hr]
        exact nofun
      | ok res =>
        obtain ⟨a, rest⟩ := res
        rw [many_cons_ok hr]
        exact List.forall_mem_cons.mpr ⟨h _ _ _ hr, ih rest⟩

theorem map_apply (f : α → β) (r : Reader ε α) (bs : Bytes) :
    (f <$> r : Reader ε β) bs = (r bs).map fun p => (f p.1, p.2) := by
  change (r bs).bind (fun p => .ok (f p.1, p.2)) = _
  cases r bs <;> rfl

/-- Records that a function is applied to as they are read. -/
theorem readAll_map (f : α → β) (r : Reader ε α) (bs : Bytes) :
    readAll (f <$> r) bs = ((readAll r bs).1.map f, (readAll r bs).2) := by
  suffices hs : ∀ (n : ℕ) (bs : Bytes),
      many (f <$> r) n bs = ((many r n bs).1.map f, (many r n bs).2) from hs _ _
  intro n
  induction n with
  | zero =>
    intro bs
    rfl
  | succ n ih =>
    intro bs
    cases bs with
    | nil => rfl
    | cons b bs =>
      have hm := map_apply f r (b :: bs)
      cases hr : r (b :: bs) with
      | error e =>
        rw [hr] at hm
        rw [many_cons_error hr, many_cons_error hm]
        rfl
      | ok p =>
        rw [hr] at hm
        rw [many_cons_ok hr, many_cons_ok hm, ih]
        rfl

/-- A reader that takes at least one byte whenever it succeeds. -/
def Consumes (r : Reader ε α) : Prop := ∀ bs a rest, r bs = .ok (a, rest) → rest.length < bs.length

/-- **The length of the input is fuel enough.** -/
theorem many_fuel {r : Reader ε α} (hr : Consumes r) {fuel : ℕ} {bs : Bytes}
    (h : bs.length ≤ fuel) : many r fuel bs = readAll r bs := by
  suffices hs : ∀ n m : ℕ, ∀ bs : Bytes, bs.length ≤ n → bs.length ≤ m → many r n bs = many r m bs
    from hs _ _ bs h le_rfl
  intro n
  induction n with
  | zero =>
    intro m bs hn _
    have hbs : bs = [] := List.length_eq_zero_iff.mp (Nat.le_zero.mp hn)
    simp [hbs]
  | succ n ih =>
    intro m bs hn hm
    match m, bs with
    | _, [] => simp
    | m + 1, b :: bs =>
      cases hread : r (b :: bs) with
      | error e => rw [many_cons_error hread, many_cons_error hread]
      | ok p =>
        have hlt := hr _ _ _ hread
        rw [many_cons_ok hread, many_cons_ok hread,
          ih m p.2 (by simp at hn hlt; omega) (by simp at hm hlt; omega)]

/-- A reader that never gives back more than it was given. -/
def Shrinks (r : Reader ε α) : Prop := ∀ bs a rest, r bs = .ok (a, rest) → rest.length ≤ bs.length

theorem shrinks_pure (a : α) : Shrinks (pure a : Reader ε α) := by
  rintro bs b rest ⟨⟩
  exact le_rfl

theorem shrinks_throw (e : ε) : Shrinks (throw e : Reader ε α) := by
  rintro bs b rest ⟨⟩

/-- What a `do` block takes, its two parts take one after the other. -/
theorem bind_eq_ok {r : Reader ε α} {f : α → Reader ε β} {bs rest : Bytes} {b : β}
    (h : (r >>= f) bs = .ok (b, rest)) :
    ∃ a mid, r bs = .ok (a, mid) ∧ f a mid = .ok (b, rest) := by
  change (r bs).bind (fun p => f p.1 p.2) = _ at h
  cases hr : r bs with
  | error e =>
    rw [hr] at h
    cases h
  | ok p =>
    rw [hr] at h
    exact ⟨p.1, p.2, rfl, h⟩

theorem Shrinks.bind {r : Reader ε α} {f : α → Reader ε β} (h : Shrinks r)
    (h' : ∀ a, Shrinks (f a)) : Shrinks (r >>= f) := by
  intro bs b rest hb
  obtain ⟨a, mid, hr, hf⟩ := bind_eq_ok hb
  exact (h' a _ _ _ hf).trans (h _ _ _ hr)

theorem Consumes.bind {r : Reader ε α} {f : α → Reader ε β} (h : Consumes r)
    (h' : ∀ a, Shrinks (f a)) : Consumes (r >>= f) := by
  intro bs b rest hb
  obtain ⟨a, mid, hr, hf⟩ := bind_eq_ok hb
  exact lt_of_le_of_lt (h' a _ _ _ hf) (h _ _ _ hr)

theorem bytes_eq_ok {e : ε} {n : ℕ} {bs w rest : Bytes} (h : bytes e n bs = .ok (w, rest)) :
    n ≤ bs.length ∧ w = bs.take n ∧ rest = bs.drop n := by
  rw [bytes] at h
  split at h
  · cases h
    exact ⟨‹_›, rfl, rfl⟩
  · cases h

theorem shrinks_bytes (e : ε) (n : ℕ) : Shrinks (bytes e n) := by
  intro bs w rest h
  obtain ⟨-, -, rfl⟩ := bytes_eq_ok h
  simp

theorem shrinks_word (e : ε) (w : ℕ) : Shrinks (word e w) :=
  (shrinks_bytes e w).bind fun _ => shrinks_pure _

theorem consumes_word (e : ε) {w : ℕ} (hw : 0 < w) : Consumes (word e w) := by
  refine Consumes.bind (fun bs a rest h => ?_) fun _ => shrinks_pure _
  obtain ⟨hle, -, rfl⟩ := bytes_eq_ok h
  simp only [List.length_drop]
  omega

theorem shrinks_block (e : ε) : Shrinks (block e) :=
  (shrinks_word e 8).bind fun n => shrinks_bytes e n

theorem consumes_block (e : ε) : Consumes (block e) :=
  (consumes_word e (by norm_num)).bind fun n => shrinks_bytes e n

/-- A record that is read back is not empty if its reader consumes. -/
theorem Reads.ne_nil {r : Reader ε α} {w : Bytes} {a : α} (h : Reads r w a) (hr : Consumes r) :
    w ≠ [] := by
  rintro rfl
  exact absurd (hr _ _ _ (h [])) (by simp)

/-- **Reading back a sequence of records**, in front of a rest. -/
theorem readAll_flatMap_append {r : Reader ε α} (hr : Consumes r) {l : List β} {put : β → Bytes}
    {val : β → α} (h : ∀ b ∈ l, Reads r (put b) (val b)) (rest : Bytes) :
    readAll r (l.flatMap put ++ rest) =
      (l.map val ++ (readAll r rest).1, (readAll r rest).2) := by
  induction l with
  | nil => simp
  | cons b l ih =>
    have hb : Reads r (put b) (val b) := h b (by simp)
    have hl := ih fun c hc => h c (List.mem_cons_of_mem _ hc)
    obtain ⟨c, cs, hc⟩ := List.exists_cons_of_ne_nil (hb.ne_nil hr)
    have hread : r (put b ++ (l.flatMap put ++ rest)) = .ok (val b, l.flatMap put ++ rest) := hb _
    rw [hc, List.cons_append] at hread
    have hlen : (l.flatMap put ++ rest).length ≤ (cs ++ (l.flatMap put ++ rest)).length := by
      simp
    rw [List.flatMap_cons, List.append_assoc, hc, List.cons_append, readAll, List.length_cons,
      many_cons_ok hread, many_fuel hr hlen, hl]
    simp

/-- **Reading back a sequence of records.** -/
theorem readAll_flatMap {r : Reader ε α} (hr : Consumes r) {l : List β} {put : β → Bytes}
    {val : β → α} (h : ∀ b ∈ l, Reads r (put b) (val b)) :
    readAll r (l.flatMap put) = (l.map val, none) := by
  simpa [readAll] using readAll_flatMap_append hr h []

/-! ### Reading what was cut -/

/-- **A reader notices a cut**: of the written bytes without some at the end it makes
an error. -/
def Cuts (r : Reader ε α) (e : ε) (w : Bytes) : Prop := ∀ k < w.length, r (w.take k) = .error e

theorem cuts_nil (r : Reader ε α) (e : ε) : Cuts r e [] := fun _ hk => absurd hk (Nat.not_lt_zero _)

/-- **Noticing a cut composes**: it is either in the first part, or in the second. -/
theorem Cuts.bind {r : Reader ε α} {f : α → Reader ε β} {e : ε} {w w' : Bytes} {a : α}
    (hr : Reads r w a) (h : Cuts r e w) (h' : Cuts (f a) e w') : Cuts (r >>= f) e (w ++ w') := by
  intro k hk
  change (r ((w ++ w').take k)).bind (fun p => f p.1 p.2) = _
  rcases Nat.lt_or_ge k w.length with hlt | hge
  · rw [List.take_append_of_le_length hlt.le, h k hlt]
    rfl
  · have hk' : k - w.length < w'.length := by
      rw [List.length_append] at hk
      omega
    rw [List.take_append, List.take_of_length_le hge, hr]
    exact h' _ hk'

/-- A last step that takes nothing from the input has nothing to notice. -/
theorem Cuts.map {r : Reader ε α} {f : α → Reader ε β} {e : ε} {w : Bytes} {a : α}
    (hr : Reads r w a) (h : Cuts r e w) : Cuts (r >>= f) e w := by
  simpa using h.bind hr (cuts_nil (f a) e)

theorem cuts_bytes (e : ε) {n : ℕ} {w : Bytes} (h : w.length = n) : Cuts (bytes e n) e w := by
  intro k hk
  rw [bytes, if_neg]
  rw [List.length_take]
  omega

theorem cuts_word (e : ε) (w n : ℕ) : Cuts (word e w) e (le w n) :=
  (cuts_bytes e (length_le w n)).map (reads_bytes e (length_le w n))

theorem cuts_block (e : ε) {w : Bytes} (h : w.length < 2 ^ 64) : Cuts (block e) e (putBlock w) :=
  (cuts_word e 8 _).bind (reads_word e (by norm_num at h ⊢; exact h)) (cuts_bytes e rfl)

/-- **Reading a sequence of records that was cut** leaves those that are whole; it ends
normally if and only if nothing of the next one is there. -/
theorem readAll_take {r : Reader ε α} (hr : Consumes r) {l : List β} {put : β → Bytes}
    {val : β → α} {e : ε} (h : ∀ b ∈ l, Reads r (put b) (val b)) (hc : ∀ b ∈ l, Cuts r e (put b))
    {n : ℕ} (hn : n ≤ (l.flatMap put).length) :
    ∃ k ≤ l.length,
      readAll r ((l.flatMap put).take n) = ((l.take k).map val,
        if ((l.take k).flatMap put).length = n then none else some e) ∧
      ((l.take k).flatMap put).length ≤ n ∧
      (k < l.length → n < ((l.take (k + 1)).flatMap put).length) := by
  induction l generalizing n with
  | nil =>
    obtain rfl : n = 0 := by simpa using hn
    exact ⟨0, by simp [readAll]⟩
  | cons b l ih =>
    have hb : Reads r (put b) (val b) := h b (by simp)
    rcases Nat.lt_or_ge n (put b).length with hlt | hge
    · -- the cut is in the first record
      refine ⟨0, by simp, ?_, by simp, fun _ => by simpa using hlt⟩
      rw [List.flatMap_cons, List.take_append_of_le_length hlt.le]
      cases n with
      | zero => simp [readAll]
      | succ n =>
        have herr := hc b (by simp) _ hlt
        obtain ⟨c, cs, hcs⟩ := List.exists_cons_of_ne_nil (hb.ne_nil hr)
        rw [hcs, List.take_succ_cons] at herr ⊢
        rw [readAll, List.length_cons, many_cons_error herr]
        simp
    · obtain ⟨k, hk, hread, hle, hlt⟩ := ih (fun c hm => h c (List.mem_cons_of_mem _ hm))
        (fun c hm => hc c (List.mem_cons_of_mem _ hm)) (n := n - (put b).length) (by
          rw [List.flatMap_cons, List.length_append] at hn
          omega)
      have hwhole : readAll r ([b].flatMap put ++ (l.flatMap put).take (n - (put b).length)) = _ :=
        readAll_flatMap_append hr (by simpa using hb) _
      rw [List.flatMap_singleton, hread] at hwhole
      refine ⟨k + 1, by simpa using hk, ?_, ?_, fun hk' => ?_⟩
      · rw [List.flatMap_cons, List.take_append, List.take_of_length_le hge, hwhole]
        have hiff : ((l.take k).flatMap put).length = n - (put b).length ↔
            (((b :: l).take (k + 1)).flatMap put).length = n := by
          rw [List.take_succ_cons, List.flatMap_cons, List.length_append]
          omega
        simp only [hiff]
        simp
      · rw [List.take_succ_cons, List.flatMap_cons, List.length_append]
        omega
      · have hlt' := hlt (by simpa using hk')
        rw [List.take_succ_cons, List.flatMap_cons, List.length_append]
        omega

end Codec
