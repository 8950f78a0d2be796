import Fstree.Foundations.Codec
import Mathlib.Data.List.TakeWhile

/-!
# Reading JSON

A reader for the texts of JSON (RFC 8259), as it is described there: a value of any kind, with
blanks around it, and nothing else. The text of a number is kept as it is. An escape that stands
for half of a surrogate pair is allowed by the grammar; it is read as the replacement character.

A text that is read has no control characters but tabs and the two line ends
(`Fstree.Json.parse_allowed`): all others may stand in a string only as an escape.

Texts are lists of characters, and are exchanged as UTF-8 (`Fstree.utf8`).
-/

namespace Fstree

open Codec

/-! ### UTF-8 -/

/-- The UTF-8 encoding of a text. -/
def utf8 (cs : List Char) : Bytes := cs.flatMap fun c => (String.utf8EncodeChar c).map UInt8.toFin

@[simp] theorem utf8_nil : utf8 [] = [] := rfl

@[simp] theorem utf8_append (cs ds : List Char) : utf8 (cs ++ ds) = utf8 cs ++ utf8 ds :=
  List.flatMap_append

theorem utf8_cons (c : Char) (cs : List Char) : utf8 (c :: cs) = utf8 [c] ++ utf8 cs :=
  utf8_append [c] cs

/-- A character of ASCII is one byte. -/
theorem utf8_singleton {c : Char} (h : c.toNat < 128) : utf8 [c] = [Fin.ofNat 256 c.toNat] := by
  have hle : c.val.toNat ≤ 127 := Nat.le_of_lt_succ h
  rw [utf8, List.flatMap_singleton, String.utf8EncodeChar.eq_def]
  simp only [if_pos hle]
  rfl

/-- The others have no bytes of ASCII. -/
theorem le_of_mem_utf8 {c : Char} (h : 128 ≤ c.toNat) {b : Byte} (hb : b ∈ utf8 [c]) :
    128 ≤ b.val := by
  have hlt : ¬ c.val.toNat ≤ 127 := Nat.not_le_of_lt h
  have hbyte : ∀ n, 128 ≤ n → n < 256 → 128 ≤ (UInt8.ofNat n).toFin.val := fun n hn hn' => by
    rw [show (UInt8.ofNat n).toFin.val = n % 256 from rfl, Nat.mod_eq_of_lt hn']
    exact hn
  rw [utf8, List.flatMap_singleton, String.utf8EncodeChar.eq_def] at hb
  simp only [if_neg hlt] at hb
  obtain ⟨x, hx, rfl⟩ := List.mem_map.mp hb
  split_ifs at hx <;> simp only [List.mem_cons, List.not_mem_nil, or_false] at hx
  · rcases hx with rfl | rfl <;> exact hbyte _ (by omega) (by omega)
  · rcases hx with rfl | rfl | rfl <;> exact hbyte _ (by omega) (by omega)
  · rcases hx with rfl | rfl | rfl | rfl <;> exact hbyte _ (by omega) (by omega)

/-- **A byte of ASCII is a character.** -/
theorem exists_mem_of_mem_utf8 {cs : List Char} {b : Byte} (hb : b ∈ utf8 cs) (h : b.val < 128) :
    ∃ c ∈ cs, c.toNat = b.val := by
  obtain ⟨c, hc, hbc⟩ := List.mem_flatMap.mp hb
  have hbc : b ∈ utf8 [c] := by rwa [utf8, List.flatMap_singleton]
  have hlt : c.toNat < 128 := not_le.mp fun hle => absurd h (not_lt.mpr (le_of_mem_utf8 hle hbc))
  rw [utf8_singleton hlt, List.mem_singleton] at hbc
  refine ⟨c, hc, ?_⟩
  rw [hbc]
  exact (Nat.mod_eq_of_lt (by omega)).symm

/-! ### The reader -/

/-- **A value.** -/
inductive Json
  | null
  | bool (b : Bool)
  | number (digits : List Char)
  | string (s : List Char)
  | array (items : List Json)
  | object (members : List (List Char × Json))

namespace Json

/-- A blank. -/
def isBlank (c : Char) : Bool := c = ' ' ∨ c = '\t' ∨ c = '\n' ∨ c = '\r'

/-- Blanks are skipped. -/
def skip (cs : List Char) : List Char := cs.dropWhile isBlank

/-- The value of a hexadecimal digit. -/
def hexValue (c : Char) : Option ℕ :=
  if '0' ≤ c ∧ c ≤ '9' then some (c.toNat - '0'.toNat)
  else if 'a' ≤ c ∧ c ≤ 'f' then some (c.toNat - 'a'.toNat + 10)
  else if 'A' ≤ c ∧ c ≤ 'F' then some (c.toNat - 'A'.toNat + 10)
  else none

/-- So many hexadecimal digits. -/
def readHex : ℕ → ℕ → List Char → Option (ℕ × List Char)
  | 0, n, cs => some (n, cs)
  | _ + 1, _, [] => none
  | k + 1, n, c :: cs => do readHex k (16 * n + (← hexValue c)) cs

/-- The second half of a surrogate pair. -/
def readLow : List Char → Option (ℕ × List Char)
  | '\\' :: 'u' :: cs => do
    let (n, rest) ← readHex 4 0 cs
    if 0xDC00 ≤ n ∧ n < 0xE000 then some (n, rest) else none
  | _ => none

/-- What stands after a backslash. -/
def readEscape : List Char → Option (Char × List Char)
  | [] => none
  | c :: cs =>
    if c = '"' ∨ c = '\\' ∨ c = '/' then some (c, cs)
    else if c = 'b' then some (Char.ofNat 8, cs)
    else if c = 'f' then some (Char.ofNat 12, cs)
    else if c = 'n' then some ('\n', cs)
    else if c = 'r' then some ('\r', cs)
    else if c = 't' then some ('\t', cs)
    else if c = 'u' then do
      let (n, rest) ← readHex 4 0 cs
      if 0xD800 ≤ n ∧ n < 0xDC00 then
        match readLow rest with
        | some (m, rest') =>
          some (Char.ofNat (0x10000 + (n - 0xD800) * 0x400 + (m - 0xDC00)), rest')
        | none => some (Char.ofNat 0xFFFD, rest)
      else if 0xDC00 ≤ n ∧ n < 0xE000 then some (Char.ofNat 0xFFFD, rest)
      else some (Char.ofNat n, rest)
    else none

/-- A string after its first quote. -/
def readChars : ℕ → List Char → Option (List Char × List Char)
  | 0, _ => none
  | _ + 1, [] => none
  | fuel + 1, c :: cs =>
    if c = '"' then some ([], cs)
    else if c = '\\' then do
      let (d, rest) ← readEscape cs
      let (ds, rest') ← readChars fuel rest
      return (d :: ds, rest')
    else if c < ' ' then none
    else do
      let (ds, rest) ← readChars fuel cs
      return (c :: ds, rest)

/-- One digit at least. -/
def readDigits (cs : List Char) : Option (List Char × List Char) :=
  if cs.takeWhile Char.isDigit = [] then none
  else some (cs.takeWhile Char.isDigit, cs.dropWhile Char.isDigit)

/-- One of some characters, if it stands there. -/
def readOne (ds : List Char) : List Char → List Char × List Char
  | [] => ([], [])
  | c :: cs => if c ∈ ds then ([c], cs) else ([], c :: cs)

/-- The digits before the point: there are none after a zero. -/
def readInteger : List Char → Option (List Char × List Char)
  | '0' :: cs => some (['0'], cs)
  | cs => readDigits cs

/-- The point and the digits after it. -/
def readFraction (cs : List Char) : Option (List Char × List Char) :=
  match readOne ['.'] cs with
  | ([], cs) => some ([], cs)
  | (point, cs) => do
    let (ds, rest) ← readDigits cs
    return (point ++ ds, rest)

/-- The exponent. -/
def readExponent (cs : List Char) : Option (List Char × List Char) :=
  match readOne ['e', 'E'] cs with
  | ([], cs) => some ([], cs)
  | (e, cs) => do
    let (ds, rest) ← readDigits (readOne ['+', '-'] cs).2
    return (e ++ (readOne ['+', '-'] cs).1 ++ ds, rest)

/-- A number. -/
def readNumber (cs : List Char) : Option (Json × List Char) := do
  let (int, cs₁) ← readInteger (readOne ['-'] cs).2
  let (frac, cs₂) ← readFraction cs₁
  let (exp, cs₃) ← readExponent cs₂
  return (.number ((readOne ['-'] cs).1 ++ int ++ frac ++ exp), cs₃)

/-- A value that is a word. -/
def readWord (w : List Char) (v : Json) (cs : List Char) : Option (Json × List Char) :=
  if w.isPrefixOf cs then some (v, cs.drop w.length) else none

section Items

variable {α : Type} (item : List Char → Option (α × List Char))

/-- Items with commas between them, to the bracket that closes. -/
def readItems (close : Char) : ℕ → List Char → Option (List α × List Char)
  | 0, _ => none
  | fuel + 1, cs => do
    let (a, rest) ← item cs
    match skip rest with
    | [] => none
    | c :: rest =>
      if c = ',' then do
        let (as, rest') ← readItems close fuel rest
        return (a :: as, rest')
      else if c = close then some ([a], rest)
      else none

/-- What stands between brackets, after the first. -/
def readList (close : Char) (fuel : ℕ) (cs : List Char) : Option (List α × List Char) :=
  if (skip cs).head? = some close then some ([], (skip cs).tail) else readItems item close fuel cs

/-- A member of an object. -/
def readMember (fuel : ℕ) (cs : List Char) : Option ((List Char × α) × List Char) :=
  match skip cs with
  | '"' :: cs => do
    let (name, rest) ← readChars fuel cs
    match skip rest with
    | ':' :: rest => do
      let (a, rest') ← item rest
      return ((name, a), rest')
    | _ => none
  | _ => none

end Items

/-- **A value**, with the blanks before it. -/
def readValue : ℕ → List Char → Option (Json × List Char)
  | 0, _ => none
  | fuel + 1, cs =>
    match skip cs with
    | [] => none
    | c :: cs =>
      if c = '"' then (readChars fuel cs).map fun x => (.string x.1, x.2)
      else if c = '[' then (readList (readValue fuel) ']' fuel cs).map fun x => (.array x.1, x.2)
      else if c = '{' then
        (readList (readMember (readValue fuel) fuel) '}' fuel cs).map fun x => (.object x.1, x.2)
      else if c = 't' then readWord ['t', 'r', 'u', 'e'] (.bool true) (c :: cs)
      else if c = 'f' then readWord ['f', 'a', 'l', 's', 'e'] (.bool false) (c :: cs)
      else if c = 'n' then readWord ['n', 'u', 'l', 'l'] .null (c :: cs)
      else readNumber (c :: cs)

/-- **Reading a text**: a value, and nothing after it but blanks. -/
def parse (cs : List Char) : Option Json :=
  match readValue (cs.length + 1) cs with
  | some (v, rest) => if skip rest = [] then some v else none
  | none => none

/-! ### The characters of a text -/

/-- **A character that may stand in a text.** -/
def Allowed (c : Char) : Prop := ' ' ≤ c ∨ isBlank c = true

instance (c : Char) : Decidable (Allowed c) := inferInstanceAs (Decidable (_ ∨ _))

/-- What was read of a text has only such characters. -/
def Uses (cs rest : List Char) : Prop := ∃ used, cs = used ++ rest ∧ ∀ c ∈ used, Allowed c

section Uses

variable {α : Type} {c : Char} {cs ds rest rest' : List Char} {n k fuel : ℕ}

theorem Uses.refl (cs : List Char) : Uses cs cs := ⟨[], rfl, by simp⟩

theorem Uses.cons (hc : Allowed c) (h : Uses cs rest) : Uses (c :: cs) rest := by
  obtain ⟨used, rfl, hall⟩ := h
  exact ⟨c :: used, rfl, List.forall_mem_cons.mpr ⟨hc, hall⟩⟩

theorem Uses.trans (h : Uses cs rest) (h' : Uses rest rest') : Uses cs rest' := by
  obtain ⟨used, rfl, hall⟩ := h
  obtain ⟨used', rfl, hall'⟩ := h'
  refine ⟨used ++ used', (List.append_assoc ..).symm, fun c hc => ?_⟩
  exact (List.mem_append.mp hc).elim (hall c) (hall' c)

theorem uses_dropWhile {p : Char → Bool} (hp : ∀ c, p c = true → Allowed c) :
    Uses cs (cs.dropWhile p) :=
  ⟨cs.takeWhile p, List.takeWhile_append_dropWhile.symm, fun c hc =>
    hp c (List.mem_takeWhile_imp hc)⟩

theorem uses_skip (cs : List Char) : Uses cs (skip cs) := uses_dropWhile fun _ h => .inr h

/-- A blank comes before what is read next. -/
theorem uses_of_skip (h : skip cs = ds) (h' : Uses ds rest) : Uses cs rest :=
  (uses_skip cs).trans (h ▸ h')

theorem allowed_of_le {d : Char} (hd : ' ' ≤ d) (h : d ≤ c) : Allowed c :=
  .inl (Char.le_trans hd h)

theorem allowed_of_all (h : ds.all (fun c => decide (Allowed c)) = true) : ∀ c ∈ ds, Allowed c :=
  fun c hc => of_decide_eq_true (List.all_eq_true.mp h c hc)

theorem allowed_of_hexValue (h : hexValue c = some n) : Allowed c := by
  rw [hexValue] at h
  split_ifs at h with h0 ha hA
  · exact allowed_of_le (by decide) h0.1
  · exact allowed_of_le (by decide) ha.1
  · exact allowed_of_le (by decide) hA.1

theorem uses_readHex {m : ℕ} (h : readHex k n cs = some (m, rest)) : Uses cs rest := by
  induction k generalizing n cs with
  | zero =>
    cases h
    exact .refl _
  | succ k ih =>
    cases cs with
    | nil => cases h
    | cons c cs =>
      obtain ⟨d, hd, h⟩ := Option.bind_eq_some_iff.mp h
      exact .cons (allowed_of_hexValue hd) (ih h)

theorem uses_readLow (h : readLow cs = some (n, rest)) : Uses cs rest := by
  rw [readLow.eq_def] at h
  split at h
  · obtain ⟨⟨m, rest'⟩, hm, h⟩ := Option.bind_eq_some_iff.mp h
    simp only at h
    split_ifs at h
    cases h
    exact .cons (by decide) (.cons (by decide) (uses_readHex hm))
  · cases h

theorem uses_readEscape {d : Char} (h : readEscape cs = some (d, rest)) : Uses cs rest := by
  cases cs with
  | nil => cases h
  | cons c cs =>
    rw [readEscape] at h
    split_ifs at h with h0 hb hf hn hr ht hu
    · cases h
      exact .cons (by rcases h0 with rfl | rfl | rfl <;> decide) (.refl _)
    · cases h
      exact .cons (hb ▸ by decide) (.refl _)
    · cases h
      exact .cons (hf ▸ by decide) (.refl _)
    · cases h
      exact .cons (hn ▸ by decide) (.refl _)
    · cases h
      exact .cons (hr ▸ by decide) (.refl _)
    · cases h
      exact .cons (ht ▸ by decide) (.refl _)
    · obtain ⟨⟨n, rest₁⟩, hn, h⟩ := Option.bind_eq_some_iff.mp h
      refine .cons (hu ▸ by decide) ((uses_readHex hn).trans ?_)
      have hrest : ∀ {x : Char} {cs' : List Char}, some (x, cs') = some (d, rest) → cs' = rest :=
        fun he => congrArg Prod.snd (Option.some.inj he)
      simp only at h
      split_ifs at h
      · split at h
        · next hm => exact hrest h ▸ uses_readLow hm
        · exact hrest h ▸ .refl _
      · exact hrest h ▸ .refl _
      · exact hrest h ▸ .refl _

theorem uses_readChars (h : readChars fuel cs = some (ds, rest)) : Uses cs rest := by
  induction fuel generalizing cs ds with
  | zero => cases h
  | succ fuel ih =>
    cases cs with
    | nil => cases h
    | cons c cs =>
      rw [readChars] at h
      split_ifs at h with hquote hslash hcontrol
      · cases h
        exact .cons (hquote ▸ by decide) (.refl _)
      · obtain ⟨⟨d, rest₁⟩, hd, h⟩ := Option.bind_eq_some_iff.mp h
        obtain ⟨⟨ds', rest₂⟩, hds, h⟩ := Option.bind_eq_some_iff.mp h
        cases h
        exact .cons (hslash ▸ by decide) ((uses_readEscape hd).trans (ih hds))
      · obtain ⟨⟨ds', rest₁⟩, hds, h⟩ := Option.bind_eq_some_iff.mp h
        cases h
        exact .cons (.inl (Char.not_lt.mp hcontrol)) (ih hds)

theorem uses_readDigits (h : readDigits cs = some (ds, rest)) : Uses cs rest := by
  rw [readDigits] at h
  split_ifs at h
  cases h
  refine uses_dropWhile fun c hc => ?_
  rw [Char.isDigit, Bool.and_eq_true, decide_eq_true_iff] at hc
  exact allowed_of_le (by decide) hc.1

theorem uses_readOne (hds : ∀ d ∈ ds, Allowed d) (cs : List Char) :
    Uses cs (readOne ds cs).2 := by
  cases cs with
  | nil => exact .refl _
  | cons c cs =>
    rw [readOne]
    split_ifs with hc
    · exact .cons (hds c hc) (.refl _)
    · exact .refl _

theorem uses_readInteger (h : readInteger cs = some (ds, rest)) : Uses cs rest := by
  rw [readInteger.eq_def] at h
  split at h
  · cases h
    exact .cons (by decide) (.refl _)
  · exact uses_readDigits h

theorem uses_readFraction (h : readFraction cs = some (ds, rest)) : Uses cs rest := by
  have hone : Uses cs (readOne ['.'] cs).2 := uses_readOne (allowed_of_all (by decide)) cs
  rw [readFraction] at h
  split at h
  · next he =>
    cases h
    rwa [he] at hone
  · next he =>
    obtain ⟨⟨ds', rest'⟩, hds, h⟩ := Option.bind_eq_some_iff.mp h
    cases h
    rw [he] at hone
    exact hone.trans (uses_readDigits hds)

theorem uses_readExponent (h : readExponent cs = some (ds, rest)) : Uses cs rest := by
  have hone : Uses cs (readOne ['e', 'E'] cs).2 := uses_readOne (allowed_of_all (by decide)) cs
  rw [readExponent] at h
  split at h
  · next he =>
    cases h
    rwa [he] at hone
  · next he =>
    obtain ⟨⟨ds', rest'⟩, hds, h⟩ := Option.bind_eq_some_iff.mp h
    cases h
    rw [he] at hone
    exact (hone.trans (uses_readOne (allowed_of_all (by decide)) _)).trans (uses_readDigits hds)

theorem uses_readNumber {v : Json} (h : readNumber cs = some (v, rest)) : Uses cs rest := by
  obtain ⟨⟨int, cs₁⟩, hint, h⟩ := Option.bind_eq_some_iff.mp h
  obtain ⟨⟨frac, cs₂⟩, hfrac, h⟩ := Option.bind_eq_some_iff.mp h
  obtain ⟨⟨exp, cs₃⟩, hexp, h⟩ := Option.bind_eq_some_iff.mp h
  cases h
  exact (uses_readOne (allowed_of_all (by decide)) cs).trans ((uses_readInteger hint).trans
    ((uses_readFraction hfrac).trans (uses_readExponent hexp)))

theorem uses_readWord {w : List Char} {v v' : Json} (hw : ∀ c ∈ w, Allowed c)
    (h : readWord w v cs = some (v', rest)) : Uses cs rest := by
  rw [readWord] at h
  split_ifs at h with hpre
  cases h
  obtain ⟨rest, rfl⟩ := List.isPrefixOf_iff_prefix.mp hpre
  exact ⟨w, by rw [List.drop_left], hw⟩

variable {item : List Char → Option (α × List Char)} {close : Char}

theorem uses_readItems (hitem : ∀ {cs a rest}, item cs = some (a, rest) → Uses cs rest)
    (hclose : Allowed close) {as : List α} (h : readItems item close k cs = some (as, rest)) :
    Uses cs rest := by
  induction k generalizing cs as with
  | zero => cases h
  | succ k ih =>
    obtain ⟨⟨a, rest₁⟩, ha, h⟩ := Option.bind_eq_some_iff.mp h
    refine (hitem ha).trans ?_
    simp only at h
    split at h
    · cases h
    · next c rest₂ hskip =>
      refine uses_of_skip hskip ?_
      split_ifs at h with hcomma hc
      · obtain ⟨⟨as', rest₃⟩, has, h⟩ := Option.bind_eq_some_iff.mp h
        cases h
        exact .cons (hcomma ▸ by decide) (ih has)
      · cases h
        exact .cons (hc ▸ hclose) (.refl _)

theorem uses_readList (hitem : ∀ {cs a rest}, item cs = some (a, rest) → Uses cs rest)
    (hclose : Allowed close) {as : List α} (h : readList item close k cs = some (as, rest)) :
    Uses cs rest := by
  rw [readList] at h
  split_ifs at h with hc
  · cases h
    obtain ⟨rest, hrest⟩ : ∃ rest, skip cs = close :: rest := by
      cases hs : skip cs with
      | nil => simp [hs] at hc
      | cons c rest =>
        rw [hs, List.head?_cons, Option.some.injEq] at hc
        exact ⟨rest, by rw [hc]⟩
    rw [hrest]
    exact uses_of_skip hrest (.cons hclose (.refl _))
  · exact uses_readItems hitem hclose h

theorem uses_readMember (hitem : ∀ {cs a rest}, item cs = some (a, rest) → Uses cs rest)
    {m : List Char × α} (h : readMember item fuel cs = some (m, rest)) : Uses cs rest := by
  rw [readMember] at h
  split at h
  · next cs₁ hskip =>
    obtain ⟨⟨name, rest₁⟩, hname, h⟩ := Option.bind_eq_some_iff.mp h
    refine uses_of_skip hskip (.cons (by decide) ((uses_readChars hname).trans ?_))
    simp only at h
    split at h
    · next rest₂ hskip =>
      obtain ⟨⟨a, rest₃⟩, ha, h⟩ := Option.bind_eq_some_iff.mp h
      cases h
      exact uses_of_skip hskip (.cons (by decide) (hitem ha))
    · cases h
  · cases h

/-- **What is read of a value** has only characters that are allowed. -/
theorem uses_readValue {v : Json} (h : readValue fuel cs = some (v, rest)) : Uses cs rest := by
  induction fuel generalizing cs v rest with
  | zero => cases h
  | succ fuel ih =>
    rw [readValue] at h
    split at h
    · cases h
    · next c cs₁ hskip =>
      refine uses_of_skip hskip ?_
      split_ifs at h with hs ha ho ht hf hn
      · obtain ⟨⟨s, rest'⟩, hs', h⟩ := Option.map_eq_some_iff.mp h
        cases h
        exact .cons (hs ▸ by decide) (uses_readChars hs')
      · obtain ⟨⟨l, rest'⟩, hl, h⟩ := Option.map_eq_some_iff.mp h
        cases h
        exact .cons (ha ▸ by decide) (uses_readList ih (by decide) hl)
      · obtain ⟨⟨l, rest'⟩, hl, h⟩ := Option.map_eq_some_iff.mp h
        cases h
        exact .cons (ho ▸ by decide) (uses_readList (uses_readMember ih) (by decide) hl)
      · exact uses_readWord (allowed_of_all (by decide)) h
      · exact uses_readWord (allowed_of_all (by decide)) h
      · exact uses_readWord (allowed_of_all (by decide)) h
      · exact uses_readNumber h

/-- **A text that is read has only characters that are allowed.** -/
theorem parse_allowed {v : Json} (h : parse cs = some v) : ∀ c ∈ cs, Allowed c := by
  rw [parse] at h
  split at h
  · next v' rest hv =>
    split_ifs at h with hrest
    obtain ⟨used, hused, hall⟩ := (uses_readValue hv).trans (hrest ▸ uses_skip rest)
    rw [List.append_nil] at hused
    rwa [hused]
  · cases h

end Uses

end Json

end Fstree
