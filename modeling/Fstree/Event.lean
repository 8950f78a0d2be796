import Fstree.Foundations.Json
import Fstree.Model.Digest

/-!
# Events as lines of JSON

With `--json`, `event` writes a line for each event: an object with its type, a path and, if
there is one, a message. Paths and messages go through `escape`, which knows quotes,
backslashes and five control characters. JSON has no others in a string, unless they are
escaped. So the line can be read back if and only if there is none of them in the path and the
message (`Fstree.event_readsBack_iff`).
-/

namespace Fstree

open Codec

/-! ### Writing -/

/-- What `escape` makes of a character. -/
def escapeByte (c : Byte) : Bytes :=
  if c = 34 then ascii ['\\', '"']
  else if c = 92 then ascii ['\\', '\\']
  else if c = 8 then ascii ['\\', 'b']
  else if c = 12 then ascii ['\\', 'f']
  else if c = 10 then ascii ['\\', 'n']
  else if c = 13 then ascii ['\\', 'r']
  else if c = 9 then ascii ['\\', 't']
  else [c]

/-- **`escape`**. -/
def escape (str : Bytes) : Bytes := str.flatMap escapeByte

/-- **`event`**: what is written to the stream. -/
def event (enabled : Bool) (type path message : Bytes) : Bytes :=
  if !enabled then []
  else
    ascii "\x7b \"type\": \"".toList ++ type ++ ascii "\", \"path\": \"".toList ++ escape path ++
      ascii ['"'] ++
      (if message = [] then []
        else ascii ", \"message\": \"".toList ++ escape message ++ ascii ['"']) ++
      ascii " \x7d\n".toList

/-- **The events of the program.** -/
inductive EventType
  | save | load | checkout | refresh | add | pullObject | pullTree | pushObject | pushTree | push
  | missingObject | missingTree | pull | evict | warning

/-- Their types, as they are written. -/
def EventType.text : EventType → List Char
  | save => "index::save".toList
  | load => "index::load".toList
  | checkout => "index::checkout".toList
  | refresh => "index::refresh".toList
  | add => "cache::add".toList
  | pullObject => "cache::pull_object".toList
  | pullTree => "cache::pull_tree".toList
  | pushObject => "cache::push_object".toList
  | pushTree => "cache::push_tree".toList
  | push => "cache::push".toList
  | missingObject => "cache::remote_missing_object".toList
  | missingTree => "cache::remote_missing_tree".toList
  | pull => "cache::pull".toList
  | evict => "cache::evict".toList
  | warning => "warning".toList

/-! ### Reading back -/

/-- The end of a line. -/
def newline : Byte := 10

/-- **A line can be read back**: it is one line, an object of JSON in UTF-8, with this type, this
path, and this message if there is one. -/
def LineReadsBack (type path message : List Char) (line : Bytes) : Prop :=
  ∃ cs members, line = utf8 cs ++ [newline] ∧ newline ∉ utf8 cs ∧
    Json.parse cs = some (.object members) ∧
    members.lookup "type".toList = some (.string type) ∧
    members.lookup "path".toList = some (.string path) ∧
    members.lookup "message".toList = if message = [] then none else some (.string message)

/-- **A control character that `escape` does not know.** -/
def Unescaped (c : Char) : Prop :=
  c < ' ' ∧ c ≠ '\x08' ∧ c ≠ '\x0c' ∧ c ≠ '\n' ∧ c ≠ '\r' ∧ c ≠ '\t'

instance (c : Char) : Decidable (Unescaped c) := inferInstanceAs (Decidable (_ ∧ _))

/-- The characters that it knows. -/
def knownChars : List Char := ['"', '\\', '\x08', '\x0c', '\n', '\r', '\t']

/-! ### The text of an object -/

/-- `escape`, on the characters of a text. -/
def escapeChar (c : Char) : List Char :=
  if c = '"' then ['\\', '"']
  else if c = '\\' then ['\\', '\\']
  else if c = '\x08' then ['\\', 'b']
  else if c = '\x0c' then ['\\', 'f']
  else if c = '\n' then ['\\', 'n']
  else if c = '\r' then ['\\', 'r']
  else if c = '\t' then ['\\', 't']
  else [c]

@[inherit_doc escapeChar] def escapeText (cs : List Char) : List Char := cs.flatMap escapeChar

/-- A member of an object, with a blank before it. -/
def memberText (m : List Char × List Char) : List Char :=
  [' ', '"'] ++ escapeText m.1 ++ ['"', ':', ' ', '"'] ++ escapeText m.2 ++ ['"']

/-- Members, with commas between them, and the bracket that closes. -/
def membersText : List (List Char × List Char) → List Char
  | [] => [' ', '}']
  | [m] => memberText m ++ [' ', '}']
  | m :: ms => memberText m ++ ',' :: membersText ms

section Write

variable {c : Char} {cs rest : List Char} {fuel k : ℕ} {s t : List Char}

theorem escape_append (a b : Bytes) : escape (a ++ b) = escape a ++ escape b := List.flatMap_append

/-- The characters that `escape` knows. -/
theorem escapeByte_eq_self {b : Byte}
    (h : ∀ d ∈ knownChars, d.toNat ≠ b.val) :
    escapeByte b = [b] := by
  have hne : ∀ n : ℕ, n ∈ [34, 92, 8, 12, 10, 13, 9] → n ≠ b.val := by
    simpa [knownChars] using h
  have hif : ∀ d : Byte, d.val ∈ [34, 92, 8, 12, 10, 13, 9] → b ≠ d := fun d hd he =>
    hne d.val hd (by rw [he])
  rw [escapeByte, if_neg (hif _ (by decide)), if_neg (hif _ (by decide)),
    if_neg (hif _ (by decide)), if_neg (hif _ (by decide)), if_neg (hif _ (by decide)),
    if_neg (hif _ (by decide)), if_neg (hif _ (by decide))]

theorem escapeChar_eq_self
    (h : c ∉ knownChars) : escapeChar c = [c] := by
  simp only [knownChars, List.mem_cons, List.not_mem_nil, or_false, not_or] at h
  obtain ⟨h1, h2, h3, h4, h5, h6, h7⟩ := h
  rw [escapeChar, if_neg h1, if_neg h2, if_neg h3, if_neg h4, if_neg h5, if_neg h6, if_neg h7]

/-- **Bytes are escaped as characters are.** -/
theorem escape_utf8 (cs : List Char) : escape (utf8 cs) = utf8 (escapeText cs) := by
  induction cs with
  | nil => rfl
  | cons c cs ih =>
    have hc : escape (utf8 [c]) = utf8 (escapeChar c) := by
      by_cases hknown : c ∈ knownChars
      · have hall : knownChars.all fun c => escape (utf8 [c]) = utf8 (escapeChar c) := by decide
        exact of_decide_eq_true (List.all_eq_true.mp hall c hknown)
      · -- the bytes of the other characters stay as they are
        have hself : ∀ b ∈ utf8 [c], escapeByte b = [b] := by
          refine fun b hb => escapeByte_eq_self fun d hd he => ?_
          have hd' : d.toNat < 128 := by
            have hall : knownChars.all fun d => d.toNat < 128 := by decide
            exact of_decide_eq_true (List.all_eq_true.mp hall d hd)
          obtain ⟨c', hc', hb'⟩ := exists_mem_of_mem_utf8 hb (he ▸ hd')
          rw [List.mem_singleton] at hc'
          rw [hc', ← he, Char.toNat_inj] at hb'
          exact hknown (hb' ▸ hd)
        rw [escapeChar_eq_self hknown, escape]
        generalize utf8 [c] = bs at hself
        induction bs with
        | nil => rfl
        | cons b bs ih =>
          rw [List.forall_mem_cons] at hself
          rw [List.flatMap_cons, hself.1, ih hself.2]
          rfl
    rw [utf8_cons, escape_append, ih, hc, ← utf8_append]
    rfl

/-! ### Reading an object back -/

/-- A character after a backslash. -/
theorem readChars_backslash {d : Char} (h : Json.readEscape (d :: rest) = some (c, rest)) :
    Json.readChars (fuel + 1) ('\\' :: d :: rest) =
      (Json.readChars fuel rest).map fun x => (c :: x.1, x.2) := by
  rw [Json.readChars, if_neg (by decide), if_pos rfl, h]
  cases hrest : Json.readChars fuel rest with
  | none =>
    simp only [Option.bind_eq_bind, Option.bind_some, hrest, Option.bind_none, Option.map_none]
  | some x =>
    simp only [Option.bind_eq_bind, Option.bind_some, hrest, Option.map_some]
    rfl

theorem readChars_escapeChar (h : ¬ Unescaped c) :
    Json.readChars (fuel + 1) (escapeChar c ++ rest) =
      (Json.readChars fuel rest).map fun x => (c :: x.1, x.2) := by
  by_cases hknown : c ∈ knownChars
  · simp only [knownChars, List.mem_cons, List.not_mem_nil, or_false] at hknown
    rcases hknown with rfl | rfl | rfl | rfl | rfl | rfl | rfl <;> exact readChars_backslash rfl
  · rw [escapeChar_eq_self hknown]
    simp only [knownChars, List.mem_cons, List.not_mem_nil, or_false, not_or] at hknown
    obtain ⟨h1, h2, h3, h4, h5, h6, h7⟩ := hknown
    have hle : ¬ c < ' ' := fun hlt => h ⟨hlt, h3, h4, h5, h6, h7⟩
    rw [List.singleton_append, Json.readChars, if_neg h1, if_neg h2, if_neg hle]
    cases Json.readChars fuel rest <;> rfl

/-- **A string is read back.** -/
theorem readChars_escapeText (h : ∀ c ∈ s, ¬ Unescaped c) (hfuel : s.length < fuel) :
    Json.readChars fuel (escapeText s ++ '"' :: rest) = some (s, rest) := by
  induction s generalizing fuel with
  | nil =>
    obtain ⟨fuel, rfl⟩ := Nat.exists_eq_add_of_lt hfuel
    rfl
  | cons c s ih =>
    rw [List.forall_mem_cons] at h
    obtain ⟨fuel, rfl⟩ : ∃ n, fuel = n + 1 := ⟨fuel - 1, by omega⟩
    have happend : escapeText (c :: s) ++ '"' :: rest =
        escapeChar c ++ (escapeText s ++ '"' :: rest) := by
      simp [escapeText]
    rw [happend, readChars_escapeChar h.1, ih h.2 (by simpa using hfuel)]
    rfl

theorem skip_blank (cs : List Char) : Json.skip (' ' :: cs) = Json.skip cs := rfl

theorem skip_of_isBlank_eq_false (hc : Json.isBlank c = false) : Json.skip (c :: cs) = c :: cs :=
  List.dropWhile_cons_of_neg (by simp [hc])

theorem readValue_string (h : ∀ c ∈ s, ¬ Unescaped c) (hfuel : s.length < fuel) :
    Json.readValue (fuel + 1) (' ' :: '"' :: (escapeText s ++ '"' :: rest)) =
      some (.string s, rest) := by
  rw [Json.readValue, skip_blank, skip_of_isBlank_eq_false (by decide)]
  simp only [if_true, readChars_escapeText h hfuel, Option.map_some]

theorem readMember_memberText {m : List Char × List Char} (h : ∀ c ∈ m.1 ++ m.2, ¬ Unescaped c)
    (hk : m.1.length < k) (hfuel : m.2.length < fuel) :
    Json.readMember (Json.readValue (fuel + 1)) k (memberText m ++ rest) =
      some ((m.1, .string m.2), rest) := by
  rw [List.forall_mem_append] at h
  have htext : memberText m ++ rest = ' ' :: '"' :: (escapeText m.1 ++
      '"' :: ':' :: ' ' :: '"' :: (escapeText m.2 ++ '"' :: rest)) := by
    simp [memberText]
  rw [htext, Json.readMember, skip_blank, skip_of_isBlank_eq_false (by decide)]
  simp only [readChars_escapeText h.1 hk, Option.bind_eq_bind, Option.bind_some]
  rw [skip_of_isBlank_eq_false (by decide)]
  simp only [readValue_string h.2 hfuel, Option.bind_some, Option.pure_def]

/-- What members are read back as. -/
def stringMembers (ms : List (List Char × List Char)) : List (List Char × Json) :=
  ms.map fun m => (m.1, .string m.2)

theorem readItems_membersText {ms : List (List Char × List Char)} {n : ℕ} (hne : ms ≠ [])
    (h : ∀ m ∈ ms, (∀ c ∈ m.1 ++ m.2, ¬ Unescaped c) ∧ m.1.length < k ∧ m.2.length < fuel)
    (hn : ms.length ≤ n) :
    Json.readItems (Json.readMember (Json.readValue (fuel + 1)) k) '}' n (membersText ms ++ rest) =
      some (stringMembers ms, rest) := by
  induction ms generalizing n with
  | nil => exact absurd rfl hne
  | cons m ms ih =>
    obtain ⟨⟨hm, hk, hfuel⟩, hms⟩ := List.forall_mem_cons.mp h
    obtain ⟨n, rfl⟩ : ∃ j, n = j + 1 := ⟨n - 1, by simp at hn; omega⟩
    cases ms with
    | nil =>
      rw [membersText, List.append_assoc, Json.readItems, readMember_memberText hm hk hfuel]
      rfl
    | cons m' ms =>
      have htext : membersText (m :: m' :: ms) ++ rest =
          memberText m ++ ',' :: (membersText (m' :: ms) ++ rest) := by
        simp [membersText]
      rw [htext, Json.readItems, readMember_memberText hm hk hfuel]
      simp only [Option.bind_eq_bind, Option.bind_some]
      rw [skip_of_isBlank_eq_false (by decide)]
      simp only [if_true, ih (by simp) hms (by simpa using hn), Option.bind_some, Option.pure_def]
      rfl

theorem length_le_escapeText (s : List Char) : s.length ≤ (escapeText s).length := by
  induction s with
  | nil => exact le_rfl
  | cons c s ih =>
    have hc : 1 ≤ (escapeChar c).length := by
      rw [escapeChar]
      split_ifs <;> simp
    simp only [escapeText, List.flatMap_cons, List.length_append, List.length_cons] at ih ⊢
    omega

/-- Members are longer than what is in them. -/
theorem length_membersText (ms : List (List Char × List Char)) :
    ms.length ≤ (membersText ms).length ∧
      ∀ m ∈ ms, m.1.length + m.2.length + 2 ≤ (membersText ms).length := by
  have hone : ∀ m, m.1.length + m.2.length + 2 ≤ (memberText m).length := by
    intro m
    have h1 := length_le_escapeText m.1
    have h2 := length_le_escapeText m.2
    simp only [memberText, List.length_append, List.length_cons, List.length_nil]
    omega
  induction ms with
  | nil => exact ⟨Nat.zero_le _, by simp⟩
  | cons m ms ih =>
    have hm := hone m
    cases ms with
    | nil =>
      simp only [membersText, List.length_append, List.length_cons, List.length_nil]
      exact ⟨by omega, by simp; omega⟩
    | cons m' ms =>
      simp only [membersText, List.length_append, List.length_cons] at ih ⊢
      refine ⟨by omega, List.forall_mem_cons.mpr ⟨by omega, fun x hx => ?_⟩⟩
      exact (ih.2 x hx).trans (by omega)

/-- **An object is read back.** -/
theorem parse_membersText {ms : List (List Char × List Char)} (hne : ms ≠ [])
    (h : ∀ m ∈ ms, ∀ c ∈ m.1 ++ m.2, ¬ Unescaped c) :
    Json.parse ('{' :: membersText ms) = some (.object (stringMembers ms)) := by
  obtain ⟨hlen, hmem⟩ := length_membersText ms
  obtain ⟨fuel, hfuel⟩ : ∃ n, (membersText ms).length = n + 1 := by
    obtain ⟨m, hm⟩ := List.exists_mem_of_ne_nil ms hne
    exact ⟨(membersText ms).length - 1, by have := hmem m hm; omega⟩
  have hitems : Json.readItems (Json.readMember (Json.readValue (fuel + 2)) (fuel + 2)) '}'
      (fuel + 2) (membersText ms ++ []) = some (stringMembers ms, []) := by
    refine readItems_membersText hne (fun m hm => ⟨h m hm, ?_⟩) (by omega)
    have hle := hmem m hm
    omega
  rw [List.append_nil] at hitems
  have hhead : (Json.skip (membersText ms)).head? ≠ some '}' := by
    obtain ⟨m, ms, rfl⟩ := List.exists_cons_of_ne_nil hne
    obtain ⟨tail, htail⟩ : ∃ tail, membersText (m :: ms) = ' ' :: '"' :: tail := by
      cases ms <;> exact ⟨_, rfl⟩
    rw [htail, skip_blank, skip_of_isBlank_eq_false (by decide)]
    simp
  rw [Json.parse, List.length_cons, hfuel, Json.readValue, skip_of_isBlank_eq_false (by decide)]
  simp only [Char.reduceEq, if_false, if_true, Json.readList, if_neg hhead, hitems,
    Option.map_some]
  rfl

/-! ### The line -/

/-- The members of an event. -/
def eventMembers (type path message : List Char) : List (List Char × List Char) :=
  [("type".toList, type), ("path".toList, path)] ++
    if message = [] then [] else [("message".toList, message)]

theorem utf8_eq_nil : utf8 cs = [] ↔ cs = [] := by
  constructor
  · intro h
    cases cs with
    | nil => rfl
    | cons c cs =>
      rw [utf8, List.flatMap_cons, List.append_eq_nil_iff, List.map_eq_nil_iff] at h
      exact absurd h.1 String.utf8EncodeChar_ne_nil
  · rintro rfl
    rfl

theorem EventType.escapeText_text (t : EventType) : escapeText t.text = t.text := by
  cases t <;> decide

theorem EventType.ascii_text (t : EventType) : ascii t.text = utf8 t.text := by
  cases t <;> decide

/-- **The line of an event** is an object, a blank and the end of the line. -/
theorem event_eq (t : EventType) (path message : List Char) :
    event true (ascii t.text) (utf8 path) (utf8 message) =
      utf8 ('{' :: membersText (eventMembers t.text path message)) ++ [newline] := by
  have htype : ascii "\x7b \"type\": \"".toList = utf8 "\x7b \"type\": \"".toList := by decide
  have hpath : ascii "\", \"path\": \"".toList = utf8 "\", \"path\": \"".toList := by decide
  have hmessage : ascii ", \"message\": \"".toList = utf8 ", \"message\": \"".toList := by decide
  have hquote : ascii ['"'] = utf8 ['"'] := by decide
  have hend : ascii " \x7d\n".toList = utf8 [' ', '}'] ++ [newline] := by decide
  have hname1 : escapeText "type".toList = "type".toList := by decide
  have hname2 : escapeText "path".toList = "path".toList := by decide
  have hname3 : escapeText "message".toList = "message".toList := by decide
  rw [event, if_neg (by simp), t.ascii_text, htype, hpath, hquote, hend, hmessage, escape_utf8,
    escape_utf8]
  by_cases hm : message = []
  · rw [eventMembers, if_pos hm, if_pos (utf8_eq_nil.mpr hm), List.append_nil, List.append_nil]
    rw [← utf8_append, ← utf8_append, ← utf8_append, ← utf8_append, ← List.append_assoc,
      ← utf8_append]
    refine congrArg (fun cs => utf8 cs ++ [newline]) ?_
    simp only [membersText, memberText, hname1, hname2, t.escapeText_text, List.append_assoc]
    rfl
  · rw [eventMembers, if_neg hm, if_neg (mt utf8_eq_nil.mp hm)]
    rw [← utf8_append, ← utf8_append, ← utf8_append, ← utf8_append, ← utf8_append, ← utf8_append,
      ← utf8_append, ← List.append_assoc, ← utf8_append]
    refine congrArg (fun cs => utf8 cs ++ [newline]) ?_
    simp only [membersText, memberText, hname1, hname2, hname3, t.escapeText_text,
      List.append_assoc, List.cons_append, List.nil_append]
    rfl

/-! ### Which characters are written -/

theorem newline_not_mem_escapeText (s : List Char) : '\n' ∉ escapeText s := by
  intro h
  obtain ⟨c, -, hc⟩ := List.mem_flatMap.mp h
  by_cases hknown : c ∈ knownChars
  · have hall : knownChars.all fun c => '\n' ∉ escapeChar c := by decide
    exact of_decide_eq_true (List.all_eq_true.mp hall c hknown) hc
  · rw [escapeChar_eq_self hknown, List.mem_singleton] at hc
    exact hknown (hc ▸ by decide)

/-- **A line is one line.** -/
theorem newline_not_mem_membersText (ms : List (List Char × List Char)) :
    '\n' ∉ membersText ms := by
  have hone : ∀ m, '\n' ∉ memberText m := fun m => by
    simp [memberText, newline_not_mem_escapeText]
  induction ms with
  | nil => simp [membersText]
  | cons m ms ih =>
    cases ms with
    | nil => simp [membersText, hone]
    | cons m' ms => simp [membersText, hone, ih]

/-- What `escape` does not know is written as it is. -/
theorem mem_escapeText (h : Unescaped c) (hc : c ∈ s) : c ∈ escapeText s := by
  refine List.mem_flatMap.mpr ⟨c, hc, ?_⟩
  rw [escapeChar_eq_self, List.mem_singleton]
  simp only [knownChars, List.mem_cons, List.not_mem_nil, or_false, not_or]
  refine ⟨?_, ?_, h.2⟩ <;>
  · rintro rfl
    exact absurd h.1 (by decide)

theorem mem_membersText {ms : List (List Char × List Char)} {m : List Char × List Char}
    (hm : m ∈ ms) (hc : c ∈ memberText m) : c ∈ membersText ms := by
  induction ms with
  | nil => simp at hm
  | cons m' ms ih =>
    cases ms with
    | nil =>
      rw [List.mem_singleton] at hm
      exact List.mem_append_left _ (hm ▸ hc)
    | cons m'' ms =>
      rw [membersText, List.mem_append, List.mem_cons]
      · rcases List.mem_cons.mp hm with rfl | hm
        · exact .inl hc
        · exact .inr (.inr (ih hm))
      · simp

theorem mem_utf8 (h : c.toNat < 128) (hc : c ∈ cs) : Fin.ofNat 256 c.toNat ∈ utf8 cs := by
  refine List.mem_flatMap.mpr ⟨c, hc, ?_⟩
  have hone := utf8_singleton h
  rw [utf8, List.flatMap_singleton] at hone
  rw [hone]
  exact List.mem_singleton_self _

theorem not_allowed_of_unescaped (h : Unescaped c) : ¬ Json.Allowed c := by
  rintro (hle | hblank)
  · exact Char.not_le.mpr h.1 hle
  · rw [Json.isBlank, decide_eq_true_iff] at hblank
    obtain ⟨hlt, -, -, hn, hr, ht⟩ := h
    rcases hblank with rfl | h | h | h
    · exact absurd hlt (by decide)
    · exact ht h
    · exact hn h
    · exact hr h

end Write

section Line

variable {t : EventType} {path message : List Char} {c : Char}

/-- **A line with a control character in it is no JSON.** -/
theorem not_readsBack_of_unescaped (h : Unescaped c) (hc : c ∈ path ++ message) :
    ¬ LineReadsBack t.text path message (event true (ascii t.text) (utf8 path) (utf8 message)) := by
  rintro ⟨cs, members, hline, -, hparse, -⟩
  rw [event_eq, List.append_cancel_right_eq] at hline
  have hmem : c ∈ '{' :: membersText (eventMembers t.text path message) := by
    refine List.mem_cons_of_mem _ ?_
    rcases List.mem_append.mp hc with hc | hc
    · refine mem_membersText (m := ("path".toList, path)) (List.mem_append_left _
        (List.mem_cons_of_mem _ List.mem_cons_self)) ?_
      simp [memberText, mem_escapeText h hc]
    · have hne : message ≠ [] := List.ne_nil_of_mem hc
      refine mem_membersText (m := ("message".toList, message)) (List.mem_append_right _ ?_) ?_
      · rw [if_neg hne]
        exact List.mem_singleton_self _
      simp [memberText, mem_escapeText h hc]
  have hlt : c.toNat < 128 := by
    have hc32 : c.toNat < 32 := h.1
    omega
  obtain ⟨c', hc', hval⟩ := exists_mem_of_mem_utf8 (hline ▸ mem_utf8 hlt hmem)
    ((Nat.mod_lt_of_lt hlt : c.toNat % 256 < 128))
  have hval' : c'.toNat = c.toNat := hval.trans (Nat.mod_eq_of_lt (by omega))
  rw [Char.toNat_inj] at hval'
  exact not_allowed_of_unescaped h (hval' ▸ Json.parse_allowed hparse c' hc')

/-- **When an event can be read back**: if and only if there is no control character in its path
and message but the five that `escape` knows. -/
theorem event_readsBack_iff (t : EventType) (path message : List Char) :
    LineReadsBack t.text path message (event true (ascii t.text) (utf8 path) (utf8 message)) ↔
      ∀ c ∈ path ++ message, ¬ Unescaped c := by
  constructor
  · exact fun h c hc hu => not_readsBack_of_unescaped hu hc h
  · intro h
    rw [List.forall_mem_append] at h
    have hescaped : ∀ {cs : List Char}, (cs.all fun c => ¬ Unescaped c) = true →
        ∀ c ∈ cs, ¬ Unescaped c :=
      fun hall c hc => of_decide_eq_true (List.all_eq_true.mp hall c hc)
    have htype : ∀ c ∈ t.text, ¬ Unescaped c := hescaped (by cases t <;> decide)
    have hname1 : ∀ c ∈ "type".toList, ¬ Unescaped c := hescaped (by decide)
    have hname2 : ∀ c ∈ "path".toList, ¬ Unescaped c := hescaped (by decide)
    have hname3 : ∀ c ∈ "message".toList, ¬ Unescaped c := hescaped (by decide)
    have hmembers : ∀ m ∈ eventMembers t.text path message, ∀ c ∈ m.1 ++ m.2, ¬ Unescaped c := by
      intro m hm
      rw [List.forall_mem_append]
      rcases List.mem_append.mp hm with hm | hm
      · rcases List.mem_cons.mp hm with rfl | hm
        · exact ⟨hname1, htype⟩
        · exact List.mem_singleton.mp hm ▸ ⟨hname2, h.1⟩
      · split_ifs at hm with hnil
        · simp at hm
        · rw [List.mem_singleton] at hm
          exact hm ▸ ⟨hname3, h.2⟩
    have hne : eventMembers t.text path message ≠ [] := List.cons_ne_nil _ _
    refine ⟨_, _, event_eq t path message, ?_, parse_membersText hne hmembers, ?_, ?_, ?_⟩
    · intro hmem
      obtain ⟨c, hc, hval⟩ := exists_mem_of_mem_utf8 hmem (by decide)
      obtain rfl : c = '\n' := Char.toNat_inj.mp hval
      exact newline_not_mem_membersText _ ((List.mem_cons.mp hc).resolve_left (by decide))
    · rfl
    · rfl
    · by_cases hm : message = []
      · rw [eventMembers, if_pos hm, if_pos hm]
        rfl
      · rw [eventMembers, if_neg hm, if_neg hm]
        rfl

end Line

/-- A path with the character 1 in it. -/
theorem event_not_readsBack : ¬ ∀ (t : EventType) (path message : List Char),
    LineReadsBack t.text path message (event true (ascii t.text) (utf8 path) (utf8 message)) :=
  fun h => not_readsBack_of_unescaped (c := Char.ofNat 1) (by decide) (by decide)
    (h .evict [Char.ofNat 1] [])

end Fstree
