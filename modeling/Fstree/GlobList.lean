import Fstree.Foundations.Regex
import Fstree.Model.Digest
import Fstree.Model.Path
import Mathlib.Data.List.Chain

/-!
# Ignore patterns

A `glob_list` translates its patterns to one regular expression, character by character:
`glob_list::compile` (`Fstree.compileText` is the text it makes, `Fstree.compile` the
expression that `std::regex` makes of it), and `glob_list::match` runs it on a whole path.

What it should mean are the rules of `.gitignore` files (`Fstree.Ignored`): the segments of a
pattern match names, and a segment `**` any number of names. The expression has other rules
(`Fstree.Taken`). A `?` is a `.`, which is also a slash; a `**`, together with the slash after
it, is a part of a name followed by names of one character each; and a `.` is no line
terminator. So a path can be taken that no pattern ignores, and one that a pattern does ignore
can be passed over (`Fstree.globMatch_not_ignored`). A path without line terminators is matched as
it should be by patterns that have a `?` at the ends of their segments only, and a `**` only at
their own end (`Fstree.globMatch_iff`).
-/

namespace Fstree

open Codec Computability
open Regex (one many denotes_cls denotes_star_cls fullMatch_start fullMatch_alt)

/-! ### Adding patterns -/

/-- The byte `*`. -/
def asterisk : Byte := 42

/-- The byte `?`. -/
def question : Byte := 63

/-- A pattern without the slashes that end it. -/
def stripSlashes (p : Bytes) : Bytes := (p.reverse.dropWhile (· = slash)).reverse

/-- **`glob_list::add`**: `_inclusive_patterns` with the pattern, if something is left of it. -/
def addPattern (patterns : List Bytes) (input : Bytes) : Except String (List Bytes) :=
  match stripSlashes input with
  | [] => .ok patterns
  | c :: p =>
    -- a `!`
    if c = 33 then .error "negated patterns are not supported" else .ok (patterns ++ [c :: p])

/-! ### Translating them -/

/-- **A piece of a translated pattern.** -/
inductive GlobPiece
  | literal (c : Byte)
  /-- Of a `?`. -/
  | any
  /-- Of a `*`. -/
  | run
  /-- Of a `**`, and of a slash after it. -/
  | deep

/-- The text of a piece. -/
def GlobPiece.text : GlobPiece → Bytes
  | literal c => if c = dot then ascii ['\\', '.'] else [c]
  | any => ascii ['.']
  | run => ascii ['[', '^', '/', ']', '*']
  | deep => ascii ['(', '[', '^', '/', ']', '*', '(', '/', '[', '^', '/', ']', ')', '*', ')', '(',
      '/', '?', ')']

/-- The loop of `glob_list::compile` over the characters of a pattern, with `star` and
`skip_slash`. -/
def scanPattern : Bool → Bool → Bytes → List GlobPiece
  | star, _, [] => if star then [.run] else []
  | star, skip, c :: p =>
    if skip ∧ c = slash then scanPattern star false p
    else if star ∧ c = asterisk then .deep :: scanPattern false true p
    else
      (if star then [GlobPiece.run] else []) ++
        if c = asterisk then scanPattern true false p
        else if c = question then .any :: scanPattern false false p
        else .literal c :: scanPattern false false p

/-- The pattern begins with a slash. -/
def anchored (p : Bytes) : Bool := p.head? = some slash

/-- The pieces of a pattern; a slash that begins it is not one. -/
def pieces (p : Bytes) : List GlobPiece :=
  scanPattern false false (if anchored p then p.tail else p)

/-- The text of a pattern. -/
def patternText (p : Bytes) : Bytes :=
  ascii ['('] ++
    (if p = [] then [] else if anchored p then ascii ['^']
      else ascii ['(', '.', '*', '/', ')', '?']) ++
    (pieces p).flatMap GlobPiece.text ++
    ascii ['(', '/', '.', '*', ')', '?', ')', '$']

/-- **`glob_list::compile`**: the text of the regular expression. -/
def compileText (patterns : List Bytes) : Bytes :=
  patterns.foldl
    (fun text p => (if text = [] then ascii ['^'] else text ++ ascii ['|']) ++ patternText p) []

/-- What a `.` does not match. -/
def lineTerminator (c : Byte) : Bool := c = 10 ∨ c = 13

/-- `.` -/
def anyByte : Byte → Bool := fun c => !lineTerminator c

/-- `[^/]` -/
def noSlash : Byte → Bool := fun c => c ≠ slash

/-- `/` -/
def aSlash : Byte → Bool := fun c => c = slash

/-- A piece as a regular expression. -/
def GlobPiece.regex : GlobPiece → Regex Byte
  | literal c => .cls fun b => b = c
  | any => .cls anyByte
  | run => .star (.cls noSlash)
  | deep =>
    .seq (.seq (.star (.cls noSlash)) (.star (.seq (.cls aSlash) (.cls noSlash))))
      (.opt (.cls aSlash))

/-- `(.*/)?`, which begins a pattern that is not anchored. -/
def beforeRegex : Regex Byte := .opt (.seq (.star (.cls anyByte)) (.cls aSlash))

/-- `(/.*)?`, which ends every pattern. -/
def afterRegex : Regex Byte := .opt (.seq (.cls aSlash) (.star (.cls anyByte)))

/-- The pieces, what is after them, and the end of the text. -/
def piecesRegex : List GlobPiece → Regex Byte
  | [] => .seq afterRegex .stop
  | piece :: ps => .seq piece.regex (piecesRegex ps)

/-- A pattern as a regular expression. -/
def patternRegex (p : Bytes) : Regex Byte :=
  if p = [] then piecesRegex (pieces p)
  else if anchored p then .seq .start (piecesRegex (pieces p))
  else .seq beforeRegex (piecesRegex (pieces p))

/-- **What `std::regex` makes of the text.** -/
def compile : List Bytes → Regex Byte
  | [] => .empty
  | p :: ps => ps.foldl (fun r q => .alt r (patternRegex q)) (.seq .start (patternRegex p))

example : compileText [ascii ['s', '/', '*', '*', '/', '?', '.', 'c'], ascii ['/', 'a', '*']] =
    ascii "^((.*/)?s/([^/]*(/[^/])*)(/?).\\.c(/.*)?)$|(^a[^/]*(/.*)?)$".toList := by decide

/-- **`glob_list::match`**, with the inclusive patterns. There are no others. -/
def matchPath (inclusive : List Bytes) (path : Bytes) : Bool :=
  if (compile []).fullMatch path then false else (compile inclusive).fullMatch path

/-- A list of patterns is made, and a path matched with it. -/
def globMatch (patterns : List Bytes) (path : Bytes) : Except String Bool := do
  let inclusive ← patterns.foldlM addPattern []
  return matchPath inclusive path

/-! ### The rules of ignore files -/

/-- **A segment of a pattern matches a name**: a `?` any character, a `*` any number of
characters, and anything else itself. There is no slash in a name. -/
inductive SegMatch : Bytes → Bytes → Prop
  | nil : SegMatch [] []
  | literal {c p b} (hc : c ≠ asterisk ∧ c ≠ question) (h : SegMatch p b) :
      SegMatch (c :: p) (c :: b)
  | question {c p b} (h : SegMatch p b) : SegMatch (question :: p) (c :: b)
  | asterisk {w p b} (h : SegMatch p b) : SegMatch (asterisk :: p) (w ++ b)

/-- The segment `**`. -/
def deepSegment : Bytes := [asterisk, asterisk]

/-- **The segments of a pattern match names**, where a segment matches a name as `M` says: a
`**` with segments after it any number of names, a `**` at the end at least one. -/
inductive SegsMatch (M : Bytes → Bytes → Prop) : List Bytes → List Name → Prop
  | nil : SegsMatch M [] []
  | name {seg segs n ns} (hseg : seg ≠ deepSegment) (h : M seg n.bytes)
      (hs : SegsMatch M segs ns) : SegsMatch M (seg :: segs) (n :: ns)
  | deep {segs ms ns} (hsegs : segs ≠ []) (hs : SegsMatch M segs ns) :
      SegsMatch M (deepSegment :: segs) (ms ++ ns)
  | last {ns} (hns : ns ≠ []) : SegsMatch M [deepSegment] ns

/-- The segments of a pattern, without the slash that begins it. -/
def segments (p : Bytes) : List Bytes := (if anchored p then p.tail else p).splitOn slash

/-- **A path is ignored**: a pattern matches it, or a directory above it, from the root if the
pattern is anchored, or else from any directory. Slashes that end a pattern do not count. -/
def Ignored (patterns : List Bytes) (x : List Name) : Prop :=
  ∃ p ∈ patterns.map stripSlashes, ∃ up ns below, x = up ++ ns ++ below ∧
    (anchored p = true → up = []) ∧ SegsMatch SegMatch (segments p) ns

/-! ### The rules of the regular expression -/

/-- The character `/` alone. -/
def slashes : Language Byte := one aSlash

/-- **What a piece takes.** -/
def GlobPiece.language : GlobPiece → Language Byte
  | literal c => one fun b => b = c
  | any => one anyByte
  | run => many noSlash
  | deep => many noSlash * (slashes * one noSlash)∗ * (slashes + 1)

/-- What pieces take one after the other. -/
def takes (ps : List GlobPiece) : Language Byte := (ps.map GlobPiece.language).prod

/-- No line terminator is in the bytes. -/
def Clear (bs : Bytes) : Prop := ∀ c ∈ bs, anyByte c = true

/-- **The expression takes a path**: its pieces take some of the names, with the slashes
between them, and there is no line terminator in what is before these and after them. -/
def TakenBy (p : Bytes) (x : List Name) : Prop :=
  ∃ up ns below, x = up ++ ns ++ below ∧ ns ≠ [] ∧ (anchored p = true → up = []) ∧
    Clear (pathStr up) ∧ Clear (pathStr below) ∧ pathStr ns ∈ takes (pieces p)

/-- A path is taken by one of the patterns. -/
def Taken (patterns : List Bytes) (x : List Name) : Prop :=
  ∃ p ∈ patterns.map stripSlashes, p ≠ [] ∧ TakenBy p x

/-! ### What the expression matches -/

theorem GlobPiece.denotes (piece : GlobPiece) : piece.regex.Denotes piece.language := by
  cases piece with
  | literal c => exact denotes_cls _
  | any => exact denotes_cls _
  | run => exact denotes_star_cls _
  | deep =>
    exact ((denotes_star_cls _).seq ((denotes_cls _).seq (denotes_cls _)).star).seq
      (denotes_cls _).opt

/-- What may come before the pieces. -/
def before (p : Bytes) : Language Byte := if anchored p then 1 else many anyByte * slashes + 1

/-- What may come after them. -/
def after : Language Byte := slashes * many anyByte + 1

theorem denotes_afterRegex : afterRegex.Denotes after :=
  ((denotes_cls _).seq (denotes_star_cls _)).opt

theorem ends_piecesRegex (ps : List GlobPiece) : (piecesRegex ps).Ends (takes ps * after) := by
  induction ps with
  | nil =>
    rw [takes, List.map_nil, List.prod_nil, one_mul]
    exact denotes_afterRegex.ends_stop
  | cons piece ps ih =>
    rw [takes, List.map_cons, List.prod_cons, mul_assoc]
    exact piece.denotes.seq_ends ih

/-- **The language of a pattern.** -/
theorem fullMatch_patternRegex {p : Bytes} (hp : p ≠ []) (t : Bytes) :
    (patternRegex p).fullMatch t = true ↔ t ∈ before p * (takes (pieces p) * after) := by
  rw [patternRegex, if_neg hp, before]
  split_ifs
  · rw [fullMatch_start, (ends_piecesRegex _).fullMatch, one_mul]
  · have hbefore : beforeRegex.Denotes (many anyByte * slashes + 1) :=
      ((denotes_star_cls _).seq (denotes_cls _)).opt
    exact (hbefore.seq_ends (ends_piecesRegex _)).fullMatch

/-- **What all patterns match.** -/
theorem fullMatch_compile {patterns : List Bytes} (hne : patterns ≠ []) (t : Bytes) :
    (compile patterns).fullMatch t = true ↔
      ∃ p ∈ patterns, (patternRegex p).fullMatch t = true := by
  obtain ⟨p, ps, rfl⟩ := List.exists_cons_of_ne_nil hne
  have key : ∀ r : Regex Byte,
      (ps.foldl (fun r q => .alt r (patternRegex q)) r).fullMatch t = true ↔
        r.fullMatch t = true ∨ ∃ q ∈ ps, (patternRegex q).fullMatch t = true := by
    induction ps with
    | nil => simp
    | cons q ps ih => exact fun r => by simp [ih, fullMatch_alt, or_assoc]
  rw [compile, key, fullMatch_start]
  simp

theorem mem_slashes {w : Bytes} : w ∈ slashes ↔ w = [slash] := by
  constructor
  · rintro ⟨a, rfl, ha⟩
    rw [of_decide_eq_true ha]
  · rintro rfl
    exact ⟨slash, rfl, by decide⟩

theorem mem_after {w : Bytes} : w ∈ after ↔ w = [] ∨ ∃ v, w = slash :: v ∧ Clear v := by
  rw [after, Language.mem_add, Language.mem_mul, Language.mem_one, or_comm]
  refine or_congr_right ⟨?_, ?_⟩
  · rintro ⟨u, hu, v, hv, rfl⟩
    exact ⟨v, by rw [mem_slashes.mp hu]; rfl, hv⟩
  · rintro ⟨v, rfl, hv⟩
    exact ⟨[slash], mem_slashes.mpr rfl, v, hv, rfl⟩

theorem mem_before {p w : Bytes} : w ∈ before p ↔
    w = [] ∨ anchored p = false ∧ ∃ v, w = v ++ [slash] ∧ Clear v := by
  rw [before]
  split_ifs with ha
  · simp [ha, Language.mem_one]
  · rw [Language.mem_add, Language.mem_mul, Language.mem_one, or_comm]
    refine or_congr_right ⟨?_, ?_⟩
    · rintro ⟨v, hv, u, hu, rfl⟩
      exact ⟨by simpa using ha, v, by rw [mem_slashes.mp hu], hv⟩
    · rintro ⟨-, v, rfl, hv⟩
      exact ⟨v, hv, [slash], mem_slashes.mpr rfl, rfl⟩

/-- **A pattern takes the path string of a path by the names of the path.** -/
theorem mem_language_iff {p : Bytes} {x : List Name} (hx : x ≠ []) :
    pathStr x ∈ before p * (takes (pieces p) * after) ↔ TakenBy p x := by
  constructor
  · rintro ⟨u, hu, t, ⟨w, hw, v, hv, rfl⟩, he⟩
    -- the names before the pieces are cut off at a slash, and those after them
    obtain ⟨up, rest, rfl, hrest, hanch, hup, hrestw⟩ : ∃ up rest, x = up ++ rest ∧ rest ≠ [] ∧
        (anchored p = true → up = []) ∧ Clear (pathStr up) ∧ pathStr rest = w ++ v := by
      rcases mem_before.mp hu with rfl | ⟨ha, u', rfl, hclear⟩
      · exact ⟨[], x, rfl, hx, fun _ => rfl, nofun, he.symm⟩
      · obtain ⟨up, rest, rfl, -, hrest, rfl, hrestw⟩ :=
          @pathStr_cut x u' (w ++ v) (by simpa using he.symm)
        exact ⟨up, rest, rfl, hrest, fun h => by simp [ha] at h, hclear, hrestw⟩
    rcases mem_after.mp hv with rfl | ⟨v', rfl, hclear⟩
    · rw [List.append_nil] at hrestw
      exact ⟨up, rest, [], by simp, hrest, hanch, hup, nofun, hrestw ▸ hw⟩
    · obtain ⟨ns, below, rfl, hns, -, rfl, rfl⟩ := pathStr_cut hrestw
      exact ⟨up, ns, below, by simp, hns, hanch, hup, hclear, hw⟩
  · rintro ⟨up, ns, below, rfl, hns, hanch, hup, hbelow, hw⟩
    have hafter : ∃ v ∈ after, pathStr (ns ++ below) = pathStr ns ++ v := by
      by_cases hb : below = []
      · exact ⟨[], mem_after.mpr (Or.inl rfl), by simp [hb]⟩
      · exact ⟨_, mem_after.mpr (Or.inr ⟨_, rfl, hbelow⟩), pathStr_append hns hb⟩
    obtain ⟨v, hv, hnb⟩ := hafter
    have hbefore : ∃ u ∈ before p, pathStr (up ++ (ns ++ below)) = u ++ pathStr (ns ++ below) := by
      by_cases hu : up = []
      · exact ⟨[], mem_before.mpr (Or.inl rfl), by simp [hu]⟩
      · have ha : anchored p = false := by
          rw [← Bool.not_eq_true]
          exact fun h => hu (hanch h)
        refine ⟨pathStr up ++ [slash], mem_before.mpr (Or.inr ⟨ha, _, rfl, hup⟩), ?_⟩
        rw [pathStr_append hu (by simp [hns])]
        simp
    obtain ⟨u, hu, hub⟩ := hbefore
    rw [List.append_assoc, hub, hnb]
    exact Language.append_mem_mul hu (Language.append_mem_mul hw hv)

theorem stripSlashes_prefix (p : Bytes) : stripSlashes p <+: p := by
  have h := List.reverse_prefix.mpr (List.dropWhile_suffix (· = slash) (l := p.reverse))
  rwa [List.reverse_reverse] at h

theorem stripSlashes_eq {p : Bytes} (hlast : p.getLast? ≠ some slash) : stripSlashes p = p := by
  rw [stripSlashes]
  cases hr : p.reverse with
  | nil => simpa using hr.symm
  | cons c q =>
    have hc : c ≠ slash := by
      rintro rfl
      exact hlast (by rw [List.getLast?_eq_head?_reverse, hr]; rfl)
    rw [List.dropWhile_cons_of_neg (by simpa using hc), ← hr, List.reverse_reverse]

/-- A pattern is added as it is, without the slashes at its end, unless nothing is left. -/
theorem addPattern_eq {p : Bytes} (h : p.head? ≠ some 33) (inclusive : List Bytes) :
    addPattern inclusive p = .ok (inclusive ++ [stripSlashes p].filter (· ≠ [])) := by
  rw [addPattern]
  split
  · rename_i he
    simp [he]
  · rename_i c q he
    have hc : c ≠ 33 := by
      rintro rfl
      obtain ⟨t, ht⟩ := stripSlashes_prefix p
      rw [he] at ht
      exact h (by rw [← ht]; rfl)
    simp [he, hc]

/-- **The patterns that are kept**, where none is negated. -/
theorem addPatterns_eq {patterns inclusive : List Bytes} (h : ∀ p ∈ patterns, p.head? ≠ some 33) :
    patterns.foldlM addPattern inclusive =
      .ok (inclusive ++ (patterns.map stripSlashes).filter (· ≠ [])) := by
  induction patterns generalizing inclusive with
  | nil => simp; rfl
  | cons p ps ih =>
    obtain ⟨hp, hps⟩ := List.forall_mem_cons.mp h
    rw [List.foldlM_cons, addPattern_eq hp]
    change ps.foldlM addPattern _ = _
    rw [ih hps, List.map_cons, List.append_assoc, ← List.filter_append]
    rfl

/-- **What a list of patterns matches**, of all paths. -/
theorem matchPath_iff {inclusive : List Bytes} (hne : ∀ p ∈ inclusive, p ≠ []) (x : List Name) :
    matchPath inclusive (pathStr x) = true ↔ ∃ p ∈ inclusive, TakenBy p x := by
  have hempty : ∀ t : Bytes, (compile []).fullMatch t = t.isEmpty := fun t => by
    simp [compile, Regex.fullMatch, Regex.run]
  rw [matchPath, hempty]
  by_cases hx : x = []
  · subst hx
    simp only [pathStr_nil, List.isEmpty_nil, if_true, Bool.false_eq_true, false_iff]
    rintro ⟨p, -, up, ns, below, he, hns, -⟩
    simp [hns] at he
  · have hpath : (pathStr x).isEmpty = false := by simpa using hx
    rw [hpath, if_neg (by simp)]
    by_cases hi : inclusive = []
    · subst hi
      rw [hempty, hpath]
      simp
    · rw [fullMatch_compile hi]
      refine exists_congr fun p => and_congr_right fun hp => ?_
      rw [fullMatch_patternRegex (hne p hp), mem_language_iff hx]

/-! ### Where the rules agree -/

/-- The characters of patterns: letters, digits, and `_`, `-`, `.`, `/`, `*` and `?`. -/
def globByte (c : Byte) : Bool :=
  (65 ≤ c ∧ c ≤ 90) ∨ (97 ≤ c ∧ c ≤ 122) ∨ (48 ≤ c ∧ c ≤ 57) ∨ c = 95 ∨ c = 45 ∨ c = dot ∨
    c = slash ∨ c = asterisk ∨ c = question

/-- **Matching a path**: it is taken. -/
theorem globMatch_eq {patterns : List Bytes} (h : ∀ p ∈ patterns, ∀ c ∈ p, globByte c = true)
    (x : List Name) : globMatch patterns (pathStr x) = .ok true ↔ Taken patterns x := by
  have hneg : ∀ p ∈ patterns, p.head? ≠ some 33 := fun p hp he =>
    absurd (h p hp 33 (List.mem_of_head? he)) (by decide)
  rw [globMatch, addPatterns_eq hneg]
  change Except.ok (matchPath _ _) = Except.ok true ↔ _
  rw [Except.ok.injEq, List.nil_append, matchPath_iff (by simp), Taken]
  simp only [List.mem_filter, decide_eq_true_eq, and_assoc]

/-! ### Plain patterns -/

/-- **A plain segment**: with a `?` at its ends only, where no slash can stand, and without two
`*` in a row. -/
structure PlainSegment (s : Bytes) : Prop where
  question : question ∉ s.tail.dropLast
  asterisk : s.IsChain fun a b => a = asterisk → b ≠ asterisk

/-- **A plain pattern**: its segments are plain, but for a `**` at the end. -/
def PlainPattern (p : Bytes) : Prop :=
  ∃ segs last, segments p = segs ++ [last] ∧ (∀ s ∈ segs, PlainSegment s) ∧
    (PlainSegment last ∨ last = deepSegment)

/-- The pieces of a plain segment. -/
def segmentPieces (s : Bytes) : List GlobPiece :=
  s.map fun c => if c = asterisk then .run else if c = question then .any else .literal c

section Plain

variable {s t w : Bytes} {segs : List Bytes} {ns : List Name}

theorem SegMatch.eq_nil (h : SegMatch [] w) : w = [] := by
  cases h
  rfl

theorem PlainSegment.tail {c : Byte} (h : PlainSegment (c :: s)) : PlainSegment s where
  question hq := by
    rw [← List.tail_dropLast] at hq
    exact h.question (List.mem_of_mem_tail hq)
  asterisk := h.asterisk.tail

/-- After its first character a plain segment has a `?` at the end only. -/
theorem eq_nil_of_question {c : Byte} (h : PlainSegment (c :: question :: s)) : s = [] := by
  by_contra hs
  refine h.question ?_
  rw [List.tail_cons, List.dropLast_cons_of_ne_nil hs]
  exact List.mem_cons_self

/-- **The pieces of a plain segment that a slash or nothing follows.** -/
theorem scanPattern_plain (hs : PlainSegment s) (ht : t = [] ∨ t.head? = some slash) :
    scanPattern false false (s ++ t) = segmentPieces s ++ scanPattern false false t ∧
      (s.head? ≠ some asterisk → scanPattern true false (s ++ t) =
        .run :: (segmentPieces s ++ scanPattern false false t)) := by
  induction s with
  | nil =>
    refine ⟨rfl, fun _ => ?_⟩
    rcases ht with rfl | ht
    · rfl
    · obtain ⟨t, rfl⟩ : ∃ t', t = slash :: t' := by
        cases t with
        | nil => cases ht
        | cons c t => exact ⟨t, by rw [Option.some.inj ht]⟩
      rfl
  | cons c s ih =>
    obtain ⟨ih₁, ih₂⟩ := ih hs.tail
    by_cases hc : c = asterisk
    · subst hc
      have hhead : s.head? ≠ some asterisk := by
        intro h
        cases s with
        | nil => cases h
        | cons d s =>
          exact (List.isChain_cons_cons.mp hs.asterisk).1 rfl (Option.some.inj h)
      refine ⟨?_, fun h => absurd rfl h⟩
      rw [List.cons_append, scanPattern]
      simpa [segmentPieces] using ih₂ hhead
    · have hscan : (if c = question then GlobPiece.any :: scanPattern false false (s ++ t)
          else .literal c :: scanPattern false false (s ++ t)) =
          segmentPieces (c :: s) ++ scanPattern false false t := by
        rw [ih₁]
        by_cases hq : c = question
        · simp [segmentPieces, hq, show question ≠ asterisk by decide]
        · simp [segmentPieces, hc, hq]
      constructor
      · rw [List.cons_append, scanPattern, ← hscan]
        simp [hc]
      · intro _
        rw [List.cons_append, scanPattern, ← hscan]
        simp [hc]

theorem PlainSegment.ne_deep (h : PlainSegment s) : s ≠ deepSegment := by
  rintro rfl
  exact (List.isChain_cons_cons.mp h.asterisk).1 rfl rfl

/-- The pieces of a pattern of plain segments and another one. -/
theorem scanPattern_segments (hsegs : ∀ s ∈ segs, PlainSegment s) (last : Bytes) :
    scanPattern false false ([slash].intercalate (segs ++ [last])) =
      (segs.flatMap fun s => segmentPieces s ++ [.literal slash]) ++
        scanPattern false false last := by
  induction segs with
  | nil => simp
  | cons s segs ih =>
    obtain ⟨hs, hsegs⟩ := List.forall_mem_cons.mp hsegs
    have hslash : ∀ t, scanPattern false false (slash :: t) =
        .literal slash :: scanPattern false false t := fun t => by
      rw [scanPattern]
      rfl
    rw [List.cons_append, List.intercalate_cons_of_ne_nil (by simp), List.append_assoc,
      (scanPattern_plain hs (Or.inr rfl)).1, List.singleton_append, hslash, ih hsegs]
    simp

/-- The pieces of a pattern, by its segments. -/
theorem pieces_plain {p last : Bytes} (hseg : segments p = segs ++ [last])
    (hsegs : ∀ s ∈ segs, PlainSegment s) :
    pieces p = (segs.flatMap fun s => segmentPieces s ++ [.literal slash]) ++
      scanPattern false false last := by
  rw [← scanPattern_segments hsegs, ← hseg, segments, List.intercalate_splitOn]
  rfl

theorem takes_cons (piece : GlobPiece) (ps : List GlobPiece) :
    takes (piece :: ps) = piece.language * takes ps := by
  rw [takes, List.map_cons, List.prod_cons]
  rfl

theorem takes_append (ps qs : List GlobPiece) : takes (ps ++ qs) = takes ps * takes qs := by
  rw [takes, List.map_append, List.prod_append]
  rfl

theorem mem_literal {c : Byte} : w ∈ (GlobPiece.literal c).language ↔ w = [c] := by
  constructor
  · rintro ⟨a, rfl, ha⟩
    rw [of_decide_eq_true ha]
  · rintro rfl
    exact ⟨c, rfl, by simp⟩

theorem mem_any : w ∈ GlobPiece.any.language ↔ ∃ b, w = [b] ∧ anyByte b = true :=
  ⟨fun ⟨b, hw, hb⟩ => ⟨b, hw, hb⟩, fun ⟨b, hw, hb⟩ => ⟨b, hw, hb⟩⟩

theorem mem_run : w ∈ GlobPiece.run.language ↔ slash ∉ w := by
  refine ⟨fun h hs => ?_, fun h a ha => decide_eq_true fun he => h (he ▸ ha)⟩
  exact of_decide_eq_true (h slash hs) rfl

/-- No wildcards are in the pattern. -/
def Literal (p : Bytes) : Prop := asterisk ∉ p ∧ question ∉ p

theorem literal_cons {c : Byte} {p : Bytes} :
    Literal (c :: p) ↔ (c ≠ asterisk ∧ c ≠ question) ∧ Literal p := by
  simp only [Literal, List.mem_cons, not_or, ne_comm (a := c)]
  tauto

/-- The pieces of characters that stand for themselves. -/
theorem scanPattern_literal {p : Bytes} (hp : Literal p) (t : Bytes) :
    scanPattern false false (p ++ t) = p.map .literal ++ scanPattern false false t := by
  induction p with
  | nil => rfl
  | cons c p ih =>
    obtain ⟨⟨hc, hq⟩, htail⟩ := literal_cons.mp hp
    rw [List.cons_append, scanPattern, ih htail]
    simp [hc, hq]

theorem scanPattern_eq_literal {p : Bytes} (hp : Literal p) :
    scanPattern false false p = p.map .literal := by
  simpa [scanPattern] using scanPattern_literal hp []

theorem mem_takes_literal {p : Bytes} : w ∈ takes (p.map .literal) ↔ w = p := by
  induction p generalizing w with
  | nil => exact Language.mem_one w
  | cons c p ih =>
    rw [List.map_cons, takes_cons, Language.mem_mul]
    constructor
    · rintro ⟨u, hu, v, hv, rfl⟩
      rw [mem_literal.mp hu, ih.mp hv]
      rfl
    · rintro rfl
      exact ⟨[c], mem_literal.mpr rfl, p, ih.mpr rfl, rfl⟩

/-- The pieces of a `**` at the end take a name. -/
theorem mem_takes_deep (n : Name) : n.bytes ∈ takes (scanPattern false false deepSegment) := by
  refine ⟨n.bytes, ⟨n.bytes, ⟨n.bytes, mem_run.mpr n.slash_notMem, [], ?_, ?_⟩, [], ?_, ?_⟩, [],
    Language.nil_mem_one, ?_⟩
  · exact Language.nil_mem_kstar _
  · simp
  · exact Or.inr rfl
  · simp
  · simp

/-- A `?` after the first character takes no slash, where none is to end what is taken. -/
theorem head?_ne_of_question {c : Byte} (hs : PlainSegment (c :: s))
    (hw : w ∈ takes (segmentPieces s)) (hlast : w.getLast? ≠ some slash)
    (hq : s.head? = some question) : w.head? ≠ some slash := by
  intro hhead
  obtain ⟨s, rfl⟩ : ∃ s', s = question :: s' := by
    cases s with
    | nil => cases hq
    | cons d s => exact ⟨s, by rw [Option.some.inj hq]⟩
  -- it is the last character, and takes the last one
  obtain rfl := eq_nil_of_question hs
  obtain ⟨b, hb, t, ht, rfl⟩ := hw
  obtain ⟨b, rfl, -⟩ := mem_any.mp hb
  obtain rfl : t = [] := (Language.mem_one t).mp ht
  obtain rfl : b = slash := Option.some.inj hhead
  exact hlast rfl

/-- **What the pieces of a plain segment take**, of what no slash begins or ends: a `?` at either
end of the segment does not come to a slash. -/
theorem mem_takes_segmentPieces (hs : PlainSegment s) (hslash : slash ∉ s) (hclear : Clear w)
    (hhead : s.head? = some question → w.head? ≠ some slash) (hlast : w.getLast? ≠ some slash) :
    w ∈ takes (segmentPieces s) ↔ slash ∉ w ∧ SegMatch s w := by
  induction s generalizing w with
  | nil =>
    change w ∈ (1 : Language Byte) ↔ _
    rw [Language.mem_one]
    constructor
    · rintro rfl
      exact ⟨List.not_mem_nil, .nil⟩
    · rintro ⟨-, h⟩
      cases h
      rfl
  | cons c s ih =>
    obtain ⟨hc, hslash⟩ := List.ne_and_not_mem_of_not_mem_cons hslash
    have hclear' : ∀ {u v : Bytes}, w = u ++ v → Clear v := fun he b hb =>
      hclear b (by simp [he, hb])
    have hlast' : ∀ {u v : Bytes}, w = u ++ v → v.getLast? ≠ some slash := fun {u v} he hv => by
      rw [he, List.getLast?_append, hv] at hlast
      exact hlast rfl
    rw [segmentPieces, List.map_cons, takes_cons, Language.mem_mul]
    constructor
    · rintro ⟨u, hu, v, hv, rfl⟩
      obtain ⟨hvs, hvm⟩ := (ih hs.tail hslash (hclear' rfl)
        (head?_ne_of_question hs hv (hlast' rfl)) (hlast' rfl)).mp hv
      by_cases hstar : c = asterisk
      · subst hstar
        rw [if_pos rfl] at hu
        exact ⟨by simpa using ⟨mem_run.mp hu, hvs⟩, .asterisk hvm⟩
      · rw [if_neg hstar] at hu
        by_cases hq : c = question
        · subst hq
          obtain ⟨b, rfl, -⟩ := mem_any.mp hu
          have hb : slash ≠ b := fun he => hhead rfl (by simp [he])
          exact ⟨by simpa using ⟨hb, hvs⟩, .question hvm⟩
        · rw [if_neg hq] at hu
          rw [mem_literal.mp hu]
          exact ⟨by simpa using ⟨hc, hvs⟩, .literal ⟨hstar, hq⟩ hvm⟩
    · rintro ⟨hw, h⟩
      have hrest : ∀ {u v : Bytes}, w = u ++ v → SegMatch s v → v ∈ takes (segmentPieces s) :=
        fun {u v} he hm => by
          have hvs : slash ∉ v := fun hb => hw (by simp [he, hb])
          exact (ih hs.tail hslash (hclear' he) (fun _ hv => hvs (List.mem_of_head? hv))
            (hlast' he)).mpr ⟨hvs, hm⟩
      cases h with
      | @literal c p b hcb h =>
        rw [if_neg hcb.1, if_neg hcb.2]
        exact ⟨[c], mem_literal.mpr rfl, b, hrest (List.singleton_append.symm) h, rfl⟩
      | @question c p b h =>
        rw [if_neg (by decide), if_pos rfl]
        exact ⟨[c], mem_any.mpr ⟨c, rfl, hclear c List.mem_cons_self⟩, b,
          hrest (List.singleton_append.symm) h, rfl⟩
      | @asterisk u p v h =>
        rw [if_pos rfl]
        exact ⟨u, mem_run.mpr fun hu => hw (List.mem_append_left _ hu), v, hrest rfl h, rfl⟩

/-- One name is written, if there is no slash in it. -/
theorem eq_singleton_of_slash_notMem (hns : ns ≠ []) (h : slash ∉ pathStr ns) :
    ∃ n, ns = [n] := by
  match ns, hns with
  | [n], _ => exact ⟨n, rfl⟩
  | n :: m :: ns, _ => simp [pathStr_cons_cons] at h

theorem Clear.split {ms : List Name} (h : Clear (pathStr (ns ++ ms))) :
    Clear (pathStr ns) ∧ Clear (pathStr ms) := by
  by_cases hn : ns = []
  · subst hn
    exact ⟨nofun, h⟩
  · by_cases hm : ms = []
    · subst hm
      exact ⟨by simpa using h, nofun⟩
    · rw [pathStr_append hn hm] at h
      exact ⟨fun c hc => h c (List.mem_append_left _ hc),
        fun c hc => h c (List.mem_append_right _ (List.mem_cons_of_mem _ hc))⟩

/-- **What plain segments and the pieces after them take**: names that the segments match, and
what is left of the path. -/
theorem mem_takes_segments {ps : List GlobPiece} (hsegs : ∀ s ∈ segs, PlainSegment s)
    (hslash : ∀ s ∈ segs, slash ∉ s) (hns : ns ≠ []) (hclear : Clear (pathStr ns)) :
    pathStr ns ∈ takes ((segs.flatMap fun s => segmentPieces s ++ [.literal slash]) ++ ps) ↔
      ∃ ks ls, ns = ks ++ ls ∧ ls ≠ [] ∧ List.Forall₂ (fun s n => SegMatch s n.bytes) segs ks ∧
        pathStr ls ∈ takes ps := by
  induction segs generalizing ns with
  | nil =>
    constructor
    · exact fun h => ⟨[], ns, rfl, hns, .nil, h⟩
    · rintro ⟨ks, ls, rfl, -, h, hls⟩
      cases h
      exact hls
  | cons s segs ih =>
    obtain ⟨hs, hsegs⟩ := List.forall_mem_cons.mp hsegs
    obtain ⟨hslash, hslashes⟩ := List.forall_mem_cons.mp hslash
    rw [List.flatMap_cons, List.append_assoc, List.append_assoc, takes_append,
      List.singleton_append, takes_cons]
    constructor
    · rintro ⟨u, hu, v, ⟨b, hb, t, ht, rfl⟩, he⟩
      rw [mem_literal.mp hb] at he
      obtain ⟨ks, ls, rfl, hks, hls, rfl, rfl⟩ := @pathStr_cut ns u t he.symm
      obtain ⟨husl, hum⟩ := (mem_takes_segmentPieces hs hslash hclear.split.1
        (fun _ => pathStr_head?_ne ks) (pathStr_getLast?_ne ks)).mp hu
      obtain ⟨n, rfl⟩ := eq_singleton_of_slash_notMem hks husl
      obtain ⟨ks', ls', rfl, hls', hall, ht⟩ := (ih hsegs hslashes hls hclear.split.2).mp ht
      rw [pathStr_singleton] at hum
      exact ⟨n :: ks', ls', rfl, hls', .cons hum hall, ht⟩
    · rintro ⟨ks, ls, rfl, hls, hall, ht⟩
      cases hall with
      | @cons _ n _ ks hn hall =>
        have hrest : ks ++ ls ≠ [] := by simp [hls]
        obtain ⟨hfirst, hafter⟩ := @Clear.split [n] (ks ++ ls) hclear
        rw [pathStr_singleton] at hfirst
        refine ⟨n.bytes, (mem_takes_segmentPieces hs hslash hfirst (fun _ => n.head?_ne)
          n.getLast?_ne).mpr ⟨n.slash_notMem, hn⟩, _,
          ⟨[slash], mem_literal.mpr rfl, pathStr (ks ++ ls),
            (ih hsegs hslashes hrest hafter).mpr ⟨ks, ls, rfl, hls, hall, ht⟩, rfl⟩, ?_⟩
        simpa using (@pathStr_append [n] _ (by simp) hrest).symm

/-- There is no separator in what is between separators. -/
theorem notMem_of_mem_splitOn {sep : Byte} {q : Bytes} (hs : s ∈ q.splitOn sep) : sep ∉ s := by
  induction q generalizing s with
  | nil =>
    rw [List.splitOn_nil, List.mem_singleton] at hs
    exact hs ▸ List.not_mem_nil
  | cons c q ih =>
    rw [List.splitOn_cons_eq_if_modifyHead] at hs
    obtain ⟨t, ts, hts⟩ := List.exists_cons_of_ne_nil (List.splitOn_ne_nil sep q)
    have ht : ∀ u ∈ t :: ts, sep ∉ u := fun u hu => ih (hts ▸ hu)
    rw [hts] at hs
    split_ifs at hs with hc
    · rcases List.mem_cons.mp hs with rfl | hs
      · exact List.not_mem_nil
      · exact ht s hs
    · rcases List.mem_cons.mp hs with rfl | hs
      · rw [List.mem_cons, not_or]
        exact ⟨fun he => hc (by simp [he]), ht t List.mem_cons_self⟩
      · exact ht s (List.mem_cons_of_mem _ hs)

/-- One segment that is no `**` matches one name. -/
theorem segsMatch_singleton {M : Bytes → Bytes → Prop} (hs : s ≠ deepSegment) :
    SegsMatch M [s] ns ↔ ∃ n, ns = [n] ∧ M s n.bytes := by
  constructor
  · intro h
    cases h with
    | name _ hn hrest =>
      cases hrest
      exact ⟨_, rfl, hn⟩
    | deep => exact absurd rfl hs
    | last => exact absurd rfl hs
  · rintro ⟨n, rfl, hn⟩
    exact .name hs hn .nil

/-- The segments of names that are matched one by one. -/
theorem SegsMatch.of_forall₂ {last : List Bytes} {ks ls : List Name}
    (hsegs : ∀ s ∈ segs, PlainSegment s)
    (hall : List.Forall₂ (fun s n => SegMatch s n.bytes) segs ks)
    (hlast : SegsMatch SegMatch last ls) :
    SegsMatch SegMatch (segs ++ last) (ks ++ ls) := by
  induction hall with
  | nil => exact hlast
  | cons h _ ih =>
    obtain ⟨hs, hsegs⟩ := List.forall_mem_cons.mp hsegs
    exact .name hs.ne_deep h (ih hsegs)

/-- **Only a `**` matches other than one by one.** -/
theorem SegsMatch.forall₂ {last : List Bytes} (hsegs : ∀ s ∈ segs, PlainSegment s)
    (h : SegsMatch SegMatch (segs ++ last) ns) :
    ∃ ks ls, ns = ks ++ ls ∧ List.Forall₂ (fun s n => SegMatch s n.bytes) segs ks ∧
      SegsMatch SegMatch last ls := by
  induction segs generalizing ns with
  | nil => exact ⟨[], ns, rfl, .nil, h⟩
  | cons s segs ih =>
    obtain ⟨hs, hsegs⟩ := List.forall_mem_cons.mp hsegs
    rw [List.cons_append] at h
    generalize hrest : segs ++ last = rest at h
    cases h with
    | name _ hn h =>
      obtain ⟨ks, ls, rfl, hall, hlast⟩ := ih hsegs (hrest ▸ h)
      exact ⟨_ :: ks, ls, rfl, .cons hn hall, hlast⟩
    | deep => exact absurd rfl hs.ne_deep
    | last => exact absurd rfl hs.ne_deep

/-- **What a plain pattern takes is ignored.** -/
theorem ignored_of_takenBy {p : Bytes} {x : List Name} (hp : PlainPattern p)
    (hclear : Clear (pathStr x)) (h : TakenBy p x) :
    ∃ up ns below, x = up ++ ns ++ below ∧ (anchored p = true → up = []) ∧
      SegsMatch SegMatch (segments p) ns := by
  obtain ⟨up, ns, below, rfl, hns, hanch, -, -, ht⟩ := h
  refine ⟨up, ns, below, rfl, hanch, ?_⟩
  obtain ⟨segs, last, hseg, hplain, hlast⟩ := hp
  have hslash : ∀ s ∈ segs ++ [last], slash ∉ s := fun s hs =>
    notMem_of_mem_splitOn (hseg ▸ hs : s ∈ segments p)
  have hnames : Clear (pathStr ns) := hclear.split.1.split.2
  rw [pieces_plain hseg hplain, mem_takes_segments hplain
    (fun s hs => hslash s (List.mem_append_left _ hs)) hns hnames] at ht
  obtain ⟨ks, ls, rfl, hls, hall, ht⟩ := ht
  rw [hseg]
  refine SegsMatch.of_forall₂ hplain hall ?_
  rcases hlast with hlast | rfl
  · rw [← List.append_nil last, (scanPattern_plain hlast (Or.inl rfl)).1] at ht
    have ht : pathStr ls ∈ takes (segmentPieces last) := by simpa [scanPattern] using ht
    obtain ⟨hs, hm⟩ := (mem_takes_segmentPieces hlast
      (hslash _ (List.mem_append_right _ List.mem_cons_self)) hnames.split.2
      (fun _ => pathStr_head?_ne ls) (pathStr_getLast?_ne ls)).mp ht
    obtain ⟨n, rfl⟩ := eq_singleton_of_slash_notMem hls hs
    rw [pathStr_singleton] at hm
    exact (segsMatch_singleton hlast.ne_deep).mpr ⟨n, rfl, hm⟩
  · exact .last hls

/-- **What a plain pattern ignores is taken**, if there is no line terminator in the path. -/
theorem takenBy_of_ignored {p : Bytes} {up ns below : List Name} (hp : PlainPattern p)
    (hanch : anchored p = true → up = []) (hm : SegsMatch SegMatch (segments p) ns)
    (hclear : Clear (pathStr (up ++ ns ++ below))) :
    TakenBy p (up ++ ns ++ below) := by
  obtain ⟨segs, last, hseg, hplain, hlast⟩ := hp
  have hslash : ∀ s ∈ segs ++ [last], slash ∉ s := fun s hs =>
    notMem_of_mem_splitOn (hseg ▸ hs : s ∈ segments p)
  rw [hseg] at hm
  obtain ⟨ks, ls, rfl, hall, hm⟩ := hm.forall₂ hplain
  -- a `**` takes one name, and what is below this one is below the match
  obtain ⟨n, ls, rfl, ht⟩ : ∃ n ls', ls = n :: ls' ∧
      n.bytes ∈ takes (scanPattern false false last) := by
    rcases hlast with hlast | rfl
    · obtain ⟨n, rfl, h⟩ := (segsMatch_singleton hlast.ne_deep).mp hm
      refine ⟨n, [], rfl, ?_⟩
      have hname : Clear n.bytes := by simpa using hclear.split.1.split.2.split.2
      rw [← List.append_nil last, (scanPattern_plain hlast (Or.inl rfl)).1]
      have hn := (mem_takes_segmentPieces hlast
        (hslash _ (List.mem_append_right _ List.mem_cons_self)) hname (fun _ => n.head?_ne)
        n.getLast?_ne).mpr ⟨n.slash_notMem, h⟩
      simpa [scanPattern] using hn
    · have hls : ls ≠ [] := by
        cases hm with
        | name hne => exact absurd rfl hne
        | deep hne => exact absurd rfl hne
        | last hne => exact hne
      obtain ⟨n, ls, rfl⟩ := List.exists_cons_of_ne_nil hls
      exact ⟨n, ls, rfl, mem_takes_deep n⟩
  have he : up ++ (ks ++ n :: ls) ++ below = up ++ (ks ++ [n]) ++ (ls ++ below) := by simp
  rw [he] at hclear ⊢
  refine ⟨up, ks ++ [n], ls ++ below, rfl, by simp, hanch, hclear.split.1.split.1,
    hclear.split.2, ?_⟩
  rw [pieces_plain hseg hplain, mem_takes_segments hplain
    (fun s hs => hslash s (List.mem_append_left _ hs)) (by simp) hclear.split.1.split.2]
  exact ⟨ks, [n], rfl, by simp, hall, by rwa [pathStr_singleton]⟩

/-- **Plain patterns ignore what they take**, where there is no line terminator in the path. -/
theorem ignored_iff_taken {patterns : List Bytes}
    (hplain : ∀ p ∈ patterns, PlainPattern (stripSlashes p)) {x : List Name}
    (hclear : Clear (pathStr x)) : Ignored patterns x ↔ Taken patterns x := by
  constructor
  · rintro ⟨p, hp, up, ns, below, rfl, hanch, hm⟩
    obtain ⟨q, hq, rfl⟩ := List.mem_map.mp hp
    refine ⟨_, hp, ?_, takenBy_of_ignored (hplain q hq) hanch hm hclear⟩
    -- the empty pattern matches no name
    intro he
    rw [he] at hm
    cases hm with
    | name _ h => exact Name.ne_nil _ h.eq_nil
  · rintro ⟨p, hp, -, ht⟩
    obtain ⟨q, hq, rfl⟩ := List.mem_map.mp hp
    exact ⟨_, hp, ignored_of_takenBy (hplain q hq) hclear ht⟩

end Plain

/-- **A path is matched as the rules of ignore files say**, if there is no line terminator in it,
and all patterns are plain, or one of those that are ignores it. -/
theorem globMatch_iff {patterns : List Bytes} (h : ∀ p ∈ patterns, ∀ c ∈ p, globByte c = true)
    {x : List Name} (hclear : Clear (pathStr x))
    (hplain : (∀ p ∈ patterns, PlainPattern (stripSlashes p)) ∨
      ∃ p ∈ patterns, PlainPattern (stripSlashes p) ∧ Ignored [p] x) :
    globMatch patterns (pathStr x) = .ok true ↔ Ignored patterns x := by
  rw [globMatch_eq h]
  rcases hplain with hplain | ⟨p, hp, hplain, hi⟩
  · exact (ignored_iff_taken hplain hclear).symm
  · -- the pattern that ignores the path takes it as well
    have ht : Taken [p] x := (ignored_iff_taken (by simpa using hplain) hclear).mp hi
    have hmem : ∀ q ∈ [p].map stripSlashes, q ∈ patterns.map stripSlashes := fun q hq => by
      rw [List.map_singleton, List.mem_singleton] at hq
      exact hq ▸ List.mem_map_of_mem hp
    obtain ⟨q, hq, hi⟩ := hi
    obtain ⟨q', hq', ht⟩ := ht
    exact iff_of_true ⟨q', hmem _ hq', ht⟩ ⟨q, hmem _ hq, hi⟩

namespace Sample

/-- A directory, one that is below it and below itself, and a file. -/
def dirA : Name := nameA

@[inherit_doc dirA] def dirXy : Name := ⟨ascii ['x', 'y'], by decide, by decide⟩

@[inherit_doc dirA] def fileB : Name := ⟨ascii ['b'], by decide, by decide⟩

/-- The pattern `a/**/b`. -/
def deepPattern : Bytes := ascii ['a', '/', '*', '*', '/', 'b']

end Sample

open Sample in
set_option maxRecDepth 8000 in
/-- The patterns `?` and `/a/**`, and the path `a/xy/b`. -/
theorem globMatch_iff_sample :
    globMatch [[question], ascii ['/', 'a', '/', '*', '*']] (pathStr [dirA, dirXy, fileB]) =
        .ok true ↔
      Ignored [[question], ascii ['/', 'a', '/', '*', '*']] [dirA, dirXy, fileB] := by
  refine globMatch_iff (by decide) (by unfold Clear; decide) (Or.inl fun p hp => ?_)
  rcases List.mem_cons.mp hp with rfl | hp
  · exact ⟨[], [question], by decide, by simp, Or.inl ⟨by decide, by decide⟩⟩
  · obtain rfl := List.mem_singleton.mp hp
    refine ⟨[ascii ['a']], deepSegment, by decide, fun s hs => ?_, Or.inr rfl⟩
    obtain rfl := List.mem_singleton.mp hs
    exact ⟨by decide, by decide⟩

open Sample in
set_option maxRecDepth 8000 in
/-- **What is ignored is not what is matched**: `a/**/b` does not match `a/xy/xy/b`. -/
theorem globMatch_not_ignored : ¬ ∀ patterns : List Bytes, patterns ≠ [] →
    (∀ p ∈ patterns, ∀ c ∈ p, globByte c = true) → ∀ x : List Name,
      (globMatch patterns (pathStr x) = .ok true ↔ Ignored patterns x) := by
  intro hclaim
  have hmatch : globMatch [deepPattern] (pathStr [dirA, dirXy, dirXy, fileB]) = .ok true := by
    refine (hclaim _ (by simp) (by decide) _).mpr ⟨deepPattern, by decide, [], _, [],
      (List.append_nil _).symm, fun _ => rfl, ?_⟩
    have hseg : segments deepPattern = [dirA.bytes, deepSegment, fileB.bytes] := by decide
    rw [hseg]
    have hletter : ∀ c : Byte, c ≠ asterisk ∧ c ≠ question → SegMatch [c] [c] := fun c hc =>
      .literal hc .nil
    exact .name (by decide) (hletter _ (by decide))
      (@SegsMatch.deep _ _ [dirXy, dirXy] _ (by simp)
        (.name (by decide) (hletter _ (by decide)) .nil))
  have hno : globMatch [deepPattern] (pathStr [dirA, dirXy, dirXy, fileB]) = .ok false := by decide
  rw [hno] at hmatch
  cases hmatch

end Fstree
