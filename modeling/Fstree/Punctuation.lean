import Fstree.IgnoreFile

/-!
# Lines of an ignore file

Every line of an ignore file is to be a pattern of its own: a path is ignored if one of the
lines, taken alone, matches it, and a line without wildcards matches the paths that have it as
a run of names, and what is below them (`Fstree.Robust`).

`glob_list::compile` copies the characters of a pattern into a regular expression. It escapes
the `.`, and none of the other characters that have a meaning there (`Fstree.special`). So a
line with a parenthesis fails to load, and all other lines with it
(`Fstree.not_robust_of_parenthesis`).

Of `std::regex` only what its grammar says of ordinary characters is used
(`Fstree.RegexEngine.Documented`). Where the lines have no other ones, the file loads, and its
lines match one by one; and a line without wildcards matches as it should exactly where a run of it
has no line terminator before or after it (`Fstree.robust_iff`).
-/

namespace Fstree

open Codec

/-! ### Ordinary characters -/

/-- The characters that a regular expression gives a meaning, and that are copied into it. -/
def special : List Byte := ascii ['\\', '^', '$', '+', '(', ')', '[', ']', '{', '}', '|']

/-- **An ordinary pattern** has none of them. -/
def Ordinary (p : Bytes) : Prop := ∀ c ∈ p, c ∉ special

instance (p : Bytes) : Decidable (Ordinary p) := inferInstanceAs (Decidable (∀ c ∈ p, c ∉ special))

/-- **What is documented of `std::regex`**: in an ECMAScript expression every ordinary character
stands for itself, so it takes the text of ordinary patterns for what was meant. -/
structure RegexEngine.Documented (regex : RegexEngine) : Prop where
  ordinary : ∀ ps, (∀ p ∈ ps, Ordinary p) → regex (compileText ps) = some (compile ps).fullMatch

/-! ### Loading lines -/

/-- A line that is a pattern: it is not empty, and no comment. -/
def IsPattern (line : Bytes) : Prop := line ≠ [] ∧ line.head? ≠ some 35

instance (line : Bytes) : Decidable (IsPattern line) :=
  inferInstanceAs (Decidable (line ≠ [] ∧ line.head? ≠ some 35))

/-- The patterns that lines add. -/
def patternsOf (lines : List Bytes) : List Bytes :=
  ((lines.filter IsPattern).map stripSlashes).filter (· ≠ [])

/-- The line begins with a `!`. -/
def Negated (line : Bytes) : Prop := line.head? = some 33

instance (line : Bytes) : Decidable (Negated line) :=
  inferInstanceAs (Decidable (line.head? = some 33))

/-- A line alone matches a path. -/
def Alone (regex : RegexEngine) (line : Bytes) (x : List Name) : Prop :=
  ∃ m, loadGlobs regex line = .ok m ∧ m (pathStr x) = true

section Load

variable {regex : RegexEngine} {bs line : Bytes} {lines inclusive : List Bytes} {x : List Name}
  {m : Bytes → Bool}

theorem addLine_eq (h : ¬ Negated line) :
    addLine inclusive line = .ok (inclusive ++ patternsOf [line]) := by
  by_cases hp : IsPattern line
  · rw [addLine, if_neg (by simpa [IsPattern, not_or] using hp), addPattern_eq h]
    simp [patternsOf, hp]
  · rw [addLine, if_pos (by simpa [IsPattern, imp_iff_not_or] using hp)]
    simp [patternsOf, hp]

theorem patternsOf_cons (line : Bytes) (lines : List Bytes) :
    patternsOf (line :: lines) = patternsOf [line] ++ patternsOf lines := by
  rw [patternsOf, patternsOf, patternsOf, ← List.filter_append, ← List.map_append,
    ← List.filter_append]
  rfl

theorem patternsOf_sublist {lines' : List Bytes} (h : lines.Sublist lines') :
    (patternsOf lines).Sublist (patternsOf lines') :=
  ((h.filter _).map _).filter _

theorem mem_patternsOf {p : Bytes} : p ∈ patternsOf lines ↔
    ∃ line ∈ lines, IsPattern line ∧ stripSlashes line = p ∧ p ≠ [] := by
  simp only [patternsOf, List.mem_filter, List.mem_map, decide_eq_true_eq]
  constructor
  · rintro ⟨⟨line, ⟨hl, hp⟩, he⟩, hne⟩
    exact ⟨line, hl, hp, he, hne⟩
  · rintro ⟨line, hl, hp, he, hne⟩
    exact ⟨⟨line, ⟨hl, hp⟩, he⟩, hne⟩

/-- **The patterns that are loaded**, where no line is negated. -/
theorem addLines_eq (h : ∀ line ∈ lines, ¬ Negated line) :
    lines.foldlM addLine inclusive = .ok (inclusive ++ patternsOf lines) := by
  induction lines generalizing inclusive with
  | nil => simp [patternsOf]; rfl
  | cons line lines ih =>
    obtain ⟨hline, hlines⟩ := List.forall_mem_cons.mp h
    rw [List.foldlM_cons, addLine_eq hline]
    change lines.foldlM addLine _ = _
    rw [ih hlines, List.append_assoc, ← patternsOf_cons]

/-- **Ordinary lines are loaded.** -/
theorem loadGlobs_eq (hdoc : regex.Documented) (hneg : ∀ line ∈ getLines bs, ¬ Negated line)
    (hord : ∀ line ∈ getLines bs, IsPattern line → Ordinary line) :
    loadGlobs regex bs = .ok (matchPath (patternsOf (getLines bs))) := by
  have hpatterns : ∀ p ∈ patternsOf (getLines bs), Ordinary p := by
    intro p hp c hc
    obtain ⟨line, hl, hpat, rfl, -⟩ := mem_patternsOf.mp hp
    have hpre := stripSlashes_prefix line
    exact hord line hl hpat c (hpre.subset hc)
  have hload : loadPatterns bs = .ok (patternsOf (getLines bs)) := addLines_eq hneg
  have hin : makeRegex regex (compileText (patternsOf (getLines bs))) =
      .ok (compile (patternsOf (getLines bs))).fullMatch := by
    rw [makeRegex, hdoc.ordinary _ hpatterns]
  have hex : makeRegex regex (compileText []) = .ok (compile []).fullMatch := by
    rw [makeRegex, hdoc.ordinary [] (by simp)]
  rw [loadGlobs, hload]
  change (do
    let inclusive ← makeRegex regex (compileText (patternsOf (getLines bs)))
    let exclusive ← makeRegex regex (compileText [])
    return fun path => if exclusive path then false else inclusive path) = _
  rw [hin, hex]
  rfl

/-- **A line of a file is the only line of a file with nothing else**, if it is not empty. -/
theorem getLines_line (h : line ∈ getLines bs) (hne : line ≠ []) : getLines line = [line] := by
  have hmem : line ∈ bs.splitOn 10 := by
    rw [getLines] at h
    split_ifs at h
    · exact List.mem_of_mem_dropLast h
    · exact h
  have hline : line.splitOn 10 = [line] := List.splitOn_eq_singleton (notMem_of_mem_splitOn hmem)
  rw [getLines, hline]
  exact if_neg (by simpa using hne)

/-- **What an ordinary line alone matches.** -/
theorem alone_iff (hdoc : regex.Documented) (h : line ∈ getLines bs) (hneg : ¬ Negated line)
    (hord : IsPattern line → Ordinary line) :
    Alone regex line x ↔ ∃ p ∈ patternsOf [line], TakenBy p x := by
  have hlines : patternsOf (getLines line) = patternsOf [line] ∧
      ∀ l ∈ getLines line, l = line := by
    by_cases hne : line = []
    · subst hne
      exact ⟨by decide, by decide⟩
    · rw [getLines_line h hne]
      exact ⟨rfl, fun l hl => List.mem_singleton.mp hl⟩
  have hload : loadGlobs regex line = .ok (matchPath (patternsOf [line])) := by
    rw [loadGlobs_eq hdoc (fun l hl => hlines.2 l hl ▸ hneg) (fun l hl => hlines.2 l hl ▸ hord),
      hlines.1]
  have hne : ∀ p ∈ patternsOf [line], p ≠ [] := fun p hp => (mem_patternsOf.mp hp).choose_spec.2.2.2
  rw [← matchPath_iff hne]
  constructor
  · rintro ⟨m, hm, hx⟩
    rw [hload] at hm
    rwa [← Except.ok.inj hm] at hx
  · exact fun hx => ⟨_, hload, hx⟩

/-- **A file of ordinary lines ignores what one of them alone matches.** -/
theorem loadGlobs_iff (hdoc : regex.Documented) (hneg : ∀ line ∈ getLines bs, ¬ Negated line)
    (hord : ∀ line ∈ getLines bs, IsPattern line → Ordinary line)
    (hm : loadGlobs regex bs = .ok m) :
    m (pathStr x) = true ↔ ∃ line ∈ getLines bs, Alone regex line x := by
  rw [loadGlobs_eq hdoc hneg hord] at hm
  have hne : ∀ p ∈ patternsOf (getLines bs), p ≠ [] := fun p hp =>
    (mem_patternsOf.mp hp).choose_spec.2.2.2
  rw [← Except.ok.inj hm, matchPath_iff hne]
  constructor
  · rintro ⟨p, hp, ht⟩
    obtain ⟨line, hl, hpat, rfl, hne⟩ := mem_patternsOf.mp hp
    refine ⟨line, hl, (alone_iff hdoc hl (hneg line hl) (hord line hl)).mpr ⟨_, ?_, ht⟩⟩
    exact mem_patternsOf.mpr ⟨line, List.mem_singleton_self line, hpat, rfl, hne⟩
  · rintro ⟨line, hl, ha⟩
    obtain ⟨p, hp, ht⟩ := (alone_iff hdoc hl (hneg line hl) (hord line hl)).mp ha
    exact ⟨p, (patternsOf_sublist (List.singleton_sublist.mpr hl)).subset hp, ht⟩

end Load

/-! ### Lines without wildcards -/

/-- **A path has a pattern as a run of names**, which begins at the root if the pattern is
anchored, and whatever is below. -/
def HasRun (p : Bytes) (x : List Name) : Prop :=
  ∃ up ns below, x = up ++ ns ++ below ∧ ns ≠ [] ∧ (anchored p = true → up = []) ∧
    pathStr ns = if anchored p then p.tail else p

/-- A run with no line terminator before or after it. -/
def HasClearRun (p : Bytes) (x : List Name) : Prop :=
  ∃ up ns below, x = up ++ ns ++ below ∧ ns ≠ [] ∧ (anchored p = true → up = []) ∧
    pathStr ns = (if anchored p then p.tail else p) ∧ Clear (pathStr up) ∧ Clear (pathStr below)

section Literal

variable {p w : Bytes} {x : List Name}

theorem HasClearRun.hasRun (h : HasClearRun p x) : HasRun p x := by
  obtain ⟨up, ns, below, hx, hns, hanch, hp, -, -⟩ := h
  exact ⟨up, ns, below, hx, hns, hanch, hp⟩

theorem HasRun.ne_nil (h : HasRun p x) : p ≠ [] := by
  rintro rfl
  obtain ⟨up, ns, below, -, hns, -, hp⟩ := h
  exact hns (pathStr_eq_nil.mp hp)

theorem HasRun.hasClearRun (h : HasRun p x) (hx : Clear (pathStr x)) : HasClearRun p x := by
  obtain ⟨up, ns, below, rfl, hns, hanch, hp⟩ := h
  exact ⟨up, ns, below, rfl, hns, hanch, hp, hx.split.1.split.1, hx.split.2⟩

/-- **What a pattern without wildcards takes.** -/
theorem takenBy_iff (hp : Literal p) : TakenBy p x ↔ HasClearRun p x := by
  have hbare : Literal (if anchored p then p.tail else p) := by
    split_ifs
    · exact ⟨fun h => hp.1 (List.mem_of_mem_tail h), fun h => hp.2 (List.mem_of_mem_tail h)⟩
    · exact hp
  have hmem : ∀ w, w ∈ takes (pieces p) ↔ w = if anchored p then p.tail else p := fun w => by
    rw [pieces, scanPattern_eq_literal hbare, mem_takes_literal]
  constructor
  · rintro ⟨up, ns, below, hx, hns, hanch, hup, hbelow, ht⟩
    exact ⟨up, ns, below, hx, hns, hanch, (hmem _).mp ht, hup, hbelow⟩
  · rintro ⟨up, ns, below, hx, hns, hanch, ht, hup, hbelow⟩
    exact ⟨up, ns, below, hx, hns, hanch, hup, hbelow, (hmem _).mpr ht⟩

end Literal

/-! ### Robustness -/

/-- **An ignore file is robust**, for a path: it loads, its lines match one by one, those without
wildcards what has them as a run of names, and a line more ignores no less. -/
structure Robust (regex : RegexEngine) (bs : Bytes) (x : List Name) : Prop where
  loads : ∃ m, loadGlobs regex bs = .ok m
  lines : ∀ m, loadGlobs regex bs = .ok m →
    (m (pathStr x) = true ↔ ∃ line ∈ getLines bs, Alone regex line x)
  literal : ∀ line ∈ getLines bs, IsPattern line → Literal line →
    (Alone regex line x ↔ HasRun (stripSlashes line) x)
  monotone : ∀ bs₀ k, getLines bs₀ = (getLines bs).eraseIdx k → ∀ m₀ m,
    loadGlobs regex bs₀ = .ok m₀ → loadGlobs regex bs = .ok m →
      m₀ (pathStr x) = true → m (pathStr x) = true

section Robust

variable {regex : RegexEngine} {bs : Bytes} {x : List Name}

/-- **A file of ordinary lines is robust exactly** for the paths in which a line without wildcards
that has a run has one with no line terminator before or after it; so it is for all paths without
line terminators. -/
theorem robust_iff (hdoc : regex.Documented) (hneg : ∀ line ∈ getLines bs, ¬ Negated line)
    (hord : ∀ line ∈ getLines bs, IsPattern line → Ordinary line) :
    (Robust regex bs x ↔ ∀ line ∈ getLines bs, IsPattern line → Literal line →
      HasRun (stripSlashes line) x → HasClearRun (stripSlashes line) x) ∧
    (Clear (pathStr x) → Robust regex bs x) := by
  have hliteral : ∀ line ∈ getLines bs, IsPattern line → Literal line →
      (Alone regex line x ↔ HasClearRun (stripSlashes line) x) := by
    intro line hl hpat hlit
    have hpre := stripSlashes_prefix line
    have hstrip : Literal (stripSlashes line) :=
      ⟨fun h => hlit.1 (hpre.subset h), fun h => hlit.2 (hpre.subset h)⟩
    rw [alone_iff hdoc hl (hneg line hl) (hord line hl)]
    constructor
    · rintro ⟨p, hp, ht⟩
      obtain ⟨l, hl', -, rfl, hne⟩ := mem_patternsOf.mp hp
      obtain rfl := List.mem_singleton.mp hl'
      exact (takenBy_iff hstrip).mp ht
    · intro hrun
      exact ⟨_, mem_patternsOf.mpr ⟨line, List.mem_singleton_self line, hpat, rfl,
        hrun.hasRun.ne_nil⟩, (takenBy_iff hstrip).mpr hrun⟩
  have hiff : Robust regex bs x ↔ ∀ line ∈ getLines bs, IsPattern line → Literal line →
      HasRun (stripSlashes line) x → HasClearRun (stripSlashes line) x := by
    constructor
    · intro h line hl hpat hlit hrun
      exact (hliteral line hl hpat hlit).mp ((h.literal line hl hpat hlit).mpr hrun)
    · intro h
      refine ⟨⟨_, loadGlobs_eq hdoc hneg hord⟩, fun m hm => loadGlobs_iff hdoc hneg hord hm,
        fun line hl hpat hlit => ?_, fun bs₀ k he m₀ m hm₀ hm hx => ?_⟩
      · rw [hliteral line hl hpat hlit]
        exact ⟨fun ha => ha.hasRun, fun ha => h line hl hpat hlit ha⟩
      · have hsub : ∀ line ∈ getLines bs₀, line ∈ getLines bs := fun line hl =>
          List.mem_of_mem_eraseIdx (he ▸ hl)
        rw [loadGlobs_iff hdoc (fun l hl => hneg l (hsub l hl))
          (fun l hl => hord l (hsub l hl)) hm₀]
          at hx
        obtain ⟨line, hl, ha⟩ := hx
        exact (loadGlobs_iff hdoc hneg hord hm).mpr ⟨line, hsub line hl, ha⟩
  exact ⟨hiff, fun hx => hiff.mpr fun _ _ _ _ hrun => hrun.hasClearRun hx⟩

end Robust

/-! ### Reading the text of ordinary patterns -/

/-- The text that ends every pattern. -/
def endText : Bytes := ascii ['(', '/', '.', '*', ')', '?', ')', '$']

/-- What is after a text. -/
def readText : Bytes → Bytes → Option Bytes
  | [], s => some s
  | a :: t, b :: s => if a = b then readText t s else none
  | _ :: _, [] => none

/-- A piece at the start of a text, and what is after it. -/
def readPiece (s : Bytes) : Option (GlobPiece × Bytes) :=
  (readText GlobPiece.run.text s).map (.run, ·) <|>
  (readText GlobPiece.deep.text s).map (.deep, ·) <|>
  (readText (GlobPiece.literal dot).text s).map (.literal dot, ·) <|>
  (readText GlobPiece.any.text s).map (.any, ·) <|>
  match s with
  | c :: rest => if c ∈ special then none else some (.literal c, rest)
  | [] => none

/-- The pieces of a text, and its end. -/
def readPieces : ℕ → Bytes → Option (Regex Byte)
  | 0, s => if s = endText then some (piecesRegex []) else none
  | n + 1, s =>
    if s = endText then some (piecesRegex [])
    else do
      let (piece, rest) ← readPiece s
      return .seq piece.regex (← readPieces n rest)

/-- A pattern. -/
def readPattern (s : Bytes) : Option (Regex Byte) := do
  let s ← readText (ascii ['(']) s
  match readText (ascii ['^']) s, readText (ascii ['(', '.', '*', '/', ')', '?']) s with
  | some s, _ => return .seq .start (← readPieces s.length s)
  | none, some s => return .seq beforeRegex (← readPieces s.length s)
  | none, none => readPieces s.length s

/-- **An engine that takes the text of ordinary patterns**, and refuses anything else. -/
def readGlobs : RegexEngine
  | [] => some Regex.empty.fullMatch
  | _ :: text => do
    match ← (text.splitOn 124).mapM readPattern with
    | r :: rs => some (rs.foldl Regex.alt (.seq .start r)).fullMatch
    | [] => none

section Read

variable {p s : Bytes} {ps : List GlobPiece}

/-- A literal is no special character. -/
def GlobPiece.Ordinary (piece : GlobPiece) : Prop := ∀ c, piece = .literal c → c ∉ special

theorem ne_of_notMem_special {c : Byte} (h : c ∉ special) :
    c ≠ 92 ∧ c ≠ 40 ∧ c ≠ 91 ∧ c ≠ 94 ∧ c ≠ 124 := by
  refine ⟨?_, ?_, ?_, ?_, ?_⟩ <;> (rintro rfl; exact h (by decide))

theorem readPiece_text {piece : GlobPiece} (h : piece.Ordinary) (rest : Bytes) :
    readPiece (piece.text ++ rest) = some (piece, rest) ∧ piece.text ++ rest ≠ endText := by
  cases piece with
  | literal c =>
    by_cases hc : c = dot
    · subst hc
      exact ⟨rfl, nofun⟩
    · have hspec := h c rfl
      obtain ⟨h₁, h₂, h₃, -, -⟩ := ne_of_notMem_special hspec
      have htext : (GlobPiece.literal c).text ++ rest = c :: rest := by
        rw [GlobPiece.text, if_neg hc]
        rfl
      have hno : ∀ a t, c ≠ a → readText (a :: t) (c :: rest) = none := fun a t h => if_neg h.symm
      have hrun : readText GlobPiece.run.text (c :: rest) = none := hno _ _ h₃
      have hdeep : readText GlobPiece.deep.text (c :: rest) = none := hno _ _ h₂
      have hdot : readText (GlobPiece.literal dot).text (c :: rest) = none := hno _ _ h₁
      have hany : readText GlobPiece.any.text (c :: rest) = none := hno _ _ hc
      rw [htext, readPiece, hrun, hdeep, hdot, hany]
      refine ⟨?_, fun he => h₂ (List.cons.inj he).1⟩
      simp [hspec]
  | any => exact ⟨rfl, nofun⟩
  | run => exact ⟨rfl, nofun⟩
  | deep => exact ⟨rfl, nofun⟩

theorem readText_append (t rest : Bytes) : readText t (t ++ rest) = some rest := by
  induction t with
  | nil => cases rest <;> rfl
  | cons a t ih => rw [List.cons_append, readText, if_pos rfl, ih]

/-- **The pieces of a text are read.** -/
theorem readPieces_text (h : ∀ piece ∈ ps, piece.Ordinary) {n : ℕ} (hn : ps.length ≤ n) :
    readPieces n (ps.flatMap GlobPiece.text ++ endText) = some (piecesRegex ps) := by
  induction ps generalizing n with
  | nil => cases n <;> exact if_pos rfl
  | cons piece ps ih =>
    obtain ⟨hpiece, hps⟩ := List.forall_mem_cons.mp h
    obtain ⟨n, rfl⟩ : ∃ m, n = m + 1 := ⟨n - 1, by simp at hn; omega⟩
    obtain ⟨hread, hne⟩ := readPiece_text hpiece (ps.flatMap GlobPiece.text ++ endText)
    rw [List.flatMap_cons, List.append_assoc, readPieces, if_neg hne, hread]
    have hrest := ih hps (n := n) (by simpa using hn)
    simp only [bind, Option.bind, hrest]
    rfl

/-- A piece of a pattern is a literal of the pattern or no literal. -/
theorem mem_of_literal_mem_scanPattern {c : Byte} (star skip : Bool)
    (h : GlobPiece.literal c ∈ scanPattern star skip p) : c ∈ p := by
  induction p generalizing star skip with
  | nil =>
    rw [scanPattern] at h
    split_ifs at h <;> simp at h
  | cons b p ih =>
    rw [scanPattern] at h
    by_cases hslash : skip ∧ b = slash
    · rw [if_pos hslash] at h
      exact List.mem_cons_of_mem _ (ih _ _ h)
    rw [if_neg hslash] at h
    by_cases hdeep : star ∧ b = asterisk
    · rw [if_pos hdeep] at h
      exact List.mem_cons_of_mem _ (ih _ _ (List.mem_of_ne_of_mem (by simp) h))
    rw [if_neg hdeep] at h
    rcases List.mem_append.mp h with h | h
    · split_ifs at h <;> simp at h
    · split_ifs at h
      · exact List.mem_cons_of_mem _ (ih _ _ h)
      · exact List.mem_cons_of_mem _ (ih _ _ (List.mem_of_ne_of_mem (by simp) h))
      · rcases List.mem_cons.mp h with he | h
        · rw [GlobPiece.literal.inj he]
          exact List.mem_cons_self
        · exact List.mem_cons_of_mem _ (ih _ _ h)

theorem ordinary_pieces (hp : Ordinary p) : ∀ piece ∈ pieces p, piece.Ordinary := by
  rintro _ hmem c rfl
  refine hp c ?_
  have hc := mem_of_literal_mem_scanPattern _ _ hmem
  split_ifs at hc
  · exact List.mem_of_mem_tail hc
  · exact hc

/-- Every piece has a text. -/
theorem length_le_text (ps : List GlobPiece) : ps.length ≤ (ps.flatMap GlobPiece.text).length := by
  induction ps with
  | nil => simp
  | cons piece ps ih =>
    have hpos : 1 ≤ piece.text.length := by
      cases piece with
      | literal c =>
        rw [GlobPiece.text]
        split_ifs
        · decide
        · exact le_rfl
      | any => decide
      | run => decide
      | deep => decide
    rw [List.flatMap_cons, List.length_append, List.length_cons]
    omega

/-- **A pattern is read.** -/
theorem readPattern_text (hp : Ordinary p) :
    readPattern (patternText p) = some (patternRegex p) := by
  have hn : (pieces p).length ≤ ((pieces p).flatMap GlobPiece.text ++ endText).length := by
    have h := length_le_text (pieces p)
    rw [List.length_append]
    omega
  have hread := readPieces_text (ordinary_pieces hp) hn
  have hopen : ∀ s, readText (ascii ['(']) (ascii ['('] ++ s) = some s := readText_append _
  rw [patternText, patternRegex, List.append_assoc, List.append_assoc, readPattern, hopen]
  by_cases hnil : p = []
  · subst hnil
    rfl
  rw [if_neg hnil, if_neg hnil]
  by_cases hanch : anchored p = true
  · rw [if_pos hanch, if_pos hanch]
    have hstart := readText_append (ascii ['^']) ((pieces p).flatMap GlobPiece.text ++ endText)
    simp only [bind, Option.bind, endText] at hstart hread ⊢
    rw [hstart]
    simp only [hread]
    rfl
  · rw [if_neg hanch, if_neg hanch]
    have hbefore := readText_append (ascii ['(', '.', '*', '/', ')', '?'])
      ((pieces p).flatMap GlobPiece.text ++ endText)
    have hno : ∀ s, readText (ascii ['^']) (ascii ['(', '.', '*', '/', ')', '?'] ++ s) = none :=
      fun s => rfl
    simp only [bind, Option.bind, endText] at hbefore hread ⊢
    rw [hno, hbefore]
    simp only [hread]
    rfl

/-- The text of a pattern has no `|` in it. -/
theorem bar_notMem_patternText (hp : Ordinary p) : (124 : Byte) ∉ patternText p := by
  have hpieces : (124 : Byte) ∉ (pieces p).flatMap GlobPiece.text := by
    intro h
    obtain ⟨piece, hmem, hb⟩ := List.mem_flatMap.mp h
    have hord := ordinary_pieces hp piece hmem
    cases piece with
    | literal c =>
      have hc := (ne_of_notMem_special (hord c rfl)).2.2.2.2
      rw [GlobPiece.text] at hb
      split_ifs at hb
      · exact absurd hb (by decide)
      · exact hc (List.mem_singleton.mp hb).symm
    | any => exact absurd hb (by decide)
    | run => exact absurd hb (by decide)
    | deep => exact absurd hb (by decide)
  have hprefix : (124 : Byte) ∉ (if p = [] then [] else if anchored p then ascii ['^']
      else ascii ['(', '.', '*', '/', ')', '?']) := by
    split_ifs <;> decide
  rw [patternText, List.mem_append, List.mem_append, List.mem_append]
  rintro (((h | h) | h) | h)
  · exact absurd h (by decide)
  · exact hprefix h
  · exact hpieces h
  · exact absurd h (by decide)

/-- **The text of patterns**: theirs, with a `|` between two of them, after a `^`. -/
theorem compileText_cons (p : Bytes) (ps : List Bytes) :
    compileText (p :: ps) = 94 :: [124].intercalate ((p :: ps).map patternText) := by
  have key : ∀ text : Bytes, text ≠ [] → ps.foldl (fun text p =>
      (if text = [] then ascii ['^'] else text ++ ascii ['|']) ++ patternText p) text =
        text ++ ps.flatMap fun p => 124 :: patternText p := by
    induction ps with
    | nil => simp
    | cons q ps ih =>
      intro text htext
      rw [List.foldl_cons, if_neg htext, ih _ (by simp [ascii]), List.flatMap_cons]
      simp [ascii]
  have hcons : ∀ q : Bytes, [124].intercalate ((q :: ps).map patternText) =
      patternText q ++ ps.flatMap fun p => 124 :: patternText p := by
    clear key
    induction ps with
    | nil => simp
    | cons r ps ih =>
      intro q
      have hr := ih r
      rw [List.map_cons] at hr
      rw [List.map_cons, List.map_cons, List.intercalate_cons_cons, hr, List.flatMap_cons]
      simp
  rw [compileText, List.foldl_cons, if_pos rfl, key _ (by simp [ascii]), hcons]
  rfl

/-- **The engine does what is documented.** -/
theorem documented_readGlobs : readGlobs.Documented where
  ordinary ps hps := by
    match ps, hps with
    | [], _ => rfl
    | p :: ps, hps =>
      have hbar : ∀ t ∈ (p :: ps).map patternText, (124 : Byte) ∉ t := by
        intro t ht
        obtain ⟨q, hq, rfl⟩ := List.mem_map.mp ht
        exact bar_notMem_patternText (hps q hq)
      have hread : ((p :: ps).map patternText).mapM readPattern =
          some ((p :: ps).map patternRegex) := by
        generalize p :: ps = l at hps
        induction l with
        | nil => rfl
        | cons q l ih =>
          obtain ⟨hq, hl⟩ := List.forall_mem_cons.mp hps
          rw [List.map_cons, List.mapM_cons, readPattern_text hq, ih hl]
          rfl
      rw [compileText_cons, readGlobs, List.splitOn_intercalate _ hbar (by simp), hread, compile,
        ← List.foldl_map]
      rfl

end Read

/-! ### Samples -/

namespace Sample

/-- A line without wildcards, and one with a wildcard. -/
def plainLines : Bytes := ascii ['a', '\n', '*', 'b']

/-- A line with a parenthesis. -/
def oddLine : Bytes := ascii ['a', '(']

end Sample

set_option maxRecDepth 4000 in
/-- The file with the ordinary lines is robust for the path `d/a`. -/
theorem robust_iff_sample : Robust readGlobs Sample.plainLines [Sample.nameD, Sample.nameA] :=
  (robust_iff documented_readGlobs (by decide) (by decide)).2 (by unfold Clear; decide)

/-- **A parenthesis is no ordinary character**: the file with it does not load. -/
theorem not_robust_of_parenthesis : ¬ ∀ regex : RegexEngine, regex.Documented → ∀ bs,
    (∀ line ∈ getLines bs, ¬ Negated line) → ∀ x, Robust regex bs x := by
  intro hclaim
  obtain ⟨m, hm⟩ := (hclaim _ documented_readGlobs Sample.oddLine (by decide) []).loads
  have herror : loadGlobs readGlobs Sample.oddLine = .error "regex_error" := rfl
  rw [herror] at hm
  cases hm

end Fstree
