import Fstree.GlobList

/-!
# Where ignore patterns go wrong

A list of patterns matches as the rules of ignore files say where all patterns are plain and there
is no line terminator in the path (`Fstree.globMatch_iff`). Each of the three things that are left
out goes wrong, in all patterns and paths of a kind.

A `?` between two names matches the slash that stands between them (`Fstree.globMatch_question`).
A `**` that does not end the pattern does not match a second directory with more than one character
in its name (`Fstree.globMatch_deep`). What is in a directory with a line terminator in its name
is not matched by its own name (`Fstree.globMatch_terminator`).
-/

namespace Fstree

open Codec Computability

/-- The characters of a pattern, none of them a wildcard. -/
structure Letters (q : Bytes) : Prop where
  literal : Literal q
  bytes : ∀ c ∈ q, globByte c = true

section Letters

variable {p q t w : Bytes} {u v n m : Name} {x : List Name}

theorem Letters.clear (hq : Letters q) : Clear q := fun c hc => by
  have hbyte := hq.bytes c hc
  by_contra hno
  have hend : c = 10 ∨ c = 13 := by
    simpa [anyByte, lineTerminator, or_iff_not_imp_left] using hno
  rcases hend with rfl | rfl <;> exact absurd hbyte (by decide)

/-- A name without `*` and `?` matches itself. -/
theorem Literal.segMatch (hq : Literal q) : SegMatch q q := by
  induction q with
  | nil => exact .nil
  | cons c q ih =>
    obtain ⟨hc, htail⟩ := literal_cons.mp hq
    exact .literal hc (ih htail)

/-- Without a `*` a segment matches names of its own length. -/
theorem length_eq_of_segMatch (h : SegMatch q w) (hq : asterisk ∉ q) : w.length = q.length := by
  induction h with
  | nil => rfl
  | literal _ _ ih => simpa using ih fun hm => hq (List.mem_cons_of_mem _ hm)
  | question _ ih => simpa using ih fun hm => hq (List.mem_cons_of_mem _ hm)
  | asterisk => exact absurd List.mem_cons_self hq

theorem ne_deep (hq : asterisk ∉ q) : q ≠ deepSegment := by
  rintro rfl
  exact hq List.mem_cons_self

theorem anchored_name (u : Name) (t : Bytes) : anchored (u.bytes ++ t) = false := by
  obtain ⟨c, q, hu⟩ := List.exists_cons_of_ne_nil u.ne_nil
  have hc : c ≠ slash := fun he => u.slash_notMem (by simp [hu, he])
  simp [anchored, hu, hc]

/-- A pattern without a slash is one segment. -/
theorem segments_eq_singleton (hanch : anchored p = false) (hp : slash ∉ p) : segments p = [p] := by
  have hsplit : ([slash].intercalate [p]).splitOn slash = [p] :=
    List.splitOn_intercalate slash (by simpa using hp) (by simp)
  rw [segments, hanch, if_neg Bool.false_ne_true]
  simpa using hsplit

/-- A pattern that a name ends is added as it is. -/
theorem stripSlashes_name (t : Bytes) (v : Name) : stripSlashes (t ++ v.bytes) = t ++ v.bytes := by
  refine stripSlashes_eq fun h => v.getLast?_ne ?_
  obtain ⟨c, q, hv⟩ := List.eq_nil_or_concat' v.bytes |>.resolve_left v.ne_nil
  rw [hv] at h ⊢
  simpa using h

/-- One pattern that a name ends. -/
theorem taken_singleton : Taken [t ++ v.bytes] x ↔ TakenBy (t ++ v.bytes) x := by
  have hne : t ++ v.bytes ≠ [] := by simp [v.ne_nil]
  simp [Taken, stripSlashes_name, hne]

theorem ignored_singleton : Ignored [t ++ v.bytes] x ↔ ∃ up ns below, x = up ++ ns ++ below ∧
    (anchored (t ++ v.bytes) = true → up = []) ∧
      SegsMatch SegMatch (segments (t ++ v.bytes)) ns := by
  simp [Ignored, stripSlashes_name]

/-- **A `?` between two names matches the slash between them**, which the rules of ignore files do
not say. -/
theorem globMatch_question (hu : Letters u.bytes) (hv : Letters v.bytes) :
    globMatch [u.bytes ++ question :: v.bytes] (pathStr [u, v]) = .ok true ∧
      ¬ Ignored [u.bytes ++ question :: v.bytes] [u, v] := by
  have hbytes : ∀ c ∈ u.bytes ++ question :: v.bytes, globByte c = true :=
    List.forall_mem_append.mpr
      ⟨fun c hc => hu.bytes c hc, List.forall_mem_cons.mpr ⟨by decide, fun c hc => hv.bytes c hc⟩⟩
  rw [globMatch_eq (List.forall_mem_singleton.mpr hbytes)]
  have happ : u.bytes ++ question :: v.bytes = (u.bytes ++ [question]) ++ v.bytes := by simp
  have hanch : anchored (u.bytes ++ question :: v.bytes) = false := anchored_name u _
  constructor
  · rw [happ, taken_singleton, ← happ]
    refine ⟨[], [u, v], [], rfl, by simp, by simp [hanch], nofun, nofun, ?_⟩
    have hpieces : pieces (u.bytes ++ question :: v.bytes) =
        u.bytes.map .literal ++ .any :: v.bytes.map .literal := by
      rw [pieces, hanch, if_neg Bool.false_ne_true, scanPattern_literal hu.literal, scanPattern,
        scanPattern_eq_literal hv.literal]
      simp [show question ≠ asterisk by decide]
    rw [hpieces, takes_append, takes_cons]
    refine ⟨u.bytes, mem_takes_literal.mpr rfl, slash :: v.bytes,
      ⟨[slash], mem_any.mpr ⟨slash, rfl, by decide⟩, v.bytes, mem_takes_literal.mpr rfl, rfl⟩, ?_⟩
    simp [pathStr_cons_cons]
  · rw [happ, ignored_singleton, ← happ]
    rintro ⟨up, ns, below, he, -, hm⟩
    -- there is one segment, and it is longer than both names
    have hslash : slash ∉ u.bytes ++ question :: v.bytes := by
      simp [u.slash_notMem, v.slash_notMem, show slash ≠ question by decide]
    have hstar : asterisk ∉ u.bytes ++ question :: v.bytes := by
      simp [hu.literal.1, hv.literal.1, show asterisk ≠ question by decide]
    rw [segments_eq_singleton hanch hslash, segsMatch_singleton (ne_deep hstar)] at hm
    obtain ⟨k, rfl, hk⟩ := hm
    have hlen := length_eq_of_segMatch hk hstar
    have hmem : k ∈ [u, v] := by simp [he]
    rcases List.mem_cons.mp hmem with rfl | hmem
    · simp at hlen
    · obtain rfl := List.mem_singleton.mp hmem
      simp only [List.length_append, List.length_cons] at hlen
      omega

/-- **What is in a directory with a line terminator in its name** is ignored by its own name, and
is not matched. -/
theorem globMatch_terminator (hu : Letters u.bytes) (hn : ¬ Clear n.bytes) :
    Ignored [u.bytes] [n, u] ∧ globMatch [u.bytes] (pathStr [n, u]) ≠ .ok true := by
  rw [ne_eq, globMatch_eq (List.forall_mem_singleton.mpr fun c hc => hu.bytes c hc)]
  have hanch : anchored u.bytes = false := by simpa using anchored_name u []
  constructor
  · rw [← List.nil_append u.bytes, ignored_singleton, List.nil_append]
    refine ⟨[n], [u], [], rfl, by simp [hanch], ?_⟩
    rw [segments_eq_singleton hanch u.slash_notMem, segsMatch_singleton (ne_deep hu.literal.1)]
    exact ⟨u, rfl, hu.literal.segMatch⟩
  · rw [← List.nil_append u.bytes, taken_singleton, List.nil_append]
    rintro ⟨up, ns, below, he, -, -, hup, -, ht⟩
    have hpieces : pieces u.bytes = u.bytes.map .literal := by
      rw [pieces, hanch, if_neg Bool.false_ne_true, scanPattern_eq_literal hu.literal]
    rw [hpieces, mem_takes_literal, ← pathStr_singleton, pathStr_inj] at ht
    subst ht
    -- the directory is before the name that is taken, or has it itself
    cases up with
    | nil =>
      obtain ⟨rfl, -⟩ : n = u ∧ _ := by simpa using he
      exact hn hu.clear
    | cons k up =>
      obtain ⟨rfl, -⟩ : n = k ∧ _ := by simpa using he
      refine hn fun c hc => hup c ?_
      exact bytes_subset_pathStr List.mem_cons_self hc

/-- Names of one character each, with a slash before each. -/
theorem mem_kstar_cell (h : w ∈ (slashes * Regex.one noSlash)∗) :
    w = [] ∨ ∃ e y, w = slash :: e :: y ∧ (y = [] ∨ y.head? = some slash) := by
  obtain ⟨L, rfl, hL⟩ := Language.mem_kstar.mp h
  have hcell : ∀ y ∈ L, ∃ e, y = [slash, e] := fun y hy => by
    obtain ⟨s, hs, e, ⟨e', rfl, -⟩, rfl⟩ := hL y hy
    exact ⟨e', by rw [mem_slashes.mp hs]; rfl⟩
  cases L with
  | nil => exact Or.inl rfl
  | cons y L =>
    obtain ⟨e, rfl⟩ := hcell y List.mem_cons_self
    refine Or.inr ⟨e, L.flatten, rfl, ?_⟩
    cases L with
    | nil => exact Or.inl rfl
    | cons z L =>
      obtain ⟨e', rfl⟩ := hcell z (by simp)
      exact Or.inr rfl

/-- Before a slash there is a whole name, if none is in what comes first. -/
theorem eq_of_append_eq_slash (h : w ++ q = n.bytes ++ slash :: t) (hw : slash ∉ w)
    (hq : q = [] ∨ q.head? = some slash) : q = slash :: t := by
  rcases List.append_eq_append_iff.mp h with ⟨a, hn, he⟩ | ⟨a, rfl, he⟩
  · cases a with
    | nil => exact he
    | cons k a =>
      -- what follows is a slash, and no slash is in the name
      have hk : k ≠ slash := fun hk => n.slash_notMem (by simp [hn, hk])
      rcases hq with rfl | hq
      · cases he
      · rw [he] at hq
        exact absurd (Option.some.inj hq) hk
  · cases a with
    | nil => exact he.symm
    | cons k a =>
      obtain ⟨rfl, -⟩ := List.cons.inj he
      exact absurd (by simp) hw

/-- **What a `**` takes goes on, after the first slash, with at most one character** before the next
slash. -/
theorem mem_deep_cut (h : n.bytes ++ slash :: t ∈ GlobPiece.deep.language) :
    t = [] ∨ ∃ c y, t = c :: y ∧ (y = [] ∨ y.head? = some slash) := by
  obtain ⟨_, ⟨a, ha, b, hb, rfl⟩, c, hc, he⟩ := h
  have he : a ++ (b ++ c) = n.bytes ++ slash :: t := by simpa using he
  have hc : c = [slash] ∨ c = [] := hc.imp mem_slashes.mp (Language.mem_one c).mp
  rcases mem_kstar_cell hb with rfl | ⟨e, y, rfl, hy⟩
  · have hcut := eq_of_append_eq_slash he (mem_run.mp ha) (by rcases hc with rfl | rfl <;> simp)
    rcases hc with rfl | rfl
    · exact Or.inl (List.cons.inj hcut).2.symm
    · cases hcut
  · have hcut := eq_of_append_eq_slash he (mem_run.mp ha) (Or.inr rfl)
    refine Or.inr ⟨e, y ++ c, (List.cons.inj hcut).2.symm, ?_⟩
    rcases hy with rfl | hy
    · rcases hc with rfl | rfl <;> simp
    · exact Or.inr (by simp [hy])

/-- The pattern `/u/**/v`. -/
def deepBetween (u v : Name) : Bytes :=
  slash :: (u.bytes ++ slash :: (deepSegment ++ slash :: v.bytes))

theorem deepBetween_eq (u v : Name) :
    deepBetween u v = (slash :: (u.bytes ++ slash :: (deepSegment ++ [slash]))) ++ v.bytes := by
  simp [deepBetween]

theorem anchored_deepBetween : anchored (deepBetween u v) = true := rfl

theorem globByte_deepBetween (hu : Letters u.bytes) (hv : Letters v.bytes) :
    ∀ c ∈ deepBetween u v, globByte c = true := by
  intro c hc
  simp only [deepBetween, deepSegment, List.mem_cons, List.mem_append, List.not_mem_nil,
    or_false] at hc
  rcases hc with rfl | hc | rfl | (rfl | rfl) | rfl | hc
  · decide
  · exact hu.bytes c hc
  · decide
  · decide
  · decide
  · decide
  · exact hv.bytes c hc

theorem segments_deepBetween : segments (deepBetween u v) = [u.bytes, deepSegment, v.bytes] := by
  have hsplit : ([slash].intercalate [u.bytes, deepSegment, v.bytes]).splitOn slash =
      [u.bytes, deepSegment, v.bytes] := List.splitOn_intercalate slash
    (by simpa using ⟨u.slash_notMem, by decide, v.slash_notMem⟩) (by simp)
  rw [segments, anchored_deepBetween, if_pos rfl, deepBetween, List.tail_cons]
  simpa [List.intercalate] using hsplit

theorem pieces_deepBetween (hu : Letters u.bytes) (hv : Letters v.bytes) :
    pieces (deepBetween u v) =
      u.bytes.map .literal ++ .literal slash :: .deep :: v.bytes.map .literal := by
  have hdeep : scanPattern false false (slash :: (deepSegment ++ slash :: v.bytes)) =
      .literal slash :: .deep :: scanPattern false false v.bytes := by
    simp [deepSegment, scanPattern, show slash ≠ asterisk by decide,
      show slash ≠ question by decide, show asterisk ≠ slash by decide]
  rw [pieces, anchored_deepBetween, if_pos rfl, deepBetween, List.tail_cons,
    scanPattern_literal hu.literal, hdeep, scanPattern_eq_literal hv.literal]

/-- What begins a path of these names is not taken. -/
theorem deep_text_ne {ns below : List Name} {d : Bytes} (hm : 2 ≤ m.bytes.length)
    (hn : ¬ v.bytes <:+ n.bytes) (hmv : ¬ v.bytes <:+ m.bytes) (hd : d ∈ GlobPiece.deep.language)
    (he : [u, n, m, v] = [] ++ ns ++ below) (hns : ns ≠ []) :
    u.bytes ++ slash :: (d ++ v.bytes) ≠ pathStr ns := by
  intro htext
  match ns, hns with
  | [k], _ =>
    obtain ⟨rfl, -⟩ : u = k ∧ _ := by simpa using he
    rw [pathStr_singleton] at htext
    simpa using congrArg List.length htext
  | [k, l], _ =>
    obtain ⟨rfl, rfl, -⟩ : u = k ∧ n = l ∧ _ := by simpa using he
    have hcut : d ++ v.bytes = n.bytes := by simpa [pathStr_cons_cons] using htext
    exact hn ⟨d, hcut⟩
  | [k, l, i], _ =>
    obtain ⟨rfl, rfl, rfl, -⟩ : u = k ∧ n = l ∧ m = i ∧ _ := by simpa using he
    have hcut : d ++ v.bytes = n.bytes ++ slash :: m.bytes := by
      simpa [pathStr_cons_cons] using htext
    rcases List.append_eq_append_iff.mp hcut with ⟨a, -, ha⟩ | ⟨a, -, ha⟩
    · exact v.slash_notMem (by simp [ha])
    · cases a with
      | nil =>
        rw [List.nil_append] at ha
        exact v.slash_notMem (by simp [← ha])
      | cons c a => exact hmv ⟨a, (List.cons.inj ha).2.symm⟩
  | k :: l :: i :: j :: ns, _ =>
    obtain ⟨rfl, rfl, rfl, rfl, hnil, -⟩ : u = k ∧ n = l ∧ m = i ∧ v = j ∧ ns = [] ∧ _ := by
      simpa using he
    subst hnil
    have hcut : d ++ v.bytes = (n.bytes ++ slash :: (m.bytes ++ [slash])) ++ v.bytes := by
      simpa [pathStr_cons_cons] using htext
    rw [List.append_cancel_right_eq] at hcut
    rw [hcut] at hd
    -- after the first character of the second name there is another one
    obtain ⟨c, e, t, hname⟩ : ∃ c e t, m.bytes = c :: e :: t := by
      match m.bytes, hm with
      | c :: e :: t, _ => exact ⟨c, e, t, rfl⟩
    have hslash : e ≠ slash := fun he => m.slash_notMem (by simp [hname, he])
    rcases mem_deep_cut hd with h | ⟨c', y, h, hy⟩
    · simp at h
    · rw [hname] at h
      obtain ⟨-, rfl⟩ := List.cons.inj h
      rcases hy with hy | hy
      · cases hy
      · exact hslash (Option.some.inj hy)

/-- **A `**` that does not end the pattern** does not match a second directory with more than one
character in its name, which the rules of ignore files say. -/
theorem globMatch_deep (hu : Letters u.bytes) (hv : Letters v.bytes) (hm : 2 ≤ m.bytes.length)
    (hn : ¬ v.bytes <:+ n.bytes) (hmv : ¬ v.bytes <:+ m.bytes) :
    Ignored [deepBetween u v] [u, n, m, v] ∧
      globMatch [deepBetween u v] (pathStr [u, n, m, v]) ≠ .ok true := by
  rw [ne_eq, globMatch_eq (List.forall_mem_singleton.mpr (globByte_deepBetween hu hv)),
    deepBetween_eq, ignored_singleton, taken_singleton, ← deepBetween_eq]
  constructor
  · refine ⟨[], [u, n, m, v], [], rfl, fun _ => rfl, ?_⟩
    rw [segments_deepBetween]
    exact .name (ne_deep hu.literal.1) hu.literal.segMatch
      (@SegsMatch.deep _ _ [n, m] _ (by simp)
        ((segsMatch_singleton (ne_deep hv.literal.1)).mpr ⟨v, rfl, hv.literal.segMatch⟩))
  · rintro ⟨up, ns, below, he, hns, hup, -, -, ht⟩
    obtain rfl := hup anchored_deepBetween
    rw [pieces_deepBetween hu hv, takes_append, takes_cons, takes_cons] at ht
    obtain ⟨w₁, h₁, _, ⟨w₂, h₂, _, ⟨d, hd, w₃, h₃, rfl⟩, rfl⟩, hpath⟩ := ht
    have htext : u.bytes ++ slash :: (d ++ v.bytes) = pathStr ns := by
      rw [← hpath, mem_takes_literal.mp h₁, mem_literal.mp h₂, mem_takes_literal.mp h₃]
      rfl
    exact deep_text_ne hm hn hmv hd he hns htext

end Letters

end Fstree
