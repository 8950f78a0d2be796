import Fstree.Model.Store
import Mathlib.Data.List.TakeWhile

/-!
# Digests that are read, and the paths they become

`digest::parse` reads digests from the command line, from tree objects and from the server, and
`cache::file_path` and `cache::tree_path` cut the digits in two for a path below the object
directory. `parse` looks at the algorithm and at the number of the digits. It does not look at
the digits, which may be any bytes, separators among them.

What it accepts is told by `Fstree.parse_eq_ok_iff`. If the digits are digits, the paths are as
they should be, each digest has its own, and they lie in a subdirectory of the object directory
(`Fstree.digest_exact_iff`).
-/

namespace Fstree

/-! ### The grammar -/

/-- A hexadecimal digit, in either case. -/
def isHexDigit (c : Byte) : Bool := 48 ≤ c ∧ c ≤ 57 ∨ 65 ≤ c ∧ c ≤ 70 ∨ 97 ≤ c ∧ c ≤ 102

/-- All of the bytes are hexadecimal digits. -/
def AllHex (bs : Bytes) : Prop := ∀ c ∈ bs, isHexDigit c = true

/-- **The text of a digest.** -/
inductive DigestText : Bytes → Prop
  | empty : DigestText []
  | digits {hex} (hlen : hex.length = 40 ∨ hex.length = 64) (h : AllHex hex) : DigestText hex
  | sha1 {hex} (hlen : hex.length = 40) (h : AllHex hex) :
      DigestText (Digest.sha1Name ++ Digest.colon :: hex)
  | blake3 {hex} (hlen : hex.length = 64) (h : AllHex hex) :
      DigestText (Digest.blake3Name ++ Digest.colon :: hex)

/-- **The shape of a digest**: the text, the algorithm, and what stands for the digits. -/
inductive DigestShape : Bytes → Algorithm → Bytes → Prop
  | bareSha1 {hex} (hlen : hex.length = 40) (h : Digest.colon ∉ hex) : DigestShape hex .sha1 hex
  | bareBlake3 {hex} (hlen : hex.length = 64) (h : Digest.colon ∉ hex) :
      DigestShape hex .blake3 hex
  | sha1 {hex} (hlen : hex.length = 40) :
      DigestShape (Digest.sha1Name ++ Digest.colon :: hex) .sha1 hex
  | blake3 {hex} (hlen : hex.length = 64) :
      DigestShape (Digest.blake3Name ++ Digest.colon :: hex) .blake3 hex

/-! ### The paths -/

/-- The path of an object below the object directory, unless `substr` throws. -/
def cacheObjectPath (objectdir suffix : Bytes) (hash : Digest) : Except String Bytes :=
  if hash.hexdigest.length < 2 then .error "basic_string::substr"
  else .ok (joinPath (joinPath objectdir (hash.hexdigest.take 2)) (hash.hexdigest.drop 2 ++ suffix))

/-- **`cache::file_path`**, with the object directory. -/
def cacheFilePath (objectdir : Bytes) (hash : Digest) : Except String Bytes :=
  cacheObjectPath objectdir fileSuffix hash

/-- **`cache::tree_path`**, with the object directory. -/
def cacheTreePath (objectdir : Bytes) (hash : Digest) : Except String Bytes :=
  cacheObjectPath objectdir treeSuffix hash

/-- **A path is of the form** `<objects>/xx/rest.suffix`: two components below the object
directory, neither of which leads back. -/
def TwoComponents (objectdir suffix : Bytes) (path : Except String Bytes) : Prop :=
  ∃ xx rest : Name, xx.bytes.length = 2 ∧ xx.bytes ≠ [dot, dot] ∧
    path = .ok (joinPath objectdir (xx.bytes ++ slash :: (rest.bytes ++ suffix)))

/-- **A string is read exactly**: what is accepted is the text of a digest, which its string
stands for as well, and which has its paths below the object directory. -/
structure DigestExact (objectdir s : Bytes) : Prop where
  grammar : ∀ d, Digest.parse s = .ok d → DigestText s
  roundTrip : ∀ d, Digest.parse s = .ok d → Digest.parse d.string = .ok d
  paths : ∀ d, Digest.parse s = .ok d → d.empty = false →
    TwoComponents objectdir fileSuffix (cacheFilePath objectdir d) ∧
      TwoComponents objectdir treeSuffix (cacheTreePath objectdir d)

/-- **Two strings are told apart**: their digests have a path in common only if they are equal,
and never a file path and a tree path. -/
def ToldApart (objectdir s s' : Bytes) : Prop :=
  ∀ d d', Digest.parse s = .ok d → Digest.parse s' = .ok d' → ∀ p,
    (cacheFilePath objectdir d = .ok p → cacheFilePath objectdir d' = .ok p → d = d') ∧
    (cacheTreePath objectdir d = .ok p → cacheTreePath objectdir d' = .ok p → d = d') ∧
    ¬ (cacheFilePath objectdir d = .ok p ∧ cacheTreePath objectdir d' = .ok p) ∧
    ¬ (cacheTreePath objectdir d = .ok p ∧ cacheFilePath objectdir d' = .ok p)

/-- **What stands for the digits is digits**, if the string has the shape of a digest. -/
def HexDigits (s : Bytes) : Prop := ∀ alg hex, DigestShape s alg hex → AllHex hex

/-! ### What is accepted -/

section Accepted

variable {s hex objectdir suffix suffix' p q r : Bytes} {d d' : Digest} {alg : Algorithm}

theorem DigestShape.wellFormed (h : DigestShape s alg hex) : (⟨alg, hex⟩ : Digest).WellFormed := by
  cases h with
  | bareSha1 hlen | sha1 hlen => exact .inr (.inl ⟨rfl, hlen⟩)
  | bareBlake3 hlen | blake3 hlen => exact .inr (.inr ⟨rfl, hlen⟩)

/-- The parts of a text with a colon. -/
theorem algName_append_digits (h : Digest.colon ∈ s) :
    Digest.algName s ++ Digest.colon :: Digest.digits s = s := by
  have hsplit := List.takeWhile_append_dropWhile (p := fun b => decide (b ≠ Digest.colon)) (l := s)
  cases hdrop : s.dropWhile fun b => decide (b ≠ Digest.colon) with
  | nil =>
    rw [hdrop, List.append_nil] at hsplit
    have hall := List.mem_takeWhile_imp (hsplit.symm ▸ h)
    simp at hall
  | cons c rest =>
    have hc : c = Digest.colon := by
      have hhead := List.head?_dropWhile_not (fun b => decide (b ≠ Digest.colon)) s
      rw [hdrop] at hhead
      simpa using hhead
    rw [hdrop, hc] at hsplit
    have hdigits : Digest.digits s = rest := by
      rw [Digest.digits, ← hsplit, Digest.algName_append]
      · rw [List.drop_append]
        simp
      · exact fun hm => by simpa using List.mem_takeWhile_imp hm
    rw [hdigits]
    exact hsplit

/-- **What `digest::parse` accepts.** -/
theorem parse_eq_ok_iff : Digest.parse s = .ok d ↔
    s = [] ∧ d = Digest.none ∨ ∃ alg hex, DigestShape s alg hex ∧ d = ⟨alg, hex⟩ := by
  constructor
  · intro h
    rw [Digest.parse] at h
    split_ifs at h with hnil hcolon hsha hlen hblake hlen h40 h64
    · exact .inl ⟨hnil, (Except.ok.inj h).symm⟩
    · have hs := DigestShape.sha1 (not_not.mp hlen)
      rw [← hsha, algName_append_digits hcolon] at hs
      exact .inr ⟨_, _, hs, (Except.ok.inj h).symm⟩
    · have hs := DigestShape.blake3 (not_not.mp hlen)
      rw [← hblake, algName_append_digits hcolon] at hs
      exact .inr ⟨_, _, hs, (Except.ok.inj h).symm⟩
    · exact .inr ⟨_, _, .bareSha1 h40 hcolon, (Except.ok.inj h).symm⟩
    · exact .inr ⟨_, _, .bareBlake3 h64 hcolon, (Except.ok.inj h).symm⟩
  · rintro (⟨rfl, rfl⟩ | ⟨alg, hex, h, rfl⟩)
    · rfl
    · have hwell := h.wellFormed
      cases h with
      | bareSha1 hlen hcolon =>
        have hne : s ≠ [] := by
          rintro rfl
          cases hlen
        rw [Digest.parse, if_neg hne, if_pos hcolon, if_pos hlen]
      | bareBlake3 hlen hcolon =>
        have hne : s ≠ [] := by
          rintro rfl
          cases hlen
        rw [Digest.parse, if_neg hne, if_pos hcolon, if_neg (by omega), if_pos hlen]
      | sha1 | blake3 => exact Digest.parse_string hwell

/-- **What is accepted is well formed**, and is read again from its string. -/
theorem wellFormed_of_parse (h : Digest.parse s = .ok d) : d.WellFormed := by
  rcases parse_eq_ok_iff.mp h with ⟨-, rfl⟩ | ⟨alg, hex, hs, rfl⟩
  · exact .inl rfl
  · exact hs.wellFormed

/-! ### Joining -/

theorem joinPath_assoc (hq : q ≠ []) (hr : r.head? ≠ some slash) :
    joinPath (joinPath p q) r = joinPath p (joinPath q r) := by
  have hlast : ∀ x : Bytes, (x ++ q).getLast? = q.getLast? := fun x =>
    List.getLast?_append_of_ne_nil x hq
  have hhead : (joinPath q r).head? = q.head? := by
    obtain ⟨c, q, rfl⟩ := List.exists_cons_of_ne_nil hq
    rw [joinPath, if_neg hr]
    split_ifs <;> rfl
  by_cases habs : q.head? = some slash
  · have hpq : joinPath p q = q := if_pos habs
    have hpqr : joinPath p (joinPath q r) = joinPath q r := if_pos (hhead.trans habs)
    rw [hpq, hpqr]
  · -- both begin with the left operand, and the same separators follow
    have hsep : ∀ x : Bytes, joinPath (x ++ q) r = x ++ joinPath q r := by
      intro x
      rw [joinPath, joinPath, if_neg hr, if_neg hr, hlast]
      simp only [List.append_eq_nil_iff, hq, and_false, false_or]
      split_ifs
      · exact List.append_assoc ..
      · exact List.append_assoc ..
    have hrel : (joinPath q r).head? ≠ some slash := hhead ▸ habs
    rw [joinPath.eq_def p q, joinPath.eq_def p (joinPath q r), if_neg habs, if_neg hrel]
    split_ifs
    · exact hsep p
    · have hcons : ∀ x : Bytes, p ++ slash :: x = (p ++ [slash]) ++ x := fun x => by simp
      rw [hcons, hsep, ← hcons]

theorem joinPath_cancel (hq : q.head? ≠ some slash) (hr : r.head? ≠ some slash)
    (h : joinPath p q = joinPath p r) : q = r := by
  rw [joinPath, joinPath, if_neg hq, if_neg hr] at h
  split_ifs at h
  · exact List.append_cancel_left h
  · exact (List.cons.inj (List.append_cancel_left h)).2

/-! ### Paths of digits -/

/-- A digit is no separator and no dot. -/
theorem isHexDigit_ne {c x : Byte} (h : isHexDigit c = true) (hx : isHexDigit x = false) : c ≠ x :=
  fun he => by simp [he, hx] at h

theorem DigestShape.digestText (h : DigestShape s alg hex) (hhex : AllHex hex) : DigestText s := by
  cases h with
  | bareSha1 hlen => exact .digits (.inl hlen) hhex
  | bareBlake3 hlen => exact .digits (.inr hlen) hhex
  | sha1 hlen => exact .sha1 hlen hhex
  | blake3 hlen => exact .blake3 hlen hhex

theorem DigestText.exists_shape (h : DigestText s) :
    s = [] ∨ ∃ alg hex, DigestShape s alg hex ∧ AllHex hex := by
  cases h with
  | empty => exact .inl rfl
  | digits hlen hhex =>
    have hcolon : Digest.colon ∉ s := fun hm =>
      isHexDigit_ne (hhex _ hm) (x := Digest.colon) (by decide) rfl
    rcases hlen with hlen | hlen
    · exact .inr ⟨_, _, .bareSha1 hlen hcolon, hhex⟩
    · exact .inr ⟨_, _, .bareBlake3 hlen hcolon, hhex⟩
  | sha1 hlen hhex => exact .inr ⟨_, _, .sha1 hlen, hhex⟩
  | blake3 hlen hhex => exact .inr ⟨_, _, .blake3 hlen, hhex⟩

/-- The text of a digest has digits where the digits stand: a text has one shape at most. -/
theorem DigestText.hexDigits (h : DigestText s) : HexDigits s := by
  intro alg hex hshape
  have hd := parse_eq_ok_iff.mpr (.inr ⟨alg, hex, hshape, rfl⟩)
  rcases h.exists_shape with rfl | ⟨alg', hex', hshape', hhex⟩
  · cases hd
    exact fun c hc => absurd hc List.not_mem_nil
  · have hd' := parse_eq_ok_iff.mpr (.inr ⟨alg', hex', hshape', rfl⟩)
    rw [hd, Except.ok.injEq, Digest.mk.injEq] at hd'
    rwa [hd'.2]

/-- What is parsed, if the digits are digits: none, or a plain digest. -/
theorem plain_of_parse (hs : HexDigits s) (hd : Digest.parse s = .ok d) :
    d = Digest.none ∨ AllHex d.hexdigest ∧ d.Plain := by
  rcases parse_eq_ok_iff.mp hd with ⟨-, rfl⟩ | ⟨alg, hex, hshape, rfl⟩
  · exact .inl rfl
  · have hhex := hs alg hex hshape
    refine .inr ⟨hhex, ?_, fun hm => isHexDigit_ne (hhex _ hm) (x := slash) (by decide) rfl⟩
    have hlen : hex.length = 40 ∨ hex.length = 64 := by
      cases hshape <;> simp [*]
    show 2 < hex.length
    omega

/-- **The path of a plain digest** is its object path, below the object directory. -/
theorem cacheObjectPath_eq (objectdir : Bytes) (hp : d.Plain) (suffix : Bytes) :
    (objectPath suffix d).head? ≠ some slash ∧
      cacheObjectPath objectdir suffix d = .ok (joinPath objectdir (objectPath suffix d)) := by
  obtain ⟨a, b, c, rest, hhex, ha, hb, hc, hpath⟩ := hp.objectPath_eq suffix
  constructor
  · rw [hpath]
    simpa using ha
  · rw [cacheObjectPath, if_neg (not_lt.mpr hp.length.le), joinPath_assoc]
    · rfl
    · simp [hhex]
    · simpa [hhex] using hc

theorem twoComponents_cacheObjectPath (hhex : AllHex d.hexdigest) (hp : d.Plain)
    (suffix : Bytes) : TwoComponents objectdir suffix (cacheObjectPath objectdir suffix d) := by
  obtain ⟨a, b, c, rest, hd, ha, hb, hc, hpath⟩ := hp.objectPath_eq suffix
  have hslash : slash ∉ c :: rest := fun hm => hp.slash_notMem (by
    rw [hd]
    exact List.mem_cons_of_mem _ (List.mem_cons_of_mem _ hm))
  refine ⟨⟨[a, b], by simp, by simp [ha.symm, hb.symm]⟩, ⟨c :: rest, by simp, hslash⟩, rfl, ?_, ?_⟩
  · intro he
    have hadot : a = dot := (List.cons.inj he).1
    have hdigit := hhex a (by simp [hd])
    exact isHexDigit_ne hdigit (x := dot) (by decide) hadot
  · rw [(cacheObjectPath_eq objectdir hp suffix).2, hpath]
    rfl

/-- An algorithm has its number of digits. -/
theorem eq_of_hexdigest_eq (h : d.WellFormed) (h' : d'.WellFormed)
    (he : d.hexdigest = d'.hexdigest) : d = d' := by
  obtain ⟨alg, hex⟩ := d
  obtain ⟨alg', hex'⟩ := d'
  obtain rfl : hex = hex' := he
  rcases h with h | ⟨rfl, hlen⟩ | ⟨rfl, hlen⟩
  · cases h
    rcases h' with h' | ⟨-, hlen⟩ | ⟨-, hlen⟩
    · exact h'.symm
    · cases hlen
    · cases hlen
  · rcases h' with h' | ⟨rfl, -⟩ | ⟨rfl, hlen'⟩
    · cases h'
      cases hlen
    · rfl
    · exact absurd (hlen.symm.trans hlen') (by decide)
  · rcases h' with h' | ⟨rfl, hlen'⟩ | ⟨rfl, -⟩
    · cases h'
      cases hlen
    · exact absurd (hlen.symm.trans hlen') (by decide)
    · rfl

/-- Two digests of one path have one object path. -/
theorem objectPath_eq_of_path (hd : d = Digest.none ∨ AllHex d.hexdigest ∧ d.Plain)
    (hd' : d' = Digest.none ∨ AllHex d'.hexdigest ∧ d'.Plain)
    (h : cacheObjectPath objectdir suffix d = .ok p)
    (h' : cacheObjectPath objectdir suffix' d' = .ok p) :
    d.Plain ∧ objectPath suffix d = objectPath suffix' d' := by
  rcases hd with rfl | ⟨-, hp⟩
  · cases h
  · rcases hd' with rfl | ⟨-, hp'⟩
    · cases h'
    · obtain ⟨hrel, hpath⟩ := cacheObjectPath_eq objectdir hp suffix
      obtain ⟨hrel', hpath'⟩ := cacheObjectPath_eq objectdir hp' suffix'
      rw [hpath, Except.ok.injEq] at h
      rw [hpath', Except.ok.injEq] at h'
      exact ⟨hp, joinPath_cancel hrel hrel' (h.trans h'.symm)⟩

/-- **Digests of digits are told apart by their paths.** -/
theorem toldApart_of_hexDigits (hs : HexDigits s) (hs' : HexDigits s') :
    ToldApart objectdir s s' := by
  intro d d' hd hd' p
  have hplain := plain_of_parse hs hd
  have hplain' := plain_of_parse hs' hd'
  have heq : ∀ {suffix}, cacheObjectPath objectdir suffix d = .ok p →
      cacheObjectPath objectdir suffix d' = .ok p → d = d' := by
    intro suffix h h'
    obtain ⟨hp, hpath⟩ := objectPath_eq_of_path hplain hplain' h h'
    exact eq_of_hexdigest_eq (wellFormed_of_parse hd) (wellFormed_of_parse hd')
      (objectPath_inj hp hpath.symm).symm
  refine ⟨heq, heq, fun h => ?_, fun h => ?_⟩
  · exact filePath_ne_treePath d d' (objectPath_eq_of_path hplain hplain' h.1 h.2).2
  · exact filePath_ne_treePath d' d (objectPath_eq_of_path hplain hplain' h.1 h.2).2.symm

/-- **When two strings are read exactly, and their digests told apart**: if and only if what
stands for their digits is digits, where they have the shape of a digest. -/
theorem digest_exact_iff (objectdir s s' : Bytes) :
    (DigestExact objectdir s ∧ DigestExact objectdir s' ∧ ToldApart objectdir s s') ↔
      HexDigits s ∧ HexDigits s' := by
  have hexact : ∀ {t}, HexDigits t → DigestExact objectdir t := by
    intro t ht
    refine ⟨fun d hd => ?_, fun d hd => Digest.parse_string (wellFormed_of_parse hd),
      fun d hd hne => ?_⟩
    · rcases parse_eq_ok_iff.mp hd with ⟨rfl, -⟩ | ⟨alg, hex, hshape, -⟩
      · exact .empty
      · exact hshape.digestText (ht alg hex hshape)
    · rcases plain_of_parse ht hd with rfl | ⟨hhex, hp⟩
      · cases hne
      · exact ⟨twoComponents_cacheObjectPath hhex hp _, twoComponents_cacheObjectPath hhex hp _⟩
  have hdigits : ∀ {t}, DigestExact objectdir t → HexDigits t := by
    intro t ht alg hex hshape
    exact (ht.grammar _ (parse_eq_ok_iff.mpr (.inr ⟨alg, hex, hshape, rfl⟩))).hexDigits alg hex
      hshape
  exact ⟨fun h => ⟨hdigits h.1, hdigits h.2.1⟩, fun h =>
    ⟨hexact h.1, hexact h.2, toldApart_of_hexDigits h.1 h.2⟩⟩

end Accepted

/-- After a slash the rest is an absolute path, and the object directory and the first two bytes
are left out of it. -/
example (objectdir : Bytes) :
    cacheFilePath objectdir ⟨.sha1, [97, 98] ++ slash :: List.replicate 37 122⟩ =
      cacheFilePath objectdir ⟨.sha1, [99, 100] ++ slash :: List.replicate 37 122⟩ := rfl

/-- Forty letters that are no digits. -/
theorem digest_not_exact : ¬ ∀ objectdir s s' : Bytes,
    DigestExact objectdir s ∧ DigestExact objectdir s' ∧ ToldApart objectdir s s' := by
  intro h
  have hshape : DigestShape (List.replicate 40 122) .sha1 (List.replicate 40 122) :=
    .bareSha1 (by decide) (by decide)
  have htext := (h [] (List.replicate 40 122) []).1.grammar _
    (parse_eq_ok_iff.mpr (.inr ⟨_, _, hshape, rfl⟩))
  exact absurd (htext.hexDigits _ _ hshape 122 (by decide)) (by decide)

end Fstree
