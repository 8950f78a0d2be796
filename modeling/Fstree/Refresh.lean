import Fstree.Foundations.TwoCursor
import Fstree.Model.IndexFile
import Fstree.Index
import Mathlib.Logic.Function.Basic
import Mathlib.Logic.Relation

/-!
# Refreshing an index

`index::refresh` scans the root directory and walks the list of the scan and the
list of the old index side by side. An inode that is in both keeps the digest the
old index has for it if their metadata agree and the digest is one of this build;
otherwise it is marked dirty, and so are its parents, up to the first that is
dirty already (`Fstree.setDirty`). An inode that is only in the scan is left
without a digest, *and so are not its parents*; an inode that is only in the old
index is skipped.

The digests are a map from paths (`Fstree.Hashes`); a refresh computes the whole
of it (`Fstree.refresh`). What later stages use of it is in three theorems: a
digest that is there is the old one of a match that may be reused
(`Fstree.refresh_reused`), a match without a digest has no parent with one
(`Fstree.refresh_parent`), and, exactly, a path has a digest if and only if
everything in both lists at it and below it may be reused
(`Fstree.refresh_ne_none_iff`).
-/

namespace Fstree

open SortedBy TwoCursor

/-! ### Marking dirty -/

/-- `inode::set_dirty` of the inode at `p`. The digest of the inode is dropped;
then the parent's, unless it has none. The first argument bounds the number of
parents; the length of a path is enough. -/
def setDirty (parentOf : Bytes → Option Bytes) : ℕ → Bytes → Hashes → Hashes
  | 0, p, hs => hs.set p Digest.none
  | depth + 1, p, hs =>
    let hs' := hs.set p Digest.none
    match parentOf p with
    | none => hs'
    | some q => if (hs' q).empty then hs' else setDirty parentOf depth q hs'

/-- A path is reached from another along parent pointers. -/
def Climbs (parentOf : Bytes → Option Bytes) : Bytes → Bytes → Prop :=
  Relation.ReflTransGen fun p q => parentOf p = some q

section SetDirty

variable {parentOf : Bytes → Option Bytes}

/-- **Marking dirty** drops digests of parents, and changes nothing else. -/
theorem setDirty_cases (depth : ℕ) (p : Bytes) (hs : Hashes) (x : Bytes) :
    setDirty parentOf depth p hs x = hs x ∨
      setDirty parentOf depth p hs x = Digest.none ∧ Climbs parentOf p x := by
  have hset : ∀ p : Bytes, ∀ hs : Hashes, (hs.set p Digest.none) x = hs x ∨
      (hs.set p Digest.none) x = Digest.none ∧ Climbs parentOf p x := by
    intro p hs
    by_cases hx : x = p
    · subst hx
      exact Or.inr ⟨hs.set_self x _, Relation.ReflTransGen.refl⟩
    · exact Or.inl (hs.set_of_ne hx _)
  induction depth generalizing p hs with
  | zero => exact hset p hs
  | succ depth ih =>
    simp only [setDirty]
    cases hq : parentOf p with
    | none => exact hset p hs
    | some q =>
      simp only
      split_ifs
      · exact hset p hs
      · rcases ih q (hs.set p Digest.none) with h | ⟨h, hc⟩
        · rw [h]
          exact hset p hs
        · exact Or.inr ⟨h, Relation.ReflTransGen.head hq hc⟩

theorem setDirty_eq_none (depth : ℕ) (p : Bytes) {hs : Hashes} {x : Bytes}
    (h : hs x = Digest.none) : setDirty parentOf depth p hs x = Digest.none := by
  rcases setDirty_cases depth p hs x with hx | ⟨hx, -⟩
  · rw [hx, h]
  · exact hx

/-- The inode itself has no digest afterwards. -/
theorem setDirty_self (depth : ℕ) (p : Bytes) (hs : Hashes) :
    setDirty parentOf depth p hs p = Digest.none := by
  cases depth with
  | zero => exact hs.set_self p _
  | succ depth =>
    simp only [setDirty]
    cases parentOf p with
    | none => exact hs.set_self p _
    | some q =>
      simp only
      split_ifs
      · exact hs.set_self p _
      · exact setDirty_eq_none _ _ (hs.set_self p _)

/-- **No digest above a digest that was dropped.** -/
theorem setDirty_parent (hlen : ∀ p q, parentOf p = some q → q.length < p.length) {depth : ℕ}
    {p : Bytes} (hdepth : p.length ≤ depth) (hs : Hashes) {x q : Bytes} (hq : parentOf x = some q)
    (hx : x = p ∨ setDirty parentOf depth p hs x ≠ hs x) :
    (setDirty parentOf depth p hs q).empty = true := by
  induction depth generalizing p hs with
  | zero =>
    have hxp : x = p := by
      rcases hx with hx | hx
      · exact hx
      · by_contra hne
        exact hx (hs.set_of_ne hne _)
    have := hlen x q hq
    rw [hxp] at this
    omega
  | succ depth ih =>
    have hset : (hs.set p Digest.none) x ≠ hs x → x = p := fun h => by
      by_contra hne
      exact h (hs.set_of_ne hne _)
    simp only [setDirty] at hx ⊢
    cases hp : parentOf p with
    | none =>
      simp only [hp] at hx
      have hxp : x = p := hx.elim id hset
      rw [hxp, hp] at hq
      cases hq
    | some r =>
      simp only [hp] at hx ⊢
      by_cases he : ((hs.set p Digest.none) r).empty = true
      · rw [if_pos he] at hx ⊢
        have hxp : x = p := hx.elim id hset
        obtain rfl : r = q := Option.some.inj (by rw [← hp, ← hq, hxp])
        exact he
      · rw [if_neg he] at hx ⊢
        by_cases hxp : x = p
        · obtain rfl : r = q := Option.some.inj (by rw [← hp, ← hq, hxp])
          rw [setDirty_self]
          rfl
        · refine ih (by have := hlen p r hp; omega) _ (Or.inr ?_)
          rw [hs.set_of_ne hxp]
          exact hx.resolve_left hxp

end SetDirty

/-! ### The refresh -/

section Refresh

variable (H : HashFunction)

/-- The refresh of an inode that is in the scan and in the index: the digest is
of this build, and the metadata agree. -/
def refreshBoth (parentOf : Bytes → Option Bytes) (hs : Hashes) (i o : Inode) : Hashes :=
  if o.hash.alg ≠ H.alg ∨ o.hash.hexdigest.length ≠ H.digestLength then
    setDirty parentOf i.path.length i.path hs
  else if o.isEquivalent i then hs.set i.path o.hash
  else setDirty parentOf i.path.length i.path hs

/-- The digests of the inodes of a list with these parent pointers, from the inodes of the
old index. -/
def refreshList (parentOf : Bytes → Option Bytes) (inodes old : List Inode) : Hashes :=
  walk Inode.path Inode.path (fun hs _ => hs) (refreshBoth H parentOf) inodes old Hashes.clean

/-- **`index::refresh`**: the digests of the inodes of a scan, from the inodes of
the old index. The inodes of the refreshed index are those of the scan. -/
def refresh {d : Disk} {ignores : Bytes → Bool} {root : List Name} (s : Scan d ignores root)
    (old : List Inode) : Hashes :=
  refreshList H s.parentOf s.inodes old

/-- The digest an old inode has may be reused for an inode of the scan. -/
structure Reusable (o i : Inode) : Prop where
  alg : o.hash.alg = H.alg
  length : o.hash.hexdigest.length = H.digestLength
  equivalent : o.isEquivalent i = true

/-- **What a scan gives to the refresh**: a list that is strictly sorted by path, in which the
parent pointer of an inode leads to the root or to an inode of the list. -/
structure ParentLinked (inodes : List Inode) (parentOf : Bytes → Option Bytes) : Prop where
  strict : StrictBy Inode.path inodes
  linked : ∀ i ∈ inodes, ∃ q, parentOf i.path = some q ∧ (q = [] ∨ ∃ j ∈ inodes, j.path = q)
  /-- A parent pointer cuts the last name off. -/
  cut : ∀ p q, parentOf p = some q → ∃ ns n, p = pathStr (ns ++ [n]) ∧ q = pathStr ns

variable {H} {parentOf : Bytes → Option Bytes} {inodes old : List Inode}

theorem refreshBoth_of_reusable {hs : Hashes} {i o : Inode} (h : Reusable H o i) :
    refreshBoth H parentOf hs i o = hs.set i.path o.hash := by
  rw [refreshBoth, if_neg (by simp [h.alg, h.length]), if_pos h.equivalent]

theorem refreshBoth_of_not_reusable {hs : Hashes} {i o : Inode} (h : ¬ Reusable H o i) :
    refreshBoth H parentOf hs i o = setDirty parentOf i.path.length i.path hs := by
  rw [refreshBoth]
  split_ifs with hbad heq
  · rfl
  · push Not at hbad
    exact absurd ⟨hbad.1, hbad.2, heq⟩ h
  · rfl

theorem Reusable.ne_none {o i : Inode} (h : Reusable H o i) : o.hash ≠ Digest.none := fun hn => by
  have hlen := h.length
  have hpos := H.digestLength_pos
  rw [hn] at hlen
  simp only [Digest.none, List.length_nil] at hlen
  omega

theorem Reusable.not_empty {o i : Inode} (h : Reusable H o i) : o.hash.empty = false := by
  cases he : o.hash.empty with
  | false => rfl
  | true =>
    have hlen := h.length
    have hpos := H.digestLength_pos
    rw [Digest.empty_eq_true_iff.mp he] at hlen
    simp only [List.length_nil] at hlen
    omega

theorem ParentLinked.parent_lt (h : ParentLinked inodes parentOf) {p q : Bytes}
    (hq : parentOf p = some q) : q < p := by
  obtain ⟨ns, n, rfl, rfl⟩ := h.cut p q hq
  exact @pathStr_lt_append ns [n] (List.cons_ne_nil n [])

theorem ParentLinked.parent_length_lt (h : ParentLinked inodes parentOf) (p q : Bytes)
    (hq : parentOf p = some q) : q.length < p.length := by
  obtain ⟨ns, n, rfl, rfl⟩ := h.cut p q hq
  exact pathStr_length_lt ns n

theorem forall_mem_concat {P : Inode → Prop} {done : List Inode} {i : Inode}
    (hdone : ∀ j ∈ done, P j) (hi : P i) : ∀ j ∈ done ++ [i], P j :=
  List.forall_mem_append.mpr ⟨hdone, List.forall_mem_singleton.mpr hi⟩

/-- What a refresh does at one inode of the scan. -/
def refreshStep (H : HashFunction) (parentOf : Bytes → Option Bytes) (old : List Inode) :
    Hashes → Inode → Hashes :=
  joinStep Inode.path Inode.path (fun hs _ => hs) (refreshBoth H parentOf) old

/-- What holds after the inodes `done` of the scan have been refreshed. -/
structure Refreshed (H : HashFunction) (parentOf : Bytes → Option Bytes) (old done : List Inode)
    (hs : Hashes) : Prop where
  /-- A digest that is there is one that was reused. -/
  reused : ∀ p, hs p ≠ Digest.none → ∃ i ∈ done, i.path = p ∧
    ∃ o, lookup Inode.path p old = some o ∧ Reusable H o i ∧ hs p = o.hash
  /-- A match without a digest has no parent with one. -/
  climbs : ∀ i ∈ done, ∀ o, lookup Inode.path i.path old = some o → hs i.path = Digest.none →
    ∀ q, parentOf i.path = some q → hs q = Digest.none
  /-- A match that may not be reused has no digest. -/
  spoiled : ∀ i ∈ done, ∀ o, lookup Inode.path i.path old = some o → ¬ Reusable H o i →
    hs i.path = Digest.none
  /-- A match without a digest is at, or above, one that may not be reused. -/
  blamed : ∀ i ∈ done, (∃ o, lookup Inode.path i.path old = some o) → hs i.path = Digest.none →
    ∃ j ∈ done, (∃ o, lookup Inode.path j.path old = some o ∧ ¬ Reusable H o j) ∧
      Climbs parentOf j.path i.path

/-- An inode that only the scan has changes nothing. -/
theorem Refreshed.scanOnly {done : List Inode} {hs : Hashes} {i : Inode}
    (h : Refreshed H parentOf old done hs) (hlk : lookup Inode.path i.path old = none) :
    Refreshed H parentOf old (done ++ [i]) hs := by
  refine ⟨fun p hp => ?_, forall_mem_concat h.climbs ?_, forall_mem_concat h.spoiled ?_,
    forall_mem_concat ?_ ?_⟩
  · obtain ⟨j, hj, rest⟩ := h.reused p hp
    exact ⟨j, List.mem_append_left _ hj, rest⟩
  · intro o ho
    simp [hlk] at ho
  · intro o ho
    simp [hlk] at ho
  · intro j hj ho hn
    obtain ⟨k, hk, rest⟩ := h.blamed j hj ho hn
    exact ⟨k, List.mem_append_left _ hk, rest⟩
  · rintro ⟨o, ho⟩
    simp [hlk] at ho

/-- A digest that is reused is set at a path that nothing done has, and no parent of it. -/
theorem Refreshed.reuse {done : List Inode} {hs : Hashes} {i o : Inode}
    (h : Refreshed H parentOf old done hs) (hlinked : ParentLinked inodes parentOf)
    (hlt : ∀ j ∈ done, j.path < i.path) (hlk : lookup Inode.path i.path old = some o)
    (hr : Reusable H o i) : Refreshed H parentOf old (done ++ [i]) (hs.set i.path o.hash) := by
  have hne : ∀ j ∈ done, (hs.set i.path o.hash) j.path = hs j.path := fun j hj =>
    hs.set_of_ne (ne_of_lt (hlt j hj)) _
  refine ⟨fun p hp => ?_, forall_mem_concat ?_ ?_, forall_mem_concat ?_ ?_,
    forall_mem_concat ?_ ?_⟩
  · by_cases hpi : p = i.path
    · subst hpi
      exact ⟨i, List.mem_concat_self, rfl, o, hlk, hr, hs.set_self _ _⟩
    · rw [hs.set_of_ne hpi] at hp ⊢
      obtain ⟨j, hj, rest⟩ := h.reused p hp
      exact ⟨j, List.mem_append_left _ hj, rest⟩
  · intro j hj o' ho' hn q hq
    have hqi : q ≠ i.path := ne_of_lt ((hlinked.parent_lt hq).trans (hlt j hj))
    rw [hs.set_of_ne hqi]
    exact h.climbs j hj o' ho' (by rwa [← hne j hj]) q hq
  · intro o' _ hn
    rw [hs.set_self] at hn
    exact absurd hn hr.ne_none
  · intro j hj o' ho' hn
    rw [hne j hj]
    exact h.spoiled j hj o' ho' hn
  · intro o' ho' hn
    rw [hlk] at ho'
    exact absurd (Option.some.inj ho' ▸ hr) hn
  · intro j hj ho' hn
    obtain ⟨k, hk, rest⟩ := h.blamed j hj ho' (by rwa [← hne j hj])
    exact ⟨k, List.mem_append_left _ hk, rest⟩
  · rintro - hn
    rw [hs.set_self] at hn
    exact absurd hn hr.ne_none

/-- What keeps a digest when an inode is made dirty keeps the one it had. -/
theorem setDirty_of_ne_none {fuel : ℕ} {hs : Hashes} {p q : Bytes}
    (hp : setDirty parentOf fuel q hs p ≠ Digest.none) : setDirty parentOf fuel q hs p = hs p :=
  (setDirty_cases fuel q hs p).resolve_right fun hx => hp hx.1

/-- A match that may not be reused makes itself dirty, and all that is above it. -/
theorem Refreshed.spoil {done : List Inode} {hs : Hashes} {i o : Inode}
    (h : Refreshed H parentOf old done hs) (hlinked : ParentLinked inodes parentOf)
    (hlk : lookup Inode.path i.path old = some o) (hr : ¬ Reusable H o i) :
    Refreshed H parentOf old (done ++ [i]) (setDirty parentOf i.path.length i.path hs) := by
  have hreused : ∀ p, setDirty parentOf i.path.length i.path hs p ≠ Digest.none →
      ∃ j ∈ done ++ [i], j.path = p ∧ ∃ o', lookup Inode.path p old = some o' ∧
        Reusable H o' j ∧ setDirty parentOf i.path.length i.path hs p = o'.hash := by
    intro p hp
    have hk := setDirty_of_ne_none hp
    rw [hk] at hp ⊢
    obtain ⟨j, hj, rest⟩ := h.reused p hp
    exact ⟨j, List.mem_append_left _ hj, rest⟩
  have hempty : ∀ p, (setDirty parentOf i.path.length i.path hs p).empty = true →
      setDirty parentOf i.path.length i.path hs p = Digest.none := by
    intro p hp
    by_contra hn
    obtain ⟨j, -, -, o', -, hr', ho'⟩ := hreused p hn
    rw [ho', hr'.not_empty] at hp
    cases hp
  have hclimb : ∀ j ∈ done ++ [i], ∀ q, parentOf j.path = some q →
      (j = i ∨ setDirty parentOf i.path.length i.path hs j.path ≠ hs j.path) →
      setDirty parentOf i.path.length i.path hs q = Digest.none := by
    intro j hj q hq hx
    exact hempty q (setDirty_parent hlinked.parent_length_lt le_rfl hs hq
      (hx.imp (fun h => by rw [h]) id))
  refine ⟨hreused, forall_mem_concat ?_ ?_, forall_mem_concat ?_ ?_, forall_mem_concat ?_ ?_⟩
  · intro j hj o' ho' hn q hq
    by_cases hx : setDirty parentOf i.path.length i.path hs j.path = hs j.path
    · exact setDirty_eq_none _ _ (h.climbs j hj o' ho' (by rw [← hx, hn]) q hq)
    · exact hclimb j (List.mem_append_left _ hj) q hq (Or.inr hx)
  · intro o' _ _ q hq
    exact hclimb i List.mem_concat_self q hq (Or.inl rfl)
  · intro j hj o' ho' hn
    exact setDirty_eq_none _ _ (h.spoiled j hj o' ho' hn)
  · intro o' _ _
    exact setDirty_self _ _ _
  · intro j hj ho' hn
    rcases setDirty_cases i.path.length i.path hs j.path with hx | ⟨-, hc⟩
    · obtain ⟨k, hk, rest⟩ := h.blamed j hj ho' (by rw [← hx, hn])
      exact ⟨k, List.mem_append_left _ hk, rest⟩
    · exact ⟨i, List.mem_concat_self, ⟨o, hlk, hr⟩, hc⟩
  · intro _ _
    exact ⟨i, List.mem_concat_self, ⟨o, hlk, hr⟩, Relation.ReflTransGen.refl⟩

/-- **The step of a refresh**, at an inode that comes after those done. -/
theorem Refreshed.step {done : List Inode} {hs : Hashes} {i : Inode}
    (h : Refreshed H parentOf old done hs) (hlinked : ParentLinked inodes parentOf)
    (hlt : ∀ j ∈ done, j.path < i.path) :
    Refreshed H parentOf old (done ++ [i]) (refreshStep H parentOf old hs i) := by
  rw [refreshStep, joinStep]
  cases hlk : lookup Inode.path i.path old with
  | none => exact h.scanOnly hlk
  | some o =>
    by_cases hr : Reusable H o i
    · simp only [refreshBoth_of_reusable hr]
      exact h.reuse hlinked hlt hlk hr
    · simp only [refreshBoth_of_not_reusable hr]
      exact h.spoil hlinked hlk hr

/-- **The whole refresh**, over a sorted old index. -/
theorem refreshed_refreshList (hlinked : ParentLinked inodes parentOf)
    (hold : StrictBy Inode.path old) :
    Refreshed H parentOf old inodes (refreshList H parentOf inodes old) := by
  rw [refreshList, walk_eq_foldl hlinked.strict hold]
  suffices hs : ∀ (rest done : List Inode) (hs : Hashes), inodes = done ++ rest →
      Refreshed H parentOf old done hs →
      Refreshed H parentOf old inodes (rest.foldl (refreshStep H parentOf old) hs) by
    refine hs inodes [] Hashes.clean rfl ⟨fun p hp => absurd rfl hp, ?_, ?_, ?_⟩ <;> simp
  intro rest
  induction rest with
  | nil =>
    intro done hs heq h
    rw [List.append_nil] at heq
    rwa [heq]
  | cons i rest ih =>
    intro done hs heq h
    have hsort := hlinked.strict
    rw [heq, strictBy_append] at hsort
    refine ih (done ++ [i]) _ (by simpa using heq) ?_
    exact h.step hlinked fun j hj => hsort.2.2 j hj i (by simp)

/-- **A digest that is there is reused**: from an old inode with the same path
and metadata. -/
theorem refreshList_reused (hlinked : ParentLinked inodes parentOf)
    (hold : StrictBy Inode.path old) {p : Bytes}
    (hp : refreshList H parentOf inodes old p ≠ Digest.none) :
    ∃ i ∈ inodes, i.path = p ∧ ∃ o ∈ old, o.path = p ∧ Reusable H o i ∧
      refreshList H parentOf inodes old p = o.hash := by
  obtain ⟨i, hi, hip, o, ho, rest⟩ := (refreshed_refreshList hlinked hold).reused p hp
  obtain ⟨hmem, hop⟩ := hold.lookup_eq_some_iff.mp ho
  exact ⟨i, hi, hip, o, hmem, hop, rest⟩

/-- **A match without a digest has no parent with one.** -/
theorem refreshList_parent (hlinked : ParentLinked inodes parentOf)
    (hold : StrictBy Inode.path old) {i o : Inode} (hi : i ∈ inodes) (ho : o ∈ old)
    (hpath : o.path = i.path) (hn : refreshList H parentOf inodes old i.path = Digest.none)
    {q : Bytes} (hq : parentOf i.path = some q) :
    refreshList H parentOf inodes old q = Digest.none :=
  (refreshed_refreshList hlinked hold).climbs i hi o (hold.lookup_eq_some_iff.mpr ⟨ho, hpath⟩) hn q
    hq

/-- The root has no digest. -/
theorem refreshList_root (hlinked : ParentLinked inodes parentOf)
    (hold : StrictBy Inode.path old) : refreshList H parentOf inodes old [] = Digest.none := by
  by_contra hn
  obtain ⟨i, hi, hip, -⟩ := refreshList_reused hlinked hold hn
  obtain ⟨q, hq, -⟩ := hlinked.linked i hi
  obtain ⟨ns, n, hp, -⟩ := hlinked.cut _ _ hq
  rw [hip] at hp
  exact absurd hp.symm (by simp)

/-- Every inode of the list has its parent in it. -/
def ParentClosed (l : List Inode) : Prop :=
  ∀ o ∈ l, ∀ ns n, o.path = pathStr (ns ++ [n]) → ns = [] ∨ ∃ o' ∈ l, o'.path = pathStr ns

/-- **A path is kept** by the refresh of a list: it is in both lists, and every inode of the list
at it or below it that has an old inode may reuse its digest. -/
def KeptIn (H : HashFunction) (parentOf : Bytes → Option Bytes) (inodes old : List Inode)
    (p : Bytes) : Prop :=
  (∃ i ∈ inodes, i.path = p ∧ ∃ o ∈ old, o.path = p) ∧
    ∀ j ∈ inodes, ∀ o ∈ old, o.path = j.path → Climbs parentOf j.path p → Reusable H o j

theorem ParentLinked.eq_nil_of_climbs (h : ParentLinked inodes parentOf) {p : Bytes}
    (hc : Climbs parentOf [] p) : p = [] := by
  rcases Relation.ReflTransGen.cases_head hc with rfl | ⟨q, hq, -⟩
  · rfl
  · obtain ⟨ns, n, hnil, -⟩ := h.cut _ _ hq
    exact absurd hnil.symm (by simp)

/-- **What the refresh of a list keeps**: over a sorted old index that is closed under
parents, the paths with a digest are the kept ones. -/
theorem refreshList_ne_none_iff (hlinked : ParentLinked inodes parentOf)
    (hold : StrictBy Inode.path old) (hclosed : ParentClosed old) {p : Bytes} :
    refreshList H parentOf inodes old p ≠ Digest.none ↔ KeptIn H parentOf inodes old p := by
  have hfin : Refreshed H parentOf old inodes (refreshList H parentOf inodes old) :=
    refreshed_refreshList hlinked hold
  constructor
  · intro hp
    obtain ⟨i, hi, hip, o, ho, hop, -, -⟩ := refreshList_reused hlinked hold hp
    refine ⟨⟨i, hi, hip, o, ho, hop⟩, fun j hj o' ho' hpath hc => ?_⟩
    by_contra hr
    have hj0 := hfin.spoiled j hj o' (hold.lookup_eq_some_iff.mpr ⟨ho', hpath⟩) hr
    -- the lack of a digest climbs from `j` to `p`, through inodes that are in both lists
    have hup : ∀ q, Climbs parentOf q p → q = [] ∨ (∃ k ∈ inodes, k.path = q ∧
        ∃ o ∈ old, o.path = q) → refreshList H parentOf inodes old q = Digest.none →
        refreshList H parentOf inodes old p = Digest.none := by
      intro q hq
      induction hq using Relation.ReflTransGen.head_induction_on with
      | refl => exact fun _ h => h
      | @head q r hqr hrp ih =>
        rintro (rfl | ⟨k, hk, rfl, o₁, ho₁, hok⟩) hn
        · rw [hlinked.eq_nil_of_climbs (Relation.ReflTransGen.head hqr hrp)]
          exact refreshList_root hlinked hold
        · refine ih ?_ (refreshList_parent hlinked hold hk ho₁ hok hn hqr)
          obtain ⟨r', hr', hmem⟩ := hlinked.linked k hk
          obtain rfl : r = r' := Option.some.inj (hqr.symm.trans hr')
          rcases hmem with hr | ⟨k', hk', hkr'⟩
          · exact Or.inl hr
          · obtain ⟨ns, n, hkp, rfl⟩ := hlinked.cut _ _ hqr
            rcases hclosed o₁ ho₁ ns n (hok.trans hkp) with rfl | ⟨o₂, ho₂, hor⟩
            · exact Or.inl rfl
            · exact Or.inr ⟨k', hk', hkr', o₂, ho₂, hor⟩
    exact hp (hup j.path hc (Or.inr ⟨j, hj, rfl, o', ho', hpath⟩) hj0)
  · rintro ⟨⟨i, hi, rfl, o, ho, hop⟩, hall⟩ hn
    obtain ⟨j, hj, ⟨o', ho', hr⟩, hc⟩ :=
      hfin.blamed i hi ⟨o, hold.lookup_eq_some_iff.mpr ⟨ho, hop⟩⟩ hn
    obtain ⟨hmem, hpath⟩ := hold.lookup_eq_some_iff.mp ho'
    exact hr (hall j hj o' hmem hpath hc)

/-- **The digest of a kept path** is the old one. -/
theorem refreshList_of_kept (hlinked : ParentLinked inodes parentOf)
    (hold : StrictBy Inode.path old) (hclosed : ParentClosed old) {o : Inode} (ho : o ∈ old)
    (hk : KeptIn H parentOf inodes old o.path) :
    refreshList H parentOf inodes old o.path = o.hash := by
  obtain ⟨i, -, -, o', ho', hop, -, heq⟩ :=
    refreshList_reused hlinked hold ((refreshList_ne_none_iff hlinked hold hclosed).mpr hk)
  rw [heq, eq_of_key_eq hold.nodup_keys ho' ho hop]

end Refresh

/-! ### The refresh of a scan -/

section Scan

variable {H : HashFunction} {d : Disk} {ignores : Bytes → Bool} {root : List Name}
  {s : Scan d ignores root} {old : List Inode}

theorem Scan.parentLinked (s : Scan d ignores root) : ParentLinked s.inodes s.parentOf where
  strict := s.strictBy_inodes
  linked i hi := by
    have hp := s.parentOf_path (s.mem_marked_of_mem_inodes hi)
    obtain ⟨ns, n, node, -, rfl⟩ := s.mem_inodes.mp hi
    refine ⟨pathStr ns, hp, ?_⟩
    exact (s.mem_inodes_parent hi rfl).imp id fun ⟨j, hj, hjp, _⟩ => ⟨j, hj, hjp⟩
  cut _ _ hq := s.parentOf_eq_some hq

/-- **A digest that is there is reused**: from an old inode with the same path
and metadata. -/
theorem refresh_reused (hold : StrictBy Inode.path old) {p : Bytes}
    (hp : refresh H s old p ≠ Digest.none) :
    ∃ i ∈ s.inodes, i.path = p ∧ ∃ o ∈ old, o.path = p ∧ Reusable H o i ∧
      refresh H s old p = o.hash :=
  refreshList_reused s.parentLinked hold hp

/-- **A match without a digest has no parent with one.** -/
theorem refresh_parent (hold : StrictBy Inode.path old) {i o : Inode} (hi : i ∈ s.inodes)
    (ho : o ∈ old) (hpath : o.path = i.path) (hn : refresh H s old i.path = Digest.none)
    {q : Bytes} (hq : i.parent = some q) : refresh H s old q = Digest.none :=
  refreshList_parent s.parentLinked hold hi ho hpath hn
    ((s.parentOf_path (s.mem_marked_of_mem_inodes hi)).trans hq)

/-- **A path is kept**: it is in both lists, and every inode of the scan at it or
below it that has an old inode may reuse its digest. -/
def Kept (H : HashFunction) (s : Scan d ignores root) (old : List Inode) (p : Bytes) : Prop :=
  (∃ i ∈ s.inodes, i.path = p ∧ ∃ o ∈ old, o.path = p) ∧
    ∀ j ∈ s.inodes, ∀ o ∈ old, o.path = j.path → Climbs s.parentOf j.path p → Reusable H o j

/-- **What a refresh keeps**: over a sorted old index that is closed under
parents, the paths with a digest are the kept ones. -/
theorem refresh_ne_none_iff (hold : StrictBy Inode.path old) (hclosed : ParentClosed old)
    {p : Bytes} : refresh H s old p ≠ Digest.none ↔ Kept H s old p :=
  refreshList_ne_none_iff s.parentLinked hold hclosed

/-- **The digest of a kept path** is the old one. -/
theorem refresh_of_kept (hold : StrictBy Inode.path old) (hclosed : ParentClosed old) {o : Inode}
    (ho : o ∈ old) (hk : Kept H s old o.path) : refresh H s old o.path = o.hash :=
  refreshList_of_kept s.parentLinked hold hclosed ho hk

end Scan

end Fstree
