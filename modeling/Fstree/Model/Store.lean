import Fstree.Model.Inode
import Mathlib.Logic.Function.Basic

/-!
# The object store

The objects of the cache are files under its object directory: the content of a
file with digest `h` at `Fstree.filePath h`, the tree object of a directory with
digest `h` at `Fstree.treePath h`. Both paths are made of the hexadecimal digits
alone – the first two name a subdirectory – and a digest that was read from
somewhere may have any bytes as its digits. Paths of digests of this build are
told apart all the same (`Fstree.filePath_eq_iff`), also from those of any other
string.

A store (`Fstree.Store`) is what is at each path. It is **content-addressed**
(`Fstree.ContentAddressed`) when every object has the digest it is stored under.
-/

namespace Fstree

/-! ### Object paths -/

/-- The path of an object, relative to the object directory. -/
def objectPath (suffix : Bytes) (h : Digest) : Bytes :=
  joinPath (h.hexdigest.take 2) (h.hexdigest.drop 2 ++ suffix)

/-- The suffix of file objects. -/
def fileSuffix : Bytes := ascii ['.', 'f', 'i', 'l', 'e']

/-- The suffix of tree objects. -/
def treeSuffix : Bytes := ascii ['.', 't', 'r', 'e', 'e']

/-- `cache::file_path`. -/
def filePath (h : Digest) : Bytes := objectPath fileSuffix h

/-- `cache::tree_path`. -/
def treePath (h : Digest) : Bytes := objectPath treeSuffix h

/-- A digest whose digits make a plain path: more than two, and no separator. -/
structure Digest.Plain (h : Digest) : Prop where
  length : 2 < h.hexdigest.length
  slash_notMem : slash ∉ h.hexdigest

theorem HashFunction.plain_sum (H : HashFunction) (b : Bytes) : (H.sum b).Plain where
  length := by
    rw [H.sum_length]
    exact H.digestLength_pos
  slash_notMem := fun hmem => absurd (H.sum_digits b _ hmem) (by decide)

/-- Every object path ends in its suffix. -/
theorem objectPath_suffix (suffix : Bytes) (h : Digest) :
    ∃ p, objectPath suffix h = p ++ suffix := by
  rw [objectPath, joinPath]
  split_ifs
  · exact ⟨_, rfl⟩
  · exact ⟨_, (List.append_assoc _ _ _).symm⟩
  · exact ⟨h.hexdigest.take 2 ++ slash :: h.hexdigest.drop 2, by simp⟩

theorem filePath_ne_treePath (h h' : Digest) : filePath h ≠ treePath h' := by
  obtain ⟨p, hp⟩ := objectPath_suffix fileSuffix h
  obtain ⟨q, hq⟩ := objectPath_suffix treeSuffix h'
  rw [filePath, treePath, hp, hq]
  intro he
  exact absurd (List.append_inj' he rfl).2 (by decide)

/-- The object path of a plain digest: its separator is the third byte. -/
theorem Digest.Plain.objectPath_eq {h : Digest} (hp : h.Plain) (suffix : Bytes) :
    ∃ a b c rest, h.hexdigest = a :: b :: c :: rest ∧ a ≠ slash ∧ b ≠ slash ∧ c ≠ slash ∧
      objectPath suffix h = a :: b :: slash :: c :: rest ++ suffix := by
  obtain ⟨hlen, hslash⟩ := hp
  rw [objectPath]
  match h.hexdigest, hlen, hslash with
  | a :: b :: c :: rest, _, hslash =>
    simp only [List.mem_cons, not_or] at hslash
    obtain ⟨ha, hb, hc, -⟩ := hslash
    refine ⟨a, b, c, rest, rfl, Ne.symm ha, Ne.symm hb, Ne.symm hc, ?_⟩
    have hc' : ¬ c = slash := Ne.symm hc
    have hb' : ¬ b = slash := Ne.symm hb
    simp [joinPath, hc', hb']

/-- **The object path of a plain digest is its own**: a digest with that path
has its digits. -/
theorem objectPath_inj {suffix : Bytes} {h h' : Digest} (hp : h.Plain)
    (he : objectPath suffix h' = objectPath suffix h) : h'.hexdigest = h.hexdigest := by
  obtain ⟨a, b, c, rest, hhex, ha, hb, hc, hpath⟩ := hp.objectPath_eq suffix
  rw [hpath, objectPath, joinPath] at he
  rw [hhex]
  rcases hhex' : h'.hexdigest with _ | ⟨x, _ | ⟨y, tail⟩⟩
  · -- no digit
    rw [hhex'] at he
    split_ifs at he with h1 h2
    · simp only [List.drop_nil, List.nil_append] at he h1
      rw [he] at h1
      exact absurd (Option.some.inj h1) ha
    · have hl := congrArg List.length he
      simp at hl
      omega
    · simp at h2
  · -- one digit
    rw [hhex'] at he
    split_ifs at he with h1 h2
    · simp only [List.drop_succ_cons, List.drop_nil, List.nil_append] at he h1
      rw [he] at h1
      exact absurd (Option.some.inj h1) ha
    · have hl := congrArg List.length he
      simp at hl
      omega
    · simp only [List.take_succ_cons, List.take_nil, List.cons_append, List.nil_append,
        List.cons.injEq] at he
      exact absurd he.2.1.symm hb
  · rw [hhex'] at he
    simp only [List.take_succ_cons, List.take_zero, List.drop_succ_cons, List.drop_zero] at he
    split_ifs at he with h1 h2
    · rw [he] at h1
      exact absurd (Option.some.inj h1) ha
    · have hy : y = slash := by simpa using h2
      simp only [List.cons_append, List.nil_append, List.cons.injEq] at he
      exact absurd (he.2.1.symm.trans hy) hb
    · simp only [List.cons_append, List.nil_append, List.cons.injEq] at he
      obtain ⟨rfl, rfl, -, htail⟩ := he
      rw [← List.cons_append] at htail
      rw [List.append_cancel_right htail]

/-- **File paths of digests of this build are told apart.** -/
theorem filePath_eq_iff (H : HashFunction) {h : Digest} {b : Bytes} (halg : h.alg = H.alg) :
    filePath h = filePath (H.sum b) ↔ h = H.sum b := by
  refine ⟨fun he => ?_, fun he => by rw [he]⟩
  have hhex := objectPath_inj (H.plain_sum b) he
  have ha := H.sum_alg b
  cases h
  cases hs : H.sum b
  rw [hs] at hhex ha
  simp_all

/-- **Tree paths of digests of this build are told apart.** -/
theorem treePath_eq_iff (H : HashFunction) {h : Digest} {b : Bytes} (halg : h.alg = H.alg) :
    treePath h = treePath (H.sum b) ↔ h = H.sum b := by
  refine ⟨fun he => ?_, fun he => by rw [he]⟩
  have hhex := objectPath_inj (H.plain_sum b) he
  have ha := H.sum_alg b
  cases h
  cases hs : H.sum b
  rw [hs] at hhex ha
  simp_all

/-! ### Stores -/

/-- **A store**: the bytes at each object path, if there is an object. -/
abbrev Store := Bytes → Option Bytes

namespace Store

/-- Nothing is stored. -/
def empty : Store := fun _ => none

/-- The object at a path is replaced. -/
def put (st : Store) (k : Bytes) (b : Bytes) : Store := Function.update st k (some b)

@[simp] theorem put_self (st : Store) (k b : Bytes) : st.put k b k = some b := by simp [put]

theorem put_of_ne (st : Store) {k k' : Bytes} (h : k' ≠ k) (b : Bytes) :
    st.put k b k' = st k' := by
  simp [put, h]

/-- `cache::has_object`. -/
def hasObject (st : Store) (h : Digest) : Bool := (st (filePath h)).isSome

/-- `cache::has_tree`. -/
def hasTree (st : Store) (h : Digest) : Bool := (st (treePath h)).isSome

end Store

/-- Every file object has the digest it is stored under. -/
def FilesAddressed (H : HashFunction) (st : Store) : Prop :=
  ∀ h b, h.alg = H.alg → st (filePath h) = some b → H.sum b = h

/-- Every tree object has the digest it is stored under. -/
def TreesAddressed (H : HashFunction) (st : Store) : Prop :=
  ∀ h b, h.alg = H.alg → st (treePath h) = some b → H.sum b = h

/-- **A content-addressed store**: every object has the digest it is stored
under. -/
structure ContentAddressed (H : HashFunction) (st : Store) : Prop where
  files : FilesAddressed H st
  trees : TreesAddressed H st

theorem contentAddressed_empty (H : HashFunction) : ContentAddressed H Store.empty where
  files _ _ _ h := absurd h (by simp [Store.empty])
  trees _ _ _ h := absurd h (by simp [Store.empty])

/-- A tree object stored under its own digest. -/
theorem TreesAddressed.put {H : HashFunction} {st : Store} (h : TreesAddressed H st) (b : Bytes) :
    TreesAddressed H (st.put (treePath (H.sum b)) b) := by
  intro d b' ha hb
  by_cases hk : treePath d = treePath (H.sum b)
  · rw [hk, Store.put_self] at hb
    rw [(treePath_eq_iff H ha).mp hk, Option.some.inj hb]
  · rw [Store.put_of_ne _ hk] at hb
    exact h d b' ha hb

end Fstree
