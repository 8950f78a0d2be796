import Fstree.Model.Digest
import Mathlib.Data.List.Sort
import Mathlib.Order.Lex
import Mathlib.Data.List.Lex

/-!
# Path strings

An inode is named by a *path string*: the names on its way from the root, joined
by slashes. The program never keeps the names themselves; it joins, cuts and
compares strings, with the rules of `std::filesystem::path` on a POSIX system,
where an absolute right operand replaces the left one.

The first part is those rules (`Fstree.joinPath`, `Fstree.fileName`,
`Fstree.parentPath`), for any byte strings. The second is the strings of *name
lists* (`Fstree.pathStr`): on them joining appends a name, and cutting removes
one. The string order is not the order of the name lists – `z-foo` stands
between `z` and `z/file` – but a path is below every path it is a proper prefix
of (`Fstree.pathStr_lt_append`), and that is all the program uses.
-/

namespace Fstree

open Codec

export Codec (Byte Bytes)

/-! ### The path operations of the standard library -/

/-- The byte `/`. -/
def slash : Byte := 47

/-- The byte `.`. -/
def dot : Byte := 46

/-- `operator/=` of a path: an absolute right operand replaces the left one, and
a separator is put after a left operand that ends in a file name. -/
def joinPath (p q : Bytes) : Bytes :=
  if q.head? = some slash then q
  else if p = [] ∨ p.getLast? = some slash then p ++ q
  else p ++ slash :: q

/-- `path::filename`: what follows the last separator. -/
def fileName (p : Bytes) : Bytes := (p.reverse.takeWhile (· ≠ slash)).reverse

/-- `path::parent_path`: what stands before the last file name, without the
separators that end it unless they are the root. -/
def parentPath (p : Bytes) : Bytes :=
  let dir := p.reverse.dropWhile (· ≠ slash)
  let trimmed := dir.dropWhile (· = slash)
  if trimmed = [] then (if dir = [] then [] else [slash]) else trimmed.reverse

/-! ### Names, and the strings of name lists -/

/-- A file name: not empty, and without a separator. -/
structure Name where
  /-- The bytes of the name. -/
  bytes : Bytes
  ne_nil : bytes ≠ []
  slash_notMem : slash ∉ bytes
deriving DecidableEq

theorem Name.ext {a b : Name} (h : a.bytes = b.bytes) : a = b := by
  cases a
  cases b
  cases h
  rfl

theorem Name.bytes_injective : Function.Injective Name.bytes := fun _ _ h => Name.ext h

theorem Name.head?_ne (n : Name) : n.bytes.head? ≠ some slash := fun h =>
  n.slash_notMem (List.mem_of_head? h)

theorem Name.getLast?_ne (n : Name) : n.bytes.getLast? ≠ some slash := fun h =>
  n.slash_notMem (List.mem_of_getLast? h)

/-- The path string of a list of names. -/
def pathStr (ns : List Name) : Bytes := [slash].intercalate (ns.map Name.bytes)

@[simp] theorem pathStr_nil : pathStr [] = [] := rfl

@[simp] theorem pathStr_singleton (n : Name) : pathStr [n] = n.bytes := by
  simp [pathStr, List.intercalate]

theorem pathStr_cons_cons (n m : Name) (ns : List Name) :
    pathStr (n :: m :: ns) = n.bytes ++ slash :: pathStr (m :: ns) := by
  simp [pathStr, List.intercalate]

theorem bytes_subset_pathStr {n : Name} {ns : List Name} (hn : n ∈ ns) :
    n.bytes ⊆ pathStr ns := by
  induction ns with
  | nil => cases hn
  | cons m ns ih =>
    cases ns with
    | nil =>
      rw [List.mem_singleton.mp hn, pathStr_singleton]
      exact List.Subset.refl _
    | cons k ns =>
      rw [pathStr_cons_cons]
      rcases List.mem_cons.mp hn with rfl | hn
      · exact List.subset_append_left _ _
      · exact List.subset_append_of_subset_right _ (List.subset_cons_of_subset _ (ih hn))

/-- The string of two lists put together, with a separator between them. -/
theorem pathStr_append {ns ms : List Name} (hn : ns ≠ []) (hm : ms ≠ []) :
    pathStr (ns ++ ms) = pathStr ns ++ slash :: pathStr ms := by
  induction ns with
  | nil => exact absurd rfl hn
  | cons n ns ih =>
    obtain ⟨m, ms', rfl⟩ := List.exists_cons_of_ne_nil hm
    rcases ns with _ | ⟨n', ns'⟩
    · simpa using pathStr_cons_cons n m ms'
    · have h := ih (by simp)
      simp only [List.cons_append] at h
      rw [List.cons_append, List.cons_append, pathStr_cons_cons, h, pathStr_cons_cons]
      simp

/-- **A slash in a path string** stands between two name lists. -/
theorem pathStr_cut {ns : List Name} {p q : Bytes} (h : pathStr ns = p ++ slash :: q) :
    ∃ ks ls, ns = ks ++ ls ∧ ks ≠ [] ∧ ls ≠ [] ∧ pathStr ks = p ∧ pathStr ls = q := by
  induction ns generalizing p with
  | nil => simp at h
  | cons n ns ih =>
    match ns with
    | [] =>
      rw [pathStr_singleton] at h
      exact absurd (h ▸ List.mem_append_right p List.mem_cons_self) n.slash_notMem
    | m :: ns =>
      rw [pathStr_cons_cons] at h
      rcases List.append_eq_append_iff.mp h with ⟨a, rfl, ha⟩ | ⟨a, hn, ha⟩
      · rcases List.cons_eq_append_iff.mp ha with ⟨rfl, hq⟩ | ⟨a', rfl, ha'⟩
        · obtain rfl := (List.cons.inj hq).2
          exact ⟨[n], m :: ns, rfl, by simp, by simp, by simp, rfl⟩
        · -- the slash is further down
          obtain ⟨ks, ls, he, hks, hls, rfl, rfl⟩ := ih ha'
          refine ⟨n :: ks, ls, by rw [he, List.cons_append], by simp, hls, ?_, rfl⟩
          obtain ⟨k, ks', rfl⟩ := List.exists_cons_of_ne_nil hks
          exact pathStr_cons_cons n k ks'
      · rcases List.cons_eq_append_iff.mp ha with ⟨rfl, hq⟩ | ⟨a', rfl, ha'⟩
        · obtain rfl := (List.cons.inj hq).2
          exact ⟨[n], m :: ns, rfl, by simp, by simp, by simpa using hn, rfl⟩
        · exact absurd (hn ▸ List.mem_append_right p List.mem_cons_self) n.slash_notMem

theorem pathStr_concat {ns : List Name} (hn : ns ≠ []) (n : Name) :
    pathStr (ns ++ [n]) = pathStr ns ++ slash :: n.bytes := by
  simpa using pathStr_append hn (List.cons_ne_nil n [])

@[simp] theorem pathStr_eq_nil {ns : List Name} : pathStr ns = [] ↔ ns = [] := by
  refine ⟨fun h => ?_, fun h => by rw [h, pathStr_nil]⟩
  match ns with
  | [] => rfl
  | [n] => exact absurd (by simpa using h) n.ne_nil
  | n :: m :: ns => simp [pathStr_cons_cons] at h

theorem pathStr_head?_ne (ns : List Name) : (pathStr ns).head? ≠ some slash := by
  match ns with
  | [] => simp
  | [n] => simpa using n.head?_ne
  | n :: m :: ns =>
    obtain ⟨b, bs, hb⟩ := List.exists_cons_of_ne_nil n.ne_nil
    have h := n.head?_ne
    rw [hb] at h
    simpa [pathStr_cons_cons, hb] using h

theorem pathStr_getLast?_ne (ns : List Name) : (pathStr ns).getLast? ≠ some slash := by
  rcases List.eq_nil_or_concat' ns with rfl | ⟨ns', n, rfl⟩
  · simp
  rcases List.eq_nil_or_concat' ns' with rfl | ⟨ns'', n', rfl⟩
  · simpa using n.getLast?_ne
  · rw [pathStr_concat (by simp)]
    obtain ⟨b, bs, hb⟩ := List.exists_cons_of_ne_nil n.ne_nil
    have h := n.getLast?_ne
    rw [hb] at h ⊢
    simpa [List.getLast?_append, List.getLast?_cons_cons] using h

/-- **The string of a name list determines it.** -/
theorem pathStr_injective : Function.Injective pathStr := by
  intro ns ms h
  by_cases hn : ns = []
  · subst hn
    exact (pathStr_eq_nil.mp h.symm).symm
  by_cases hm : ms = []
  · subst hm
    exact pathStr_eq_nil.mp h
  have hsplit : ∀ ls : List Name, ls ≠ [] →
      (pathStr ls).splitOn slash = ls.map Name.bytes := fun ls hls =>
    List.splitOn_intercalate slash (by simpa using fun a _ => a.slash_notMem) (by simpa using hls)
  have hmap : ns.map Name.bytes = ms.map Name.bytes := by
    rw [← hsplit ns hn, ← hsplit ms hm, h]
  exact List.map_injective_iff.mpr Name.bytes_injective hmap

@[simp] theorem pathStr_inj {ns ms : List Name} : pathStr ns = pathStr ms ↔ ns = ms :=
  pathStr_injective.eq_iff

theorem pathStr_concat_inj {ns ms : List Name} {n m : Name} :
    pathStr (ns ++ [n]) = pathStr (ms ++ [m]) ↔ ns = ms ∧ n = m := by
  simp

/-- **Joining a name appends it.** -/
@[simp] theorem joinPath_pathStr (ns : List Name) (n : Name) :
    joinPath (pathStr ns) n.bytes = pathStr (ns ++ [n]) := by
  rw [joinPath, if_neg n.head?_ne]
  by_cases hn : ns = []
  · simp [hn]
  · rw [if_neg (by simpa [hn] using pathStr_getLast?_ne ns), pathStr_concat hn]

/-- Taking the last component off a string that has a separator before it. -/
theorem takeWhile_reverse_concat (p : Bytes) (n : Name) :
    (p ++ slash :: n.bytes).reverse.takeWhile (· ≠ slash) = n.bytes.reverse := by
  have hall : ∀ b ∈ n.bytes.reverse, (decide (b ≠ slash)) = true := fun b hb => by
    have hmem : b ∈ n.bytes := by simpa using hb
    exact decide_eq_true fun he => n.slash_notMem (he ▸ hmem)
  rw [List.reverse_append, List.reverse_cons, List.append_assoc,
    List.takeWhile_append_of_pos hall]
  simp

/-- The file name of a path is its last name. -/
@[simp] theorem fileName_pathStr (ns : List Name) (n : Name) :
    fileName (pathStr (ns ++ [n])) = n.bytes := by
  by_cases hn : ns = []
  · have hall : ∀ b ∈ n.bytes.reverse, (decide (b ≠ slash)) = true := fun b hb => by
      have hmem : b ∈ n.bytes := by simpa using hb
      exact decide_eq_true fun he => n.slash_notMem (he ▸ hmem)
    have h : (n.bytes.reverse ++ []).takeWhile (· ≠ slash) = _ :=
      List.takeWhile_append_of_pos hall
    simp only [List.append_nil, List.takeWhile_nil] at h
    rw [hn, List.nil_append, pathStr_singleton, fileName, h, List.reverse_reverse]
  · rw [fileName, pathStr_concat hn, takeWhile_reverse_concat, List.reverse_reverse]

/-- The first name of a path. -/
def topName (p : Bytes) : Bytes := p.takeWhile (· ≠ slash)

@[simp] theorem topName_pathStr (n : Name) (ns : List Name) :
    topName (pathStr (n :: ns)) = n.bytes := by
  have hall : ∀ b ∈ n.bytes, (decide (b ≠ slash)) = true := fun b hb =>
    decide_eq_true fun he => n.slash_notMem (he ▸ hb)
  match ns with
  | [] =>
    have h : (n.bytes ++ []).takeWhile (· ≠ slash) = _ := List.takeWhile_append_of_pos hall
    simpa [topName] using h
  | m :: ns =>
    rw [topName, pathStr_cons_cons, List.takeWhile_append_of_pos hall]
    simp

@[simp] theorem topName_bytes (n : Name) : topName n.bytes = n.bytes := by
  simpa using topName_pathStr n []

/-- The path above a name. -/
theorem parentPath_append {p : Bytes} (hp : p ≠ []) (hlast : p.getLast? ≠ some slash) (n : Name) :
    parentPath (p ++ slash :: n.bytes) = p := by
  have hall : ∀ b ∈ n.bytes.reverse, (decide (b ≠ slash)) = true := fun b hb => by
    have hmem : b ∈ n.bytes := by simpa using hb
    exact decide_eq_true fun he => n.slash_notMem (he ▸ hmem)
  have hdir : (p ++ slash :: n.bytes).reverse.dropWhile (· ≠ slash) = slash :: p.reverse := by
    rw [List.reverse_append, List.reverse_cons, List.append_assoc,
      List.dropWhile_append_of_pos hall]
    simp
  have htrim : (slash :: p.reverse).dropWhile (· = slash) = p.reverse := by
    rw [List.dropWhile_cons_of_pos (by simp)]
    rw [← List.head?_reverse] at hlast
    cases hr : p.reverse with
    | nil => rfl
    | cons b bs =>
      rw [hr] at hlast
      exact List.dropWhile_cons_of_neg (by simpa using hlast)
  have hne : p.reverse ≠ [] := by simpa using hp
  rw [parentPath]
  simp only [hdir, htrim, if_neg hne, List.reverse_reverse]

/-- **Cutting the last name off.** -/
@[simp] theorem parentPath_pathStr (ns : List Name) (n : Name) :
    parentPath (pathStr (ns ++ [n])) = pathStr ns := by
  by_cases hn : ns = []
  · have hall : ∀ b ∈ n.bytes.reverse, (decide (b ≠ slash)) = true := fun b hb => by
      have hmem : b ∈ n.bytes := by simpa using hb
      exact decide_eq_true fun he => n.slash_notMem (he ▸ hmem)
    have h : (n.bytes.reverse ++ []).dropWhile (· ≠ slash) = _ :=
      List.dropWhile_append_of_pos hall
    simp only [List.append_nil, List.dropWhile_nil] at h
    simp only [hn, List.nil_append, pathStr_singleton, parentPath, h]
    rfl
  · rw [pathStr_concat hn]
    exact parentPath_append (by simpa using hn) (pathStr_getLast?_ne ns) n

/-! ### The string order -/

/-- A string is below every proper extension of it. -/
theorem lt_append_cons (p : Bytes) (b : Byte) (q : Bytes) : p < p ++ b :: q := by
  induction p with
  | nil => exact List.nil_lt_cons b q
  | cons a p ih => exact List.cons_lt_cons_iff.mpr (Or.inr ⟨rfl, ih⟩)

/-- **A directory sorts before everything below it.** -/
theorem pathStr_lt_append {ns : List Name} {ms : List Name} (hm : ms ≠ []) :
    pathStr ns < pathStr (ns ++ ms) := by
  by_cases hn : ns = []
  · obtain ⟨b, bs, hb⟩ := List.exists_cons_of_ne_nil (mt pathStr_eq_nil.mp hm)
    rw [hn, List.nil_append, pathStr_nil, hb]
    exact List.nil_lt_cons b bs
  · rw [pathStr_append hn hm]
    exact lt_append_cons _ _ _

/-- A path around one of its names. -/
theorem pathStr_append_cons (ns : List Name) (n : Name) (ks : List Name) :
    pathStr (ns ++ n :: ks) = (if ns = [] then [] else pathStr ns ++ [slash]) ++
      (n.bytes ++ if ks = [] then [] else slash :: pathStr ks) := by
  have hcons : pathStr (n :: ks) = n.bytes ++ if ks = [] then [] else slash :: pathStr ks := by
    cases ks with
    | nil => simp
    | cons k ks => simp [pathStr_cons_cons]
  by_cases hns : ns = []
  · simp [hns, hcons]
  · simp [hns, pathStr_append hns (List.cons_ne_nil n ks), hcons]

section Lexicographic

variable {α : Type*} [LinearOrder α]

theorem append_lt_append_left_iff (p a b : List α) : p ++ a < p ++ b ↔ a < b := by
  induction p with
  | nil => rfl
  | cons x p ih => simp [ih]

/-- **One list is before another** if it begins it, or has something smaller where they first
differ. -/
theorem lt_cases {a b : List α} (h : a < b) : (∃ c rest, b = a ++ c :: rest) ∨
    ∃ p x y a' b', a = p ++ x :: a' ∧ b = p ++ y :: b' ∧ x < y := by
  induction a generalizing b with
  | nil =>
    cases b with
    | nil => exact absurd h (lt_irrefl _)
    | cons c rest => exact Or.inl ⟨c, rest, rfl⟩
  | cons x a ih =>
    cases b with
    | nil => exact absurd h (List.not_lt_nil _)
    | cons y b =>
      rcases List.cons_lt_cons_iff.mp h with hlt | ⟨rfl, hlt⟩
      · exact Or.inr ⟨[], x, y, a, b, rfl, rfl, hlt⟩
      · rcases ih hlt with ⟨c, rest, rfl⟩ | ⟨p, u, v, a', b', rfl, rfl, huv⟩
        · exact Or.inl ⟨c, rest, rfl⟩
        · exact Or.inr ⟨x :: p, u, v, a', b', rfl, rfl, huv⟩

end Lexicographic

/-- **The order of two paths that part at a name.** What is below the name that is smaller comes
first too, unless the other name goes on from it with a byte before the slash. -/
theorem pathStr_lt_pathStr {ns ks ks' : List Name} {n m : Name} (h : n.bytes < m.bytes) :
    pathStr (ns ++ n :: ks) < pathStr (ns ++ m :: ks') ↔
      (ks = [] ∨ ∀ c rest, m.bytes = n.bytes ++ c :: rest → slash < c) := by
  rw [pathStr_append_cons, pathStr_append_cons, append_lt_append_left_iff]
  rcases lt_cases h with ⟨c, rest, hm⟩ | ⟨p, x, y, a, b, hn, hm, hxy⟩
  · have hc : slash ≠ c := fun he => m.slash_notMem (by rw [hm, he]; simp)
    have hnext : (∀ c' rest', m.bytes = n.bytes ++ c' :: rest' → slash < c') ↔ slash < c := by
      simp [hm]
    rw [hnext, hm, List.append_assoc, append_lt_append_left_iff]
    by_cases hks : ks = []
    · simp [hks]
    · simp [hks, List.cons_lt_cons_iff, hc]
  · have hne : ∀ c' rest', m.bytes ≠ n.bytes ++ c' :: rest' := fun c' rest' he => by
      rw [hn, hm, List.append_assoc, List.append_cancel_left_eq] at he
      exact absurd (List.cons.inj he).1 (ne_of_gt hxy)
    rw [hn, hm, List.append_assoc, List.append_assoc, append_lt_append_left_iff]
    simp [List.cons_lt_cons_iff, hxy, ← hm, ← hn, hne]

/-- A path is no longer than one that ends in it. -/
theorem pathStr_length_le (ns ms : List Name) :
    (pathStr ms).length ≤ (pathStr (ns ++ ms)).length := by
  by_cases hn : ns = []
  · simp [hn]
  · by_cases hm : ms = []
    · simp [hm]
    · rw [pathStr_append hn hm, List.length_append, List.length_cons]
      omega

theorem pathStr_length_lt (ns : List Name) (n : Name) :
    (pathStr ns).length < (pathStr (ns ++ [n])).length := by
  have hpos : 0 < n.bytes.length := List.length_pos_of_ne_nil n.ne_nil
  by_cases hn : ns = []
  · simpa [hn] using hpos
  · rw [pathStr_concat hn, List.length_append, List.length_cons]
    omega

/-- The directory `q` is a proper ancestor of what `p` leads to. -/
def Ancestor (q p : Bytes) : Prop :=
  ∃ ns ms, q = pathStr ns ∧ p = pathStr (ns ++ ms) ∧ ns ≠ [] ∧ ms ≠ []

/-! ### Sample names -/

namespace Sample

/-- A name of one letter. -/
def nameA : Name := ⟨ascii ['a'], by decide, by decide⟩

@[inherit_doc nameA] def nameD : Name := ⟨ascii ['d'], by decide, by decide⟩

end Sample

end Fstree
