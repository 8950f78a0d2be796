import Mathlib.Data.List.Destutter
import Mathlib.Data.List.Nodup
import Mathlib.Data.List.Sort

/-!
# Lists sorted by a key

The two notions every index of a content-addressed store rests on, over an
arbitrary linear order of keys: a list **strictly sorted** by a key
(`SortedBy.StrictBy`), which is a finite map written down in order, and the
**sort** of a list by a key (`SortedBy.sortBy`), which is one as soon as the
keys are distinct.

What the rest of a development needs from them is that they are *canonical*: a
strictly sorted list is determined by its elements
(`SortedBy.StrictBy.eq_of_mem_iff`), so the sort forgets the order in which the
elements were collected (`SortedBy.sortBy_eq_of_perm`), and looking a key up
(`SortedBy.lookup`) finds the one element that has it
(`SortedBy.StrictBy.lookup_eq_some_iff`).
-/

namespace SortedBy

variable {α β κ : Type*} [LinearOrder κ] {key : α → κ} {l l' : List α}

/-! ### Strictly sorted lists -/

/-- **Strictly sorted by a key**: every element has a smaller key than the ones
after it. -/
def StrictBy (key : α → κ) (l : List α) : Prop := l.Pairwise fun a b => key a < key b

@[simp] theorem strictBy_nil : StrictBy key ([] : List α) := List.Pairwise.nil

@[simp] theorem strictBy_cons {a : α} :
    StrictBy key (a :: l) ↔ (∀ b ∈ l, key a < key b) ∧ StrictBy key l :=
  List.pairwise_cons

theorem strictBy_append :
    StrictBy key (l ++ l') ↔
      StrictBy key l ∧ StrictBy key l' ∧ ∀ a ∈ l, ∀ b ∈ l', key a < key b :=
  List.pairwise_append

theorem StrictBy.filter (h : StrictBy key l) (p : α → Bool) : StrictBy key (l.filter p) :=
  List.Pairwise.filter p h

theorem StrictBy.sublist (h : StrictBy key l) (hs : l'.Sublist l) : StrictBy key l' :=
  List.Pairwise.sublist hs h

/-- Rewriting the elements without touching their keys keeps a list sorted. -/
theorem StrictBy.map {key' : β → κ} {f : α → β} (hf : ∀ a ∈ l, key' (f a) = key a)
    (h : StrictBy key l) : StrictBy key' (l.map f) := by
  refine List.pairwise_map.mpr (List.Pairwise.imp_of_mem (fun ha hb hab => ?_) h)
  rwa [hf _ ha, hf _ hb]

/-- **A list that is sorted by one key is sorted by another** if and only if the second key follows
the first. -/
theorem StrictBy.strictBy_iff {κ' : Type*} [LinearOrder κ'] {key' : α → κ'}
    (h : StrictBy key l) :
    StrictBy key' l ↔ ∀ a ∈ l, ∀ b ∈ l, key a < key b → key' a < key' b := by
  refine ⟨fun h' a ha b hb hab => ?_, fun hall => List.Pairwise.imp_of_mem
    (fun ha hb hab => hall _ ha _ hb hab) h⟩
  obtain ⟨i, hi, rfl⟩ := List.getElem_of_mem ha
  obtain ⟨j, hj, rfl⟩ := List.getElem_of_mem hb
  have hin := List.pairwise_iff_getElem.mp h
  have hin' := List.pairwise_iff_getElem.mp h'
  rcases lt_trichotomy i j with hij | rfl | hji
  · exact hin' i j hi hj hij
  · exact absurd hab (lt_irrefl _)
  · exact absurd hab (lt_asymm (hin j i hj hi hji))

theorem StrictBy.nodup (h : StrictBy key l) : l.Nodup :=
  h.imp fun hab he => (ne_of_lt hab) (congrArg key he)

/-- The keys of a strictly sorted list are distinct. -/
theorem StrictBy.nodup_keys (h : StrictBy key l) : (l.map key).Nodup :=
  List.pairwise_map.mpr (h.imp fun hab => ne_of_lt hab)

omit [LinearOrder κ] in
/-- Elements of a list with distinct keys are told apart by their keys. -/
theorem eq_of_key_eq (h : (l.map key).Nodup) {a b : α} (ha : a ∈ l) (hb : b ∈ l)
    (hk : key a = key b) : a = b :=
  List.inj_on_of_nodup_map h ha hb hk

/-- **A strictly sorted list is determined by its elements.** -/
theorem StrictBy.eq_of_mem_iff (h : StrictBy key l) (h' : StrictBy key l')
    (hm : ∀ a, a ∈ l ↔ a ∈ l') : l = l' := by
  have hp : l.Perm l' := (List.perm_ext_iff_of_nodup h.nodup h'.nodup).mpr hm
  exact hp.eq_of_pairwise (fun a b _ _ hab hba => absurd hab (lt_asymm hba)) h h'

/-! ### Sorting -/

/-- The list sorted by a key. -/
def sortBy (key : α → κ) (l : List α) : List α := l.insertionSort fun a b => key a ≤ key b

theorem perm_sortBy (key : α → κ) (l : List α) : (sortBy key l).Perm l :=
  List.perm_insertionSort _ l

@[simp] theorem mem_sortBy {a : α} : a ∈ sortBy key l ↔ a ∈ l :=
  (perm_sortBy key l).mem_iff

/-- **Sorting distinct keys sorts strictly.** -/
theorem strictBy_sortBy (h : (l.map key).Nodup) : StrictBy key (sortBy key l) := by
  have htot : Std.Total fun a b : α => key a ≤ key b := ⟨fun a b => le_total _ _⟩
  have htrans : IsTrans α fun a b : α => key a ≤ key b := ⟨fun _ _ _ => le_trans⟩
  have hsort : (sortBy key l).Pairwise fun a b => key a ≤ key b :=
    List.pairwise_insertionSort _ l
  have hnd : (sortBy key l).Pairwise fun a b => key a ≠ key b :=
    List.pairwise_map.mp (((perm_sortBy key l).map key).nodup_iff.mpr h)
  exact (hsort.and hnd).imp fun hab => lt_of_le_of_ne hab.1 hab.2

/-- **Sorting forgets the order of collection.** -/
theorem sortBy_eq_of_perm (h : (l.map key).Nodup) (hp : l.Perm l') :
    sortBy key l = sortBy key l' :=
  (strictBy_sortBy h).eq_of_mem_iff (strictBy_sortBy ((hp.map key).nodup_iff.mp h))
    fun a => by simp [hp.mem_iff]

/-- A list that is strictly sorted already is its own sort. -/
theorem StrictBy.sortBy_eq (h : StrictBy key l) : sortBy key l = l :=
  (strictBy_sortBy h.nodup_keys).eq_of_mem_iff h fun _ => mem_sortBy

/-! ### Looking a key up -/

/-- The first element with a given key. -/
def lookup (key : α → κ) (k : κ) (l : List α) : Option α := l.find? fun a => key a = k

theorem lookup_eq_some_iff (h : (l.map key).Nodup) {k : κ} {a : α} :
    lookup key k l = some a ↔ a ∈ l ∧ key a = k := by
  constructor
  · intro ha
    exact ⟨List.mem_of_find?_eq_some ha, by simpa using List.find?_some ha⟩
  · rintro ⟨ha, rfl⟩
    obtain ⟨b, hb⟩ : ∃ b, lookup key (key a) l = some b :=
      Option.isSome_iff_exists.mp (List.find?_isSome.mpr ⟨a, ha, by simp⟩)
    have hkey : key b = key a := by simpa using List.find?_some hb
    rwa [eq_of_key_eq h (List.mem_of_find?_eq_some hb) ha hkey] at hb

theorem StrictBy.lookup_eq_some_iff (h : StrictBy key l) {k : κ} {a : α} :
    lookup key k l = some a ↔ a ∈ l ∧ key a = k :=
  SortedBy.lookup_eq_some_iff h.nodup_keys

theorem lookup_eq_none_iff {k : κ} : lookup key k l = none ↔ ∀ a ∈ l, key a ≠ k := by
  simp [lookup]

/-! ### One element for a key -/

/-- **The first of each run** of elements with one key. -/
def uniqueBy (key : α → κ) (l : List α) : List α := l.destutter fun a b => key a ≠ key b

theorem mem_of_mem_uniqueBy {a : α} (h : a ∈ uniqueBy key l) : a ∈ l :=
  (List.destutter_sublist _ l).subset h

/-- **No key is lost.** -/
theorem exists_mem_uniqueBy {a : α} (h : a ∈ l) : ∃ b ∈ uniqueBy key l, key b = key a := by
  have hrun : ∀ (l : List α) (c : α), ∀ a ∈ c :: l,
      ∃ b ∈ l.destutter' (fun a b => key a ≠ key b) c, key b = key a := by
    intro l
    induction l with
    | nil => exact fun c a ha => ⟨c, List.mem_destutter' _ _ c, by rw [List.mem_singleton.mp ha]⟩
    | cons e l ih =>
      intro c a ha
      by_cases hce : key c ≠ key e
      · rw [List.destutter'_cons, if_pos hce]
        rcases List.mem_cons.mp ha with rfl | ha
        · exact ⟨_, List.mem_cons_self, rfl⟩
        · obtain ⟨b, hb, hab⟩ := ih e a ha
          exact ⟨b, List.mem_cons_of_mem _ hb, hab⟩
      · rw [List.destutter'_cons, if_neg hce]
        rcases List.mem_cons.mp ha with rfl | ha
        · exact ih _ _ List.mem_cons_self
        · rcases List.mem_cons.mp ha with rfl | ha
          · exact ⟨c, List.mem_destutter' _ _ c, not_not.mp hce⟩
          · exact ih c a (List.mem_cons_of_mem _ ha)
  cases l with
  | nil => exact absurd h List.not_mem_nil
  | cons c l => exact hrun l c a h

end SortedBy
