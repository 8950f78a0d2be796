import Fstree.Foundations.SortedBy

/-!
# Lists that are made level by level

A forest is walked breadth-first: what is at the top is listed first, and then, level by level, the
children of what was listed on the level above (`LevelOrder.AtLevel`). Within a level the order is
anybody's.

Such a list is in the order of a key **exactly when** every level comes before the next in that
order (`LevelOrder.LevelsInOrder`), which is about the forest, and the elements of one level are
listed in turn (`LevelOrder.InTurn`), which is about the walk: `LevelOrder.strictBy_flatten_iff`.
That the two are enough holds of any list in which nothing stands before something of an earlier
level (`LevelOrder.ByLevel.strictBy`).
-/

namespace LevelOrder

open SortedBy

/-- **The level of an element** of a forest, with its top and its children. -/
inductive AtLevel {α : Type*} (top : α → Prop) (child : α → α → Prop) : ℕ → α → Prop
  | top {a} (h : top a) : AtLevel top child 0 a
  | child {n a b} (ha : AtLevel top child n a) (h : child a b) : AtLevel top child (n + 1) b

variable {α κ : Type*} [LinearOrder κ] {top : α → Prop} {child : α → α → Prop} {key : α → κ}
  {l : List α} {a b : α} {m n : ℕ}

variable (top child key) in
/-- **Each level is before the next.** -/
def LevelsInOrder : Prop :=
  ∀ n a b, AtLevel top child n a → AtLevel top child (n + 1) b → key a < key b

variable (top child key) in
/-- **The elements of one level are listed in turn**, the smaller keys first. -/
def InTurn (l : List α) : Prop :=
  l.Pairwise fun a b => ∀ n, AtLevel top child n a → AtLevel top child n b → key a < key b

variable (top child) in
/-- Nothing is listed before something of an earlier level. -/
def ByLevel (l : List α) : Prop :=
  l.Pairwise fun a b => ∃ m n, m ≤ n ∧ AtLevel top child m a ∧ AtLevel top child n b

/-- An earlier level is before a later one: there is something on every level in between. -/
theorem LevelsInOrder.lt (h : LevelsInOrder top child key) (hmn : m < n)
    (ha : AtLevel top child m a) (hb : AtLevel top child n b) : key a < key b := by
  induction hb with
  | top => exact absurd hmn (Nat.not_lt_zero m)
  | @child n c b hc hcb ih =>
    rcases Nat.lt_succ_iff_lt_or_eq.mp hmn with hlt | rfl
    · exact (ih hlt).trans (h n c b hc (.child hc hcb))
    · exact h m a b ha (.child hc hcb)

/-- **Levels in order, and each of them in turn, give a sorted list.** -/
theorem ByLevel.strictBy (h : ByLevel top child l) (hlevels : LevelsInOrder top child key)
    (hturn : InTurn top child key l) : StrictBy key l := by
  refine List.Pairwise.imp₂ ?_ h hturn
  rintro a b ⟨m, n, hmn, ha, hb⟩ hsame
  rcases Nat.lt_or_eq_of_le hmn with hlt | rfl
  · exact hlevels.lt hlt ha hb
  · exact hsame m ha hb

/-- What is appended to the last level. -/
theorem ByLevel.concat (h : ByLevel top child l) (hl : ∀ a ∈ l, ∃ m ≤ n, AtLevel top child m a)
    (hb : AtLevel top child n b) : ByLevel top child (l ++ [b]) := by
  refine List.pairwise_append.mpr ⟨h, List.pairwise_singleton _ _, fun a ha c hc => ?_⟩
  rw [List.mem_singleton.mp hc]
  obtain ⟨m, hm, hat⟩ := hl a ha
  exact ⟨m, n, hm, hat, hb⟩

variable (top child) in
/-- **The levels of the forest**, from the level `n` on. -/
def Levels (n : ℕ) (blocks : List (List α)) : Prop :=
  ∀ k a, AtLevel top child (n + k) a ↔ ∃ b, blocks[k]? = some b ∧ a ∈ b

theorem Levels.byLevel {blocks : List (List α)} (h : Levels top child 0 blocks) :
    ByLevel top child blocks.flatten := by
  have hat : ∀ k (hk : k < blocks.length), ∀ a ∈ blocks[k], AtLevel top child k a :=
    fun k hk a ha => by
      simpa using (h k a).mpr ⟨_, List.getElem?_eq_getElem hk, ha⟩
  refine List.pairwise_flatten.mpr ⟨fun b hb => ?_, List.pairwise_iff_getElem.mpr ?_⟩
  · obtain ⟨k, hk, rfl⟩ := List.getElem_of_mem hb
    exact List.pairwise_of_forall_mem_list fun a ha c hc =>
      ⟨k, k, le_rfl, hat k hk a ha, hat k hk c hc⟩
  · exact fun i j hi hj hij a ha c hc => ⟨i, j, hij.le, hat i hi a ha, hat j hj c hc⟩

/-- **A breadth-first list is sorted** if and only if each level is before the next, and the
elements of one level are listed in turn. -/
theorem strictBy_flatten_iff {blocks : List (List α)} (h : Levels top child 0 blocks) :
    StrictBy key blocks.flatten ↔
      LevelsInOrder top child key ∧ InTurn top child key blocks.flatten := by
  refine ⟨fun hs => ⟨fun n a b ha hb => ?_, hs.imp fun hab _ _ _ => hab⟩,
    fun hs => h.byLevel.strictBy hs.1 hs.2⟩
  obtain ⟨s, hs₁, has⟩ := (h n a).mp (by rwa [Nat.zero_add])
  obtain ⟨t, ht₁, hbt⟩ := (h (n + 1) b).mp (by rwa [Nat.zero_add])
  obtain ⟨hn, rfl⟩ := List.getElem?_eq_some_iff.mp hs₁
  obtain ⟨hn', rfl⟩ := List.getElem?_eq_some_iff.mp ht₁
  -- the first stands in the block before that of the second
  have hblocks := (List.pairwise_flatten.mp hs).2
  exact List.pairwise_iff_getElem.mp hblocks n (n + 1) hn hn' (Nat.lt_succ_self n) a has b hbt

end LevelOrder
