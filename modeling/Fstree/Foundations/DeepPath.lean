import Mathlib.Data.List.Count
import Mathlib.Tactic.Ring

/-!
# Patterns of names with a wildcard for any depth

A pattern is a list of segments and a path a list of names. One segment is the **deep** one: with
others after it, it stands for any number of names, and at the end for at least one. Any other
segment stands for one name, as a relation `M` says.

With several deep segments a pattern can match a path in more than one way. A **way** is how many
names each deep segment but the last of the pattern takes (`DeepPath.Way`). A pattern matches a path
if there is a way (`DeepPath.Matches`). When there are not two (`DeepPath.Unique`) follows from what
there is for the rest of the pattern and the rest of the path (`DeepPath.unique_deep_cons`), and
there never are if there is one deep segment at most (`DeepPath.unique_of_count_le_one`).
-/

namespace DeepPath

variable {σ ν : Type*} (deep : σ) (M : σ → ν → Prop)

/-- **A way in which a pattern matches a path**: how many names each deep segment takes that is not
the last segment. -/
inductive Way : List σ → List ν → List ℕ → Prop
  | nil : Way [] [] []
  | name {seg segs n ns ks} (hseg : seg ≠ deep) (hm : M seg n) (h : Way segs ns ks) :
      Way (seg :: segs) (n :: ns) ks
  | deep {segs up ns ks} (hsegs : segs ≠ []) (h : Way segs ns ks) :
      Way (deep :: segs) (up ++ ns) (up.length :: ks)
  | last {ns} (hns : ns ≠ []) : Way [deep] ns []

/-- **A pattern matches a path.** -/
def Matches (segs : List σ) (ns : List ν) : Prop := ∃ ks, Way deep M segs ns ks

/-- **There are not two ways** in which the pattern matches the path. -/
def Unique (segs : List σ) (ns : List ν) : Prop :=
  ∀ ks ks', Way deep M segs ns ks → Way deep M segs ns ks' → ks = ks'

variable {deep M} {seg : σ} {segs : List σ} {n : ν} {ns : List ν} {ks : List ℕ}

/-! ### One step of a way -/

theorem way_nil : Way deep M [] ns ks ↔ ns = [] ∧ ks = [] := by
  constructor
  · intro h
    cases h
    exact ⟨rfl, rfl⟩
  · rintro ⟨rfl, rfl⟩
    exact .nil

theorem way_last : Way deep M [deep] ns ks ↔ ns ≠ [] ∧ ks = [] := by
  constructor
  · intro h
    cases h with
    | name hseg => exact absurd rfl hseg
    | deep hsegs => exact absurd rfl hsegs
    | last hns => exact ⟨hns, rfl⟩
  · rintro ⟨hns, rfl⟩
    exact .last hns

theorem way_name (hseg : seg ≠ deep) : Way deep M (seg :: segs) ns ks ↔
    ∃ n ms, ns = n :: ms ∧ M seg n ∧ Way deep M segs ms ks := by
  constructor
  · intro h
    cases h with
    | name _ hm h => exact ⟨_, _, rfl, hm, h⟩
    | deep => exact absurd rfl hseg
    | last => exact absurd rfl hseg
  · rintro ⟨n, ms, rfl, hm, h⟩
    exact .name hseg hm h

theorem way_name_cons (hseg : seg ≠ deep) :
    Way deep M (seg :: segs) (n :: ns) ks ↔ M seg n ∧ Way deep M segs ns ks := by
  rw [way_name hseg]
  constructor
  · rintro ⟨_, _, ⟨⟩, h⟩
    exact h
  · exact fun h => ⟨n, ns, rfl, h⟩

theorem way_deep (hsegs : segs ≠ []) : Way deep M (deep :: segs) ns ks ↔
    ∃ up ms ls, ns = up ++ ms ∧ ks = up.length :: ls ∧ Way deep M segs ms ls := by
  constructor
  · intro h
    cases h with
    | name hseg => exact absurd rfl hseg
    | deep _ h => exact ⟨_, _, _, rfl, rfl, h⟩
    | last => exact absurd rfl hsegs
  · rintro ⟨up, ms, ls, rfl, rfl, h⟩
    exact .deep hsegs h

/-- No segments are left where no names are. -/
theorem way_none : Way deep M segs [] ks ↔ segs = [] ∧ ks = [] := by
  constructor
  · intro h
    generalize hns : ([] : List ν) = ns at h
    induction h with
    | nil => exact ⟨rfl, rfl⟩
    | name => cases hns
    | deep hsegs _ ih => exact absurd (ih (List.append_eq_nil_iff.mp hns.symm).2.symm).1 hsegs
    | last hne => exact absurd hns.symm hne
  · rintro ⟨rfl, rfl⟩
    exact .nil

/-- **A deep segment takes no name, or one and goes on.** -/
theorem way_deep_cons (hsegs : segs ≠ []) : Way deep M (deep :: segs) (n :: ns) ks ↔
    (∃ ls, ks = 0 :: ls ∧ Way deep M segs (n :: ns) ls) ∨
      ∃ k ls, ks = (k + 1) :: ls ∧ Way deep M (deep :: segs) ns (k :: ls) := by
  rw [way_deep hsegs]
  constructor
  · rintro ⟨up, ms, ls, hns, rfl, h⟩
    cases up with
    | nil => exact Or.inl ⟨ls, rfl, by rwa [hns]⟩
    | cons u up =>
      obtain ⟨rfl, rfl⟩ := List.cons.inj hns
      exact Or.inr ⟨up.length, ls, rfl, .deep hsegs h⟩
  · rintro (⟨ls, rfl, h⟩ | ⟨k, ls, rfl, h⟩)
    · exact ⟨[], n :: ns, ls, rfl, rfl, h⟩
    · obtain ⟨up, ms, ls', rfl, he, h⟩ := (way_deep hsegs).mp h
      obtain ⟨rfl, rfl⟩ := List.cons.inj he
      exact ⟨n :: up, ms, ls, rfl, rfl, h⟩

/-! ### Whether there is a way -/

theorem matches_nil : Matches deep M [] ns ↔ ns = [] := by
  simp [Matches, way_nil]

theorem matches_last : Matches deep M [deep] ns ↔ ns ≠ [] := by
  simp [Matches, way_last]

theorem matches_none : Matches deep M segs [] ↔ segs = [] := by
  simp [Matches, way_none]

theorem matches_name_cons (hseg : seg ≠ deep) :
    Matches deep M (seg :: segs) (n :: ns) ↔ M seg n ∧ Matches deep M segs ns := by
  simp only [Matches, way_name_cons hseg, exists_and_left]

theorem matches_deep_cons (hsegs : segs ≠ []) : Matches deep M (deep :: segs) (n :: ns) ↔
    Matches deep M segs (n :: ns) ∨ Matches deep M (deep :: segs) ns := by
  constructor
  · rintro ⟨ks, h⟩
    rcases (way_deep_cons hsegs).mp h with ⟨ls, -, h⟩ | ⟨k, ls, -, h⟩
    · exact Or.inl ⟨_, h⟩
    · exact Or.inr ⟨_, h⟩
  · rintro (⟨ls, h⟩ | ⟨ks, h⟩)
    · exact ⟨0 :: ls, (way_deep_cons hsegs).mpr (Or.inl ⟨ls, rfl, h⟩)⟩
    · obtain ⟨up, ms, ls, -, rfl, -⟩ := (way_deep hsegs).mp h
      exact ⟨(up.length + 1) :: ls, (way_deep_cons hsegs).mpr (Or.inr ⟨up.length, ls, rfl, h⟩)⟩

/-- The names may be read off other things. -/
theorem matches_map {μ : Type*} {f : μ → ν} {ms : List μ} :
    Matches deep M segs (ms.map f) ↔ Matches deep (fun s m => M s (f m)) segs ms := by
  refine exists_congr fun ks => ⟨fun h => ?_, fun h => ?_⟩
  · generalize hns : ms.map f = ns at h
    induction h generalizing ms with
    | nil =>
      rw [List.map_eq_nil_iff.mp hns]
      exact .nil
    | name hseg hm _ ih =>
      obtain ⟨m, ms, rfl, rfl, rfl⟩ := List.map_eq_cons_iff.mp hns
      exact .name hseg hm (ih rfl)
    | deep hsegs _ ih =>
      obtain ⟨up, ms, rfl, rfl, rfl⟩ := List.map_eq_append_iff.mp hns
      rw [List.length_map]
      exact .deep hsegs (ih rfl)
    | last hne =>
      subst hns
      exact .last fun hnil => hne (by rw [hnil, List.map_nil])
  · induction h with
    | nil => exact .nil
    | name hseg hm _ ih => exact .name hseg hm ih
    | @deep segs up ms ks hsegs _ ih =>
      rw [List.map_append, ← List.length_map f]
      exact .deep hsegs ih
    | last hne => exact .last (by simpa using hne)

/-! ### Whether there are two -/

theorem unique_nil : Unique deep M [] ns := fun _ _ h h' =>
  (way_nil.mp h).2.trans (way_nil.mp h').2.symm

theorem unique_last : Unique deep M [deep] ns := fun _ _ h h' =>
  (way_last.mp h).2.trans (way_last.mp h').2.symm

theorem unique_none : Unique deep M segs [] := fun _ _ h h' =>
  (way_none.mp h).2.trans (way_none.mp h').2.symm

theorem unique_name_cons (hseg : seg ≠ deep) :
    Unique deep M (seg :: segs) (n :: ns) ↔ (M seg n → Unique deep M segs ns) := by
  simp only [Unique, way_name_cons hseg]
  constructor
  · exact fun h hm ks ks' hk hk' => h ks ks' ⟨hm, hk⟩ ⟨hm, hk'⟩
  · exact fun h ks ks' hk hk' => h hk.1 ks ks' hk.2 hk'.2

/-- **There are not two ways for a deep segment** if there are not two when it takes no name, nor
when it takes one and goes on, and there is not one of either kind. -/
theorem unique_deep_cons (hsegs : segs ≠ []) : Unique deep M (deep :: segs) (n :: ns) ↔
    Unique deep M segs (n :: ns) ∧ Unique deep M (deep :: segs) ns ∧
      ¬ (Matches deep M segs (n :: ns) ∧ Matches deep M (deep :: segs) ns) := by
  constructor
  · intro h
    have hzero : ∀ {ls}, Way deep M segs (n :: ns) ls →
        Way deep M (deep :: segs) (n :: ns) (0 :: ls) :=
      fun hl => (way_deep_cons hsegs).mpr (Or.inl ⟨_, rfl, hl⟩)
    have hsucc : ∀ {k ls}, Way deep M (deep :: segs) ns (k :: ls) →
        Way deep M (deep :: segs) (n :: ns) ((k + 1) :: ls) :=
      fun hl => (way_deep_cons hsegs).mpr (Or.inr ⟨_, _, rfl, hl⟩)
    refine ⟨fun ks ks' hk hk' => ?_, fun ks ks' hk hk' => ?_, ?_⟩
    · exact (List.cons.inj (h _ _ (hzero hk) (hzero hk'))).2
    · obtain ⟨up, ms, ls, -, rfl, -⟩ := (way_deep hsegs).mp hk
      obtain ⟨up', ms', ls', -, rfl, -⟩ := (way_deep hsegs).mp hk'
      obtain ⟨hlen, rfl⟩ := List.cons.inj (h _ _ (hsucc hk) (hsucc hk'))
      rw [Nat.succ.inj hlen]
    · rintro ⟨⟨ls, hl⟩, ks, hk⟩
      obtain ⟨up, ms, ls', -, rfl, -⟩ := (way_deep hsegs).mp hk
      have := (List.cons.inj (h _ _ (hzero hl) (hsucc hk))).1
      omega
  · rintro ⟨hzero, hsucc, hnot⟩ ks ks' hk hk'
    rcases (way_deep_cons hsegs).mp hk with ⟨ls, rfl, hl⟩ | ⟨k, ls, rfl, hl⟩
    · rcases (way_deep_cons hsegs).mp hk' with ⟨ls', rfl, hl'⟩ | ⟨k', ls', rfl, hl'⟩
      · rw [hzero _ _ hl hl']
      · exact absurd ⟨⟨_, hl⟩, _, hl'⟩ hnot
    · rcases (way_deep_cons hsegs).mp hk' with ⟨ls', rfl, hl'⟩ | ⟨k', ls', rfl, hl'⟩
      · exact absurd ⟨⟨_, hl'⟩, _, hl⟩ hnot
      · obtain ⟨rfl, rfl⟩ := List.cons.inj (hsucc _ _ hl hl')
        rfl

/-- Without a deep segment there are as many names as segments. -/
theorem Way.eq_of_notMem (h : Way deep M segs ns ks) (hd : deep ∉ segs) :
    ks = [] ∧ ns.length = segs.length := by
  induction h with
  | nil => exact ⟨rfl, rfl⟩
  | name _ _ _ ih =>
    obtain ⟨hk, hlen⟩ := ih fun hm => hd (List.mem_cons_of_mem _ hm)
    exact ⟨hk, by rw [List.length_cons, List.length_cons, hlen]⟩
  | deep => exact absurd List.mem_cons_self hd
  | last => exact absurd List.mem_cons_self hd

/-- **With one deep segment there are not two ways.** -/
theorem unique_of_count_le_one [BEq σ] [LawfulBEq σ] (hc : segs.count deep ≤ 1) (ns : List ν) :
    Unique deep M segs ns := by
  induction segs generalizing ns with
  | nil => exact unique_nil
  | cons seg segs ih =>
    cases ns with
    | nil => exact unique_none
    | cons n ns =>
      by_cases hseg : seg = deep
      · subst hseg
        by_cases hs : segs = []
        · rw [hs]
          exact unique_last
        · rw [List.count_cons_self] at hc
          have hd : seg ∉ segs := List.count_eq_zero.mp (by omega)
          intro ks ks' hk hk'
          obtain ⟨up, ms, ls, hns, rfl, hl⟩ := (way_deep hs).mp hk
          obtain ⟨up', ms', ls', hns', rfl, hl'⟩ := (way_deep hs).mp hk'
          obtain ⟨rfl, hlen⟩ := hl.eq_of_notMem hd
          obtain ⟨rfl, hlen'⟩ := hl'.eq_of_notMem hd
          -- what is left for the other segments has their length
          have hup : (up ++ ms).length = (up' ++ ms').length := by rw [← hns, ← hns']
          rw [List.length_append, List.length_append] at hup
          rw [show up.length = up'.length by omega]
      · rw [unique_name_cons hseg]
        rw [List.count_cons_of_ne hseg] at hc
        exact fun _ => ih hc ns

end DeepPath
