import Mathlib.Data.List.Basic
import Mathlib.Tactic.Ring

/-!
# A pool of jobs behind a wait group

A thread that enqueues jobs, and waits for them, does not look at the jobs: it
looks at a **wait group** (`Pool.WaitGroup`), a count that goes up by one before
a job is enqueued and down by one when the job ends, with an exception that any of
them may leave. What the waiting thread may conclude from the count is one
invariant over the list of the jobs enqueued so far (`Pool.Counts`): the count is
the number of those that have not ended. It holds of no jobs, and is kept when jobs
are enqueued – by the thread or by other jobs – (`Pool.Counts.spawn`) and when one
takes a step (`Pool.Counts.step`). So when the count is zero all jobs have ended
(`Pool.Counts.idle`), and if there is no exception none has failed
(`Pool.Counts.all_done`).
-/

namespace Pool

/-! ### Wait groups -/

/-- **A wait group**: how many jobs have not ended, and whether one left an exception. -/
structure WaitGroup where
  count : ℤ := 0
  threw : Bool := false
deriving DecidableEq

/-- How far a job has got. -/
inductive Outcome
  | running
  | done
  | failed
deriving DecidableEq

namespace WaitGroup

/-- `n` more jobs. -/
def add (wg : WaitGroup) (n : ℕ) : WaitGroup := { wg with count := wg.count + n }

/-- What a job reports when it has taken a step. -/
def settle (wg : WaitGroup) : Outcome → WaitGroup
  | .running => wg
  | .done => { wg with count := wg.count - 1 }
  | .failed => ⟨wg.count - 1, true⟩

@[simp] theorem add_threw (wg : WaitGroup) (n : ℕ) : (wg.add n).threw = wg.threw := rfl

/-- An exception stays. -/
theorem threw_settle {wg : WaitGroup} (h : wg.threw = true) (o : Outcome) :
    (wg.settle o).threw = true := by
  cases o <;> simp [settle, h]

theorem threw_of_settle {wg : WaitGroup} {o : Outcome} (h : (wg.settle o).threw = false) :
    wg.threw = false ∧ o ≠ .failed := by
  cases o with
  | failed => cases h
  | _ => exact ⟨h, by simp⟩

end WaitGroup

/-! ### What a wait group says about its jobs -/

variable {α : Type*} {outcome : α → Outcome} {wg : WaitGroup} {jobs l r : List α}

/-- **The wait group counts the jobs** that have not ended, and has an exception if one
has failed. -/
structure Counts (outcome : α → Outcome) (wg : WaitGroup) (jobs : List α) : Prop where
  count : wg.count = (jobs.countP fun j => outcome j = .running : ℕ)
  threw : ∀ j ∈ jobs, outcome j = .failed → wg.threw = true

theorem counts_nil : Counts outcome {} ([] : List α) := ⟨rfl, by simp⟩

/-- Jobs are enqueued. -/
theorem Counts.spawn (h : Counts outcome wg jobs) (spawned : List α)
    (hs : ∀ j ∈ spawned, outcome j = .running) :
    Counts outcome (wg.add spawned.length) (jobs ++ spawned) := by
  have hlen : spawned.countP (fun j => outcome j = .running) = spawned.length :=
    List.countP_eq_length.mpr fun j hj => by simpa using hs j hj
  refine ⟨?_, fun j hj hf => ?_⟩
  · rw [WaitGroup.add, h.count, List.countP_append, hlen]
    push_cast
    rfl
  · rcases List.mem_append.mp hj with hj | hj
    · exact h.threw j hj hf
    · rw [hs j hj] at hf
      cases hf

/-- **A job takes a step**, and reports how it ended if it did. -/
theorem Counts.step {j j' : α} (h : Counts outcome wg (l ++ j :: r)) (hj : outcome j = .running) :
    Counts outcome (wg.settle (outcome j')) (l ++ j' :: r) := by
  have hcount := h.count
  rw [List.countP_append, List.countP_cons_of_pos (by simpa using hj)] at hcount
  have hold : ∀ k ∈ l ++ j' :: r, outcome k = .failed → outcome j' = .failed ∨ wg.threw = true := by
    intro k hk hf
    by_cases hkj : k = j'
    · exact Or.inl (hkj ▸ hf)
    · refine Or.inr (h.threw k ?_ hf)
      rcases List.mem_append.mp hk with hk | hk
      · exact List.mem_append_left _ hk
      · exact List.mem_append_right _
          (List.mem_cons_of_mem _ ((List.mem_cons.mp hk).resolve_left hkj))
  cases ho : outcome j' with
  | running =>
    refine ⟨?_, fun k hk hf => ?_⟩
    · rw [List.countP_append, List.countP_cons_of_pos (by simpa using ho)]
      exact hcount
    · refine (hold k hk hf).resolve_left fun h => ?_
      rw [ho] at h
      cases h
  | done =>
    refine ⟨?_, fun k hk hf => ?_⟩
    · rw [List.countP_append, List.countP_cons_of_neg (by simp [ho]), WaitGroup.settle, hcount]
      push_cast
      ring
    · refine (hold k hk hf).resolve_left fun h => ?_
      rw [ho] at h
      cases h
  | failed =>
    refine ⟨?_, fun k hk hf => rfl⟩
    rw [List.countP_append, List.countP_cons_of_neg (by simp [ho]), WaitGroup.settle, hcount]
    push_cast
    ring

/-- **When the count is zero all jobs have ended.** -/
theorem Counts.idle (h : Counts outcome wg jobs) (hc : wg.count ≤ 0) :
    ∀ j ∈ jobs, outcome j ≠ .running := by
  have hz : jobs.countP (fun j => outcome j = .running) = 0 := by
    have := h.count
    omega
  intro j hj ho
  exact List.countP_eq_zero.mp hz j hj (by simpa using ho)

/-- **If there is no exception all are done.** -/
theorem Counts.all_done (h : Counts outcome wg jobs) (hc : wg.count ≤ 0) (ht : wg.threw = false) :
    ∀ j ∈ jobs, outcome j = .done := by
  intro j hj
  cases ho : outcome j with
  | done => rfl
  | running => exact absurd ho (h.idle hc j hj)
  | failed =>
    rw [h.threw j hj ho] at ht
    cases ht

/-- While the count is not zero some job can take a step. -/
theorem Counts.exists_running (h : Counts outcome wg jobs) (hc : ¬ wg.count ≤ 0) :
    ∃ l j r, jobs = l ++ j :: r ∧ outcome j = .running := by
  have hz : 0 < jobs.countP (fun j => outcome j = .running) := by
    have := h.count
    omega
  obtain ⟨j, hj, ho⟩ := List.countP_pos_iff.mp hz
  obtain ⟨l, r, rfl⟩ := List.append_of_mem hj
  exact ⟨l, j, r, rfl, by simpa using ho⟩

/-- No job is running, so the count is zero. -/
theorem Counts.count_le (h : Counts outcome wg jobs) (hi : ∀ j ∈ jobs, outcome j ≠ .running) :
    wg.count ≤ 0 := by
  have hz : jobs.countP (fun j => outcome j = .running) = 0 :=
    List.countP_eq_zero.mpr fun j hj => by simpa using hi j hj
  rw [h.count, hz]
  rfl

/-- The jobs are forgotten when all have ended. -/
theorem Counts.clear (h : Counts outcome wg jobs) (hc : wg.count ≤ 0) :
    Counts outcome wg ([] : List α) := by
  refine ⟨?_, by simp⟩
  have := h.count
  rw [List.countP_nil]
  omega

/-! ### Which jobs have yet to end -/

/-- Of each job, whether it has yet to end. -/
def unended (outcome : α → Outcome) (jobs : List α) : List Bool :=
  jobs.map fun j => decide (outcome j = .running)

theorem unended_append (jobs jobs' : List α) :
    unended outcome (jobs ++ jobs') = unended outcome jobs ++ unended outcome jobs' :=
  List.map_append

/-- Jobs that are enqueued have yet to end. -/
theorem unended_spawned (hs : ∀ j ∈ jobs, outcome j = .running) :
    unended outcome jobs = List.replicate jobs.length true :=
  List.eq_replicate_iff.mpr ⟨List.length_map _, fun b hb => by
    obtain ⟨j, hj, rfl⟩ := List.mem_map.mp hb
    exact decide_eq_true (hs j hj)⟩

/-- A job takes a step, and enqueues some more. -/
theorem unended_step {j : α} {spawned : List α} (hj : outcome j = .running) (j' : α)
    (hs : ∀ k ∈ spawned, outcome k = .running) : ∃ bs b bs', bs.length = l.length ∧
      unended outcome (l ++ j :: r) = bs ++ true :: bs' ∧
      unended outcome ((l ++ j' :: r) ++ spawned) =
        (bs ++ b :: bs') ++ List.replicate spawned.length true := by
  refine ⟨unended outcome l, decide (outcome j' = .running), unended outcome r,
    List.length_map _, ?_, ?_⟩
  · rw [unended_append, unended, unended, List.map_cons, decide_eq_true hj]
    rfl
  · rw [unended_append, unended_append, unended_spawned hs]
    rfl

theorem unended_eq_true {i : ℕ} : (unended outcome jobs)[i]? = some true ↔
    ∃ l j r, jobs = l ++ j :: r ∧ l.length = i ∧ outcome j = .running := by
  rw [unended, List.getElem?_map, Option.map_eq_some_iff]
  constructor
  · rintro ⟨j, hj, hrun⟩
    obtain ⟨hi, rfl⟩ := List.getElem?_eq_some_iff.mp hj
    refine ⟨jobs.take i, jobs[i], jobs.drop (i + 1), ?_, ?_, of_decide_eq_true hrun⟩
    · rw [List.getElem_cons_drop, List.take_append_drop]
    · rw [List.length_take]
      omega
  · rintro ⟨l, j, r, rfl, rfl, hrun⟩
    exact ⟨j, by simp, decide_eq_true hrun⟩

theorem mem_unended : true ∈ unended outcome jobs ↔ ∃ j ∈ jobs, outcome j = .running := by
  simp [unended]

/-! ### The first job that can take a step -/

/-- The first job that has not ended, with the jobs before and after it. -/
def firstRunning (outcome : α → Outcome) : List α → Option (List α × α × List α)
  | [] => none
  | j :: jobs =>
    if outcome j = .running then some ([], j, jobs)
    else (firstRunning outcome jobs).map fun s => (j :: s.1, s.2.1, s.2.2)

theorem eq_of_firstRunning {j : α} (h : firstRunning outcome jobs = some (l, j, r)) :
    jobs = l ++ j :: r := by
  induction jobs generalizing l with
  | nil => cases h
  | cons k jobs ih =>
    rw [firstRunning] at h
    split_ifs at h with hk
    · obtain ⟨rfl, rfl, rfl⟩ : [] = l ∧ k = j ∧ jobs = r := by simpa using h
      rfl
    · obtain ⟨⟨l', j', r'⟩, hs, he⟩ := Option.map_eq_some_iff.mp h
      obtain ⟨rfl, rfl, rfl⟩ : k :: l' = l ∧ j' = j ∧ r' = r := by simpa using he
      rw [ih hs, List.cons_append]

theorem idle_of_firstRunning (h : firstRunning outcome jobs = none) :
    ∀ j ∈ jobs, outcome j ≠ .running := by
  induction jobs with
  | nil => simp
  | cons k jobs ih =>
    rw [firstRunning] at h
    split_ifs at h with hk
    have hrest := ih (Option.map_eq_none_iff.mp h)
    exact List.forall_mem_cons.mpr ⟨hk, hrest⟩

end Pool
