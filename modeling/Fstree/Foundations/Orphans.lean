import Fstree.Foundations.NeverStuck

/-!
# Tasks that are left behind

A call that comes to its end waits for the tasks it has forked, and one that is left by an exception
does not. So a step leaves no task behind (`ForkJoin.NoOrphans`) just if no exception leaves a
call whose wait group counts a task (`ForkJoin.NoOrphans.step_iff`), and a run of such steps
leaves none (`ForkJoin.noOrphans_of_reaches`).
-/

namespace ForkJoin

open Pool Transition

variable {β : Type*}

/-- **No task is left behind**: when a call has been left, so have the tasks it has forked. -/
def NoOrphans (calls : List (Call β)) : Prop :=
  ∀ (i j : ℕ) (c d : Call β), calls[i]? = some c → calls[j]? = some d → d.owner = some i →
    c.phase.left = true → d.phase.left = true

/-- No exception leaves a call whose wait group counts a task. -/
def Orderly (σ τ : State β) : Prop :=
  ∀ (i : ℕ) (c : Call β) (b : β), σ.calls[i]? = some c → c.phase = .running b →
    τ = σ.leave i c true → c.wg.count ≤ 0

section Orphans

variable {acts : β → Act β → Prop} {n : ℕ} {σ τ : State β} {calls : List (Call β)} {c d : Call β}
  {i : ℕ} {p : Phase β}

theorem noOrphans_start (n : ℕ) (tasks : List β) : NoOrphans (State.start n tasks).calls := by
  intro i j c d hc hd ho
  obtain ⟨b, -, rfl⟩ := List.mem_map.mp (List.mem_of_getElem? hd)
  cases ho

/-- When the count is zero the tasks that the call has forked have been left. -/
theorem Counted.left (h : Counted calls) (hc : calls[i]? = some c) (hcount : c.wg.count ≤ 0)
    (hd : d ∈ calls) (ho : d.owner = some i) : d.phase.left = true := by
  have hzero : calls.countP (Call.awaited i) = 0 := by
    have := h i c hc
    omega
  have hnot := List.countP_eq_zero.mp hzero d hd
  simpa [Call.awaited, ho] using hnot

theorem NoOrphans.goOn (h : NoOrphans calls) (hc : calls[i]? = some c)
    (hleft : p.left = c.phase.left) : NoOrphans (calls.set i { c with phase := p }) := by
  -- every call is left if and only if it was
  have hold : ∀ {j : ℕ} {d : Call β}, (calls.set i { c with phase := p })[j]? = some d →
      ∃ d₀, calls[j]? = some d₀ ∧ d₀.owner = d.owner ∧ d₀.phase.left = d.phase.left := by
    intro j d hd
    rcases eq_of_getElem?_set hd with ⟨rfl, rfl⟩ | ⟨-, hd⟩
    · exact ⟨c, hc, rfl, hleft.symm⟩
    · exact ⟨d, hd, rfl, rfl⟩
  intro k j c' d hc' hd ho hl
  obtain ⟨c₀, hc₀, -, hcl⟩ := hold hc'
  obtain ⟨d₀, hd₀, hdo, hdl⟩ := hold hd
  exact hdl.symm.trans (h k j c₀ d₀ hc₀ hd₀ (hdo.trans ho) (hcl.trans hl))

theorem NoOrphans.fork (h : NoOrphans calls) (hc : calls[i]? = some c) (hl : c.phase.left = false)
    (hp : p.left = false) {wg : WaitGroup} {m : Mode} {q : Phase β} (hq : q.left = false) :
    NoOrphans (calls.set i { c with phase := p, wg := wg } ++ [⟨some i, m, q, {}⟩]) := by
  intro k j c' d hc' hd ho hleft
  -- the call at `k` was there before, and had been left
  have hk : calls[k]? = some c' ∧ k ≠ i := by
    rcases eq_of_getElem?_concat hc' with hc' | ⟨rfl, rfl⟩
    · rcases eq_of_getElem?_set hc' with ⟨rfl, rfl⟩ | ⟨hne, hc'⟩
      · rw [hp] at hleft
        cases hleft
      · exact ⟨hc', hne⟩
    · rw [hq] at hleft
      cases hleft
  rcases eq_of_getElem?_concat hd with hd | ⟨rfl, rfl⟩
  · rcases eq_of_getElem?_set hd with ⟨rfl, rfl⟩ | ⟨-, hd⟩
    · have := h k j c' c hk.1 hc ho hleft
      rw [hl] at this
      cases this
    · exact h k j c' d hk.1 hd ho hleft
  · exact absurd (Option.some.inj ho).symm hk.2

/-- **A call is left** when the tasks it has forked have been. -/
theorem NoOrphans.leave (h : NoOrphans calls) (hs : Shape calls) (hc : calls[i]? = some c)
    (hchildren : ∀ d ∈ calls, d.owner = some i → d.phase.left = true) {failed : Bool} :
    NoOrphans
      (State.report (calls.set i { c with phase := leftPhase c.mode failed }) c failed) := by
  have hne := hs.owner_ne hc
  intro k j c' d hc' hd ho hleft
  have hleftd : ∀ d₀, calls[j]? = some d₀ → d₀.owner = some k → d₀.phase.left = true := by
    intro d₀ hd₀ ho₀
    rcases eq_of_getElem?_leave hne hc' with ⟨rfl, -⟩ | ⟨-, -, hk⟩ | ⟨c₀, -, -, hk, rfl⟩
    · exact hchildren d₀ (List.mem_of_getElem? hd₀) ho₀
    · exact h k j c' d₀ hk hd₀ ho₀ hleft
    · exact h k j c₀ d₀ hk hd₀ ho₀ (by rwa [left_resume] at hleft)
  rcases eq_of_getElem?_leave hne hd with ⟨rfl, rfl⟩ | ⟨-, -, hj⟩ | ⟨d₀, -, -, hj, rfl⟩
  · exact left_leftPhase _ _
  · exact hleftd d hj ho
  · exact (left_resume _ _).trans (hleftd d₀ hj ho)

/-- **An exception leaves a task behind** if the wait group counts one. -/
theorem orderly_of_noOrphans (h : Inv n σ) (hτ : NoOrphans τ.calls) : Orderly σ τ := by
  rintro i c b hc hb rfl
  by_contra hcount
  have hpos : 0 < σ.calls.countP (Call.awaited i) := by
    have := h.counted i c hc
    omega
  obtain ⟨d, hd, ha⟩ := List.countP_pos_iff.mp hpos
  obtain ⟨j, hj⟩ := List.mem_iff_getElem?.mp hd
  simp only [Call.awaited, Bool.and_eq_true, decide_eq_true_eq, Bool.not_eq_true'] at ha
  have hij : i ≠ j := fun he => absurd (h.shape.owner j d i hj ha.1) (by omega)
  have hset : (σ.calls.set i { c with phase := leftPhase c.mode true })[j]? = some d := by
    rw [List.getElem?_set_ne hij, hj]
  obtain ⟨d', hd', ho', -, hl', -⟩ := @exists_of_getElem?_report _ _ c _ _ true hset
  obtain ⟨c', hc', -, -, hcl, -⟩ :=
    @exists_of_getElem?_report _ _ c _ _ true (getElem?_set_of_some hc _)
  have hleft := hτ i j c' d' hc' hd' (ho'.trans ha.1) (hcl.trans (left_leftPhase _ _))
  rw [hl', ha.2] at hleft
  cases hleft

/-- **A step leaves no task behind** if and only if no exception leaves a call whose wait group
counts one. -/
theorem NoOrphans.step_iff (h : NoOrphans σ.calls) (hinv : Inv n σ)
    (hstep : Step acts σ τ ∨ Rest σ τ) : NoOrphans τ.calls ↔ Orderly σ τ := by
  refine ⟨orderly_of_noOrphans hinv, fun horder => ?_⟩
  rcases hstep with hstep | hrest
  · cases hstep with
    | go hc hp ha | wake hc hp hw | wakeNone hc hp hw | join hc hp ha | release hc hp hw
    | pop hw hq hc hp => exact h.goOn hc (by rw [hp]; rfl)
    | accept hc hp ha hn | inline hc hp ha hn => exact h.fork hc (by rw [hp]; rfl) rfl rfl
    | @throw i c b hc hp ha =>
      exact h.leave hinv.shape hc fun d => hinv.counted.left hc (horder i c b hc hp rfl)
    | joined hc hp hcount =>
      exact h.leave hinv.shape hc fun d => hinv.counted.left hc hcount
  · cases hrest with
    | sleep hw hq | rouse hw => exact h

/-- **No task is left behind in an orderly run.** -/
theorem noOrphans_of_reaches {tasks : List β}
    (hrun : Reaches (fun σ τ => (Step acts σ τ ∨ Rest σ τ) ∧ Orderly σ τ) (State.start n tasks) σ) :
    NoOrphans σ.calls := by
  have hboth : Inv n σ ∧ NoOrphans σ.calls := by
    refine @Reaches.invariant _ _ _ _ (fun σ => Inv n σ ∧ NoOrphans σ.calls) hrun
      ⟨inv_start n tasks, noOrphans_start n tasks⟩ fun _ _ h hs => ?_
    exact ⟨hs.1.elim h.1.step h.1.rest, (h.2.step_iff h.1 hs.1).mpr hs.2⟩
  exact hboth.2

end Orphans

end ForkJoin
