import Fstree.Foundations.ForkJoin

/-!
# A pool of workers that fork and join

A worker that waits for the tasks its own task has forked does nothing else. Still the pool is
never stuck: while a call has not ended, some thread can take a step
(`ForkJoin.Inv.exists_step`), and it is not that a worker falls asleep. What carries the proof is
an invariant (`ForkJoin.Inv`) with two counts. The tasks that were accepted and have not ended, and
the permits, are as many as the workers; so while a task is in the queue a worker is not busy
(`ForkJoin.Inv.exists_not_busy`). And no worker sleeps over a task in the queue unless another is
to be notified. The last call that was begun and has not ended waits for none: it goes on, or is in
the queue.
-/

namespace ForkJoin

open Pool Transition

variable {β : Type*}

/-! ### The invariant -/

/-- **The invariant of a pool** of `n` workers. -/
structure Inv (n : ℕ) (σ : State β) : Prop where
  shape : Shape σ.calls
  counted : Counted σ.calls
  workers : σ.workers.length = n
  /-- There is a permit for every worker, and a task that was accepted holds one. -/
  permits : σ.permits + σ.calls.countP Call.accepted = n
  busy : σ.workers.countP Worker.isBusy = σ.calls.countP Call.taken
  nodup : σ.queue.Nodup
  queue : ∀ k ∈ σ.queue, ∃ c, σ.calls[k]? = some c ∧ c.phase.isQueued = true
  queued : ∀ (i : ℕ) (c : Call β), σ.calls[i]? = some c → c.phase.isQueued = true → i ∈ σ.queue
  taken : ∀ (i : ℕ) (c : Call β), σ.calls[i]? = some c → c.taken = true → .busy i ∈ σ.workers
  /-- No worker sleeps over a task in the queue, unless one is about to be notified. -/
  awake : .asleep ∈ σ.workers → σ.queue.length ≤
    σ.workers.countP Worker.isIdle + σ.calls.countP fun c => c.phase.isNotifying

theorem inv_start (n : ℕ) (tasks : List β) : Inv n (State.start n tasks) := by
  have hcall : ∀ (i : ℕ) (c : Call β), (State.start n tasks).calls[i]? = some c →
      ∃ b, c = ⟨none, .caller, .running b, {}⟩ := by
    intro i c hc
    obtain ⟨b, -, rfl⟩ := List.mem_map.mp (List.mem_of_getElem? hc)
    exact ⟨b, rfl⟩
  have hzero : ∀ f : Call β → Bool, (∀ b, f ⟨none, .caller, .running b, {}⟩ = false) →
      (State.start n tasks).calls.countP f = 0 := by
    intro f hf
    refine List.countP_eq_zero.mpr fun c hc => ?_
    obtain ⟨b, -, rfl⟩ := List.mem_map.mp hc
    simp [hf]
  refine ⟨⟨?_, ?_, ?_⟩, ?_, ?_, ?_, ?_, List.nodup_nil, nofun, ?_, ?_, ?_⟩
  · intro i c o hc ho
    obtain ⟨b, rfl⟩ := hcall i c hc
    cases ho
  · intro i c k b hc hp
    obtain ⟨b, rfl⟩ := hcall i c hc
    cases hp
  · intro i c hc hp
    obtain ⟨b, rfl⟩ := hcall i c hc
    simp [Phase.isQueued, Phase.left] at hp
  · intro i c hc
    obtain ⟨b, rfl⟩ := hcall i c hc
    rw [hzero _ fun b => rfl]
    rfl
  · exact List.length_replicate
  · rw [hzero _ fun b => rfl]
    rfl
  · rw [hzero _ fun b => rfl]
    refine List.countP_eq_zero.mpr fun w hw => ?_
    rw [List.eq_of_mem_replicate hw]
    exact Bool.false_ne_true
  · intro i c hc hp
    obtain ⟨b, rfl⟩ := hcall i c hc
    cases hp
  · intro i c hc hp
    obtain ⟨b, rfl⟩ := hcall i c hc
    cases hp
  · intro hw
    cases List.eq_of_mem_replicate hw

section Step

variable {n : ℕ} {σ τ : State β} {c : Call β} {i : ℕ} {p : Phase β} {workers : List Worker}

/-- What has not been left has not ended. -/
theorem Phase.isEnded_of_left (h : p.left = false) : p.isEnded = false := by
  cases p <;> first | rfl | cases h

/-- A call that is not queued is not in the queue, and may change. -/
theorem Inv.queue_set (h : Inv n σ) (hc : σ.calls[i]? = some c) (hqueued : c.phase.isQueued = false)
    {k : ℕ} (hk : k ∈ σ.queue) (c' : Call β) :
    ∃ d, (σ.calls.set i c')[k]? = some d ∧ d.phase.isQueued = true := by
  obtain ⟨d, hd, hq⟩ := h.queue k hk
  have hne : i ≠ k := by
    rintro rfl
    rw [hc] at hd
    rw [← Option.some.inj hd, hqueued] at hq
    cases hq
  exact ⟨d, (List.getElem?_set_ne hne).trans hd, hq⟩

/-- **A call goes on**: it is not in the queue, and is not left. -/
theorem Inv.goOn (h : Inv n σ) (hc : σ.calls[i]? = some c) (hinside : ∀ k b, p ≠ .inside k b)
    (hleft : c.phase.left = false) (hp : p.left = false) (hqueued : c.phase.isQueued = false)
    (hpq : p.isQueued = false) (hlen : workers.length = σ.workers.length)
    (hbusy : workers.countP Worker.isBusy = σ.workers.countP Worker.isBusy)
    (hmem : ∀ k, .busy k ∈ σ.workers → .busy k ∈ workers)
    (hawake : .asleep ∈ workers → σ.queue.length ≤ workers.countP Worker.isIdle +
      (σ.calls.set i { c with phase := p }).countP fun c => c.phase.isNotifying) :
    Inv n { σ.goOn i c p with workers := workers } := by
  have haccepted : Call.accepted { c with phase := p } = c.accepted := by
    rw [Call.accepted, Call.accepted, Phase.isEnded_of_left hleft, Phase.isEnded_of_left hp]
  have htaken : Call.taken { c with phase := p } = c.taken := by
    rw [Call.taken, Call.taken, haccepted, hqueued, hpq]
  refine ⟨h.shape.goOn hc hinside (hp.trans hleft.symm) ?_, h.counted.goOn hc (hp.trans hleft.symm),
    hlen.trans h.workers, ?_, ?_, h.nodup, fun k hk => ?_, fun j d hd hq => ?_, fun j d hd ht => ?_,
    hawake⟩
  · simp [hpq, hp]
  · exact (congrArg (σ.permits + ·) (countP_set_of_eq hc haccepted)).trans h.permits
  · exact hbusy.trans (h.busy.trans (countP_set_of_eq hc htaken).symm)
  · exact h.queue_set hc hqueued hk _
  · rcases eq_of_getElem?_set hd with ⟨rfl, rfl⟩ | ⟨-, hd⟩
    · rw [hpq] at hq
      cases hq
    · exact h.queued j d hd hq
  · rcases eq_of_getElem?_set hd with ⟨rfl, rfl⟩ | ⟨-, hd⟩
    · rw [htaken] at ht
      exact hmem _ (h.taken j c hc ht)
    · exact hmem _ (h.taken j d hd ht)

/-- A call that was running goes on. -/
theorem Inv.run (h : Inv n σ) (hc : σ.calls[i]? = some c) {b : β} (hb : c.phase = .running b)
    (hinside : ∀ k b, p ≠ .inside k b) (hp : p.left = false) (hpq : p.isQueued = false)
    (hpn : p.isNotifying = false) : Inv n (σ.goOn i c p) := by
  refine h.goOn hc hinside (by rw [hb]; rfl) hp (by rw [hb]; rfl) hpq rfl rfl (fun _ hk => hk)
    fun hw => ?_
  rw [countP_set_of_eq hc (by rw [hpn, hb]; rfl)]
  exact h.awake hw

/-- **The invariant of the pool when a task is forked.** -/
theorem Inv.fork (h : Inv n σ) (hc : σ.calls[i]? = some c) {b k b' : β} {m : ℕ}
    (hb : c.phase = .running b) (hm : σ.permits = m + 1) :
    Inv n { σ with
      calls := σ.calls.set i { c with phase := .notifying b', wg := c.wg.add 1 } ++
        [⟨some i, .pooled, .queued k, {}⟩]
      queue := σ.queue ++ [σ.calls.length]
      permits := m } := by
  have hl : c.phase.left = false := by rw [hb]; rfl
  have hset : ∀ f : Call β → Bool, f { c with phase := .notifying b', wg := c.wg.add 1 } = f c →
      (σ.calls.set i { c with phase := .notifying b', wg := c.wg.add 1 }).countP f =
        σ.calls.countP f := fun f hf => countP_set_of_eq hc hf
  have hfresh : σ.calls.length ∉ σ.queue := fun hk => by
    obtain ⟨d, hd, -⟩ := h.queue _ hk
    exact absurd (List.getElem?_eq_some_iff.mp hd).1 (lt_irrefl _)
  refine ⟨h.shape.fork hc rfl rfl rfl (fun _ => rfl) nofun nofun,
    h.counted.fork h.shape hc hl rfl rfl, h.workers, ?_, ?_, ?_, fun q hk => ?_,
    fun j d hd hq => ?_, fun j d hd ht => ?_, fun hw => ?_⟩
  · -- the permit that was taken is held by the new call
    have hp := h.permits
    have hnew : [(⟨some i, .pooled, .queued k, {}⟩ : Call β)].countP Call.accepted = 1 := rfl
    rw [List.countP_append, hset _ (by simp [Call.accepted, hb, Phase.isEnded]), hnew]
    change m + _ = n
    omega
  · have hnew : [(⟨some i, .pooled, .queued k, {}⟩ : Call β)].countP Call.taken = 0 := rfl
    rw [List.countP_append,
      hset _ (by simp [Call.taken, Call.accepted, hb, Phase.isEnded, Phase.isQueued]), hnew]
    exact h.busy
  · rw [List.nodup_append]
    refine ⟨h.nodup, by simp, fun a ha b hb' => ?_⟩
    rw [List.mem_singleton.mp hb']
    rintro rfl
    exact hfresh ha
  · rcases List.mem_append.mp hk with hk | hk
    · obtain ⟨d, hd, hq⟩ := h.queue_set hc (by rw [hb]; rfl) hk _
      exact ⟨d, getElem?_concat_of_some hd _, hq⟩
    · rw [List.mem_singleton.mp hk]
      refine ⟨⟨some i, .pooled, .queued k, {}⟩, ?_, rfl⟩
      rw [List.getElem?_append_right (by simp), List.length_set, Nat.sub_self]
      rfl
  · rcases eq_of_getElem?_concat hd with hd | ⟨rfl, rfl⟩
    · rcases eq_of_getElem?_set hd with ⟨rfl, rfl⟩ | ⟨-, hd⟩
      · cases hq
      · exact List.mem_append_left _ (h.queued j d hd hq)
    · rw [List.length_set]
      exact List.mem_append_right _ (List.mem_singleton_self _)
  · rcases eq_of_getElem?_concat hd with hd | ⟨rfl, rfl⟩
    · rcases eq_of_getElem?_set hd with ⟨rfl, rfl⟩ | ⟨-, hd⟩
      · refine h.taken j c hc ?_
        simpa [Call.taken, Call.accepted, hb, Phase.isEnded, Phase.isQueued] using ht
      · exact h.taken j d hd ht
    · cases ht
  · -- the queue is longer by one, and there is one more that is about to notify
    have hcount := countP_set_add (p := fun c : Call β => c.phase.isNotifying) hc
      { c with phase := .notifying b', wg := c.wg.add 1 }
    have hold : c.phase.isNotifying = false := by rw [hb]; rfl
    have haw := h.awake hw
    rw [hold, if_neg Bool.false_ne_true] at hcount
    change _ = _ + 1 at hcount
    rw [List.length_append, List.length_singleton, List.countP_append]
    change _ ≤ σ.workers.countP Worker.isIdle + (_ + 0)
    omega

/-- **The invariant when a task is executed by the thread that forks it.** -/
theorem Inv.inline (h : Inv n σ) (hc : σ.calls[i]? = some c) {b k b' : β}
    (hb : c.phase = .running b) :
    Inv n { σ with
      calls := σ.calls.set i { c with
          phase := .inside σ.calls.length b', wg := c.wg.add 1 } ++
        [⟨some i, .inlined, .running k, {}⟩] } := by
  have hl : c.phase.left = false := by rw [hb]; rfl
  have hset : ∀ f : Call β → Bool,
      f { c with phase := .inside σ.calls.length b', wg := c.wg.add 1 } = f c →
      f (⟨some i, .inlined, .running k, {}⟩ : Call β) = false →
      (σ.calls.set i { c with phase := .inside σ.calls.length b', wg := c.wg.add 1 } ++
        [(⟨some i, .inlined, .running k, {}⟩ : Call β)]).countP f = σ.calls.countP f := by
    intro f hf hnew
    rw [List.countP_append, countP_set_of_eq hc hf, List.countP_singleton, hnew]
    rfl
  refine ⟨h.shape.fork hc rfl rfl rfl nofun (fun k b hp => ?_) nofun,
    h.counted.fork h.shape hc hl rfl rfl, h.workers, ?_, ?_, h.nodup, fun q hk => ?_,
    fun j d hd hq => ?_, fun j d hd ht => ?_, fun hw => ?_⟩
  · exact ⟨(Phase.inside.inj hp).1.symm, rfl⟩
  · rw [hset _ (by simp [Call.accepted, hb, Phase.isEnded]) rfl]
    exact h.permits
  · rw [hset _ (by simp [Call.taken, Call.accepted, hb, Phase.isEnded, Phase.isQueued]) rfl]
    exact h.busy
  · obtain ⟨d, hd, hq⟩ := h.queue_set hc (by rw [hb]; rfl) hk _
    exact ⟨d, getElem?_concat_of_some hd _, hq⟩
  · rcases eq_of_getElem?_concat hd with hd | ⟨rfl, rfl⟩
    · rcases eq_of_getElem?_set hd with ⟨rfl, rfl⟩ | ⟨-, hd⟩
      · cases hq
      · exact h.queued j d hd hq
    · cases hq
  · rcases eq_of_getElem?_concat hd with hd | ⟨rfl, rfl⟩
    · rcases eq_of_getElem?_set hd with ⟨rfl, rfl⟩ | ⟨-, hd⟩
      · refine h.taken j c hc ?_
        simpa [Call.taken, Call.accepted, hb, Phase.isEnded, Phase.isQueued] using ht
      · exact h.taken j d hd ht
    · cases ht
  · rw [hset (fun c => c.phase.isNotifying) (by rw [hb]; rfl) rfl]
    exact h.awake hw

/-- **The invariant when a call is left.** -/
theorem Inv.leave (h : Inv n σ) (hc : σ.calls[i]? = some c) (hl : c.phase.left = false)
    (hq : c.phase.isQueued = false) (hn : c.phase.isNotifying = false) (failed : Bool) :
    Inv n (σ.leave i c failed) := by
  have haccepted : Call.accepted ({ c with phase := leftPhase c.mode failed } : Call β) =
      c.accepted := by
    rw [Call.accepted, Call.accepted, Phase.isEnded_of_left hl]
    cases c.mode <;> rfl
  have hqueued : (leftPhase c.mode failed : Phase β).isQueued = false := by
    cases hm : c.mode <;> rfl
  have htaken : Call.taken ({ c with phase := leftPhase c.mode failed } : Call β) = c.taken := by
    rw [Call.taken, Call.taken, haccepted, hq, hqueued]
  have hnotify : (leftPhase c.mode failed : Phase β).isNotifying = false := by
    cases hm : c.mode <;> rfl
  have hset : ∀ f : Call β → Bool, Countable f →
      f { c with phase := leftPhase c.mode failed } = f c →
      (σ.leave i c failed).calls.countP f = σ.calls.countP f := by
    intro f hf he
    rw [State.leave, countP_report hf, countP_set_of_eq hc he]
  have hne := h.shape.owner_ne hc
  refine ⟨h.shape.leave hc, h.counted.leave h.shape hc hl, h.workers, ?_, ?_, h.nodup,
    fun k hk => ?_, fun j d hd hdq => ?_, fun j d hd ht => ?_, fun hw => ?_⟩
  · rw [hset _ countable_accepted haccepted]
    exact h.permits
  · rw [hset _ countable_taken htaken]
    exact h.busy
  · obtain ⟨d, hd', hdq⟩ := h.queue_set hc hq hk { c with phase := leftPhase c.mode failed }
    obtain ⟨d', hget, -, -, -, hq'⟩ := @exists_of_getElem?_report _ _ c _ _ failed hd'
    exact ⟨d', hget, hq'.trans hdq⟩
  · rcases eq_of_getElem?_leave hne hd with ⟨rfl, rfl⟩ | ⟨-, -, hj⟩ | ⟨d₀, -, -, hj, rfl⟩
    · rw [hqueued] at hdq
      cases hdq
    · exact h.queued j d hj hdq
    · exact h.queued j d₀ hj (by rwa [isQueued_resume] at hdq)
  · rcases eq_of_getElem?_leave hne hd with ⟨rfl, rfl⟩ | ⟨-, -, hj⟩ | ⟨d₀, -, -, hj, rfl⟩
    · exact h.taken j c hc (htaken ▸ ht)
    · exact h.taken j d hj ht
    · exact h.taken j d₀ hj (countable_taken d₀ c.mode _ ▸ ht)
  · rw [hset _ countable_notifying (hnotify.trans hn.symm)]
    exact h.awake hw

/-- **The invariant when a permit is given back.** -/
theorem Inv.release (h : Inv n σ) (hc : σ.calls[i]? = some c) {f : Bool} {w : ℕ}
    (hp : c.phase = .releasing f) (hw : σ.workers[w]? = some (.busy i)) :
    Inv n { σ.goOn i c (.ended f) with
      permits := σ.permits + 1
      workers := σ.workers.set w .idle } := by
  have hmode : c.mode = .pooled := h.shape.pooled i c hc (by rw [hp]; exact Or.inr ⟨rfl, rfl⟩)
  have hold : c.accepted = true := by rw [Call.accepted, hmode, hp]; rfl
  have htaken : c.taken = true := by rw [Call.taken, hold, hp]; rfl
  have hnew : Call.accepted ({ c with phase := .ended f } : Call β) = false := by
    rw [Call.accepted, hmode]
    rfl
  have hnewt : Call.taken ({ c with phase := .ended f } : Call β) = false := by
    rw [Call.taken, hnew]
    rfl
  have hidle := countP_set_add (p := Worker.isIdle) hw .idle
  have hbusy := countP_set_add (p := Worker.isBusy) hw .idle
  have hcount := countP_set_add (p := Call.accepted) hc { c with phase := .ended f }
  have hcountt := countP_set_add (p := Call.taken) hc { c with phase := .ended f }
  simp only [hold, hnew, htaken, hnewt, Worker.isIdle, Worker.isBusy, if_true, Bool.false_eq_true,
    if_false, decide_true, reduceCtorEq, decide_false, add_zero] at hidle hbusy hcount hcountt
  refine ⟨h.shape.goOn hc (by simp) (by rw [hp]; rfl) (by simp [Phase.isQueued, Phase.isEnded]),
    h.counted.goOn hc (by rw [hp]; rfl), ?_, ?_, ?_, h.nodup, fun k hk => ?_, fun j d hd hq => ?_,
    fun j d hd ht => ?_, fun hs => ?_⟩
  · exact List.length_set.trans h.workers
  · have := h.permits
    change σ.permits + 1 + (σ.calls.set i _).countP Call.accepted = n
    omega
  · have := h.busy
    change (σ.workers.set w .idle).countP Worker.isBusy = (σ.calls.set i _).countP Call.taken
    omega
  · exact h.queue_set hc (by rw [hp]; rfl) hk _
  · rcases eq_of_getElem?_set hd with ⟨rfl, rfl⟩ | ⟨-, hd⟩
    · cases hq
    · exact h.queued j d hd hq
  · rcases eq_of_getElem?_set hd with ⟨rfl, rfl⟩ | ⟨hj, hd⟩
    · rw [hnewt] at ht
      cases ht
    · exact mem_set_of_ne hw _ (h.taken j d hd ht) fun he => hj (Worker.busy.inj he)
  · -- the worker is idle now, so there may be one more task in the queue than before
    have hawake := h.awake ((List.mem_or_eq_of_mem_set hs).resolve_right (by simp))
    have hnotify : (σ.calls.set i { c with phase := .ended f }).countP
        (fun c => c.phase.isNotifying) = σ.calls.countP fun c => c.phase.isNotifying :=
      countP_set_of_eq hc (by rw [hp]; rfl)
    change σ.queue.length ≤ (σ.workers.set w .idle).countP Worker.isIdle +
      (σ.calls.set i { c with phase := .ended f }).countP _
    rw [hnotify]
    omega

/-- **The invariant when a worker takes a task.** -/
theorem Inv.pop (h : Inv n σ) {w k : ℕ} {q : List ℕ} {b : β} (hw : σ.workers[w]? = some .idle)
    (hq : σ.queue = k :: q) (hc : σ.calls[k]? = some c) (hp : c.phase = .queued b) :
    Inv n { σ.goOn k c (.running b) with
      queue := q
      workers := σ.workers.set w (.busy k) } := by
  have hmode : c.mode = .pooled := h.shape.pooled k c hc (by rw [hp]; exact Or.inl rfl)
  have haccepted : Call.accepted ({ c with phase := .running b } : Call β) = c.accepted := by
    rw [Call.accepted, Call.accepted, hp]
    rfl
  have hold : c.taken = false := by rw [Call.taken, hp, Bool.and_eq_false_iff]; exact Or.inr rfl
  have hnew : Call.taken ({ c with phase := .running b } : Call β) = true := by
    rw [Call.taken, Call.accepted, hmode]
    rfl
  have hidle := countP_set_add (p := Worker.isIdle) hw (.busy k)
  have hbusy := countP_set_add (p := Worker.isBusy) hw (.busy k)
  have hcount := countP_set_add (p := Call.taken) hc { c with phase := .running b }
  simp only [hold, hnew, Worker.isIdle, Worker.isBusy, if_true, Bool.false_eq_true, if_false,
    decide_true, reduceCtorEq, decide_false, add_zero] at hidle hbusy hcount
  have hnodup := h.nodup
  rw [hq, List.nodup_cons] at hnodup
  refine ⟨h.shape.goOn hc (by simp) (by rw [hp]; rfl) (by simp [Phase.isQueued, Phase.left]),
    h.counted.goOn hc (by rw [hp]; rfl), ?_, ?_, ?_, hnodup.2, fun k' hk => ?_,
    fun j d hd hq' => ?_, fun j d hd ht => ?_, fun hs => ?_⟩
  · exact List.length_set.trans h.workers
  · exact (congrArg (σ.permits + ·) (countP_set_of_eq hc haccepted)).trans h.permits
  · have := h.busy
    change (σ.workers.set w (.busy k)).countP Worker.isBusy = (σ.calls.set k _).countP Call.taken
    omega
  · obtain ⟨d, hd, hd'⟩ := h.queue k' (hq ▸ List.mem_cons_of_mem _ hk)
    have hne : k ≠ k' := by
      rintro rfl
      exact hnodup.1 hk
    exact ⟨d, (List.getElem?_set_ne hne).trans hd, hd'⟩
  · rcases eq_of_getElem?_set hd with ⟨rfl, rfl⟩ | ⟨hj, hd⟩
    · cases hq'
    · have hmem := h.queued j d hd hq'
      rw [hq] at hmem
      exact (List.mem_cons.mp hmem).resolve_left hj
  · rcases eq_of_getElem?_set hd with ⟨rfl, rfl⟩ | ⟨-, hd⟩
    · exact List.mem_of_getElem? (getElem?_set_of_some hw _)
    · exact mem_set_of_ne hw _ (h.taken j d hd ht) (by simp)
  · -- the queue and the idle workers are one fewer each
    have hawake := h.awake ((List.mem_or_eq_of_mem_set hs).resolve_right (by simp))
    have hnotify : (σ.calls.set k { c with phase := .running b }).countP
        (fun c => c.phase.isNotifying) = σ.calls.countP fun c => c.phase.isNotifying :=
      countP_set_of_eq hc (by rw [hp]; rfl)
    rw [hq, List.length_cons] at hawake
    change q.length ≤ (σ.workers.set w (.busy k)).countP Worker.isIdle +
      (σ.calls.set k { c with phase := .running b }).countP _
    rw [hnotify]
    omega

/-- **The invariant when a worker falls asleep or wakes up.** -/
theorem Inv.rest (h : Inv n σ) (hstep : Rest σ τ) : Inv n τ := by
  cases hstep with
  | @sleep w hw hq =>
    refine ⟨h.shape, h.counted, List.length_set.trans h.workers, h.permits, ?_, h.nodup, h.queue,
      h.queued, fun j d hd ht => mem_set_of_ne hw _ (h.taken j d hd ht) nofun, fun _ => ?_⟩
    · exact (@countP_set_of_eq _ _ _ _ _ .asleep hw rfl).trans h.busy
    · rw [hq]
      exact Nat.zero_le _
  | @rouse w hw =>
    have hidle := countP_set_add (p := Worker.isIdle) hw .idle
    refine ⟨h.shape, h.counted, List.length_set.trans h.workers, h.permits, ?_, h.nodup, h.queue,
      h.queued, fun j d hd ht => mem_set_of_ne hw _ (h.taken j d hd ht) nofun, fun hs => ?_⟩
    · exact (@countP_set_of_eq _ _ _ _ _ .idle hw rfl).trans h.busy
    · have hawake := h.awake ((List.mem_or_eq_of_mem_set hs).resolve_right nofun)
      simp only [Worker.isIdle, reduceCtorEq, decide_false, decide_true, Bool.false_eq_true,
        if_false, if_true, add_zero] at hidle
      change σ.queue.length ≤ (σ.workers.set w .idle).countP Worker.isIdle +
        σ.calls.countP _
      omega

/-- **The invariant when a worker is notified**, or none is asleep. -/
theorem Inv.notify (h : Inv n σ) (hc : σ.calls[i]? = some c) {b : β} (hb : c.phase = .notifying b)
    (hlen : workers.length = σ.workers.length)
    (hbusy : workers.countP Worker.isBusy = σ.workers.countP Worker.isBusy)
    (hmem : ∀ k, .busy k ∈ σ.workers → .busy k ∈ workers)
    (hidle : .asleep ∈ workers → .asleep ∈ σ.workers ∧
      workers.countP Worker.isIdle = σ.workers.countP Worker.isIdle + 1) :
    Inv n { σ.goOn i c (.running b) with workers := workers } := by
  refine h.goOn hc nofun (by rw [hb]; rfl) rfl (by rw [hb]; rfl) rfl hlen hbusy hmem fun hs => ?_
  obtain ⟨hasleep, hidle⟩ := hidle hs
  have hawake := h.awake hasleep
  have hcount := countP_set_add (p := fun c : Call β => c.phase.isNotifying) hc
    { c with phase := .running b }
  have hold : c.phase.isNotifying = true := by rw [hb]; rfl
  rw [hold, if_pos rfl] at hcount
  change _ = _ + 0 at hcount
  omega

/-- **Every step keeps the invariant.** -/
theorem Inv.step {acts : β → Act β → Prop} (h : Inv n σ) (hstep : Step acts σ τ) : Inv n τ := by
  cases hstep with
  | go hc hp ha => exact h.run hc hp nofun rfl rfl rfl
  | accept hc hp ha hn => exact h.fork hc hp hn
  | inline hc hp ha hn => exact h.inline hc hp
  | @wake i c b w hc hp hw =>
    refine h.notify hc hp List.length_set (countP_set_of_eq hw rfl)
      (fun k hk => mem_set_of_ne hw _ hk nofun) fun hs => ?_
    have hidle := countP_set_add (p := Worker.isIdle) hw .idle
    simp only [Worker.isIdle, reduceCtorEq, decide_false, decide_true, Bool.false_eq_true, if_false,
      if_true, add_zero] at hidle
    exact ⟨(List.mem_or_eq_of_mem_set hs).resolve_right nofun, hidle⟩
  | wakeNone hc hp hw => exact h.notify hc hp rfl rfl (fun _ hk => hk) fun hs => absurd hs hw
  | join hc hp ha => exact h.run hc hp nofun rfl rfl rfl
  | throw hc hp ha => exact h.leave hc (by rw [hp]; rfl) (by rw [hp]; rfl) (by rw [hp]; rfl) true
  | joined hc hp hcount => exact h.leave hc (by rw [hp]; rfl) (by rw [hp]; rfl) (by rw [hp]; rfl) _
  | release hc hp hw => exact h.release hc hp hw
  | pop hw hq hc hp => exact h.pop hw hq hc hp

/-- **The invariant holds in every reachable state.** -/
theorem inv_of_reaches {acts : β → Act β → Prop} {tasks : List β}
    (hrun : Reaches (fun σ τ => Step acts σ τ ∨ Rest σ τ) (State.start n tasks) σ) : Inv n σ :=
  hrun.invariant (inv_start n tasks) fun _ _ h hstep => hstep.elim h.step h.rest

end Step

/-! ### No pool is stuck -/

section Progress

variable {acts : β → Act β → Prop} {n : ℕ} {σ : State β}

/-- The tasks that were accepted and have not ended are no more than the workers. -/
theorem Inv.accepted_le (h : Inv n σ) : σ.calls.countP Call.accepted ≤ n := by
  have := h.permits
  omega

/-- **While a task is in the queue some worker is not busy.** -/
theorem Inv.exists_not_busy (h : Inv n σ) (hq : σ.queue ≠ []) :
    ∃ w ∈ σ.workers, w.isBusy = false := by
  obtain ⟨k, q, hq⟩ := List.exists_cons_of_ne_nil hq
  obtain ⟨c, hc, hcq⟩ := h.queue k (hq ▸ List.mem_cons_self)
  have hmode := h.shape.pooled k c hc (Or.inl hcq)
  have haccepted : c.accepted = true := by
    rw [Call.accepted, hmode]
    cases hp : c.phase <;> first | rfl | (rw [hp] at hcq; cases hcq)
  -- it is accepted and not taken
  have hlt : σ.calls.countP Call.taken < σ.calls.countP Call.accepted := by
    refine countP_lt_countP (fun d hd => (Bool.and_eq_true_iff.mp hd).1) (List.mem_of_getElem? hc)
      haccepted ?_
    rw [Call.taken, hcq]
    simp
  by_contra hall
  have : σ.workers.countP Worker.isBusy = σ.workers.length :=
    List.countP_eq_length.mpr fun w hw => by
      by_contra hb
      exact hall ⟨w, hw, Bool.eq_false_iff.mpr hb⟩
  have := h.accepted_le
  have := h.busy
  have := h.workers
  omega

/-- A call that is notifying can go on. -/
theorem exists_step_of_notifying {i : ℕ} {c : Call β} (hc : σ.calls[i]? = some c)
    (hn : c.phase.isNotifying = true) : ∃ τ, Step acts σ τ := by
  obtain ⟨b, hb⟩ : ∃ b, c.phase = .notifying b := by
    cases hp : c.phase with
    | notifying b => exact ⟨b, rfl⟩
    | _ => rw [hp] at hn; cases hn
  by_cases hasleep : .asleep ∈ σ.workers
  · obtain ⟨w, hw⟩ := List.mem_iff_getElem?.mp hasleep
    exact ⟨_, .wake hc hb hw⟩
  · exact ⟨_, .wakeNone hc hb hasleep⟩

/-- **A task in the queue is taken, or a worker notified.** -/
theorem Inv.exists_step_of_queue (h : Inv n σ) (hq : σ.queue ≠ []) : ∃ τ, Step acts σ τ := by
  obtain ⟨k, q, hkq⟩ := List.exists_cons_of_ne_nil hq
  by_cases hidle : .idle ∈ σ.workers
  · obtain ⟨w, hw⟩ := List.mem_iff_getElem?.mp hidle
    obtain ⟨c, hc, hcq⟩ := h.queue k (hkq ▸ List.mem_cons_self)
    cases hp : c.phase with
    | queued b => exact ⟨_, .pop hw hkq hc hp⟩
    | _ => rw [hp] at hcq; cases hcq
  · -- the worker that is not busy is asleep: a notification is on its way
    obtain ⟨w, hw, hb⟩ := h.exists_not_busy hq
    have hasleep : .asleep ∈ σ.workers := by
      cases w with
      | idle => exact absurd hw hidle
      | asleep => exact hw
      | busy _ => cases hb
    have hzero : σ.workers.countP Worker.isIdle = 0 := List.countP_eq_zero.mpr fun v hv hi => by
      rw [Worker.isIdle, decide_eq_true_eq] at hi
      exact hidle (hi ▸ hv)
    have hawake := h.awake hasleep
    rw [hzero, hkq, List.length_cons] at hawake
    have hpos : 0 < σ.calls.countP fun c => c.phase.isNotifying := by omega
    obtain ⟨c, hc, hn⟩ := List.countP_pos_iff.mp hpos
    obtain ⟨i, hi⟩ := List.mem_iff_getElem?.mp hc
    exact exists_step_of_notifying hi hn

/-- **The pool is never stuck**: while a call has not ended, some thread can take a step. -/
theorem Inv.exists_step (h : Inv n σ) (hacts : ∀ b, ∃ a, acts b a)
    (hlive : ∃ c ∈ σ.calls, c.phase.isEnded = false) : ∃ τ, Step acts σ τ := by
  obtain ⟨c₀, hc₀, hlive⟩ := hlive
  -- the call that was begun last waits for no other
  obtain ⟨i, c, hc, hlive, hlast⟩ := @exists_last _ σ.calls (fun c => c.phase.isEnded = true)
    ⟨c₀, hc₀, by simp [hlive]⟩
  cases hp : c.phase with
  | queued b =>
    exact h.exists_step_of_queue fun hq => by
      have hmem := h.queued i c hc (by rw [hp]; rfl)
      rw [hq] at hmem
      cases hmem
  | running b =>
    obtain ⟨a, ha⟩ := hacts b
    cases a with
    | go b' => exact ⟨_, .go hc hp ha⟩
    | fork k b' =>
      cases hn : σ.permits with
      | zero => exact ⟨_, .inline hc hp ha hn⟩
      | succ m => exact ⟨_, .accept hc hp ha hn⟩
    | throw => exact ⟨_, .throw hc hp ha⟩
    | join => exact ⟨_, .join hc hp ha⟩
  | notifying b => exact exists_step_of_notifying hc (by rw [hp]; rfl)
  | inside k b =>
    -- what it executes was begun later, and has not ended
    obtain ⟨d, hd, ho, -, hl⟩ := h.shape.inside i c k b hc hp
    have hended := hlast k d (h.shape.owner k d i hd ho) hd
    rw [Phase.isEnded_of_left hl] at hended
    cases hended
  | joining =>
    by_cases hcount : c.wg.count ≤ 0
    · exact ⟨_, .joined hc hp hcount⟩
    · -- so was what it waits for
      have hpos : 0 < σ.calls.countP (Call.awaited i) := by
        have := h.counted i c hc
        omega
      obtain ⟨d, hd, ha⟩ := List.countP_pos_iff.mp hpos
      obtain ⟨k, hk⟩ := List.mem_iff_getElem?.mp hd
      simp only [Call.awaited, Bool.and_eq_true, decide_eq_true_eq, Bool.not_eq_true'] at ha
      have hended := hlast k d (h.shape.owner k d i hk ha.1) hk
      rw [Phase.isEnded_of_left ha.2] at hended
      cases hended
  | releasing f =>
    -- the worker that took it is still busy with it
    have hmode : c.mode = .pooled := h.shape.pooled i c hc (by rw [hp]; exact Or.inr ⟨rfl, rfl⟩)
    have hbusy := h.taken i c hc (by rw [Call.taken, Call.accepted, hmode, hp]; rfl)
    obtain ⟨w, hw⟩ := List.mem_iff_getElem?.mp hbusy
    exact ⟨_, .release hc hp hw⟩
  | ended f => exact absurd (by rw [hp]; rfl) hlive

end Progress

end ForkJoin
