import Fstree.Add

/-!
# An add can be finished

Any call of `cache::add` may fail, and then it throws in the end. As long as none has, it does
not get stuck: whatever its jobs have come to, it can go on until it returns
(`Fstree.exists_returned`). A job that is in the pool can be brought to its end by itself
(`Fstree.exists_done`), so all of them can, one after the other
(`Fstree.AddInv.exists_settled`), and then only the calling thread is left.
-/

namespace Fstree

open Transition

section Job

variable {H : HashFunction} {read : Bytes → Prop} {st : Store} {h : Digest} {j : Job}

/-- **A copy can be finished.** -/
theorem copy_done (n : ℕ) {src : Bytes} {off : ℕ} (hn : src.length - off = n)
    (hoff : off ≤ src.length) (hobj : st.hasObject h = true) :
    ∃ st', Reaches (JobStep H read) (st, h, .copying src off) (st', h, .done) := by
  induction n generalizing st off with
  | zero =>
    obtain rfl : off = src.length := by omega
    exact ⟨st, .single .finish⟩
  | succ n ih =>
    have hlt : off < src.length := by omega
    obtain ⟨b, hb⟩ := Option.isSome_iff_exists.mp hobj
    have hobj' : (st.put (filePath h) (writeByte b off src[off])).hasObject h = true := by
      simp [Store.hasObject]
    obtain ⟨st', hst'⟩ := @ih _ (off + 1) (by omega) hlt hobj'
    exact ⟨st', .head (.write (List.getElem?_eq_getElem hlt) hb) hst'⟩

/-- **A job that has not failed can be finished.** -/
theorem exists_done {b : Bytes} (hread : read b) (habsent : j ≠ .absent) (hj : j.threw = false)
    (hcopy : ∀ src off, j = .copying src off → off ≤ src.length ∧ st.hasObject h = true) :
    ∃ st' h', Reaches (JobStep H read) (st, h, j) (st', h', .done) := by
  have hmissing : ∀ h, ∃ st', Reaches (JobStep H read) (st, h, .missing) (st', h, .done) := by
    intro h
    obtain ⟨st', hst'⟩ : ∃ st', Reaches (JobStep H read)
        (st.put (filePath h) [], h, .copying b 0) (st', h, .done) :=
      copy_done _ rfl (Nat.zero_le _) (by simp [Store.hasObject])
    exact ⟨st', .head (.openCopy hread) hst'⟩
  have hhashed : ∀ h, ∃ st', Reaches (JobStep H read) (st, h, .hashed) (st', h, .done) := by
    intro h
    cases hobj : st.hasObject h with
    | true => exact ⟨st, .single (.present hobj)⟩
    | false =>
      obtain ⟨st', hst'⟩ := hmissing h
      exact ⟨st', .head (.missing hobj) hst'⟩
  cases j with
  | absent => exact absurd rfl habsent
  | queued =>
    cases hdirty : h.empty with
    | true =>
      obtain ⟨st', hst'⟩ := hhashed (H.sum b)
      exact ⟨st', _, .head (.rehash hdirty hread) hst'⟩
    | false =>
      obtain ⟨st', hst'⟩ := hhashed h
      exact ⟨st', _, .head (.clean hdirty) hst'⟩
  | hashed =>
    obtain ⟨st', hst'⟩ := hhashed h
    exact ⟨st', _, hst'⟩
  | missing =>
    obtain ⟨st', hst'⟩ := hmissing h
    exact ⟨st', _, hst'⟩
  | copying src off =>
    obtain ⟨hoff, hobj⟩ := hcopy src off rfl
    obtain ⟨st', hst'⟩ := copy_done _ rfl hoff hobj
    exact ⟨st', _, hst'⟩
  | done => exact ⟨st, h, .refl⟩
  | failed => cases hj
  | torn => cases hj

end Job

section Add

variable {H : HashFunction} {L : Index} {content : Bytes → Bytes} {st₀ : Store} {hs₀ : Hashes}
  {σ τ : AddState} {p : Bytes}

/-- The steps of one job are steps of the add. -/
theorem reaches_of_job {s s' : Store × Digest × Job}
    (h : Reaches (JobStep H ((readsAs content (leaving id)).reads p)) s s')
    (hs : s = (σ.store, σ.hash p, σ.job p)) :
    Reaches (AddStep H L (readsAs content (leaving id))) σ
      { σ with store := s'.1, hash := σ.hash.set p s'.2.1
               job := Function.update σ.job p s'.2.2 } := by
  subst hs
  induction h with
  | refl =>
    simp only [Hashes.set, Function.update_eq_self]
    exact .refl
  | @tail t u _ hstep ih =>
    refine ih.tail ?_
    have hjob : JobStep H ((readsAs content (leaving id)).reads p)
        (t.1, σ.hash.set p t.2.1 p, Function.update σ.job p t.2.2 p) u := by simpa using hstep
    simpa [Hashes.set] using AddStep.job (L := L) (σ := { σ with
      store := t.1, hash := σ.hash.set p t.2.1, job := Function.update σ.job p t.2.2 }) hjob

/-- No copy is past the end of its source. -/
def CopiesInside (σ : AddState) : Prop :=
  ∀ p src off, σ.job p = .copying src off → off ≤ src.length

theorem CopiesInside.step {calls : AddCalls} (h : CopiesInside σ)
    (hs : AddStep H L calls σ τ) : CopiesInside τ := by
  cases hs with
  | @job p st d j hs =>
    intro q src off hq
    by_cases hqp : q = p
    · subst hqp
      have hj : j = .copying src off := by simpa using hq
      subst hj
      generalize hjob : σ.job q = j₀ at hs
      cases hs with
      | openCopy => exact Nat.zero_le _
      | write hsrc =>
        obtain ⟨hlt, -⟩ := List.getElem?_eq_some_iff.mp hsrc
        exact hlt
    · exact h q src off (by simpa [Function.update_of_ne hqp] using hq)
  | @enqueue i todo dirs hmain hfile =>
    intro q src off hq
    by_cases hqi : q = i.path
    · subst hqi
      simp at hq
    · exact h q src off (by simpa [Function.update_of_ne hqi] using hq)
  | _ => exact h

/-- **No call has failed.** -/
structure Unfailed (σ : AddState) : Prop where
  jobs : ∀ p, (σ.job p).threw = false
  main : σ.main ≠ .threw

/-- **An add in which no call has failed.** -/
structure Sound (H : HashFunction) (L : Index) (content : Bytes → Bytes) (st₀ : Store)
    (hs₀ : Hashes) (σ : AddState) : Prop where
  inv : AddInv H L (readsAs content (leaving id)) st₀ hs₀ σ
  inside : CopiesInside σ
  unfailed : Unfailed σ

theorem Sound.of_reaches (h : Sound H L content st₀ hs₀ σ)
    (hrun : Reaches (AddStep H L (readsAs content (leaving id))) σ τ) (hu : Unfailed τ) :
    Sound H L content st₀ hs₀ τ where
  inv := hrun.invariant h.inv fun _ _ hi hs => hi.step hs
  inside := hrun.invariant h.inside fun _ _ hi hs => hi.step hs
  unfailed := hu

/-- One job is finished, and nothing else happens to the others. -/
theorem Sound.finish_job (h : Sound H L content st₀ hs₀ σ) (p : Bytes) :
    ∃ τ, Reaches (AddStep H L (readsAs content (leaving id))) σ τ ∧ τ.main = σ.main ∧
      (τ.job p).finished = true ∧ (∀ q, q ≠ p → τ.job q = σ.job q) ∧ Unfailed τ := by
  by_cases habsent : σ.job p = .absent
  · exact ⟨σ, .refl, rfl, by rw [habsent]; rfl, fun _ _ => rfl, h.unfailed⟩
  · have hcopy : ∀ src off, σ.job p = .copying src off →
        off ≤ src.length ∧ σ.store.hasObject (σ.hash p) = true := by
      intro src off hj
      refine ⟨h.inside p src off hj, ?_⟩
      obtain ⟨i, hi, hf, rfl⟩ := h.inv.jobs_file p habsent
      have hinv := h.inv.jobs i hi hf
      rw [hj] at hinv
      exact hinv.2
    obtain ⟨st', h', hrun⟩ : ∃ st' h', Reaches (JobStep H ((readsAs content (leaving id)).reads p))
        (σ.store, σ.hash p, σ.job p) (st', h', .done) :=
      exists_done rfl habsent (h.unfailed.jobs p) hcopy
    refine ⟨_, reaches_of_job hrun rfl, rfl, by simp [Job.finished],
      fun q hq => Function.update_of_ne hq _ _, fun q => ?_, h.unfailed.main⟩
    by_cases hq : q = p
    · simp [hq, Job.threw]
    · simpa [Function.update_of_ne hq] using h.unfailed.jobs q

/-- **All jobs can be finished.** -/
theorem Sound.exists_settled (h : Sound H L content st₀ hs₀ σ) :
    ∃ τ, Reaches (AddStep H L (readsAs content (leaving id))) σ τ ∧ τ.main = σ.main ∧ τ.Idle ∧
      Sound H L content st₀ hs₀ τ := by
  have hlist : ∀ l : List Inode, ∃ τ, Reaches (AddStep H L (readsAs content (leaving id))) σ τ ∧
      τ.main = σ.main ∧ Sound H L content st₀ hs₀ τ ∧
      ∀ i ∈ l, (τ.job i.path).finished = true := by
    intro l
    induction l with
    | nil => exact ⟨σ, .refl, rfl, h, nofun⟩
    | cons i l ih =>
      obtain ⟨τ, hrun, hmain, hτ, hfin⟩ := ih
      obtain ⟨υ, hrun', hmain', hi, hother, hu⟩ := hτ.finish_job i.path
      refine ⟨υ, hrun.trans hrun', hmain'.trans hmain, hτ.of_reaches hrun' hu,
        List.forall_mem_cons.mpr ⟨hi, fun k hk => ?_⟩⟩
      by_cases hki : k.path = i.path
      · rw [hki, hi]
      · rw [hother _ hki, hfin k hk]
  obtain ⟨τ, hrun, hmain, hτ, hfin⟩ := hlist L.inodes
  refine ⟨τ, hrun, hmain, fun p => ?_, hτ⟩
  by_cases habsent : τ.job p = .absent
  · rw [habsent]
    rfl
  · obtain ⟨i, hi, -, rfl⟩ := hτ.inv.jobs_file p habsent
    exact hfin i hi

/-- The tree objects can be made. -/
theorem trees_returned (H : HashFunction) (L : Index) (content : Bytes → Bytes)
    (todo : List Bytes) (hmain : σ.main = .trees todo) :
    ∃ τ, Reaches (AddStep H L (readsAs content (leaving id))) σ τ ∧ τ.main = .returned := by
  induction todo generalizing σ with
  | nil => exact ⟨_, .single (.return hmain), rfl⟩
  | cons p todo ih =>
    let σ' : AddState := { σ with
      hash := σ.hash.set p (H.sum (L.tree σ.hash p))
      main := .publishing p (L.tree σ.hash p) todo }
    cases hobj : σ'.store.hasTree (σ'.hash p) with
    | true =>
      obtain ⟨τ, hrun, hτ⟩ := ih (σ := { σ' with main := .trees todo }) rfl
      exact ⟨τ, .head (.hashTree hmain rfl) (.head (.publishKnown rfl hobj) hrun), hτ⟩
    | false =>
      obtain ⟨τ, hrun, hτ⟩ := ih (σ := { σ' with
        store := σ'.store.put (treePath (σ'.hash p)) (L.tree σ.hash p), main := .trees todo }) rfl
      exact ⟨τ, .head (.hashTree hmain rfl) (.head (.publish rfl hobj) hrun), hτ⟩

/-- The loop over the index can be finished, and what comes after it. -/
theorem Sound.scanning_returned (h : Sound H L content st₀ hs₀ σ) (hidle : σ.Idle)
    (todo : List Inode) (dirs : List Bytes) (hmain : σ.main = .scanning todo dirs) :
    ∃ τ, Reaches (AddStep H L (readsAs content (leaving id))) σ τ ∧ τ.main = .returned := by
  induction todo generalizing σ dirs with
  | nil =>
    obtain ⟨τ, hrun, hτ⟩ := trees_returned H L content
      (σ := { σ with main := .trees (dirs.reverse ++ [[]]) }) _ rfl
    exact ⟨τ, .head (.wait hmain hidle h.unfailed.jobs) hrun, hτ⟩
  | cons i todo ih =>
    have hgo : ∀ {υ}, AddStep H L (readsAs content (leaving id)) σ υ → Unfailed υ → υ.Idle →
        ∀ dirs, υ.main = .scanning todo dirs →
        ∃ τ, Reaches (AddStep H L (readsAs content (leaving id))) σ τ ∧ τ.main = .returned := by
      intro υ hstep hu hυ dirs hm
      obtain ⟨τ, hrun, hτ⟩ := ih (h.of_reaches (.single hstep) hu) hυ dirs hm
      exact ⟨τ, .head hstep hrun, hτ⟩
    by_cases hf : i.isFile = true
    · -- the file is enqueued, and its job comes to its end
      have hstep : AddStep H L (readsAs content (leaving id)) σ { σ with
          job := Function.update σ.job i.path .queued, main := .scanning todo dirs } :=
        .enqueue hmain hf
      have hu : Unfailed { σ with
          job := Function.update σ.job i.path .queued, main := .scanning todo dirs } := by
        refine ⟨fun q => ?_, nofun⟩
        by_cases hq : q = i.path
        · simp [hq, Job.threw]
        · simpa [Function.update_of_ne hq] using h.unfailed.jobs q
      obtain ⟨υ, hrun, hm, hυ, hsound⟩ := (h.of_reaches (.single hstep) hu).exists_settled
      obtain ⟨τ, hrun', hτ⟩ := ih hsound hυ dirs hm
      exact ⟨τ, .head hstep (hrun.trans hrun'), hτ⟩
    · by_cases hd : i.isDirectory = true
      · exact hgo (.collect hmain hd) ⟨h.unfailed.jobs, nofun⟩ hidle _ rfl
      · exact hgo (.skip hmain (by simpa using hf) (by simpa using hd))
          ⟨h.unfailed.jobs, nofun⟩ hidle _ rfl

/-- **An add in which no call has failed can go on until it returns.** -/
theorem exists_returned
    (hrun : Reaches (AddStep H L (readsAs content (leaving id))) (AddState.start L st₀ hs₀) σ)
    (hu : Unfailed σ) :
    ∃ τ, Reaches (AddStep H L (readsAs content (leaving id))) σ τ ∧ τ.main = .returned := by
  have hstart : Sound H L content st₀ hs₀ (AddState.start L st₀ hs₀) :=
    ⟨addInv_start, nofun, fun _ => rfl, nofun⟩
  have hσ := hstart.of_reaches hrun hu
  cases hmain : σ.main with
  | scanning todo dirs =>
    obtain ⟨υ, hrun', hm, hidle, hυ⟩ := hσ.exists_settled
    obtain ⟨τ, hrun'', hτ⟩ := hυ.scanning_returned hidle todo dirs (hm.trans hmain)
    exact ⟨τ, hrun'.trans hrun'', hτ⟩
  | trees todo => exact trees_returned H L content todo hmain
  | publishing p tmp todo =>
    cases hobj : σ.store.hasTree (σ.hash p) with
    | true =>
      obtain ⟨τ, hrun', hτ⟩ := trees_returned H L content
        (σ := { σ with main := .trees todo }) _ rfl
      exact ⟨τ, .head (.publishKnown hmain hobj) hrun', hτ⟩
    | false =>
      obtain ⟨τ, hrun', hτ⟩ := trees_returned H L content
        (σ := { σ with store := σ.store.put (treePath (σ.hash p)) tmp, main := .trees todo }) _ rfl
      exact ⟨τ, .head (.publish hmain hobj) hrun', hτ⟩
  | returned => exact ⟨σ, .refl, hmain⟩
  | threw => exact absurd hmain hu.main

end Add

end Fstree
