import Fstree.PoolScan
import Fstree.Push

/-!
# Jobs that outlive a call

A job of `cache::push` refers to the wait group of the call, to its list of trees and to the mutex
of that list, and a task of `read_directory` to the wait group of the directory above. So a
call must not be left before its jobs have reported; and the job of a tree, which reports while
it holds the mutex, must have released it (`Fstree.LockedStep`).

Whatever is left after a wait is left in time: with no exception a push is left with an empty list,
and the tree that a job has put on it can only be taken off when the mutex is free. What does not
wait is an exception from the remote or from `read_symlink`, in the middle of the loop, and what
does not wait for the mutex is an exception that a job has left. A run without these leaves
no job behind, and a step leaves one just if it is one of these (`Fstree.no_job_outlives`).
-/

namespace Fstree

open Pool Transition

/-! ### The mutex of a push -/

/-- **A push, and its mutex**: whether the job of a tree has reported, and holds
`check_trees_mutex` still. -/
structure LockedPush where
  push : PushState
  held : Bool

/-- `check_trees_mutex` is free: no job that has put a tree on the list holds it. -/
def LockedPush.Free (σ : LockedPush) : Prop :=
  σ.held = false ∧ ∀ h, .treeListed h ∉ σ.push.jobs

/-- The step takes the mutex: it changes the list of trees, or looks whether it is empty. -/
def Locks (σ τ : PushState) : Prop :=
  τ.checkTrees ≠ σ.checkTrees ∨ (σ.main = .test ∧ τ.main ≠ .test)

/-- The job of a tree reports. -/
def Reports (σ τ : PushState) : Prop :=
  ∃ l h r, σ.jobs = l ++ .treeListed h :: r ∧ τ.jobs = l ++ .done :: r

/-- **One step of `cache::push`**, with its mutex. -/
inductive LockedStep (server : Server) (st : Store) (index : List Inode) :
    LockedPush → LockedPush → Prop
  /-- `wg.done()` is called with the mutex held. -/
  | report {σ : LockedPush} {l h r} (hjobs : σ.push.jobs = l ++ .treeListed h :: r) :
      LockedStep server st index σ
        ⟨{ σ.push with jobs := l ++ .done :: r, wg := σ.push.wg.settle .done }, true⟩
  | unlock {σ : LockedPush} (hheld : σ.held = true) :
      LockedStep server st index σ ⟨σ.push, false⟩
  | step {σ : LockedPush} {τ} (hstep : PushStep server st index σ.push τ)
      (hreport : ¬ Reports σ.push τ) (hlock : Locks σ.push τ → σ.Free) :
      LockedStep server st index σ ⟨τ, σ.held⟩

/-- A `cache::push` of the tree under `h` begins. -/
def LockedPush.start (r : Remote) (h : Digest) : LockedPush := ⟨PushState.start r h, false⟩

/-- **No job outlives the push**: when it has been left all its jobs have reported, and none holds
the mutex. -/
def LockedPush.Settled (σ : LockedPush) : Prop :=
  σ.push.main = .returned ∨ σ.push.main = .threw →
    (∀ j ∈ σ.push.jobs, j.outcome ≠ .running) ∧ σ.held = false

/-- No exception leaves the push while its wait group counts a job or a job holds the mutex. -/
def LockedPush.Orderly (σ τ : LockedPush) : Prop :=
  τ.push.main = .threw → σ.push.wg.count ≤ 0 ∧ σ.held = false

section Push

variable {server : Server} {st : Store} {index : List Inode} {σ τ : LockedPush}

/-- **The mutex is all that is added**: a step is one of the push, or releases the mutex. -/
theorem LockedStep.push (hs : LockedStep server st index σ τ) :
    PushStep server st index σ.push τ.push ∨ τ.push = σ.push := by
  cases hs with
  | @report l h r hjobs =>
    have hstep := @PushStep.job server st index _ _ _ _ _ hjobs
      (@PushJobStep.treeDone st σ.push.remote h)
    rw [List.append_nil] at hstep
    exact Or.inl hstep
  | unlock hheld => exact Or.inr rfl
  | step hstep hreport hlock => exact Or.inl hstep

/-- **The invariant of a push with its mutex.** -/
structure LockedPush.Inv (σ : LockedPush) : Prop where
  counts : σ.push.Counts
  /-- The tree that the job has put on the list is there while the job holds the mutex. -/
  held : σ.held = true → σ.push.checkTrees ≠ []
  listed : ∀ h, .treeListed h ∈ σ.push.jobs → σ.push.checkTrees ≠ []
  /-- The loop ends after a wait only. -/
  again : σ.push.main = .again → σ.push.checkTrees = [] → σ.push.wg.count ≤ 0
  settled : σ.Settled

theorem LockedPush.inv_start (r : Remote) (h : Digest) : (LockedPush.start r h).Inv where
  counts := PushState.counts_start r h
  held := nofun
  listed _ hmem := by cases hmem
  again := nofun
  settled := by rintro (h | h) <;> cases h

/-- The calling thread goes on. -/
theorem LockedPush.Inv.goOn (h : σ.Inv) {m : PushMain}
    (hagain : m = .again → σ.push.checkTrees = [] → σ.push.wg.count ≤ 0)
    (hleft : m = .returned ∨ m = .threw → σ.push.wg.count ≤ 0 ∧ σ.held = false) :
    LockedPush.Inv ⟨{ σ.push with main := m }, σ.held⟩ where
  counts := h.counts
  held := h.held
  listed := h.listed
  again := hagain
  settled hm := ⟨Pool.Counts.idle h.counts (hleft hm).1, (hleft hm).2⟩

/-- It enqueues a job, which has not put a tree on the list. -/
theorem LockedPush.Inv.enqueue (h : σ.Inv) {trees objects : List Digest} {j : PushJob}
    (hj : ∀ d, j ≠ .treeListed d)
    (hcounts : PushState.Counts { σ.push with
      jobs := σ.push.jobs ++ [j], wg := σ.push.wg.add 1, main := .enqueue trees objects }) :
    LockedPush.Inv ⟨{ σ.push with
      jobs := σ.push.jobs ++ [j], wg := σ.push.wg.add 1, main := .enqueue trees objects },
      σ.held⟩ where
  counts := hcounts
  held := h.held
  listed d hmem := by
    rcases List.mem_append.mp hmem with hmem | hmem
    · exact h.listed d hmem
    · exact absurd (List.mem_singleton.mp hmem).symm (hj d)
  again := nofun
  settled := by rintro (hm | hm) <;> cases hm

theorem PushJobStep.listed_ne {r : Remote} {j : PushJob} {e : PushEffect} {h : Digest}
    (hs : PushJobStep st r j e) (he : e.job = .treeListed h) : e.listed ≠ [] := by
  cases hs with
  | list => exact List.cons_ne_nil _ _
  | write hsource hb =>
    rcases PushJob.source_eq hsource with ⟨rfl, -⟩ | ⟨rfl, -⟩ <;> cases he
  | _ => cases he

/-- **An orderly step keeps the invariant.** -/
theorem LockedPush.Inv.step (h : σ.Inv) (hs : LockedStep server st index σ τ)
    (horder : σ.Orderly τ) : τ.Inv := by
  have hcounts : τ.push.Counts := by
    rcases hs.push with hpush | heq
    · exact h.counts.step hpush
    · exact heq ▸ h.counts
  -- while a job is running the push has not been left
  have hrunning : ∀ j ∈ σ.push.jobs, j.outcome = .running →
      ¬ (σ.push.main = .returned ∨ σ.push.main = .threw) := fun j hj ho hm =>
    (h.settled hm).1 j hj ho
  cases hs with
  | @report l d r hjobs =>
    have hmem : .treeListed d ∈ σ.push.jobs := by
      rw [hjobs]
      exact List.mem_append_right _ List.mem_cons_self
    -- the tree stays on the list while the mutex is held, which `pop` needs
    have hlist := h.listed d hmem
    refine ⟨hcounts, fun _ => hlist, fun _ _ => hlist, fun _ hnil => absurd hnil hlist,
      fun hm => ?_⟩
    exact absurd hm (hrunning _ hmem rfl)
  | unlock hheld => exact ⟨hcounts, nofun, h.listed, h.again, fun hm => ⟨(h.settled hm).1, rfl⟩⟩
  | @step τ hstep hreport hlock =>
    cases hstep with
    | @job l j r e hjobs hjob =>
      have hmem : j ∈ σ.push.jobs := by
        rw [hjobs]
        exact List.mem_append_right _ List.mem_cons_self
      have hkeep : σ.push.checkTrees ≠ [] → σ.push.checkTrees ++ e.listed ≠ [] := fun hne he =>
        hne (List.append_eq_nil_iff.mp he).1
      refine ⟨hcounts, fun hheld => hkeep (h.held hheld), fun d hd => ?_, fun hm hnil => ?_,
        fun hm => absurd hm (hrunning j hmem hjob.running)⟩
      · rcases List.mem_append.mp hd with hd | hd
        · exact hkeep (h.listed d (hjobs ▸ List.mem_append_left _ hd))
        · rcases List.mem_cons.mp hd with he | hd
          · exact fun hnil => hjob.listed_ne he.symm (List.append_eq_nil_iff.mp hnil).2
          · exact hkeep (h.listed d (hjobs ▸ List.mem_append_right _ (List.mem_cons_of_mem _ hd)))
      · -- after a wait no job is running
        have hcount := h.again hm (List.append_eq_nil_iff.mp hnil).1
        exact absurd hjob.running (Pool.Counts.idle h.counts hcount j hmem)
    | @pop ts t hmain hlist =>
      obtain ⟨hheld, hfree⟩ := hlock (Or.inl (by rw [hlist]; simp))
      refine ⟨hcounts, fun hh => ?_, fun d hd => absurd hd (hfree d), nofun, ?_⟩
      · rw [hheld] at hh
        cases hh
      · rintro (hm | hm) <;> cases hm
    | queryThrows hmain _ | askTreeThrows hmain _ | askInodeThrows hmain _
    | rethrow hmain _ _ => exact h.goOn nofun fun _ => horder rfl
    | enqueueObject hmain => exact h.enqueue nofun hcounts
    | enqueueTree hmain => exact h.enqueue nofun hcounts
    | goOn hmain hlist => exact h.goOn (fun _ hnil => absurd hnil hlist) (by simp)
    | waited hmain hidle hok => exact h.goOn (fun _ _ => hidle) (by simp)
    | leave hmain hlist =>
      -- the list is empty, so the wait is over and nobody holds the mutex
      refine h.goOn nofun fun _ => ⟨h.again hmain hlist, ?_⟩
      exact Bool.eq_false_iff.mpr fun hheld => h.held hheld hlist
    | reports hmain _ | unsupported hmain _ | askTree hmain _ | askInode hmain _ | asked hmain
    | enqueued hmain | stop hmain hlist | nextRound hmain hlist => exact h.goOn nofun (by simp)

/-- **A step leaves no job behind** if and only if it is orderly. -/
theorem LockedPush.Inv.settled_iff (h : σ.Inv) (hs : LockedStep server st index σ τ) :
    τ.Settled ↔ σ.Orderly τ := by
  refine ⟨fun hτ hthrew => ?_, fun horder => (h.step hs horder).settled⟩
  have hidle : (∀ j ∈ σ.push.jobs, j.outcome ≠ .running) ∧ σ.held = false := by
    by_cases hσ : σ.push.main = .threw
    · exact h.settled (Or.inr hσ)
    · -- only a step of the calling thread leaves the push, and it changes no job
      cases hs with
      | report hjobs | unlock hheld => exact absurd hthrew hσ
      | @step τ hstep hreport hlock =>
        cases hstep with
        | job hjobs hjob | enqueueObject hmain | enqueueTree hmain | pop hmain hlist
        | goOn hmain hlist | waited hmain _ _ | leave hmain hlist | reports hmain _
        | unsupported hmain _ | askTree hmain _ | askInode hmain _ | asked hmain | enqueued hmain
        | stop hmain hlist | nextRound hmain hlist => first | exact absurd hthrew hσ | cases hthrew
        | queryThrows hmain _ | askTreeThrows hmain _ | askInodeThrows hmain _
        | rethrow hmain _ _ => exact hτ (Or.inr rfl)
  exact ⟨Pool.Counts.count_le h.counts hidle.1, hidle.2⟩

/-- **The invariant holds in every orderly run.** -/
theorem LockedPush.inv_of_reaches {r : Remote} {h : Digest}
    (hrun : Reaches (fun σ τ => LockedStep server st index σ τ ∧ σ.Orderly τ)
      (LockedPush.start r h) σ) : σ.Inv :=
  hrun.invariant (LockedPush.inv_start r h) fun _ _ hinv hs => hinv.step hs.1 hs.2

end Push

/-- **No job outlives the call that started it**, in a run of which no step lets an exception leave
a call while its wait group counts a job, or the job of a tree holds the mutex. A step out of such a
run leaves a job behind if and only if it is not of this kind. -/
theorem no_job_outlives (server : Server) (st : Store) (index : List Inode) (r : Remote)
    (h : Digest) (t : DirTree) (n : ℕ) (scans : List (List Name × (Bytes → Bool))) :
    (∀ σ, Reaches (fun σ τ => LockedStep server st index σ τ ∧ σ.Orderly τ) (.start r h) σ →
      σ.Settled ∧ ∀ τ, LockedStep server st index σ τ → (τ.Settled ↔ σ.Orderly τ)) ∧
    ∀ σ, Reaches (fun σ τ => PoolStep t σ τ ∧ ForkJoin.Orderly σ τ) (startScans n scans) σ →
      ForkJoin.NoOrphans σ.calls ∧
        ∀ τ, PoolStep t σ τ → (ForkJoin.NoOrphans τ.calls ↔ ForkJoin.Orderly σ τ) := by
  refine ⟨fun σ hrun => ?_, fun σ hrun => ?_⟩
  · have hinv := LockedPush.inv_of_reaches hrun
    exact ⟨hinv.settled, fun τ hs => hinv.settled_iff hs⟩
  · have hinv : ForkJoin.Inv n σ := ForkJoin.inv_of_reaches (hrun.mono fun _ _ hs => hs.1)
    have hclean : ForkJoin.NoOrphans σ.calls := ForkJoin.noOrphans_of_reaches hrun
    exact ⟨hclean, fun τ hs => hclean.step_iff hinv hs⟩

/-! ### Calls that are left too early -/

namespace Sample

/-- The tree that is pushed. -/
def pushedTree : Digest := ⟨.sha1, hexString 40 1⟩

/-- A tree in it. -/
def innerTree : Digest := ⟨.sha1, hexString 40 2⟩

/-- An object in it. -/
def lateObject : Digest := ⟨.sha1, hexString 40 3⟩

/-- A remote that throws when it is asked for the second tree. -/
def flaky : Server where
  hasTree _ t x := (t = pushedTree ∧ x = .reports [innerTree] [lateObject]) ∨
    (t = innerTree ∧ x = .throws)
  hasObject _ _ _ := False

/-- The cache has the inner tree. -/
def innerStore : Store := Store.empty.put (treePath innerTree) (ascii ['x'])

/-- The remote when the inner tree has been written. -/
def innerRemote : Remote := Function.update (fun _ => none) innerTree (some (ascii ['x']))

/-- The push in which no job is done. -/
def flakyBefore (remote : Remote) (jobs : List PushJob) (count : ℕ) (main : PushMain) :
    LockedPush :=
  ⟨⟨remote, [], jobs, ⟨count, false⟩, main⟩, false⟩

/-- The push in which the job of the inner tree has reported, and the other has not begun. -/
def flakyAfter (list : List Digest) (held : Bool) (main : PushMain) : LockedPush :=
  ⟨⟨innerRemote, list, [.object lateObject, .done], ⟨1, false⟩, main⟩, held⟩

/-- A step from a state in which the mutex is free. -/
theorem lockedStep_of_free {server : Server} {st : Store} {index : List Inode} {σ : LockedPush}
    {τ : PushState} (hfree : σ.Free) (hstep : PushStep server st index σ.push τ) :
    LockedStep server st index σ ⟨τ, σ.held⟩ := by
  refine .step hstep ?_ fun _ => hfree
  rintro ⟨l, h, r, hjobs, -⟩
  refine hfree.2 h ?_
  rw [hjobs]
  exact List.mem_append_right _ List.mem_cons_self

theorem flaky_popped : LockedStep flaky innerStore [] (.start (fun _ => none) pushedTree)
    (flakyBefore (fun _ => none) [] 0 (.query pushedTree)) :=
  lockedStep_of_free ⟨rfl, by simp [LockedPush.start, PushState.start]⟩
    (@PushStep.pop _ _ _ (LockedPush.start (fun _ => none) pushedTree).push [] pushedTree rfl rfl)

/-- The calling thread enqueues the jobs. -/
theorem reaches_flaky_test : Reaches (LockedStep flaky innerStore [])
    (.start (fun _ => none) pushedTree)
    (flakyBefore (fun _ => none) [.object lateObject, .tree innerTree] 2 .test) := by
  have hfree : ∀ {jobs : List PushJob} {count main}, (∀ h, .treeListed h ∉ jobs) →
      (flakyBefore (fun _ => none) jobs count main).Free := fun hjobs => ⟨rfl, hjobs⟩
  have hreports : LockedStep flaky innerStore []
      (flakyBefore (fun _ => none) [] 0 (.query pushedTree))
      (flakyBefore (fun _ => none) [] 0 (.enqueue [innerTree] [lateObject])) :=
    lockedStep_of_free (hfree (by simp)) (.reports rfl (Or.inl ⟨rfl, rfl⟩))
  have hobject : LockedStep flaky innerStore []
      (flakyBefore (fun _ => none) [] 0 (.enqueue [innerTree] [lateObject]))
      (flakyBefore (fun _ => none) [.object lateObject] 1 (.enqueue [innerTree] [])) :=
    lockedStep_of_free (hfree (by simp)) (.enqueueObject rfl)
  have htree : LockedStep flaky innerStore []
      (flakyBefore (fun _ => none) [.object lateObject] 1 (.enqueue [innerTree] []))
      (flakyBefore (fun _ => none) [.object lateObject, .tree innerTree] 2 (.enqueue [] [])) :=
    lockedStep_of_free (hfree (by simp)) (.enqueueTree rfl)
  exact .head flaky_popped <| .head hreports <| .head hobject <| .head htree <|
    .single (lockedStep_of_free (hfree (by simp)) (.enqueued rfl))

/-- The job of the inner tree runs, and puts the tree on the list. -/
theorem reaches_flaky_listed : Reaches (LockedStep flaky innerStore [])
    (flakyBefore (fun _ => none) [.object lateObject, .tree innerTree] 2 .test)
    (flakyAfter [innerTree] false .test) := by
  have hwrite : LockedStep flaky innerStore []
      (flakyBefore (fun _ => none) [.object lateObject, .tree innerTree] 2 .test)
      (flakyBefore innerRemote [.object lateObject, .treeSent innerTree] 2 .test) :=
    lockedStep_of_free ⟨rfl, by simp [flakyBefore]⟩
      (@PushStep.job _ _ _ (flakyBefore _ _ _ _).push [.object lateObject] _ [] _ rfl
        (.write rfl (Function.update_self _ _ _)))
  have hlist : LockedStep flaky innerStore []
      (flakyBefore innerRemote [.object lateObject, .treeSent innerTree] 2 .test)
      ⟨⟨innerRemote, [innerTree], [.object lateObject, .treeListed innerTree], ⟨2, false⟩, .test⟩,
        false⟩ :=
    lockedStep_of_free ⟨rfl, by simp [flakyBefore]⟩
      (@PushStep.job _ _ _ (flakyBefore _ _ _ _).push [.object lateObject] _ [] _ rfl .list)
  exact .head hwrite <| .head hlist <|
    .head (@LockedStep.report _ _ _ ⟨⟨_, _, _, _, _⟩, _⟩ [.object lateObject] innerTree [] rfl) <|
    .single (.unlock rfl)

/-- The calling thread is left by the exception. -/
theorem reaches_flaky_threw : Reaches (LockedStep flaky innerStore [])
    (flakyAfter [innerTree] false .test) (flakyAfter [] false .threw) := by
  have hfree : ∀ {list : List Digest} {main}, (flakyAfter list false main).Free :=
    ⟨rfl, by simp [flakyAfter]⟩
  have hgoOn : LockedStep flaky innerStore [] (flakyAfter [innerTree] false .test)
      (flakyAfter [innerTree] false .again) :=
    lockedStep_of_free hfree (.goOn rfl (List.cons_ne_nil _ _))
  have hnext : LockedStep flaky innerStore [] (flakyAfter [innerTree] false .again)
      (flakyAfter [innerTree] false .top) :=
    lockedStep_of_free hfree (.nextRound rfl (List.cons_ne_nil _ _))
  have hpop : LockedStep flaky innerStore [] (flakyAfter [innerTree] false .top)
      (flakyAfter [] false (.query innerTree)) :=
    lockedStep_of_free hfree
      (@PushStep.pop _ _ _ (flakyAfter [innerTree] false .top).push [] innerTree rfl rfl)
  exact .head hgoOn <| .head hnext <| .head hpop <|
    .single (lockedStep_of_free hfree (.queryThrows rfl (Or.inr ⟨rfl, rfl⟩)))

/-- `read_symlink` throws. -/
theorem link_threw : PoolStep linkTree (linkForked (.running (linkReader (some [.look nameA]))))
    (linkForked (.ended true)) :=
  Or.inl (@ForkJoin.Step.throw _ _ (linkForked _) 0 _ _ rfl rfl
    (@ReadAct.unreadable _ (linkReader _) nameA [] 3 (ascii ['x']) rfl
      (not_skips_link (by decide) (by decide) _) (by decide)))

theorem orderly_linkBefore (todo : Option (List ScanTask)) (τ : ForkJoin.State Reader) :
    ForkJoin.Orderly (linkBefore todo) τ := by
  intro i c b hc hb _
  obtain rfl := List.mem_singleton.mp (List.mem_of_getElem? hc)
  exact le_refl 0

theorem orderly_notifying (b : Reader) (τ : ForkJoin.State Reader) :
    ForkJoin.Orderly (linkForked (.notifying b)) τ := by
  intro i c b' hc hb _
  rcases List.mem_pair.mp (List.mem_of_getElem? hc) with rfl | rfl <;> cases hb

/-- The run to the symlink is orderly. -/
theorem orderly_linkForked :
    Reaches (fun σ τ => PoolStep linkTree σ τ ∧ ForkJoin.Orderly σ τ)
      (startScans 1 [([], fun _ => false)])
      (linkForked (.running (linkReader (some [.look nameA])))) :=
  .head ⟨link_opened, orderly_linkBefore _ _⟩ <|
    .head ⟨link_skipped (by decide), orderly_linkBefore _ _⟩ <|
    .head ⟨link_skipped (by decide), orderly_linkBefore _ _⟩ <|
    .head ⟨link_appended, orderly_linkBefore _ _⟩ <|
    .head ⟨link_forked, orderly_linkBefore _ _⟩ <|
    .single ⟨link_notified, orderly_notifying _ _⟩

end Sample

/-- **Jobs outlive the call** when the remote throws in the second round of a push, and when a
symlink cannot be read after a directory was enqueued. -/
theorem not_no_job_outlives :
    (¬ ∀ (server : Server) (st : Store) (index : List Inode) (r : Remote) (h : Digest)
      (σ : LockedPush), Reaches (LockedStep server st index) (.start r h) σ → σ.Settled) ∧
    ¬ ∀ (t : DirTree) (n : ℕ) (scans : List (List Name × (Bytes → Bool)))
      (σ : ForkJoin.State Reader),
      Reaches (PoolStep t) (startScans n scans) σ → ForkJoin.NoOrphans σ.calls := by
  refine ⟨fun h => ?_, fun h => ?_⟩
  · have hrun := (Sample.reaches_flaky_test.trans Sample.reaches_flaky_listed).trans
      Sample.reaches_flaky_threw
    exact (h _ _ _ _ _ _ hrun (Or.inr rfl)).1 _ List.mem_cons_self rfl
  · have hrun := Sample.reaches_linkForked.tail Sample.link_threw
    have hleft := h _ _ _ _ hrun 0 1 _ _ rfl rfl rfl rfl
    cases hleft

/-- Up to the second round and up to the symlink no job is left behind. -/
theorem no_job_outlives_sample :
    (Sample.flakyBefore (fun _ => none) [] 0 (.query Sample.pushedTree)).Settled ∧
    ForkJoin.NoOrphans
      (Sample.linkForked (.running (Sample.linkReader (some [.look Sample.nameA])))).calls :=
  have h := no_job_outlives Sample.flaky Sample.innerStore [] (fun _ => none) Sample.pushedTree
    Sample.linkTree 1 [([], fun _ => false)]
  ⟨(h.1 _ (.single ⟨Sample.flaky_popped, nofun⟩)).1, (h.2 _ Sample.orderly_linkForked).1⟩

end Fstree
