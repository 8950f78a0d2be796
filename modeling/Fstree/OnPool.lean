import Fstree.Foundations.Workers
import Fstree.PullComplete
import Fstree.PushEnds

/-!
# Pulls and pushes on the thread pool

The jobs of `cache::pull` and of `cache::push` have a thread each in their models. Really they are
executed by `thread_pool`, with as many threads as there are, and only one may be. A job of a pull
enqueues more jobs on the same pool and does not wait for them, and the calling thread waits by a
wait group whose `done` notifies it: so a few threads do, and no thread sleeps for ever.

Both are clients of a pool (`Fstree.pullClient`, `Fstree.pushClient`), with the steps they have
without one. So what holds of a pull in whatever order its jobs take their steps holds of it on the
pool (`Fstree.pull_on_pool`), and so does what holds of a push (`Fstree.push_on_pool`). The jobs of
both refer to variables of the calling thread. No job of a pull is left when it leaves these behind,
by returning or by an exception; of a push neither, unless it is a question to the remote that
throws.
-/

namespace Fstree

open Pool Transition Workers

/-! ### Pulls -/

section Pull

variable {remote : Digest → Bytes → Prop} {σ τ : PullState} {a : Act} {st : Store} {h : Digest}
  {i k : ℕ}

/-- The calling thread is about to enqueue a job. -/
def PullMain.enqueues : PullMain → Bool
  | fetching (_ :: _) | listing (_ :: _) => true
  | _ => false

/-- The calling thread has left `cache::pull`. -/
def PullMain.Left (m : PullMain) : Prop := m = .returned ∨ m = .threw

/-- The calling thread is at `wg.wait_rethrow()`. -/
def PullMain.Waits (m : PullMain) : Prop := m = .fetching [] ∨ m = .listing []

/-- **What a step of a pull is to the pool.** Only the steps of the calling thread change where it
is. -/
inductive PullAct (remote : Digest → Bytes → Prop) : PullState → Act → PullState → Prop
  | job {σ : PullState} {l j r e} (hjobs : σ.jobs = l ++ j :: r)
      (hstep : PullJobStep remote σ.store j e) :
      PullAct remote σ (.job l.length e.spawned.length) (σ.after l r e)
  | enqueue {σ τ : PullState} (hs : PullStep remote σ τ) (hmain : τ.main ≠ σ.main)
      (henq : σ.main.enqueues = true) : PullAct remote σ .enqueue τ
  | main {σ τ : PullState} (hs : PullStep remote σ τ) (hmain : τ.main ≠ σ.main)
      (henq : σ.main.enqueues = false) : PullAct remote σ .main τ

theorem PullAct.step (hs : PullAct remote σ a τ) : PullStep remote σ τ := by
  cases hs with
  | job hjobs hstep => exact .job hjobs hstep
  | enqueue hs | main hs => exact hs

/-- No job is left. -/
def PullState.AllEnded (σ : PullState) : Prop := ∀ j ∈ σ.jobs, j.outcome ≠ .running

/-- **What a pull does on a pool**: the calling thread does not leave while a job is left. -/
structure PullState.Pooled (σ : PullState) : Prop where
  counts : σ.Counts
  left : σ.main.Left → σ.AllEnded

theorem PullState.Counts.idle (hc : σ.Counts) (hidle : σ.wg.count ≤ 0) : σ.AllEnded :=
  Pool.Counts.idle hc hidle

theorem pooled_start : (PullState.start st h).Pooled where
  counts := PullState.counts_start st h
  left := nofun

theorem PullState.Pooled.step (hi : σ.Pooled) (hs : PullStep remote σ τ) : τ.Pooled := by
  refine ⟨hi.counts.step hs, fun hleft => ?_⟩
  cases hs with
  | job hjobs hstep =>
    exact absurd hstep.running (hi.left hleft _ (by simp [hjobs]))
  | enqueueTree | enqueueWalk => rcases hleft with h | h <;> cases h
  | treesRead | nextLevel => exact nofun
  | rethrow _ hidle => exact hi.counts.idle hidle

/-- The calling thread enqueues one job. -/
theorem PullStep.enqueues (hs : PullStep remote σ τ) (hmain : τ.main ≠ σ.main)
    (henq : σ.main.enqueues = true) : ∃ j, j.outcome = .running ∧ τ.jobs = σ.jobs ++ [j] := by
  cases hs with
  | job => exact absurd rfl hmain
  | enqueueTree => exact ⟨_, rfl, rfl⟩
  | enqueueWalk => exact ⟨_, rfl, rfl⟩
  | treesRead h | nextLevel h => rw [h] at henq; cases henq
  | rethrow h => rcases h with h | h <;> rw [h] at henq <;> cases henq

/-- Another step of the calling thread forgets jobs that have ended. -/
theorem PullStep.forgets (hs : PullStep remote σ τ) (hmain : τ.main ≠ σ.main)
    (henq : σ.main.enqueues = false) (hc : σ.Counts) :
    τ.jobs = σ.jobs ∨ σ.AllEnded ∧ τ.jobs = [] := by
  cases hs with
  | job => exact absurd rfl hmain
  | enqueueTree h | enqueueWalk h => rw [h] at henq; cases henq
  | treesRead _ hidle | nextLevel _ hidle => exact Or.inr ⟨hc.idle hidle, rfl⟩
  | rethrow => exact Or.inl rfl

/-- When no job is left the calling thread does not wait any longer. -/
theorem PullState.exists_step_of_waits (hwaits : σ.main.Waits) (hidle : σ.wg.count ≤ 0) :
    ∃ τ, PullStep remote σ τ ∧ τ.main ≠ σ.main := by
  cases ht : σ.wg.threw with
  | true => exact ⟨_, .rethrow hwaits hidle ht, by rcases hwaits with h | h <;> simp [h]⟩
  | false =>
    rcases hwaits with hmain | hmain
    · exact ⟨_, .treesRead hmain hidle ht, by simp [hmain]⟩
    · refine ⟨_, .nextLevel hmain hidle ht, ?_⟩
      rw [hmain]
      split_ifs <;> simp

/-- **A pull, as a client of a pool.** -/
def pullClient (remote : Digest → Bytes → Prop) : Client PullState where
  step := PullAct remote
  jobs σ := unended PullJob.outcome σ.jobs
  waits σ := σ.main.Waits
  finished σ := σ.main.Left
  Inv := PullState.Pooled
  inv_step hi hs := hi.step hs.step
  jobs_job hi hs := by
    cases hs with
    | @job l j r e hjobs hstep =>
      rw [hjobs]
      exact unended_step hstep.running e.job hstep.spawned_running
  waits_job hs := by
    cases hs with
    | job => exact id
  finished_job hs := by
    cases hs with
    | job => exact id
  jobs_enqueue {σ τ} hi hs := by
    cases hs with
    | enqueue hs hmain henq =>
      obtain ⟨j, hj, hjobs⟩ := hs.enqueues hmain henq
      have hone : unended PullJob.outcome [j] = [true] := unended_spawned (by simpa using hj)
      rw [hjobs, unended_append, hone]
  jobs_main hi hs i := by
    cases hs with
    | main hs hmain henq =>
      rcases hs.forgets hmain henq hi.counts with hsame | ⟨hidle, hnil⟩
      · rw [hsame]
      · rw [hnil]
        refine iff_of_false nofun fun h => ?_
        obtain ⟨j, hj, hrun⟩ := mem_unended.mp (List.mem_of_getElem? h)
        exact hidle j hj hrun
  goes_on {σ i} hi hjob := by
    obtain ⟨l, j, r, hjobs, rfl, hrun⟩ := unended_eq_true.mp hjob
    obtain ⟨e, he⟩ : ∃ e, PullJobStep remote σ.store j e := exists_pullJobStep hrun
    exact ⟨_, _, .job hjobs he⟩
  main_goes_on {σ} hi := by
    have hwaiting : σ.main.Waits → σ.main.enqueues = false →
        (∃ τ, PullAct remote σ .main τ) ∨
          σ.main.Waits ∧ true ∈ unended PullJob.outcome σ.jobs := fun hwaits henq => by
      by_cases hidle : σ.wg.count ≤ 0
      · obtain ⟨τ, hs, hmain⟩ := PullState.exists_step_of_waits hwaits hidle
        exact Or.inl ⟨τ, .main hs hmain henq⟩
      · obtain ⟨l, j, r, hjobs, hrun⟩ := Pool.Counts.exists_running hi.counts hidle
        exact Or.inr ⟨hwaits, mem_unended.mpr ⟨j, by simp [hjobs], hrun⟩⟩
    cases hmain : σ.main with
    | fetching todo =>
      cases todo with
      | cons t todo =>
        exact Or.inr (Or.inl ⟨_, .enqueue (.enqueueTree hmain) (by simp [hmain]) (hmain ▸ rfl)⟩)
      | nil => exact Or.inr (Or.inr (hmain ▸ hwaiting (Or.inl hmain) (hmain ▸ rfl)))
    | listing todo =>
      cases todo with
      | cons cs todo =>
        exact Or.inr (Or.inl ⟨_, .enqueue (.enqueueWalk hmain) (by simp [hmain]) (hmain ▸ rfl)⟩)
      | nil => exact Or.inr (Or.inr (hmain ▸ hwaiting (Or.inr hmain) (hmain ▸ rfl)))
    | returned => exact Or.inl (Or.inl rfl)
    | threw => exact Or.inl (Or.inr rfl)

theorem PullState.AllEnded.not_mem (hidle : σ.AllEnded) :
    true ∉ unended PullJob.outcome σ.jobs := fun h =>
  have ⟨j, hj, hrun⟩ := mem_unended.mp h
  hidle j hj hrun

end Pull

/-- **A pull on a thread pool** of however few threads, of a Merkle tree, from a remote that answers
with true objects or fails, into a cache that has no others. In whatever order they take their
steps, and whatever wakes them up, it does what it can do if every job has a thread of its own; when
the calling thread leaves it no job of it is left; and as long as the threads are not joined one of
them can take a step that is no spurious wake-up. Without these every run ends, and then the pull
has returned, and is complete, or has thrown. -/
theorem pull_on_pool {truth : Digest → Bytes} {H : HashFunction} {h : Digest}
    {remote : Digest → Bytes → Prop} {st₀ : Store} {n : ℕ} (hn : 0 < n) (hm : MerkleTree truth H h)
    (hst : st₀.Agrees truth H) (hremote : ∀ d b, remote d b → b = truth d ∧ H.sum b = d) :
    (∀ τ, Reaches (Workers.Step (pullClient remote) True)
        (State.start n (PullState.start st₀ h)) τ →
      Reaches (PullStep remote) (PullState.start st₀ h) τ.client ∧
      (τ.client.main.Left → τ.jobs = []) ∧
      (τ.caller ≠ .joined → ∃ τ', Workers.Step (pullClient remote) False τ τ') ∧
      (τ.caller = .joined → (τ.client.main = .returned ∧ τ.client.Complete truth h) ∨
        (τ.client.main = .threw ∧ τ.client.wg.threw = true))) ∧
    Terminates (Workers.Step (pullClient remote) False)
      (State.start n (PullState.start st₀ h)) := by
  obtain ⟨k, hk⟩ := hm.exists_height
  have hstep : ∀ {u a v}, (pullClient remote).step u a v → PullStep remote u v := PullAct.step
  have hend : Terminates (PullStep remote) (PullState.start st₀ h) :=
    @terminates_of_rank _ _ _ _ (PullState.rank truth k) (pullInv_start hm hk hst)
      fun u v hi hs => ⟨hi.step hremote hs, hi.rank_lt hs⟩
  refine ⟨fun τ hτ => ?_, terminates hstep hend⟩
  have hpull := reaches_client hstep hτ
  have hinv : PullInv truth H k h τ.client :=
    hpull.invariant (pullInv_start hm hk hst) fun _ _ hi hs => hi.step hremote hs
  have hpool := inv_of_run (C := pullClient remote) hn pooled_start rfl hτ
  have hpooled : τ.client.Pooled := hpool.client
  refine ⟨hpull, fun hleft => hpool.jobs_eq_nil (hpooled.left hleft).not_mem, hpool.exists_step,
    fun hjoined => ?_⟩
  rcases (hpool.all_ended hjoined).2.2 with hret | hthrew
  · exact Or.inl ⟨hret, hinv.complete hm hk hret⟩
  · exact Or.inr ⟨hthrew, hinv.rethrown hthrew⟩

/-- The pull of the sample on a pool of two threads gets to where the threads are joined, and has
then returned with the whole tree, or has thrown. -/
theorem pull_on_pool_sample :
    Terminates (Workers.Step (pullClient fun d b => Sample.honest d = some b) False)
      (State.start 2 (PullState.start Sample.partly Sample.wanted)) ∧
    ∃ τ, Reaches (Workers.Step (pullClient fun d b => Sample.honest d = some b) False)
        (State.start 2 (PullState.start Sample.partly Sample.wanted)) τ ∧ τ.caller = .joined ∧
      τ.jobs = [] ∧
      (τ.client.main = .returned ∧ τ.client.Complete Sample.truth Sample.wanted ∨
        τ.client.main = .threw) := by
  obtain ⟨hall, hend⟩ := pull_on_pool Nat.two_pos Sample.merkleTree_wanted Sample.agrees_partly
    fun d b hb => Sample.honest_true hb
  refine ⟨hend, ?_⟩
  obtain ⟨τ, ⟨hτ, hrun⟩, hjoined⟩ := exists_joined hend fun τ hτ => (hall τ hτ).2.2.1
  obtain ⟨-, hleft, -, hover⟩ := hall τ hrun
  rcases hover hjoined with ⟨hret, hcomplete⟩ | ⟨hthrew, -⟩
  · exact ⟨τ, hτ, hjoined, hleft (Or.inl hret), Or.inl ⟨hret, hcomplete⟩⟩
  · exact ⟨τ, hτ, hjoined, hleft (Or.inr hthrew), Or.inr hthrew⟩

/-! ### Pushes -/

section Push

variable {server : Server} {index : List Inode} {st : Store} {σ τ : PushState} {a : Act}
  {r₀ : Remote} {h : Digest} {i k : ℕ}

/-- The calling thread is about to enqueue a job. -/
def PushMain.enqueues : PushMain → Bool
  | enqueue _ (_ :: _) | enqueue (_ :: _) [] => true
  | _ => false

/-- The calling thread has left `cache::push`. -/
def PushMain.Left (m : PushMain) : Prop := m = .returned ∨ m = .threw

/-- **What a step of a push is to the pool.** Its jobs enqueue none. -/
inductive PushAct (server : Server) (st : Store) (index : List Inode) :
    PushState → Act → PushState → Prop
  | job {σ τ : PushState} {l j r j'} (hs : PushStep server st index σ τ)
      (hjobs : σ.jobs = l ++ j :: r) (hrun : j.outcome = .running) (hjobs' : τ.jobs = l ++ j' :: r)
      (hmain : τ.main = σ.main) : PushAct server st index σ (.job l.length 0) τ
  | enqueue {σ τ : PushState} (hs : PushStep server st index σ τ) (hmain : τ.main ≠ σ.main)
      (henq : σ.main.enqueues = true) : PushAct server st index σ .enqueue τ
  | main {σ τ : PushState} (hs : PushStep server st index σ τ) (hmain : τ.main ≠ σ.main)
      (henq : σ.main.enqueues = false) : PushAct server st index σ .main τ

theorem PushAct.step (hs : PushAct server st index σ a τ) : PushStep server st index σ τ := by
  cases hs with
  | job hs | enqueue hs | main hs => exact hs

/-- No job is left. -/
def PushState.AllEnded (σ : PushState) : Prop := ∀ j ∈ σ.jobs, j.outcome ≠ .running

/-- The remote may throw when it is asked what it has. -/
def Server.MayThrow (server : Server) : Prop :=
  (∃ r t, server.hasTree r t .throws) ∨ ∃ r d, server.hasObject r d none

/-- **What a push does on a pool**: the calling thread does not leave while a job is left, unless
the remote has thrown when it was asked. -/
structure PushState.Pooled (server : Server) (σ : PushState) : Prop where
  sane : σ.Sane server
  again : σ.main = .again → σ.checkTrees = [] → σ.AllEnded
  returned : σ.main = .returned → σ.AllEnded
  threw : σ.main = .threw → σ.AllEnded ∨ server.MayThrow

theorem PushState.Counts.idle (hc : σ.Counts) (hidle : σ.wg.count ≤ 0) : σ.AllEnded :=
  Pool.Counts.idle hc hidle

theorem pushPooled_start : (PushState.start r₀ h).Pooled server where
  sane := sane_start
  again := nofun
  returned := nofun
  threw := nofun

theorem PushState.Pooled.step (hi : σ.Pooled server) (hs : PushStep server st index σ τ) :
    τ.Pooled server := by
  have hsane := hi.sane.step hs
  cases hs with
  | @job l j r e hjobs hstep =>
    -- a job that takes a step has been left
    have hbusy : ¬ σ.AllEnded := fun hidle => hidle j (by simp [hjobs]) hstep.running
    refine ⟨hsane, fun hm hlist => ?_, fun hm => absurd (hi.returned hm) hbusy,
      fun hm => Or.inr ((hi.threw hm).resolve_left hbusy)⟩
    exact absurd (hi.again hm (List.append_eq_nil_iff.mp hlist).1) hbusy
  | queryThrows _ hanswer =>
    exact ⟨hsane, nofun, nofun, fun _ => Or.inr (Or.inl ⟨_, _, hanswer⟩)⟩
  | askTreeThrows _ hanswer | askInodeThrows _ hanswer =>
    exact ⟨hsane, nofun, nofun, fun _ => Or.inr (Or.inr ⟨_, _, hanswer⟩)⟩
  | goOn _ hlist => exact ⟨hsane, fun _ h => absurd h hlist, nofun, nofun⟩
  | waited _ hidle => exact ⟨hsane, fun _ _ => hi.sane.counts.idle hidle, nofun, nofun⟩
  | rethrow _ hidle =>
    exact ⟨hsane, nofun, nofun, fun _ => Or.inl (hi.sane.counts.idle hidle)⟩
  | leave hm hlist => exact ⟨hsane, nofun, fun _ => hi.again hm hlist, nofun⟩
  | _ => exact ⟨hsane, nofun, nofun, nofun⟩

/-- The calling thread enqueues one job. -/
theorem PushStep.enqueues (hs : PushStep server st index σ τ) (hmain : τ.main ≠ σ.main)
    (henq : σ.main.enqueues = true) : ∃ j, j.outcome = .running ∧ τ.jobs = σ.jobs ++ [j] := by
  cases hs with
  | job => exact absurd rfl hmain
  | enqueueObject => exact ⟨_, rfl, rfl⟩
  | enqueueTree => exact ⟨_, rfl, rfl⟩
  | pop h | reports h | unsupported h | queryThrows h | askTree h | askTreeThrows h | askInode h
  | askInodeThrows h | asked h | enqueued h | goOn h | stop h | waited h | rethrow h | nextRound h
  | leave h =>
    rw [h] at henq
    cases henq

/-- Another step of the calling thread does not see the jobs. -/
theorem PushStep.jobs_eq (hs : PushStep server st index σ τ) (hmain : τ.main ≠ σ.main)
    (henq : σ.main.enqueues = false) : τ.jobs = σ.jobs := by
  cases hs with
  | job => exact absurd rfl hmain
  | enqueueObject h | enqueueTree h => rw [h] at henq; cases henq
  | _ => rfl

/-- **A push, as a client of a pool.** -/
def pushClient {server : Server} (htotal : server.Total) (st : Store) (index : List Inode) :
    Client PushState where
  step := PushAct server st index
  jobs σ := unended PushJob.outcome σ.jobs
  waits σ := σ.main = .wait
  finished σ := σ.main.Left
  Inv := PushState.Pooled server
  inv_step hi hs := hi.step hs.step
  jobs_job hi hs := by
    cases hs with
    | @job _ l j r j' hs hjobs hrun hjobs' =>
      rw [hjobs, hjobs', ← List.append_nil (l ++ j' :: r)]
      exact unended_step hrun j' nofun
  waits_job hs hw := by
    cases hs with
    | job _ _ _ _ hmain => rw [hmain, hw]
  finished_job hs hl := by
    cases hs with
    | job _ _ _ _ hmain => rwa [hmain]
  jobs_enqueue hi hs := by
    cases hs with
    | enqueue hs hmain henq =>
      obtain ⟨j, hj, hjobs⟩ := hs.enqueues hmain henq
      have hone : unended PushJob.outcome [j] = [true] := unended_spawned (by simpa using hj)
      rw [hjobs, unended_append, hone]
  jobs_main hi hs i := by
    cases hs with
    | main hs hmain henq => rw [hs.jobs_eq hmain henq]
  goes_on {σ i} hi hjob := by
    obtain ⟨l, j, r, hjobs, rfl, hrun⟩ := unended_eq_true.mp hjob
    obtain ⟨e, he⟩ : ∃ e, PushJobStep st σ.remote j e := exists_pushJobStep σ.remote hrun
    exact ⟨_, _, .job (.job hjobs he) hjobs hrun rfl rfl⟩
  main_goes_on {σ} hi := by
    rcases hi.sane.goes_on st index htotal with hleft | ⟨τ, hs, hmain⟩ | ⟨hwait, hrun⟩
    · exact Or.inl hleft
    · cases henq : σ.main.enqueues with
      | true => exact Or.inr (Or.inl ⟨τ, .enqueue hs hmain henq⟩)
      | false => exact Or.inr (Or.inr (Or.inl ⟨τ, .main hs hmain henq⟩))
    · exact Or.inr (Or.inr (Or.inr ⟨hwait, mem_unended.mpr hrun⟩))

theorem PushState.AllEnded.not_mem (hidle : σ.AllEnded) :
    true ∉ unended PushJob.outcome σ.jobs := fun h =>
  have ⟨j, hj, hrun⟩ := mem_unended.mp h
  hidle j hj hrun

end Push

/-- **A push on a thread pool** of however few threads, of a Merkle tree that the index lists, to a
remote that names as missing only what it does not have, and of the tree, and either reports all
that it lacks or cannot be asked. In whatever order the threads take their steps, and whatever wakes
them up, it does what it can do if every job has a thread of its own; when the calling thread leaves
it no job of it is left, unless the remote has thrown when it was asked; and as long as the threads
are not joined one of them can take a step that is no spurious wake-up. Without these every run
ends. Then no job is left in any case, and if the push has returned the remote has the whole tree.
-/
theorem push_on_pool {truth : Digest → Bytes} {H : HashFunction} {h : Digest} {server : Server}
    {index : List Inode} {st : Store} {r₀ : Remote} {n : ℕ} (hn : 0 < n)
    (hm : MerkleTree truth H h) (hindex : ListsTreeOf truth h index)
    (hserver : server.Reports truth h ∨ server.Unsupported)
    (hnames : server.Names (TreeIn truth h) (FileIn truth h)) (hhonest : server.Honest)
    (htotal : server.Total) :
    (∀ τ, Reaches (Workers.Step (pushClient htotal st index) True)
        (State.start n (PushState.start r₀ h)) τ →
      Reaches (PushStep server st index) (PushState.start r₀ h) τ.client ∧
      (τ.client.main.Left → τ.jobs = [] ∨ τ.client.main = .threw ∧ server.MayThrow) ∧
      (τ.caller ≠ .joined → ∃ τ', Workers.Step (pushClient htotal st index) False τ τ') ∧
      (τ.caller = .joined → τ.client.AllEnded ∧
        (τ.client.main = .returned ∧
            (∀ d, TreeIn truth h d ∨ FileIn truth h d → τ.client.remote.Has d) ∨
          τ.client.main = .threw ∧ τ.client.Failure server))) ∧
    Terminates (Workers.Step (pushClient htotal st index) False)
      (State.start n (PushState.start r₀ h)) := by
  have hstep : ∀ {u a v}, (pushClient htotal st index).step u a v → PushStep server st index u v :=
    PushAct.step
  refine ⟨fun τ hτ => ?_, terminates hstep (terminates_push hindex hnames hhonest)⟩
  have hpush := reaches_client hstep hτ
  have hpool := inv_of_run (C := pushClient htotal st index) hn pushPooled_start rfl hτ
  have hpooled : τ.client.Pooled server := hpool.client
  refine ⟨hpush, fun hleft => ?_, hpool.exists_step, fun hjoined => ?_⟩
  · rcases hleft with hret | hthrew
    · exact Or.inl (hpool.jobs_eq_nil (hpooled.returned hret).not_mem)
    · exact (hpooled.threw hthrew).imp (fun hidle => hpool.jobs_eq_nil hidle.not_mem)
        fun hthrows => ⟨hthrew, hthrows⟩
  · obtain ⟨-, hnone, hover⟩ := hpool.all_ended hjoined
    refine ⟨fun j hj hrun => hnone (mem_unended.mpr ⟨j, hj, hrun⟩), ?_⟩
    rcases hover with hret | hthrew
    · exact Or.inl ⟨hret, fun _ hd => PushState.has_of_returned hm hindex hserver hpush hret hd⟩
    · exact Or.inr ⟨hthrew, hpooled.sane.threw hthrew⟩

/-- The push of the sample on a pool of two threads gets to where the threads are joined, and has
then returned, and the remote has the whole tree, or has thrown. -/
theorem push_on_pool_sample :
    Terminates (Workers.Step (pushClient Sample.http_total Sample.local₀
        (listing Sample.truth 2 [] Sample.wanted)) False)
      (State.start 2 (PushState.start Sample.remote₀ Sample.wanted)) ∧
    ∃ τ, Reaches (Workers.Step (pushClient Sample.http_total Sample.local₀
        (listing Sample.truth 2 [] Sample.wanted)) False)
        (State.start 2 (PushState.start Sample.remote₀ Sample.wanted)) τ ∧ τ.caller = .joined ∧
      τ.client.AllEnded ∧
      (τ.client.main = .returned ∧ (∀ d, TreeIn Sample.truth Sample.wanted d ∨
          FileIn Sample.truth Sample.wanted d → τ.client.remote.Has d) ∨
        τ.client.main = .threw) := by
  obtain ⟨hall, hend⟩ := @push_on_pool _ _ _ _ _ Sample.local₀ Sample.remote₀ _ Nat.two_pos
    Sample.merkleTree_wanted (listsTreeOf_listing Sample.merkleTree_wanted Sample.hasHeight_wanted)
    (Or.inr Sample.http_unsupported) (fun ha => by cases ha) Sample.http_honest Sample.http_total
  refine ⟨hend, ?_⟩
  obtain ⟨τ, ⟨hτ, hrun⟩, hjoined⟩ := exists_joined hend fun τ hτ => (hall τ hτ).2.2.1
  obtain ⟨hended, hover⟩ := (hall τ hrun).2.2.2 hjoined
  exact ⟨τ, hτ, hjoined, hended, hover.imp_right And.left⟩

end Fstree
