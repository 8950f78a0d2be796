import Mathlib.Data.Finset.Card
import Mathlib.Data.Prod.Lex
import Fstree.PushComplete

/-!
# A push ends

A push writes nothing but what the remote has named as missing, or the index lists
(`Fstree.PushState.Only`), and what it writes is what the cache has under these digests.

Each tree that is written is checked once more, so the loop of a push may take many rounds; a
remote that went on naming a tree that it has been sent would keep it going for ever
(`Fstree.push_endless`). If the remote names only what it does not have, a round is paid for. Either
it names nothing, and there is one tree less to check; or what it names has not been written, and
when it is written there is one digest less that the remote does not have. What the rounds cost is
therefore read lexicographically: how many digests the remote does not have, how many rounds these
leave to be made, and how many steps are left of the round (`Fstree.PushState.rank`). So a push
ends, in whatever order its jobs and its loop take their steps (`Fstree.push_ends`).
-/

namespace Fstree

open Pool Transition

/-! ### What a push has to do with -/

section Names

variable (T F : Digest → Prop)

/-- **The remote names only such trees and such objects**, when it is asked about such a tree. -/
def Server.Names (server : Server) : Prop :=
  ∀ {r t trees objects}, server.hasTree r t (.reports trees objects) → T t →
    (∀ d ∈ trees, T d) ∧ ∀ d ∈ objects, F d

/-- The directories of an index are such trees, and its files such objects. -/
def IndexNames (index : List Inode) : Prop :=
  ∀ i ∈ index, (i.isDirectory = true → T i.hash) ∧
    (i.isDirectory = false → i.isFile = true → F i.hash)

/-- A job that is about such a tree or object. -/
def PushJob.Only : PushJob → Prop
  | object h | objectSent h => F h
  | tree h | treeSent h | treeListed h => T h
  | _ => True

/-- The calling thread holds such trees and objects. -/
def PushMain.Only (index : List Inode) : PushMain → Prop
  | query t | askTree t => T t
  | askIndex t todo trees objects =>
    T t ∧ (∀ i ∈ todo, i ∈ index) ∧ (∀ d ∈ trees, T d) ∧ ∀ d ∈ objects, F d
  | enqueue trees objects => (∀ d ∈ trees, T d) ∧ ∀ d ∈ objects, F d
  | _ => True

/-- **A push that has to do with such trees and objects only**, and has written what the cache has
under them. -/
structure PushState.Only (index : List Inode) (st : Store) (r₀ : Remote) (σ : PushState) :
    Prop where
  listed : ∀ t ∈ σ.checkTrees, T t
  jobs : ∀ j ∈ σ.jobs, j.Only T F
  main : σ.main.Only T F index
  written : ∀ d b, σ.remote d = some b →
    r₀ d = some b ∨ T d ∧ st (treePath d) = some b ∨ F d ∧ st (filePath d) = some b

end Names

section Only

variable {T F : Digest → Prop} {server : Server} {index : List Inode} {st : Store}
  {r₀ r : Remote} {h d : Digest} {b k : Bytes} {σ τ : PushState} {j : PushJob} {e : PushEffect}

theorem only_start (hh : T h) : (PushState.start r₀ h).Only T F index st r₀ where
  listed _ ht := List.mem_singleton.mp ht ▸ hh
  jobs := nofun
  main := trivial
  written _ _ hb := Or.inl hb

/-- What a job writes is such a tree or object, as the cache has it. -/
theorem PushJob.Only.of_source (hj : j.Only T F) (hsource : j.source = some (h, k))
    (hb : st k = some b) : j.sent.Only T F ∧
      (T h ∧ st (treePath h) = some b ∨ F h ∧ st (filePath h) = some b) := by
  rcases PushJob.source_eq hsource with ⟨rfl, rfl⟩ | ⟨rfl, rfl⟩
  · exact ⟨hj, Or.inr ⟨hj, hb⟩⟩
  · exact ⟨hj, Or.inl ⟨hj, hb⟩⟩

theorem PushJob.Only.mem (hj : j.Only T F) (hsource : j.source = some (h, k)) : T h ∨ F h := by
  rcases PushJob.source_eq hsource with ⟨rfl, -⟩ | ⟨rfl, -⟩
  · exact Or.inr hj
  · exact Or.inl hj

/-- **A step of a job** that is about such a tree or object. -/
theorem PushJobStep.only (hs : PushJobStep st r j e) (hj : j.Only T F) :
    e.job.Only T F ∧ (∀ t ∈ e.listed, T t) ∧ ∀ d b, e.remote d = some b →
      r d = some b ∨ T d ∧ st (treePath d) = some b ∨ F d ∧ st (filePath d) = some b := by
  have hput : ∀ {h k b}, j.source = some (h, k) → st k = some b → ∀ d b',
      Function.update r h (some b) d = some b' →
      r d = some b' ∨ T d ∧ st (treePath d) = some b' ∨ F d ∧ st (filePath d) = some b' := by
    intro h k b hsource hb d b' hd
    by_cases hdh : d = h
    · subst hdh
      rw [Function.update_self] at hd
      obtain rfl : b = b' := Option.some.inj hd
      exact Or.inr (hj.of_source hsource hb).2
    · rw [Function.update_of_ne hdh] at hd
      exact Or.inl hd
  cases hs with
  | write hsource hb => exact ⟨(hj.of_source hsource hb).1, nofun, hput hsource hb⟩
  | writeLost hsource hb => exact ⟨trivial, nofun, hput hsource hb⟩
  | list => exact ⟨hj, fun t ht => List.mem_singleton.mp ht ▸ hj, fun _ _ hb => Or.inl hb⟩
  | _ => exact ⟨trivial, nofun, fun _ _ hb => Or.inl hb⟩

/-- The calling thread goes on. -/
theorem PushState.Only.goto (hi : σ.Only T F index st r₀) {m : PushMain}
    (hm : m.Only T F index) : PushState.Only T F index st r₀ { σ with main := m } where
  listed := hi.listed
  jobs := hi.jobs
  main := hm
  written := hi.written

/-- The calling thread enqueues a job. -/
theorem PushState.Only.spawn (hi : σ.Only T F index st r₀) {wg : WaitGroup} {m : PushMain}
    (hj : j.Only T F) (hm : m.Only T F index) : PushState.Only T F index st r₀
      { σ with jobs := σ.jobs ++ [j], wg := wg, main := m } where
  listed := hi.listed
  jobs k hk := (List.mem_append.mp hk).elim (hi.jobs k) fun hk => List.mem_singleton.mp hk ▸ hj
  main := hm
  written := hi.written

/-- **Such trees and objects are all that a push ever has to do with**, if the remote and the index
name no others. -/
theorem PushState.Only.step (hi : σ.Only T F index st r₀) (hnames : server.Names T F)
    (hindex : IndexNames T F index) (hs : PushStep server st index σ τ) :
    τ.Only T F index st r₀ := by
  have hm := hi.main
  cases hs with
  | @job l j r e hjobs hstep =>
    obtain ⟨hjob, hlisted, hwritten⟩ := hstep.only (hi.jobs j (hjobs ▸ by simp))
    refine ⟨fun t ht => ?_, fun k hk => ?_, hi.main, fun d b hb => ?_⟩
    · exact (List.mem_append.mp ht).elim (hi.listed t) (hlisted t)
    · rcases List.mem_append.mp hk with hk | hk
      · exact hi.jobs k (hjobs ▸ List.mem_append_left _ hk)
      · rcases List.mem_cons.mp hk with rfl | hk
        · exact hjob
        · exact hi.jobs k (hjobs ▸ by simp [hk])
    · exact (hwritten d b hb).elim (hi.written d b) Or.inr
  | @pop ts t hmain hlist =>
    refine ⟨fun u hu => hi.listed u (hlist ▸ List.mem_append_left _ hu), hi.jobs, ?_, hi.written⟩
    exact hi.listed t (hlist ▸ by simp)
  | reports hmain hanswer =>
    rw [hmain] at hm
    exact hi.goto (hnames hanswer hm)
  | unsupported hmain =>
    rw [hmain] at hm
    exact hi.goto hm
  | @askTree t found hmain hanswer =>
    rw [hmain] at hm
    refine hi.goto ⟨hm, fun _ h => h, fun d hd => ?_, nofun⟩
    cases found with
    | true => cases hd
    | false => exact List.mem_singleton.mp hd ▸ hm
  | @askInode t i todo trees objects found hmain hanswer =>
    rw [hmain] at hm
    obtain ⟨ht, htodo, htrees, hobjects⟩ := hm
    obtain ⟨hdir, hfile⟩ := hindex i (htodo i List.mem_cons_self)
    refine hi.goto ⟨ht, fun k hk => htodo k (List.mem_cons_of_mem i hk), fun d hd => ?_,
      fun d hd => ?_⟩
    · split_ifs at hd with hc
      · refine (List.mem_append.mp hd).elim (htrees d) fun hd => ?_
        rw [List.mem_singleton.mp hd]
        exact hdir (by simp_all)
      · exact htrees d hd
    · split_ifs at hd with hc
      · refine (List.mem_append.mp hd).elim (hobjects d) fun hd => ?_
        rw [List.mem_singleton.mp hd]
        exact hfile (by simp_all) (by simp_all)
      · exact hobjects d hd
  | asked hmain =>
    rw [hmain] at hm
    exact hi.goto ⟨hm.2.2.1, hm.2.2.2⟩
  | @enqueueObject trees objects d hmain =>
    rw [hmain] at hm
    exact hi.spawn (j := .object d) (hm.2 d List.mem_cons_self)
      ⟨hm.1, fun d hd => hm.2 d (List.mem_cons_of_mem _ hd)⟩
  | @enqueueTree trees d hmain =>
    rw [hmain] at hm
    exact hi.spawn (j := .tree d) (hm.1 d List.mem_cons_self)
      ⟨fun d hd => hm.1 d (List.mem_cons_of_mem _ hd), nofun⟩
  | _ => exact hi.goto trivial

end Only

/-! ### What is left of a push -/

/-- The rounds a job leads to without a digest less that the remote does not have. -/
def PushJob.rounds (r : Remote) : PushJob → ℕ
  | tree h => if (r h).isSome then 1 else 0
  | treeSent _ => 1
  | _ => 0

/-- The rounds the calling thread leads to so: the one it makes, and those for the trees that it is
about to have written, and are there. -/
def PushMain.rounds (r : Remote) : PushMain → ℕ
  | query _ | askTree _ => 1
  | askIndex _ _ trees _ => 1 + trees.countP fun d => (r d).isSome
  | enqueue trees _ => trees.countP fun d => (r d).isSome
  | _ => 0

/-- The steps that are left of a job. -/
def PushJob.stage : PushJob → ℕ
  | tree _ => 3
  | object _ | treeSent _ => 2
  | objectSent _ | treeListed _ => 1
  | _ => 0

/-- The steps that are left of a round, where they do not end it. -/
def PushMain.stage (index : List Inode) : PushMain → ℕ
  | enqueue trees objects => index.length + 8 + 4 * (trees.length + objects.length)
  | test => index.length + 7
  | wait => index.length + 6
  | again => index.length + 5
  | top => index.length + 4
  | query _ => index.length + 3
  | askTree _ => index.length + 2
  | askIndex _ todo _ _ => todo.length + 1
  | _ => 0

namespace PushState

/-- How many digests of a set the remote does not have. -/
def absent (W : Finset Digest) (σ : PushState) : ℕ := (W.filter fun d => σ.remote d = none).card

/-- **The rounds that are left** while the remote does not get anything it does not have. -/
def rounds (σ : PushState) : ℕ :=
  σ.checkTrees.length + (σ.jobs.map (PushJob.rounds σ.remote)).sum + σ.main.rounds σ.remote

/-- The steps that are left of the jobs and of the round. -/
def stage (index : List Inode) (σ : PushState) : ℕ :=
  (σ.jobs.map PushJob.stage).sum + σ.main.stage index

/-- **What is left of a push.** -/
def rank (W : Finset Digest) (index : List Inode) (σ : PushState) : ℕ ×ₗ ℕ ×ₗ ℕ :=
  toLex (σ.absent W, toLex (σ.rounds, σ.stage index))

end PushState

/-- **A remote that names as missing only what it does not have.** -/
structure Server.Honest (server : Server) : Prop where
  trees : ∀ {r t trees objects}, server.hasTree r t (.reports trees objects) →
    ∀ d ∈ trees, ¬ r.Has d
  objects : ∀ {r d}, server.hasObject r d (some false) → ¬ r.Has d

section Rank

variable {T F : Digest → Prop} {W : Finset Digest} {server : Server} {index : List Inode}
  {st : Store} {r₀ r : Remote} {σ τ : PushState} {j : PushJob} {e : PushEffect}

theorem PushState.rank_lt_iff : τ.rank W index < σ.rank W index ↔ τ.absent W < σ.absent W ∨
    τ.absent W = σ.absent W ∧
      (τ.rounds < σ.rounds ∨ τ.rounds = σ.rounds ∧ τ.stage index < σ.stage index) := by
  rw [PushState.rank, PushState.rank, Prod.Lex.toLex_lt_toLex, Prod.Lex.toLex_lt_toLex]

/-- **A digest less that the remote does not have.** -/
theorem PushState.absent_lt {d : Digest} (hd : d ∈ W) (hno : σ.remote d = none)
    (hhas : τ.remote d ≠ none) (hkeep : ∀ d', τ.remote d' = none → σ.remote d' = none) :
    τ.absent W < σ.absent W := by
  refine Finset.card_lt_card (Finset.ssubset_iff_of_subset (fun u hu => ?_) |>.mpr ⟨d, ?_, ?_⟩)
  · obtain ⟨hu, hnone⟩ := Finset.mem_filter.mp hu
    exact Finset.mem_filter.mpr ⟨hu, hkeep u hnone⟩
  · exact Finset.mem_filter.mpr ⟨hd, hno⟩
  · exact fun hmem => hhas (Finset.mem_filter.mp hmem).2

theorem PushJob.rounds_congr {r' : Remote} (h : ∀ d, (r' d).isSome = (r d).isSome) :
    PushJob.rounds r' = PushJob.rounds r := by
  funext j
  cases j <;> simp [PushJob.rounds, h]

theorem PushMain.rounds_congr {r' : Remote} (h : ∀ d, (r' d).isSome = (r d).isSome)
    (m : PushMain) : m.rounds r' = m.rounds r := by
  cases m <;> simp [PushMain.rounds, h]

theorem countP_present_eq_zero {l : List Digest} (h : ∀ d ∈ l, ¬ r.Has d) :
    l.countP (fun d => (r d).isSome) = 0 :=
  List.countP_eq_zero.mpr h

/-- **What a step of a job costs**: the remote gets something it did not have; or it has what it
had, and one step less of the job is left. -/
theorem PushJobStep.cost (hs : PushJobStep st r j e) :
    (∃ d k, j.source = some (d, k) ∧ r d = none ∧ e.remote d ≠ none ∧
      ∀ d', e.remote d' = none → r d' = none) ∨
    (∀ d, (e.remote d).isSome = (r d).isSome) ∧
      e.listed.length + e.job.rounds r ≤ j.rounds r ∧ e.job.stage < j.stage := by
  have hput : ∀ {h k b}, j.source = some (h, k) →
      (∃ d k, j.source = some (d, k) ∧ r d = none ∧ Function.update r h (some b) d ≠ none ∧
        ∀ d', Function.update r h (some b) d' = none → r d' = none) ∨
      (r h).isSome = true ∧ ∀ d, (Function.update r h (some b) d).isSome = (r d).isSome := by
    intro h k b hsource
    cases hr : r h with
    | none =>
      refine Or.inl ⟨h, k, hsource, hr, by simp, fun d' hd' => ?_⟩
      by_cases hd : d' = h
      · simp [hd] at hd'
      · rwa [Function.update_of_ne hd] at hd'
    | some b₀ =>
      refine Or.inr ⟨rfl, fun d => ?_⟩
      by_cases hd : d = h
      · simp [hd, hr]
      · rw [Function.update_of_ne hd]
  cases hs with
  | write hsource hb =>
    refine (hput hsource).imp_right fun ⟨hhas, hsame⟩ => ⟨hsame, ?_⟩
    rcases PushJob.source_eq hsource with ⟨rfl, -⟩ | ⟨rfl, -⟩
    · simp [PushJob.sent, PushJob.rounds, PushJob.stage]
    · simp [PushJob.sent, PushJob.rounds, PushJob.stage, hhas]
  | writeLost hsource hb =>
    refine (hput hsource).imp_right fun ⟨hhas, hsame⟩ => ⟨hsame, ?_⟩
    rcases PushJob.source_eq hsource with ⟨rfl, -⟩ | ⟨rfl, -⟩ <;>
      simp [PushJob.rounds, PushJob.stage]
  | writeFails hsource =>
    refine Or.inr ⟨fun _ => rfl, ?_⟩
    rcases PushJob.source_eq hsource with ⟨rfl, -⟩ | ⟨rfl, -⟩ <;>
      simp [PushJob.rounds, PushJob.stage]
  | _ => exact Or.inr ⟨fun _ => rfl, by simp [PushJob.rounds], by simp [PushJob.stage]⟩

/-- **Every step leaves less of a push.** -/
theorem PushStep.rank_lt (hs : PushStep server st index σ τ) (hhonest : server.Honest)
    (hW : ∀ d, T d ∨ F d → d ∈ W) (hi : σ.Only T F index st r₀) :
    τ.rank W index < σ.rank W index := by
  rw [PushState.rank_lt_iff]
  -- a step of the calling thread, other than one that ends a round
  have hmain : ∀ {m : PushMain}, m.rounds σ.remote < σ.main.rounds σ.remote ∨
      m.rounds σ.remote = σ.main.rounds σ.remote ∧ m.stage index < σ.main.stage index →
      let τ : PushState := { σ with main := m }
      τ.absent W < σ.absent W ∨ τ.absent W = σ.absent W ∧
        (τ.rounds < σ.rounds ∨ τ.rounds = σ.rounds ∧ τ.stage index < σ.stage index) := by
    intro m h
    refine Or.inr ⟨rfl, ?_⟩
    simp only [PushState.rounds, PushState.stage]
    omega
  cases hs with
  | @job l j r e hjobs hstep =>
    have hj : j ∈ σ.jobs := hjobs ▸ by simp
    rcases hstep.cost with ⟨d, k, hsource, hno, hhas, hkeep⟩ | ⟨hsame, hrounds, hstage⟩
    · exact Or.inl (PushState.absent_lt (hW d ((hi.jobs j hj).mem hsource)) hno hhas hkeep)
    · have hnone : ∀ d, e.remote d = none ↔ σ.remote d = none := fun d => by
        rw [← Option.isNone_iff_eq_none, ← Option.isNone_iff_eq_none, ← Option.not_isSome,
          ← Option.not_isSome, hsame]
      refine Or.inr ⟨by simp only [PushState.absent, hnone], ?_⟩
      simp only [PushState.rounds, PushState.stage, PushJob.rounds_congr hsame,
        PushMain.rounds_congr hsame, hjobs, List.map_append, List.map_cons, List.sum_append,
        List.sum_cons, List.length_append]
      omega
  | @pop ts t hm hlist =>
    refine Or.inr ⟨rfl, Or.inr ⟨?_, ?_⟩⟩
    · simp only [PushState.rounds, hlist, hm, PushMain.rounds, List.length_append,
        List.length_singleton]
      omega
    · simp [PushState.stage, hm, PushMain.stage]
  | @reports t trees objects hm hanswer =>
    refine hmain (Or.inl ?_)
    rw [hm, PushMain.rounds, PushMain.rounds, countP_present_eq_zero (hhonest.trees hanswer)]
    exact Nat.one_pos
  | unsupported hm => exact hmain (Or.inr (by simp [hm, PushMain.rounds, PushMain.stage]))
  | queryThrows hm => exact hmain (Or.inl (by simp [hm, PushMain.rounds]))
  | @askTree t found hm hanswer =>
    refine hmain (Or.inr ⟨?_, by simp [hm, PushMain.stage]⟩)
    cases found with
    | true => simp [hm, PushMain.rounds]
    | false => simpa [hm, PushMain.rounds, Remote.Has] using hhonest.objects hanswer
  | askTreeThrows hm => exact hmain (Or.inl (by simp [hm, PushMain.rounds]))
  | @askInode t i todo trees objects found hm hanswer =>
    refine hmain (Or.inr ⟨?_, by simp [hm, PushMain.stage]⟩)
    cases found with
    | true => simp [hm, PushMain.rounds]
    | false =>
      have hno : σ.remote i.hash = none := by
        simpa [Remote.Has] using hhonest.objects hanswer
      cases hd : i.isDirectory <;> simp [hm, PushMain.rounds, hno]
  | askInodeThrows hm =>
    exact hmain (Or.inl (by simp only [hm, PushMain.rounds]; omega))
  | asked hm => exact hmain (Or.inl (by simp only [hm, PushMain.rounds]; omega))
  | enqueueObject hm =>
    refine Or.inr ⟨rfl, Or.inr ⟨?_, ?_⟩⟩
    · simp [PushState.rounds, hm, PushMain.rounds, PushJob.rounds]
    · simp only [PushState.stage, hm, PushMain.stage, PushJob.stage, List.map_append,
        List.map_singleton, List.sum_append, List.sum_singleton, List.length_cons]
      omega
  | @enqueueTree trees d hm =>
    refine Or.inr ⟨rfl, Or.inr ⟨?_, ?_⟩⟩
    · simp only [PushState.rounds, hm, PushMain.rounds, PushJob.rounds, List.map_append,
        List.map_singleton, List.sum_append, List.sum_singleton, List.countP_cons]
      omega
    · simp only [PushState.stage, hm, PushMain.stage, PushJob.stage, List.map_append,
        List.map_singleton, List.sum_append, List.sum_singleton, List.length_cons]
      omega
  | enqueued hm | goOn hm | stop hm | waited hm | rethrow hm | nextRound hm | leave hm =>
    exact hmain (Or.inr (by simp [hm, PushMain.rounds, PushMain.stage]))

end Rank

/-! ### Where a push ends -/

/-- **A remote that answers**, if only by throwing. -/
structure Server.Total (server : Server) : Prop where
  hasTree : ∀ r t, ∃ a, server.hasTree r t a
  hasObject : ∀ r d, ∃ a, server.hasObject r d a

/-- A call has failed: one of a job, or one that asks the remote. -/
def PushState.Failure (server : Server) (σ : PushState) : Prop :=
  PushJob.failed ∈ σ.jobs ∨ (∃ r t, server.hasTree r t .throws) ∨ ∃ r d, server.hasObject r d none

/-- **What a push knows of its failures**, and that it does not begin a round without a tree. -/
structure PushState.Sane (server : Server) (σ : PushState) : Prop where
  counts : σ.Counts
  top : σ.main = .top → σ.checkTrees ≠ []
  failed : σ.wg.threw = true → PushJob.failed ∈ σ.jobs
  threw : σ.main = .threw → σ.Failure server

section Ends

variable {server : Server} {index : List Inode} {st : Store} {r₀ : Remote} {h : Digest}
  {σ τ : PushState} {j : PushJob} {e : PushEffect}

theorem sane_start : (PushState.start r₀ h).Sane server where
  counts := PushState.counts_start r₀ h
  top _ := List.cons_ne_nil h []
  failed := nofun
  threw := nofun

/-- A job that has not ended can take a step. -/
theorem exists_pushJobStep (r : Remote) (hj : j.outcome = .running) :
    ∃ e, PushJobStep st r j e := by
  cases j with
  | object d => exact ⟨_, .writeFails rfl⟩
  | objectSent d => exact ⟨_, .objectDone⟩
  | tree d => exact ⟨_, .writeFails rfl⟩
  | treeSent d => exact ⟨_, .list⟩
  | treeListed d => exact ⟨_, .treeDone⟩
  | _ => cases hj

/-- A job that reports an exception has failed, and one that has failed has ended. -/
theorem PushState.Sane.failed_of_step {l k : List PushJob} (hi : σ.Sane server)
    (hjobs : σ.jobs = l ++ j :: k) (hstep : PushJobStep st σ.remote j e)
    (ht : (σ.wg.settle e.job.outcome).threw = true) : PushJob.failed ∈ l ++ e.job :: k := by
  by_cases ho : e.job.outcome = .failed
  · have hfailed : e.job = .failed := by
      cases hj : e.job with
      | failed => rfl
      | _ => rw [hj] at ho; cases ho
    simp [hfailed]
  · have hold : σ.wg.threw = true := by
      cases he : e.job.outcome with
      | failed => exact absurd he ho
      | _ => rwa [he] at ht
    have hmem := hi.failed hold
    rw [hjobs] at hmem
    rcases List.mem_append.mp hmem with hmem | hmem
    · exact List.mem_append_left _ hmem
    · rcases List.mem_cons.mp hmem with rfl | hmem
      · cases hstep.running
      · exact List.mem_append_right _ (List.mem_cons_of_mem _ hmem)

theorem PushState.Sane.step (hi : σ.Sane server) (hs : PushStep server st index σ τ) :
    τ.Sane server := by
  have hc := hi.counts.step hs
  cases hs with
  | job hjobs hstep =>
    refine ⟨hc, fun hm => ?_, fun ht => hi.failed_of_step hjobs hstep ht, fun hm => ?_⟩
    · exact List.append_ne_nil_of_left_ne_nil (hi.top hm) _
    · rcases hi.threw hm with hf | hf
      · have hmem := hf
        rw [hjobs] at hmem
        refine Or.inl ?_
        rcases List.mem_append.mp hmem with hmem | hmem
        · exact List.mem_append_left _ hmem
        · rcases List.mem_cons.mp hmem with rfl | hmem
          · cases hstep.running
          · exact List.mem_append_right _ (List.mem_cons_of_mem _ hmem)
      · exact Or.inr hf
  | enqueueObject | enqueueTree =>
    exact ⟨hc, nofun, fun ht => List.mem_append_left _ (hi.failed ht), nofun⟩
  | nextRound hmain hlist => exact ⟨hc, fun _ => hlist, hi.failed, nofun⟩
  | queryThrows hmain hanswer =>
    exact ⟨hc, nofun, hi.failed, fun _ => Or.inr (Or.inl ⟨_, _, hanswer⟩)⟩
  | askTreeThrows hmain hanswer | askInodeThrows hmain hanswer =>
    exact ⟨hc, nofun, hi.failed, fun _ => Or.inr (Or.inr ⟨_, _, hanswer⟩)⟩
  | rethrow hmain hidle hfailed =>
    exact ⟨hc, nofun, hi.failed, fun _ => Or.inl (hi.failed hfailed)⟩
  | _ => exact ⟨hc, nofun, hi.failed, nofun⟩

/-- **The calling thread can go on**, unless it has returned or thrown, or waits for a job. -/
theorem PushState.Sane.goes_on (hi : σ.Sane server) (st : Store) (index : List Inode)
    (htotal : server.Total) :
    (σ.main = .returned ∨ σ.main = .threw) ∨
      (∃ τ, PushStep server st index σ τ ∧ τ.main ≠ σ.main) ∨
      σ.main = .wait ∧ ∃ j ∈ σ.jobs, j.outcome = .running := by
  have hstep : ∀ {m : PushMain} {τ}, σ.main = m → PushStep server st index σ τ → τ.main ≠ m →
      (σ.main = .returned ∨ σ.main = .threw) ∨
        (∃ τ, PushStep server st index σ τ ∧ τ.main ≠ σ.main) ∨
        σ.main = .wait ∧ ∃ j ∈ σ.jobs, j.outcome = .running :=
    fun hm hs hne => Or.inr (Or.inl ⟨_, hs, hm ▸ hne⟩)
  cases hmain : σ.main with
  | top =>
    have hlist := (List.dropLast_append_getLast (hi.top hmain)).symm
    exact hmain ▸ hstep hmain (.pop hmain hlist) nofun
  | query t =>
    obtain ⟨a, ha⟩ := htotal.hasTree σ.remote t
    cases a with
    | reports trees objects => exact hmain ▸ hstep hmain (.reports hmain ha) nofun
    | unsupported => exact hmain ▸ hstep hmain (.unsupported hmain ha) nofun
    | throws => exact hmain ▸ hstep hmain (.queryThrows hmain ha) nofun
  | askTree t =>
    obtain ⟨a, ha⟩ := htotal.hasObject σ.remote t
    cases a with
    | some found => exact hmain ▸ hstep hmain (.askTree hmain ha) nofun
    | none => exact hmain ▸ hstep hmain (.askTreeThrows hmain ha) nofun
  | askIndex t todo trees objects =>
    cases todo with
    | nil => exact hmain ▸ hstep hmain (.asked hmain) nofun
    | cons i todo =>
      obtain ⟨a, ha⟩ := htotal.hasObject σ.remote i.hash
      cases a with
      | some found => exact hmain ▸ hstep hmain (.askInode hmain ha) (by simp)
      | none => exact hmain ▸ hstep hmain (.askInodeThrows hmain ha) nofun
  | enqueue trees objects =>
    cases objects with
    | cons d objects => exact hmain ▸ hstep hmain (.enqueueObject hmain) (by simp)
    | nil =>
      cases trees with
      | cons d trees => exact hmain ▸ hstep hmain (.enqueueTree hmain) (by simp)
      | nil => exact hmain ▸ hstep hmain (.enqueued hmain) nofun
  | test =>
    by_cases hlist : σ.checkTrees = []
    · exact hmain ▸ hstep hmain (.stop hmain hlist) nofun
    · exact hmain ▸ hstep hmain (.goOn hmain hlist) nofun
  | wait =>
    by_cases hidle : σ.wg.count ≤ 0
    · cases ht : σ.wg.threw with
      | true => exact hmain ▸ hstep hmain (.rethrow hmain hidle ht) nofun
      | false => exact hmain ▸ hstep hmain (.waited hmain hidle ht) nofun
    · obtain ⟨l, j, k, hjobs, ho⟩ := Pool.Counts.exists_running hi.counts hidle
      exact Or.inr (Or.inr ⟨rfl, j, by simp [hjobs], ho⟩)
  | again =>
    by_cases hlist : σ.checkTrees = []
    · exact hmain ▸ hstep hmain (.leave hmain hlist) nofun
    · exact hmain ▸ hstep hmain (.nextRound hmain hlist) nofun
  | returned => exact Or.inl (Or.inl rfl)
  | threw => exact Or.inl (Or.inr rfl)

/-- **A state without a step is an end**: the calling thread has returned or thrown. -/
theorem PushState.Sane.ended (hi : σ.Sane server) (htotal : server.Total)
    (hstuck : ∀ τ, ¬ PushStep server st index σ τ) : σ.main = .returned ∨ σ.main = .threw := by
  rcases hi.goes_on st index htotal with hend | ⟨τ, hs, -⟩ | ⟨-, j, hj, ho⟩
  · exact hend
  · exact absurd hs (hstuck τ)
  · obtain ⟨l, k, hjobs⟩ := List.append_of_mem hj
    obtain ⟨e, he⟩ := exists_pushJobStep σ.remote ho
    exact absurd (.job hjobs he) (hstuck _)

/-- **What a push that has returned has sent**: the remote has the whole tree. -/
theorem PushState.has_of_returned {truth : Digest → Bytes} {H : HashFunction}
    (hm : MerkleTree truth H h) (hindex : ListsTreeOf truth h index)
    (hserver : server.Reports truth h ∨ server.Unsupported)
    (hrun : Reaches (PushStep server st index) (PushState.start r₀ h) σ)
    (hret : σ.main = .returned) {d : Digest} (hd : TreeIn truth h d ∨ FileIn truth h d) :
    σ.remote.Has d := by
  obtain ⟨leads, hcov⟩ : ∃ leads, Coverage truth h server index leads := by
    rcases hserver with hs | hs
    · exact ⟨_, coverage_of_reports hm hs⟩
    · exact ⟨_, coverage_of_unsupported hm hs hindex⟩
  have hinv : PushInv truth h leads server index st r₀ σ :=
    hrun.invariant pushInv_start fun _ _ hi hs => hi.step hcov hs
  obtain ⟨hall, -⟩ := hinv.returned hcov.toLeading hret
  rcases hd with hd | ⟨ns, r, hr, hfile, rfl⟩
  · exact (hall d hd).1
  · obtain ⟨t, ht, hmem⟩ := hr.exists_tree
    exact (hall t ht).2 _ ⟨r, hmem, hfile, rfl⟩

end Ends

section Index

variable {truth : Digest → Bytes} {h d : Digest} {index : List Inode}

/-- The directories and files of the index of a tree are trees and objects of it. -/
theorem indexNames_of_listsTreeOf (hindex : ListsTreeOf truth h index) :
    IndexNames (TreeIn truth h) (FileIn truth h) index := by
  intro i hi
  obtain ⟨ns, r, hr, he⟩ := (hindex _).mp (List.mem_map_of_mem (f := Inode.entry) hi)
  obtain ⟨-, hstatus, -, hhash⟩ := Inode.entry_eq_iff.mp he
  have hstatus : i.status = r.status := hstatus
  have hhash : i.hash = r.hash := hhash
  rw [hhash]
  refine ⟨fun hd => Or.inr ⟨ns, r, hr, ?_, rfl⟩, fun _ hf => ⟨ns, r, hr, ?_, rfl⟩⟩
  · rwa [Inode.isDirectory, ← hstatus]
  · rwa [Inode.isFile, ← hstatus]

/-- There are not more of them than the index lists, and the root. -/
theorem mem_of_inTree (hindex : ListsTreeOf truth h index)
    (hd : TreeIn truth h d ∨ FileIn truth h d) : d ∈ insert h (index.map Inode.hash).toFinset := by
  have hmem : ∀ {ns r}, Reachable truth h ns r →
      r.hash ∈ insert h (index.map Inode.hash).toFinset := by
    intro ns r hr
    obtain ⟨i, hi, he⟩ := List.mem_map.mp ((hindex _).mpr ⟨ns, r, hr, rfl⟩)
    obtain ⟨-, -, -, hhash⟩ := Inode.entry_eq_iff.mp he
    refine Finset.mem_insert_of_mem (List.mem_toFinset.mpr ?_)
    exact List.mem_map.mpr ⟨i, hi, hhash⟩
  rcases hd with (rfl | ⟨ns, r, hr, -, rfl⟩) | ⟨ns, r, hr, -, rfl⟩
  · exact Finset.mem_insert_self _ _
  · exact hmem hr
  · exact hmem hr

end Index

/-- Every run of a push ends, if the remote names only what it does not have, and of the tree. -/
theorem terminates_push {truth : Digest → Bytes} {h : Digest} {server : Server}
    {index : List Inode} {st : Store} {r₀ : Remote} (hindex : ListsTreeOf truth h index)
    (hnames : server.Names (TreeIn truth h) (FileIn truth h)) (hhonest : server.Honest) :
    Terminates (PushStep server st index) (PushState.start r₀ h) := by
  have hstart : (PushState.start r₀ h).Only (TreeIn truth h) (FileIn truth h) index st r₀ :=
    only_start (Or.inl rfl)
  have hnamed := indexNames_of_listsTreeOf hindex
  exact terminates_of_wellFounded (wellFounded_lt (α := ℕ ×ₗ ℕ ×ₗ ℕ))
    (PushState.rank (insert h (index.map Inode.hash).toFinset) index) hstart
    fun σ τ hi hs => ⟨hi.step hnames hnamed hs, hs.rank_lt hhonest
      (fun d hd => mem_of_inTree hindex hd) hi⟩

/-- **Every push ends** of a Merkle tree that the index lists. If every call of the remote answers
or fails, and it names only trees and objects of the tree that is pushed, and none that it has, a
push gets to an end in whatever order its jobs and its loop take their steps, and whatever fails on
the way. It has returned, and the remote has the whole tree, if it reports all that it lacks or
cannot be asked; or it has thrown, and a call has failed. What it has written are trees and objects
of that tree, as the cache has them. -/
theorem push_ends {truth : Digest → Bytes} {H : HashFunction} {h : Digest} {server : Server}
    {index : List Inode} {st : Store} {r₀ : Remote} (hm : MerkleTree truth H h)
    (hindex : ListsTreeOf truth h index) (hserver : server.Reports truth h ∨ server.Unsupported)
    (hnames : server.Names (TreeIn truth h) (FileIn truth h)) (hhonest : server.Honest)
    (htotal : server.Total) :
    Terminates (PushStep server st index) (PushState.start r₀ h) ∧
    ∀ σ, Reaches (PushStep server st index) (PushState.start r₀ h) σ →
      (∀ d b, σ.remote d = some b → r₀ d = some b ∨ TreeIn truth h d ∧ st (treePath d) = some b ∨
        FileIn truth h d ∧ st (filePath d) = some b) ∧
      ((∀ τ, ¬ PushStep server st index σ τ) →
        σ.main = .returned ∧ (∀ d, TreeIn truth h d ∨ FileIn truth h d → σ.remote.Has d) ∨
        σ.main = .threw ∧ σ.Failure server) := by
  have hstart : (PushState.start r₀ h).Only (TreeIn truth h) (FileIn truth h) index st r₀ :=
    only_start (Or.inl rfl)
  refine ⟨terminates_push hindex hnames hhonest, fun σ hσ => ⟨?_, fun hstuck => ?_⟩⟩
  · exact (hσ.invariant hstart fun _ _ hi hs =>
      hi.step hnames (indexNames_of_listsTreeOf hindex) hs).written
  · have hsane : σ.Sane server := hσ.invariant sane_start fun _ _ hi hs => hi.step hs
    rcases hsane.ended htotal hstuck with hret | hthrew
    · exact Or.inl ⟨hret, fun _ hd => PushState.has_of_returned hm hindex hserver hσ hret hd⟩
    · exact Or.inr ⟨hthrew, hsane.threw hthrew⟩

/-! ### A remote that is not honest -/

/-- **A remote that goes on naming a tree** that it has been sent keeps a push of it going for
ever: the tree is written and checked again. -/
theorem push_endless {server : Server} {index : List Inode} {st : Store} {r₀ : Remote} {t : Digest}
    {b : Bytes} (hb : st (treePath t) = some b)
    (hnames : ∀ r, server.hasTree r t (.reports [t] [])) :
    ¬ Terminates (PushStep server st index) (PushState.start r₀ t) := by
  refine not_terminates (P := fun σ => σ.main = .top ∧ σ.checkTrees = [t]) ⟨rfl, rfl⟩ ?_
  rintro σ ⟨hmain, hlist⟩
  have asked : PushStep server st index σ { σ with checkTrees := [], main := .query t } :=
    .pop hmain (by rw [hlist]; rfl)
  refine ⟨_, Relation.TransGen.head asked <| Relation.TransGen.head (.reports rfl (hnames _)) <|
    Relation.TransGen.head (.enqueueTree rfl) <|
    Relation.TransGen.head (.job rfl (.write rfl hb)) <| Relation.TransGen.head (.job rfl .list) <|
    Relation.TransGen.head (.enqueued rfl) <|
    Relation.TransGen.head (.goOn rfl (List.cons_ne_nil t [])) <|
    Relation.TransGen.single (.nextRound rfl (List.cons_ne_nil t [])), rfl, rfl⟩

namespace Sample

theorem http_honest : http.server.Honest where
  trees ha := by cases ha
  objects {r d} ha hhas := by
    have hsome : (r d).isSome = false := (Option.some.inj ha).symm
    rw [Remote.Has, hsome] at hhas
    cases hhas

theorem http_total : http.server.Total where
  hasTree _ _ := ⟨_, rfl⟩
  hasObject _ _ := ⟨_, rfl⟩

end Sample

/-- No push of the sample goes on for ever, and this one has written what the cache has. -/
theorem push_ends_sample :
    Terminates (PushStep Sample.http.server Sample.local₀ (listing Sample.truth 2 [] Sample.wanted))
      (PushState.start Sample.remote₀ Sample.wanted) ∧
    ∀ d b, Sample.pushed.remote d = some b → Sample.remote₀ d = some b ∨
      TreeIn Sample.truth Sample.wanted d ∧ Sample.local₀ (treePath d) = some b ∨
        FileIn Sample.truth Sample.wanted d ∧ Sample.local₀ (filePath d) = some b := by
  have h := @push_ends _ _ _ _ _ Sample.local₀ Sample.remote₀ Sample.merkleTree_wanted
    (listsTreeOf_listing Sample.merkleTree_wanted Sample.hasHeight_wanted)
    (Or.inr Sample.http_unsupported) (fun ha => by cases ha) Sample.http_honest Sample.http_total
  exact ⟨h.1, (h.2 Sample.pushed (reaches_runPush (PushState.counts_start _ _) 60)).1⟩

end Fstree
