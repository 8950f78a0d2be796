import Fstree.PullComplete
import Fstree.Push

/-!
# A push brings the whole tree to the remote

What is missing on the remote is always known to somebody. A tree that is still to be
checked *leads to* others, and each tree of the closure is led to by one, or it is on the
remote and so are its files, or jobs are about to write them
(`Fstree.PushState.Covered`). What a remote has to answer for that is
`Fstree.Coverage`; both ways of asking give it, with a different notion of leading
(`Fstree.coverage_of_reports`, `Fstree.coverage_of_unsupported`). When the list is empty
and all jobs have ended nothing leads anywhere, so everything is on the remote
(`Fstree.push_complete`).
-/

namespace Fstree

open Pool Transition

/-! ### Leading to what is missing -/

section Cover

variable (truth : Digest → Bytes) (h : Digest)

/-- A tree object lists a file object. -/
def ListsFile (t f : Digest) : Prop := ∃ r ∈ records truth t, r.isFile = true ∧ r.hash = f

/-- A tree object lists another. -/
def ListsTree (t u : Digest) : Prop := ∃ r ∈ records truth t, r.isDirectory = true ∧ r.hash = u

/-- **What a round knows of a tree**: it is there or is to be written, and if it is there
so are its files, or they are to be written. -/
structure Answered (r : Remote) (trees objects : List Digest) (u : Digest) : Prop where
  tree : r.Has u ∨ u ∈ trees
  files : r.Has u → ∀ f, ListsFile truth u f → r.Has f ∨ f ∈ objects

/-- **A notion of leading**: which trees a tree that is to be checked accounts for. It
grows with what is on the remote, and what a new object makes the root lead to is led to
by that object. If all trees that the root leads to are on the remote, these are all. -/
structure Leading (leads : Remote → Digest → Digest → Prop) : Prop where
  refl : ∀ r u, leads r u u
  trans : ∀ {r t u v}, leads r t u → leads r u v → leads r t v
  mono : ∀ {r r' : Remote}, (∀ d, r.Has d → r'.Has d) → ∀ {t u}, leads r t u → leads r' t u
  treeIn : ∀ {r u}, leads r h u → TreeIn truth h u
  grow : ∀ {r r' : Remote} {y}, (∀ d, r'.Has d → r.Has d ∨ d = y) → ∀ {u}, leads r' h u →
    leads r h u ∨ leads r h y ∧ leads r' y u
  total : ∀ {r : Remote}, (∀ u, leads r h u → r.Has u) → ∀ u, TreeIn truth h u → leads r h u

/-- What the answers for a tree and for all inodes of the index have told, as far as they
have been asked: those of `todo` have not. -/
structure Asked (index : List Inode) (r : Remote) (t : Digest) (todo : List Inode)
    (trees objects : List Digest) : Prop where
  tree : r.Has t ∨ t ∈ trees
  inodes : ∀ i ∈ index, i ∈ todo ∨ r.Has i.hash ∨ (i.isDirectory = true → i.hash ∈ trees) ∧
    (i.isDirectory = false → i.isFile = true → i.hash ∈ objects)

/-- **What a remote has to answer**: a round for a tree settles all it leads to. -/
structure Coverage (server : Server) (index : List Inode)
    (leads : Remote → Digest → Digest → Prop) : Prop extends Leading truth h leads where
  reports : ∀ {r t trees objects}, server.hasTree r t (.reports trees objects) →
    TreeIn truth h t → ∀ u, leads r t u → Answered truth r trees objects u
  present : (∃ r t, server.hasTree r t .unsupported) → ∀ {r d},
    server.hasObject r d (some true) → r.Has d
  asked : (∃ r t, server.hasTree r t .unsupported) → ∀ {r : Remote} {t trees objects},
    TreeIn truth h t → Asked index r t [] trees objects →
    ∀ u, leads r t u → Answered truth r trees objects u

end Cover

/-- The trees a job accounts for. -/
def PushJob.checks : PushJob → List Digest
  | tree h | treeSent h => [h]
  | _ => []

/-- The object a job is to write. -/
def PushJob.writes : PushJob → List Digest
  | object h => [h]
  | _ => []

/-- The trees the calling thread accounts for. -/
def PushMain.checks : PushMain → List Digest
  | query t | askTree t | askIndex t .. => [t]
  | enqueue trees _ => trees
  | _ => []

/-- The objects the calling thread is to have written. -/
def PushMain.writes : PushMain → List Digest
  | enqueue _ objects => objects
  | _ => []

namespace PushState

/-- **The trees that are still to be checked**, by somebody. -/
def toCheck (σ : PushState) : List Digest :=
  σ.checkTrees ++ σ.jobs.flatMap PushJob.checks ++ σ.main.checks

/-- **The objects that are still to be written.** -/
def toWrite (σ : PushState) : List Digest := σ.jobs.flatMap PushJob.writes ++ σ.main.writes

/-- **Nothing is forgotten**: a tree that the root leads to is led to by one that is still
to be checked, or it is on the remote and its files are, or are still to be written. -/
def Covered (truth : Digest → Bytes) (h : Digest) (leads : Remote → Digest → Digest → Prop)
    (σ : PushState) : Prop :=
  ∀ u, leads σ.remote h u → (∃ q ∈ σ.toCheck, TreeIn truth h q ∧ leads σ.remote q u) ∨
    σ.remote.Has u ∧ ∀ f, ListsFile truth u f → σ.remote.Has f ∨ f ∈ σ.toWrite

end PushState

section Covered

variable {truth : Digest → Bytes} {h : Digest} {leads : Remote → Digest → Digest → Prop}
  {σ τ : PushState} {server : Server} {index : List Inode} {st : Store}

/-- **Covering is kept** when the remote gains at most one object, and what is no longer to
be written is there. -/
theorem PushState.Covered.mono (hl : Leading truth h leads) (hc : σ.Covered truth h leads)
    {y : Digest} (hkeep : ∀ d, σ.remote.Has d → τ.remote.Has d)
    (hgain : ∀ d, τ.remote.Has d → σ.remote.Has d ∨ d = y)
    (hcheck : ∀ q ∈ σ.toCheck, q ∈ τ.toCheck)
    (hwrite : ∀ f ∈ σ.toWrite, f ∈ τ.toWrite ∨ τ.remote.Has f) : τ.Covered truth h leads := by
  intro u hu
  -- what the root led to before
  have hold : leads σ.remote h u → (∃ q ∈ τ.toCheck, TreeIn truth h q ∧ leads τ.remote q u) ∨
      τ.remote.Has u ∧ ∀ f, ListsFile truth u f → τ.remote.Has f ∨ f ∈ τ.toWrite := by
    intro hu
    rcases hc u hu with ⟨q, hq, hin, hqu⟩ | ⟨hhas, hfiles⟩
    · exact Or.inl ⟨q, hcheck q hq, hin, hl.mono hkeep hqu⟩
    · refine Or.inr ⟨hkeep u hhas, fun f hf => ?_⟩
      rcases hfiles f hf with hf | hf
      · exact Or.inl (hkeep f hf)
      · exact (hwrite f hf).symm
  rcases hl.grow hgain hu with hu | ⟨hy, hyu⟩
  · exact hold hu
  · by_cases hhas : σ.remote.Has y
    · -- nothing is new
      exact hold (hl.mono (fun d hd => (hgain d hd).elim id fun he => he ▸ hhas) ‹_›)
    · rcases hc y hy with ⟨q, hq, hin, hqy⟩ | ⟨hhas', -⟩
      · exact Or.inl ⟨q, hcheck q hq, hin, hl.trans (hl.mono hkeep hqy) hyu⟩
      · exact absurd hhas' hhas

/-- The end of a round: what the tree led to is settled. -/
theorem PushState.Covered.round (hl : Leading truth h leads) (hc : σ.Covered truth h leads)
    {t : Digest} {trees objects : List Digest} (hremote : τ.remote = σ.remote)
    (hcheck : ∀ q ∈ σ.toCheck, q = t ∨ q ∈ τ.toCheck) (hwrite : ∀ f ∈ σ.toWrite, f ∈ τ.toWrite)
    (htrees : ∀ q ∈ trees, q ∈ τ.toCheck) (hobjects : ∀ f ∈ objects, f ∈ τ.toWrite)
    (hround : TreeIn truth h t → ∀ u, leads σ.remote t u →
      Answered truth σ.remote trees objects u) : τ.Covered truth h leads := by
  intro u hu
  rw [hremote] at hu ⊢
  rcases hc u hu with ⟨q, hq, hin, hqu⟩ | ⟨hhas, hfiles⟩
  · rcases hcheck q hq with rfl | hq
    · have hs := hround hin u hqu
      rcases hs.tree with hhas | hmem
      · refine Or.inr ⟨hhas, fun f hf => ?_⟩
        exact (hs.files hhas f hf).imp_right (hobjects f)
      · exact Or.inl ⟨u, htrees u hmem, hl.treeIn hu, hl.refl _ u⟩
    · exact Or.inl ⟨q, hq, hin, hqu⟩
  · exact Or.inr ⟨hhas, fun f hf => (hfiles f hf).imp_right (hwrite f)⟩

end Covered

/-! ### What holds throughout a push -/

/-- All jobs have ended, and none has failed. -/
def PushState.Idle (σ : PushState) : Prop := σ.wg.count ≤ 0 ∧ σ.wg.threw = false

/-- What is known at each place of the calling thread. -/
def PushState.Place (server : Server) (index : List Inode) (σ : PushState) : Prop :=
  match σ.main with
  | .askTree _ => ∃ r t, server.hasTree r t .unsupported
  | .askIndex t todo trees objects =>
    (∃ r t, server.hasTree r t .unsupported) ∧ Asked index σ.remote t todo trees objects
  | .again => σ.checkTrees ≠ [] ∨ σ.Idle
  | .returned => σ.checkTrees = [] ∧ σ.Idle
  | _ => True

/-- **What holds throughout a push of the tree under `h`.** -/
structure PushInv (truth : Digest → Bytes) (h : Digest)
    (leads : Remote → Digest → Digest → Prop) (server : Server) (index : List Inode) (st : Store)
    (r₀ : Remote) (σ : PushState) : Prop where
  counts : σ.Counts
  place : σ.Place server index
  covered : σ.wg.threw = false → σ.main ≠ .threw → σ.Covered truth h leads
  stored : ∀ d b, σ.remote d = some b →
    r₀ d = some b ∨ st (filePath d) = some b ∨ st (treePath d) = some b

section Run

variable {truth : Digest → Bytes} {h : Digest} {leads : Remote → Digest → Digest → Prop}
  {σ τ : PushState} {server : Server} {index : List Inode} {st : Store} {r₀ : Remote}
  {j : PushJob} {e : PushEffect}

theorem pushInv_start :
    PushInv truth h leads server index st r₀ (PushState.start r₀ h) where
  counts := PushState.counts_start r₀ h
  place := trivial
  covered _ _ u hu := Or.inl ⟨h, by simp [PushState.start, PushState.toCheck], Or.inl rfl, hu⟩
  stored _ _ hb := Or.inl hb

theorem Remote.has_update {r : Remote} {d d' : Digest} {b : Bytes} :
    Remote.Has (Function.update r d (some b)) d' ↔ r.Has d' ∨ d' = d := by
  by_cases hd : d' = d
  · simp [Remote.Has, hd]
  · simp [Remote.Has, hd]

/-- **What one step of a job does**: the remote gains at most one object, whose bytes are
those in the cache; the job goes on accounting for its tree, and its object is there when
it is no longer to be written. -/
theorem PushJobStep.effect {r : Remote} (hs : PushJobStep st r j e) :
    (∀ d, r.Has d → e.remote.Has d) ∧ (∃ y, ∀ d, e.remote.Has d → r.Has d ∨ d = y) ∧
    (∀ d b, e.remote d = some b →
      r d = some b ∨ st (filePath d) = some b ∨ st (treePath d) = some b) ∧
    (e.job.outcome ≠ .failed → (∀ q ∈ j.checks, q ∈ e.listed ∨ q ∈ e.job.checks) ∧
      ∀ f ∈ j.writes, f ∈ e.job.writes ∨ e.remote.Has f) := by
  have hput : ∀ {h k b}, j.source = some (h, k) → st k = some b → ∀ d b',
      Function.update r h (some b) d = some b' →
      r d = some b' ∨ st (filePath d) = some b' ∨ st (treePath d) = some b' := by
    intro h k b hsource hb d b' hd
    by_cases hdh : d = h
    · rw [hdh, Function.update_self] at hd
      rw [hdh, ← hd, ← hb]
      rcases PushJob.source_eq hsource with ⟨-, rfl⟩ | ⟨-, rfl⟩
      · exact Or.inr (Or.inl rfl)
      · exact Or.inr (Or.inr rfl)
    · rw [Function.update_of_ne hdh] at hd
      exact Or.inl hd
  cases hs with
  | write hsource hb =>
    refine ⟨fun d hd => Remote.has_update.mpr (Or.inl hd), ⟨_, fun d => Remote.has_update.mp⟩,
      hput hsource hb, fun _ => ?_⟩
    rcases PushJob.source_eq hsource with ⟨rfl, -⟩ | ⟨rfl, -⟩
    · refine ⟨by simp [PushJob.checks], fun f hf => Or.inr ?_⟩
      exact Remote.has_update.mpr (Or.inr (List.mem_singleton.mp hf))
    · exact ⟨fun q hq => Or.inr hq, by simp [PushJob.writes]⟩
  | writeLost hsource hb =>
    exact ⟨fun d hd => Remote.has_update.mpr (Or.inl hd), ⟨_, fun d => Remote.has_update.mp⟩,
      hput hsource hb, fun hok => absurd rfl hok⟩
  | writeFails =>
    exact ⟨fun _ hd => hd, ⟨Digest.none, fun _ hd => Or.inl hd⟩, fun _ _ hb => Or.inl hb,
      fun hok => absurd rfl hok⟩
  | list =>
    exact ⟨fun _ hd => hd, ⟨Digest.none, fun _ hd => Or.inl hd⟩, fun _ _ hb => Or.inl hb,
      fun _ => ⟨fun q hq => Or.inl hq, by simp [PushJob.writes]⟩⟩
  | _ =>
    exact ⟨fun _ hd => hd, ⟨Digest.none, fun _ hd => Or.inl hd⟩, fun _ _ hb => Or.inl hb,
      fun _ => ⟨by simp [PushJob.checks], by simp [PushJob.writes]⟩⟩

theorem Asked.mono {r r' : Remote} {t : Digest} {todo : List Inode} {trees objects : List Digest}
    (ha : Asked index r t todo trees objects) (hkeep : ∀ d, r.Has d → r'.Has d) :
    Asked index r' t todo trees objects where
  tree := ha.tree.imp_left (hkeep t)
  inodes i hi := (ha.inodes i hi).imp_right fun h => h.imp_left (hkeep i.hash)

/-- The answer for one more inode of the index. -/
theorem Asked.next {r : Remote} {t : Digest} {i : Inode} {todo : List Inode}
    {trees objects : List Digest} {found : Bool} (ha : Asked index r t (i :: todo) trees objects)
    (hfound : found = true → r.Has i.hash) :
    Asked index r t todo (if !found && i.isDirectory then trees ++ [i.hash] else trees)
      (if !found && !i.isDirectory && i.isFile then objects ++ [i.hash] else objects) := by
  have htrees : ∀ d ∈ trees,
      d ∈ if !found && i.isDirectory then trees ++ [i.hash] else trees := by
    intro d hd
    split_ifs
    · exact List.mem_append_left _ hd
    · exact hd
  have hobjects : ∀ d ∈ objects,
      d ∈ if !found && !i.isDirectory && i.isFile then objects ++ [i.hash] else objects := by
    intro d hd
    split_ifs
    · exact List.mem_append_left _ hd
    · exact hd
  refine ⟨ha.tree.imp_right (htrees t), fun k hk => ?_⟩
  rcases ha.inodes k hk with hk | hk | ⟨hdir, hfile⟩
  · rcases List.mem_cons.mp hk with rfl | hk
    · cases found with
      | true => exact Or.inr (Or.inl (hfound rfl))
      | false =>
        refine Or.inr (Or.inr ⟨fun hd => ?_, fun hd hf => ?_⟩)
        · simp [hd]
        · simp [hd, hf]
    · exact Or.inl hk
  · exact Or.inr (Or.inl hk)
  · exact Or.inr (Or.inr ⟨fun hd => htrees _ (hdir hd), fun hd hf => hobjects _ (hfile hd hf)⟩)

/-- The calling thread throws. -/
theorem PushInv.throws (hi : PushInv truth h leads server index st r₀ σ) :
    PushInv truth h leads server index st r₀ { σ with main := .threw } where
  counts := hi.counts
  place := trivial
  covered _ hm := absurd rfl hm
  stored := hi.stored

/-- The calling thread goes on, and accounts for what it did before. -/
theorem PushInv.goto (hl : Leading truth h leads)
    (hi : PushInv truth h leads server index st r₀ σ) {m : PushMain} (hmain : σ.main ≠ .threw)
    (hplace : ({ σ with main := m } : PushState).Place server index)
    (hchecks : ∀ q ∈ σ.main.checks, q ∈ m.checks) (hwrites : ∀ f ∈ σ.main.writes, f ∈ m.writes) :
    PushInv truth h leads server index st r₀ { σ with main := m } where
  counts := hi.counts
  place := hplace
  covered hok _ := by
    refine (hi.covered hok hmain).mono hl (y := h) (fun _ hd => hd) (fun _ hd => Or.inl hd) ?_ ?_
    · intro q hq
      exact (List.mem_append.mp hq).elim (fun hq => List.mem_append_left _ hq)
        fun hq => List.mem_append_right _ (hchecks q hq)
    · intro f hf
      exact Or.inl ((List.mem_append.mp hf).elim (fun hf => List.mem_append_left _ hf)
        fun hf => List.mem_append_right _ (hwrites f hf))
  stored := hi.stored

/-- The calling thread has the answers of a round, and begins to enqueue jobs. -/
theorem PushInv.round (hl : Leading truth h leads)
    (hi : PushInv truth h leads server index st r₀ σ) {t : Digest} {trees objects : List Digest}
    (hmain : σ.main ≠ .threw) (hchecks : ∀ q ∈ σ.main.checks, q = t) (hwrites : σ.main.writes = [])
    (hround : TreeIn truth h t → ∀ u, leads σ.remote t u →
      Answered truth σ.remote trees objects u) :
    PushInv truth h leads server index st r₀ { σ with main := .enqueue trees objects } where
  counts := hi.counts
  place := trivial
  covered hok _ := by
    refine (hi.covered hok hmain).round hl rfl ?_ ?_ ?_ ?_ hround
    · intro q hq
      exact (List.mem_append.mp hq).elim (fun hq => Or.inr (List.mem_append_left _ hq))
        fun hq => Or.inl (hchecks q hq)
    · intro f hf
      rw [PushState.toWrite, hwrites, List.append_nil] at hf
      exact List.mem_append_left _ hf
    · exact fun q hq => List.mem_append_right _ hq
    · exact fun f hf => List.mem_append_right _ hf
  stored := hi.stored

/-- The calling thread enqueues a job, which accounts for what it is about. -/
theorem PushInv.spawn (hl : Leading truth h leads)
    (hi : PushInv truth h leads server index st r₀ σ) {m : PushMain} (hmain : σ.main ≠ .threw)
    (hj : j.outcome = .running)
    (hplace : ({ σ with jobs := σ.jobs ++ [j], wg := σ.wg.add 1, main := m } : PushState).Place
      server index)
    (hchecks : ∀ q ∈ σ.main.checks, q ∈ j.checks ∨ q ∈ m.checks)
    (hwrites : ∀ f ∈ σ.main.writes, f ∈ j.writes ∨ f ∈ m.writes) :
    PushInv truth h leads server index st r₀
      { σ with jobs := σ.jobs ++ [j], wg := σ.wg.add 1, main := m } where
  counts := Pool.Counts.spawn hi.counts [j] (by simpa using hj)
  place := hplace
  covered hok _ := by
    refine (hi.covered hok hmain).mono hl (y := h) (fun _ hd => hd) (fun _ hd => Or.inl hd) ?_ ?_
    · intro q hq
      simp only [PushState.toCheck, List.mem_append, List.flatMap_append, List.flatMap_cons,
        List.flatMap_nil, List.append_nil] at hq ⊢
      rcases hq with (hq | hq) | hq
      · exact Or.inl (Or.inl hq)
      · exact Or.inl (Or.inr (Or.inl hq))
      · exact (hchecks q hq).imp (fun hq => Or.inr (Or.inr hq)) id
    · intro f hf
      simp only [PushState.toWrite, List.mem_append, List.flatMap_append, List.flatMap_cons,
        List.flatMap_nil, List.append_nil] at hf ⊢
      refine Or.inl ?_
      rcases hf with hf | hf
      · exact Or.inl (Or.inl hf)
      · exact (hwrites f hf).imp Or.inr id
  stored := hi.stored

/-- **The step of a job keeps the invariant.** -/
theorem PushInv.job (hl : Leading truth h leads)
    (hi : PushInv truth h leads server index st r₀ σ) {l r : List PushJob}
    (hjobs : σ.jobs = l ++ j :: r) (hstep : PushJobStep st σ.remote j e) :
    PushInv truth h leads server index st r₀ { σ with
      remote := e.remote
      checkTrees := σ.checkTrees ++ e.listed
      jobs := l ++ e.job :: r
      wg := σ.wg.settle e.job.outcome } := by
  obtain ⟨hkeep, ⟨y, hgain⟩, hbytes, haccount⟩ := hstep.effect
  have hcounts : Pool.Counts PushJob.outcome σ.wg σ.jobs := hi.counts
  have hplace := hi.place
  -- the calling thread is not at a place where no job runs
  have hbusy : ¬ σ.Idle := fun hidle =>
    hcounts.idle hidle.1 j (by simp [hjobs]) hstep.running
  rw [hjobs] at hcounts
  refine ⟨hcounts.step hstep.running, ?_, ?_, ?_⟩
  · cases hm : σ.main with
    | askIndex t todo trees objects =>
      simp only [PushState.Place, hm] at hplace ⊢
      exact ⟨hplace.1, hplace.2.mono hkeep⟩
    | again =>
      simp only [PushState.Place, hm] at hplace ⊢
      exact Or.inl (List.append_ne_nil_of_left_ne_nil (hplace.resolve_right hbusy) _)
    | returned =>
      simp only [PushState.Place, hm] at hplace
      exact absurd hplace.2 hbusy
    | askTree t =>
      simp only [PushState.Place, hm] at hplace ⊢
      exact hplace
    | _ => trivial
  · intro hok' hmain
    obtain ⟨hok, hne⟩ := WaitGroup.threw_of_settle hok'
    obtain ⟨hchecks, hwrites⟩ := haccount hne
    refine (hi.covered hok hmain).mono hl hkeep hgain ?_ ?_
    · intro q hq
      simp only [PushState.toCheck, hjobs, List.flatMap_append, List.flatMap_cons,
        List.mem_append] at hq ⊢
      rcases hq with (hq | hq | hq | hq) | hq
      · exact Or.inl (Or.inl (Or.inl hq))
      · exact Or.inl (Or.inr (Or.inl hq))
      · rcases hchecks q hq with hq | hq
        · exact Or.inl (Or.inl (Or.inr hq))
        · exact Or.inl (Or.inr (Or.inr (Or.inl hq)))
      · exact Or.inl (Or.inr (Or.inr (Or.inr hq)))
      · exact Or.inr hq
    · intro f hf
      simp only [PushState.toWrite, hjobs, List.flatMap_append, List.flatMap_cons,
        List.mem_append] at hf ⊢
      rcases hf with (hf | hf | hf) | hf
      · exact Or.inl (Or.inl (Or.inl hf))
      · exact (hwrites f hf).imp_left fun hf => Or.inl (Or.inr (Or.inl hf))
      · exact Or.inl (Or.inl (Or.inr (Or.inr hf)))
      · exact Or.inl (Or.inr hf)
  · intro d b hb
    rcases hbytes d b hb with hb | hb
    · exact hi.stored d b hb
    · exact Or.inr hb

/-- **A step keeps the invariant.** -/
theorem PushInv.step (hcov : Coverage truth h server index leads)
    (hi : PushInv truth h leads server index st r₀ σ) (hs : PushStep server st index σ τ) :
    PushInv truth h leads server index st r₀ τ := by
  have hplace := hi.place
  have hl := hcov.toLeading
  cases hs with
  | job hjobs hstep => exact hi.job hl hjobs hstep
  | @pop ts t hmain hlist =>
    refine ⟨hi.counts, trivial, fun hok _ => ?_, hi.stored⟩
    refine (hi.covered hok (by simp [hmain])).mono hl (y := h) (fun _ hd => hd)
      (fun _ hd => Or.inl hd) ?_ ?_
    · intro q hq
      simp only [PushState.toCheck, hmain, hlist, PushMain.checks, List.mem_append,
        List.append_nil, List.mem_singleton] at hq ⊢
      tauto
    · exact fun f hf => Or.inl (by simpa [PushState.toWrite, PushMain.writes, hmain] using hf)
  | @reports t trees objects hmain hanswer =>
    exact hi.round hl (by simp [hmain]) (by simp [hmain, PushMain.checks])
      (by simp [hmain, PushMain.writes]) (hcov.reports hanswer)
  | unsupported hmain hanswer =>
    exact hi.goto hl (by simp [hmain]) ⟨_, _, hanswer⟩ (by simp [hmain, PushMain.checks])
      (by simp [hmain, PushMain.writes])
  | queryThrows | askTreeThrows | askInodeThrows | rethrow => exact hi.throws
  | @askTree t found hmain hanswer =>
    simp only [PushState.Place, hmain] at hplace
    refine hi.goto hl (by simp [hmain]) ⟨hplace, ?_, fun i hm => Or.inl hm⟩
      (by simp [hmain, PushMain.checks]) (by simp [hmain, PushMain.writes])
    cases found with
    | true => exact Or.inl (hcov.present hplace hanswer)
    | false => exact Or.inr (by simp)
  | @askInode t i todo trees objects found hmain hanswer =>
    simp only [PushState.Place, hmain] at hplace
    refine hi.goto hl (by simp [hmain]) ⟨hplace.1, hplace.2.next fun hf => ?_⟩
      (by simp [hmain, PushMain.checks]) (by simp [hmain, PushMain.writes])
    rw [hf] at hanswer
    exact hcov.present hplace.1 hanswer
  | @asked t trees objects hmain =>
    simp only [PushState.Place, hmain] at hplace
    exact hi.round hl (by simp [hmain]) (by simp [hmain, PushMain.checks])
      (by simp [hmain, PushMain.writes]) fun hin => hcov.asked hplace.1 hin hplace.2
  | enqueueObject hmain =>
    refine hi.spawn hl (by simp [hmain]) rfl trivial ?_ ?_
    · exact fun q hq => Or.inr (by simpa [hmain, PushMain.checks] using hq)
    · simp [hmain, PushMain.writes, PushJob.writes]
  | enqueueTree hmain =>
    refine hi.spawn hl (by simp [hmain]) rfl trivial ?_ ?_
    · simp [hmain, PushMain.checks, PushJob.checks]
    · simp [hmain, PushMain.writes]
  | enqueued hmain | stop hmain | nextRound hmain =>
    exact hi.goto hl (by simp [hmain]) trivial (by simp [hmain, PushMain.checks])
      (by simp [hmain, PushMain.writes])
  | goOn hmain hlist =>
    exact hi.goto hl (by simp [hmain]) (Or.inl hlist) (by simp [hmain, PushMain.checks])
      (by simp [hmain, PushMain.writes])
  | waited hmain hidle hok =>
    exact hi.goto hl (by simp [hmain]) (Or.inr ⟨hidle, hok⟩) (by simp [hmain, PushMain.checks])
      (by simp [hmain, PushMain.writes])
  | leave hmain hlist =>
    simp only [PushState.Place, hmain] at hplace
    exact hi.goto hl (by simp [hmain]) ⟨hlist, hplace.resolve_left fun h => h hlist⟩
      (by simp [hmain, PushMain.checks]) (by simp [hmain, PushMain.writes])

/-! ### The end of a push -/

/-- **When a push has returned the remote has everything**, and no job is pending. -/
theorem PushInv.returned (hl : Leading truth h leads)
    (hi : PushInv truth h leads server index st r₀ σ) (hmain : σ.main = .returned) :
    (∀ u, TreeIn truth h u → σ.remote.Has u ∧ ∀ f, ListsFile truth u f → σ.remote.Has f) ∧
      ∀ j ∈ σ.jobs, j = .done := by
  have hplace := hi.place
  simp only [PushState.Place, hmain] at hplace
  obtain ⟨hlist, hidle, hok⟩ := hplace
  have hdone : ∀ j ∈ σ.jobs, j = .done := by
    intro j hj
    have ho := Pool.Counts.all_done hi.counts hidle hok j hj
    cases j with
    | done => rfl
    | _ => cases ho
  -- nothing is to be checked or written, so what the root leads to is there
  have hcheck : σ.toCheck = [] := by
    rw [PushState.toCheck, hlist, hmain]
    simp only [PushMain.checks, List.nil_append, List.append_nil, List.flatMap_eq_nil_iff]
    intro j hj
    rw [hdone j hj]
    rfl
  have hwrite : σ.toWrite = [] := by
    rw [PushState.toWrite, hmain]
    simp only [PushMain.writes, List.append_nil, List.flatMap_eq_nil_iff]
    intro j hj
    rw [hdone j hj]
    rfl
  have hall : ∀ u, leads σ.remote h u →
      σ.remote.Has u ∧ ∀ f, ListsFile truth u f → σ.remote.Has f := by
    intro u hu
    rcases hi.covered hok (by simp [hmain]) u hu with ⟨q, hq, -⟩ | ⟨hhas, hfiles⟩
    · rw [hcheck] at hq
      cases hq
    · refine ⟨hhas, fun f hf => (hfiles f hf).resolve_right fun hf => ?_⟩
      rw [hwrite] at hf
      cases hf
  exact ⟨fun u hu => hall u (hl.total (fun u hu => (hall u hu).1) u hu), hdone⟩

end Run

/-! ### The two ways of asking -/

section Ways

variable (truth : Digest → Bytes) (h : Digest)

/-- Reachable through trees that the remote has. -/
def Through (r : Remote) : Digest → Digest → Prop :=
  Relation.ReflTransGen fun t u => r.Has t ∧ ListsTree truth t u

/-- **A remote that supports `has_tree`**: it reports a tree it does not have, and of one it
has all objects that are missing and are reachable through trees it has. -/
structure Server.Reports (server : Server) : Prop where
  supported : ∀ r t, ¬ server.hasTree r t .unsupported
  absent : ∀ {r t trees objects}, server.hasTree r t (.reports trees objects) →
    TreeIn truth h t → ¬ r.Has t → t ∈ trees
  trees : ∀ {r t trees objects}, server.hasTree r t (.reports trees objects) →
    TreeIn truth h t → r.Has t → ∀ u, Through truth r t u → ¬ r.Has u → u ∈ trees
  files : ∀ {r t trees objects}, server.hasTree r t (.reports trees objects) →
    TreeIn truth h t → r.Has t → ∀ u f, Through truth r t u → r.Has u → ListsFile truth u f →
    ¬ r.Has f → f ∈ objects

/-- **A remote that does not**: all calls of `has_tree` throw `unsupported_operation`, and
`has_object` does not say of an object that it is there when it is not. -/
structure Server.Unsupported (server : Server) : Prop where
  unsupported : ∀ {r t a}, server.hasTree r t a → a = .unsupported
  present : ∀ {r d}, server.hasObject r d (some true) → r.Has d

/-- The inodes of an index are what is reachable. -/
def ListsTreeOf (index : List Inode) : Prop :=
  ∀ e, e ∈ index.map Inode.entry ↔ ∃ ns r, Reachable truth h ns r ∧ e = (r.reachedBy ns).entry

variable {truth h} {server : Server} {index : List Inode} {H : HashFunction}

theorem TreeIn.listsTree (hm : MerkleTree truth H h) {t u : Digest} (ht : TreeIn truth h t)
    (hu : ListsTree truth t u) : TreeIn truth h u := by
  obtain ⟨r, hr, hd, rfl⟩ := hu
  obtain ⟨ns, hns⟩ := hm.record ht hr
  exact Or.inr ⟨ns, r, hns, hd, rfl⟩

/-- Reaching through the trees that are there is a notion of leading. -/
theorem leading_through (hm : MerkleTree truth H h) : Leading truth h (Through truth) where
  refl _ _ := Relation.ReflTransGen.refl
  trans htu huv := htu.trans huv
  mono hkeep _ _ htu :=
    Relation.ReflTransGen.mono (fun t _ hs => ⟨hkeep t hs.1, hs.2⟩) _ _ htu
  treeIn hu := by
    induction hu with
    | refl => exact Or.inl rfl
    | tail _ hs ih => exact ih.listsTree hm hs.2
  grow hgain u hu := by
    induction hu with
    | refl => exact Or.inl Relation.ReflTransGen.refl
    | @tail t u _ hs ih =>
      rcases ih with ht | ⟨hy, ht⟩
      · rcases hgain t hs.1 with hhas | rfl
        · exact Or.inl (ht.tail ⟨hhas, hs.2⟩)
        · exact Or.inr ⟨ht, Relation.ReflTransGen.single hs⟩
      · exact Or.inr ⟨hy, ht.tail hs⟩
  total := by
    intro r hall u hu
    -- along the way to `u`, from any tree that is reached
    have hway : ∀ {t ns s}, Through truth r h t → Reachable truth t ns s →
        s.isDirectory = true → Through truth r h s.hash := by
      intro t ns s ht hs hd
      induction hs with
      | top mem name => exact ht.tail ⟨hall _ ht, _, mem, hd, rfl⟩
      | deeper mem name dir rest ih => exact ih (ht.tail ⟨hall _ ht, _, mem, dir, rfl⟩) hd
    rcases hu with rfl | ⟨ns, s, hs, hd, rfl⟩
    · exact Relation.ReflTransGen.refl
    · exact hway Relation.ReflTransGen.refl hs hd

/-- The root leads to all trees, any other tree to itself. -/
def ToAll (truth : Digest → Bytes) (h : Digest) (_ : Remote) (t u : Digest) : Prop :=
  t = u ∨ t = h ∧ TreeIn truth h u

theorem leading_toAll : Leading truth h (ToAll truth h) where
  refl _ _ := Or.inl rfl
  trans htu huv := by
    rcases htu with rfl | ⟨rfl, hu⟩
    · exact huv
    · rcases huv with rfl | ⟨-, hv⟩
      · exact Or.inr ⟨rfl, hu⟩
      · exact Or.inr ⟨rfl, hv⟩
  mono _ _ _ htu := htu
  treeIn hu := hu.elim (fun he => Or.inl he.symm) fun hu => hu.2
  grow _ _ hu := Or.inl hu
  total _ _ hu := Or.inr ⟨rfl, hu⟩

theorem coverage_of_reports (hm : MerkleTree truth H h) (hs : server.Reports truth h) :
    Coverage truth h server index (Through truth) where
  toLeading := leading_through hm
  reports := by
    intro r t trees objects hanswer ht u hu
    by_cases hhas : r.Has t
    · refine ⟨?_, fun hhasu f hf => ?_⟩
      · by_cases hhasu : r.Has u
        · exact Or.inl hhasu
        · exact Or.inr (hs.trees hanswer ht hhas u hu hhasu)
      · by_cases hhasf : r.Has f
        · exact Or.inl hhasf
        · exact Or.inr (hs.files hanswer ht hhas u f hu hhasu hf hhasf)
    · -- through an absent tree nothing else is reached
      obtain rfl : t = u := by
        rcases Relation.ReflTransGen.cases_head hu with rfl | ⟨_, hstep, -⟩
        · rfl
        · exact absurd hstep.1 hhas
      exact ⟨Or.inr (hs.absent hanswer ht hhas), fun hhasu => absurd hhasu hhas⟩
  present := fun ⟨r, t, hun⟩ => absurd hun (hs.supported r t)
  asked := fun ⟨r, t, hun⟩ => absurd hun (hs.supported r t)

theorem coverage_of_unsupported (hm : MerkleTree truth H h) (hs : server.Unsupported)
    (hindex : ListsTreeOf truth h index) : Coverage truth h server index (ToAll truth h) where
  toLeading := leading_toAll
  reports hanswer := by cases hs.unsupported hanswer
  present _ _ _ := hs.present
  asked := by
    intro _ r t trees objects ht ha u hu
    -- an inode of the index for everything that is reachable
    have hinode : ∀ {ns s}, Reachable truth h ns s → ∃ i ∈ index, i.hash = s.hash ∧
        i.isDirectory = s.isDirectory ∧ i.isFile = s.isFile := by
      intro ns s hs
      obtain ⟨i, hi, he⟩ := List.mem_map.mp ((hindex _).mpr ⟨ns, s, hs, rfl⟩)
      obtain ⟨-, hstatus, -, hhash⟩ := Inode.entry_eq_iff.mp he
      exact ⟨i, hi, hhash, by rw [Inode.isDirectory, hstatus]; rfl,
        by rw [Inode.isFile, hstatus]; rfl⟩
    have hin : TreeIn truth h u := hu.elim (fun he => he ▸ ht) fun hu => hu.2
    constructor
    · rcases hu with rfl | ⟨rfl, hu⟩
      · exact ha.tree
      · rcases hu with rfl | ⟨ns, s, hs, hd, rfl⟩
        · exact ha.tree
        · obtain ⟨i, hi, hhash, hdir, -⟩ := hinode hs
          rw [← hhash]
          exact ((ha.inodes i hi).resolve_left (by simp)).imp_right fun hi => hi.1 (hdir.trans hd)
    · intro _ f hf
      obtain ⟨s, hs, hfile, rfl⟩ := hf
      obtain ⟨ns, hns⟩ := hm.record hin hs
      obtain ⟨i, hi, hhash, hdir, hfile'⟩ := hinode hns
      have hnot : s.isDirectory = false := by
        simp only [Inode.isFile, decide_eq_true_eq] at hfile
        simp [Inode.isDirectory, hfile]
      rw [← hhash]
      exact ((ha.inodes i hi).resolve_left (by simp)).imp_right fun hi =>
        hi.2 (hdir.trans hnot) (hfile'.trans hfile)

end Ways

/-- **A push that returns has brought everything to the remote.** Whatever the remote had,
whichever way it can be asked, and in whatever order the jobs and the loop take their
steps: when `cache::push` returns, all tree objects and file objects that are reachable
from the root are on the remote, and no job is pending or has failed. They are the true
objects, if those in the local cache are and those that the remote had. -/
theorem push_complete {truth : Digest → Bytes} {H : HashFunction} {h : Digest} {server : Server}
    {index : List Inode} {st : Store} {r₀ : Remote} {σ : PushState} (hm : MerkleTree truth H h)
    (hindex : ListsTreeOf truth h index) (hserver : server.Reports truth h ∨ server.Unsupported)
    (hrun : Reaches (PushStep server st index) (PushState.start r₀ h) σ)
    (hret : σ.main = .returned) :
    (∀ d, TreeIn truth h d ∨ FileIn truth h d → σ.remote.Has d) ∧ (∀ j ∈ σ.jobs, j = .done) ∧
    (st.Agrees truth H → (∀ d b, H.sum (truth d) = d → r₀ d = some b → b = truth d) →
      ∀ d, TreeIn truth h d ∨ FileIn truth h d → σ.remote d = some (truth d)) := by
  obtain ⟨leads, hcov⟩ : ∃ leads, Coverage truth h server index leads := by
    rcases hserver with hs | hs
    · exact ⟨_, coverage_of_reports hm hs⟩
    · exact ⟨_, coverage_of_unsupported hm hs hindex⟩
  have hinv : PushInv truth h leads server index st r₀ σ :=
    hrun.invariant pushInv_start fun _ _ hi hs => hi.step hcov hs
  obtain ⟨hall, hdone⟩ := hinv.returned hcov.toLeading hret
  have hhas : ∀ d, TreeIn truth h d ∨ FileIn truth h d → σ.remote.Has d := by
    rintro d (hd | ⟨ns, r, hr, hfile, rfl⟩)
    · exact (hall d hd).1
    · obtain ⟨t, ht, hmem⟩ := hr.exists_tree
      exact (hall t ht).2 _ ⟨r, hmem, hfile, rfl⟩
  refine ⟨hhas, hdone, fun hst hr₀ d hd => ?_⟩
  obtain ⟨b, hb⟩ := Option.isSome_iff_exists.mp (hhas d hd)
  have hsum : H.sum (truth d) = d := hd.elim (fun hd => (hm.treeIn hd).sum) hm.fileIn
  rcases hinv.stored d b hb with hb' | hb'
  · rw [hb, hr₀ d b hsum hb']
  · rw [hb, hst d b hsum hb'.symm]

/-! ### A push of the sample -/

/-- The listing of a tree lists it. -/
theorem listsTreeOf_listing {truth : Digest → Bytes} {H : HashFunction} {h : Digest} {n : ℕ}
    (hm : MerkleTree truth H h) (hn : HasHeight truth n h) :
    ListsTreeOf truth h (listing truth n [] h) := by
  intro e
  have hmem := fun c => mem_listing hm hn [] (c := c)
  constructor
  · intro he
    obtain ⟨c, hc, rfl⟩ := List.mem_map.mp he
    obtain ⟨ns, r, hr, rfl⟩ := (hmem c).mp hc
    exact ⟨ns, r, hr, rfl⟩
  · rintro ⟨ns, r, hr, rfl⟩
    exact List.mem_map_of_mem ((hmem _).mpr ⟨ns, r, hr, rfl⟩)

namespace Sample

/-- A remote without `has_tree`, which knows what it has. -/
def http : Answers where
  hasTree _ _ := .unsupported
  hasObject r h := some (r h).isSome

theorem http_unsupported : http.server.Unsupported where
  unsupported ha := ha
  present ha := (Option.some.inj ha).symm

set_option maxRecDepth 8000 in
theorem hasHeight_wanted : HasHeight truth 2 wanted := by
  simp only [HasHeight, records_wanted]
  decide

/-- The objects of the sample. -/
def local₀ : Store :=
  ((Store.empty.put (treePath wanted) treeRoot).put (treePath digestD) treeD).put
    (filePath digestX) (ascii ['x'])

/-- What the remote has before the push. -/
def remote₀ : Remote := fun h => if h = digestX then some (ascii ['x']) else none

/-- A push of the sample to the remote. -/
def pushed : PushState :=
  runPush http local₀ (listing truth 2 [] wanted) 60 (PushState.start remote₀ wanted)

set_option maxRecDepth 16000 in
theorem pushed_returned : pushed.main = .returned := by decide

end Sample

/-- What the push of the sample has brought to the remote. -/
theorem push_complete_sample :
    (∀ d, TreeIn Sample.truth Sample.wanted d ∨ FileIn Sample.truth Sample.wanted d →
      Sample.pushed.remote.Has d) ∧
    (∀ j ∈ Sample.pushed.jobs, j = .done) ∧
    (Sample.local₀.Agrees Sample.truth Sample.hash →
      (∀ d b, Sample.hash.sum (Sample.truth d) = d → Sample.remote₀ d = some b →
        b = Sample.truth d) →
      ∀ d, TreeIn Sample.truth Sample.wanted d ∨ FileIn Sample.truth Sample.wanted d →
        Sample.pushed.remote d = some (Sample.truth d)) :=
  push_complete Sample.merkleTree_wanted
    (listsTreeOf_listing Sample.merkleTree_wanted Sample.hasHeight_wanted)
    (Or.inr Sample.http_unsupported)
    (reaches_runPush (PushState.counts_start _ _) 60) Sample.pushed_returned

end Fstree
