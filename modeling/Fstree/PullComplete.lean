import Fstree.MerkleTree
import Fstree.Pull
import Fstree.WriteTree

/-!
# A pull fetches the whole tree

What a `cache::pull` has still to do is written down as the list of the inodes it has
still to append (`Fstree.PullState.pending`): those below the trees and the children
that its jobs and its calling thread hold. As long as no job has failed, every step
keeps the index and this list together: at the start it is the whole tree, so at the
end, when nothing is pending, it is the index (`Fstree.PullInv.conserved`). Objects are
followed in the same way: each inode of the index has its object in the cache, or it is
one of those that some job is about to get (`Fstree.PullInv.stored`).

The number of the inodes that are pending, with what the jobs have in front of them
(`Fstree.PullState.rank`), becomes smaller with each step, and in a state without a step
the calling thread has returned or thrown. So a pull always ends, and where it ends
depends on nothing but whether all objects could be had (`Fstree.pull_complete`).
-/

namespace Fstree

open Pool Transition SortedBy

/-! ### What is still to be done -/

section Pending

variable (truth : Digest → Bytes) (n : ℕ)

/-- The inodes below an inode of a tree. -/
def below (t : Inode) : List Inode := listing truth n t.path t.hash

/-- The inodes of a list of children, each with what is below it. -/
def withBelow (cs : List Inode) : List Inode := cs.flatMap fun c => c :: belowOf truth n c

/-- **The inodes a job has still to append**, by itself or by what comes of it. -/
def PullJob.pending : PullJob → List Inode
  | tree t | askTree t | readTree t => below truth n t
  | treeRead _ cs | walk cs => withBelow truth n cs
  | route c todo => belowOf truth n c ++ withBelow truth n todo
  | _ => []

/-- The inodes the calling thread has still to have appended. -/
def PullState.mainPending (σ : PullState) : List Inode :=
  match σ.main with
  | .fetching todo => todo.flatMap (below truth n)
  | .listing todo => todo.flatMap (withBelow truth n) ++ σ.newTrees.flatMap (below truth n)
  | _ => []

/-- **The inodes that are still to be appended.** -/
def PullState.pending (σ : PullState) : List Inode :=
  σ.jobs.flatMap (PullJob.pending truth n) ++ σ.mainPending truth n

end Pending

/-- The path of the object of an inode: a symlink has none. -/
def Inode.objectKey (c : Inode) : Option Bytes :=
  if c.isSymlink then none
  else if c.isDirectory then some (treePath c.hash) else some (filePath c.hash)

/-- The objects a job is about to get, by itself or by what comes of it. -/
def PullJob.wanted : PullJob → List Bytes
  | tree t | askTree t => [treePath t.hash]
  | route c _ => c.objectKey.toList
  | object h | askObject h => [filePath h]
  | _ => []

/-- The tree objects the calling thread is about to have got. -/
def PullState.mainWanted (σ : PullState) : List Bytes :=
  match σ.main with
  | .fetching todo => todo.map fun t => treePath t.hash
  | .listing _ => σ.newTrees.map fun t => treePath t.hash
  | _ => []

/-- **The objects that are about to be got.** -/
def PullState.wanted (σ : PullState) : List Bytes :=
  σ.jobs.flatMap PullJob.wanted ++ σ.mainWanted

/-- How many steps a job has in front of it, other than those of what it appends. -/
def PullJob.stage : PullJob → ℕ
  | tree _ => 5
  | askTree _ => 4
  | readTree _ => 3
  | treeRead .. => 2
  | walk _ => 1
  | route .. => 10
  | object _ => 2
  | askObject _ => 1
  | _ => 0

section Job

variable {truth : Digest → Bytes} {H : HashFunction} {n : ℕ} {remote : Digest → Bytes → Prop}
  {st : Store} {j : PullJob} {e : PullEffect}

/-- A tree that can be pulled. -/
def Inode.Sound (truth : Digest → Bytes) (H : HashFunction) (n : ℕ) (t : Inode) : Prop :=
  MerkleTree truth H t.hash ∧ HasHeight truth n t.hash

/-- The trees a job holds can be pulled. -/
def PullJob.Sound (truth : Digest → Bytes) (H : HashFunction) (n : ℕ) : PullJob → Prop
  | tree t | askTree t | readTree t => t.Sound truth H n
  | treeRead _ cs | walk cs => ∀ c ∈ cs, c.isDirectory = true → c.Sound truth H n
  | route c todo => ∀ c' ∈ c :: todo, c'.isDirectory = true → c'.Sound truth H n
  | _ => True

theorem isDirectory_of_isSymlink {c : Inode} (h : c.isSymlink = true) : c.isDirectory = false := by
  simp only [Inode.isSymlink, decide_eq_true_eq] at h
  simp [Inode.isDirectory, h]

theorem belowOf_of_not_isDirectory {c : Inode} (h : c.isDirectory = false) :
    belowOf truth n c = [] := by
  simp [belowOf, h]

theorem belowOf_of_isDirectory {c : Inode} (h : c.isDirectory = true) :
    belowOf truth n c = below truth n c := by
  simp [belowOf, h, below]

/-- Reading a tree object that is the true one. -/
theorem readTree_eq_children (hst : st.Agrees truth H) {t : Inode} (hs : t.Sound truth H n)
    {cs : List Inode} (hread : readTree st t = .ok cs) : cs = children truth t.path t.hash := by
  rw [readTree] at hread
  split at hread
  · cases hread
  · rename_i bs hbs
    rw [hst _ _ hs.1.sum (Or.inl hbs)] at hread
    split at hread
    · rename_i heq
      cases hread
      rw [children, heq]
    · cases hread

theorem below_eq {t : Inode} (hs : t.Sound truth H n) :
    below truth n t = withBelow truth n (children truth t.path t.hash) :=
  listing_eq hs.2 _

/-- The directories of a tree that can be pulled can be pulled. -/
theorem Inode.Sound.children {t : Inode} (hs : t.Sound truth H n) :
    ∀ c ∈ children truth t.path t.hash, c.isDirectory = true → c.Sound truth H n := by
  intro c hc hd
  obtain ⟨r, hr, rfl⟩ := mem_children hc
  obtain ⟨hm, hh⟩ := hs
  cases hm with
  | node sum decodes names nodup files dirs => exact ⟨dirs r hr hd, hh.dir (r := r) hr hd⟩

/-- **What a step of a job leaves**: the store holds true objects, the trees it goes on
with can be pulled. -/
theorem PullJobStep.sound (hremote : ∀ d b, remote d b → b = truth d ∧ H.sum b = d)
    (hst : st.Agrees truth H) (hj : j.Sound truth H n) (hs : PullJobStep remote st j e) :
    e.store.Agrees truth H ∧ e.job.Sound truth H n ∧
      (∀ k ∈ e.spawned, k.Sound truth H n) ∧ ∀ t ∈ e.newTrees, t.Sound truth H n := by
  cases hs with
  | treeArrives harrives =>
    obtain ⟨rfl, hsum⟩ := hremote _ _ harrives
    exact ⟨hst.put hsum (Or.inl rfl), hj, by simp, by simp⟩
  | objectArrives harrives =>
    obtain ⟨rfl, hsum⟩ := hremote _ _ harrives
    exact ⟨hst.put hsum (Or.inr rfl), trivial, by simp, by simp⟩
  | treePresent | treeMissing => exact ⟨hst, hj, by simp, by simp⟩
  | treeIsRead hread =>
    refine ⟨hst, ?_, by simp, by simp⟩
    rw [readTree_eq_children hst hj hread]
    exact hj.children
  | append => exact ⟨hst, hj, by simp, by simp⟩
  | @passLink c todo hlink =>
    exact ⟨hst, fun c' hc' => hj c' (List.mem_cons_of_mem _ hc'), by simp, by simp⟩
  | @pushTree c todo hlink hdir =>
    refine ⟨hst, fun c' hc' => hj c' (List.mem_cons_of_mem _ hc'), by simp, ?_⟩
    intro t ht
    rw [List.mem_singleton.mp ht]
    exact hj c List.mem_cons_self hdir
  | @enqueueObject c todo hlink hdir =>
    refine ⟨hst, fun c' hc' => hj c' (List.mem_cons_of_mem _ hc'), ?_, by simp⟩
    intro k hk
    rw [List.mem_singleton.mp hk]
    trivial
  | _ => exact ⟨hst, trivial, by simp, by simp⟩

/-- **A step of a job that does not fail appends what is no longer pending.** -/
theorem PullJobStep.conserved (hst : st.Agrees truth H) (hj : j.Sound truth H n)
    (hs : PullJobStep remote st j e) (hok : e.job.outcome ≠ .failed) :
    (e.inodes ++ (e.job.pending truth n ++ e.spawned.flatMap (PullJob.pending truth n) ++
      e.newTrees.flatMap (below truth n))).Perm (j.pending truth n) := by
  cases hs with
  | treeIsRead hread =>
    simp only [PullJob.pending, readTree_eq_children hst hj hread, below_eq hj, List.flatMap_nil,
      List.append_nil, List.nil_append]
    exact List.Perm.refl _
  | append =>
    simp [PullJob.pending, withBelow]
  | passLink hlink =>
    simp [PullJob.pending, belowOf_of_not_isDirectory (isDirectory_of_isSymlink hlink)]
  | pushTree hlink hdir =>
    simpa [PullJob.pending, belowOf_of_isDirectory hdir] using List.perm_append_comm
  | enqueueObject hlink hdir =>
    simp [PullJob.pending, belowOf_of_not_isDirectory hdir]
  | treeFails | objectFails => exact absurd rfl hok
  | _ => simp [PullJob.pending, withBelow]

theorem Store.isSome_put {k k' b : Bytes} (h : (st k).isSome = true) :
    (st.put k' b k).isSome = true := by
  by_cases hk : k = k'
  · rw [hk, Store.put_self]
    rfl
  · rwa [st.put_of_ne hk]

/-- Objects stay. -/
theorem PullJobStep.isSome (hs : PullJobStep remote st j e) {k : Bytes}
    (h : (st k).isSome = true) : (e.store k).isSome = true := by
  cases hs with
  | treeArrives | objectArrives => exact Store.isSome_put h
  | _ => exact h

/-- **A step of a job that does not fail forgets no object**: one it was about to get is
there, or is still wanted, and so are those of the inodes it appends. -/
theorem PullJobStep.wanted (hs : PullJobStep remote st j e) (hok : e.job.outcome ≠ .failed)
    {k : Bytes} (hk : k ∈ j.wanted ∨ ∃ c ∈ e.inodes, c.objectKey = some k) :
    (e.store k).isSome = true ∨ k ∈ e.job.wanted ∨ k ∈ e.spawned.flatMap PullJob.wanted ∨
      k ∈ e.newTrees.map fun t => treePath t.hash := by
  cases hs with
  | treePresent hobj =>
    obtain rfl : k = _ := by simpa [PullJob.wanted] using hk
    exact Or.inl hobj
  | objectPresent hobj =>
    obtain rfl : k = _ := by simpa [PullJob.wanted] using hk
    exact Or.inl hobj
  | treeArrives | objectArrives =>
    obtain rfl : k = _ := by simpa [PullJob.wanted] using hk
    simp
  | treeMissing | objectMissing | append => exact Or.inr (by simpa [PullJob.wanted] using hk)
  | passLink hlink => simp [PullJob.wanted, Inode.objectKey, hlink] at hk
  | pushTree hlink hdir =>
    obtain rfl : k = _ := by simpa [PullJob.wanted, Inode.objectKey, hlink, hdir] using hk
    simp
  | enqueueObject hlink hdir =>
    obtain rfl : k = _ := by simpa [PullJob.wanted, Inode.objectKey, hlink, hdir] using hk
    simp [PullJob.wanted]
  | treeFails | objectFails => exact absurd rfl hok
  | _ => simp [PullJob.wanted] at hk

/-- What a job costs: its own steps, and those of what it has still to append. -/
def PullJob.cost (truth : Digest → Bytes) (n : ℕ) (j : PullJob) : ℕ :=
  10 * (j.pending truth n).length + j.stage

/-- What a tree of the next level costs. -/
def treeCost (truth : Digest → Bytes) (n : ℕ) (t : Inode) : ℕ :=
  10 * (below truth n t).length + 8

/-- **A step of a job lowers what is left of it.** -/
theorem PullJobStep.cost_lt (hst : st.Agrees truth H) (hj : j.Sound truth H n)
    (hs : PullJobStep remote st j e) :
    e.job.cost truth n + (e.spawned.map (PullJob.cost truth n)).sum +
      (e.newTrees.map (treeCost truth n)).sum < j.cost truth n := by
  cases hs with
  | treeIsRead hread =>
    simp only [PullJob.cost, PullJob.pending, readTree_eq_children hst hj hread, below_eq hj]
    simp [PullJob.stage]
  | treeFails hjob =>
    obtain ⟨t, rfl | rfl | rfl⟩ := hjob <;> simp [PullJob.cost, PullJob.stage, PullJob.pending]
  | objectFails hjob =>
    obtain ⟨d, rfl | rfl⟩ := hjob <;> simp [PullJob.cost, PullJob.stage, PullJob.pending]
  | pushTree hlink hdir =>
    simp [PullJob.cost, PullJob.stage, PullJob.pending, belowOf_of_isDirectory hdir, treeCost]
    omega
  | append =>
    simp [PullJob.cost, PullJob.stage, PullJob.pending, withBelow]
    omega
  | _ =>
    simp [PullJob.cost, PullJob.stage, PullJob.pending]
    try omega

end Job

/-! ### What holds throughout a pull -/

/-- The jobs of the first phase. -/
def PullJob.fetches : PullJob → Bool
  | tree _ | askTree _ | readTree _ | treeRead .. => true
  | _ => false

/-- The jobs of the second phase that go through children. -/
def PullJob.lists : PullJob → Bool
  | walk _ | route .. => true
  | _ => false

/-- The jobs there may be while the calling thread is at this place. -/
def PullMain.Runs : PullMain → PullJob → Prop
  | fetching _, j => j.lists = false
  | listing _, j => j.fetches = false
  | returned, _ => False
  | threw, _ => True

/-- The trees the calling thread holds can be pulled. -/
def PullMain.Sound (truth : Digest → Bytes) (H : HashFunction) (n : ℕ) : PullMain → Prop
  | fetching todo => ∀ t ∈ todo, t.Sound truth H n
  | listing todo => ∀ cs ∈ todo, ∀ c ∈ cs, c.isDirectory = true → c.Sound truth H n
  | _ => True

/-- **What holds throughout a pull of the tree under `h`.** -/
structure PullInv (truth : Digest → Bytes) (H : HashFunction) (n : ℕ) (h : Digest)
    (σ : PullState) : Prop where
  counts : σ.Counts
  agrees : σ.store.Agrees truth H
  jobs : ∀ j ∈ σ.jobs, j.Sound truth H n
  main : σ.main.Sound truth H n
  newTrees : ∀ t ∈ σ.newTrees, t.Sound truth H n
  phase : ∀ j ∈ σ.jobs, σ.main.Runs j
  returned : σ.main = .returned → σ.wg.threw = false
  rethrown : σ.main = .threw → σ.wg.threw = true
  conserved : σ.wg.threw = false →
    (σ.inodes ++ σ.pending truth n).Perm (below truth n (rootInode h))
  stored : σ.wg.threw = false → ∀ c, c = rootInode h ∨ c ∈ σ.inodes → ∀ k,
    c.objectKey = some k → (σ.store k).isSome = true ∨ k ∈ σ.wanted

section Run

variable {truth : Digest → Bytes} {H : HashFunction} {n : ℕ} {h : Digest}
  {remote : Digest → Bytes → Prop} {σ τ : PullState} {st₀ : Store} {j : PullJob} {e : PullEffect}

theorem PullInv.main_ne_threw (hi : PullInv truth H n h σ) (hok : σ.wg.threw = false) :
    σ.main ≠ .threw := fun hm => by
  rw [hi.rethrown hm] at hok
  cases hok

theorem pullInv_start (hm : MerkleTree truth H h) (hn : HasHeight truth n h)
    (hst : st₀.Agrees truth H) : PullInv truth H n h (PullState.start st₀ h) where
  counts := PullState.counts_start st₀ h
  agrees := hst
  jobs _ hj := by cases hj
  main t ht := by
    rw [List.mem_singleton.mp ht]
    exact ⟨hm, hn⟩
  newTrees _ ht := by cases ht
  phase _ hj := by cases hj
  returned hr := by cases hr
  rethrown ht := by cases ht
  conserved _ := by simp [PullState.start, PullState.pending, PullState.mainPending]
  stored _ c hc k hk := by
    obtain rfl : c = rootInode h := by simpa [PullState.start] using hc
    obtain rfl : _ = k := Option.some.inj hk
    exact Or.inr (by simp [PullState.start, PullState.wanted, PullState.mainWanted, rootInode])

/-- A job is followed by one of its phase, and only jobs of the second phase append to
the next level. -/
theorem PullJobStep.phase {m : PullMain} (hs : PullJobStep remote τ.store j e) (hj : m.Runs j) :
    m.Runs e.job ∧ (∀ k ∈ e.spawned, m.Runs k) ∧
      ((∃ todo, m = .fetching todo) → e.newTrees = []) := by
  cases m with
  | returned => exact hj.elim
  | threw => exact ⟨trivial, fun _ _ => trivial, by simp⟩
  | fetching todo =>
    cases hs with
    | append | passLink | pushTree | enqueueObject | walked => cases hj
    | _ => exact ⟨rfl, by simp, fun _ => rfl⟩
  | listing todo =>
    cases hs with
    | treePresent | treeMissing | treeArrives | treeIsRead => cases hj
    | enqueueObject =>
      refine ⟨rfl, fun k hk => ?_, by simp⟩
      rw [List.mem_singleton.mp hk]
      rfl
    | _ => exact ⟨rfl, by simp, by simp⟩

/-- A state after the step of a job. -/
abbrev PullState.after (σ : PullState) (l r : List PullJob) (e : PullEffect) : PullState :=
  { σ with
    store := e.store
    inodes := σ.inodes ++ e.inodes
    newTrees := σ.newTrees ++ e.newTrees
    jobs := (l ++ e.job :: r) ++ e.spawned
    wg := (σ.wg.settle e.job.outcome).add e.spawned.length }

/-- What a job has appended to the next level is pending there. -/
theorem PullState.mainPending_after {l r : List PullJob} (hrun : σ.main.Runs j)
    (hthrew : σ.main ≠ .threw) (hfetch : (∃ todo, σ.main = .fetching todo) → e.newTrees = []) :
    (σ.after l r e).mainPending truth n =
        σ.mainPending truth n ++ e.newTrees.flatMap (below truth n) ∧
      (σ.after l r e).mainWanted = σ.mainWanted ++ e.newTrees.map fun t => treePath t.hash := by
  cases hm : σ.main with
  | fetching todo =>
    simp [PullState.mainPending, PullState.mainWanted, hm, hfetch ⟨todo, hm⟩]
  | listing todo => simp [PullState.mainPending, PullState.mainWanted, hm]
  | returned =>
    rw [hm] at hrun
    exact hrun.elim
  | threw => exact absurd hm hthrew

/-- What a job appends was pending. -/
theorem PullInv.conserved_after (hi : PullInv truth H n h σ) {l r : List PullJob}
    (hjobs : σ.jobs = l ++ j :: r) (hstep : PullJobStep remote σ.store j e)
    (hok : σ.wg.threw = false) (hne : e.job.outcome ≠ .failed)
    (hmain : (σ.after l r e).mainPending truth n =
      σ.mainPending truth n ++ e.newTrees.flatMap (below truth n)) :
    ((σ.after l r e).inodes ++ (σ.after l r e).pending truth n).Perm
      (below truth n (rootInode h)) := by
  have hj : j.Sound truth H n := hi.jobs j (by simp [hjobs])
  have hold := List.perm_iff_count.mp (hi.conserved hok)
  have hnow := List.perm_iff_count.mp (hstep.conserved hi.agrees hj hne)
  rw [List.perm_iff_count]
  intro c
  specialize hold c
  specialize hnow c
  rw [PullState.pending, hmain]
  simp only [PullState.pending, hjobs, List.flatMap_append, List.flatMap_cons,
    List.count_append] at hold hnow ⊢
  omega

/-- What a job was about to get is there or still wanted. -/
theorem PullInv.stored_after (hi : PullInv truth H n h σ) {l r : List PullJob}
    (hjobs : σ.jobs = l ++ j :: r) (hstep : PullJobStep remote σ.store j e)
    (hok : σ.wg.threw = false) (hne : e.job.outcome ≠ .failed)
    (hmain : (σ.after l r e).mainWanted = σ.mainWanted ++ e.newTrees.map fun t => treePath t.hash)
    {c : Inode} (hc : c = rootInode h ∨ c ∈ σ.inodes ++ e.inodes) {k : Bytes}
    (hk : c.objectKey = some k) :
    (e.store k).isSome = true ∨ k ∈ (σ.after l r e).wanted := by
  have hafter : k ∈ (σ.after l r e).wanted ↔
      (((k ∈ l.flatMap PullJob.wanted ∨ k ∈ e.job.wanted ∨ k ∈ r.flatMap PullJob.wanted) ∨
        k ∈ e.spawned.flatMap PullJob.wanted) ∨ k ∈ σ.mainWanted ∨
        k ∈ e.newTrees.map fun t => treePath t.hash) := by
    rw [PullState.wanted, hmain]
    simp only [List.flatMap_append, List.flatMap_cons, List.mem_append]
  have hjob : k ∈ j.wanted ∨ (∃ c ∈ e.inodes, c.objectKey = some k) →
      (e.store k).isSome = true ∨ k ∈ (σ.after l r e).wanted := by
    intro hw
    rw [hafter]
    rcases hstep.wanted hne hw with h1 | h1 | h1 | h1
    · exact Or.inl h1
    · exact Or.inr (Or.inl (Or.inl (Or.inr (Or.inl h1))))
    · exact Or.inr (Or.inl (Or.inr h1))
    · exact Or.inr (Or.inr (Or.inr h1))
  have hold : c = rootInode h ∨ c ∈ σ.inodes →
      (e.store k).isSome = true ∨ k ∈ (σ.after l r e).wanted := by
    intro hc
    rcases hi.stored hok c hc k hk with h1 | h1
    · exact Or.inl (hstep.isSome h1)
    · rw [PullState.wanted, hjobs, List.flatMap_append, List.flatMap_cons, List.mem_append,
        List.mem_append, List.mem_append] at h1
      rcases h1 with (h1 | h1 | h1) | h1
      · exact Or.inr (hafter.mpr (Or.inl (Or.inl (Or.inl h1))))
      · exact hjob (Or.inl h1)
      · exact Or.inr (hafter.mpr (Or.inl (Or.inl (Or.inr (Or.inr h1)))))
      · exact Or.inr (hafter.mpr (Or.inr (Or.inl h1)))
  rcases hc with hc | hc
  · exact hold (Or.inl hc)
  · rcases List.mem_append.mp hc with hc | hc
    · exact hold (Or.inr hc)
    · exact hjob (Or.inr ⟨c, hc, hk⟩)

/-- **The step of a job keeps the invariant.** -/
theorem PullInv.job (hi : PullInv truth H n h σ)
    (hremote : ∀ d b, remote d b → b = truth d ∧ H.sum b = d) {l r : List PullJob}
    (hjobs : σ.jobs = l ++ j :: r) (hstep : PullJobStep remote σ.store j e)
    (hcounts : (σ.after l r e).Counts) : PullInv truth H n h (σ.after l r e) := by
  have hmem : j ∈ σ.jobs := by simp [hjobs]
  obtain ⟨hagrees, hjob, hspawned, hnew⟩ := hstep.sound hremote hi.agrees (hi.jobs j hmem)
  obtain ⟨hrun, hruns, hfetch⟩ := PullJobStep.phase (τ := σ) hstep (hi.phase j hmem)
  have hall : ∀ {P : PullJob → Prop}, (∀ k ∈ σ.jobs, P k) → P e.job → (∀ k ∈ e.spawned, P k) →
      ∀ k ∈ (l ++ e.job :: r) ++ e.spawned, P k := by
    intro P hP hjob hsp k hk
    rw [hjobs] at hP
    simp only [List.mem_append, List.mem_cons] at hk hP
    rcases hk with (hk | rfl | hk) | hk
    · exact hP k (Or.inl hk)
    · exact hjob
    · exact hP k (Or.inr (Or.inr hk))
    · exact hsp k hk
  have hmain : σ.wg.threw = false →
      (σ.after l r e).mainPending truth n =
          σ.mainPending truth n ++ e.newTrees.flatMap (below truth n) ∧
        (σ.after l r e).mainWanted = σ.mainWanted ++ e.newTrees.map fun t => treePath t.hash :=
    fun hok => PullState.mainPending_after (hi.phase j hmem) (hi.main_ne_threw hok) hfetch
  refine ⟨hcounts, hagrees, hall hi.jobs hjob hspawned, hi.main, ?_, hall hi.phase hrun hruns,
    ?_, ?_, ?_, ?_⟩
  · exact fun t ht => (List.mem_append.mp ht).elim (hi.newTrees t) (hnew t)
  · intro hr
    have hp := hi.phase j hmem
    rw [show σ.main = .returned from hr] at hp
    exact hp.elim
  · exact fun ht => WaitGroup.threw_settle (hi.rethrown ht) _
  · intro hok'
    obtain ⟨hok, hne⟩ := WaitGroup.threw_of_settle hok'
    exact hi.conserved_after hjobs hstep hok hne (hmain hok).1
  · intro hok' c hc k hk
    obtain ⟨hok, hne⟩ := WaitGroup.threw_of_settle hok'
    exact hi.stored_after hjobs hstep hok hne (hmain hok).2 hc hk

/-- Jobs that are done hold the children they have read, and nothing else. -/
theorem flatMap_children? {jobs : List PullJob} (hdone : ∀ j ∈ jobs, j.outcome = .done) :
    (jobs.filterMap PullJob.children?).flatMap (withBelow truth n) =
      jobs.flatMap (PullJob.pending truth n) := by
  induction jobs with
  | nil => rfl
  | cons j jobs ih =>
    have hj := hdone j List.mem_cons_self
    have hrest := ih fun k hk => hdone k (List.mem_cons_of_mem _ hk)
    rw [List.flatMap_cons, ← hrest]
    cases j with
    | treeRead t cs => rfl
    | walked | objectThere d => rfl
    | _ => cases hj

theorem wanted_of_done {jobs : List PullJob} (hdone : ∀ j ∈ jobs, j.outcome = .done) :
    jobs.flatMap PullJob.wanted = [] := by
  refine List.flatMap_eq_nil_iff.mpr fun j hj => ?_
  have ho := hdone j hj
  cases j with
  | treeRead | walked | objectThere => rfl
  | _ => cases ho

/-- **A step keeps the invariant.** -/
theorem PullInv.step (hi : PullInv truth H n h σ)
    (hremote : ∀ d b, remote d b → b = truth d ∧ H.sum b = d) (hs : PullStep remote σ τ) :
    PullInv truth H n h τ := by
  have hcounts := hi.counts.step hs
  have hphase := hi.phase
  have hsound := hi.main
  have hconserved := hi.conserved
  have hstored := hi.stored
  cases hs with
  | job hjobs hstep => exact hi.job hremote hjobs hstep hcounts
  | @enqueueTree t todo hmain =>
    simp only [hmain, PullMain.Sound, List.forall_mem_cons] at hsound hphase
    refine ⟨hcounts, hi.agrees, ?_, hsound.2, hi.newTrees, ?_, by simp, by simp, ?_, ?_⟩
    · exact List.forall_mem_append.mpr ⟨hi.jobs, by simpa [PullJob.Sound] using hsound.1⟩
    · exact List.forall_mem_append.mpr ⟨hphase, by simp [PullMain.Runs, PullJob.lists]⟩
    · simpa [PullState.pending, PullState.mainPending, hmain, PullJob.pending] using hconserved
    · simpa [PullState.wanted, PullState.mainWanted, hmain, PullJob.wanted] using hstored
  | treesRead hmain hidle hok =>
    have hdone := Pool.Counts.all_done hi.counts hidle hok
    refine ⟨hcounts, hi.agrees, by simp, ?_, by simp, by simp, by simp, by simp, ?_, ?_⟩
    · intro cs hcs
      obtain ⟨j, hj, hjcs⟩ := List.mem_filterMap.mp hcs
      have hjs := hi.jobs j hj
      cases j with
      | treeRead t cs' =>
        obtain rfl := Option.some.inj hjcs
        exact hjs
      | _ => cases hjcs
    · simpa [PullState.pending, PullState.mainPending, hmain, flatMap_children? hdone]
        using hconserved
    · simpa [PullState.wanted, PullState.mainWanted, hmain, wanted_of_done hdone] using hstored
  | @enqueueWalk cs todo hmain =>
    simp only [hmain, PullMain.Sound, List.forall_mem_cons] at hsound hphase
    refine ⟨hcounts, hi.agrees, ?_, hsound.2, hi.newTrees, ?_, by simp, by simp, ?_, ?_⟩
    · exact List.forall_mem_append.mpr ⟨hi.jobs, by simpa [PullJob.Sound] using hsound.1⟩
    · exact List.forall_mem_append.mpr ⟨hphase, by simp [PullMain.Runs, PullJob.fetches]⟩
    · simpa [PullState.pending, PullState.mainPending, hmain, PullJob.pending] using hconserved
    · simpa [PullState.wanted, PullState.mainWanted, hmain, PullJob.wanted] using hstored
  | nextLevel hmain hidle hok =>
    have hdone := Pool.Counts.all_done hi.counts hidle hok
    have hnone : σ.jobs.flatMap (PullJob.pending truth n) = [] := by
      refine List.flatMap_eq_nil_iff.mpr fun j hj => ?_
      have ho := hdone j hj
      have hp := hphase j hj
      rw [hmain] at hp
      cases j with
      | treeRead => cases hp
      | walked | objectThere => rfl
      | _ => cases ho
    by_cases hnew : σ.newTrees = []
    · simp only [hnew, if_true] at hcounts ⊢
      refine ⟨hcounts, hi.agrees, by simp, trivial, by simp, by simp, fun _ => hok, by simp, ?_, ?_⟩
      · simpa [PullState.pending, PullState.mainPending, hmain, hnone, hnew] using hconserved
      · simpa [PullState.wanted, PullState.mainWanted, hmain, wanted_of_done hdone, hnew] using
          hstored
    · simp only [hnew, if_false] at hcounts ⊢
      refine ⟨hcounts, hi.agrees, by simp, hi.newTrees, hi.newTrees, by simp, by simp, by simp,
        ?_, ?_⟩
      · simpa [PullState.pending, PullState.mainPending, hmain, hnone] using hconserved
      · simpa [PullState.wanted, PullState.mainWanted, hmain, wanted_of_done hdone] using hstored
  | rethrow hmain hidle hfailed =>
    refine ⟨hcounts, hi.agrees, hi.jobs, trivial, hi.newTrees, fun _ _ => trivial, by simp,
      fun _ => hfailed, ?_, ?_⟩
    · exact fun hok => absurd (hok.symm.trans hfailed) (by simp)
    · exact fun hok => absurd (hok.symm.trans hfailed) (by simp)

/-! ### A pull ends -/

/-- What the calling thread has in front of it. -/
def PullState.mainCost (truth : Digest → Bytes) (n : ℕ) (σ : PullState) : ℕ :=
  match σ.main with
  | .fetching todo => 2 + (todo.map fun t => 10 * (below truth n t).length + 6).sum
  | .listing todo =>
    1 + (todo.map fun cs => 10 * (withBelow truth n cs).length + 2).sum +
      (σ.newTrees.map (treeCost truth n)).sum
  | _ => 0

/-- **How many steps there are left**, at most. -/
def PullState.rank (truth : Digest → Bytes) (n : ℕ) (σ : PullState) : ℕ :=
  (σ.jobs.map (PullJob.cost truth n)).sum + σ.mainCost truth n

/-- The calling thread takes over what done jobs have read. -/
theorem sum_children?_le (jobs : List PullJob) :
    ((jobs.filterMap PullJob.children?).map
      fun cs => 10 * (withBelow truth n cs).length + 2).sum ≤
      (jobs.map (PullJob.cost truth n)).sum := by
  induction jobs with
  | nil => rfl
  | cons j jobs ih =>
    cases j with
    | treeRead t cs =>
      simpa [PullJob.children?, PullJob.cost, PullJob.pending, PullJob.stage] using ih
    | _ =>
      rw [List.filterMap_cons_none rfl, List.map_cons, List.sum_cons]
      exact ih.trans (Nat.le_add_left _ _)

/-- **A step lowers the rank.** -/
theorem PullInv.rank_lt (hi : PullInv truth H n h σ) (hs : PullStep remote σ τ) :
    τ.rank truth n < σ.rank truth n := by
  cases hs with
  | @job l j r e hjobs hstep =>
    have hlt := hstep.cost_lt hi.agrees (hi.jobs j (by simp [hjobs]))
    have hmain : (σ.after l r e).mainCost truth n ≤
        σ.mainCost truth n + (e.newTrees.map (treeCost truth n)).sum := by
      cases hm : σ.main <;> simp [PullState.mainCost, hm]
      omega
    change (σ.after l r e).rank truth n < σ.rank truth n
    simp only [PullState.rank, hjobs, List.map_append, List.map_cons, List.sum_append,
      List.sum_cons]
    omega
  | enqueueTree hmain =>
    simp only [PullState.rank, PullState.mainCost, hmain, PullJob.cost, PullJob.pending,
      PullJob.stage, List.map_append, List.map_cons, List.map_nil, List.sum_append, List.sum_cons,
      List.sum_nil]
    omega
  | treesRead hmain hidle hok =>
    have hle : ((σ.jobs.filterMap PullJob.children?).map
        fun cs => 10 * (withBelow truth n cs).length + 2).sum ≤
        (σ.jobs.map (PullJob.cost truth n)).sum := sum_children?_le σ.jobs
    simp only [PullState.rank, PullState.mainCost, hmain, List.map_nil, List.sum_nil]
    omega
  | enqueueWalk hmain =>
    simp only [PullState.rank, PullState.mainCost, hmain, PullJob.cost, PullJob.pending,
      PullJob.stage, List.map_append, List.map_cons, List.map_nil, List.sum_append, List.sum_cons,
      List.sum_nil]
    omega
  | nextLevel hmain hidle hok =>
    by_cases hnew : σ.newTrees = []
    · simp [PullState.rank, PullState.mainCost, hmain, hnew]
    · -- every tree of the next level pays for one step of the calling thread
      have hcost : (σ.newTrees.map (treeCost truth n)).sum =
          (σ.newTrees.map fun t => 10 * (below truth n t).length + 6).sum +
            2 * σ.newTrees.length := by
        induction σ.newTrees with
        | nil => rfl
        | cons t ts ih =>
          simp only [List.map_cons, List.sum_cons, List.length_cons, ih, treeCost]
          ring
      have hpos : 0 < σ.newTrees.length := List.length_pos_iff.mpr hnew
      simp only [PullState.rank, PullState.mainCost, hmain, hnew, if_false, List.map_nil,
        List.sum_nil, hcost]
      omega
  | rethrow hmain hidle hfailed =>
    rcases hmain with hmain | hmain
    all_goals simp [PullState.rank, PullState.mainCost, hmain]

/-- A job that has not ended can take a step. -/
theorem exists_pullJobStep {st : Store} (hj : j.outcome = .running) :
    ∃ e, PullJobStep remote st j e := by
  cases j with
  | tree t =>
    cases hobj : st.hasTree t.hash with
    | true => exact ⟨_, .treePresent hobj⟩
    | false => exact ⟨_, .treeMissing hobj⟩
  | askTree t => exact ⟨_, .treeFails ⟨t, Or.inr (Or.inl rfl)⟩⟩
  | readTree t => exact ⟨_, .treeFails ⟨t, Or.inr (Or.inr rfl)⟩⟩
  | walk todo =>
    cases todo with
    | nil => exact ⟨_, .walked⟩
    | cons c todo => exact ⟨_, .append⟩
  | route c todo =>
    cases hl : c.isSymlink with
    | true => exact ⟨_, .passLink hl⟩
    | false =>
      cases hd : c.isDirectory with
      | true => exact ⟨_, .pushTree hl hd⟩
      | false => exact ⟨_, .enqueueObject hl hd⟩
  | object d => exact ⟨_, .objectFails ⟨d, Or.inl rfl⟩⟩
  | askObject d => exact ⟨_, .objectFails ⟨d, Or.inr rfl⟩⟩
  | _ => cases hj

/-- **A state without a step is an end**: the calling thread has returned or thrown. -/
theorem PullState.Counts.ended (hc : σ.Counts) (hstuck : ∀ τ, ¬ PullStep remote σ τ) :
    σ.main = .returned ∨ σ.main = .threw := by
  have hidle : σ.wg.count ≤ 0 := by
    by_contra hrun
    obtain ⟨l, j, r, hjobs, ho⟩ := Pool.Counts.exists_running hc hrun
    obtain ⟨e, he⟩ : ∃ e, PullJobStep remote σ.store j e := exists_pullJobStep ho
    exact hstuck _ (.job hjobs he)
  cases hmain : σ.main with
  | fetching todo =>
    cases todo with
    | cons t todo => exact absurd (.enqueueTree hmain) (hstuck _)
    | nil =>
      cases ht : σ.wg.threw with
      | true => exact absurd (.rethrow (Or.inl hmain) hidle ht) (hstuck _)
      | false => exact absurd (.treesRead hmain hidle ht) (hstuck _)
  | listing todo =>
    cases todo with
    | cons cs todo => exact absurd (.enqueueWalk hmain) (hstuck _)
    | nil =>
      cases ht : σ.wg.threw with
      | true => exact absurd (.rethrow (Or.inr hmain) hidle ht) (hstuck _)
      | false => exact absurd (.nextLevel hmain hidle ht) (hstuck _)
  | returned => exact Or.inl rfl
  | threw => exact Or.inr rfl

/-! ### Where it ends -/

/-- **What a pull that returns leaves**: the objects of the tree are in the cache, and
the index lists what is reachable, each entry once, at the names on the way to it. -/
structure PullState.Complete (truth : Digest → Bytes) (h : Digest) (σ : PullState) : Prop where
  trees : ∀ d, TreeIn truth h d → σ.store (treePath d) = some (truth d)
  files : ∀ d, FileIn truth h d → σ.store (filePath d) = some (truth d)
  nodup : (σ.inodes.map Inode.path).Nodup
  mem_iff : ∀ c, c ∈ σ.inodes ↔ ∃ ns r, Reachable truth h ns r ∧ c = r.reachedBy ns

theorem PullInv.returned_perm (hi : PullInv truth H n h σ) (hmain : σ.main = .returned) :
    σ.inodes.Perm (listing truth n [] h) ∧ ∀ c, c = rootInode h ∨ c ∈ σ.inodes → ∀ k,
      c.objectKey = some k → (σ.store k).isSome = true := by
  have hjobs : σ.jobs = [] := List.eq_nil_iff_forall_not_mem.mpr fun j hj => by
    have hp := hi.phase j hj
    rw [hmain] at hp
    exact hp
  have hok := hi.returned hmain
  have hconserved := hi.conserved hok
  have hstored := hi.stored hok
  simp only [PullState.pending, PullState.mainPending, PullState.wanted, PullState.mainWanted,
    hjobs, hmain, List.flatMap_nil, List.append_nil, List.not_mem_nil, or_false]
    at hconserved hstored
  exact ⟨hconserved, hstored⟩

/-- **A pull that has returned is complete.** -/
theorem PullInv.complete (hi : PullInv truth H n h σ) (hm : MerkleTree truth H h)
    (hn : HasHeight truth n h) (hmain : σ.main = .returned) : σ.Complete truth h := by
  obtain ⟨hperm, hstored⟩ := hi.returned_perm hmain
  have hmem : ∀ c, c ∈ σ.inodes ↔ ∃ ns r, Reachable truth h ns r ∧ c = r.reachedBy ns := by
    intro c
    rw [hperm.mem_iff]
    exact mem_listing hm hn []
  -- an object that is there is the true one
  have htrue : ∀ k d, H.sum (truth d) = d → k = treePath d ∨ k = filePath d →
      (σ.store k).isSome = true → σ.store k = some (truth d) := by
    intro k d hd hk hsome
    obtain ⟨b, hb⟩ := Option.isSome_iff_exists.mp hsome
    have hat : σ.store (treePath d) = some b ∨ σ.store (filePath d) = some b := by
      rcases hk with rfl | rfl
      · exact Or.inl hb
      · exact Or.inr hb
    rw [hb, hi.agrees d b hd hat]
  refine ⟨fun d hd => ?_, fun d hd => ?_, ?_, hmem⟩
  · refine htrue _ d (hm.treeIn hd).sum (Or.inl rfl) ?_
    rcases hd with rfl | ⟨ns, r, hr, hdir, rfl⟩
    · exact hstored _ (Or.inl rfl) _ rfl
    · have hlink : r.isSymlink = false := by
        simp only [Inode.isDirectory, decide_eq_true_eq] at hdir
        simp [Inode.isSymlink, hdir]
      refine hstored _ (Or.inr ((hmem _).mpr ⟨ns, r, hr, rfl⟩)) _ ?_
      change r.objectKey = _
      simp [Inode.objectKey, hdir, hlink]
  · refine htrue _ d (hm.fileIn hd) (Or.inr rfl) ?_
    obtain ⟨ns, r, hr, hfile, rfl⟩ := hd
    have htype : r.status.type = .regular := by simpa [Inode.isFile] using hfile
    refine hstored _ (Or.inr ((hmem _).mpr ⟨ns, r, hr, rfl⟩)) _ ?_
    change r.objectKey = _
    simp [Inode.objectKey, Inode.isSymlink, Inode.isDirectory, htype]
  · exact (hperm.map _).nodup_iff.mpr (nodup_listing hm hn [])

/-- In every run of a pull that has returned, if the remote answers with the true content. -/
theorem PullState.complete_of_returned (hm : MerkleTree truth H h) (hst : st₀.Agrees truth H)
    (hremote : ∀ d b, remote d b → b = truth d ∧ H.sum b = d)
    (hrun : Reaches (PullStep remote) (PullState.start st₀ h) σ) (hmain : σ.main = .returned) :
    σ.Complete truth h := by
  obtain ⟨n, hn⟩ := hm.exists_height
  have hi : PullInv truth H n h σ :=
    hrun.invariant (pullInv_start hm hn hst) fun _ _ hi hs => hi.step hremote hs
  exact hi.complete hm hn hmain

/-- An exception stays in the wait group. -/
theorem PullStep.threw (hs : PullStep remote σ τ) (ht : σ.wg.threw = true) :
    τ.wg.threw = true := by
  cases hs with
  | job => exact WaitGroup.threw_settle ht _
  | _ => exact ht

end Run

/-- **A pull fetches the whole tree, or throws.** Whatever subset of the objects is in the
cache, and in whatever order the jobs take their steps, if the remote answers with the
true content or not at all: a pull that returns has all objects in the cache and an
index that lists the tree, the same after sorting whatever the order was; every pull
ends, by returning or by an exception; and by an exception if a job has failed, or if
an object that was not in the cache cannot be had from the remote. -/
theorem pull_complete {truth : Digest → Bytes} {H : HashFunction} {h : Digest}
    {remote : Digest → Bytes → Prop} {st₀ : Store} (hm : MerkleTree truth H h)
    (hst : st₀.Agrees truth H) (hremote : ∀ d b, remote d b → b = truth d ∧ H.sum b = d) :
    (∀ σ, Reaches (PullStep remote) (PullState.start st₀ h) σ → σ.main = .returned →
      σ.Complete truth h) ∧
    (∀ σ τ, Reaches (PullStep remote) (PullState.start st₀ h) σ → σ.main = .returned →
      Reaches (PullStep remote) (PullState.start st₀ h) τ → τ.main = .returned →
      sortBy Inode.path σ.inodes = sortBy Inode.path τ.inodes) ∧
    Terminates (PullStep remote) (PullState.start st₀ h) ∧
    ∀ σ τ, Reaches (PullStep remote) (PullState.start st₀ h) σ → Reaches (PullStep remote) σ τ →
      (∀ υ, ¬ PullStep remote τ υ) → (τ.main = .returned ∨ τ.main = .threw) ∧
      (PullJob.failed ∈ σ.jobs ∨
        (∃ d, TreeIn truth h d ∧ st₀ (treePath d) = none ∧ ∀ b, ¬ remote d b) ∨
        (∃ d, FileIn truth h d ∧ st₀ (filePath d) = none ∧ ∀ b, ¬ remote d b) →
        τ.main = .threw) := by
  obtain ⟨n, hn⟩ := hm.exists_height
  have hinv : ∀ σ, Reaches (PullStep remote) (PullState.start st₀ h) σ → PullInv truth H n h σ :=
    fun σ hrun => hrun.invariant (pullInv_start hm hn hst) fun _ _ hi hs => hi.step hremote hs
  refine ⟨fun σ hσ hret => (hinv σ hσ).complete hm hn hret, ?_, ?_, ?_⟩
  · intro σ τ hσ hσret hτ hτret
    have hperm := ((hinv σ hσ).returned_perm hσret).1.trans ((hinv τ hτ).returned_perm hτret).1.symm
    exact sortBy_eq_of_perm ((hinv σ hσ).complete hm hn hσret).nodup hperm
  · exact @terminates_of_rank _ _ _ _ (PullState.rank truth n) (pullInv_start hm hn hst)
      fun u v hi hs => ⟨hi.step hremote hs, hi.rank_lt hs⟩
  · intro σ τ hσ hτ hstuck
    have hiσ := hinv σ hσ
    have hiτ := hinv τ (hσ.trans hτ)
    have hend := PullState.Counts.ended hiτ.counts hstuck
    refine ⟨hend, fun hfail => hend.resolve_left fun hret => ?_⟩
    -- what is in the cache at the end was there or has been answered
    have hstore : PullStoreInv remote st₀ τ :=
      Reaches.invariant (hσ.trans hτ) pullStoreInv_start fun _ _ hi hs => hi.step hs
    have hhad : ∀ k d, H.sum (truth d) = d → τ.store k = some (truth d) → st₀ k = none →
        ∃ b, remote d b := by
      intro k d hd hb hnone
      rcases hstore.answered k _ hb with hb | ⟨d', hanswer, -⟩
      · rw [hnone] at hb
        cases hb
      · obtain rfl : d = d' := hd.symm.trans (hremote _ _ hanswer).2
        exact ⟨_, hanswer⟩
    rcases hfail with hfailed | ⟨d, hd, hnone, hlacks⟩ | ⟨d, hd, hnone, hlacks⟩
    · have hthrew : σ.wg.threw = true := Pool.Counts.threw hiσ.counts _ hfailed rfl
      have hτthrew : τ.wg.threw = true := hτ.invariant hthrew fun _ _ ht hs => hs.threw ht
      rw [hiτ.returned hret] at hτthrew
      cases hτthrew
    · obtain ⟨b, hb⟩ := hhad _ d (hm.treeIn hd).sum
        ((hiτ.complete hm hn hret).trees d hd) hnone
      exact hlacks b hb
    · obtain ⟨b, hb⟩ := hhad _ d (hm.fileIn hd)
        ((hiτ.complete hm hn hret).files d hd) hnone
      exact hlacks b hb

/-! ### A pull of the sample -/

namespace Sample

/-- The digests of the tree object of `d` and of the content of `a`. -/
def digestD : Digest := ⟨.sha1, hexString 40 0xa1b5c0affee79826b4772e11064f51915eaabd26⟩

@[inherit_doc digestD] def digestX : Digest :=
  ⟨.sha1, hexString 40 0x11f6ad8ec52a2984abaafd7c3b516503785c2072⟩

/-- What is stored under the digests of the sample. -/
def truth (h : Digest) : Bytes :=
  if h = wanted then treeRoot else if h = digestD then treeD else ascii ['x']

set_option maxRecDepth 8000 in
theorem records_wanted : records truth wanted =
    [((scanned [] a (.file 0o644 2 (ascii ['x']))).setHash digestX).decoded [],
      ((scanned [] d (.dir 0o755 3 0)).setHash digestD).decoded []] := by decide

set_option maxRecDepth 8000 in
theorem records_digestD : records truth digestD =
    [(scanned (ascii ['d']) l (.symlink 4 (ascii ['x']))).decoded []] := by decide

set_option maxRecDepth 8000 in
theorem merkleTree_digestD : MerkleTree truth hash digestD := by
  refine .node (by decide) (by decide) ?_ ?_ ?_ ?_ <;> rw [records_digestD]
  · exact List.forall_mem_singleton.mpr ⟨l, rfl⟩
  · decide
  · decide
  · exact List.forall_mem_singleton.mpr fun h => absurd h (by decide)

set_option maxRecDepth 8000 in
theorem merkleTree_wanted : MerkleTree truth hash wanted := by
  refine .node (by decide) (by decide) ?_ ?_ ?_ ?_ <;> rw [records_wanted]
  · exact List.forall_mem_cons.mpr ⟨⟨a, rfl⟩, List.forall_mem_singleton.mpr ⟨d, rfl⟩⟩
  · decide
  · decide
  · exact List.forall_mem_cons.mpr ⟨fun h => absurd h (by decide),
      List.forall_mem_singleton.mpr fun _ => merkleTree_digestD⟩

/-- A cache with the tree object of `d`. -/
def partly : Store := Store.empty.put (treePath digestD) (truth digestD)

theorem agrees_partly : partly.Agrees truth hash :=
  Store.Agrees.put (fun _ _ _ hb => by cases hb <;> contradiction) merkleTree_digestD.sum
    (Or.inl rfl)

/-- A remote that has what is stored under the digests of the sample. -/
def honest (h : Digest) : Option Bytes := if hash.sum (truth h) = h then some (truth h) else none

theorem honest_true {h : Digest} {b : Bytes} (hb : honest h = some b) :
    b = truth h ∧ hash.sum b = h := by
  rw [honest] at hb
  split_ifs at hb with hsum
  obtain rfl := Option.some.inj hb
  exact ⟨rfl, hsum⟩

/-- A pull of the sample from it. -/
def fetched : PullState := runPull honest 60 (PullState.start partly wanted)

theorem reaches_fetched :
    Reaches (PullStep fun h b => honest h = some b) (PullState.start partly wanted) fetched :=
  reaches_runPull (PullState.counts_start _ _) 60

set_option maxRecDepth 16000 in
theorem fetched_returned : fetched.main = .returned := by decide

end Sample

/-- The pull of the sample into a cache that has one of its objects is complete, and no
pull of it goes on for ever. -/
theorem pull_complete_sample : Sample.fetched.Complete Sample.truth Sample.wanted ∧
    Terminates (PullStep fun h b => Sample.honest h = some b)
      (PullState.start Sample.partly Sample.wanted) := by
  have h := pull_complete Sample.merkleTree_wanted Sample.agrees_partly
    fun h b (hb : Sample.honest h = some b) => Sample.honest_true hb
  exact ⟨h.1 _ Sample.reaches_fetched Sample.fetched_returned, h.2.2.1⟩

end Fstree
