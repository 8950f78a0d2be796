import Fstree.Checkout
import Fstree.MerkleTree
import Fstree.Pull

/-!
# What names in a tree can do to a workspace

The names in a tree object are joined to the path of the directory with the rules of
`std::filesystem::path`, and nobody looks at them. If they are names of directory entries
(`Fstree.CleanName`), the inodes of the index are one name below their parents
(`Fstree.Inode.Confined`), and the checkout only names paths below the workspace
(`Fstree.checkout_confined`). If one of them is not, the index has an inode that is not
confined; with an absolute path for a name it may be anywhere
(`Fstree.index_not_confined`).
-/

namespace Fstree

open Codec SortedBy Effect Transition

/-! ### Clean names -/

/-- **A clean name**: one component, other than `.` and `..`. -/
def CleanName (c : Bytes) : Prop := c ≠ [] ∧ slash ∉ c ∧ c ≠ [dot] ∧ c ≠ [dot, dot]

instance (c : Bytes) : Decidable (CleanName c) := inferInstanceAs (Decidable (_ ∧ _))

/-- **A clean path**, which leads down from where it begins. -/
def CleanPath (p : Bytes) : Prop := ∃ ns : List Name, ns ≠ [] ∧ (∀ n ∈ ns, n.Plain) ∧ p = pathStr ns

/-- **A confined inode**: its path is that of its parent, followed by one clean name. -/
def Inode.Confined (i : Inode) : Prop :=
  ∃ p c, i.parent = some p ∧ CleanName c ∧ i.path = if p = [] then c else p ++ slash :: c

/-- The names in a tree object, as far as it can be read. -/
def recordNames (bs : Bytes) : List Bytes := (decodeTree [] bs).1.map Inode.path

theorem CleanName.exists_name {c : Bytes} (h : CleanName c) : ∃ n : Name, n.bytes = c ∧ n.Plain :=
  ⟨⟨c, h.1, h.2.1⟩, rfl, h.2.2⟩

/-- The directories that are read: the root of the tree, and those at clean paths. -/
def CleanDir (p : Bytes) : Prop := ∃ ns : List Name, (∀ n ∈ ns, n.Plain) ∧ p = pathStr ns

theorem cleanDir_nil : CleanDir [] := ⟨[], by simp, rfl⟩

theorem CleanPath.cleanDir {p : Bytes} (h : CleanPath p) : CleanDir p := by
  obtain ⟨ns, -, hns, rfl⟩ := h
  exact ⟨ns, hns, rfl⟩

/-- **A record is confined if its name is clean**, in a directory at a clean path. -/
theorem confined_under_iff {p : Bytes} (hp : CleanDir p) {r : Inode} :
    (r.under p).Confined ↔ CleanName r.path := by
  obtain ⟨ns, -, rfl⟩ := hp
  constructor
  · rintro ⟨q, c, hq, hc, hpath⟩
    obtain rfl : pathStr ns = q := Option.some.inj hq
    have hslash : ¬ c.head? = some slash := fun h => hc.2.1 (List.mem_of_head? h)
    suffices r.path = c by rwa [this]
    by_cases hns : ns = []
    · simp only [Inode.under, hns, pathStr_nil, joinPath, if_true] at hpath
      simpa using hpath
    · have hne : pathStr ns ≠ [] := mt pathStr_eq_nil.mp hns
      rw [if_neg hne] at hpath
      simp only [Inode.under, joinPath, hne, pathStr_getLast?_ne, or_self, if_false] at hpath
      split_ifs at hpath with habs
      · -- an absolute name is a path that begins with a separator
        rw [hpath, List.head?_append_of_ne_nil _ hne] at habs
        exact absurd habs (pathStr_head?_ne ns)
      · exact (List.cons.inj (List.append_cancel_left hpath)).2
  · intro h
    obtain ⟨n, hn, -⟩ := h.exists_name
    refine ⟨_, _, rfl, h, ?_⟩
    simp only [Inode.under, ← hn, joinPath_pathStr]
    by_cases hns : ns = []
    · simp [hns]
    · simpa [hns] using pathStr_concat hns n

theorem Inode.Confined.cleanPath {i : Inode} (h : i.Confined) {p : Bytes} (hp : i.parent = some p)
    (hd : CleanDir p) : CleanPath i.path := by
  obtain ⟨q, c, hq, hc, hpath⟩ := h
  obtain rfl : p = q := Option.some.inj (by rw [← hp, ← hq])
  obtain ⟨ns, hns, rfl⟩ := hd
  obtain ⟨n, rfl, hn⟩ := hc.exists_name
  refine ⟨ns ++ [n], by simp, by simpa [or_imp, forall_and] using ⟨hns, hn⟩, ?_⟩
  rw [hpath]
  by_cases hnil : ns = []
  · simp [hnil]
  · simpa [hnil] using (pathStr_concat hnil n).symm

/-! ### Reading trees -/

section Read

variable {st : Store} {sched : Schedule}

/-- **What `read_tree` gives**: the records of the tree object. -/
theorem readTree_eq_map {t : Inode} {l : List Inode} (h : readTree st t = .ok l) :
    ∃ bs, st (treePath t.hash) = some bs ∧ l = (decodeTree [] bs).1.map (Inode.under t.path) := by
  obtain ⟨bs, hbs, hdecode⟩ := readTree_eq_ok.mp h
  rw [decodeTree_under] at hdecode
  exact ⟨bs, hbs, (congrArg Prod.fst hdecode).symm⟩

/-- **The names in a tree object are clean.** -/
def CleanTree (st : Store) (t : Inode) : Prop :=
  ∀ bs, st (treePath t.hash) = some bs → ∀ c ∈ recordNames bs, CleanName c

/-- The children of a directory at a clean path are confined if and only if the names in
its tree object are clean. -/
theorem confined_readTree_iff {t : Inode} {l : List Inode} (ht : CleanDir t.path)
    (h : readTree st t = .ok l) : (∀ i ∈ l, i.Confined) ↔ CleanTree st t := by
  obtain ⟨bs, hbs, rfl⟩ := readTree_eq_map h
  simp only [List.forall_mem_map, confined_under_iff ht, CleanTree, recordNames]
  exact ⟨fun hl b hb => Option.some.inj (hbs.symm.trans hb) ▸ hl, fun hl => hl bs hbs⟩

theorem parent_of_mem_readTree {t : Inode} {l : List Inode} (h : readTree st t = .ok l) {i : Inode}
    (hi : i ∈ l) : i.parent = some t.path := by
  obtain ⟨bs, -, rfl⟩ := readTree_eq_map h
  obtain ⟨r, -, rfl⟩ := List.mem_map.mp hi
  rfl

/-- The inodes of a level are confined if and only if the names in its tree objects are
clean; and then they are at clean paths. -/
theorem confined_readLevel_iff {ts l : List Inode} (hts : ∀ t ∈ ts, CleanDir t.path)
    (h : readLevel st ts = .ok l) : ((∀ i ∈ l, i.Confined) ↔ ∀ t ∈ ts, CleanTree st t) ∧
      ∀ i ∈ l, i.Confined → CleanPath i.path := by
  induction ts generalizing l with
  | nil =>
    obtain rfl := Except.ok.inj h
    simp
  | cons t ts ih =>
    obtain ⟨l₁, l₂, h₁, h₂, rfl⟩ := readLevel_cons_eq_ok.mp h
    obtain ⟨ht, hts⟩ := List.forall_mem_cons.mp hts
    obtain ⟨hiff, hpath⟩ := ih hts h₂
    refine ⟨?_, fun i hi hc => ?_⟩
    · rw [List.forall_mem_append, List.forall_mem_cons, hiff, confined_readTree_iff ht h₁]
    · rcases List.mem_append.mp hi with hi | hi
      · exact hc.cleanPath (parent_of_mem_readTree h₁ hi) ht
      · exact hpath i hi hc

/-- The index is only appended to. -/
theorem readLevels_eq (fuel n : ℕ) (ts index : List Inode) :
    readLevels st sched fuel n ts index =
      (readLevels st sched fuel n ts []).map (Except.map (index ++ ·)) := by
  induction fuel generalizing n ts index with
  | zero => cases ts <;> simp [readLevels, Except.map]
  | succ fuel ih =>
    cases ts with
    | nil => simp [readLevels, Except.map]
    | cons t ts =>
      rw [readLevels, readLevels]
      cases readLevel st (t :: ts) with
      | error e => rfl
      | ok children =>
        simp only [List.nil_append]
        rw [ih, ih _ _ (sched.order n children), Option.map_map]
        refine congrArg (fun f => Option.map f _) (funext fun r => ?_)
        cases r with
        | error e => rfl
        | ok l => simp [Except.map]

theorem readLevels_cons_eq_ok {fuel n : ℕ} {t : Inode} {ts l : List Inode}
    (h : readLevels st sched (fuel + 1) n (t :: ts) [] = some (.ok l)) :
    ∃ children below, readLevel st (t :: ts) = .ok children ∧
      readLevels st sched fuel (n + 1) ((sched.order n children).filter Inode.isDirectory) [] =
        some (.ok below) ∧ l = sched.order n children ++ below := by
  rw [readLevels] at h
  cases hread : readLevel st (t :: ts) with
  | error e =>
    rw [hread] at h
    cases h
  | ok children =>
    rw [hread] at h
    simp only [List.nil_append] at h
    rw [readLevels_eq, Option.map_eq_some_iff] at h
    obtain ⟨r, hr, he⟩ := h
    cases r with
    | error e => cases he
    | ok below => exact ⟨children, below, rfl, hr, (Except.ok.inj he).symm⟩

/-- **The loop over the levels.** What it appends is confined if and only if the names in
the tree objects it reads are clean: those of the level it begins with, and of the
directories it appends. The induction is on the levels. -/
theorem confined_readLevels_iff {fuel n : ℕ} {ts l : List Inode}
    (hts : ∀ t ∈ ts, CleanDir t.path) (h : readLevels st sched fuel n ts [] = some (.ok l)) :
    ((∀ i ∈ l, i.Confined) ↔
        ∀ t, t ∈ ts ∨ t ∈ l ∧ t.isDirectory = true → CleanTree st t) ∧
      ((∀ i ∈ l, i.Confined) → ∀ i ∈ l, CleanPath i.path) := by
  induction fuel generalizing n ts l with
  | zero =>
    cases ts with
    | nil =>
      obtain rfl := Except.ok.inj (Option.some.inj h)
      simp
    | cons t ts => cases h
  | succ fuel ih =>
    cases ts with
    | nil =>
      obtain rfl := Except.ok.inj (Option.some.inj h)
      simp
    | cons t ts =>
      obtain ⟨children, below, hread, hbelow, rfl⟩ := readLevels_cons_eq_ok h
      obtain ⟨hiff, hpath⟩ := confined_readLevel_iff hts hread
      have hmem : ∀ i, i ∈ sched.order n children ↔ i ∈ children := fun i =>
        (sched.perm n children).mem_iff
      simp only [List.mem_append, hmem]
      by_cases hchildren : ∀ i ∈ children, i.Confined
      · have hdirs : ∀ t ∈ (sched.order n children).filter Inode.isDirectory, CleanDir t.path := by
          intro d hd
          have hd' := (hmem d).mp (List.mem_filter.mp hd).1
          exact (hpath d hd' (hchildren d hd')).cleanDir
        obtain ⟨hiff', hpath'⟩ := ih hdirs hbelow
        simp only [List.mem_filter, hmem] at hiff'
        refine ⟨⟨fun hc t ht => ?_, fun hc i hi => ?_⟩, fun hc i hi => ?_⟩
        · rcases ht with ht | ⟨ht | ht, hd⟩
          · exact hiff.mp hchildren t ht
          · exact hiff'.mp (fun i hi => hc i (Or.inr hi)) t (Or.inl ⟨ht, hd⟩)
          · exact hiff'.mp (fun i hi => hc i (Or.inr hi)) t (Or.inr ⟨ht, hd⟩)
        · rcases hi with hi | hi
          · exact hchildren i hi
          · refine hiff'.mpr (fun t ht => hc t (Or.inr ?_)) i hi
            exact ht.elim (fun h => ⟨Or.inl h.1, h.2⟩) fun h => ⟨Or.inr h.1, h.2⟩
        · rcases hi with hi | hi
          · exact hpath i hi (hchildren i hi)
          · exact hpath' (fun i hi => hc i (Or.inr hi)) i hi
      · -- a name in a tree object of this level is not clean
        have hnot : ¬ ∀ i, i ∈ children ∨ i ∈ below → i.Confined := fun hc =>
          hchildren fun i hi => hc i (Or.inl hi)
        refine ⟨⟨fun hc => absurd hc hnot, fun hc => ?_⟩, fun hc => absurd hc hnot⟩
        exact absurd (hiff.mpr fun t ht => hc t (Or.inl ht)) hchildren

end Read

/-! ### Pulling trees -/

section Pull

variable {remote : Digest → Bytes → Prop} {st₀ : Store} {h : Digest} {σ τ : PullState}

/-- **The tree objects a pull may read**: what is in the cache, and the answers of the
remote. -/
def TreeServed (remote : Digest → Bytes → Prop) (st₀ : Store) (b : Bytes) : Prop :=
  (∃ d, st₀ (treePath d) = some b) ∨ ∃ d, remote d b

/-- **What is served is clean**, if `operator>>` accepts it. -/
def CleanServed (remote : Digest → Bytes → Prop) (st₀ : Store) : Prop :=
  ∀ b, TreeServed remote st₀ b → (decodeTree [] b).2 = none → ∀ c ∈ recordNames b, CleanName c

/-- An inode that is confined, at a clean path. -/
def Inode.Fit (i : Inode) : Prop := i.Confined ∧ CleanPath i.path

/-- What holds of the inodes a job works on. -/
def PullJob.Fit : PullJob → Prop
  | tree t | askTree t | readTree t => CleanDir t.path
  | treeRead _ children => ∀ c ∈ children, c.Fit
  | walk todo => ∀ c ∈ todo, c.Fit
  | route c todo => c.Fit ∧ ∀ c ∈ todo, c.Fit
  | _ => True

/-- What holds of the inodes the calling thread works on. -/
def PullMain.Fit : PullMain → Prop
  | fetching todo => ∀ t ∈ todo, CleanDir t.path
  | listing todo => ∀ children ∈ todo, ∀ c ∈ children, c.Fit
  | _ => True

/-- **Every inode a pull works on is fit.** -/
structure PullState.Fit (σ : PullState) : Prop where
  inodes : ∀ i ∈ σ.inodes, i.Fit
  newTrees : ∀ t ∈ σ.newTrees, CleanDir t.path
  jobs : ∀ j ∈ σ.jobs, j.Fit
  main : σ.main.Fit

/-- A tree object that is read in a state of a pull was served. -/
theorem PullStoreInv.treeServed (hi : PullStoreInv remote st₀ σ) {d : Digest} {b : Bytes}
    (hb : σ.store (treePath d) = some b) : TreeServed remote st₀ b := by
  rcases hi.answered _ _ hb with hb | ⟨d', hb, -⟩
  · exact Or.inl ⟨d, hb⟩
  · exact Or.inr ⟨d', hb⟩

/-- What is read is fit. -/
theorem fit_of_readTree (hclean : CleanServed remote st₀) (hi : PullStoreInv remote st₀ σ)
    {t : Inode} {l : List Inode} (ht : CleanDir t.path) (h : readTree σ.store t = .ok l) :
    ∀ c ∈ l, c.Fit := by
  have hacc : ∀ bs, σ.store (treePath t.hash) = some bs → (decodeTree [] bs).2 = none := by
    intro bs hbs
    simp only [readTree, hbs, decodeTree_under t.path] at h
    cases he : (decodeTree [] bs).2 with
    | none => rfl
    | some e =>
      rw [he] at h
      cases h
  have hconf : ∀ c ∈ l, c.Confined := (confined_readTree_iff ht h).mpr fun bs hbs =>
    hclean bs (hi.treeServed hbs) (hacc bs hbs)
  exact fun c hc => ⟨hconf c hc, (hconf c hc).cleanPath (parent_of_mem_readTree h hc) ht⟩

/-- One step of a job keeps what it works on fit. -/
theorem PullJobStep.fit (hclean : CleanServed remote st₀) (hi : PullStoreInv remote st₀ σ)
    {j : PullJob} {e : PullEffect} (hs : PullJobStep remote σ.store j e) (hj : j.Fit) :
    e.job.Fit ∧ (∀ i ∈ e.inodes, i.Fit) ∧ (∀ t ∈ e.newTrees, CleanDir t.path) ∧
      ∀ k ∈ e.spawned, k.Fit := by
  cases hs with
  | treePresent | treeMissing | treeArrives => exact ⟨hj, by simp, by simp, by simp⟩
  | treeIsRead hread => exact ⟨fit_of_readTree hclean hi hj hread, by simp, by simp, by simp⟩
  | append =>
    obtain ⟨hc, hl⟩ := List.forall_mem_cons.mp hj
    exact ⟨⟨hc, hl⟩, by simpa using hc, by simp, by simp⟩
  | passLink => exact ⟨hj.2, by simp, by simp, by simp⟩
  | pushTree => exact ⟨hj.2, by simp, by simpa using hj.1.2.cleanDir, by simp⟩
  | enqueueObject => exact ⟨hj.2, by simp, by simp, by simp [PullJob.Fit]⟩
  | _ => exact ⟨trivial, by simp, by simp, by simp⟩

theorem PullState.fit_start : (PullState.start st₀ h).Fit where
  inodes := by simp [PullState.start]
  newTrees := by simp [PullState.start]
  jobs := by simp [PullState.start]
  main := fun t ht => by
    obtain rfl := List.mem_singleton.mp ht
    exact cleanDir_nil

theorem PullState.Fit.step (hclean : CleanServed remote st₀) (hi : PullStoreInv remote st₀ σ)
    (h : σ.Fit) (hs : PullStep remote σ τ) : τ.Fit := by
  obtain ⟨hinodes, htrees, hjobs, hmain⟩ := h
  cases hs with
  | @job l j r e hl hstep =>
    rw [hl] at hjobs
    obtain ⟨hj, hin, hnt, hsp⟩ := hstep.fit hclean hi (hjobs j (by simp))
    refine ⟨List.forall_mem_append.mpr ⟨hinodes, hin⟩, List.forall_mem_append.mpr ⟨htrees, hnt⟩,
      List.forall_mem_append.mpr ⟨?_, hsp⟩, hmain⟩
    obtain ⟨hleft, hright⟩ := List.forall_mem_append.mp hjobs
    exact List.forall_mem_append.mpr
      ⟨hleft, List.forall_mem_cons.mpr ⟨hj, (List.forall_mem_cons.mp hright).2⟩⟩
  | @enqueueTree t todo hm =>
    rw [hm] at hmain
    obtain ⟨ht, htodo⟩ := List.forall_mem_cons.mp hmain
    exact ⟨hinodes, htrees, List.forall_mem_append.mpr ⟨hjobs, by simpa [PullJob.Fit] using ht⟩,
      htodo⟩
  | treesRead =>
    refine ⟨hinodes, by simp, by simp, fun children hc => ?_⟩
    obtain ⟨j, hj, hjc⟩ := List.mem_filterMap.mp hc
    have hfit := hjobs j hj
    cases j with
    | treeRead t cs =>
      obtain rfl := Option.some.inj hjc
      exact hfit
    | _ => cases hjc
  | @enqueueWalk children todo hm =>
    rw [hm] at hmain
    obtain ⟨hc, htodo⟩ := List.forall_mem_cons.mp hmain
    exact ⟨hinodes, htrees, List.forall_mem_append.mpr ⟨hjobs, by simpa [PullJob.Fit] using hc⟩,
      htodo⟩
  | nextLevel =>
    refine ⟨hinodes, htrees, by simp, ?_⟩
    change PullMain.Fit (if σ.newTrees = [] then .returned else .fetching σ.newTrees)
    split_ifs
    · trivial
    · exact htrees
  | rethrow => exact ⟨hinodes, htrees, hjobs, trivial⟩

/-- **A pull of clean trees lists fit inodes.** -/
theorem fit_of_pull (hclean : CleanServed remote st₀)
    (hrun : Reaches (PullStep remote) (PullState.start st₀ h) σ) : ∀ i ∈ σ.inodes, i.Fit := by
  have hinv : PullStoreInv remote st₀ σ ∧ σ.Fit :=
    hrun.invariant ⟨pullStoreInv_start, PullState.fit_start⟩
      fun u v (hi : PullStoreInv remote st₀ u ∧ u.Fit) hs =>
        ⟨hi.1.step hs, hi.2.step hclean hi.1 hs⟩
  exact hinv.2.inodes

end Pull

/-! ### Checking out -/

section Checkout

variable {os : OS} {st : Store} {root : List Name}

/-- **Below the workspace**, as far as the path string says. -/
def Below (root : List Name) (p : Bytes) : Prop :=
  ∃ ns : List Name, ns ≠ [] ∧ (∀ n ∈ ns, n.Plain) ∧ p = absPath (root ++ ns)

/-- Every call names a path below the workspace. -/
def CallsBelow (root : List Name) (w : World) : Prop := ∀ op ∈ w.log, Below root op.path

theorem joinPath_absPath (root : List Name) {ns : List Name} (hns : ns ≠ []) :
    joinPath (absPath root) (pathStr ns) = absPath (root ++ ns) := by
  rw [joinPath, if_neg (pathStr_head?_ne ns)]
  by_cases hr : root = []
  · simp [hr, absPath]
  · have hlast : (absPath root).getLast? ≠ some slash := by
      obtain ⟨b, bs, hb⟩ := List.exists_cons_of_ne_nil (mt pathStr_eq_nil.mp hr)
      have h := pathStr_getLast?_ne root
      rw [hb] at h
      rw [absPath, hb, List.getLast?_cons_cons]
      exact h
    rw [if_neg (by simpa [absPath] using hlast), absPath, absPath, pathStr_append hr hns]
    rfl

theorem fullPath_snoc {root up : List Name} {n : Name} {i : Inode}
    (h : i.path = pathStr (up ++ [n])) : fullPath root i = absPath (root ++ up ++ [n]) := by
  rw [fullPath, h, joinPath_absPath root (by simp), List.append_assoc]

theorem CleanPath.below {node : Inode} (h : CleanPath node.path) :
    Below root (fullPath root node) := by
  obtain ⟨ns, hne, hns, hp⟩ := h
  exact ⟨ns, hne, hns, by rw [fullPath, hp, joinPath_absPath root hne]⟩

theorem ensures_call {what : String} {path : Bytes} {op : FileOp} (h : Below root op.path) :
    Ensures (CallsBelow root) (fun _ => True) (call os st what path op) := by
  intro w hw
  have hlog : ∀ op' ∈ w.log ++ [op], Below root op'.path :=
    List.forall_mem_append.mpr ⟨hw, by simpa using h⟩
  refine ⟨?_, fun _ _ _ => trivial⟩
  rw [call]
  split <;> exact hlog

theorem ensures_stat {I : World → Prop} {node : Inode} :
    Ensures I (fun i => i.path = node.path) (stat root node) := by
  intro w hw
  rw [stat]
  split
  · split
    · exact ⟨hw, fun _ _ he => (EStateM.Result.ok.inj he).1 ▸ rfl⟩
    · exact ⟨hw, nofun⟩
  · exact ⟨hw, nofun⟩
  · exact ⟨hw, nofun⟩

/-- **What every call at the path of an inode keeps**, `checkout_node` does. -/
theorem ensures_makeNode_of_call {I : World → Prop} {node : Inode}
    (h : ∀ what op, op.path = fullPath root node →
      Ensures I (fun _ => True) (call os st what (fullPath root node) op)) :
    Ensures I (fun _ => True) (makeNode os st root node) := by
  rw [makeNode]
  refine Ensures.ite (fun _ => ?_) fun _ => Ensures.ite (fun _ => ?_) fun _ =>
    Ensures.ite (fun _ => ?_) fun _ => Ensures.pure trivial
  · exact (h _ _ rfl).bind fun _ _ => h _ _ rfl
  · exact (h _ _ rfl).bind fun _ _ => h _ _ rfl
  · exact (h _ _ rfl).bind fun _ _ => (h _ _ rfl).bind fun _ _ => h _ _ rfl

theorem ensures_checkoutNode_of_call {I : World → Prop} {node : Inode}
    (h : ∀ what op, op.path = fullPath root node →
      Ensures I (fun _ => True) (call os st what (fullPath root node) op)) :
    Ensures I (fun i => i.path = node.path) (checkoutNode os st root node) :=
  (ensures_makeNode_of_call h).bind fun _ _ => ensures_stat

theorem ensures_checkoutRest_of_call {I : World → Prop} {is : List Inode}
    (h : ∀ i ∈ is, ∀ what op, op.path = fullPath root i →
      Ensures I (fun _ => True) (call os st what (fullPath root i) op)) :
    Ensures I (fun _ => True) (checkoutRest os st root is) := by
  induction is with
  | nil => exact Ensures.pure trivial
  | cons i is ih =>
    obtain ⟨hi, his⟩ := List.forall_mem_cons.mp h
    exact (ensures_checkoutNode_of_call hi).bind fun _ _ =>
      (ih his).bind fun _ _ => Ensures.pure trivial

theorem ensures_checkoutNode {node : Inode} (h : CleanPath node.path) :
    Ensures (CallsBelow root) (fun i => CleanPath i.path) (checkoutNode os st root node) :=
  (ensures_checkoutNode_of_call fun _ _ hp => ensures_call (hp ▸ h.below)).mono
    fun _ hi => hi ▸ h

theorem ensures_checkoutRest {is : List Inode} (h : ∀ i ∈ is, CleanPath i.path) :
    Ensures (CallsBelow root) (fun _ => True) (checkoutRest os st root is) :=
  ensures_checkoutRest_of_call fun i hi _ _ hp => ensures_call (hp ▸ (h i hi).below)

theorem ensures_removeRest {ts : List Inode} (h : ∀ t ∈ ts, CleanPath t.path) :
    Ensures (CallsBelow root) (fun _ => True) (removeRest os st root ts) := by
  induction ts with
  | nil => exact Ensures.pure trivial
  | cons t ts ih =>
    obtain ⟨ht, hts⟩ := List.forall_mem_cons.mp h
    exact (ensures_call ht.below).bind fun _ _ => ih hts

theorem ensures_removeStale {t : Inode} (h : CleanPath t.path) :
    Ensures (CallsBelow root) (fun _ => True) (removeStale os st root t) := by
  refine Ensures.get.bind fun w _ => ?_
  split
  · exact Ensures.throw _
  · exact Ensures.ite (fun _ => ensures_call h.below) fun _ => Ensures.pure trivial

theorem ensures_replaceNode {t i : Inode} (ht : CleanPath t.path) (hi : CleanPath i.path) :
    Ensures (CallsBelow root) (fun _ => True) (replaceNode os st root t i) := by
  have hnode : Ensures (CallsBelow root) (fun _ => True) (checkoutNode os st root i) :=
    (ensures_checkoutNode hi).mono fun _ _ => trivial
  exact Ensures.ite (fun _ => (ensures_call ht.below).bind fun _ _ => hnode)
    fun _ => (ensures_call ht.below).bind fun _ _ => hnode

theorem ensures_updateNode {t i : Inode} (hi : CleanPath i.path) :
    Ensures (CallsBelow root) (fun _ => True) (updateNode os st root t i) := by
  have hrewrite : Ensures (CallsBelow root) (fun i => CleanPath i.path)
      (rewriteNode os st root t i) :=
    Ensures.ite (fun _ => ensures_checkoutNode hi) fun _ => Ensures.pure hi
  refine hrewrite.bind fun i hi => ?_
  have hperms : Ensures (CallsBelow root) (fun _ => True) (updatePerms os st root t i) :=
    Ensures.ite (fun _ => ensures_call hi.below) fun _ => Ensures.pure trivial
  refine hperms.bind fun _ _ => Ensures.ite (fun _ => ?_) fun _ => Ensures.pure trivial
  exact (ensures_call hi.below).bind fun _ _ => (ensures_checkoutNode hi).mono fun _ _ => trivial

/-- What follows a node of the tree, as far as the calls go. -/
def RestBelow (root : List Name) (rest : Option Bytes → List Inode → CheckoutM (List Inode)) :
    Prop :=
  ∀ skip is, (∀ i ∈ is, CleanPath i.path) →
    Ensures (CallsBelow root) (fun _ => True) (rest skip is)

theorem ensures_checkoutAt {t : Inode} {ts : List Inode} (ht : ∀ u ∈ t :: ts, CleanPath u.path)
    {rest : Option Bytes → List Inode → CheckoutM (List Inode)} (hrest : RestBelow root rest)
    {is : List Inode} (h : ∀ i ∈ is, CleanPath i.path) :
    Ensures (CallsBelow root) (fun _ => True) (checkoutAt os st root t ts rest is) := by
  have htp : CleanPath t.path := ht t (by simp)
  induction is with
  | nil => exact (ensures_removeRest ht).bind fun _ _ => Ensures.pure trivial
  | cons i is ih =>
    obtain ⟨hi, his⟩ := List.forall_mem_cons.mp h
    rw [checkoutAt]
    refine Ensures.ite (fun _ => ?_) fun _ => Ensures.ite (fun _ => ?_) fun _ =>
      Ensures.ite (fun _ => ?_) fun _ => ?_
    · exact (ensures_removeStale htp).bind fun _ _ => hrest _ _ h
    · exact (ensures_checkoutNode hi).bind fun _ _ => (ih his).bind fun _ _ => Ensures.pure trivial
    · exact (ensures_replaceNode htp hi).bind fun _ _ =>
        (hrest _ _ his).bind fun _ _ => Ensures.pure trivial
    · exact (ensures_updateNode hi).bind fun _ _ =>
        (hrest _ _ his).bind fun _ _ => Ensures.pure trivial

theorem ensures_checkoutFrom {ts : List Inode} (ht : ∀ t ∈ ts, CleanPath t.path) :
    RestBelow root (checkoutFrom os st root ts) := by
  induction ts with
  | nil => exact fun skip is h => ensures_checkoutRest h
  | cons t ts ih =>
    intro skip is h
    have hrest : RestBelow root (checkoutFrom os st root ts) :=
      ih fun u hu => ht u (List.mem_cons_of_mem _ hu)
    exact Ensures.ite (fun _ => hrest _ _ h) fun _ => ensures_checkoutAt ht hrest h

/-- **The paths of a scan are clean.** -/
theorem Scan.cleanPath {d : Disk} {ignores : Bytes → Bool} (s : Scan d ignores root) :
    ∀ t ∈ s.inodes, CleanPath t.path := by
  intro t ht
  obtain ⟨ns, n, node, hl, rfl⟩ := s.mem_inodes.mp ht
  refine ⟨ns ++ [n], by simp, fun m hm => ?_, by simp [scanned]⟩
  have hres := hl.1.not_reserved m hm
  simp only [reserved, List.mem_cons, not_or] at hres
  exact ⟨hres.1, hres.2.1⟩

/-- **A checkout stays below the workspace**, also if it throws. -/
theorem callsBelow_checkout {tree index : List Inode} (ht : ∀ t ∈ tree, CleanPath t.path)
    (hi : ∀ i ∈ index, CleanPath i.path) {w : World} (hw : CallsBelow root w) :
    CallsBelow root (final (checkout os st root tree index w)) :=
  ((ensures_checkoutFrom ht) none index hi w hw).1

/-- **The checkouts of an index are confined**, sorted and with any metadata: whatever
the workspace holds, all calls name paths below it. -/
def CheckoutConfined (index : List Inode) : Prop :=
  ∀ (os : OS) (st : Store) (root : List Name) (d : Disk) (ignores : Bytes → Bool)
    (s : Scan d ignores root) (lindex : List Inode),
    CallsBelow root (final (checkout os st root s.inodes
      (copyMetadata (sortBy Inode.path index) lindex) ⟨d, []⟩))

theorem checkoutConfined_of_cleanPath {index : List Inode} (h : ∀ i ∈ index, CleanPath i.path) :
    CheckoutConfined index := by
  intro os st root d ignores s lindex
  refine callsBelow_checkout s.cleanPath (fun i hi => ?_) (by simp [CallsBelow])
  have hp : i.path ∈ (copyMetadata (sortBy Inode.path index) lindex).map Inode.path :=
    List.mem_map_of_mem hi
  rw [map_path_copyMetadata] at hp
  obtain ⟨j, hj, hji⟩ := List.mem_map.mp hp
  exact hji ▸ h j (mem_sortBy.mp hj)

end Checkout

/-! ### Confinement -/

/-- **A checkout is as confined as the names in the trees.** Whatever tree objects
`index_from_tree` reads, the index is confined if and only if the names in them are
clean, and then every checkout of it stays below the workspace. And if all tree objects
in the cache and all answers of the remote that can be read have clean names, whatever
they are, the index is confined in every state of a pull, and so are its checkouts. -/
theorem checkout_confined (st : Store) (h : Digest) :
    (∀ sched fuel l, indexFromTree st sched fuel h = some (.ok l) →
      ((∀ i ∈ l, i.Confined) ↔
        ∀ t, t = rootInode h ∨ t ∈ l ∧ t.isDirectory = true → CleanTree st t) ∧
      ((∀ i ∈ l, i.Confined) → CheckoutConfined l)) ∧
    ∀ remote σ, Reaches (PullStep remote) (PullState.start st h) σ → CleanServed remote st →
      (∀ i ∈ σ.inodes, i.Confined) ∧ CheckoutConfined σ.inodes := by
  refine ⟨fun sched fuel l hl => ?_, fun remote σ hrun hclean => ?_⟩
  · have hroot : ∀ t ∈ [rootInode h], CleanDir t.path := fun t ht => by
      rw [List.mem_singleton.mp ht]
      exact cleanDir_nil
    obtain ⟨hiff, hpath⟩ := confined_readLevels_iff hroot hl
    simp only [List.mem_singleton] at hiff
    exact ⟨hiff, fun hc => checkoutConfined_of_cleanPath (hpath hc)⟩
  · have hfit := fit_of_pull hclean hrun
    exact ⟨fun i hi => (hfit i hi).1, checkoutConfined_of_cleanPath fun i hi => (hfit i hi).2⟩

namespace Sample

/-- The record of a file with this name. -/
def fileRecord (name : Bytes) : Bytes :=
  putBlock name ++ putBlock wanted.string ++ le 4 (FileStatus.bits ⟨.regular, 0o644⟩)

/-- A tree object whose one record has an absolute path for a name. -/
def evilTree : Bytes := treeHeader ++ fileRecord (slash :: ascii ['x'])

/-- A cache with the tree object with the absolute path in it. -/
def evilStore : Store := Store.empty.put (treePath wanted) evilTree

/-- The inode that is read. -/
def fileRead (name : Bytes) : Inode where
  path := joinPath [] name
  hash := wanted
  status := ⟨.regular, 0o644⟩
  mtime := 0
  size := 0
  target := []
  parent := some []

theorem read_evil : indexFromTree evilStore .sequential 2 wanted =
    some (.ok [fileRead (slash :: ascii ['x'])]) := by decide

/-- A directory `d` in a tree with clean names, and a symlink in it. -/
def politeDir : Inode :=
  { fileRead (ascii ['d']) with hash := ⟨.sha1, hexString 40 2⟩, status := ⟨.directory, 0o755⟩ }

@[inherit_doc politeDir] def politeLink : Inode where
  path := ascii ['d', '/', 'l']
  status := ⟨.symlink, 0o777⟩
  mtime := 0
  size := 0
  target := ascii ['.', '.']
  parent := some (ascii ['d'])

/-- A file beside the directory. -/
def politeFile : Inode := { fileRead (ascii ['x']) with hash := ⟨.sha1, hexString 40 3⟩ }

/-- A remote that has the tree. -/
def polite (h : Digest) : Option Bytes :=
  if h = wanted then some (encodeTree [politeDir, politeFile])
  else if h = politeDir.hash then some (encodeTree [politeLink])
  else if h = politeFile.hash then some (ascii ['x'])
  else none

/-- A cache that has its tree objects. -/
def politeStore : Store :=
  (Store.empty.put (treePath wanted) (encodeTree [politeDir, politeFile])).put
    (treePath politeDir.hash) (encodeTree [politeLink])

set_option maxRecDepth 8000 in
theorem read_polite : indexFromTree politeStore .sequential 5 wanted =
    some (.ok [politeDir, politeFile, politeLink]) := by decide

theorem confined_polite : ∀ i ∈ [politeDir, politeFile, politeLink], i.Confined := by
  refine List.forall_mem_cons.mpr ⟨⟨[], ascii ['d'], rfl, by decide, rfl⟩, ?_⟩
  refine List.forall_mem_cons.mpr ⟨⟨[], ascii ['x'], rfl, by decide, rfl⟩, ?_⟩
  exact List.forall_mem_singleton.mpr ⟨ascii ['d'], ascii ['l'], rfl, by decide, rfl⟩

/-- A pull of the tree into an empty cache. -/
def pulledPolite : PullState := runPull polite 60 (PullState.start Store.empty wanted)

theorem reaches_pulledPolite :
    Reaches (PullStep fun h b => polite h = some b) (PullState.start Store.empty wanted)
      pulledPolite :=
  reaches_runPull (PullState.counts_start _ _) 60

set_option maxRecDepth 8000 in
theorem cleanServed_polite : CleanServed (fun h b => polite h = some b) Store.empty := by
  rintro b (⟨d, hd⟩ | ⟨d, hd⟩) hread
  · cases hd
  · rw [polite] at hd
    split_ifs at hd <;> obtain rfl := Option.some.inj hd
    · decide
    · decide
    · exact absurd hread (by decide)

end Sample

set_option maxRecDepth 16000 in
/-- A tree with a directory, a file and a symlink, read and pulled. -/
theorem checkout_confined_sample :
    (∀ t, t = rootInode Sample.wanted ∨
        t ∈ [Sample.politeDir, Sample.politeFile, Sample.politeLink] ∧ t.isDirectory = true →
      CleanTree Sample.politeStore t) ∧
    CheckoutConfined [Sample.politeDir, Sample.politeFile, Sample.politeLink] ∧
    Sample.pulledPolite.inodes.map Inode.path =
      [ascii ['d'], ascii ['x'], ascii ['d', '/', 'l']] ∧
    CheckoutConfined Sample.pulledPolite.inodes := by
  obtain ⟨hiff, hconf⟩ :=
    (checkout_confined Sample.politeStore Sample.wanted).1 _ _ _ Sample.read_polite
  refine ⟨hiff.mp Sample.confined_polite, hconf Sample.confined_polite, by decide, ?_⟩
  exact ((checkout_confined Store.empty Sample.wanted).2 _ _ Sample.reaches_pulledPolite
    Sample.cleanServed_polite).2

/-- **The names in a tree object are not looked at**: an index that was read need not be
confined. -/
theorem index_not_confined : ¬ ∀ (st : Store) (sched : Schedule) (fuel : ℕ) (h : Digest)
    (l : List Inode), indexFromTree st sched fuel h = some (.ok l) → ∀ i ∈ l, i.Confined := by
  intro h
  obtain ⟨p, c, hp, hc, hpath⟩ := h _ _ _ _ _ Sample.read_evil _ (List.mem_singleton_self _)
  obtain rfl : [] = p := Option.some.inj hp
  have hslash : slash ∈ (Sample.fileRead (slash :: ascii ['x'])).path := by decide
  rw [hpath] at hslash
  exact hc.2.1 hslash

end Fstree
