import Mathlib.Data.Prod.Lex
import Fstree.Foundations.ForkJoin
import Fstree.Index

/-!
# The workers of a scan

`sorted_directory_iterator::read_directory` reads one directory: it looks at the entries
in the order `readdir` gives them, makes an inode of each that is not skipped, appends it
under the mutex to the list of the scan and to the children of the directory, and has a
worker read it if it is a directory. At the end it waits for these. The workers take their
steps in any order (`Fstree.ScanStep`).

However they do, what is left to append is what is left of the descent
(`Fstree.ScanState.Pending`), and when the worker of the root has ended all have
(`Fstree.Owned`). So a run that returns has appended a permutation of the
descent (`Fstree.scanOfRun`), and the sorted list and the encodings of the directories are
the same for all of them (`Fstree.scan_exact`). And they do come to an end: between two
appends there is only so much to do (`Fstree.ScanState.rank`), and the last worker that has not
ended never waits for another (`Fstree.exists_scanStep`).

An entry that `lstat` fails for is passed over without a word, where a directory that cannot be
opened or a symlink that cannot be read makes the scan throw. The paths it fails for are the
system's (`lost`).
-/

namespace Fstree

open Codec SortedBy Transition

/-! ### The tree on the disk -/

/-- **A directory tree**: a disk, and the paths of what is neither a regular file nor a
directory nor a symlink. -/
structure DirTree where
  disk : Disk
  special : List (List Name)
  /-- A path leads to one thing. -/
  special_get : ∀ p ∈ special, disk.get p = none
  /-- Entries are in directories. -/
  closed : ∀ p n, disk.get (p ++ [n]) ≠ none → disk.IsDir p
  /-- No entry is called `.` or `..`. -/
  plain : ∀ p n, disk.get (p ++ [n]) ≠ none → n.bytes ≠ [dot] ∧ n.bytes ≠ [dot, dot]

/-- The entry of a directory for itself. -/
def dotName : Name := ⟨[dot], by decide, by decide⟩

/-- The entry of a directory for the one it is in. -/
def dotDotName : Name := ⟨[dot, dot], by decide, by decide⟩

/-- The names of the special files in a directory. -/
def DirTree.specialIn (t : DirTree) (p : List Name) : List Name :=
  t.special.filterMap fun q => if q.dropLast = p then q.getLast? else none

/-- **What `readdir` gives**, in some order. -/
def DirTree.entriesIn (t : DirTree) (p : List Name) : List Name :=
  dotName :: dotDotName :: (t.disk.readdir p ++ t.specialIn p)

/-! ### The workers -/

/-- What a worker has to do next about an entry of its directory. -/
inductive ScanTask
  /-- To look at it. -/
  | look (n : Name)
  /-- To have it read: it is a directory, and has been appended. -/
  | enter (n : Name)

/-- How far a worker has got. -/
inductive Reading
  | opening
  | reading (todo : List ScanTask)
  | done
  | failed

/-- **A worker**, which reads the directory `abs`, at `rel` in the scan. The worker at
`owner` waits for it. -/
structure ScanJob where
  abs : List Name
  rel : Bytes
  owner : Option ℕ
  reading : Reading

/-- **The state of a scan**: `_inodes`, the children of the inodes by their paths, and the
workers, each at the place where it was enqueued. -/
structure ScanState where
  inodes : List Inode
  children : Bytes → List Inode
  jobs : List ScanJob

/-- The worker has ended. -/
def ScanJob.Ended (j : ScanJob) : Prop := j.reading = .done ∨ j.reading = .failed

/-- The entry is skipped: its name is reserved, it is a directory that is ignored, or it
is neither a regular file nor a directory nor a symlink. -/
def DirTree.Skips (t : DirTree) (ignores : Bytes → Bool) (abs : List Name) (rel : Bytes)
    (n : Name) : Prop :=
  n.bytes ∈ reserved ∨ t.disk.get (abs ++ [n]) = none ∨
    ∃ node, t.disk.get (abs ++ [n]) = some node ∧ node.isDir = true ∧
      ignores (joinPath rel n.bytes) = true

/-- What is left to do after an entry was appended. -/
def afterLook (node : Node) (n : Name) (todo : List ScanTask) : List ScanTask :=
  if node.isDir then .enter n :: todo else todo

/-- The worker at `i` goes on. -/
def ScanState.goOn (σ : ScanState) (i : ℕ) (j : ScanJob) (reading : Reading) : ScanState :=
  { σ with jobs := σ.jobs.set i { j with reading := reading } }

/-- **One step of a worker**, at place `i`. -/
inductive ScanStep (t : DirTree) (lost : List Name → Bool) (ignores : Bytes → Bool) :
    ScanState → ScanState → Prop
  /-- `opendir`; `readdir` will give the entries in this order. -/
  | opened {σ : ScanState} {i j} {names : List Name} (hj : σ.jobs[i]? = some j)
      (hreading : j.reading = .opening) (hdir : t.disk.IsDir j.abs)
      (hnames : names.Perm (t.entriesIn j.abs)) :
      ScanStep t lost ignores σ (σ.goOn i j (.reading (names.map .look)))
  /-- `opendir` fails. -/
  | notOpened {σ : ScanState} {i j} (hj : σ.jobs[i]? = some j) (hreading : j.reading = .opening) :
      ScanStep t lost ignores σ (σ.goOn i j .failed)
  | skip {σ : ScanState} {i j n todo} (hj : σ.jobs[i]? = some j)
      (hreading : j.reading = .reading (.look n :: todo)) (hskip : t.Skips ignores j.abs j.rel n) :
      ScanStep t lost ignores σ (σ.goOn i j (.reading todo))
  /-- `lstat` fails: the entry is passed over. -/
  | pass {σ : ScanState} {i j n todo} (hj : σ.jobs[i]? = some j)
      (hreading : j.reading = .reading (.look n :: todo))
      (hskip : ¬ t.Skips ignores j.abs j.rel n) (hlost : lost (j.abs ++ [n]) = true) :
      ScanStep t lost ignores σ (σ.goOn i j (.reading todo))
  /-- `read_symlink` throws. -/
  | unreadable {σ : ScanState} {i j n todo mtime target} (hj : σ.jobs[i]? = some j)
      (hreading : j.reading = .reading (.look n :: todo))
      (hget : t.disk.lstat lost (j.abs ++ [n]) = some (.symlink mtime target)) :
      ScanStep t lost ignores σ (σ.goOn i j .failed)
  | append {σ : ScanState} {i j n node todo} (hj : σ.jobs[i]? = some j)
      (hreading : j.reading = .reading (.look n :: todo))
      (hskip : ¬ t.Skips ignores j.abs j.rel n)
      (hget : t.disk.lstat lost (j.abs ++ [n]) = some node) :
      ScanStep t lost ignores σ { σ.goOn i j (.reading (afterLook node n todo)) with
        inodes := σ.inodes ++ [scanned j.rel n node]
        children := Function.update σ.children j.rel (σ.children j.rel ++ [scanned j.rel n node]) }
  | enqueue {σ : ScanState} {i j n todo} (hj : σ.jobs[i]? = some j)
      (hreading : j.reading = .reading (.enter n :: todo)) :
      ScanStep t lost ignores σ { σ with
        jobs := (σ.goOn i j (.reading todo)).jobs ++
          [⟨j.abs ++ [n], joinPath j.rel n.bytes, some i, .opening⟩] }
  /-- `wait_rethrow` returns: the workers it has enqueued are done. -/
  | finish {σ : ScanState} {i j} (hj : σ.jobs[i]? = some j) (hreading : j.reading = .reading [])
      (hwait : ∀ k ∈ σ.jobs, k.owner = some i → k.reading = .done) :
      ScanStep t lost ignores σ (σ.goOn i j .done)
  /-- `wait_rethrow` throws: they have ended, and one has failed. -/
  | rethrow {σ : ScanState} {i j} (hj : σ.jobs[i]? = some j) (hreading : j.reading = .reading [])
      (hwait : ∀ k ∈ σ.jobs, k.owner = some i → k.Ended)
      (hfailed : ∃ k ∈ σ.jobs, k.owner = some i ∧ k.reading = .failed) :
      ScanStep t lost ignores σ (σ.goOn i j .failed)

/-- The scan of `root` begins with a worker for it. -/
def ScanState.start (root : List Name) : ScanState where
  inodes := []
  children := fun _ => []
  jobs := [⟨root, [], none, .opening⟩]

/-- **The scan returns** when the first worker is done. -/
def ScanState.Returned (σ : ScanState) : Prop := ∃ j, σ.jobs[0]? = some j ∧ j.reading = .done

/-! ### Who waits for whom -/

section Owned

variable {t : DirTree} {lost : List Name → Bool} {ignores : Bytes → Bool} {σ τ : ScanState} {i : ℕ}
  {j : ScanJob}
  {jobs : List ScanJob}

/-- **Every worker but the first has one that waits for it**, and that was there before;
a worker that is done has waited. -/
structure Owned (jobs : List ScanJob) : Prop where
  owner : ∀ (i : ℕ) (j : ScanJob), jobs[i]? = some j →
    (i ≠ 0 → ∃ k < i, j.owner = some k) ∧ ∀ k, j.owner = some k → k < i
  waited : ∀ (i : ℕ) (j : ScanJob), jobs[i]? = some j → j.reading = .done →
    ∀ k ∈ jobs, k.owner = some i → k.reading = .done

theorem owned_start (root : List Name) : Owned (ScanState.start root).jobs where
  owner i j hj := by
    obtain ⟨hlt, rfl⟩ := List.getElem?_eq_some_iff.mp hj
    simp only [ScanState.start, List.length_singleton] at hlt
    obtain rfl : i = 0 := by omega
    exact ⟨fun h => absurd rfl h, by simp [ScanState.start]⟩
  waited i j hj hdone := by
    obtain rfl := List.mem_singleton.mp (List.mem_of_getElem? hj)
    cases hdone

/-- A worker that was not done goes on. -/
theorem Owned.set (h : Owned jobs) (hj : jobs[i]? = some j) (hrun : j.reading ≠ .done)
    {reading : Reading}
    (hdone : reading = .done → ∀ k ∈ jobs, k.owner = some i → k.reading = .done) :
    Owned (jobs.set i { j with reading := reading }) where
  owner m k hk := by
    rw [List.getElem?_set] at hk
    split_ifs at hk with hm hlt
    · obtain rfl := Option.some.inj hk
      exact hm ▸ h.owner i j hj
    · exact h.owner m k hk
  waited m k hk hkd k' hk' ho := by
    have hmem : j ∈ jobs := List.mem_of_getElem? hj
    rw [List.getElem?_set] at hk
    have hnew := List.mem_or_eq_of_mem_set hk'
    split_ifs at hk with hm hlt
    · obtain rfl := Option.some.inj hk
      subst hm
      rcases hnew with hk' | rfl
      · exact hdone hkd k' hk' ho
      · exact hkd
    · rcases hnew with hk' | rfl
      · exact h.waited m k hk hkd k' hk' ho
      · exact absurd (h.waited m k hk hkd j hmem ho) hrun

/-- A worker that is not done enqueues another. -/
theorem Owned.push (h : Owned jobs) (hj : jobs[i]? = some j) (hrun : j.reading ≠ .done)
    {k : ScanJob} (ho : k.owner = some i) (hk : k.reading ≠ .done) : Owned (jobs ++ [k]) where
  owner m k' hk' := by
    have hi : i < jobs.length := (List.getElem?_eq_some_iff.mp hj).1
    rcases Nat.lt_or_ge m jobs.length with hlt | hge
    · rw [List.getElem?_append_left hlt] at hk'
      exact h.owner m k' hk'
    · rw [List.getElem?_append_right hge, List.getElem?_singleton] at hk'
      split_ifs at hk' with hm
      obtain rfl := Option.some.inj hk'
      refine ⟨fun _ => ⟨i, by omega, ho⟩, fun o ho' => ?_⟩
      obtain rfl : i = o := Option.some.inj (by rw [← ho, ← ho'])
      omega
  waited m k' hk' hd k'' hk'' ho'' := by
    rcases Nat.lt_or_ge m jobs.length with hlt | hge
    · rw [List.getElem?_append_left hlt] at hk'
      rcases List.mem_append.mp hk'' with hk'' | hk''
      · exact h.waited m k' hk' hd k'' hk'' ho''
      · obtain rfl := List.mem_singleton.mp hk''
        obtain rfl : i = m := Option.some.inj (by rw [← ho, ← ho''])
        rw [hj] at hk'
        obtain rfl := Option.some.inj hk'
        exact absurd hd hrun
    · rw [List.getElem?_append_right hge, List.getElem?_singleton] at hk'
      split_ifs at hk' with hm
      obtain rfl := Option.some.inj hk'
      exact absurd hd hk

theorem Owned.step (h : Owned σ.jobs) (hs : ScanStep t lost ignores σ τ) : Owned τ.jobs := by
  cases hs with
  | opened hj hreading | notOpened hj hreading | skip hj hreading | pass hj hreading
  | unreadable hj hreading | append hj hreading | rethrow hj hreading =>
    exact h.set hj (by simp [hreading]) fun hd => by cases hd
  | @enqueue i j n todo hj hreading =>
    have hlt : i < σ.jobs.length := (List.getElem?_eq_some_iff.mp hj).1
    have hset : Owned (σ.goOn i j (.reading todo)).jobs :=
      h.set hj (by simp [hreading]) fun hd => by cases hd
    have hget : (σ.goOn i j (.reading todo)).jobs[i]? =
        some { j with reading := .reading todo } := by
      simp [ScanState.goOn, hlt]
    exact hset.push hget (by simp) rfl (by simp)
  | finish hj hreading hwait => exact h.set hj (by simp [hreading]) fun _ => hwait

/-- **When the first worker is done all are.** -/
theorem Owned.all_done (h : Owned σ.jobs) (hret : σ.Returned) :
    ∀ j ∈ σ.jobs, j.reading = .done := by
  suffices hs : ∀ (i : ℕ) (j : ScanJob), σ.jobs[i]? = some j → j.reading = .done by
    intro j hj
    obtain ⟨i, hi⟩ := List.mem_iff_getElem?.mp hj
    exact hs i j hi
  intro i
  induction i using Nat.strong_induction_on with
  | _ i ih =>
    intro j hj
    by_cases hi : i = 0
    · obtain ⟨j₀, h0, hdone⟩ := hret
      rw [hi, h0] at hj
      exact Option.some.inj hj ▸ hdone
    · obtain ⟨k, hk, ho⟩ := (h.owner i j hj).1 hi
      obtain ⟨hlt, -⟩ := List.getElem?_eq_some_iff.mp hj
      have hkj : σ.jobs[k]? = some σ.jobs[k] := List.getElem?_eq_getElem (hk.trans hlt)
      exact h.waited k _ hkj (ih k hk _ hkj) j (List.mem_of_getElem? hj) ho

end Owned

/-! ### What is left to append -/

/-- No entry is in a directory deeper than the deepest entry. -/
theorem Disk.readdir_eq_nil {d : Disk} {p : List Name} (h : d.depth ≤ p.length) :
    d.readdir p = [] := by
  refine List.eq_nil_iff_forall_not_mem.mpr fun n hn => ?_
  have hlen := Disk.length_le_depth (Disk.mem_readdir.mp hn)
  rw [List.length_append, List.length_singleton] at hlen
  omega

/-- Fuel for the entries below a directory is enough. -/
theorem readDirectory_fuel {d : Disk} {lost : List Name → Bool} {ignores : Bytes → Bool}
    {fuel : ℕ} {abs : List Name} {rel : Bytes} (h : d.depth ≤ fuel + abs.length) :
    readDirectory d lost ignores (fuel + 1) abs rel =
      readDirectory d lost ignores fuel abs rel := by
  induction fuel generalizing abs rel with
  | zero =>
    simp [readDirectory, Disk.readdir_eq_nil (show d.depth ≤ abs.length by simpa using h)]
  | succ fuel ih =>
    rw [readDirectory, readDirectory]
    refine List.flatMap_congr fun n _ => ?_
    rw [readName, readName, ih]
    rw [List.length_append, List.length_singleton]
    omega

/-- **The descent from a directory**, which lies at `rel` in the scan. -/
def descent (d : Disk) (lost : List Name → Bool) (ignores : Bytes → Bool) (abs : List Name)
    (rel : Bytes) : List Inode :=
  readDirectory d lost ignores d.depth abs rel

/-- One turn of the loop for each entry. -/
theorem descent_eq (d : Disk) (lost : List Name → Bool) (ignores : Bytes → Bool)
    (abs : List Name) (rel : Bytes) :
    descent d lost ignores abs rel =
      (d.readdir abs).flatMap (readName d lost ignores (descent d lost ignores) abs rel) := by
  rw [descent, ← readDirectory_fuel (by omega), readDirectory]
  rfl

section Pending

variable {t : DirTree} {lost : List Name → Bool} {ignores : Bytes → Bool} {σ τ : ScanState}
  {root : List Name}

/-- What is left to append for an entry. -/
def ScanTask.pending (t : DirTree) (lost : List Name → Bool) (ignores : Bytes → Bool)
    (abs : List Name) (rel : Bytes) : ScanTask → List Inode
  | look n => readName t.disk lost ignores (descent t.disk lost ignores) abs rel n
  | enter n => descent t.disk lost ignores (abs ++ [n]) (joinPath rel n.bytes)

/-- **What a worker has left to append**, itself and by those it will enqueue. -/
def ScanJob.pending (t : DirTree) (lost : List Name → Bool) (ignores : Bytes → Bool) (j : ScanJob) :
    List Inode :=
  match j.reading with
  | .opening => descent t.disk lost ignores j.abs j.rel
  | .reading todo => todo.flatMap (ScanTask.pending t lost ignores j.abs j.rel)
  | .done | .failed => []

/-- What is skipped is not part of the descent. -/
theorem DirTree.Skips.pending {abs : List Name} {rel : Bytes} {n : Name}
    (h : t.Skips ignores abs rel n) : (ScanTask.look n).pending t lost ignores abs rel = [] := by
  rw [ScanTask.pending, readName]
  cases hget : t.disk.lstat lost (abs ++ [n]) with
  | none => rfl
  | some node =>
    have hnode := (Disk.lstat_eq_some.mp hget).2
    rcases h with hres | hnone | ⟨node', hget', hdir, hign⟩
    · exact if_pos hres
    · rw [hnone] at hnode
      cases hnode
    · obtain rfl := Option.some.inj (hget'.symm.trans hnode)
      simp [hdir, hign]

/-- What is passed over is not, either. -/
theorem pending_lost {abs : List Name} {rel : Bytes} {n : Name} (h : lost (abs ++ [n]) = true) :
    (ScanTask.look n).pending t lost ignores abs rel = [] := by
  rw [ScanTask.pending, readName, Disk.lstat, if_pos h]

/-- What is not skipped is appended, and entered if it is a directory. -/
theorem pending_look {abs : List Name} {rel : Bytes} {n : Name} {node : Node}
    {todo : List ScanTask} (hskip : ¬ t.Skips ignores abs rel n)
    (hget : t.disk.lstat lost (abs ++ [n]) = some node) :
    (ScanTask.look n :: todo).flatMap (ScanTask.pending t lost ignores abs rel) =
      scanned rel n node :: (afterLook node n todo).flatMap
        (ScanTask.pending t lost ignores abs rel) := by
  obtain ⟨hres, hign⟩ : n.bytes ∉ reserved ∧
      ¬ (node.isDir && ignores (joinPath rel n.bytes)) = true := by
    refine ⟨fun h => hskip (Or.inl h), fun h => hskip (Or.inr (Or.inr ?_))⟩
    exact ⟨node, (Disk.lstat_eq_some.mp hget).2, by simpa using h⟩
  rw [List.flatMap_cons, ScanTask.pending, readName, hget, afterLook]
  simp only [if_neg hres, if_neg hign]
  cases node.isDir <;> simp [ScanTask.pending]

theorem specialIn_get {p : List Name} {n : Name} (h : n ∈ t.specialIn p) :
    t.disk.get (p ++ [n]) = none := by
  obtain ⟨q, hq, hn⟩ := List.mem_filterMap.mp h
  split_ifs at hn with hp
  rw [← hp, List.dropLast_append_getLast? n hn]
  exact t.special_get q hq

/-- **The entries of a directory, in any order,** are what the descent goes through. -/
theorem pending_entries {abs : List Name} {rel : Bytes} {names : List Name}
    (h : names.Perm (t.entriesIn abs)) :
    ((names.map .look).flatMap (ScanTask.pending t lost ignores abs rel)).Perm
      (descent t.disk lost ignores abs rel) := by
  have hdot : ∀ n, n.bytes ∈ reserved → (ScanTask.look n).pending t lost ignores abs rel = [] :=
    fun n hn => DirTree.Skips.pending (Or.inl hn)
  have hspecial :
      (t.specialIn abs).flatMap (fun n => (ScanTask.look n).pending t lost ignores abs rel) =
      [] :=
    List.flatMap_eq_nil_iff.mpr fun n hn =>
      DirTree.Skips.pending (Or.inr (Or.inl (specialIn_get hn)))
  rw [List.flatMap_map, descent_eq]
  refine (h.flatMap_right _).trans ?_
  rw [DirTree.entriesIn, List.flatMap_cons, List.flatMap_cons, List.flatMap_append, hspecial,
    hdot _ (by decide), hdot _ (by decide), List.nil_append, List.nil_append, List.append_nil]
  exact List.Perm.refl _

/-- One element of a list is replaced, and what it stood for is `x` and what the new one
stands for. -/
theorem flatMap_set_perm {α β : Type} {f : α → List β} {l : List α} {i : ℕ} {a b : α}
    {x : List β} (ha : l[i]? = some a) (hf : (f a).Perm (x ++ f b)) :
    (l.flatMap f).Perm (x ++ (l.set i b).flatMap f) := by
  obtain ⟨hlt, rfl⟩ := List.getElem?_eq_some_iff.mp ha
  have hl : l.flatMap f = (l.take i).flatMap f ++ (f l[i] ++ (l.drop (i + 1)).flatMap f) := by
    rw [← List.flatMap_cons, ← List.drop_eq_getElem_cons hlt, ← List.flatMap_append,
      List.take_append_drop]
  have hset : (l.set i b).flatMap f =
      (l.take i).flatMap f ++ (f b ++ (l.drop (i + 1)).flatMap f) := by
    rw [List.set_eq_take_append_cons_drop, if_pos hlt, List.flatMap_append, List.flatMap_cons]
  rw [hl, hset]
  refine ((hf.append_right _).append_left _).trans ?_
  rw [List.append_assoc]
  exact List.perm_append_comm_assoc _ _ _

/-- **What has been appended, and what is left, is the descent**, unless a worker has
failed. -/
def ScanState.Pending (t : DirTree) (lost : List Name → Bool) (ignores : Bytes → Bool)
    (root : List Name) (σ : ScanState) : Prop :=
  (∃ j ∈ σ.jobs, j.reading = .failed) ∨
    (σ.inodes ++ σ.jobs.flatMap (ScanJob.pending t lost ignores)).Perm
      (descent t.disk lost ignores root [])

theorem pending_start : (ScanState.start root).Pending t lost ignores root := by
  refine Or.inr ?_
  rw [ScanState.start, List.flatMap_singleton]
  exact List.Perm.refl _

/-- A worker that goes on appends `x`. -/
theorem pending_goOn {i : ℕ} {j : ScanJob} {reading : Reading} {x : List Inode}
    (hj : σ.jobs[i]? = some j) (hf : (j.pending t lost ignores).Perm
      (x ++ ScanJob.pending t lost ignores { j with reading := reading }))
    (h : (σ.inodes ++ σ.jobs.flatMap (ScanJob.pending t lost ignores)).Perm
      (descent t.disk lost ignores root [])) :
    (σ.inodes ++ x ++ (σ.goOn i j reading).jobs.flatMap (ScanJob.pending t lost ignores)).Perm
      (descent t.disk lost ignores root []) := by
  refine List.Perm.trans ?_ h
  rw [List.append_assoc]
  exact ((flatMap_set_perm hj hf).append_left _).symm

/-- A worker that has failed stays as it is. -/
theorem failed_step (h : ∃ j ∈ σ.jobs, j.reading = .failed) (hs : ScanStep t lost ignores σ τ) :
    ∃ j ∈ τ.jobs, j.reading = .failed := by
  obtain ⟨k, hk, hkf⟩ := h
  have hset : ∀ {i j reading}, σ.jobs[i]? = some j → j.reading ≠ .failed →
      ∃ k ∈ (σ.goOn i j reading).jobs, k.reading = .failed := by
    intro i j reading hj hjf
    obtain ⟨m, hm⟩ := List.mem_iff_getElem?.mp hk
    have hne : i ≠ m := fun he => by
      rw [he, hm] at hj
      obtain rfl := Option.some.inj hj
      exact hjf hkf
    refine ⟨k, List.mem_of_getElem? (i := m) ?_, hkf⟩
    rw [ScanState.goOn, List.getElem?_set_ne hne, hm]
  cases hs with
  | opened hj hreading | notOpened hj hreading | skip hj hreading | pass hj hreading
  | unreadable hj hreading | append hj hreading | finish hj hreading
  | rethrow hj hreading => exact hset hj (by simp [hreading])
  | enqueue hj hreading =>
    obtain ⟨k', hk', hf⟩ := hset hj (by simp [hreading])
    exact ⟨k', List.mem_append_left _ hk', hf⟩

theorem ScanState.Pending.step (h : σ.Pending t lost ignores root)
    (hs : ScanStep t lost ignores σ τ) :
    τ.Pending t lost ignores root := by
  rcases h with hf | hp
  · exact Or.inl (failed_step hf hs)
  have hgoOn : ∀ {i j reading}, σ.jobs[i]? = some j → (j.pending t lost ignores).Perm
      (ScanJob.pending t lost ignores { j with reading := reading }) →
      (σ.inodes ++ (σ.goOn i j reading).jobs.flatMap (ScanJob.pending t lost ignores)).Perm
        (descent t.disk lost ignores root []) := by
    intro i j reading hj hf
    simpa using pending_goOn (x := []) hj hf hp
  have hfail : ∀ {i j}, σ.jobs[i]? = some j →
      ∃ k ∈ (σ.goOn i j .failed).jobs, k.reading = .failed := by
    intro i j hj
    have hlt := (List.getElem?_eq_some_iff.mp hj).1
    exact ⟨_, List.mem_set hlt _, rfl⟩
  cases hs with
  | notOpened hj | unreadable hj | rethrow hj => exact Or.inl (hfail hj)
  | opened hj hreading hdir hnames =>
    refine Or.inr (hgoOn hj ?_)
    simp only [ScanJob.pending, hreading]
    exact (pending_entries hnames).symm
  | skip hj hreading hskip =>
    refine Or.inr (hgoOn hj ?_)
    simp only [ScanJob.pending, hreading]
    rw [List.flatMap_cons, hskip.pending, List.nil_append]
  | pass hj hreading hskip hlost =>
    refine Or.inr (hgoOn hj ?_)
    simp only [ScanJob.pending, hreading]
    rw [List.flatMap_cons, pending_lost hlost, List.nil_append]
  | append hj hreading hskip hget =>
    refine Or.inr (pending_goOn hj ?_ hp)
    simp only [ScanJob.pending, hreading]
    rw [pending_look hskip hget]
    exact List.Perm.refl _
  | @enqueue i j n todo hj hreading =>
    refine Or.inr ?_
    have hx : (j.pending t lost ignores).Perm (descent t.disk lost ignores (j.abs ++ [n])
        (joinPath j.rel n.bytes) ++
          ScanJob.pending t lost ignores { j with reading := .reading todo }) := by
      simp only [ScanJob.pending, hreading]
      exact List.Perm.refl _
    refine List.Perm.trans ?_ (pending_goOn hj hx hp)
    rw [List.flatMap_append, List.append_assoc]
    refine List.Perm.append_left _ ?_
    rw [List.flatMap_singleton]
    exact List.perm_append_comm
  | finish hj hreading =>
    refine Or.inr (hgoOn hj ?_)
    simp only [ScanJob.pending, hreading]
    exact List.Perm.nil

/-! ### What a scan returns -/

/-- **The children of an inode are the appended ones that point to it**, in the same
order. -/
def ScanState.Linked (σ : ScanState) : Prop :=
  ∀ p, σ.children p = σ.inodes.filter fun i => i.parent = some p

theorem ScanState.Linked.step (h : σ.Linked) (hs : ScanStep t lost ignores σ τ) : τ.Linked := by
  cases hs with
  | @append i j n node todo =>
    intro p
    change Function.update σ.children j.rel _ p = _
    rw [List.filter_append, ← h p]
    by_cases hp : p = j.rel
    · subst hp
      simp [scanned]
    · have hne : ¬ j.rel = p := fun he => hp he.symm
      simp [Function.update_of_ne hp, scanned, hne]
  | _ => exact h

/-- **What holds of a scan that runs.** -/
structure ScanInv (t : DirTree) (lost : List Name → Bool) (ignores : Bytes → Bool)
    (root : List Name) (σ : ScanState) : Prop where
  owned : Owned σ.jobs
  pending : σ.Pending t lost ignores root
  linked : σ.Linked

theorem scanInv_of_run (hrun : Reaches (ScanStep t lost ignores) (ScanState.start root) σ) :
    ScanInv t lost ignores root σ :=
  hrun.invariant ⟨owned_start root, pending_start, fun _ => rfl⟩
    fun _ _ h hs => ⟨h.owned.step hs, h.pending.step hs, h.linked.step hs⟩

/-- **A scan that returns has appended the descent.** -/
theorem appended_of_returned (hrun : Reaches (ScanStep t lost ignores) (ScanState.start root) σ)
    (hret : σ.Returned) : Appended t.disk lost ignores root σ.inodes := by
  have hinv := scanInv_of_run hrun
  have hdone := hinv.owned.all_done hret
  rcases hinv.pending with ⟨j, hj, hf⟩ | hp
  · rw [hdone j hj] at hf
    cases hf
  · have hnil : σ.jobs.flatMap (ScanJob.pending t lost ignores) = [] :=
      List.flatMap_eq_nil_iff.mpr fun j hj => by rw [ScanJob.pending, hdone j hj]
    rwa [hnil, List.append_nil] at hp

/-- **The scan that a run makes.** -/
def scanOfRun (hroot : t.disk.IsDir root)
    (hrun : Reaches (ScanStep t lost ignores) (ScanState.start root) σ) (hret : σ.Returned) :
    Scan t.disk ignores root :=
  ⟨hroot, lost, σ.inodes, appended_of_returned hrun hret⟩

end Pending

/-! ### Every scan ends -/

/-- What an entry may still take, apart from what is appended. -/
def ScanTask.rank (t : DirTree) (abs : List Name) : ScanTask → ℕ
  | look _ => 1
  | enter n => 4 + (t.entriesIn (abs ++ [n])).length

/-- What a worker may still take. -/
def ScanJob.rank (t : DirTree) (j : ScanJob) : ℕ :=
  match j.reading with
  | .opening => 2 + (t.entriesIn j.abs).length
  | .reading todo => 1 + (todo.map (ScanTask.rank t j.abs)).sum
  | .done | .failed => 0

/-- **What every step of a scan lowers**: the inodes that are left to append, and what the
workers may still take until the next one is. -/
def ScanState.rank (t : DirTree) (lost : List Name → Bool) (ignores : Bytes → Bool)
    (σ : ScanState) : ℕ ×ₗ ℕ :=
  toLex ((σ.jobs.flatMap (ScanJob.pending t lost ignores)).length,
    (σ.jobs.map (ScanJob.rank t)).sum)

/-- One summand is replaced. -/
theorem sum_map_set {α : Type} {f : α → ℕ} {l : List α} {i : ℕ} {a b : α} (ha : l[i]? = some a) :
    ((l.set i b).map f).sum + f a = (l.map f).sum + f b := by
  induction l generalizing i with
  | nil => cases ha
  | cons c l ih =>
    cases i with
    | zero =>
      obtain rfl : c = a := Option.some.inj ha
      simp only [List.set_cons_zero, List.map_cons, List.sum_cons]
      omega
    | succ i =>
      have hl := ih (i := i) (by simpa using ha)
      simp only [List.set_cons_succ, List.map_cons, List.sum_cons]
      omega

section Ends

variable {t : DirTree} {lost : List Name → Bool} {ignores : Bytes → Bool} {root : List Name}
  {σ τ : ScanState} {i : ℕ} {j : ScanJob} {reading : Reading}

/-- A worker that goes on lowers the rank if it appends something, or has less to do. -/
theorem rank_goOn {x : List Inode} (hj : σ.jobs[i]? = some j)
    (hx : (j.pending t lost ignores).Perm
      (x ++ ScanJob.pending t lost ignores { j with reading := reading }))
    (h : x ≠ [] ∨ ScanJob.rank t { j with reading := reading } < j.rank t) :
    (σ.goOn i j reading).rank t lost ignores < σ.rank t lost ignores := by
  have hlen := (flatMap_set_perm (f := ScanJob.pending t lost ignores)
    (b := { j with reading := reading }) hj hx).length_eq
  rw [List.length_append] at hlen
  have hsum := sum_map_set (f := ScanJob.rank t) (b := { j with reading := reading }) hj
  refine Prod.Lex.toLex_lt_toLex.mpr ?_
  rcases Nat.eq_zero_or_pos x.length with h0 | hpos
  · have hrank := h.resolve_left (not_not.mpr (List.length_eq_zero_iff.mp h0))
    refine Or.inr ⟨by rw [hlen, h0, Nat.zero_add]; rfl, ?_⟩
    change ((σ.jobs.set i _).map _).sum < _
    omega
  · refine Or.inl ?_
    change ((σ.jobs.set i _).flatMap _).length < _
    omega

/-- A worker that fails lowers the rank. -/
theorem rank_fail (hj : σ.jobs[i]? = some j) (h : 0 < j.rank t) :
    (σ.goOn i j .failed).rank t lost ignores < σ.rank t lost ignores := by
  refine rank_goOn (x := j.pending t lost ignores) hj ?_ (Or.inr h)
  simp [ScanJob.pending]

theorem rank_step (hs : ScanStep t lost ignores σ τ) :
    τ.rank t lost ignores < σ.rank t lost ignores := by
  cases hs with
  | notOpened hj hreading | unreadable hj hreading | rethrow hj hreading =>
    exact rank_fail hj (by simp [ScanJob.rank, hreading])
  | @opened i j names hj hreading hdir hnames =>
    refine rank_goOn (x := []) hj ?_ (Or.inr ?_)
    · simp only [ScanJob.pending, hreading]
      exact (pending_entries hnames).symm
    · have hlen := hnames.length_eq
      have hone : ∀ l : List Name, ((l.map .look).map (ScanTask.rank t j.abs)).sum = l.length := by
        intro l
        simp [Function.comp_def, ScanTask.rank]
      simp only [ScanJob.rank, hreading, hone]
      omega
  | skip hj hreading hskip =>
    refine rank_goOn (x := []) hj ?_ (Or.inr ?_)
    · simp only [ScanJob.pending, hreading]
      rw [List.flatMap_cons, hskip.pending, List.nil_append]
    · simp [ScanJob.rank, hreading, ScanTask.rank]
  | pass hj hreading hskip hlost =>
    refine rank_goOn (x := []) hj ?_ (Or.inr ?_)
    · simp only [ScanJob.pending, hreading]
      rw [List.flatMap_cons, pending_lost hlost, List.nil_append]
    · simp [ScanJob.rank, hreading, ScanTask.rank]
  | @append i j n node todo hj hreading hskip hget =>
    refine rank_goOn (x := [scanned j.rel n node]) hj ?_ (Or.inl (List.cons_ne_nil _ _))
    simp only [ScanJob.pending, hreading]
    rw [pending_look hskip hget]
    exact List.Perm.refl _
  | finish hj hreading =>
    refine rank_goOn (x := []) hj ?_ (Or.inr (by simp [ScanJob.rank, hreading]))
    simp [ScanJob.pending, hreading]
  | @enqueue i j n todo hj hreading =>
    have hx : (j.pending t lost ignores).Perm (descent t.disk lost ignores (j.abs ++ [n])
        (joinPath j.rel n.bytes) ++
          ScanJob.pending t lost ignores { j with reading := .reading todo }) := by
      simp only [ScanJob.pending, hreading]
      exact List.Perm.refl _
    have hlen := (flatMap_set_perm (f := ScanJob.pending t lost ignores)
      (b := { j with reading := .reading todo }) hj hx).length_eq
    have hsum := sum_map_set (f := ScanJob.rank t) (b := { j with reading := .reading todo }) hj
    refine Prod.Lex.toLex_lt_toLex.mpr (Or.inr ⟨?_, ?_⟩)
    · change ((σ.jobs.set i _ ++ [_]).flatMap _).length = _
      rw [List.flatMap_append, List.flatMap_singleton, List.length_append, hlen,
        List.length_append, Nat.add_comm]
      rfl
    · change ((σ.jobs.set i _ ++ [_]).map _).sum < _
      simp only [ScanJob.rank, hreading, ScanTask.rank, List.map_cons, List.sum_cons] at hsum
      simp only [List.map_append, List.sum_append, List.map_singleton, List.sum_singleton,
        ScanJob.rank]
      omega

/-- **Every scan ends.** -/
theorem scan_terminates (σ : ScanState) : Terminates (ScanStep t lost ignores) σ :=
  @terminates_of_wellFounded _ _ _ _ _ wellFounded_lt (fun _ => True)
    (ScanState.rank t lost ignores) trivial fun _ _ _ hs => ⟨trivial, rank_step hs⟩

/-- **Every worker has a directory to read**, and so will those it has yet to enqueue. -/
structure Supplied (t : DirTree) (σ : ScanState) : Prop where
  nonempty : σ.jobs ≠ []
  isDir : ∀ j ∈ σ.jobs, t.disk.IsDir j.abs
  enter : ∀ j ∈ σ.jobs, ∀ todo, j.reading = .reading todo → ∀ n, .enter n ∈ todo →
    t.disk.IsDir (j.abs ++ [n])

/-- A worker that goes on has to enter what it had to, or a directory it has just seen. -/
theorem Supplied.goOn (h : Supplied t σ) (hj : σ.jobs[i]? = some j)
    (henter : ∀ todo, reading = .reading todo → ∀ n, .enter n ∈ todo →
      t.disk.IsDir (j.abs ++ [n])) : Supplied t (σ.goOn i j reading) where
  nonempty := by simpa [ScanState.goOn] using h.nonempty
  isDir k hk := by
    rcases List.mem_or_eq_of_mem_set hk with hk | rfl
    · exact h.isDir k hk
    · exact h.isDir j (List.mem_of_getElem? hj)
  enter k hk := by
    rcases List.mem_or_eq_of_mem_set hk with hk | rfl
    · exact h.enter k hk
    · exact henter

theorem Supplied.step (h : Supplied t σ) (hs : ScanStep t lost ignores σ τ) : Supplied t τ := by
  -- what is left to enter after the first entry
  have htail : ∀ {i : ℕ} {j : ScanJob} {task todo}, σ.jobs[i]? = some j →
      j.reading = .reading (task :: todo) →
      ∀ todo', Reading.reading todo = .reading todo' → ∀ n, .enter n ∈ todo' →
        t.disk.IsDir (j.abs ++ [n]) := by
    intro i j task todo hj hreading todo' he n hn
    obtain rfl := Reading.reading.inj he
    exact h.enter j (List.mem_of_getElem? hj) _ hreading n (List.mem_cons_of_mem _ hn)
  cases hs with
  | notOpened hj | unreadable hj | finish hj | rethrow hj => exact h.goOn hj nofun
  | opened hj =>
    refine h.goOn hj fun todo he n hn => ?_
    obtain rfl := Reading.reading.inj he
    simp at hn
  | skip hj hreading | pass hj hreading => exact h.goOn hj (htail hj hreading)
  | @append i j n node todo hj hreading hskip hget =>
    have hg : Supplied t (σ.goOn i j (.reading (afterLook node n todo))) := by
      refine h.goOn hj fun todo' he m hm => ?_
      obtain rfl := Reading.reading.inj he
      rw [afterLook] at hm
      split_ifs at hm with hdir
      · rcases List.mem_cons.mp hm with hm | hm
        · obtain rfl := ScanTask.enter.inj hm
          exact ⟨node, (Disk.lstat_eq_some.mp hget).2, hdir⟩
        · exact htail hj hreading _ rfl m hm
      · exact htail hj hreading _ rfl m hm
    exact ⟨hg.nonempty, hg.isDir, hg.enter⟩
  | @enqueue i j n todo hj hreading =>
    have hg : Supplied t (σ.goOn i j (.reading todo)) := h.goOn hj (htail hj hreading)
    have hdir : t.disk.IsDir (j.abs ++ [n]) :=
      h.enter j (List.mem_of_getElem? hj) _ hreading n List.mem_cons_self
    refine ⟨by simp, fun k hk => ?_, fun k hk todo' he m hm => ?_⟩
    · rcases List.mem_append.mp hk with hk | hk
      · exact hg.isDir k hk
      · rwa [List.mem_singleton.mp hk]
    · rcases List.mem_append.mp hk with hk | hk
      · exact hg.enter k hk todo' he m hm
      · rw [List.mem_singleton.mp hk] at he
        cases he

theorem supplied_of_run (hroot : t.disk.IsDir root)
    (hrun : Reaches (ScanStep t lost ignores) (ScanState.start root) σ) : Supplied t σ := by
  refine hrun.invariant ⟨by simp [ScanState.start], ?_, ?_⟩ fun _ _ h hs => h.step hs
  · intro j hj
    rwa [List.mem_singleton.mp hj]
  · intro j hj todo he
    rw [List.mem_singleton.mp hj] at he
    cases he

/-- No worker has failed. -/
def ScanState.Clean (σ : ScanState) : Prop := ∀ j ∈ σ.jobs, j.reading ≠ .failed

theorem ScanState.Clean.goOn (h : σ.Clean) (hr : reading ≠ .failed) :
    (σ.goOn i j reading).Clean := by
  intro k hk
  rcases List.mem_or_eq_of_mem_set hk with hk | rfl
  · exact h k hk
  · exact hr

/-- The first worker has ended. -/
def ScanState.Over (σ : ScanState) : Prop := ∃ j, σ.jobs[0]? = some j ∧ j.Ended

theorem ScanState.Clean.returned (h : σ.Clean) (ho : σ.Over) : σ.Returned := by
  obtain ⟨j, hj, he⟩ := ho
  exact ⟨j, hj, he.resolve_right (h j (List.mem_of_getElem? hj))⟩

/-- **A scan that is not over can go on**, and none of its workers need fail for it. -/
theorem exists_scanStep (ho : Owned σ.jobs) (hs : Supplied t σ) (hover : ¬ σ.Over) :
    ∃ τ, ScanStep t lost ignores σ τ ∧ (σ.Clean → τ.Clean) := by
  have hfirst : ∃ j ∈ σ.jobs, ¬ j.Ended := by
    obtain ⟨j, l, hjobs⟩ := List.exists_cons_of_ne_nil hs.nonempty
    have h0 : σ.jobs[0]? = some j := by rw [hjobs]; rfl
    exact ⟨j, List.mem_of_getElem? h0, fun he => hover ⟨j, h0, he⟩⟩
  -- those that the last worker that has not ended waits for come after it
  obtain ⟨i, j, hj, hend, hlast⟩ := ForkJoin.exists_last hfirst
  have hmem := List.mem_of_getElem? hj
  have hwait : ∀ k ∈ σ.jobs, k.owner = some i → k.Ended := by
    intro k hk hki
    obtain ⟨m, hm⟩ := List.mem_iff_getElem?.mp hk
    exact hlast m k ((ho.owner m k hm).2 i hki) hm
  cases hreading : j.reading with
  | done => exact absurd (Or.inl hreading) hend
  | failed => exact absurd (Or.inr hreading) hend
  | opening =>
    exact ⟨_, .opened hj hreading (hs.isDir j hmem) (List.Perm.refl _), fun h => h.goOn nofun⟩
  | reading todo =>
    match todo, hreading with
    | [], hreading =>
      by_cases hfailed : ∃ k ∈ σ.jobs, k.owner = some i ∧ k.reading = .failed
      · refine ⟨_, .rethrow hj hreading hwait hfailed, fun h => ?_⟩
        obtain ⟨k, hk, -, hkf⟩ := hfailed
        exact absurd hkf (h k hk)
      · refine ⟨_, .finish hj hreading fun k hk hki => ?_, fun h => h.goOn nofun⟩
        exact (hwait k hk hki).resolve_right fun hkf => hfailed ⟨k, hk, hki, hkf⟩
    | .enter n :: todo, hreading =>
      refine ⟨_, .enqueue hj hreading, fun h k hk => ?_⟩
      rcases List.mem_append.mp hk with hk | hk
      · have hg : (σ.goOn i j (.reading todo)).Clean := h.goOn nofun
        exact hg k hk
      · rw [List.mem_singleton.mp hk]
        exact nofun
    | .look n :: todo, hreading =>
      by_cases hskip : t.Skips ignores j.abs j.rel n
      · exact ⟨_, .skip hj hreading hskip, fun h => h.goOn nofun⟩
      · cases hlost : lost (j.abs ++ [n]) with
        | true => exact ⟨_, .pass hj hreading hskip hlost, fun h => h.goOn nofun⟩
        | false =>
          have hne : t.disk.get (j.abs ++ [n]) ≠ none := fun hnone =>
            hskip (Or.inr (Or.inl hnone))
          obtain ⟨node, hget⟩ := Option.ne_none_iff_exists'.mp hne
          exact ⟨_, .append hj hreading hskip (Disk.lstat_eq_some.mpr ⟨hlost, hget⟩),
            fun h => h.goOn nofun⟩

/-- **A scan in which no worker has failed can go on until it returns.** -/
theorem exists_scan_returned (hroot : t.disk.IsDir root)
    (hrun : Reaches (ScanStep t lost ignores) (ScanState.start root) σ) (hclean : σ.Clean) :
    ∃ τ, Reaches (ScanStep t lost ignores) σ τ ∧ τ.Returned := by
  let Inv : ScanState → Prop := fun u =>
    Reaches (ScanStep t lost ignores) (ScanState.start root) u ∧ u.Clean
  have hinv : Inv σ := ⟨hrun, hclean⟩
  refine (scan_terminates σ).exists_reaches hinv fun u ⟨hu, hcu⟩ hret => ?_
  obtain ⟨v, hv, hcv⟩ := exists_scanStep (scanInv_of_run hu).owned (supplied_of_run hroot hu)
    fun hover => hret (hcu.returned hover)
  exact ⟨v, hv, hu.tail hv, hcv hcu⟩

end Ends

/-! ### Exactness -/

section Exact

variable {t : DirTree} {lost : List Name → Bool} {ignores : Bytes → Bool} {root ns : List Name}
  {node : Node} {σ : ScanState}

/-- What is on the way to an entry is a directory. -/
theorem DirTree.isDir_of_get {p q : List Name} (hq : q ≠ []) (h : t.disk.get (p ++ q) ≠ none) :
    t.disk.IsDir p := by
  induction q using List.reverseRecOn with
  | nil => exact absurd rfl hq
  | append_singleton q n ih =>
    rw [← List.append_assoc] at h
    have hdir : t.disk.IsDir (p ++ q) := t.closed _ _ h
    by_cases hnil : q = []
    · simpa [hnil] using hdir
    · obtain ⟨dir, hget, -⟩ := hdir
      exact ih hnil (by simp [hget])

/-- The name `.fstree`. -/
def fstreeBytes : Bytes := ascii ['.', 'f', 's', 't', 'r', 'e', 'e']

/-- Of the names on the way to an entry, only `.fstree` is reserved. -/
theorem DirTree.reserved_iff {p q : List Name} (h : t.disk.get (p ++ q) ≠ none) :
    ∀ m ∈ q, m.bytes ∈ reserved ↔ m.bytes = fstreeBytes := by
  intro m hm
  obtain ⟨l, r, rfl⟩ := List.append_of_mem hm
  have hget : t.disk.get (p ++ l ++ [m]) ≠ none := by
    by_cases hr : r = []
    · simpa [hr] using h
    · obtain ⟨dir, hdir, -⟩ : t.disk.IsDir (p ++ l ++ [m]) :=
        t.isDir_of_get hr (by simpa using h)
      rw [hdir]
      simp
  obtain ⟨h1, h2⟩ := t.plain _ _ hget
  simp [reserved, h1, h2, fstreeBytes]

/-- **An entry that a scan has to list**: nothing on the way to it is called `.fstree` or
ignored. -/
structure Wanted (t : DirTree) (ignores : Bytes → Bool) (root ns : List Name) (node : Node) :
    Prop where
  get : t.disk.get (root ++ ns) = some node
  ne_nil : ns ≠ []
  not_fstree : ∀ m ∈ ns, m.bytes ≠ fstreeBytes
  not_ignored : ∀ ks, ks <+: ns → ks ≠ [] → ignores (pathStr ks) = false

/-- **A scan lists what it has to**, as far as `lstat` sees it. -/
theorem listed_iff_wanted :
    Listed t.disk lost ignores root ns node ↔
      Wanted t ignores root ns node ∧ Seen lost root ns := by
  induction ns using List.reverseRecOn generalizing node with
  | nil => exact ⟨fun h => absurd rfl h.ne_nil, fun h => absurd rfl h.1.ne_nil⟩
  | append_singleton ns n ih =>
    rw [listed_concat, seen_concat]
    constructor
    · rintro ⟨hdir, hlstat, hres, hign⟩
      obtain ⟨hlost, hget⟩ := Disk.lstat_eq_some.mp hlstat
      have hn : n.bytes ≠ fstreeBytes := fun he => hres ((t.reserved_iff
        (p := root) (q := ns ++ [n]) (by simp [hget]) n (by simp)).mpr he)
      have hup : ns = [] ∨ ∃ dir, Wanted t ignores root ns dir ∧ Seen lost root ns :=
        hdir.imp id fun ⟨dir, hl, _⟩ => ⟨dir, ih.mp hl⟩
      refine ⟨⟨hget, by simp, fun m hm => ?_, fun ks hks hne => ?_⟩, ?_, hlost⟩
      · rcases List.mem_append.mp hm with hm | hm
        · rcases hup with rfl | ⟨dir, hw, -⟩
          · cases hm
          · exact hw.not_fstree m hm
        · exact List.mem_singleton.mp hm ▸ hn
      · rcases List.prefix_concat_iff.mp hks with rfl | hks
        · exact hign
        · rcases hup with rfl | ⟨dir, hw, -⟩
          · exact absurd (List.prefix_nil.mp hks) hne
          · exact hw.not_ignored ks hks hne
      · rcases hup with rfl | ⟨dir, -, hseen⟩
        · exact fun ks hks hne => absurd (List.prefix_nil.mp hks) hne
        · exact hseen
    · rintro ⟨hw, hseen, hlost⟩
      have hget := hw.get
      have hres : n.bytes ∉ reserved := fun h => hw.not_fstree n (by simp)
        ((t.reserved_iff (p := root) (q := ns ++ [n]) (by simp [hget]) n (by simp)).mp h)
      refine ⟨?_, Disk.lstat_eq_some.mpr ⟨hlost, hget⟩, hres,
        hw.not_ignored _ (List.prefix_refl _) (by simp)⟩
      by_cases hns : ns = []
      · exact Or.inl hns
      · obtain ⟨dir, hdget, hdir⟩ : t.disk.IsDir (root ++ ns) :=
          t.closed _ n (by simp [hget])
        refine Or.inr ⟨dir, ih.mpr ⟨⟨hdget, hns, fun m hm => ?_, fun ks hks hne => ?_⟩, hseen⟩,
          hdir⟩
        · exact hw.not_fstree m (List.mem_append_left _ hm)
        · exact hw.not_ignored ks (hks.trans (List.prefix_append _ _)) hne

/-- The children of an inode after the ignored ones were marked. -/
def ScanState.markedChildren (ignores : Bytes → Bool) (σ : ScanState) (p : Bytes) : List Inode :=
  (σ.children p).map (mark ignores)

/-- **The inodes that are reached from the root** through children that are not ignored. -/
inductive ReachedBy (children : Bytes → List Inode) : Inode → Prop
  | top {c : Inode} (hc : c ∈ children []) (hign : c.ignored = false) : ReachedBy children c
  | child {i c : Inode} (hi : ReachedBy children i) (hc : c ∈ children i.path)
      (hign : c.ignored = false) : ReachedBy children c

theorem children_scanOfRun (hroot : t.disk.IsDir root)
    (hrun : Reaches (ScanStep t lost ignores) (ScanState.start root) σ) (hret : σ.Returned)
    (p : Bytes) :
    (scanOfRun hroot hrun hret).children p = σ.markedChildren ignores p := by
  rw [ScanState.markedChildren, (scanInv_of_run hrun).linked p, Scan.children, Scan.marked,
    List.filter_map]
  refine congrArg _ (List.filter_congr fun i _ => ?_)
  simp

/-- **The child tree has what the list has.** -/
theorem Scan.reachedBy_iff {d : Disk} (s : Scan d ignores root) {i : Inode} :
    ReachedBy s.children i ↔ i ∈ s.inodes := by
  constructor
  · intro h
    cases h with
    | top hc hign => exact ((s.index.mem_children _ _).mp ⟨hc, hign⟩).1
    | child _ hc hign => exact ((s.index.mem_children _ _).mp ⟨hc, hign⟩).1
  · suffices hs : ∀ n, ∀ i ∈ s.inodes, i.path.length ≤ n → ReachedBy s.children i from
      fun hi => hs _ i hi le_rfl
    intro n
    -- up the parents, whose paths are shorter
    induction n with
    | zero =>
      intro i hi hlen
      exact absurd (List.length_eq_zero_iff.mp (Nat.le_zero.mp hlen)) (s.index.path_ne_nil hi)
    | succ n ih =>
      intro i hi hlen
      obtain ⟨p, hp⟩ := s.index.exists_parent hi
      obtain ⟨hc, hign⟩ := (s.index.mem_children p i).mpr ⟨hi, hp⟩
      rcases s.mem_inodes_parent hi hp with rfl | ⟨j, hj, rfl, -⟩
      · exact .top hc hign
      · have hlt := s.index.parent_length_lt hi hp
        exact .child (ih j hj (by omega)) hc hign

/-- The list of a run has what it has to, as far as `lstat` sees it. -/
theorem mem_scanOfRun (hroot : t.disk.IsDir root)
    (hrun : Reaches (ScanStep t lost ignores) (ScanState.start root) σ) (hret : σ.Returned)
    {i : Inode} : i ∈ (scanOfRun hroot hrun hret).inodes ↔ ∃ ns n node,
      Wanted t ignores root (ns ++ [n]) node ∧ Seen lost root (ns ++ [n]) ∧
        i = scanned (pathStr ns) n node := by
  rw [Scan.mem_inodes]
  refine exists_congr fun ns => exists_congr fun n => exists_congr fun node => ?_
  rw [← and_assoc, ← listed_iff_wanted]
  rfl

end Exact

/-- **The scan is exact, whatever the scheduler does.** The workers always come to an end, and
until the first of them has ended one can take a step; if none has failed, because `opendir` or
`read_symlink` has, the scan can go on until it returns. A run that returns makes a list that is
strictly sorted by path and has the regular files, directories and symlinks that nothing on the
way to, themselves included, is called `.fstree` or ignored, or has `lstat` failing for it.
The inodes that are reached from the root through children that are not ignored are those
of the list, and the parent of each is the directory its path names. So the list, and the
encoding of every directory after it was sorted, are the same for all runs. -/
theorem scan_exact {t : DirTree} {lost : List Name → Bool} {ignores : Bytes → Bool}
    {root : List Name} (hroot : t.disk.IsDir root) :
    Terminates (ScanStep t lost ignores) (ScanState.start root) ∧
    (∀ σ, Reaches (ScanStep t lost ignores) (ScanState.start root) σ →
      (σ.Over ∨ ∃ τ, ScanStep t lost ignores σ τ) ∧
      (σ.Clean → ∃ τ, Reaches (ScanStep t lost ignores) σ τ ∧ τ.Returned)) ∧
    ∀ (σ : ScanState) (hrun : Reaches (ScanStep t lost ignores) (ScanState.start root) σ)
      (hret : σ.Returned),
      StrictBy Inode.path (scanOfRun hroot hrun hret).inodes ∧
      (∀ i, i ∈ (scanOfRun hroot hrun hret).inodes ↔ ∃ ns n node,
        Wanted t ignores root (ns ++ [n]) node ∧ Seen lost root (ns ++ [n]) ∧
          i = scanned (pathStr ns) n node) ∧
      (∀ i, ReachedBy (σ.markedChildren ignores) i ↔ i ∈ (scanOfRun hroot hrun hret).inodes) ∧
      (∀ i ∈ (scanOfRun hroot hrun hret).inodes, ∃ ns n, i.path = pathStr (ns ++ [n]) ∧
        i.parent = some (pathStr ns) ∧ i ∈ σ.markedChildren ignores (pathStr ns) ∧
        (ns = [] ∨ ∃ j ∈ (scanOfRun hroot hrun hret).inodes,
          j.path = pathStr ns ∧ j.isDirectory = true)) ∧
      ∀ (σ' : ScanState) (hrun' : Reaches (ScanStep t lost ignores) (ScanState.start root) σ')
        (hret' : σ'.Returned),
        (scanOfRun hroot hrun' hret').inodes = (scanOfRun hroot hrun hret).inodes ∧
        ∀ (hs : Hashes) (p : Bytes),
          encodeTree ((sortBy Inode.path (σ'.markedChildren ignores p)).map hs.apply) =
            encodeTree ((sortBy Inode.path (σ.markedChildren ignores p)).map hs.apply) := by
  refine ⟨scan_terminates _, fun σ hrun => ⟨?_, exists_scan_returned hroot hrun⟩,
    fun σ hrun hret => ?_⟩
  · by_cases hover : σ.Over
    · exact Or.inl hover
    · obtain ⟨τ, hs, -⟩ :=
        exists_scanStep (scanInv_of_run hrun).owned (supplied_of_run hroot hrun) hover
      exact Or.inr ⟨τ, hs⟩
  have hchildren := children_scanOfRun hroot hrun hret
  refine ⟨Scan.strictBy_inodes _, fun i => mem_scanOfRun hroot hrun hret, fun i => ?_,
    fun i hi => ?_, fun σ' hrun' hret' => ?_⟩
  · rw [← funext hchildren]
    exact Scan.reachedBy_iff _
  · obtain ⟨ns, n, hpath, hparent⟩ := (scanOfRun hroot hrun hret).index.named i hi
    refine ⟨ns, n, hpath, hparent, ?_, ?_⟩
    · rw [← hchildren]
      exact (((scanOfRun hroot hrun hret).index.mem_children _ _).mpr ⟨hi, hparent⟩).1
    · simpa using (scanOfRun hroot hrun hret).mem_inodes_parent hi hparent
  · have hlist : (scanOfRun hroot hrun' hret').inodes = (scanOfRun hroot hrun hret).inodes :=
      Scan.inodes_eq _ _ fun _ => rfl
    refine ⟨hlist, fun hs p => ?_⟩
    rw [← hchildren, ← children_scanOfRun hroot hrun' hret']
    have htree : (scanOfRun hroot hrun' hret').index.tree hs p =
        (scanOfRun hroot hrun hret).index.tree hs p := by
      refine Index.tree_eq_of_entries _ fun e => ?_
      simp only [Scan.index, hlist]
    exact htree

namespace Sample

/-- Names of a file and a pipe. -/
def fileG : Name := ⟨ascii ['g'], by decide, by decide⟩

@[inherit_doc fileG] def pipeP : Name := ⟨ascii ['p'], by decide, by decide⟩

/-- A file `a`, and a directory `d` with a directory `d` and a file `g` in it. -/
def scanEntries : List (List Name × Node) :=
  [([], .dir 0o755 1 0), ([nameA], .file 0o644 2 (ascii ['x'])), ([nameD], .dir 0o755 3 0),
    ([nameD, nameD], .dir 0o755 4 0), ([nameD, fileG], .file 0o644 5 (ascii ['y']))]

theorem eq_of_get {p : List Name} {n : Name} (h : (⟨scanEntries⟩ : Disk).get (p ++ [n]) ≠ none) :
    (p = [] ∧ (n = nameA ∨ n = nameD)) ∨ (p = [nameD] ∧ (n = nameD ∨ n = fileG)) := by
  obtain ⟨m, hm⟩ := Disk.get_ne_none_iff.mp h
  have hpn : p ++ [n] = [] ++ [nameA] ∨ p ++ [n] = [] ++ [nameD] ∨
      p ++ [n] = [nameD] ++ [nameD] ∨ p ++ [n] = [nameD] ++ [fileG] := by
    simp only [scanEntries, List.mem_cons, Prod.mk.injEq, List.not_mem_nil, or_false] at hm
    rcases hm with ⟨he, -⟩ | ⟨he, -⟩ | ⟨he, -⟩ | ⟨he, -⟩ | ⟨he, -⟩
    · simp at he
    · exact Or.inl he
    · exact Or.inr (Or.inl he)
    · exact Or.inr (Or.inr (Or.inl he))
    · exact Or.inr (Or.inr (Or.inr he))
  rcases hpn with hpn | hpn | hpn | hpn <;> obtain ⟨rfl, hn⟩ := List.append_inj' hpn rfl <;>
    obtain rfl := (List.cons.inj hn).1 <;> simp

/-- The directory with a pipe next to the file. -/
def dirTree : DirTree where
  disk := ⟨scanEntries⟩
  special := [[pipeP]]
  special_get := by decide
  closed p n h := by
    rcases eq_of_get h with ⟨rfl, -⟩ | ⟨rfl, -⟩ <;> decide
  plain p n h := by
    rcases eq_of_get h with ⟨-, rfl | rfl⟩ | ⟨-, rfl | rfl⟩ <;> decide

/-- `lstat` fails for the file in the directory. -/
def lostG (p : List Name) : Bool := p = [nameD, fileG]

theorem isDir_dirTree : dirTree.disk.IsDir [] := by decide

theorem clean_start (root : List Name) : (ScanState.start root).Clean := by
  intro j hj
  rw [List.mem_singleton.mp hj]
  exact nofun

end Sample

/-- A scan of the directory returns, whatever its workers have done so far, and lists all of it
but the file that `lstat` fails for. -/
theorem scan_exact_sample : ∃ (σ : ScanState)
    (hrun : Reaches (ScanStep Sample.dirTree Sample.lostG fun _ => false) (ScanState.start []) σ)
    (hret : σ.Returned), StrictBy Inode.path (scanOfRun (by decide) hrun hret).inodes ∧
      (scanOfRun (by decide) hrun hret).inodes.map Inode.path =
        [pathStr [Sample.nameA], pathStr [Sample.nameD], pathStr [Sample.nameD, Sample.nameD]] := by
  obtain ⟨-, hgo, hexact⟩ :=
    @scan_exact Sample.dirTree Sample.lostG (fun _ => false) [] Sample.isDir_dirTree
  obtain ⟨σ, hrun, hret⟩ := (hgo _ .refl).2 (Sample.clean_start [])
  refine ⟨σ, hrun, hret, (hexact σ hrun hret).1, ?_⟩
  have hlist : (scanOfRun Sample.isDir_dirTree hrun hret).inodes =
      (Scan.sequentialLosing _ Sample.lostG _ [] Sample.isDir_dirTree).inodes :=
    Scan.inodes_eq _ _ fun _ => rfl
  refine (congrArg (List.map Inode.path) hlist).trans ?_
  clear hrun hret hlist
  decide +kernel

/-- **A scan need not have everything that is to be listed**: what `lstat` fails for is passed
over. -/
theorem scan_not_exact : ¬ ∀ (t : DirTree) (lost : List Name → Bool) (ignores : Bytes → Bool)
    (root : List Name) (hroot : t.disk.IsDir root) (σ : ScanState)
    (hrun : Reaches (ScanStep t lost ignores) (ScanState.start root) σ) (hret : σ.Returned)
    (i : Inode),
    i ∈ (scanOfRun hroot hrun hret).inodes ↔ ∃ ns n node,
      Wanted t ignores root (ns ++ [n]) node ∧ i = scanned (pathStr ns) n node := by
  intro hclaim
  obtain ⟨σ, hrun, hret⟩ := @exists_scan_returned Sample.dirTree Sample.lostG (fun _ => false) [] _
    Sample.isDir_dirTree .refl (Sample.clean_start [])
  have hwanted : Wanted Sample.dirTree (fun _ => false) [] ([Sample.nameD] ++ [Sample.fileG])
      (.file 0o644 5 (ascii ['y'])) := ⟨by decide, by decide, by decide, fun _ _ _ => rfl⟩
  have hmem := (hclaim _ _ _ _ Sample.isDir_dirTree σ hrun hret _).mpr ⟨_, _, _, hwanted, rfl⟩
  obtain ⟨ns, n, node, -, hseen, he⟩ := (mem_scanOfRun Sample.isDir_dirTree hrun hret).mp hmem
  have hpath : pathStr ([Sample.nameD] ++ [Sample.fileG]) = pathStr (ns ++ [n]) := by
    have hp := congrArg Inode.path he
    simpa only [scanned, joinPath_pathStr] using hp
  rw [← pathStr_injective hpath] at hseen
  exact absurd (hseen _ (List.prefix_refl _) (by decide)) (by decide)

end Fstree
