import Fstree.Foundations.Orphans
import Fstree.ScanRun

/-!
# Scans on the pool

`sorted_directory_iterator::read_directory` has each directory it finds read by the pool of the
program, with `enqueue_or_run`, and at the end waits for these with its wait group. A worker
may so wait for a task of its own pool, and as many scans as there are threads may be under way.

The calls of `read_directory` are the tasks of a pool that forks and joins
(`Fstree.ReadAct`): here is who executes them, and how each ends, whichever of `opendir`, `lstat`
and `read_symlink` fails. No scan is ever stuck (`Fstree.scan_never_stuck`): the semaphore has a
permit for every worker, so what is accepted and has not ended is never more than there are
workers.
-/

namespace Fstree

open Codec Transition
open ForkJoin (Act Call)

/-- **A call of `read_directory`** of the directory `abs`, at `rel` in the scan: it has not called
`opendir` yet, or has this left to do. -/
structure Reader where
  abs : List Name
  rel : Bytes
  ignores : Bytes → Bool
  todo : Option (List ScanTask) := none

/-- It goes on with what is left to do. -/
def Reader.goOn (r : Reader) (todo : List ScanTask) : Reader := { r with todo := some todo }

/-- The call that reads a directory in this one. -/
def Reader.enter (r : Reader) (n : Name) : Reader where
  abs := r.abs ++ [n]
  rel := joinPath r.rel n.bytes
  ignores := r.ignores

/-- The entry is skipped. -/
def Reader.Skips (t : DirTree) (r : Reader) (n : Name) : Prop := t.Skips r.ignores r.abs r.rel n

/-- **What a call of `read_directory` does next.** -/
inductive ReadAct (t : DirTree) : Reader → Act Reader → Prop
  /-- `opendir`; `readdir` will give the entries in this order. -/
  | opened {r : Reader} {names : List Name} (htodo : r.todo = none) (hdir : t.disk.IsDir r.abs)
      (hnames : names.Perm (t.entriesIn r.abs)) :
      ReadAct t r (.go (r.goOn (names.map .look)))
  /-- `opendir` fails. -/
  | notOpened {r : Reader} (htodo : r.todo = none) : ReadAct t r .throw
  | skip {r : Reader} {n todo} (htodo : r.todo = some (.look n :: todo)) (hskip : r.Skips t n) :
      ReadAct t r (.go (r.goOn todo))
  /-- `lstat` fails. -/
  | lost {r : Reader} {n todo} (htodo : r.todo = some (.look n :: todo)) (hskip : ¬ r.Skips t n) :
      ReadAct t r (.go (r.goOn todo))
  /-- `read_symlink` throws. -/
  | unreadable {r : Reader} {n todo mtime target} (htodo : r.todo = some (.look n :: todo))
      (hskip : ¬ r.Skips t n) (hget : t.disk.get (r.abs ++ [n]) = some (.symlink mtime target)) :
      ReadAct t r .throw
  | append {r : Reader} {n node todo} (htodo : r.todo = some (.look n :: todo))
      (hskip : ¬ r.Skips t n) (hget : t.disk.get (r.abs ++ [n]) = some node) :
      ReadAct t r (.go (r.goOn (afterLook node n todo)))
  /-- `enqueue_or_run` -/
  | enter {r : Reader} {n todo} (htodo : r.todo = some (.enter n :: todo)) :
      ReadAct t r (.fork (r.enter n) (r.goOn todo))
  /-- `wait_rethrow` -/
  | wait {r : Reader} (htodo : r.todo = some []) : ReadAct t r .join

/-- A call of `read_directory` that is executed can do something. -/
theorem exists_readAct (t : DirTree) (r : Reader) : ∃ a, ReadAct t r a := by
  cases htodo : r.todo with
  | none => exact ⟨_, .notOpened htodo⟩
  | some todo =>
    match todo, htodo with
    | [], htodo => exact ⟨_, .wait htodo⟩
    | .enter n :: todo, htodo => exact ⟨_, .enter htodo⟩
    | .look n :: todo, htodo =>
      by_cases hskip : r.Skips t n
      · exact ⟨_, .skip htodo hskip⟩
      · exact ⟨_, .lost htodo hskip⟩

/-- **The scans of several threads**, each of a directory with its ignore list, begin on a pool of
`n` workers. -/
def startScans (n : ℕ) (scans : List (List Name × (Bytes → Bool))) : ForkJoin.State Reader :=
  .start n (scans.map fun s => { abs := s.1, rel := [], ignores := s.2 })

/-- One step of a thread that scans, or of a worker that falls asleep or wakes up. -/
def PoolStep (t : DirTree) (σ τ : ForkJoin.State Reader) : Prop :=
  ForkJoin.Step (ReadAct t) σ τ ∨ ForkJoin.Rest σ τ

/-- **No scan is ever stuck**: in every reachable state of a pool of `n` workers the directories
that were accepted and are not finished are at most `n`, while one is in the queue some worker is
not busy, and while a call has not ended some thread can take a step – not just fall asleep. -/
theorem scan_never_stuck {t : DirTree} {n : ℕ} {scans : List (List Name × (Bytes → Bool))}
    {σ : ForkJoin.State Reader} (hrun : Reaches (PoolStep t) (startScans n scans) σ) :
    σ.calls.countP Call.accepted ≤ n ∧
    (σ.queue ≠ [] → ∃ w ∈ σ.workers, w.isBusy = false) ∧
    ((∃ c ∈ σ.calls, c.phase.isEnded = false) → ∃ τ, ForkJoin.Step (ReadAct t) σ τ) := by
  have hinv : ForkJoin.Inv n σ := ForkJoin.inv_of_reaches hrun
  exact ⟨hinv.accepted_le, hinv.exists_not_busy, hinv.exists_step (exists_readAct t)⟩

/-! ### A directory and a symlink -/

namespace Sample

/-- A directory in which `d` is a directory, and `a` a symlink. -/
def linkEntries : List (List Name × Node) :=
  [([], .dir 0o755 1 0), ([nameD], .dir 0o755 2 0), ([nameA], .symlink 3 (ascii ['x']))]

theorem eq_of_get_link {p : List Name} {n : Name}
    (h : (⟨linkEntries⟩ : Disk).get (p ++ [n]) ≠ none) : p = [] ∧ (n = nameD ∨ n = nameA) := by
  obtain ⟨m, hm⟩ := Disk.get_ne_none_iff.mp h
  have hpn : p ++ [n] = [] ++ [nameD] ∨ p ++ [n] = [] ++ [nameA] := by
    simp only [linkEntries, List.mem_cons, Prod.mk.injEq, List.not_mem_nil, or_false] at hm
    rcases hm with ⟨he, -⟩ | ⟨he, -⟩ | ⟨he, -⟩
    · simp at he
    · exact Or.inl he
    · exact Or.inr he
  rcases hpn with hpn | hpn
  · obtain ⟨hp, hn⟩ := List.append_inj' hpn rfl
    exact ⟨hp, Or.inl (List.cons.inj hn).1⟩
  · obtain ⟨hp, hn⟩ := List.append_inj' hpn rfl
    exact ⟨hp, Or.inr (List.cons.inj hn).1⟩

/-- The tree of the directory. -/
def linkTree : DirTree where
  disk := ⟨linkEntries⟩
  special := []
  special_get := by simp
  closed p n h := by
    obtain ⟨rfl, -⟩ := eq_of_get_link h
    decide
  plain p n h := by
    obtain ⟨rfl, rfl | rfl⟩ := eq_of_get_link h <;> decide

/-- The call of the thread that scans it. -/
def linkReader (todo : Option (List ScanTask)) : Reader := ⟨[], [], fun _ => false, todo⟩

/-- The pool of one worker before the thread comes to `d`. -/
def linkBefore (todo : Option (List ScanTask)) : ForkJoin.State Reader :=
  ⟨[⟨none, .caller, .running (linkReader todo), {}⟩], [], 1, [.idle]⟩

/-- The pool when `d` is in the queue. -/
def linkForked (phase : ForkJoin.Phase Reader) : ForkJoin.State Reader :=
  ⟨[⟨none, .caller, phase, ⟨1, false⟩⟩,
    ⟨some 0, .pooled, .queued ((linkReader none).enter nameD), {}⟩], [1], 0, [.idle]⟩

theorem not_skips_link {n : Name} (hreserved : n.bytes ∉ reserved)
    (hget : linkTree.disk.get [n] ≠ none) (todo : Option (List ScanTask)) :
    ¬ (linkReader todo).Skips linkTree n := by
  rintro (h | h | ⟨node, -, -, h⟩)
  · exact hreserved h
  · exact hget h
  · cases h

/-- The thread goes on. -/
theorem link_go {todo : Option (List ScanTask)} {rest : List ScanTask}
    (h : ReadAct linkTree (linkReader todo) (.go ((linkReader todo).goOn rest))) :
    PoolStep linkTree (linkBefore todo) (linkBefore (some rest)) :=
  Or.inl (@ForkJoin.Step.go _ _ (linkBefore todo) 0 _ _ _ rfl rfl h)

theorem link_skipped {n : Name} {todo : List ScanTask} (h : n.bytes ∈ reserved) :
    PoolStep linkTree (linkBefore (some (.look n :: todo))) (linkBefore (some todo)) :=
  link_go (.skip rfl (Or.inl h))

theorem link_opened : PoolStep linkTree (linkBefore none)
    (linkBefore (some [.look dotName, .look dotDotName, .look nameD, .look nameA])) :=
  link_go (@ReadAct.opened _ (linkReader none) [dotName, dotDotName, nameD, nameA] rfl (by decide)
    (by decide))

theorem link_appended : PoolStep linkTree (linkBefore (some [.look nameD, .look nameA]))
    (linkBefore (some [.enter nameD, .look nameA])) :=
  link_go (@ReadAct.append _ (linkReader _) nameD (.dir 0o755 2 0) [.look nameA] rfl
    (not_skips_link (by decide) (by decide) _) (by decide))

theorem link_forked : PoolStep linkTree (linkBefore (some [.enter nameD, .look nameA]))
    (linkForked (.notifying (linkReader (some [.look nameA])))) :=
  Or.inl (@ForkJoin.Step.accept _ _ (linkBefore (some [.enter nameD, .look nameA])) 0 _ _ _ _ 0
    rfl rfl (.enter rfl) rfl)

theorem link_notified : PoolStep linkTree
    (linkForked (.notifying (linkReader (some [.look nameA]))))
    (linkForked (.running (linkReader (some [.look nameA])))) :=
  Or.inl (@ForkJoin.Step.wakeNone _ _ (linkForked _) 0 _ _ rfl rfl (by decide))

/-- The thread has had `d` read, and comes to the symlink. -/
theorem reaches_linkForked : Reaches (PoolStep linkTree) (startScans 1 [([], fun _ => false)])
    (linkForked (.running (linkReader (some [.look nameA])))) :=
  .head link_opened <| .head (link_skipped (by decide)) <| .head (link_skipped (by decide)) <|
    .head link_appended <| .head link_forked <| .single link_notified

end Sample

/-- The one worker takes the directory. -/
theorem scan_never_stuck_sample :
    (Sample.linkForked (.running (Sample.linkReader (some [.look Sample.nameA])))).queue ≠ [] ∧
    ∃ τ, ForkJoin.Step (ReadAct Sample.linkTree)
      (Sample.linkForked (.running (Sample.linkReader (some [.look Sample.nameA])))) τ :=
  ⟨by simp [Sample.linkForked], (scan_never_stuck Sample.reaches_linkForked).2.2
    ⟨_, List.mem_cons_self, rfl⟩⟩

end Fstree
