import Fstree.EvictRun
import Mathlib.Data.List.Perm.Subperm

/-!
# Evictors beside each other

Each `write-tree`, `pull` and `pull-checkout` ends with a process of its own that evicts, so that
several of them can be at work on one cache. What a worker does to an object, from `lstat` to
`remove`, it does with the lock of the cache held, and then it alone. But the list of the objects
and their sizes are from its own scan, without the lock. An object that another worker has
removed since then, it skips, and does not subtract its size.

The counter of a worker is the size of what it has scanned and not removed itself
(`Fstree.Evictor.Counts`), whoever else is at work. So it removes an object from a subdirectory
that is below its share only if another worker has removed something that it has scanned
(`Fstree.remove_needed`), and then it can (`Fstree.remove_not_needed`).
-/

namespace Fstree

open Transition

/-! ### The workers of all processes -/

/-- The object with this name. -/
def SubDir.find (d : SubDir) (n : Name) : Option StoredObject :=
  d.objects.find? fun o => o.name = n

/-- `std::filesystem::remove`. -/
def SubDir.remove (d : SubDir) (n : Name) : SubDir where
  objects := d.objects.filter fun p => p.name ≠ n
  nodup_names := d.nodup_names.sublist (List.filter_sublist.map _)

/-- **How far `evict_subdir` has got**: in the scan, or in the second loop, with the objects it has
not yet looked at, and `size`. -/
inductive EvictorPhase
  | scan
  | loop (todo : List StoredObject) (size : BitVec 64)
  | done
  | failed

/-- **A worker of a process**: what its scan has found, and what it has removed itself. -/
structure Evictor where
  found : List StoredObject
  phase : EvictorPhase
  removed : List StoredObject

/-- **A cache on which processes `P` evict**. Each has a worker for every subdirectory that it has
found. -/
structure RaceState (P : Type*) where
  now : ℤ
  dirs : HexPair → SubDir
  worker : P × HexPair → Evictor

/-- The steps that matter to the others. -/
inductive RaceDeed (P : Type*)
  /-- The worker removes an object. -/
  | remove (w : P × HexPair)
  | other

namespace RaceState

variable {P : Type*} [DecidableEq P]

/-- No worker has begun. -/
def start (now : ℤ) (dirs : HexPair → SubDir) : RaceState P := ⟨now, dirs, fun _ => ⟨[], .scan, []⟩⟩

/-- The subdirectory of a worker. -/
def dir (σ : RaceState P) (w : P × HexPair) : SubDir := σ.dirs w.2

/-- The worker goes on. -/
def put (σ : RaceState P) (w : P × HexPair) (e : Evictor) : RaceState P :=
  { σ with worker := Function.update σ.worker w e }

/-- The object is removed from the subdirectory of the worker. -/
def drop (σ : RaceState P) (w : P × HexPair) (n : Name) : RaceState P :=
  { σ with dirs := Function.update σ.dirs w.2 ((σ.dir w).remove n) }

end RaceState

section Step

variable {P : Type*} [DecidableEq P]

/-- **One step** of the clock or of a worker. The scan sees one object after the other, and others
may be removed meanwhile; it has seen all that are there when it ends. -/
inductive RaceStep (cfg : EvictConfig) : RaceState P → RaceDeed P → RaceState P → Prop
  | tick {σ now} (h : σ.now ≤ now) : RaceStep cfg σ .other { σ with now := now }
  | entry {σ w o} (h : (σ.worker w).phase = .scan) (ho : o ∈ (σ.dir w).objects)
      (hnew : o ∉ (σ.worker w).found) : RaceStep cfg σ .other
        (σ.put w { σ.worker w with found := (σ.worker w).found ++ [o] })
  | scanned {σ w todo} (h : (σ.worker w).phase = .scan)
      (hall : ∀ o ∈ (σ.dir w).objects, o ∈ (σ.worker w).found)
      (hperm : todo.Perm (σ.worker w).found)
      (hsorted : todo.Pairwise fun o o' => o.mtime ≤ o'.mtime) : RaceStep cfg σ .other
        (σ.put w { σ.worker w with phase := .loop todo (sumSizes todo) })
  | ended {σ w size} (h : (σ.worker w).phase = .loop [] size) : RaceStep cfg σ .other
      (σ.put w { σ.worker w with phase := .done })
  | fits {σ w o todo size} (h : (σ.worker w).phase = .loop (o :: todo) size)
      (hsize : size < cfg.slice) : RaceStep cfg σ .other
        (σ.put w { σ.worker w with phase := .done })
  /-- `lstat` throws. -/
  | gone {σ w o todo size} (h : (σ.worker w).phase = .loop (o :: todo) size)
      (hsize : ¬ size < cfg.slice) (hgone : (σ.dir w).find o.name = none) :
      RaceStep cfg σ .other (σ.put w { σ.worker w with phase := .loop todo size })
  | young {σ w o o' todo size} (h : (σ.worker w).phase = .loop (o :: todo) size)
      (hsize : ¬ size < cfg.slice) (hfind : (σ.dir w).find o.name = some o')
      (hyoung : cfg.Young σ.now o'.mtime) :
      RaceStep cfg σ .other (σ.put w { σ.worker w with phase := .loop todo size })
  | old {σ w o o' todo size} (h : (σ.worker w).phase = .loop (o :: todo) size)
      (hsize : ¬ size < cfg.slice) (hfind : (σ.dir w).find o.name = some o')
      (hold : ¬ cfg.Young σ.now o'.mtime) : RaceStep cfg σ (.remove w)
        ((σ.drop w o.name).put w { σ.worker w with
          phase := .loop todo (size - BitVec.ofNat 64 o.size)
          removed := o :: (σ.worker w).removed })
  /-- An exception is thrown, by the scan, by `lock`, or because `remove` has failed. -/
  | threw {σ w} (h : (σ.worker w).phase ≠ .done) : RaceStep cfg σ .other
      (σ.put w { σ.worker w with phase := .failed })

/-- **One step of anybody.** -/
def AnyRaceStep (cfg : EvictConfig) (σ τ : RaceState P) : Prop := ∃ e, RaceStep cfg σ e τ

/-- **A worker that removes an object has not lost one to another**: all that it has scanned it has
removed itself, or it is still there. -/
def RaceState.Alone (σ : RaceState P) : RaceDeed P → Prop
  | .remove w => ∀ o ∈ (σ.worker w).found, o ∈ (σ.worker w).removed ∨ o ∈ (σ.dir w).objects
  | .other => True

/-- A step in which this is so. -/
def AloneStep (cfg : EvictConfig) (σ τ : RaceState P) : Prop :=
  ∃ e, σ.Alone e ∧ RaceStep cfg σ e τ

end Step

theorem AloneStep.any {P : Type*} [DecidableEq P] {cfg : EvictConfig} {σ τ : RaceState P}
    (h : AloneStep cfg σ τ) : AnyRaceStep cfg σ τ :=
  let ⟨e, _, hs⟩ := h
  ⟨e, hs⟩

/-! ### What a worker counts -/

/-- What the worker has scanned and not removed. -/
def Evictor.held (e : Evictor) : List StoredObject := e.found.filter fun o => o ∉ e.removed

/-- **The counter is the size of what the worker holds**, whatever others have removed of it. -/
def Evictor.Counts (e : Evictor) : Prop :=
  match e.phase with
  | .scan => e.found.Nodup ∧ e.removed = []
  | .loop todo size => e.found.Nodup ∧ todo.Nodup ∧ (∀ o ∈ todo, o ∈ e.held) ∧
      size = BitVec.ofNat 64 (totalSize e.held)
  | .done | .failed => True

section Counts

variable {P : Type*} [DecidableEq P] {cfg : EvictConfig} {σ τ : RaceState P} {e : Evictor}
  {d : RaceDeed P} {w v : P × HexPair} {o : StoredObject} {l : List StoredObject}

/-- The size of an object and of all others. -/
theorem totalSize_filter_ne (hnodup : l.Nodup) (ho : o ∈ l) :
    totalSize l = o.size + totalSize (l.filter fun p => p ≠ o) := by
  have hperm : l.Perm (o :: l.erase o) := List.perm_cons_erase ho
  have herase : l.erase o = l.filter fun p => p ≠ o := by
    rw [hnodup.erase_eq_filter]
    exact List.filter_congr fun p _ => by simp [bne, beq_eq_decide]
  rw [totalSize_perm hperm, herase]
  simp [totalSize]

/-- Objects that are all there are not larger than what is there. -/
theorem totalSize_le_of_subset {l' : List StoredObject} (hnodup : l.Nodup) (hsub : l ⊆ l') :
    totalSize l ≤ totalSize l' := by
  obtain ⟨m, hperm, hsublist⟩ := List.subperm_of_subset hnodup hsub
  rw [← totalSize_perm hperm]
  exact (hsublist.map _).sum_le_sum fun _ _ => Nat.zero_le _

namespace Evictor

theorem mem_held : o ∈ e.held ↔ o ∈ e.found ∧ o ∉ e.removed := by
  simp [held]

/-- Nothing has been removed. -/
theorem held_eq_found (h : e.removed = []) : e.held = e.found := by
  simp [held, h]

/-- What is removed is no longer held. -/
theorem held_remove (phase : EvictorPhase) :
    ({ e with phase := phase, removed := o :: e.removed } : Evictor).held =
      e.held.filter fun p => p ≠ o := by
  rw [held, held, List.filter_filter]
  refine List.filter_congr fun p _ => ?_
  simp [not_or]

end Evictor

theorem RaceState.put_self : (σ.put w e).worker w = e := Function.update_self ..

theorem RaceState.put_ne (h : v ≠ w) : (σ.put w e).worker v = σ.worker v :=
  Function.update_of_ne h ..

theorem RaceState.put_put {e' : Evictor} : (σ.put w e).put w e' = σ.put w e' := by
  simp [RaceState.put]

/-- What holds of every worker still does if it holds of the one that goes on. -/
theorem RaceState.counts_put (h : ∀ v, (σ.worker v).Counts) (he : e.Counts)
    (v : P × HexPair) : ((σ.put w e).worker v).Counts := by
  rcases eq_or_ne v w with rfl | hv
  · rwa [RaceState.put_self]
  · rw [RaceState.put_ne hv]
    exact h v

/-- **One step** keeps every counter. -/
theorem RaceStep.counts (hs : RaceStep cfg σ d τ) (h : ∀ v, (σ.worker v).Counts) :
    ∀ v, (τ.worker v).Counts := by
  cases hs with
  | tick => exact h
  | @entry w o hphase ho hnew =>
    refine RaceState.counts_put h ?_
    have hw := h w
    rw [Evictor.Counts, hphase] at hw
    obtain ⟨hnodup, hremoved⟩ := hw
    rw [Evictor.Counts, hphase]
    refine ⟨List.nodup_append.mpr ⟨hnodup, List.nodup_singleton o, ?_⟩, hremoved⟩
    rintro p hp q hq rfl
    exact hnew (List.mem_singleton.mp hq ▸ hp)
  | @scanned w todo hphase hall hperm hsorted =>
    refine RaceState.counts_put h ?_
    have hw := h w
    rw [Evictor.Counts, hphase] at hw
    obtain ⟨hnodup, hremoved⟩ := hw
    have hheld : (σ.worker w).held = (σ.worker w).found := Evictor.held_eq_found hremoved
    refine ⟨hnodup, hperm.nodup_iff.mpr hnodup, fun o ho => ?_, ?_⟩
    · change o ∈ (σ.worker w).held
      rw [hheld]
      exact hperm.subset ho
    · change _ = BitVec.ofNat 64 (totalSize (σ.worker w).held)
      rw [hheld, sumSizes_eq, totalSize_perm hperm]
  | ended | fits | threw => exact RaceState.counts_put h trivial
  | @gone w o todo size hphase | @young w o o' todo size hphase =>
    refine RaceState.counts_put h ?_
    have hw := h w
    rw [Evictor.Counts, hphase] at hw
    obtain ⟨hnodup, htodo, hheld, hsize⟩ := hw
    exact ⟨hnodup, (List.nodup_cons.mp htodo).2, fun p hp => hheld p (List.mem_cons_of_mem o hp),
      hsize⟩
  | @old w o o' todo size hphase =>
    have hdrop : ∀ v, ((σ.drop w o.name).worker v).Counts := h
    refine RaceState.counts_put hdrop ?_
    have hw := h w
    rw [Evictor.Counts, hphase] at hw
    obtain ⟨hnodup, htodo, hheld, rfl⟩ := hw
    have ho : o ∈ (σ.worker w).held := hheld o List.mem_cons_self
    refine ⟨hnodup, (List.nodup_cons.mp htodo).2, fun p hp => ?_, ?_⟩
    · rw [Evictor.held_remove]
      refine List.mem_filter.mpr ⟨hheld p (List.mem_cons_of_mem o hp), decide_eq_true fun he => ?_⟩
      exact (List.nodup_cons.mp htodo).1 (he ▸ hp)
    · -- the counter loses what the worker no longer holds
      have hnodup' : (σ.worker w).held.Nodup := hnodup.filter _
      rw [Evictor.held_remove, totalSize_filter_ne hnodup' ho, BitVec.ofNat_add,
        BitVec.add_comm, BitVec.add_sub_cancel]

end Counts

/-! ### What is removed -/

section Removed

variable {P : Type*} [DecidableEq P] {cfg : EvictConfig} {now : ℤ} {dirs : HexPair → SubDir}
  {σ τ : RaceState P} {d : RaceDeed P} {k : HexPair} {o : StoredObject}

/-- **Every counter is right** in every run. -/
theorem counts_of_raceReaches (hrun : Reaches (AnyRaceStep cfg) (.start now dirs) σ)
    (w : P × HexPair) : (σ.worker w).Counts := by
  refine @Reaches.invariant _ _ _ _ (fun σ : RaceState P => ∀ w, (σ.worker w).Counts) hrun
    (fun _ => ⟨List.nodup_nil, rfl⟩) ?_ w
  rintro σ τ h ⟨e, hs⟩
  exact hs.counts h

/-- What is no longer there has been removed by a worker, from its own subdirectory. -/
theorem RaceStep.removed (hs : RaceStep cfg σ d τ) (ho : o ∈ (σ.dirs k).objects)
    (hgone : o ∉ (τ.dirs k).objects) :
    ∃ w p todo size, d = .remove w ∧ w.2 = k ∧
      (σ.worker w).phase = .loop (p :: todo) size ∧ ¬ size < cfg.slice := by
  cases hs with
  | @old w p o' todo size hphase hsize =>
    refine ⟨w, p, todo, size, rfl, ?_, hphase, hsize⟩
    by_contra hne
    have hother : ((σ.drop w p.name).dirs k) = σ.dirs k := Function.update_of_ne (Ne.symm hne) ..
    exact hgone (by change o ∈ ((σ.drop w p.name).dirs k).objects; rwa [hother])
  | _ => exact absurd ho hgone

/-- **Nothing is removed that fits**, in every run of any number of processes in which no worker
removes an object after another has removed one that it has scanned: an object is removed only if
its subdirectory is not below its share. -/
theorem remove_needed (hrun : Reaches (AloneStep cfg) (.start now dirs) σ)
    (hs : AloneStep cfg σ τ) (ho : o ∈ (σ.dirs k).objects) (hgone : o ∉ (τ.dirs k).objects) :
    cfg.slice.toNat ≤ totalSize (σ.dirs k).objects := by
  have hall : Reaches (AnyRaceStep cfg) (.start now dirs) σ := hrun.mono fun _ _ => AloneStep.any
  obtain ⟨e, halone, hs⟩ := hs
  obtain ⟨w, p, todo, size, rfl, rfl, hphase, hsize⟩ := hs.removed ho hgone
  have hcounts := counts_of_raceReaches hall w
  rw [Evictor.Counts, hphase] at hcounts
  obtain ⟨hnodup, -, -, rfl⟩ := hcounts
  -- what the worker holds is still there
  have hsub : (σ.worker w).held ⊆ (σ.dirs w.2).objects := fun q hq =>
    (halone q (Evictor.mem_held.mp hq).1).resolve_left (Evictor.mem_held.mp hq).2
  calc cfg.slice.toNat
      ≤ (BitVec.ofNat 64 (totalSize (σ.worker w).held)).toNat :=
        Nat.le_of_not_lt fun hlt => hsize (BitVec.lt_def.mpr hlt)
    _ ≤ totalSize (σ.worker w).held := by
        rw [BitVec.toNat_ofNat]
        exact Nat.mod_le _ _
    _ ≤ totalSize (σ.dirs w.2).objects := totalSize_le_of_subset (hnodup.filter _) hsub

end Removed

namespace Sample

/-- A cache with the two objects in one subdirectory. -/
def raceDirs : HexPair → SubDir := fun _ => ⟨[storedA, storedD], by decide⟩

/-- A worker of each of two processes has scanned them. -/
def raceScanned : Evictor := ⟨[storedA, storedD], .loop [storedA, storedD] 2, []⟩

/-- The workers of the two processes for one subdirectory. -/
def raceWorker (p : Bool) : Bool × HexPair := (p, (0, 0))

/-- A worker scans its subdirectory. -/
theorem reaches_scanned {σ : RaceState Bool} {w : Bool × HexPair}
    (hdir : (σ.dir w).objects = [storedA, storedD]) (hw : σ.worker w = ⟨[], .scan, []⟩) :
    Reaches (AloneStep evictConfig) σ (σ.put w raceScanned) := by
  have hA : AloneStep evictConfig σ (σ.put w ⟨[storedA], .scan, []⟩) := by
    have hs : RaceStep evictConfig σ .other
        (σ.put w { σ.worker w with found := (σ.worker w).found ++ [storedA] }) :=
      .entry (by rw [hw]) (by simp [hdir]) (by simp [hw])
    rw [hw] at hs
    exact ⟨.other, trivial, hs⟩
  have hD : AloneStep evictConfig (σ.put w ⟨[storedA], .scan, []⟩)
      (σ.put w ⟨[storedA, storedD], .scan, []⟩) := by
    have hs := @RaceStep.entry _ _ evictConfig (σ.put w ⟨[storedA], .scan, []⟩) w storedD
      (by rw [RaceState.put_self]) (by change _ ∈ (σ.dir w).objects; simp [hdir])
      (by rw [RaceState.put_self]; decide)
    rw [RaceState.put_self, RaceState.put_put] at hs
    exact ⟨.other, trivial, hs⟩
  have hscanned : AloneStep evictConfig (σ.put w ⟨[storedA, storedD], .scan, []⟩)
      (σ.put w raceScanned) := by
    have hs := @RaceStep.scanned _ _ evictConfig (σ.put w ⟨[storedA, storedD], .scan, []⟩) w
      [storedA, storedD] (by rw [RaceState.put_self])
      (by rw [RaceState.put_self]; change ∀ o ∈ (σ.dir w).objects, _; simp [hdir])
      (by rw [RaceState.put_self]) (List.pairwise_pair.mpr (by decide))
    rw [RaceState.put_self, RaceState.put_put] at hs
    exact ⟨.other, trivial, hs⟩
  exact .head hA (.head hD (.single hscanned))

/-- The two workers have scanned the subdirectory. -/
def raceBoth : RaceState Bool :=
  ((RaceState.start 10 raceDirs).put (raceWorker false) raceScanned).put (raceWorker true)
    raceScanned

/-- The first worker has removed the older object. -/
def raceFirst : RaceState Bool :=
  (raceBoth.drop (raceWorker false) nameA).put (raceWorker false)
    ⟨[storedA, storedD], .loop [storedD] 1, [storedA]⟩

/-- The second worker has found that it is gone. -/
def raceSecond : RaceState Bool :=
  raceFirst.put (raceWorker true) ⟨[storedA, storedD], .loop [storedD] 2, []⟩

theorem reaches_raceBoth : Reaches (AloneStep evictConfig) (.start 10 raceDirs) raceBoth :=
  Relation.ReflTransGen.trans (reaches_scanned rfl rfl) (reaches_scanned rfl rfl)

theorem raceFirst_step : RaceStep evictConfig raceBoth (.remove (raceWorker false)) raceFirst :=
  @RaceStep.old _ _ evictConfig raceBoth (raceWorker false) storedA storedA [storedD] 2 rfl
    (by decide) (by decide) (by rw [EvictConfig.Young]; decide)

theorem reaches_raceSecond :
    Reaches (AnyRaceStep evictConfig) (.start 10 raceDirs) raceSecond := by
  have hboth : Reaches (AnyRaceStep evictConfig) (.start 10 raceDirs) raceBoth :=
    reaches_raceBoth.mono fun _ _ => AloneStep.any
  have hsecond : AnyRaceStep evictConfig raceFirst raceSecond :=
    ⟨_, @RaceStep.gone _ _ evictConfig raceFirst (raceWorker true) storedA [storedD] 2 rfl
      (by decide) (by decide)⟩
  exact (hboth.tail ⟨_, raceFirst_step⟩).tail hsecond

end Sample

open Sample in
/-- While the second evictor only scans, the first one removes the older object. -/
theorem remove_needed_sample :
    evictConfig.slice.toNat ≤ totalSize (raceBoth.dirs (0, 0)).objects := by
  have halone : raceBoth.Alone (.remove (raceWorker false)) := by
    change ∀ o ∈ [storedA, storedD], o ∈ ([] : List StoredObject) ∨ o ∈ [storedA, storedD]
    exact fun o ho => Or.inr ho
  exact remove_needed (k := (0, 0)) (o := storedA) reaches_raceBoth ⟨_, halone, raceFirst_step⟩
    (by decide) (by decide)

open Sample in
/-- Of two objects the first evictor removes one, and then the other object fits. The second one
does not subtract what is gone, and removes the other object too. -/
theorem remove_not_needed :
    ¬ ∀ (P : Type) [DecidableEq P] (cfg : EvictConfig) (now : ℤ) (dirs : HexPair → SubDir)
      (σ τ : RaceState P) (k : HexPair) (o : StoredObject),
      Reaches (AnyRaceStep cfg) (.start now dirs) σ → AnyRaceStep cfg σ τ →
      o ∈ (σ.dirs k).objects → o ∉ (τ.dirs k).objects →
        cfg.slice.toNat ≤ totalSize (σ.dirs k).objects := by
  intro h
  have hs : AnyRaceStep evictConfig raceSecond _ :=
    ⟨_, @RaceStep.old _ _ evictConfig raceSecond (raceWorker true) storedD storedD [] 2 rfl
      (by decide) (by decide) (by rw [EvictConfig.Young]; decide)⟩
  exact absurd (h Bool evictConfig 10 raceDirs _ _ (0, 0) storedD reaches_raceSecond hs (by decide)
    (by decide)) (by decide)

end Fstree
