import Fstree.Foundations.Parallel
import Fstree.Model.Inode
import Mathlib.Algebra.BigOperators.Group.Finset.Basic
import Mathlib.Algebra.Order.BigOperators.Group.Finset
import Mathlib.Data.Fintype.Prod

/-!
# A run of the evictor

`cache::evict` has a worker run `evict_subdir` for each subdirectory of the cache, in any order. A
worker sorts the objects of its subdirectory by their times and adds up their sizes. Then it looks
at one after the other, until what is left is below the share of a subdirectory, and removes those
that have not been used in the retention period.

Here no other process is at work: what others may do meanwhile is the subject of `Fstree.CacheStep`.
The counter of a worker is then the size of what is in its subdirectory
(`Fstree.SubRun.Counts`), and what it has removed is given by what it has looked at
(`Fstree.Trimmed`). So a run that returns leaves each subdirectory below its share, or with recent
objects only, and together they are below the limit of the cache if no object was recent
(`Fstree.evict_trims`).
-/

namespace Fstree

open Transition

/-! ### The objects of a cache -/

/-- **An object** in a subdirectory of the cache, as `lstat` sees it. -/
structure StoredObject where
  name : Name
  mtime : Time
  size : ℕ
deriving DecidableEq

/-- **A subdirectory** of the cache. -/
structure SubDir where
  objects : List StoredObject
  nodup_names : (objects.map StoredObject.name).Nodup

/-- Two hex digits, which name a subdirectory. -/
abbrev HexPair := Fin 16 × Fin 16

/-- The size of all objects. -/
def totalSize (l : List StoredObject) : ℕ := (l.map StoredObject.size).sum

/-- **What a cache is opened with**: `_max_size`, and `_retention_period` in seconds. -/
structure EvictConfig where
  maxSize : BitVec 64
  retention : ℤ

namespace EvictConfig

variable (cfg : EvictConfig)

/-- `_max_size_slice`. -/
def slice : BitVec 64 := cfg.maxSize >>> 8

/-- `_retention_period` in nanoseconds. -/
def nanoseconds : ℤ := cfg.retention * 1000000000

/-- `mtime + _retention_period > curtime`, with signed words. -/
def Young (now : ℤ) (mtime : Time) : Prop := now < (mtime + BitVec.ofInt 64 cfg.nanoseconds).toInt

/-- **The object is recent** at the time `x.2`: its time and the retention period are not over. -/
def Recent (x : StoredObject × ℤ) : Prop := x.2 < x.1.mtime.toNat + cfg.nanoseconds

instance decidableRecent : DecidablePred cfg.Recent := fun x =>
  inferInstanceAs (Decidable (x.2 < x.1.mtime.toNat + cfg.nanoseconds))

/-- The sum of the time of the object and the retention period is in the range of
`std::chrono::nanoseconds`. -/
def InRange (o : StoredObject) : Prop :=
  -(2 ^ 63) ≤ o.mtime.toNat + cfg.nanoseconds ∧ o.mtime.toNat + cfg.nanoseconds < 2 ^ 63

end EvictConfig

/-! ### The workers -/

/-- **How far a worker has got**: in the loop, with the objects it has not yet looked at, and
`size`. -/
inductive EvictPhase
  | queued
  | loop (todo : List StoredObject) (size : BitVec 64)
  | done
  | failed

/-- **A worker of `evict`**: what is in its subdirectory, and what it has looked at, and when. -/
structure SubRun where
  objects : List StoredObject
  phase : EvictPhase
  examined : List (StoredObject × ℤ)

/-- The object with this name. -/
def SubRun.find (r : SubRun) (n : Name) : Option StoredObject := r.objects.find? fun o => o.name = n

/-- The first loop of `evict_subdir`. -/
def sumSizes (l : List StoredObject) : BitVec 64 :=
  l.foldl (fun size o => size + BitVec.ofNat 64 o.size) 0

/-- **One step of `evict_subdir`**, when the clock shows `now`. The objects are scanned in an order
of their times, and looked at with the lock held. -/
inductive SubStep (cfg : EvictConfig) (now : ℤ) : SubRun → SubRun → Prop
  | scan {r todo} (h : r.phase = .queued) (hperm : todo.Perm r.objects)
      (hsorted : todo.Pairwise fun o o' => o.mtime ≤ o'.mtime) :
      SubStep cfg now r { r with phase := .loop todo (sumSizes todo) }
  | ended {r size} (h : r.phase = .loop [] size) : SubStep cfg now r { r with phase := .done }
  | fits {r o todo size} (h : r.phase = .loop (o :: todo) size) (hsize : size < cfg.slice) :
      SubStep cfg now r { r with phase := .done }
  /-- `lstat` throws. -/
  | gone {r o todo size} (h : r.phase = .loop (o :: todo) size) (hsize : ¬ size < cfg.slice)
      (hgone : r.find o.name = none) : SubStep cfg now r { r with phase := .loop todo size }
  | young {r o o' todo size} (h : r.phase = .loop (o :: todo) size) (hsize : ¬ size < cfg.slice)
      (hfind : r.find o.name = some o') (hyoung : cfg.Young now o'.mtime) :
      SubStep cfg now r { r with
        phase := .loop todo size
        examined := r.examined ++ [(o', now)] }
  | old {r o o' todo size} (h : r.phase = .loop (o :: todo) size) (hsize : ¬ size < cfg.slice)
      (hfind : r.find o.name = some o') (hold : ¬ cfg.Young now o'.mtime) :
      SubStep cfg now r {
        objects := r.objects.filter fun p => p.name ≠ o.name
        phase := .loop todo (size - BitVec.ofNat 64 o.size)
        examined := r.examined ++ [(o', now)] }
  /-- An exception is thrown, by the scan, by `lock`, or because `remove` has failed. -/
  | threw {r} (h : r.phase ≠ .done) : SubStep cfg now r { r with phase := .failed }

/-- **One step of `cache::evict`**: the clock goes on, or a worker does. -/
abbrev EvictStep (cfg : EvictConfig) (dirs : Finset HexPair) :
    ℤ × (dirs → SubRun) → ℤ × (dirs → SubRun) → Prop :=
  Parallel.Step (fun now now' => now ≤ now') (SubStep cfg)

/-- The workers for the subdirectories that were found have been enqueued. -/
def evictStart {dirs : Finset HexPair} (content : dirs → SubDir) : dirs → SubRun :=
  fun k => ⟨(content k).objects, .queued, []⟩

/-! ### What a worker has removed -/

section Trimmed

variable (cfg : EvictConfig)

/-- **What is left** of the objects, after some have been looked at: those are gone that were not
recent. -/
def leftOf (before : List StoredObject) (seen : List (StoredObject × ℤ)) : List StoredObject :=
  before.filter fun o => ∀ x ∈ seen, x.1 = o → cfg.Recent x

/-- **What was looked at is the shortest oldest-first prefix** that had to be, for the time being:
as long as more was to be looked at, what was left was not below the share of the subdirectory. -/
structure Trimmed (before : List StoredObject) (examined : List (StoredObject × ℤ))
    (rest objects : List StoredObject) : Prop where
  perm : (examined.map Prod.fst ++ rest).Perm before
  oldest : (examined.map Prod.fst ++ rest).Pairwise fun o o' => o.mtime ≤ o'.mtime
  objects_eq : objects = leftOf cfg before examined
  needed : ∀ n < examined.length,
    cfg.slice.toNat ≤ totalSize (leftOf cfg before (examined.take n))

/-- **The counter is right**, and what was removed is what it should be. -/
def SubRun.Counts (before : List StoredObject) (r : SubRun) : Prop :=
  match r.phase with
  | .queued => r.objects = before ∧ r.examined = []
  | .loop todo size =>
    Trimmed cfg before r.examined todo r.objects ∧ size.toNat = totalSize r.objects
  | .done => ∃ rest, Trimmed cfg before r.examined rest r.objects ∧
      (totalSize r.objects < cfg.slice.toNat ∨ rest = [])
  | .failed => True

variable {cfg} {before rest objects todo : List StoredObject} {examined : List (StoredObject × ℤ)}
  {o o' : StoredObject} {now : ℤ} {r r' : SubRun}

theorem leftOf_nil : leftOf cfg before [] = before := by
  simp [leftOf]

/-- **In range the signed words compare as the numbers do.** -/
theorem EvictConfig.young_iff (h : cfg.InRange o) :
    cfg.Young now o.mtime ↔ cfg.Recent (o, now) := by
  rw [Young, Recent, BitVec.toInt_add, BitVec.toInt_ofInt]
  -- the sum is the same modulo `2 ^ 64`, and in range it is its own representative
  have hmod : (o.mtime.toInt + (cfg.nanoseconds).bmod (2 ^ 64)).bmod (2 ^ 64) =
      o.mtime.toNat + cfg.nanoseconds := by
    rw [BitVec.toInt_eq_toNat_bmod, Int.add_bmod_bmod, Int.bmod_add_bmod]
    exact Int.bmod_eq_of_le (by have := h.1; omega) (by have := h.2; omega)
  rw [hmod]

/-- The first loop counts modulo `2 ^ 64`. -/
theorem sumSizes_eq (l : List StoredObject) : sumSizes l = BitVec.ofNat 64 (totalSize l) := by
  suffices hs : ∀ (l : List StoredObject) (size : BitVec 64),
      l.foldl (fun size o => size + BitVec.ofNat 64 o.size) size =
        size + BitVec.ofNat 64 (totalSize l) by
    rw [sumSizes, hs l 0]
    simp
  intro l
  induction l with
  | nil => simp [totalSize]
  | cons o l ih =>
    intro size
    have hcons : totalSize (o :: l) = o.size + totalSize l := by simp [totalSize]
    rw [List.foldl_cons, ih, hcons, BitVec.ofNat_add, BitVec.add_assoc]

theorem sumSizes_toNat (l : List StoredObject) (h : totalSize l < 2 ^ 64) :
    (sumSizes l).toNat = totalSize l := by
  rw [sumSizes_eq, BitVec.toNat_ofNat, Nat.mod_eq_of_lt h]

theorem totalSize_perm {l l' : List StoredObject} (h : l.Perm l') : totalSize l = totalSize l' :=
  (h.map _).sum_eq

/-- An object is told by its name. -/
theorem eq_of_name_eq (hnodup : (before.map StoredObject.name).Nodup) (ho : o ∈ before)
    (ho' : o' ∈ before) (hname : o.name = o'.name) : o = o' :=
  List.inj_on_of_nodup_map hnodup ho ho' hname

/-- The size of an object and of all others. -/
theorem totalSize_filter_name {l : List StoredObject} (hnodup : (l.map StoredObject.name).Nodup)
    (ho : o ∈ l) : totalSize l = o.size + totalSize (l.filter fun p => p.name ≠ o.name) := by
  induction l with
  | nil => exact absurd ho List.not_mem_nil
  | cons p l ih =>
    rw [List.map_cons, List.nodup_cons] at hnodup
    have hcons : ∀ m, totalSize (p :: m) = p.size + totalSize m := fun m => by simp [totalSize]
    rcases List.mem_cons.mp ho with rfl | ho
    · have hrest : (l.filter fun p => p.name ≠ o.name) = l := by
        refine List.filter_eq_self.mpr fun q hq => ?_
        rw [decide_eq_true_eq]
        exact fun he => hnodup.1 (he ▸ List.mem_map_of_mem hq)
      rw [hcons, List.filter_cons_of_neg (by simp), hrest]
    · have hp : p.name ≠ o.name := fun he => hnodup.1 (he ▸ List.mem_map_of_mem ho)
      rw [hcons, List.filter_cons_of_pos (by simpa using hp), hcons, ih hnodup.2 ho]
      omega

theorem leftOf_concat {x : StoredObject × ℤ} : leftOf cfg before (examined ++ [x]) =
    (leftOf cfg before examined).filter fun o => x.1 = o → cfg.Recent x := by
  rw [leftOf, leftOf, List.filter_filter]
  refine List.filter_congr fun o _ => ?_
  simp only [List.mem_append, List.mem_singleton, or_imp, forall_and, forall_eq, Bool.decide_and]
  exact Bool.and_comm _ _

/-- What is recent stays. -/
theorem leftOf_recent (h : cfg.Recent (o, now)) :
    leftOf cfg before (examined ++ [(o, now)]) = leftOf cfg before examined := by
  rw [leftOf_concat]
  exact List.filter_eq_self.mpr fun _ _ => decide_eq_true fun _ => h

/-- What is not is removed. -/
theorem leftOf_old (hnodup : (before.map StoredObject.name).Nodup) (ho : o ∈ before)
    (h : ¬ cfg.Recent (o, now)) : leftOf cfg before (examined ++ [(o, now)]) =
      (leftOf cfg before examined).filter fun p => p.name ≠ o.name := by
  rw [leftOf_concat]
  refine List.filter_congr fun p hp => decide_eq_decide.mpr ?_
  have hp : p ∈ before := (List.mem_filter.mp hp).1
  constructor
  · rintro hrecent hname
    exact h (hrecent (eq_of_name_eq hnodup ho hp hname.symm))
  · rintro hname rfl
    exact absurd rfl hname

namespace Trimmed

/-- Nothing has been looked at. -/
theorem nil (hperm : rest.Perm before) (hsorted : rest.Pairwise fun o o' => o.mtime ≤ o'.mtime) :
    Trimmed cfg before [] rest before where
  perm := hperm
  oldest := hsorted
  objects_eq := leftOf_nil.symm
  needed := fun _ hn => absurd hn (Nat.not_lt_zero _)

/-- What is looked at next is still there. -/
theorem head_mem (h : Trimmed cfg before examined (o :: rest) objects)
    (hnodup : (before.map StoredObject.name).Nodup) : o ∈ before ∧ o ∈ objects := by
  have hall : (examined.map Prod.fst ++ o :: rest).Nodup :=
    h.perm.nodup_iff.mpr hnodup.of_map
  have ho : o ∈ before := h.perm.subset (by simp)
  refine ⟨ho, ?_⟩
  rw [h.objects_eq]
  refine List.mem_filter.mpr ⟨ho, decide_eq_true fun x hx he => ?_⟩
  -- it has not been looked at
  have hmem : o ∈ examined.map Prod.fst := he ▸ List.mem_map_of_mem hx
  exact absurd List.mem_cons_self ((List.disjoint_of_nodup_append hall) hmem)

/-- **The next object is looked at**, because what is left is not below the share. -/
theorem concat (h : Trimmed cfg before examined (o :: rest) objects)
    (hsize : cfg.slice.toNat ≤ totalSize objects) : Trimmed cfg before (examined ++ [(o, now)]) rest
      (leftOf cfg before (examined ++ [(o, now)])) where
  perm := by simpa using h.perm
  oldest := by simpa using h.oldest
  objects_eq := rfl
  needed n hn := by
    rw [List.length_append, List.length_singleton] at hn
    rcases Nat.lt_succ_iff_lt_or_eq.mp hn with hlt | rfl
    · rw [List.take_append_of_le_length hlt.le]
      exact h.needed n hlt
    · -- all that was looked at before this object
      rw [List.take_left, ← h.objects_eq]
      exact hsize

end Trimmed

/-- The object that `lstat` finds is the one that was scanned. -/
theorem SubRun.eq_of_find (hnodup : (before.map StoredObject.name).Nodup) (ho : o ∈ before)
    (hobjects : r.objects = leftOf cfg before examined) (h : r.find o.name = some o') : o' = o := by
  have hname : o'.name = o.name := by simpa using List.find?_some h
  have hmem : o' ∈ r.objects := List.mem_of_find?_eq_some h
  rw [hobjects] at hmem
  exact eq_of_name_eq hnodup (List.mem_filter.mp hmem).1 ho hname

/-- The counter loses what the subdirectory does. -/
theorem toNat_sub_size {l : List StoredObject} {size : BitVec 64}
    (hnodup : (l.map StoredObject.name).Nodup) (ho : o ∈ l) (hsize : size.toNat = totalSize l) :
    (size - BitVec.ofNat 64 o.size).toNat = totalSize (l.filter fun p => p.name ≠ o.name) := by
  have hsum := totalSize_filter_name hnodup ho
  have hlt := size.isLt
  rw [BitVec.toNat_sub, BitVec.toNat_ofNat]
  omega

/-- **One step of a worker** keeps the counter right. -/
theorem SubRun.Counts.step (hnodup : (before.map StoredObject.name).Nodup)
    (hrange : ∀ o ∈ before, cfg.InRange o) (htotal : totalSize before < 2 ^ 64)
    (h : r.Counts cfg before) (hs : SubStep cfg now r r') : r'.Counts cfg before := by
  cases hs with
  | @scan todo hphase hperm hsorted =>
    rw [Counts, hphase] at h
    obtain ⟨hobjects, hexamined⟩ := h
    rw [hobjects] at hperm
    change Trimmed cfg before r.examined todo r.objects ∧ _
    rw [hobjects, hexamined]
    refine ⟨.nil hperm hsorted, ?_⟩
    rw [sumSizes_toNat _ (by rwa [totalSize_perm hperm]), totalSize_perm hperm]
  | ended hphase =>
    rw [Counts, hphase] at h
    exact ⟨[], h.1, Or.inr rfl⟩
  | @fits o todo size hphase hsize =>
    rw [Counts, hphase] at h
    exact ⟨o :: todo, h.1, Or.inl (h.2 ▸ BitVec.lt_def.mp hsize)⟩
  | gone hphase hsize hgone =>
    rw [Counts, hphase] at h
    -- nobody else removes an object, so it is there
    have hmem := (h.1.head_mem hnodup).2
    exact absurd (List.find?_eq_none.mp hgone _ hmem) (by simp)
  | @young o o' todo size hphase hsize hfind hyoung =>
    rw [Counts, hphase] at h
    obtain ⟨htrimmed, hcount⟩ := h
    obtain ⟨ho, hmem⟩ := htrimmed.head_mem hnodup
    obtain rfl := r.eq_of_find hnodup ho htrimmed.objects_eq hfind
    have hrecent := (EvictConfig.young_iff (hrange _ ho)).mp hyoung
    have hnext : Trimmed cfg before (r.examined ++ [(o', now)]) todo _ := htrimmed.concat
      (hcount ▸ Nat.le_of_not_lt fun hlt => hsize (BitVec.lt_def.mpr hlt))
    -- it stays, and so it counts in what is left
    rw [leftOf_recent hrecent, ← htrimmed.objects_eq] at hnext
    exact ⟨hnext, hcount⟩
  | @old o o' todo size hphase hsize hfind hold =>
    rw [Counts, hphase] at h
    obtain ⟨htrimmed, hcount⟩ := h
    obtain ⟨ho, hmem⟩ := htrimmed.head_mem hnodup
    obtain rfl := r.eq_of_find hnodup ho htrimmed.objects_eq hfind
    have hrecent : ¬ cfg.Recent (o', now) := fun hr =>
      hold ((EvictConfig.young_iff (hrange _ ho)).mpr hr)
    have hnext : Trimmed cfg before (r.examined ++ [(o', now)]) todo _ := htrimmed.concat
      (hcount ▸ Nat.le_of_not_lt fun hlt => hsize (BitVec.lt_def.mpr hlt))
    rw [leftOf_old hnodup ho hrecent, ← htrimmed.objects_eq] at hnext
    refine ⟨hnext, ?_⟩
    refine toNat_sub_size ?_ hmem hcount
    rw [htrimmed.objects_eq]
    exact hnodup.sublist (List.filter_sublist.map _)
  | threw => trivial

/-- What was not removed was looked at when it was recent, if all was looked at. -/
theorem Trimmed.recent (h : Trimmed cfg before examined [] objects) :
    ∀ o ∈ objects, ∃ t, (o, t) ∈ examined ∧ cfg.Recent (o, t) := by
  intro o ho
  rw [h.objects_eq] at ho
  obtain ⟨ho, hleft⟩ := List.mem_filter.mp ho
  have hmem : o ∈ examined.map Prod.fst := by simpa using h.perm.symm.subset ho
  obtain ⟨⟨o, t⟩, hx, rfl⟩ := List.mem_map.mp hmem
  exact ⟨t, hx, of_decide_eq_true hleft _ hx rfl⟩

/-- Nothing is left if all was looked at and nothing was recent. -/
theorem Trimmed.eq_nil (h : Trimmed cfg before examined [] objects)
    (hold : ∀ x ∈ examined, ¬ cfg.Recent x) : objects = [] := by
  refine List.eq_nil_iff_forall_not_mem.mpr fun o ho => ?_
  obtain ⟨t, hx, hrecent⟩ := h.recent o ho
  exact hold _ hx hrecent

end Trimmed

/-! ### What a run leaves -/

section Evict

variable {cfg : EvictConfig} {dirs : Finset HexPair} {content : dirs → SubDir} {start : ℤ}
  {σ : ℤ × (dirs → SubRun)}

/-- **Every counter is right** in every run. -/
theorem counts_of_reaches (hrange : ∀ k, ∀ o ∈ (content k).objects, cfg.InRange o)
    (htotal : ∑ k, totalSize (content k).objects < 2 ^ 64)
    (hrun : Reaches (EvictStep cfg dirs) (start, evictStart content) σ) (k : dirs) :
    (σ.2 k).Counts cfg (content k).objects := by
  refine Parallel.forall_of_reaches (I := fun k _ r => r.Counts cfg (content k).objects) hrun
    (fun k => ⟨rfl, rfl⟩) (fun _ _ _ _ h _ => h) (fun k _ _ _ h hs => ?_) k
  -- a counter does not wrap, because not even the sum of all does
  have hle : totalSize (content k).objects ≤ ∑ k, totalSize (content k).objects :=
    Finset.single_le_sum (f := fun k => totalSize (content k).objects) (fun _ _ => Nat.zero_le _)
      (Finset.mem_univ k)
  exact h.step (content k).nodup_names (hrange k) (hle.trans_lt htotal) hs

/-- The shares of all subdirectories are not more than the limit of the cache. -/
theorem sum_lt_of_lt_slice {f : dirs → ℕ} (hf : ∀ k, f k < cfg.slice.toNat)
    (hmax : 256 ≤ cfg.maxSize.toNat) : ∑ k, f k < cfg.maxSize.toNat := by
  have hslice : cfg.slice.toNat = cfg.maxSize.toNat / 256 := by
    rw [EvictConfig.slice, BitVec.toNat_ushiftRight, Nat.shiftRight_eq_div_pow]
  -- a subdirectory is named by two hex digits, so there are `2 ^ 8` at most
  have hcard : Fintype.card dirs ≤ 256 := by
    rw [Fintype.card_coe]
    exact (Finset.card_le_univ dirs).trans (by simp [Fintype.card_prod])
  have hsum : ∑ k, f k ≤ Fintype.card dirs * (cfg.slice.toNat - 1) := by
    rw [← Nat.nsmul_eq_mul]
    exact Finset.sum_le_card_nsmul _ _ _ fun k _ => Nat.le_sub_one_of_lt (hf k)
  have hle : Fintype.card dirs * (cfg.slice.toNat - 1) ≤ 256 * (cfg.slice.toNat - 1) :=
    Nat.mul_le_mul_right _ hcard
  omega

/-- **The eviction is exact.** In every run of `cache::evict` beside which no other process is at
work, no counter underflows. When it returns, each subdirectory is below its share or has only
objects that were recent when they were looked at; what was removed is what was not recent of the
shortest oldest-first prefix that had to be looked at; and if no object was recent, all together
are below the limit of the cache. -/
theorem evict_trims (hrange : ∀ k, ∀ o ∈ (content k).objects, cfg.InRange o)
    (htotal : ∑ k, totalSize (content k).objects < 2 ^ 64)
    (hrun : Reaches (EvictStep cfg dirs) (start, evictStart content) σ) :
    (∀ k o todo size, (σ.2 k).phase = .loop (o :: todo) size →
      size.toNat = totalSize (σ.2 k).objects ∧ o.size ≤ size.toNat) ∧
    ((∀ k, (σ.2 k).phase = .done) →
      (∀ k, totalSize (σ.2 k).objects < cfg.slice.toNat ∨
        ∀ o ∈ (σ.2 k).objects, ∃ t, (o, t) ∈ (σ.2 k).examined ∧ cfg.Recent (o, t)) ∧
      (∀ k, ∃ rest, Trimmed cfg (content k).objects (σ.2 k).examined rest (σ.2 k).objects ∧
        (totalSize (σ.2 k).objects < cfg.slice.toNat ∨ rest = [])) ∧
      ((∀ k, ∀ x ∈ (σ.2 k).examined, ¬ cfg.Recent x) → 256 ≤ cfg.maxSize.toNat →
        ∑ k, totalSize (σ.2 k).objects < cfg.maxSize.toNat)) := by
  have hcounts := counts_of_reaches hrange htotal hrun
  constructor
  · intro k o todo size hphase
    have h := hcounts k
    rw [SubRun.Counts, hphase] at h
    obtain ⟨htrimmed, hcount⟩ := h
    have hmem := (htrimmed.head_mem (content k).nodup_names).2
    refine ⟨hcount, ?_⟩
    rw [hcount]
    exact List.single_le_sum (fun _ _ => Nat.zero_le _) _ (List.mem_map_of_mem hmem)
  · intro hdone
    have hend : ∀ k, ∃ rest, Trimmed cfg (content k).objects (σ.2 k).examined rest
        (σ.2 k).objects ∧ (totalSize (σ.2 k).objects < cfg.slice.toNat ∨ rest = []) := by
      intro k
      have h := hcounts k
      rwa [SubRun.Counts, hdone k] at h
    refine ⟨fun k => ?_, hend, fun hold hmax => sum_lt_of_lt_slice (fun k => ?_) hmax⟩
    · obtain ⟨rest, htrimmed, hlt | rfl⟩ := hend k
      · exact Or.inl hlt
      · exact Or.inr htrimmed.recent
    · obtain ⟨rest, htrimmed, hlt | rfl⟩ := hend k
      · exact hlt
      · -- nothing is left, and the share is not zero
        rw [htrimmed.eq_nil (hold k), EvictConfig.slice, BitVec.toNat_ushiftRight,
          Nat.shiftRight_eq_div_pow]
        exact Nat.div_pos hmax (by decide)

end Evict

namespace Sample

/-- Two objects are allowed in a subdirectory of this size. -/
def evictConfig : EvictConfig := ⟨512, 0⟩

/-- An object of size `1`. -/
def storedA : StoredObject := ⟨nameA, 0, 1⟩

@[inherit_doc storedA] def storedD : StoredObject := ⟨nameD, 1, 1⟩

/-- A cache with one subdirectory. -/
def evictDirs : Finset HexPair := {(⟨0, Nat.succ_pos 15⟩, ⟨0, Nat.succ_pos 15⟩)}

/-- The two objects are in it. -/
def evictContent : evictDirs → SubDir := fun _ => ⟨[storedD, storedA], by decide⟩

/-- The older one was removed. -/
def evictedRun : SubRun := ⟨[storedD], .done, [(storedA, 10)]⟩

theorem reaches_evictedRun : Reaches (SubStep evictConfig 10) ⟨[storedD, storedA], .queued, []⟩
    evictedRun := by
  have hscan : SubStep evictConfig 10 ⟨[storedD, storedA], .queued, []⟩
      ⟨[storedD, storedA], .loop [storedA, storedD] 2, []⟩ :=
    .scan rfl (List.Perm.swap _ _ _) (List.pairwise_pair.mpr (by decide))
  have hold : SubStep evictConfig 10 ⟨[storedD, storedA], .loop [storedA, storedD] 2, []⟩
      ⟨[storedD], .loop [storedD] 1, [(storedA, 10)]⟩ :=
    @SubStep.old _ _ ⟨[storedD, storedA], .loop [storedA, storedD] 2, []⟩ storedA storedA
      [storedD] 2 rfl (by decide) (by decide) (by rw [EvictConfig.Young]; decide)
  have hfits : SubStep evictConfig 10 ⟨[storedD], .loop [storedD] 1, [(storedA, 10)]⟩ evictedRun :=
    .fits rfl (by decide)
  exact .head hscan (.head hold (.single hfits))

theorem reaches_evicted : Reaches (EvictStep evictConfig evictDirs) (10, evictStart evictContent)
    (10, fun _ => evictedRun) := by
  have hrun := @Parallel.reaches_own evictDirs ℤ SubRun _ (fun now now' => now ≤ now')
    (SubStep evictConfig) 10 (evictStart evictContent) ⟨_, Finset.mem_singleton_self _⟩ _
    reaches_evictedRun
  have hupdate : Function.update (evictStart evictContent) ⟨_, Finset.mem_singleton_self _⟩
      evictedRun = fun _ => evictedRun := by
    funext k
    have hk : k = ⟨_, Finset.mem_singleton_self _⟩ := Subtype.ext (Finset.mem_singleton.mp k.2)
    rw [hk, Function.update_self]
  rwa [hupdate] at hrun

end Sample

open Sample in
/-- Of two objects the older one is removed. -/
theorem evict_trims_sample :
    ∑ _ : evictDirs, totalSize evictedRun.objects < evictConfig.maxSize.toNat := by
  refine ((@evict_trims evictConfig evictDirs evictContent 10 _ ?_ (by decide)
    reaches_evicted).2 fun _ => rfl).2.2 ?_ (by decide)
  · intro k o ho
    rcases List.mem_pair.mp ho with rfl | rfl <;> constructor <;> decide
  · intro k x hx
    rw [List.mem_singleton.mp hx]
    decide

end Fstree
