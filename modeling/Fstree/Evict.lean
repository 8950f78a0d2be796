import Fstree.Foundations.Transition
import Mathlib.Algebra.BigOperators.Group.List.Basic
import Mathlib.Algebra.Ring.Nat
import Mathlib.Logic.Function.Basic

/-!
# Eviction beside other commands

`cache::evict_subdir` removes objects, those that have not been used for longest first,
until the others fit. Whether an object is old enough it tests with the lock of the cache
held: `lstat`, the comparison of its time with the clock, and the removal. `has_object` and
`has_tree` touch the object, which makes it young, and their callers then rely on it.

The workers of `cache::add` look for the object of a file with the lock held. Those of
`cache::pull` do not take the lock, nor does `add` when it looks for a tree, so that they
can find an object which the evictor has already seen to be old, and which it removes next
(`Fstree.found_not_kept`). A file that was written to the temporary directory before an
object was found can also be renamed over it, and makes it old again. In a run where
neither happens, an object that has been found stays for the retention period
(`Fstree.found_stays`). That the lock excludes is assumed here: it is the subject of
`Fstree.LockFile`.
-/

namespace Fstree

open Transition

/-! ### The steps of the commands -/

/-- **An object in the cache**, as `lstat` sees it. -/
structure CacheObject where
  mtime : ℕ
  size : ℕ
deriving DecidableEq

/-- What is left of a run of `evict_subdir`: the other objects the scan has found, with
their sizes, and `size`. -/
structure Slice (K : Type*) where
  todo : List (K × ℕ)
  size : ℕ

/-- **What a thread is doing**, and what it does next. -/
inductive CacheWork (K : Type*)
  | idle
  /-- A worker of `add` calls `lock` for the object of a file. -/
  | addLock (k : K)
  /-- It calls `has_object`. -/
  | addFind (k : K)
  /-- `has_object` has returned `false`: it calls `create_file`. -/
  | addCreate (k : K)
  /-- The context is destroyed. -/
  | addUnlock
  /-- `has_object` or `has_tree` is called without the lock. -/
  | find (k : K)
  /-- The object is written to a temporary file. -/
  | write (k : K)
  /-- The temporary file is renamed. -/
  | rename (k : K) (o : CacheObject)
  /-- The loop of `evict_subdir`. -/
  | evict (slice : Slice K)
  /-- `lock` is called for the object, of this size in the scan. -/
  | evictLock (k : K) (size : ℕ) (slice : Slice K)
  /-- `lstat` is called. -/
  | evictStat (k : K) (size : ℕ) (slice : Slice K)
  /-- The object has been seen with this time, which is compared with the clock. -/
  | evictAge (k : K) (size mtime : ℕ) (slice : Slice K)
  /-- It is old: `remove` is called. -/
  | evictRemove (k : K) (size : ℕ) (slice : Slice K)
  /-- The context is destroyed. -/
  | evictUnlock (slice : Slice K)

/-- **The cache, and the threads `A` of the processes that use it.** `found` tells what
`has_object` and `has_tree` have returned `true` for, and when. -/
structure CacheState (A K : Type*) where
  now : ℕ
  objects : K → Option CacheObject
  lock : Option A
  work : A → CacheWork K
  found : List (K × ℕ)

/-- The steps that matter to the others. -/
inductive CacheDeed (K : Type*)
  /-- The object is found, without the lock. -/
  | find (k : K)
  /-- A temporary file with this time is renamed to the object. -/
  | rename (k : K) (mtime : ℕ)
  | other

/-- The commands have yet to begin. -/
def CacheState.start {A K : Type*} (now : ℕ) (objects : K → Option CacheObject) :
    CacheState A K := ⟨now, objects, none, fun _ => .idle, []⟩

variable {A K : Type*} [DecidableEq A] [DecidableEq K]

/-- The thread is at `w`. -/
def CacheState.at (σ : CacheState A K) (a : A) (w : CacheWork K) : CacheState A K :=
  { σ with work := Function.update σ.work a w }

/-- The lock is given to a thread, or free. -/
def CacheState.relock (σ : CacheState A K) (l : Option A) : CacheState A K := { σ with lock := l }

/-- The object is replaced or removed. -/
def CacheState.put (σ : CacheState A K) (k : K) (o : Option CacheObject) : CacheState A K :=
  { σ with objects := Function.update σ.objects k o }

/-- `touch` has found the object: its time is that of the clock, and `true` is returned. -/
def CacheState.hit (σ : CacheState A K) (k : K) (o : CacheObject) : CacheState A K :=
  { σ.put k (some { o with mtime := σ.now }) with found := (k, σ.now) :: σ.found }

/-- **One step** of the clock or of a thread, with the retention period and the limit for
a subdirectory. -/
inductive CacheStep (retention limit : ℕ) :
    CacheState A K → CacheDeed K → CacheState A K → Prop
  | tick {σ} : CacheStep retention limit σ .other { σ with now := σ.now + 1 }
  | addFile {σ a k} (h : σ.work a = .idle) :
      CacheStep retention limit σ .other (σ.at a (.addLock k))
  | addLocked {σ a k} (h : σ.work a = .addLock k) (hfree : σ.lock = none) :
      CacheStep retention limit σ .other ((σ.relock (some a)).at a (.addFind k))
  | addFound {σ a k o} (h : σ.work a = .addFind k) (ho : σ.objects k = some o) :
      CacheStep retention limit σ .other ((σ.hit k o).at a .addUnlock)
  | addMissed {σ a k} (h : σ.work a = .addFind k) (ho : σ.objects k = none) :
      CacheStep retention limit σ .other (σ.at a (.addCreate k))
  | addCreated {σ a k size} (h : σ.work a = .addCreate k) :
      CacheStep retention limit σ .other ((σ.put k (some ⟨σ.now, size⟩)).at a .addUnlock)
  /-- `copy_file` leaves an object that has come meanwhile, or an exception is thrown. -/
  | addKept {σ a k} (h : σ.work a = .addCreate k) :
      CacheStep retention limit σ .other (σ.at a .addUnlock)
  | addUnlocked {σ a} (h : σ.work a = .addUnlock) :
      CacheStep retention limit σ .other ((σ.relock none).at a .idle)
  /-- `add` comes to a clean directory, or `pull` to a digest. -/
  | look {σ a k} (h : σ.work a = .idle) :
      CacheStep retention limit σ .other (σ.at a (.find k))
  | found {σ a k o} (h : σ.work a = .find k) (ho : σ.objects k = some o) :
      CacheStep retention limit σ (.find k) ((σ.hit k o).at a .idle)
  | missed {σ a k} (h : σ.work a = .find k) (ho : σ.objects k = none) :
      CacheStep retention limit σ .other (σ.at a (.write k))
  /-- `add` comes to a dirty directory. -/
  | dirty {σ a k} (h : σ.work a = .idle) :
      CacheStep retention limit σ .other (σ.at a (.write k))
  | written {σ a k size} (h : σ.work a = .write k) :
      CacheStep retention limit σ .other (σ.at a (.rename k ⟨σ.now, size⟩))
  | renamed {σ a k o} (h : σ.work a = .rename k o) :
      CacheStep retention limit σ (.rename k o.mtime) ((σ.put k (some o)).at a .idle)
  /-- `create_dirtree` sees that the object exists, or an exception is thrown. -/
  | dropped {σ a k o} (h : σ.work a = .write k ∨ σ.work a = .rename k o) :
      CacheStep retention limit σ .other (σ.at a .idle)
  /-- The directory may change while it is scanned, so this is any list. -/
  | scanned {σ a todo} (h : σ.work a = .idle) :
      CacheStep retention limit σ .other (σ.at a (.evict ⟨todo, (todo.map Prod.snd).sum⟩))
  | evictEnded {σ a slice} (h : σ.work a = .evict slice)
      (hend : slice.todo = [] ∨ slice.size < limit) :
      CacheStep retention limit σ .other (σ.at a .idle)
  | evictNext {σ a k n todo size} (h : σ.work a = .evict ⟨(k, n) :: todo, size⟩)
      (hsize : limit ≤ size) :
      CacheStep retention limit σ .other (σ.at a (.evictLock k n ⟨todo, size⟩))
  | evictLocked {σ a k n slice} (h : σ.work a = .evictLock k n slice) (hfree : σ.lock = none) :
      CacheStep retention limit σ .other ((σ.relock (some a)).at a (.evictStat k n slice))
  | evictGone {σ a k n slice} (h : σ.work a = .evictStat k n slice) (ho : σ.objects k = none) :
      CacheStep retention limit σ .other (σ.at a (.evictUnlock slice))
  | evictSeen {σ a k n slice o} (h : σ.work a = .evictStat k n slice)
      (ho : σ.objects k = some o) :
      CacheStep retention limit σ .other (σ.at a (.evictAge k n o.mtime slice))
  | evictYoung {σ a k n mtime slice} (h : σ.work a = .evictAge k n mtime slice)
      (hyoung : σ.now < mtime + retention) :
      CacheStep retention limit σ .other (σ.at a (.evictUnlock slice))
  | evictOld {σ a k n mtime slice} (h : σ.work a = .evictAge k n mtime slice)
      (hold : mtime + retention ≤ σ.now) :
      CacheStep retention limit σ .other (σ.at a (.evictRemove k n slice))
  | evictRemoved {σ a k n todo size} (h : σ.work a = .evictRemove k n ⟨todo, size⟩) :
      CacheStep retention limit σ .other
        ((σ.put k none).at a (.evictUnlock ⟨todo, size - n⟩))
  /-- `remove` fails: the context is destroyed, and no other object is looked at. -/
  | evictFailed {σ a k n slice} (h : σ.work a = .evictRemove k n slice) :
      CacheStep retention limit σ .other (σ.at a (.evictUnlock ⟨[], slice.size⟩))
  | evictUnlocked {σ a slice} (h : σ.work a = .evictUnlock slice) :
      CacheStep retention limit σ .other ((σ.relock none).at a (.evict slice))

/-- **One step of anybody.** -/
def AnyCacheStep (retention limit : ℕ) (σ τ : CacheState A K) : Prop :=
  ∃ e, CacheStep retention limit σ e τ

/-- The evictor is between `lstat` and `remove` for the object: it has seen it with a time
before `now`, or to be old. -/
def CacheWork.Condemns (now : ℕ) (k : K) : CacheWork K → Prop
  | .evictAge j _ mtime _ => j = k ∧ mtime < now
  | .evictRemove j _ _ => j = k
  | _ => False

/-- No object is found without the lock between the `lstat` and the `remove` of an evictor,
and none is replaced by an older one. -/
def CacheState.Spares (σ : CacheState A K) : CacheDeed K → Prop
  | .find k => ∀ a, ¬ (σ.work a).Condemns σ.now k
  | .rename k mtime => ∀ o, σ.objects k = some o → o.mtime ≤ mtime
  | .other => True

/-- A step that does neither. -/
def SparingStep (retention limit : ℕ) (σ τ : CacheState A K) : Prop :=
  ∃ e, σ.Spares e ∧ CacheStep retention limit σ e τ

/-! ### What the evictor knows -/

/-- It has been granted the lock, and has not released it. -/
def CacheWork.Locked : CacheWork K → Prop
  | .addFind _ | .addCreate _ | .addUnlock | .evictStat .. | .evictAge .. | .evictRemove ..
  | .evictUnlock _ => True
  | _ => False

/-- What has been found at `x.2` is over age by then, or will not look so to the evictor. -/
def CacheWork.Fair (retention now : ℕ) (x : K × ℕ) : CacheWork K → Prop
  | .evictAge k _ mtime _ => x.1 = k → x.2 ≤ mtime ∨ x.2 + retention ≤ now
  | .evictRemove k _ _ => x.1 = k → x.2 + retention ≤ now
  | _ => True

/-- **Found objects are kept**: each is there, not older than when it was found, until the
retention period is over, and no evictor is mistaken about it. -/
structure CacheState.Keeps (retention : ℕ) (σ : CacheState A K) : Prop where
  locked : ∀ a, (σ.work a).Locked → σ.lock = some a
  past : ∀ x ∈ σ.found, x.2 ≤ σ.now
  kept : ∀ x ∈ σ.found,
    x.2 + retention ≤ σ.now ∨ ∃ o, σ.objects x.1 = some o ∧ x.2 ≤ o.mtime
  fair : ∀ x ∈ σ.found, ∀ a, (σ.work a).Fair retention σ.now x

section Steps

variable {retention limit : ℕ} {σ τ : CacheState A K} {a b : A} {k : K} {o : CacheObject}
  {w : CacheWork K}

omit [DecidableEq A] [DecidableEq K] in
theorem CacheState.keeps_start {now : ℕ} {objects : K → Option CacheObject} :
    (CacheState.start now objects : CacheState A K).Keeps retention where
  locked _ h := h.elim
  past _ h := nomatch h
  kept _ h := nomatch h
  fair _ h := nomatch h

omit [DecidableEq K] in
theorem CacheState.at_self : (σ.at a w).work a = w := Function.update_self ..

omit [DecidableEq K] in
theorem CacheState.at_ne (h : b ≠ a) : (σ.at a w).work b = σ.work b := Function.update_of_ne h ..

omit [DecidableEq K] in
/-- What holds of the work of every thread still does if it holds of the new work. -/
theorem CacheState.at_forall {P : A → CacheWork K → Prop} (h : ∀ b, b ≠ a → P b (σ.work b))
    (hw : P a w) (b : A) : P b ((σ.at a w).work b) := by
  rcases eq_or_ne b a with rfl | hb
  · rwa [at_self]
  · rw [at_ne hb]
    exact h b hb

namespace CacheState.Keeps

omit [DecidableEq K] in
/-- A thread goes on, and keeps the lock if it needs it. -/
theorem goOn (h : σ.Keeps retention) (hlocked : w.Locked → σ.lock = some a)
    (hfair : ∀ x ∈ σ.found, w.Fair retention σ.now x) : (σ.at a w).Keeps retention where
  locked := at_forall (P := fun b w => w.Locked → σ.lock = some b) (fun b _ => h.locked b) hlocked
  past := h.past
  kept := h.kept
  fair x hx := at_forall (fun b _ => h.fair x hx b) (hfair x hx)

omit [DecidableEq K] in
/-- A thread takes the lock, which is free, or releases it. -/
theorem relock {l : Option A} (h : σ.Keeps retention)
    (hlock : σ.lock = none ∨ σ.lock = some a) (hlocked : w.Locked → l = some a)
    (hfair : ∀ x ∈ σ.found, w.Fair retention σ.now x) :
    ((σ.relock l).at a w).Keeps retention where
  locked := by
    refine at_forall (P := fun b w => w.Locked → l = some b) (fun b hb hw => ?_) hlocked
    have hb' := h.locked b hw
    rcases hlock with hl | hl <;> rw [hl] at hb'
    · cases hb'
    · exact absurd (Option.some.inj hb').symm hb
  past := h.past
  kept := h.kept
  fair x hx := at_forall (fun b _ => h.fair x hx b) (hfair x hx)

omit [DecidableEq A] in
/-- An object is replaced by one that is not older than when it was found. -/
theorem put (h : σ.Keeps retention)
    (ho : ∀ x ∈ σ.found, x.1 = k → x.2 + retention ≤ σ.now ∨ x.2 ≤ o.mtime) :
    (σ.put k (some o)).Keeps retention where
  locked := h.locked
  past := h.past
  kept x hx := by
    rcases eq_or_ne x.1 k with hk | hk
    · exact (ho x hx hk).imp_right fun hle => ⟨o, by rw [hk]; exact Function.update_self .., hle⟩
    · refine (h.kept x hx).imp_right fun ⟨o', ho', hle⟩ => ⟨o', ?_, hle⟩
      exact (Function.update_of_ne hk ..).trans ho'
  fair := h.fair

omit [DecidableEq A] in
/-- An object is removed that is over age, whenever it was found. -/
theorem remove (h : σ.Keeps retention)
    (ho : ∀ x ∈ σ.found, x.1 = k → x.2 + retention ≤ σ.now) :
    (σ.put k none).Keeps retention where
  locked := h.locked
  past := h.past
  kept x hx := by
    rcases eq_or_ne x.1 k with hk | hk
    · exact Or.inl (ho x hx hk)
    · refine (h.kept x hx).imp_right fun ⟨o', ho', hle⟩ => ⟨o', ?_, hle⟩
      exact (Function.update_of_ne hk ..).trans ho'
  fair := h.fair

omit [DecidableEq A] in
/-- An object is found that no evictor condemns. -/
theorem hit (h : σ.Keeps retention) (hno : ∀ b, ¬ (σ.work b).Condemns σ.now k) :
    (σ.hit k o).Keeps retention := by
  have hput : (σ.put k (some { o with mtime := σ.now })).Keeps retention :=
    h.put fun x hx _ => Or.inr (h.past x hx)
  refine ⟨h.locked, fun x hx => ?_, fun x hx => ?_, fun x hx b => ?_⟩ <;>
    rcases List.mem_cons.mp hx with rfl | hx
  · exact Nat.le_refl _
  · exact h.past x hx
  · exact Or.inr ⟨_, Function.update_self .., Nat.le_refl _⟩
  · exact hput.kept x hx
  · have hb := hno b
    change (σ.work b).Fair retention σ.now (k, σ.now)
    cases hw : σ.work b with
    | evictAge j n mtime slice =>
      rintro rfl
      simp only [hw, CacheWork.Condemns, true_and, Nat.not_lt] at hb
      exact Or.inl hb
    | evictRemove j n slice =>
      rintro rfl
      exact absurd (by rw [hw]; rfl) hb
    | _ => trivial
  · exact h.fair x hx b

omit [DecidableEq A] [DecidableEq K] in
/-- The clock goes on. -/
theorem tick (h : σ.Keeps retention) :
    CacheState.Keeps retention { σ with now := σ.now + 1 } where
  locked := h.locked
  past x hx := Nat.le_succ_of_le (h.past x hx)
  kept x hx := (h.kept x hx).imp_left Nat.le_succ_of_le
  fair x hx b := by
    have hb := h.fair x hx b
    cases hw : σ.work b with
    | evictAge j n mtime slice =>
      rw [hw] at hb
      exact fun hk => (hb hk).imp_right Nat.le_succ_of_le
    | evictRemove j n slice =>
      rw [hw] at hb
      exact fun hk => Nat.le_succ_of_le (hb hk)
    | _ => trivial

omit [DecidableEq A] [DecidableEq K] in
/-- Nobody else condemns anything while a thread has the lock. -/
theorem not_condemns (h : σ.Keeps retention) (ha : (σ.work a).Locked)
    (hno : ¬ (σ.work a).Condemns σ.now k) (b : A) : ¬ (σ.work b).Condemns σ.now k := by
  intro hb
  have hlocked : (σ.work b).Locked := by
    cases hw : σ.work b <;> rw [hw] at hb <;> trivial
  have hab : a = b := Option.some.inj ((h.locked a ha).symm.trans (h.locked b hlocked))
  exact hno (hab ▸ hb)

end CacheState.Keeps

end Steps

/-- **One step keeps what has been found.** -/
theorem CacheState.Keeps.step {retention limit : ℕ} {σ τ : CacheState A K}
    (h : σ.Keeps retention) (hs : SparingStep retention limit σ τ) : τ.Keeps retention := by
  obtain ⟨e, hspares, hs⟩ := hs
  cases hs with
  | tick => exact h.tick
  | addFile hw | look hw | missed hw | dirty hw | written hw | dropped hw | scanned hw
  | evictEnded hw | evictNext hw => exact h.goOn nofun fun _ _ => trivial
  | addLocked hw hfree | evictLocked hw hfree =>
    exact h.relock (Or.inl hfree) (fun _ => rfl) fun _ _ => trivial
  | @addFound a k o hw ho =>
    have hlocked : (σ.work a).Locked := by rw [hw]; trivial
    have hno := h.not_condemns (k := k) hlocked (by rw [hw]; exact id)
    exact (h.hit hno).goOn (fun _ => h.locked a hlocked) fun _ _ => trivial
  | @addMissed a k hw ho | @evictGone a k n slice hw ho | @addKept a k hw
  | @evictYoung a k n mtime slice hw hyoung | @evictFailed a k n slice hw =>
    exact h.goOn (fun _ => h.locked a (by rw [hw]; trivial)) fun _ _ => trivial
  | @addCreated a k size hw =>
    have hput : (σ.put k (some ⟨σ.now, size⟩)).Keeps retention :=
      h.put fun x hx _ => Or.inr (h.past x hx)
    exact hput.goOn (fun _ => h.locked a (by rw [hw]; trivial)) fun _ _ => trivial
  | @addUnlocked a hw | @evictUnlocked a slice hw =>
    exact h.relock (Or.inr (h.locked a (by rw [hw]; trivial))) nofun fun _ _ => trivial
  | found hw ho => exact (h.hit hspares).goOn nofun fun _ _ => trivial
  | @renamed a k o hw =>
    refine CacheState.Keeps.goOn (h.put fun x hx hk => ?_) nofun fun _ _ => trivial
    refine (h.kept x hx).imp_right fun ⟨o', ho', hle⟩ => ?_
    exact Nat.le_trans hle (hspares o' (hk ▸ ho'))
  | @evictSeen a k n slice o hw ho =>
    refine h.goOn (fun _ => h.locked a (by rw [hw]; trivial)) fun x hx hk => ?_
    refine (h.kept x hx).symm.imp_left fun ⟨o', ho', hle⟩ => ?_
    rw [hk, ho] at ho'
    exact Option.some.inj ho' ▸ hle
  | @evictOld a k n mtime slice hw hold =>
    refine h.goOn (fun _ => h.locked a (by rw [hw]; trivial)) fun x hx hk => ?_
    have hfair := h.fair x hx a
    rw [hw] at hfair
    rcases hfair hk with hle | hle
    · exact Nat.le_trans (Nat.add_le_add_right hle _) hold
    · exact hle
  | @evictRemoved a k n todo size hw =>
    have hremove : (σ.put k none).Keeps retention := h.remove fun x hx hk => by
      have hfair := h.fair x hx a
      rw [hw] at hfair
      exact hfair hk
    exact hremove.goOn (fun _ => h.locked a (by rw [hw]; trivial)) fun _ _ => trivial

/-! ### What has been found stays -/

/-- **What has been found stays for the retention period**: in every run in which no object
is found without the lock behind the back of an evictor, and none is replaced by an older
one, an object that `has_object` or `has_tree` has returned `true` for is there until then. -/
theorem found_stays {retention limit now : ℕ} {objects : K → Option CacheObject}
    {σ : CacheState A K} (hrun : Reaches (SparingStep retention limit) (.start now objects) σ) :
    ∀ x ∈ σ.found, σ.now < x.2 + retention → σ.objects x.1 ≠ none := by
  intro x hx hnow hnone
  have hkeeps : σ.Keeps retention :=
    hrun.invariant CacheState.keeps_start fun _ _ => CacheState.Keeps.step
  rcases hkeeps.kept x hx with hle | ⟨o, ho, -⟩
  · omega
  · rw [hnone] at ho
    cases ho

namespace Sample

/-- A thread of `pull` has found the one object. -/
def pulled (σ : CacheState Bool Unit) (o : CacheObject) : CacheState Bool Unit :=
  ((σ.at false (.find ())).hit () o).at false .idle

/-- An evictor has got as far as `lstat` of the one object, and has seen it with this time. -/
def evictor (σ : CacheState Bool Unit) (mtime : ℕ) : CacheState Bool Unit :=
  ((((σ.at true (.evict ⟨[((), 1)], 1⟩)).at true (.evictLock () 1 ⟨[], 1⟩)).relock
    (some true)).at true (.evictStat () 1 ⟨[], 1⟩)).at true (.evictAge () 1 mtime ⟨[], 1⟩)

variable {σ : CacheState Bool Unit} {o : CacheObject}

theorem sparing_look (hwork : σ.work false = .idle) :
    SparingStep 1 0 σ (σ.at false (.find ())) := ⟨.other, trivial, .look hwork⟩

theorem finds (ho : σ.objects () = some o) :
    CacheStep 1 0 (σ.at false (.find ())) (.find ()) (pulled σ o) :=
  .found CacheState.at_self ho

theorem reaches_evictor (hwork : σ.work true = .idle) (hfree : σ.lock = none)
    (ho : σ.objects () = some o) : Reaches (SparingStep 1 0) σ (evictor σ o.mtime) :=
  .head ⟨.other, trivial, .scanned hwork⟩ <|
    .head ⟨.other, trivial, .evictNext CacheState.at_self (Nat.zero_le _)⟩ <|
    .head ⟨.other, trivial, .evictLocked CacheState.at_self hfree⟩ <|
    .single ⟨.other, trivial, .evictSeen CacheState.at_self ho⟩

/-- A cache with one object, of time `0`. -/
def cache : CacheState Bool Unit := .start 5 fun _ => some ⟨0, 1⟩

/-- The evictor sees the object after it was found, and passes it over. -/
def passedOver : CacheState Bool Unit :=
  (evictor (pulled cache ⟨0, 1⟩) 5).at true (.evictUnlock ⟨[], 1⟩)

theorem reaches_passedOver : Reaches (SparingStep 1 0) (.start 5 fun _ => some ⟨0, 1⟩)
    passedOver := by
  have hfind : SparingStep 1 0 (cache.at false (.find ())) (pulled cache ⟨0, 1⟩) := by
    refine ⟨.find (), fun a h => ?_, finds rfl⟩
    cases a <;> exact h
  have hyoung : SparingStep 1 0 (evictor (pulled cache ⟨0, 1⟩) 5) passedOver :=
    ⟨.other, trivial, .evictYoung CacheState.at_self (by decide)⟩
  have hseen : Reaches (SparingStep 1 0) (pulled cache ⟨0, 1⟩) _ :=
    reaches_evictor (o := ⟨5, 1⟩) rfl rfl rfl
  exact .head (sparing_look rfl) <| .head hfind <| hseen.trans (.single hyoung)

end Sample

/-- The object is found before the evictor looks at it. -/
theorem found_stays_sample : Sample.passedOver.found = [((), 5)] ∧
    ∀ x ∈ Sample.passedOver.found, Sample.passedOver.now < x.2 + 1 →
      Sample.passedOver.objects x.1 ≠ none :=
  ⟨rfl, found_stays Sample.reaches_passedOver⟩

/-- The evictor has seen that the object is old, another thread finds it, and it is removed. -/
def Sample.removed : CacheState Bool Unit :=
  ((pulled ((evictor cache 0).at true (.evictRemove () 1 ⟨[], 1⟩)) ⟨0, 1⟩).put () none).at true
    (.evictUnlock ⟨[], 1 - 1⟩)

theorem Sample.reaches_removed : Reaches (AnyCacheStep 1 0) cache removed := by
  have hsub : ∀ σ τ, SparingStep 1 0 σ τ → AnyCacheStep (A := Bool) (K := Unit) 1 0 σ τ :=
    fun σ τ ⟨e, _, h⟩ => ⟨e, h⟩
  have hseen : Reaches (AnyCacheStep 1 0) cache (evictor cache 0) :=
    (reaches_evictor (o := ⟨0, 1⟩) rfl rfl rfl).mono hsub
  refine hseen.trans <| .head ⟨.other, .evictOld CacheState.at_self (by decide)⟩ <|
    .head (hsub _ _ (sparing_look ?_)) <| .head ⟨.find (), finds rfl⟩ <|
    .single ⟨.other, .evictRemoved (a := true) ?_⟩
  · rfl
  · rfl

/-- **What has been found is not always kept**: the object is removed at the very time at
which it was found. -/
theorem found_not_kept : ¬ ∀ σ : CacheState Bool Unit,
    Reaches (AnyCacheStep 1 0) Sample.cache σ →
      ∀ x ∈ σ.found, σ.now < x.2 + 1 → σ.objects x.1 ≠ none := fun hclaim =>
  hclaim _ Sample.reaches_removed ((), 5) (by decide) (by decide) rfl

end Fstree
