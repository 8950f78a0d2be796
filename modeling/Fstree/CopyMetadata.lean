import Fstree.Contents
import Fstree.IndexHeap

/-!
# The metadata of one index, copied to another

`index::copy_metadata` goes through the lists of two indexes with two cursors and writes
mtimes to inodes on the heap, which the two indexes may share. If both lists are strictly
sorted by path, it is an exact join by path and digest (`Fstree.copyMetadata_exact`), and
on the values of the inodes it is the function a checkout is described with
(`Fstree.map_fields_copyMetadata`).

The cursors never pass a path that both lists have. What carries the induction is that the
heap changes only under the left cursor, at a path that both lists have left behind.
-/

namespace Fstree

open SortedBy

/-! ### The loop -/

/-- `inode::path` of what is at an address. -/
def Heap.path (h : Heap) (a : ℕ) : Bytes := (h.object a).fields.path

/-- `inode::hash` of what is at an address. -/
def Heap.hash (h : Heap) (a : ℕ) : Digest := (h.object a).fields.hash

/-- `inode::last_write_time` of what is at an address. -/
def Heap.lastWriteTime (h : Heap) (a : ℕ) : Time := (h.object a).fields.mtime

/-- An inode with another mtime. -/
def HeapInode.withMtime (o : HeapInode) (mtime : Time) : HeapInode :=
  { o with fields := { o.fields with mtime := mtime } }

/-- `inode::set_last_write_time`. -/
def Heap.setLastWriteTime (h : Heap) (a : ℕ) (mtime : Time) : Heap :=
  h.set a ((h.object a).withMtime mtime)

/-- The loop of `index::copy_metadata`, on what the two cursors have before them. -/
def Heap.copyMetadata (h : Heap) : List ℕ → List ℕ → Heap
  | [], _ => h
  | _ :: _, [] => h
  | p :: ps, q :: qs =>
    if h.path p < h.path q then h.copyMetadata ps (q :: qs)
    else if h.path p > h.path q then h.copyMetadata (p :: ps) qs
    else if h.hash p = h.hash q then
      (h.setLastWriteTime p (h.lastWriteTime q)).copyMetadata ps qs
    else h.copyMetadata ps qs
termination_by ps qs => ps.length + qs.length

/-- **`index::copy_metadata`**: nothing but the heap changes, the lists stay as they are. -/
def IndexValue.copyMetadata (x other : IndexValue) (h : Heap) : Heap :=
  h.copyMetadata x.inodes other.inodes

/-- **The list of an index is strictly sorted by path.** -/
def IndexValue.Sorted (x : IndexValue) (h : Heap) : Prop := StrictBy h.path x.inodes

/-- **Two inodes agree** in their paths and digests. -/
def Heap.Agree (h : Heap) (p q : ℕ) : Prop := h.path p = h.path q ∧ h.hash p = h.hash q

/-! ### What the loop does -/

section Loop

variable {h : Heap} {a c p q : ℕ} {t : Time} {ps qs : List ℕ}

@[simp] theorem Heap.setLastWriteTime_self :
    (h.setLastWriteTime a t).object a = (h.object a).withMtime t := Heap.set_self

theorem Heap.setLastWriteTime_ne (hc : c ≠ a) :
    (h.setLastWriteTime a t).object c = h.object c := Heap.set_ne hc

theorem Heap.lastWriteTime_setLastWriteTime_ne (hc : c ≠ a) :
    (h.setLastWriteTime a t).lastWriteTime c = h.lastWriteTime c := by
  rw [Heap.lastWriteTime, Heap.setLastWriteTime_ne hc, Heap.lastWriteTime]

@[simp] theorem Heap.path_setLastWriteTime : (h.setLastWriteTime a t).path = h.path := by
  funext c
  by_cases hc : c = a
  · rw [hc, Heap.path, Heap.setLastWriteTime_self]
    rfl
  · rw [Heap.path, Heap.setLastWriteTime_ne hc]
    rfl

@[simp] theorem Heap.hash_setLastWriteTime : (h.setLastWriteTime a t).hash = h.hash := by
  funext c
  by_cases hc : c = a
  · rw [hc, Heap.hash, Heap.setLastWriteTime_self]
    rfl
  · rw [Heap.hash, Heap.setLastWriteTime_ne hc]
    rfl

/-- Mtimes do not count. -/
@[simp] theorem Heap.agree_setLastWriteTime :
    (h.setLastWriteTime a t).Agree p q ↔ h.Agree p q := by
  simp [Heap.Agree]

/-- Only mtimes are written, whatever the order of the lists. -/
theorem Heap.withMtime_copyMetadata (h : Heap) (ps qs : List ℕ) :
    (h.copyMetadata ps qs).size = h.size ∧ ∀ c,
      ((h.copyMetadata ps qs).object c).withMtime (h.lastWriteTime c) = h.object c := by
  fun_induction Heap.copyMetadata h ps qs with
  | case1 | case2 => exact ⟨rfl, fun _ => rfl⟩
  | case3 h p ps q qs hlt ih => exact ih
  | case4 h p ps q qs hlt hgt ih => exact ih
  | case5 h p ps q qs hlt hgt hh ih =>
    refine ⟨ih.1, fun c => ?_⟩
    by_cases hc : c = p
    · have hp := congrArg (fun o => o.withMtime (h.lastWriteTime c)) (ih.2 c)
      rw [hc, Heap.setLastWriteTime_self] at hp
      rw [hc]
      exact hp
    · rw [← Heap.lastWriteTime_setLastWriteTime_ne hc, ih.2 c, Heap.setLastWriteTime_ne hc]
  | case6 h p ps q qs hlt hgt hh ih => exact ih

/-- **The loop over two sorted lists**: an inode of the left one is written if one of the
right one agrees with it, and gets its mtime. Nothing else is written. -/
theorem Heap.copyMetadata_spec (hps : StrictBy h.path ps) (hqs : StrictBy h.path qs) :
    (∀ p ∈ ps, ∀ q ∈ qs, h.Agree p q →
      (h.copyMetadata ps qs).object p = (h.object p).withMtime (h.lastWriteTime q)) ∧
    ∀ c, (c ∈ ps → ∀ q ∈ qs, ¬ h.Agree c q) → (h.copyMetadata ps qs).object c = h.object c := by
  fun_induction Heap.copyMetadata h ps qs with
  | case1 => exact ⟨by simp, fun _ _ => rfl⟩
  | case2 => exact ⟨by simp, fun _ _ => rfl⟩
  | case3 h p ps q qs hlt ih =>
    obtain ⟨hjoin, hrest⟩ := ih (strictBy_cons.mp hps).2 hqs
    refine ⟨fun a ha b hb hab => ?_, fun c hc => hrest c fun hm => hc (List.mem_cons_of_mem _ hm)⟩
    rcases List.mem_cons.mp ha with rfl | ha
    · -- what is smaller than the first of the right list is not in it
      refine absurd hab.1 (ne_of_lt ?_)
      rcases List.mem_cons.mp hb with rfl | hb
      · exact hlt
      · exact hlt.trans ((strictBy_cons.mp hqs).1 b hb)
    · exact hjoin a ha b hb hab
  | case4 h p ps q qs hlt hgt ih =>
    obtain ⟨hjoin, hrest⟩ := ih hps (strictBy_cons.mp hqs).2
    refine ⟨fun a ha b hb hab => ?_, fun c hc => hrest c fun hm b hb =>
      hc hm b (List.mem_cons_of_mem _ hb)⟩
    rcases List.mem_cons.mp hb with rfl | hb
    · refine absurd hab.1.symm (ne_of_lt ?_)
      rcases List.mem_cons.mp ha with rfl | ha
      · exact hgt
      · exact hgt.trans ((strictBy_cons.mp hps).1 a ha)
    · exact hjoin a ha b hb hab
  | case5 h p ps q qs hlt hgt hh ih =>
    have heq : h.path p = h.path q := le_antisymm (not_lt.mp hgt) (not_lt.mp hlt)
    obtain ⟨hp, hps⟩ := strictBy_cons.mp hps
    obtain ⟨hq, hqs⟩ := strictBy_cons.mp hqs
    obtain ⟨hjoin, hrest⟩ := ih (by simpa using hps) (by simpa using hqs)
    -- the inode that is written is in neither of the lists that are left
    have hnp : p ∉ ps := fun hm => lt_irrefl _ (hp p hm)
    have hnq : ∀ b ∈ qs, b ≠ p := fun b hb he => ne_of_lt (hq b hb) (by rw [he, heq])
    refine ⟨fun a ha b hb hab => ?_, fun c hc => ?_⟩
    · rcases List.mem_cons.mp ha with rfl | ha
      · obtain rfl : b = q := (List.mem_cons.mp hb).resolve_right fun hb =>
          ne_of_lt (hq b hb) (heq.symm.trans hab.1)
        rw [hrest a fun hm => absurd hm hnp, Heap.setLastWriteTime_self]
      · obtain hb : b ∈ qs := (List.mem_cons.mp hb).resolve_left fun he =>
          ne_of_lt (hp a ha) (by rw [hab.1, he, heq])
        have hne : a ≠ p := fun he => hnp (he ▸ ha)
        rw [hjoin a ha b hb (by simpa using hab), Heap.setLastWriteTime_ne hne,
          Heap.lastWriteTime_setLastWriteTime_ne (hnq b hb)]
    · have hne : c ≠ p := fun he =>
        hc (by simp [he]) q (by simp) (by rw [he]; exact ⟨heq, hh⟩)
      rw [hrest c fun hm b hb hab => hc (List.mem_cons_of_mem _ hm) b (List.mem_cons_of_mem _ hb)
        (by simpa using hab), Heap.setLastWriteTime_ne hne]
  | case6 h p ps q qs hlt hgt hh ih =>
    have heq : h.path p = h.path q := le_antisymm (not_lt.mp hgt) (not_lt.mp hlt)
    obtain ⟨hp, hps⟩ := strictBy_cons.mp hps
    obtain ⟨hq, hqs⟩ := strictBy_cons.mp hqs
    obtain ⟨hjoin, hrest⟩ := ih hps hqs
    refine ⟨fun a ha b hb hab => ?_, fun c hc => hrest c fun hm b hb =>
      hc (List.mem_cons_of_mem _ hm) b (List.mem_cons_of_mem _ hb)⟩
    rcases List.mem_cons.mp ha with rfl | ha
    · rcases List.mem_cons.mp hb with rfl | hb
      · exact absurd hab.2 hh
      · exact absurd (heq.symm.trans hab.1) (ne_of_lt (hq b hb))
    · rcases List.mem_cons.mp hb with rfl | hb
      · exact absurd (heq.trans hab.1.symm) (ne_of_lt (hp a ha))
      · exact hjoin a ha b hb hab

end Loop

/-! ### What it does to indexes -/

section Index

variable {h : Heap} {x other : IndexValue} {q : ℕ}

/-- Sorted indexes stay sorted. -/
theorem IndexValue.Sorted.copyMetadata {y : IndexValue} (hy : y.Sorted h) :
    y.Sorted (x.copyMetadata other h) := by
  have hpath : (x.copyMetadata other h).path = h.path := by
    funext c
    rw [Heap.path, Heap.path, ← (Heap.withMtime_copyMetadata h x.inodes other.inodes).2 c]
    rfl
  rwa [IndexValue.Sorted, hpath]

/-- **The inodes of the other index are not written**, also if they are inodes of the first
one: in sorted lists such an inode agrees with no inode but itself. -/
theorem object_copyMetadata_other (hx : x.Sorted h) (hother : other.Sorted h)
    (hq : q ∈ other.inodes) : (x.copyMetadata other h).object q = h.object q := by
  obtain ⟨hjoin, hrest⟩ := Heap.copyMetadata_spec hx hother
  by_cases hm : q ∈ x.inodes
  · exact hjoin q hm q hq ⟨rfl, rfl⟩
  · exact hrest q fun hm' => absurd hm' hm

/-- **`index::copy_metadata` is an exact join by path and digest.** -/
theorem copyMetadata_exact (h : Heap) (x other : IndexValue) (hx : x.Sorted h)
    (hother : other.Sorted h) :
    let h' := x.copyMetadata other h
    (∀ p ∈ x.inodes, ∀ q ∈ other.inodes, h.Agree p q →
      h'.lastWriteTime p = h.lastWriteTime q) ∧
    (∀ p ∈ x.inodes, (∀ q ∈ other.inodes, ¬ h.Agree p q) →
      h'.lastWriteTime p = h.lastWriteTime p) ∧
    (∀ c, (h'.object c).withMtime (h.lastWriteTime c) = h.object c) ∧
    (∀ c, c ∈ other.inodes ∨ c ∉ x.inodes → h'.object c = h.object c) ∧
    h'.size = h.size ∧ x.Sorted h' ∧ other.Sorted h' := by
  obtain ⟨hjoin, hrest⟩ := Heap.copyMetadata_spec hx hother
  obtain ⟨hsize, hfields⟩ := Heap.withMtime_copyMetadata h x.inodes other.inodes
  refine ⟨fun p hp q hq hpq => ?_, fun p _ hn => ?_, hfields, fun c hc => ?_, hsize,
    hx.copyMetadata, hother.copyMetadata⟩
  · rw [Heap.lastWriteTime, IndexValue.copyMetadata, hjoin p hp q hq hpq]
    rfl
  · rw [Heap.lastWriteTime, IndexValue.copyMetadata, hrest p fun _ => hn, Heap.lastWriteTime]
  · rcases hc with hc | hc
    · exact object_copyMetadata_other hx hother hc
    · exact hrest c fun hm => absurd hm hc

namespace Sample

/-- A heap with a file `b` for either of two indexes, and a file for one of them only. -/
def joinedHeap : Heap :=
  ⟨5, fun a => ⟨⟨if a = 1 then [97] else if a = 4 then [99] else if a = 0 then [] else [98],
    Digest.none, ⟨.regular, 0o644⟩, 10 * a, 0, [], none, false⟩, [], none⟩⟩

/-- The indexes. -/
def leftIndex : IndexValue := ⟨0, [1, 2]⟩

@[inherit_doc leftIndex] def rightIndex : IndexValue := ⟨0, [3, 4]⟩

theorem sorted_leftIndex : leftIndex.Sorted joinedHeap := by
  simp [IndexValue.Sorted, leftIndex, StrictBy]
  decide

theorem sorted_rightIndex : rightIndex.Sorted joinedHeap := by
  simp [IndexValue.Sorted, rightIndex, StrictBy]
  decide

end Sample

/-- The file that both have gets the other mtime. -/
theorem copyMetadata_exact_sample :
    Sample.leftIndex.Sorted Sample.joinedHeap ∧ Sample.rightIndex.Sorted Sample.joinedHeap ∧
      (Sample.leftIndex.copyMetadata Sample.rightIndex Sample.joinedHeap).lastWriteTime 2 =
        Sample.joinedHeap.lastWriteTime 3 :=
  ⟨Sample.sorted_leftIndex, Sample.sorted_rightIndex,
    (copyMetadata_exact Sample.joinedHeap Sample.leftIndex Sample.rightIndex
      Sample.sorted_leftIndex Sample.sorted_rightIndex).1 2 (by decide) 3 (by decide)
      ⟨by decide, by decide⟩⟩

/-- **On the values of the inodes it is `copyMetadata`.** -/
theorem map_fields_copyMetadata (hx : x.Sorted h) (hother : other.Sorted h) :
    x.inodes.map (fun p => ((x.copyMetadata other h).object p).fields) =
      copyMetadata (x.inodes.map fun p => (h.object p).fields)
        (other.inodes.map fun q => (h.object q).fields) := by
  have hs : ∀ {y : IndexValue}, y.Sorted h →
      StrictBy Inode.path (y.inodes.map fun p => (h.object p).fields) :=
    fun hy => StrictBy.map (fun _ _ => rfl) hy
  rw [copyMetadata_eq_map (hs hx) (hs hother), List.map_map]
  obtain ⟨hjoin, hrest⟩ := Heap.copyMetadata_spec hx hother
  refine List.map_congr_left fun p hp => ?_
  rw [Function.comp_apply]
  by_cases hk : ∃ q ∈ other.inodes, h.Agree p q
  · obtain ⟨q, hq, hpath, hhash⟩ := hk
    rw [withMtime_of_mem (hs hother) (List.mem_map_of_mem hq) hpath.symm hhash.symm]
    exact congrArg HeapInode.fields (hjoin p hp q hq ⟨hpath, hhash⟩)
  · rw [withMtime_of_not_known (hs hother)]
    · exact congrArg HeapInode.fields (hrest p fun _ q hq hpq => hk ⟨q, hq, hpq⟩)
    · rintro ⟨o, ho, hpath, hhash⟩
      obtain ⟨q, hq, rfl⟩ := List.mem_map.mp ho
      exact hk ⟨q, hq, hpath.symm, hhash.symm⟩

end Index

end Fstree
