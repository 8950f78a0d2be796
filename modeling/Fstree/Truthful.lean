import Fstree.Add
import Fstree.Copies
import Fstree.ReadTree
import Fstree.Refresh

/-!
# From truthful digests to a stored tree

`cache::add` makes tree objects only of the directories that are dirty or whose
tree object is missing, so the digests it begins with had better be right.
`Fstree.Index.Truthful` says what that takes, for a set of directories that holds
every directory the add will not look at and with a directory its subdirectories:
their digests are those of their tree objects, and everything in them has a
digest. Then the add leaves a Merkle-consistent index, whatever it has made tree
objects of besides, if no temporary file has lost bytes when it was closed
(`Fstree.Index.Finished.merkle`, `Fstree.Index.Truthful.merkle`).

If nothing of what the store holds collides with what the index holds, the tree
object of every directory and the object of every file are in the store
(`Fstree.Index.stored_of_added`, `Fstree.Index.object_of_added`), which is what
the reader needs.
-/

namespace Fstree

namespace Index

variable {L : Index} {H : HashFunction} {content : Bytes → Bytes} {st₀ st : Store}
  {hs₀ hs : Hashes} {D : Bytes → Prop} {leaves : Bytes → Bytes → Prop}

/-- **Truthful digests**, as far as the directories in `D` go. -/
structure Truthful (L : Index) (H : HashFunction) (content : Bytes → Bytes) (st₀ : Store)
    (hs₀ : Hashes) (D : Bytes → Prop) : Prop where
  file : ∀ i ∈ L.inodes, i.isFile = true → (hs₀ i.path).empty = false →
    hs₀ i.path = H.sum (content i.path)
  other : ∀ i ∈ L.inodes, i.isFile = false → i.isDirectory = false → hs₀ i.path = Digest.none
  /-- The add makes the tree objects of all other directories. -/
  spared : ∀ i ∈ L.inodes, i.isDirectory = true → needsTree st₀ (hs₀ i.path) = false → D i.path
  dir : ∀ i ∈ L.inodes, i.isDirectory = true → D i.path → hs₀ i.path = H.sum (L.tree hs₀ i.path)
  below : ∀ i ∈ L.inodes, i.isDirectory = true → D i.path → ∀ c ∈ L.inodes,
    c.parent = some i.path → (c.isFile = true → (hs₀ c.path).empty = false) ∧
      (c.isDirectory = true → D c.path)

/-- The digest of what is no file and is not made a tree object of stays. -/
theorem kept_of_added {calls : AddCalls} (h : Added H L calls st₀ hs₀ st hs) {i : Inode}
    (hi : i ∈ L.inodes) (hf : i.isFile = false)
    (hn : i.isDirectory = true → needsTree st₀ (hs₀ i.path) = false) :
    hs i.path = hs₀ i.path := by
  refine h.kept i.path (fun hr => ?_) ?_
  · rcases mem_rebuilt.mp hr with hnil | ⟨j, hj, hd, hneeds, hp⟩
    · exact L.path_ne_nil hi hnil
    · obtain rfl := L.eq_of_path_eq hj hi hp
      rw [hn hd] at hneeds
      cases hneeds
  · rintro ⟨j, hj, hjf, hp⟩
    rw [L.eq_of_path_eq hj hi hp, hf] at hjf
    cases hjf

/-- A directory that needs a tree object has its digest afterwards. -/
theorem made_of_added {calls : AddCalls} (h : Added H L calls st₀ hs₀ st hs) {i : Inode}
    (hi : i ∈ L.inodes) (hd : i.isDirectory = true) (hn : needsTree st₀ (hs₀ i.path) = true) :
    TreeSum H calls.leaves (L.tree hs i.path) (hs i.path) ∧ st.hasTree (hs i.path) = true :=
  h.made _ (mem_rebuilt.mpr (Or.inr ⟨i, hi, hd, hn, rfl⟩))

/-- **What an add has done** that has made the tree objects of `order`, whatever made it choose
them. -/
structure Finished (L : Index) (H : HashFunction) (calls : AddCalls) (hs₀ : Hashes)
    (order : List Bytes) (st : Store) (hs : Hashes) : Prop where
  file : ∀ i ∈ L.inodes, i.isFile = true →
    Settled H (calls.reads i.path) (hs₀ i.path) (hs i.path) ∧ st.hasObject (hs i.path) = true
  made : ∀ p ∈ order, hs p = H.sum (L.tree hs p) ∧ st.hasTree (hs p) = true
  kept : ∀ p, p ∉ order → ¬ L.IsFilePath p → hs p = hs₀ p
  root : [] ∈ order

theorem finished_of_added {calls : AddCalls} (h : Added H L calls st₀ hs₀ st hs)
    (hl : Lossless calls.leaves) : L.Finished H calls hs₀ (L.rebuilt st₀ hs₀) st hs :=
  ⟨h.file, fun p hp => ⟨(h.made p hp).1.eq hl, (h.made p hp).2⟩, h.kept,
    mem_rebuilt.mpr (Or.inl rfl)⟩

namespace Finished

variable {order : List Bytes} {calls : AddCalls}

theorem kept_of_isFile (h : L.Finished H calls hs₀ order st hs) {i : Inode} (hi : i ∈ L.inodes)
    (hf : i.isFile = false) (hn : i.path ∉ order) : hs i.path = hs₀ i.path := by
  refine h.kept i.path hn ?_
  rintro ⟨j, hj, hjf, hp⟩
  rw [L.eq_of_path_eq hj hi hp, hf] at hjf
  cases hjf

/-- The digest of what is neither a file nor a directory stays. -/
theorem kept_other (h : L.Finished H calls hs₀ order st hs) (hdirs : ∀ p ∈ order, p ≠ [] →
    ∃ i ∈ L.inodes, i.isDirectory = true ∧ i.path = p) {i : Inode} (hi : i ∈ L.inodes)
    (hf : i.isFile = false) (hd : i.isDirectory = false) : hs i.path = hs₀ i.path := by
  refine h.kept_of_isFile hi hf fun hmem => ?_
  obtain ⟨j, hj, hjd, hp⟩ := hdirs _ hmem (L.path_ne_nil hi)
  rw [L.eq_of_path_eq hj hi hp, hd] at hjd
  cases hjd

/-- **Truthful digests stay**: none of a file that had one is changed, and none of a directory in
the set. -/
theorem stays (h : L.Finished H (readsAs content leaves) hs₀ order st hs)
    (hdirs : ∀ p ∈ order, p ≠ [] → ∃ i ∈ L.inodes, i.isDirectory = true ∧ i.path = p)
    (ht : L.Truthful H content st₀ hs₀ D) :
    ∀ i ∈ L.inodes, (i.isFile = true → (hs₀ i.path).empty = false → hs i.path = hs₀ i.path) ∧
      (i.isDirectory = true → D i.path → hs i.path = hs₀ i.path) := by
  refine L.induction_children fun i hi ih => ⟨fun hf he => ?_, fun hd hD => ?_⟩
  · rcases (h.file i hi hf).1 with ⟨-, heq⟩ | ⟨he', -⟩
    · exact heq
    · rw [he] at he'
      cases he'
  · by_cases hmem : i.path ∈ order
    · rw [(h.made _ hmem).1, ht.dir i hi hd hD]
      refine congrArg H.sum (L.tree_congr fun c hc hp => ?_)
      obtain ⟨hfile, hdir⟩ := ht.below i hi hd hD c hc hp
      by_cases hcf : c.isFile = true
      · exact (ih c hc hp).1 hcf (hfile hcf)
      · by_cases hcd : c.isDirectory = true
        · exact (ih c hc hp).2 hcd (hdir hcd)
        · exact h.kept_other hdirs hc (by simpa using hcf) (by simpa using hcd)
    · exact h.kept_of_isFile hi (isFile_of_isDirectory hd) hmem

/-- **From truthful digests the index gets Merkle-consistent**, if the directories that are not
made anew are in the set. -/
theorem merkle (h : L.Finished H (readsAs content leaves) hs₀ order st hs)
    (hdirs : ∀ p ∈ order, p ≠ [] → ∃ i ∈ L.inodes, i.isDirectory = true ∧ i.path = p)
    (ht : L.Truthful H content st₀ hs₀ D)
    (hspared : ∀ i ∈ L.inodes, i.isDirectory = true → i.path ∉ order → D i.path) :
    L.Merkle H content hs where
  file i hi hf := by
    rcases (h.file i hi hf).1 with ⟨he, heq⟩ | ⟨-, b, rfl, heq⟩
    · rw [heq, ht.file i hi hf he]
    · exact heq
  dir i hi hd := by
    by_cases hmem : i.path ∈ order
    · exact (h.made _ hmem).1
    · have hD := hspared i hi hd hmem
      rw [(h.stays hdirs ht i hi).2 hd hD, ht.dir i hi hd hD]
      refine congrArg H.sum (L.tree_congr fun c hc hp => ?_)
      obtain ⟨hfile, hdir⟩ := ht.below i hi hd hD c hc hp
      by_cases hcf : c.isFile = true
      · exact ((h.stays hdirs ht c hc).1 hcf (hfile hcf)).symm
      · by_cases hcd : c.isDirectory = true
        · exact ((h.stays hdirs ht c hc).2 hcd (hdir hcd)).symm
        · exact (h.kept_other hdirs hc (by simpa using hcf) (by simpa using hcd)).symm
  other i hi hf hd := by
    rw [h.kept_other hdirs hi hf hd, ht.other i hi hf hd]
  root := (h.made [] h.root).1

end Finished

/-- **What an add has done when it returns**, whatever made it choose the directories. -/
theorem finished_of_core {C : Store → List Inode → List Bytes → Prop}
    {calls : AddCalls} {σ : AddState} (hC : Collecting hs₀ C)
    (hi : AddCore C H L calls hs₀ σ) (hret : σ.main = .returned) (hl : Lossless calls.leaves) :
    ∃ dirs, Collected C L σ.store dirs ∧
      L.Finished H calls hs₀ (dirs.reverse ++ [[]]) σ.store σ.hash ∧
      ∀ p ∈ dirs.reverse ++ [[]], p ≠ [] → ∃ i ∈ L.inodes, i.isDirectory = true ∧ i.path = p := by
  have hm := hi.main
  rw [hret] at hm
  obtain ⟨hdone, dirs, hdirs, hmade⟩ := hm
  refine ⟨dirs, hdirs, ⟨fun i hil hf => ?_,
    fun p hp => ⟨(hmade.objects p hp).1.eq hl, (hmade.objects p hp).2⟩, hmade.kept, by simp⟩,
    fun p hp hne => ?_⟩
  · have hj := hi.jobs i hil hf
    rw [hdone i hil hf] at hj
    exact hj
  · obtain ⟨st', -, hcollected⟩ := hdirs
    have hpd : p ∈ dirs := by simpa [hne] using hp
    obtain ⟨i, hi, rfl⟩ := List.mem_map.mp ((hC.sublist hcollected).subset hpd)
    exact ⟨i, (List.mem_filter.mp hi).1, (List.mem_filter.mp hi).2, rfl⟩

/-- **An add from truthful digests leaves a Merkle-consistent index.** -/
theorem Truthful.merkle (ht : L.Truthful H content st₀ hs₀ D)
    (h : Added H L (readsAs content leaves) st₀ hs₀ st hs) (hl : Lossless leaves) :
    L.Merkle H content hs := by
  refine (finished_of_added h hl).merkle (fun p hp hne => ?_) ht fun i hi hd hn => ?_
  · obtain ⟨i, hi, hd, -, hip⟩ := (mem_rebuilt.mp hp).resolve_left hne
    exact ⟨i, hi, hd, hip⟩
  · refine ht.spared i hi hd ?_
    by_contra hneeds
    exact hn (mem_rebuilt.mpr (Or.inr ⟨i, hi, hd, by simpa using hneeds, rfl⟩))

/-- **Without digests** an add is truthful. -/
theorem truthful_clean : L.Truthful H content st₀ Hashes.clean fun _ => False where
  file _ _ _ he := by cases he
  other _ _ _ _ := rfl
  spared _ _ _ hn := by cases hn
  dir _ _ _ h := h.elim
  below _ _ _ h := h.elim

/-- Every directory has a tree object after an add. -/
theorem hasTree_of_added {calls : AddCalls} (h : Added H L calls st₀ hs₀ st hs)
    (hkept : ∀ i ∈ L.inodes, i.isDirectory = true → needsTree st₀ (hs₀ i.path) = false →
      hs i.path = hs₀ i.path) :
    ∀ i ∈ L.inodes, i.isDirectory = true → st.hasTree (hs i.path) = true := by
  intro i hi hd
  cases hn : needsTree st₀ (hs₀ i.path) with
  | true => exact (made_of_added h hi hd hn).2
  | false =>
    have hneeds : (hs₀ i.path).empty = false ∧ st₀.hasTree (hs₀ i.path) = true := by
      simpa [needsTree] using hn
    rw [hkept i hi hd hn]
    exact h.present _ hneeds.2

/-- **The byte strings at hand** after an add: the contents of the files and the
tree objects of the index, and the objects the store has under their digests. -/
def atHand (L : Index) (content : Bytes → Bytes) (st : Store) (hs : Hashes) : List Bytes :=
  L.tree hs [] :: (st (treePath (hs []))).toList ++ L.inodes.flatMap fun i =>
    if i.isFile then content i.path :: (st (filePath (hs i.path))).toList
    else if i.isDirectory then L.tree hs i.path :: (st (treePath (hs i.path))).toList
    else []

theorem mem_atHand_root : L.tree hs [] ∈ L.atHand content st hs := by
  simp [atHand]

theorem mem_atHand_root_object {b : Bytes} (h : st (treePath (hs [])) = some b) :
    b ∈ L.atHand content st hs := by
  simp [atHand, h]

theorem mem_atHand_of_file {i : Inode} (hi : i ∈ L.inodes) (hf : i.isFile = true) {b : Bytes}
    (h : b = content i.path ∨ st (filePath (hs i.path)) = some b) :
    b ∈ L.atHand content st hs := by
  refine List.mem_append_right _ (List.mem_flatMap.mpr ⟨i, hi, ?_⟩)
  rw [if_pos hf]
  rcases h with rfl | h
  · simp
  · simp [h]

theorem mem_atHand_of_dir {i : Inode} (hi : i ∈ L.inodes) (hd : i.isDirectory = true) {b : Bytes}
    (h : b = L.tree hs i.path ∨ st (treePath (hs i.path)) = some b) :
    b ∈ L.atHand content st hs := by
  have hf : i.isFile = false := isFile_of_isDirectory hd
  refine List.mem_append_right _ (List.mem_flatMap.mpr ⟨i, hi, ?_⟩)
  rw [if_neg (by simp [hf]), if_pos hd]
  rcases h with rfl | h
  · simp
  · simp [h]

/-- **The tree objects are what they should be**, if the store has something at their paths. -/
theorem stored_of_trees (hm : L.Merkle H content hs) (hst : TreesAddressed H st) {S : Set Bytes}
    (hS : H.CollisionFree S) (htree : ∀ p, p = [] ∨ (∃ i ∈ L.inodes, i.isDirectory = true ∧
      i.path = p) → L.tree hs p ∈ S ∧ ∀ b, st (treePath (hs p)) = some b → b ∈ S)
    (hroot : st.hasTree (hs []) = true)
    (hdirs : ∀ i ∈ L.inodes, i.isDirectory = true → st.hasTree (hs i.path) = true) :
    L.Stored hs st := by
  have hobj : ∀ p, (p = [] ∨ ∃ i ∈ L.inodes, i.isDirectory = true ∧ i.path = p) →
      hs p = H.sum (L.tree hs p) → st.hasTree (hs p) = true →
      st (treePath (hs p)) = some (L.tree hs p) := by
    intro p hmem hp hhas
    obtain ⟨b, hb⟩ := Option.isSome_iff_exists.mp hhas
    have halg : (hs p).alg = H.alg := by rw [hp, H.sum_alg]
    have hsum : H.sum b = H.sum (L.tree hs p) := (hst _ b halg hb).trans hp
    rw [hb, hS ((htree p hmem).2 b hb) (htree p hmem).1 hsum]
  refine ⟨hobj [] (Or.inl rfl) hm.root hroot, fun i hi hd => ?_⟩
  exact hobj i.path (Or.inr ⟨i, hi, hd, rfl⟩) (hm.dir i hi hd) (hdirs i hi hd)

theorem stored_of_present (hm : L.Merkle H content hs) (hst : ContentAddressed H st) {S : Set Bytes}
    (hS : H.CollisionFree S) (hhand : ∀ b ∈ L.atHand content st hs, b ∈ S)
    (hroot : st.hasTree (hs []) = true)
    (hdirs : ∀ i ∈ L.inodes, i.isDirectory = true → st.hasTree (hs i.path) = true) :
    L.Stored hs st := by
  refine stored_of_trees hm hst.trees hS ?_ hroot hdirs
  rintro p (rfl | ⟨i, hi, hd, rfl⟩)
  · exact ⟨hhand _ mem_atHand_root, fun b hb => hhand b (mem_atHand_root_object hb)⟩
  · exact ⟨hhand _ (mem_atHand_of_dir hi hd (Or.inl rfl)),
      fun b hb => hhand b (mem_atHand_of_dir hi hd (Or.inr hb))⟩

/-- **The object of a file is what it should be**, if there is one. -/
theorem object_of_present (hm : L.Merkle H content hs) (hst : ContentAddressed H st) {S : Set Bytes}
    (hS : H.CollisionFree S) (hhand : ∀ b ∈ L.atHand content st hs, b ∈ S) {i : Inode}
    (hi : i ∈ L.inodes) (hf : i.isFile = true) (hobj : st.hasObject (hs i.path) = true) :
    st (filePath (hs i.path)) = some (content i.path) := by
  obtain ⟨b, hb⟩ := Option.isSome_iff_exists.mp hobj
  have hp := hm.file i hi hf
  have halg : (hs i.path).alg = H.alg := by rw [hp, H.sum_alg]
  have hsum : H.sum b = H.sum (content i.path) := (hst.files _ b halg hb).trans hp
  rw [hb, hS (hhand b (mem_atHand_of_file hi hf (Or.inr hb)))
    (hhand _ (mem_atHand_of_file hi hf (Or.inl rfl))) hsum]

/-- **The tree objects are in the store** after an add that leaves a
Merkle-consistent index. -/
theorem stored_of_added {calls : AddCalls} (h : Added H L calls st₀ hs₀ st hs)
    (hm : L.Merkle H content hs)
    (hkept : ∀ i ∈ L.inodes, i.isDirectory = true → needsTree st₀ (hs₀ i.path) = false →
      hs i.path = hs₀ i.path)
    (hst : ContentAddressed H st) {S : Set Bytes} (hS : H.CollisionFree S)
    (hhand : ∀ b ∈ L.atHand content st hs, b ∈ S) : L.Stored hs st :=
  stored_of_present hm hst hS hhand (h.made [] (mem_rebuilt.mpr (Or.inl rfl))).2
    (hasTree_of_added h hkept)

/-- **The object of a file is in the store** after an add. -/
theorem object_of_added {calls : AddCalls} (h : Added H L calls st₀ hs₀ st hs)
    (hm : L.Merkle H content hs) (hst : ContentAddressed H st) {S : Set Bytes}
    (hS : H.CollisionFree S) (hhand : ∀ b ∈ L.atHand content st hs, b ∈ S) {i : Inode}
    (hi : i ∈ L.inodes) (hf : i.isFile = true) :
    st (filePath (hs i.path)) = some (content i.path) :=
  object_of_present hm hst hS hhand hi hf (h.file i hi hf).2

end Index

end Fstree
