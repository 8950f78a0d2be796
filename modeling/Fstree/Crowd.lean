import Fstree.Session

/-!
# Many write-trees at once

Any number of processes add to one cache at the same time (`Fstree.CrowdStep`), and nothing keeps
them apart: the lock of the cache belongs to a process, and the first of its jobs that is done with
it releases it for all, so that others come in while the rest are still copying. Each looks for an
object before it makes it, and so may leave it to another that is still at it.

What holds of an add stays, since the others remove nothing (`Fstree.AddCore.others`); it only
collects fewer directories, those that lack a tree object when it comes to them
(`Fstree.CollectedAmong`). And all who copy to one object copy the same, so the object is complete
as soon as the last of them is done (`Fstree.Copying`), whoever has truncated it in between. Only
an object to which a copy was broken off by an error is lost (`Fstree.CrowdState.Broken`).

So a run that has returned has the digest that it would have had alone, and its tree objects are
there; and so is the object of a file, unless someone is just copying to it. When all have returned,
the cache is content-addressed (`Fstree.crowd_complete`).
-/

namespace Fstree

open SortedBy Transition

/-! ### The processes -/

section Crowd

variable {α : Type*}

/-- **The state of a crowd**: the store, and what each of the processes has besides. -/
structure CrowdState (α : Type*) where
  store : Store
  run : α → AddState

/-- The state of an add, as it sees it. -/
def CrowdState.view (σ : CrowdState α) (a : α) : AddState := { σ.run a with store := σ.store }

variable [DecidableEq α]

/-- The state after a step of the add `a`, which is in `τ` then. -/
def CrowdState.after (σ : CrowdState α) (a : α) (τ : AddState) : CrowdState α where
  store := τ.store
  run := Function.update σ.run a τ

/-- **One step of a crowd**: of one of its adds. -/
inductive CrowdStep (H : HashFunction) (L : α → Index) (calls : α → AddCalls) :
    CrowdState α → CrowdState α → Prop
  | add {σ : CrowdState α} {a : α} {τ : AddState} (h : AddStep H (L a) (calls a) (σ.view a) τ) :
      CrowdStep H L calls σ (σ.after a τ)

/-- All begin, each with its index and digests. -/
def CrowdState.start (L : α → Index) (st : Store) (hs : α → Hashes) : CrowdState α where
  store := st
  run a := AddState.start (L a) st (hs a)

/-- Someone is copying `src` to the object path `k`, and has written `off` bytes. -/
def CrowdState.Writer (σ : CrowdState α) (k src : Bytes) (off : ℕ) : Prop :=
  ∃ a, (σ.run a).Writer k src off

/-- Someone is, who is not the job for `p` of `a`. -/
def CrowdState.Other (σ : CrowdState α) (a : α) (p k src : Bytes) (off : ℕ) : Prop :=
  (σ.run a).Other p k src off ∨ ∃ a', a' ≠ a ∧ (σ.run a').Writer k src off

/-- What an add collects among others: directories that had no tree object when it came to them. -/
def CollectedAmong (hs₀ : Hashes) (st : Store) (seen : List Inode) (dirs : List Bytes) : Prop :=
  dirs.Sublist ((seen.filter Inode.isDirectory).map Inode.path) ∧
    ∀ i ∈ seen, i.isDirectory = true → i.path ∉ dirs → needsTree st (hs₀ i.path) = false

theorem needsTree_of_grows {st st' : Store} {h : Digest} (hn : needsTree st h = false)
    (hst : st.Grows st') : needsTree st' h = false := by
  have hold : h.empty = false ∧ st.hasTree h = true := by simpa [needsTree] using hn
  have hnew : st'.hasTree h = true := hst _ hold.2
  simp [needsTree, hold.1, hnew]

theorem collectedAmong_mono {hs₀ : Hashes} {st st' : Store} {seen : List Inode} {dirs : List Bytes}
    (h : CollectedAmong hs₀ st seen dirs) (hst : st.Grows st') : CollectedAmong hs₀ st' seen dirs :=
  ⟨h.1, fun i hi hd hn => needsTree_of_grows (h.2 i hi hd hn) hst⟩

theorem collecting_among (hs₀ : Hashes) : Collecting hs₀ (CollectedAmong hs₀) where
  sublist h := h.1
  pass := by
    rintro st seen dirs i ⟨hsub, hspared⟩ hd
    refine ⟨by simpa [List.filter_append, hd] using hsub, fun k hk hkd hn => ?_⟩
    rcases List.mem_append.mp hk with hk | hk
    · exact hspared k hk hkd hn
    · rw [List.mem_singleton.mp hk, hd] at hkd
      cases hkd
  look := by
    rintro st seen dirs i ⟨hsub, hspared⟩ hd
    have hfilter : ((seen ++ [i]).filter Inode.isDirectory).map Inode.path =
        (seen.filter Inode.isDirectory).map Inode.path ++ [i.path] := by
      simp [List.filter_append, hd]
    rw [CollectedAmong, hfilter]
    split_ifs with hneeds
    · refine ⟨hsub.append (List.Sublist.refl _), fun k hk hkd hn => ?_⟩
      rw [List.mem_append, not_or] at hn
      rcases List.mem_append.mp hk with hk | hk
      · exact hspared k hk hkd hn.1
      · exact absurd (by rw [List.mem_singleton.mp hk]; simp) hn.2
    · refine ⟨hsub.trans (List.sublist_append_left _ _), fun k hk hkd hn => ?_⟩
      rcases List.mem_append.mp hk with hk | hk
      · exact hspared k hk hkd hn
      · rw [List.mem_singleton.mp hk]
        simpa using hneeds
  trees := by
    rintro st st' seen dirs ⟨hsub, hspared⟩ hsame
    refine ⟨hsub, fun i hi hd hn => ?_⟩
    have hold := hspared i hi hd hn
    rwa [needsTree, Store.hasTree, hsame, ← Store.hasTree, ← needsTree]

variable {H : HashFunction} {S : Set Bytes} {L : α → Index} {content : α → Bytes → Bytes}
  {leaves : α → Bytes → Bytes → Prop} {hs₀ : α → Hashes} {st₀ : Store} {σ τ : CrowdState α} {a : α}

/-! ### Who is copying -/

/-- Who is copying: the job for `p` of `a`, or another. -/
theorem crowd_writer_iff (a : α) (p : Bytes) {k src : Bytes} {off : ℕ} :
    σ.Writer k src off ↔
      ((σ.run a).job p).beside ((σ.run a).hash p) (σ.Other a p) k src off := by
  constructor
  · rintro ⟨a', hw⟩
    by_cases ha : a' = a
    · subst ha
      rcases (writer_iff p).mp hw with hp | ho
      · exact Or.inl hp
      · exact Or.inr (Or.inl ho)
    · exact Or.inr (Or.inr ⟨a', ha, hw⟩)
  · rintro (hp | ho | ⟨a', -, hw⟩)
    · exact ⟨a, (writer_iff p).mpr (Or.inl hp)⟩
    · exact ⟨a, ho.writer⟩
    · exact ⟨a', hw⟩

@[simp] theorem CrowdState.run_after_self (σ : CrowdState α) (a : α) (τ : AddState) :
    (σ.after a τ).run a = τ := Function.update_self _ _ _

theorem CrowdState.run_after_ne (σ : CrowdState α) {a a' : α} (ha : a' ≠ a) (τ : AddState) :
    (σ.after a τ).run a' = σ.run a' := Function.update_of_ne ha _ _

@[simp] theorem CrowdState.view_after_self (σ : CrowdState α) (a : α) (τ : AddState) :
    (σ.after a τ).view a = τ := by
  rw [CrowdState.view, CrowdState.run_after_self]
  rfl

theorem CrowdState.view_after_ne (σ : CrowdState α) {a a' : α} (ha : a' ≠ a) (τ : AddState) :
    (σ.after a τ).view a' = { σ.view a' with store := τ.store } := by
  rw [CrowdState.view, CrowdState.run_after_ne _ ha]
  rfl

/-- Who is copying after a step of `a`: `a`, or one of the others as before. -/
theorem crowd_writer_after {ρ : AddState} {k src : Bytes} {off : ℕ} :
    (σ.after a ρ).Writer k src off ↔
      ρ.Writer k src off ∨ ∃ a', a' ≠ a ∧ (σ.run a').Writer k src off := by
  constructor
  · rintro ⟨a', hw⟩
    by_cases ha : a' = a
    · subst ha
      rw [σ.run_after_self] at hw
      exact Or.inl hw
    · rw [σ.run_after_ne ha] at hw
      exact Or.inr ⟨a', ha, hw⟩
  · rintro (hw | ⟨a', ha, hw⟩)
    · exact ⟨a, by rwa [σ.run_after_self]⟩
    · exact ⟨a', by rwa [σ.run_after_ne ha]⟩

/-- Who is copying after a step of a job. -/
theorem crowd_writer_stepJob {p : Bytes} {st : Store} {h : Digest} {j : Job} {k src : Bytes}
    {off : ℕ} : (σ.after a ((σ.view a).stepJob p st h j)).Writer k src off ↔
      j.beside h (σ.Other a p) k src off := by
  rw [crowd_writer_after, writer_stepJob, or_assoc]
  rfl

/-- A step that leaves the copies of the add as they are leaves all. -/
theorem crowd_writer_congr {ρ : AddState} (hw : ∀ k src off, ρ.Writer k src off ↔
      (σ.run a).Writer k src off) (k src : Bytes) (off : ℕ) :
    (σ.after a ρ).Writer k src off ↔ σ.Writer k src off := by
  rw [crowd_writer_after, hw]
  constructor
  · rintro (hw | ⟨a', -, hw⟩)
    · exact ⟨a, hw⟩
    · exact ⟨a', hw⟩
  · rintro ⟨a', hw⟩
    by_cases ha : a' = a
    · exact Or.inl (ha ▸ hw)
    · exact Or.inr ⟨a', ha, hw⟩

/-! ### The invariant -/

/-- A copy to the object path `k` was broken off. -/
def CrowdState.Broken (σ : CrowdState α) (k : Bytes) : Prop :=
  ∃ a p, (σ.run a).job p = .torn ∧ (σ.run a).object p = k

omit [DecidableEq α] in
/-- Nobody copies two contents to one object. -/
theorem uniform_of_digested (h : ∀ a, CopiesDigested H S (σ.run a)) (hS : H.CollisionFree S) :
    Uniform σ.Writer := by
  rintro k src off src' off' ⟨a, p, hp, hk⟩ ⟨a', q, hq, hk'⟩
  obtain ⟨hSp, hsp⟩ := h a p src off hp
  obtain ⟨hSq, hsq⟩ := h a' q src' off' hq
  have hpath : filePath (H.sum src) = filePath (H.sum src') := by
    rw [hsp, hsq]
    exact hk.trans hk'.symm
  exact hS hSp hSq ((filePath_eq_iff H (H.sum_alg _)).mp hpath)

/-- **What holds throughout** the adds of a crowd. -/
structure CrowdInv (H : HashFunction) (L : α → Index) (content : α → Bytes → Bytes)
    (leaves : α → Bytes → Bytes → Prop) (hs₀ : α → Hashes) (σ : CrowdState α) : Prop where
  core : ∀ a, AddCore (CollectedAmong (hs₀ a)) H (L a) (readsAs (content a) (leaves a)) (hs₀ a)
    (σ.view a)
  copies : ∀ a, CopiesContent (content a) (σ.run a)
  objects : CopyingBut σ.Broken (HasDigest H) σ.store σ.Writer
  trees : TreesAddressed H σ.store

/-- **What the adds of a crowd begin with**: digests of files that are right, and contents of which
no two collide. -/
structure CrowdGround (H : HashFunction) (S : Set Bytes) (L : α → Index)
    (content : α → Bytes → Bytes) (hs₀ : α → Hashes) : Prop where
  file : ∀ a, ∀ i ∈ (L a).inodes, i.isFile = true → (hs₀ a i.path).empty = false →
    hs₀ a i.path = H.sum (content a i.path)
  content : ∀ a, ∀ i ∈ (L a).inodes, i.isFile = true → content a i.path ∈ S
  collisionFree : H.CollisionFree S

omit [DecidableEq α] in
theorem crowdInv_start (hst : ContentAddressed H st₀) :
    CrowdInv H L content leaves hs₀ (CrowdState.start L st₀ hs₀) where
  core a := addCore_start ⟨List.Sublist.refl _, by simp⟩
  copies _ _ _ _ hp := by cases hp
  objects := ⟨fun k b hb _ => Or.inr fun h ha hk => hst.files h b ha (hk ▸ hb), by
    rintro k src off ⟨-, a, p, hp, -⟩
    cases hp⟩
  trees := hst.trees

omit [DecidableEq α] in
/-- The copies in flight have the digests of their inodes. -/
theorem CrowdGround.digested (hg : CrowdGround H S L content hs₀)
    (hcore : ∀ a, AddCore (CollectedAmong (hs₀ a)) H (L a) (readsAs (content a) (leaves a)) (hs₀ a)
      (σ.view a))
    (hcopies : ∀ a, CopiesContent (content a) (σ.run a)) (a : α) :
    CopiesDigested H S (σ.run a) :=
  copiesDigested_of_core (σ := σ.view a) (hg.file a) (hg.content a) (hcore a) (hcopies a)

namespace CrowdInv

variable {ρ : AddState} (hi : CrowdInv H L content leaves hs₀ σ)
  (hs : AddStep H (L a) (readsAs (content a) (leaves a)) (σ.view a) ρ)
include hi hs

theorem core_after (a' : α) : AddCore (CollectedAmong (hs₀ a')) H (L a')
    (readsAs (content a') (leaves a')) (hs₀ a') ((σ.after a ρ).view a') := by
  by_cases ha : a' = a
  · subst ha
    rw [σ.view_after_self]
    exact (hi.core _).step (collecting_among _) hs
  · rw [σ.view_after_ne ha]
    exact (hi.core a').others hs.grows fun hC => collectedAmong_mono hC hs.grows

theorem copies_after (a' : α) : CopiesContent (content a') ((σ.after a ρ).run a') := by
  by_cases ha : a' = a
  · subst ha
    rw [σ.run_after_self]
    exact CopiesContent.step (σ := σ.view _) (hi.copies _) hs
  · rw [σ.run_after_ne ha]
    exact hi.copies a'

/-- What was broken off stays so. -/
theorem broken_after {k : Bytes} (hk : σ.Broken k) : (σ.after a ρ).Broken k := by
  obtain ⟨a', p, hp, hk⟩ := hk
  by_cases ha : a' = a
  · subst ha
    obtain ⟨htorn, hobj⟩ := (hi.core a').torn_step hs (p := p) hp
    exact ⟨a', p, by rw [σ.run_after_self]; exact ⟨htorn, hobj.trans hk⟩⟩
  · exact ⟨a', p, by rw [σ.run_after_ne ha]; exact ⟨hp, hk⟩⟩

/-- **A step of a crowd keeps the state of the objects.** -/
theorem objects_after (hg : CrowdGround H S L content hs₀) :
    CopyingBut (σ.after a ρ).Broken (HasDigest H) ρ.store (σ.after a ρ).Writer := by
  have hbroken : ∀ k, σ.Broken k → (σ.after a ρ).Broken k := fun k hk => hi.broken_after hs hk
  have hdigested := hg.digested (hi.core_after hs) (hi.copies_after hs)
  rcases (hi.core a).copies_cases hs with ⟨p, st, h, j, hjob, rfl⟩ | ⟨hst, -, -, hw⟩
  · have hbefore : σ.Writer = ((σ.run a).job p).beside ((σ.run a).hash p) (σ.Other a p) := by
      funext k src off
      exact propext (crowd_writer_iff a p)
    have hafter : (σ.after a ((σ.view a).stepJob p st h j)).Writer =
        j.beside h (σ.Other a p) := by
      funext k src off
      exact propext crowd_writer_stepJob
    have hsame := uniform_of_digested hdigested hg.collisionFree
    rw [hafter] at hsame ⊢
    have hobjects := hi.objects
    rw [hbefore] at hobjects
    refine hobjects.jobStep hjob (fun src off hp => hasDigest_of_sum ?_) hsame hbroken fun hj => ?_
    · exact (hg.digested hi.core hi.copies a p src off hp).2
    · subst hj
      have hh : h = (σ.run a).hash p := hjob.digest_of_torn
      exact ⟨a, p, by simp [AddState.stepJob, AddState.object, hh]⟩
  · have hsame : ∀ {k src off}, σ.Writer k src off → ρ.store k = σ.store k := by
      rintro k src off ⟨a', p, -, rfl⟩
      exact hst _
    refine hi.objects.congr hbroken (fun k b _ hb => ?_) (fun k src off _ => hsame)
      fun k src off _ =>
      crowd_writer_congr hw k src off
    by_cases hk : ∃ d, filePath d = k
    · obtain ⟨d, rfl⟩ := hk
      exact Or.inl ((hst d).symm.trans hb)
    · exact Or.inr fun d _ hd => absurd ⟨d, hd⟩ hk

end CrowdInv

/-- **A step of a crowd keeps what holds of it.** -/
theorem CrowdInv.step (hg : CrowdGround H S L content hs₀) (hi : CrowdInv H L content leaves hs₀ σ)
    (hs : CrowdStep H L (fun a => readsAs (content a) (leaves a)) σ τ) :
    CrowdInv H L content leaves hs₀ τ := by
  obtain ⟨hs⟩ := hs
  exact ⟨hi.core_after hs, hi.copies_after hs, hi.objects_after hs hg,
    TreesAddressed.step (hi.core _) hi.trees hs⟩

/-- **What holds in every run of a crowd.** -/
theorem crowdInv_of_run (hg : CrowdGround H S L content hs₀) (hst : ContentAddressed H st₀)
    (hrun : Reaches (CrowdStep H L fun a => readsAs (content a) (leaves a))
      (CrowdState.start L st₀ hs₀) σ) :
    CrowdInv H L content leaves hs₀ σ :=
  hrun.invariant (crowdInv_start hst) fun _ _ hi hs => hi.step hg hs

/-- The others may come between the steps of an add. -/
theorem exists_reaches_after {calls : α → AddCalls} {ρ : AddState}
    (hrun : Reaches (AddStep H (L a) (calls a)) (σ.view a) ρ) :
    ∃ τ : CrowdState α, Reaches (CrowdStep H L calls) σ τ ∧ τ.view a = ρ ∧
      ∀ a', a' ≠ a → τ.run a' = σ.run a' := by
  induction hrun with
  | refl => exact ⟨σ, Relation.ReflTransGen.refl, rfl, fun _ _ => rfl⟩
  | @tail ρ₁ ρ₂ _ hs ih =>
    obtain ⟨τ, hreach, rfl, hne⟩ := ih
    exact ⟨τ.after a ρ₂, hreach.tail (.add hs), τ.view_after_self a ρ₂, fun a' ha =>
      (τ.run_after_ne ha ρ₂).trans (hne a' ha)⟩

end Crowd

/-! ### The write-trees -/

/-- **A workspace of a session, scanned**, with the saved index. -/
structure Workspace (H : HashFunction) (S : Set Bytes) where
  root : List Name
  ignores : Bytes → Bool
  /-- The disk as the last command of the session has left it. -/
  last : Disk
  lost : List Name → Bool
  disk : Disk
  file : Option Bytes
  session : Session H S root ignores last lost file
  shows : Shows (loadIndex [] file).1 last disk root
  scan : Scan disk ignores root
  sees : SeesOnRecord (loadIndex [] file).1 lost disk scan.lost root
  /-- What may be left in the temporary file of a tree object when it has been closed. -/
  leaves : Bytes → Bytes → Prop
  contents : ∀ i ∈ scan.inodes, i.isFile = true → disk.contentAt root i.path ∈ S

namespace Workspace

variable {H : HashFunction} {S : Set Bytes} (W : Workspace H S)

/-- What its files are read as. -/
def content (p : Bytes) : Bytes := W.disk.contentAt W.root p

/-- The digests that its add begins with. -/
def hashes : Hashes := refresh H W.scan (loadIndex [] W.file).1

theorem truthful (hS : H.CollisionFree S) (st : Store) :
    W.scan.index.Truthful H W.content st W.hashes fun p => (W.hashes p).empty = false :=
  (W.session.onRecord hS).truthful W.shows W.scan W.sees st

end Workspace

section Workspaces

variable {α : Type*} [DecidableEq α] {H : HashFunction} {S : Set Bytes} {W : α → Workspace H S}
  {st₀ : Store} {σ : CrowdState α} {a : α}

/-- **A run of a crowd of write-trees** on a cache. -/
def CrowdRun (W : α → Workspace H S) (st₀ : Store) : CrowdState α → Prop :=
  Reaches (CrowdStep H (fun a => (W a).scan.index) fun a => readsAs (W a).content (W a).leaves)
    (CrowdState.start (fun a => (W a).scan.index) st₀ fun a => (W a).hashes)

omit [DecidableEq α] in
theorem crowdGround (hS : H.CollisionFree S) : CrowdGround H S (fun a => (W a).scan.index)
    (fun a => (W a).content) fun a => (W a).hashes where
  file a := ((W a).truthful hS Store.empty).file
  content a := (W a).contents
  collisionFree := hS

theorem crowdInv_of_crowdRun (hS : H.CollisionFree S) (hst : ContentAddressed H st₀)
    (hrun : CrowdRun W st₀ σ) : CrowdInv H (fun a => (W a).scan.index) (fun a => (W a).content)
      (fun a => (W a).leaves) (fun a => (W a).hashes) σ :=
  crowdInv_of_run (crowdGround hS) hst hrun

/-- **What a write-tree of a crowd leaves**: a Merkle-consistent index whose tree objects are
there. -/
theorem merkle_of_crowdRun (hS : H.CollisionFree S) (hst : ContentAddressed H st₀)
    (hrun : CrowdRun W st₀ σ) (hwhole : Lossless (W a).leaves)
    (hret : (σ.run a).main = .returned) :
    (W a).scan.index.Merkle H (W a).content (σ.run a).hash ∧
      σ.store.hasTree ((σ.run a).hash []) = true ∧
      ∀ i ∈ (W a).scan.inodes, i.isDirectory = true →
        σ.store.hasTree ((σ.run a).hash i.path) = true := by
  have hi := crowdInv_of_crowdRun hS hst hrun
  obtain ⟨dirs, ⟨st', hgrow, -, hspared⟩, hfin, hdirs⟩ :=
    Index.finished_of_core (collecting_among _) (hi.core a) hret hwhole
  have hsp : ∀ i ∈ (W a).scan.index.inodes, i.isDirectory = true →
      i.path ∉ dirs.reverse ++ [[]] → needsTree st' ((W a).hashes i.path) = false :=
    fun i hil hd hn => hspared i hil hd fun hmem => hn (by simp [hmem])
  have hm := hfin.merkle hdirs ((W a).truthful hS Store.empty) fun i hil hd hn =>
    (by simpa [needsTree] using hsp i hil hd hn : _ ∧ _).1
  refine ⟨hm, (hfin.made [] hfin.root).2, fun i hil hd => ?_⟩
  by_cases hmem : i.path ∈ dirs.reverse ++ [[]]
  · exact (hfin.made _ hmem).2
  · have hold : st'.hasTree ((W a).hashes i.path) = true :=
      (by simpa [needsTree] using hsp i hil hd hmem : _ ∧ _).2
    have hkept : (σ.run a).hash i.path = (W a).hashes i.path :=
      hfin.kept_of_isFile hil (Index.isFile_of_isDirectory hd) hmem
    rw [hkept]
    exact hgrow _ hold

/-- **The object of a file is right, or is just being made so, or a copy to it was broken off.** -/
theorem object_of_crowdRun (hS : H.CollisionFree S) (hst : ContentAddressed H st₀)
    (hrun : CrowdRun W st₀ σ) (hwhole : Lossless (W a).leaves)
    (hret : (σ.run a).main = .returned)
    (hhand : ∀ b ∈ (W a).scan.index.atHand (W a).content σ.store (σ.run a).hash, b ∈ S)
    {i : Inode} (hil : i ∈ (W a).scan.inodes) (hf : i.isFile = true) :
    σ.store (filePath ((σ.run a).hash i.path)) = some ((W a).content i.path) ∨
      (∃ off, σ.Writer (filePath ((σ.run a).hash i.path)) ((W a).content i.path) off) ∨
      σ.Broken (filePath ((σ.run a).hash i.path)) := by
  have hi := crowdInv_of_crowdRun hS hst hrun
  obtain ⟨hm, -⟩ := merkle_of_crowdRun hS hst hrun hwhole hret
  obtain ⟨dirs, -, hfin, -⟩ := Index.finished_of_core (collecting_among _) (hi.core a) hret hwhole
  have hsum : (σ.run a).hash i.path = H.sum ((W a).content i.path) := hm.file i hil hf
  have hcontent := (W a).contents i hil hf
  by_cases hb : σ.Broken (filePath ((σ.run a).hash i.path))
  · exact Or.inr (Or.inr hb)
  by_cases hw : ∃ src off, σ.Writer (filePath ((σ.run a).hash i.path)) src off
  · obtain ⟨src, off, a', p, hp, hk⟩ := hw
    obtain ⟨hsrc, hsame⟩ := (crowdGround hS).digested hi.core hi.copies a' p src off hp
    have hpath : filePath (H.sum src) = filePath (H.sum ((W a).content i.path)) := by
      rw [hsame, ← hsum]
      exact hk
    obtain rfl := hS hsrc hcontent ((filePath_eq_iff H (H.sum_alg _)).mp hpath)
    exact Or.inr (Or.inl ⟨off, a', p, hp, hk⟩)
  · obtain ⟨b, hobj⟩ := Option.isSome_iff_exists.mp (hfin.file i hil hf).2
    have hok : HasDigest H (filePath ((σ.run a).hash i.path)) b :=
      (hi.objects.settled _ b hobj fun src off h => hw ⟨src, off, h.2⟩).resolve_left hb
    have hdigest := hok _ (by rw [hsum, H.sum_alg]) rfl
    obtain rfl := hS (hhand b (Index.mem_atHand_of_file hil hf (Or.inr hobj))) hcontent
      (hdigest.trans hsum)
    exact Or.inl hobj

/-- Who has returned is not copying, and has broken off no copy. -/
theorem done_of_crowdRun (hS : H.CollisionFree S) (hst : ContentAddressed H st₀)
    (hrun : CrowdRun W st₀ σ) (hret : (σ.run a).main = .returned) (p : Bytes) :
    (σ.run a).job p ≠ .torn ∧ ((σ.run a).job p).isCopying = false := by
  have hi := (crowdInv_of_crowdRun hS hst hrun).core a
  have hm := hi.main
  rw [show (σ.view a).main = .returned from hret] at hm
  refine ⟨fun hp => ?_, hi.not_copying hm.1 p⟩
  obtain ⟨i, hil, hf, rfl⟩ := hi.jobs_file p fun h => by
    rw [show (σ.view a).job p = .torn from hp] at h
    cases h
  have hdone := hm.1 i hil hf
  rw [show (σ.view a).job i.path = .torn from hp] at hdone
  cases hdone

/-- One of them may run alone for a while. -/
theorem exists_crowdRun_thread (hS : H.CollisionFree S) (hst : ContentAddressed H st₀)
    (hrun : CrowdRun W st₀ σ) (a : α) {left : Bytes → Bytes} (hleft : (W a).leaves = leaving left)
    (n : ℕ) : ∃ τ, CrowdRun W st₀ τ ∧
      τ.view a = runThread H (W a).scan.index (W a).content left n (σ.view a) ∧
      ∀ a', a' ≠ a → τ.run a' = σ.run a' := by
  have hcore := (crowdInv_of_crowdRun hS hst hrun).core a
  rw [hleft] at hcore
  obtain ⟨τ, hreach, hview, hne⟩ :=
    @exists_reaches_after _ _ _ (fun a => (W a).scan.index) _ _
      (fun a => readsAs (W a).content (W a).leaves) _
      (hleft ▸ reaches_runThread_of (collecting_among _) n hcore)
  exact ⟨τ, hrun.trans hreach, hview, hne⟩

end Workspaces

/-! ### Two at once on the sample -/

namespace Sample

/-- The sample, of which there is no saved index. -/
def workspace : Workspace hash {b | b ∈ strings} where
  root := []
  ignores := fun _ => false
  last := disk
  lost := scan.lost
  disk := disk
  file := none
  session := .start
  shows := shows_refl _ _ _
  scan := scan
  sees := seesOnRecord_refl _ _ _ _
  leaves := leaving id
  contents := by decide

/-- The first is in the middle of a copy. -/
def inTheMiddle : AddState :=
  runThread hash scan.index workspace.content id 4
    (AddState.start scan.index Store.empty workspace.hashes)

/-- The second finds the object there, and has returned. -/
def overtaken : AddState :=
  runThread hash scan.index workspace.content id 30
    (AddState.start scan.index inTheMiddle.store workspace.hashes)

/-- The first goes on. -/
def caughtUp : AddState :=
  runThread hash scan.index workspace.content id 30 { inTheMiddle with store := overtaken.store }

set_option maxRecDepth 8000 in
example : (inTheMiddle.job (ascii ['a'])).isCopying = true := by decide

set_option maxRecDepth 8000 in
theorem returned_overtaken : overtaken.main = .returned := by decide

set_option maxRecDepth 8000 in
theorem returned_caughtUp : caughtUp.main = .returned := by decide

/-- The first has begun, the second comes and returns, and the first goes on. -/
theorem exists_crowdRun : ∃ σ : CrowdState Bool, CrowdRun (fun _ => workspace) Store.empty σ ∧
    σ.view false = caughtUp ∧ (σ.run true).hash = overtaken.hash ∧
      (σ.run true).main = overtaken.main := by
  have hst : ContentAddressed hash Store.empty := contentAddressed_empty _
  obtain ⟨σ₁, h₁, hview₁, hrest₁⟩ := exists_crowdRun_thread (W := fun _ : Bool => workspace)
    collisionFree hst Relation.ReflTransGen.refl false rfl 4
  obtain ⟨σ₂, h₂, hview₂, hrest₂⟩ := exists_crowdRun_thread collisionFree hst h₁ true rfl 30
  obtain ⟨σ₃, h₃, hview₃, hrest₃⟩ := exists_crowdRun_thread collisionFree hst h₂ false rfl 30
  have hstore₁ : σ₁.store = inTheMiddle.store := congrArg AddState.store hview₁
  have hsecond : σ₂.view true = overtaken := by
    rw [hview₂, CrowdState.view, hrest₁ true (by decide), hstore₁]
    rfl
  have hstore₂ : σ₂.store = overtaken.store := congrArg AddState.store hsecond
  have hfirst : σ₂.view false = { inTheMiddle with store := overtaken.store } := by
    rw [CrowdState.view, hrest₂ false (by decide), hstore₂]
    exact congrArg (fun ρ : AddState => { ρ with store := overtaken.store }) hview₁
  refine ⟨σ₃, h₃, ?_, ?_⟩
  · rw [hview₃, hfirst]
    rfl
  · rw [hrest₃ true (by decide)]
    exact ⟨(congrArg AddState.hash hsecond :), (congrArg AddState.main hsecond :)⟩

set_option maxRecDepth 8000 in
theorem atHand_caughtUp :
    ∀ b ∈ scan.index.atHand workspace.content caughtUp.store caughtUp.hash, b ∈ strings := by
  decide

set_option maxRecDepth 8000 in
theorem atHand_overtaken :
    ∀ b ∈ scan.index.atHand workspace.content caughtUp.store overtaken.hash, b ∈ strings := by
  decide

end Sample

end Fstree
