import Fstree.Reuse

/-!
# Writing a tree

`write-tree` scans a workspace, refreshes the saved index if there is one, adds
the index to the cache and saves it (`Fstree.WriteTree`). Its digest is the root's.

Under one ignore predicate the saved indexes are right from run to run: each run
starts from none, or from what an earlier run has saved, on a workspace in which
what kept its metadata has not changed (`Fstree.Saved`). Whatever was evicted in
between, a run leaves a Merkle-consistent index (`Fstree.WriteTree.merkle`), the
digest leads the reader back to it, and every file has its bytes in the cache
(`Fstree.WriteTree.round_trip`).
-/

namespace Fstree

open SortedBy Transition

/-! ### A run -/

/-- **A run of `write-tree`** that returns, on the workspace `root` of a disk, with
the bytes of the saved index, if there is one, and the store it finds. -/
structure WriteTree (H : HashFunction) (d : Disk) (ignores : Bytes → Bool) (root : List Name)
    (file : Option Bytes) (st₀ : Store) where
  scan : Scan d ignores root
  /-- What may be left in the temporary file of a tree object when it has been closed. -/
  leaves : Bytes → Bytes → Prop
  final : AddState
  run : Reaches (AddStep H scan.index (readsAs (d.contentAt root) leaves))
    (AddState.start scan.index st₀ (refresh H scan (loadIndex [] file).1)) final
  returned : final.main = .returned

namespace WriteTree

variable {H : HashFunction} {d : Disk} {ignores : Bytes → Bool} {root : List Name}
  {file : Option Bytes} {st₀ : Store} (w : WriteTree H d ignores root file st₀)

/-- `_inodes` after the run. -/
def inodes : List Inode := w.scan.inodes.map w.final.hash.apply

/-- The bytes `index::save` writes. -/
def saved : Bytes := saveIndex w.inodes

/-- The digest the command prints. -/
def digest : Digest := w.final.hash []

/-- The byte strings a run digests or stores. -/
def atHand : List Bytes :=
  w.scan.index.atHand (d.contentAt root) w.final.store w.final.hash

/-- The digests the add begins with. -/
def before : Hashes := refresh H w.scan (loadIndex [] file).1

/-- **No temporary file of a tree object loses bytes** when it is closed. -/
def Whole : Prop := Lossless w.leaves

theorem added : Added H w.scan.index (readsAs (d.contentAt root) w.leaves) st₀ w.before
    w.final.store w.final.hash :=
  added_of_returned w.run w.returned

/-- The state of a single thread after `n` steps of the add, if of the temporary files `left` is
left. -/
def thread (H : HashFunction) (s : Scan d ignores root) (left : Bytes → Bytes)
    (file : Option Bytes) (st₀ : Store) (n : ℕ) : AddState :=
  runThread H s.index (d.contentAt root) left n
    (AddState.start s.index st₀ (refresh H s (loadIndex [] file).1))

/-- The run of a single thread. -/
def ofThreadLeaving (s : Scan d ignores root) (left : Bytes → Bytes) (n : ℕ)
    (h : (thread H s left file st₀ n).main = .returned) : WriteTree H d ignores root file st₀ :=
  ⟨s, leaving left, _, reaches_runThread n, h⟩

/-- The run of a single thread in which no temporary file loses bytes. -/
def ofThread (s : Scan d ignores root) (n : ℕ) (h : (thread H s id file st₀ n).main = .returned) :
    WriteTree H d ignores root file st₀ :=
  ofThreadLeaving s id n h

theorem whole_ofThread (s : Scan d ignores root) (n : ℕ)
    (h : (thread H s id file st₀ n).main = .returned) : (ofThread s n h).Whole :=
  lossless_leaving

end WriteTree

/-! ### The copies of a run on a workspace that does not change -/

section Honest

variable {H : HashFunction} {L : Index} {content : Bytes → Bytes}
  {leaves : Bytes → Bytes → Prop} {st₀ : Store} {hs₀ : Hashes}
  {D : Bytes → Prop} {S : Set Bytes} {σ : AddState}

/-- The sources of copies in flight are the contents of their files. -/
def CopiesContent (content : Bytes → Bytes) (σ : AddState) : Prop :=
  ∀ p src off, σ.job p = .copying src off → src = content p

theorem CopiesContent.step {τ : AddState} (h : CopiesContent content σ)
    (hs : AddStep H L (readsAs content leaves) σ τ) : CopiesContent content τ := by
  cases hs with
  | @job p st d j hs =>
    intro q src off hq
    by_cases hqp : q = p
    · subst hqp
      have hj : j = .copying src off := by simpa using hq
      subst hj
      generalize hjob : σ.job q = j₀ at hs
      cases hs with
      | openCopy hread => exact hread
      | write hsrc hobj => exact h q _ _ hjob
    · exact h q src off (by simpa [Function.update_of_ne hqp] using hq)
  | @enqueue i todo dirs hmain hfile =>
    intro q src off hq
    by_cases hqi : q = i.path
    · subst hqi
      simp at hq
    · exact h q src off (by simpa [Function.update_of_ne hqi] using hq)
  | _ => exact h

/-- **On a workspace that does not change the copies have the right digests**, whether
the file was just digested or has been before. -/
theorem copiesDigested_of_core {C : Store → List Inode → List Bytes → Prop}
    (hfile : ∀ i ∈ L.inodes, i.isFile = true →
      (hs₀ i.path).empty = false → hs₀ i.path = H.sum (content i.path))
    (hcontent : ∀ i ∈ L.inodes, i.isFile = true → content i.path ∈ S)
    (hi : AddCore C H L (readsAs content leaves) hs₀ σ) (hc : CopiesContent content σ) :
    CopiesDigested H S σ := by
  intro p src off hp
  obtain ⟨i, hil, hf, rfl⟩ := hi.jobs_file p (by simp [hp])
  have hj := hi.jobs i hil hf
  rw [hp] at hj
  obtain rfl := hc _ _ _ hp
  refine ⟨hcontent i hil hf, ?_⟩
  rcases hj.1 with ⟨he, heq⟩ | ⟨-, b, rfl, heq⟩
  · rw [heq, hfile i hil hf he]
  · exact heq.symm

theorem copiesDigested_of_content (hfile : ∀ i ∈ L.inodes, i.isFile = true →
      (hs₀ i.path).empty = false → hs₀ i.path = H.sum (content i.path))
    (hcontent : ∀ i ∈ L.inodes, i.isFile = true → content i.path ∈ S)
    (hi : AddInv H L (readsAs content leaves) st₀ hs₀ σ) (hc : CopiesContent content σ) :
    CopiesDigested H S σ :=
  copiesDigested_of_core hfile hcontent hi.core hc

/-- So they have in every state of a run. -/
theorem run_copiesDigested_of_content (hfile : ∀ i ∈ L.inodes, i.isFile = true →
      (hs₀ i.path).empty = false → hs₀ i.path = H.sum (content i.path))
    (hcontent : ∀ i ∈ L.inodes, i.isFile = true → content i.path ∈ S)
    (hrun : Reaches (AddStep H L (readsAs content leaves)) (AddState.start L st₀ hs₀) σ) :
    Reaches (fun σ τ => AddStep H L (readsAs content leaves) σ τ ∧ CopiesDigested H S τ)
      (AddState.start L st₀ hs₀) σ := by
  have hinv : ∀ τ, Reaches (AddStep H L (readsAs content leaves)) (AddState.start L st₀ hs₀) τ →
      AddInv H L (readsAs content leaves) st₀ hs₀ τ ∧ CopiesContent content τ := fun τ hτ =>
    ⟨hτ.invariant addInv_start fun _ _ hi hs => hi.step hs,
      hτ.invariant (fun p src off hp => by cases hp) fun _ _ hi hs => hi.step hs⟩
  induction hrun with
  | refl => exact Relation.ReflTransGen.refl
  | @tail u v hu hs ih =>
    obtain ⟨hi, hc⟩ := hinv v (hu.tail hs)
    exact ih.tail ⟨hs, copiesDigested_of_content hfile hcontent hi hc⟩

/-- A run that returns has no copy in flight or broken off. -/
theorem settled_of_returned {calls : AddCalls}
    (hrun : Reaches (AddStep H L calls) (AddState.start L st₀ hs₀) σ)
    (hret : σ.main = .returned) : ∀ p, σ.job p ≠ .torn ∧ (σ.job p).isCopying = false := by
  have hi : AddInv H L calls st₀ hs₀ σ :=
    hrun.invariant addInv_start fun _ _ hi hs => hi.step hs
  have hm := hi.main
  rw [hret] at hm
  refine fun p => ⟨fun hp => ?_, hi.not_copying hm.1 p⟩
  obtain ⟨i, hil, hf, rfl⟩ := hi.jobs_file p (by simp [hp])
  rw [hm.1 i hil hf] at hp
  cases hp

/-- **A run on a workspace that does not change keeps the store
content-addressed.** -/
theorem contentAddressed_of_content (hfile : ∀ i ∈ L.inodes, i.isFile = true →
      (hs₀ i.path).empty = false → hs₀ i.path = H.sum (content i.path))
    (hS : H.CollisionFree S) (hcontent : ∀ i ∈ L.inodes, i.isFile = true → content i.path ∈ S)
    (hst : ContentAddressed H st₀)
    (hrun : Reaches (AddStep H L (readsAs content leaves)) (AddState.start L st₀ hs₀) σ)
    (hret : σ.main = .returned) : ContentAddressed H σ.store :=
  contentAddressed_of_run ((run_copiesDigested_of_content hfile hcontent hrun).mono
    fun _ _ hs => ⟨hs.1, hs.2.honest hS⟩) hst (settled_of_returned hrun hret)

end Honest

/-! ### Runs under one ignore predicate -/

section Saved

variable {H : HashFunction} {S : Set Bytes} {d d₀ : Disk} {ignores : Bytes → Bool}
  {root : List Name} {file : Option Bytes} {file₀ : Bytes} {st₀ : Store}

/-- **The saved index of a chain of runs** under one ignore predicate: of a run that
found none, or of a run on what an earlier one has saved, after changes that show
in the metadata. The store may have lost any objects between two runs. `S` holds
the byte strings the runs have at hand, and `lost` are the paths that `lstat` has failed for in
the last of them. -/
inductive Saved (H : HashFunction) (S : Set Bytes) (ignores : Bytes → Bool) (root : List Name) :
    Disk → (List Name → Bool) → Bytes → Prop
  | first {d : Disk} {st₀ : Store} (hd : d.WellFormed) (hst : ContentAddressed H st₀)
      (w : WriteTree H d ignores root none st₀) (hwhole : w.Whole) (hw : ∀ b ∈ w.atHand, b ∈ S) :
      Saved H S ignores root d w.scan.lost w.saved
  | next {d₀ d : Disk} {lost₀ : List Name → Bool} {file : Bytes} {st₀ : Store}
      (prev : Saved H S ignores root d₀ lost₀ file) (hun : Unchanged d₀ d root) (hd : d.WellFormed)
      (hst : ContentAddressed H st₀) (w : WriteTree H d ignores root (some file) st₀)
      (hsee : SeesAlike d₀ lost₀ d w.scan.lost root) (hwhole : w.Whole)
      (hw : ∀ b ∈ w.atHand, b ∈ S) :
      Saved H S ignores root d w.scan.lost w.saved

/-- **The saved index a run finds**: none, or one of a chain of runs under the same ignore
predicate, after changes that show in the metadata. -/
def WriteTree.Founded (S : Set Bytes) (w : WriteTree H d ignores root file st₀) : Prop :=
  file = none ∨ ∃ d₀ lost₀ bytes, file = some bytes ∧ Saved H S ignores root d₀ lost₀ bytes ∧
    Unchanged d₀ d root ∧ SeesAlike d₀ lost₀ d w.scan.lost root

/-- The inodes of a Merkle-consistent scan can be saved and loaded. -/
theorem Prior.old_eq (prior : Prior H d ignores root) (hd : d.WellFormed) :
    (loadIndex [] (some (saveIndex prior.inodes))).1 = prior.old := by
  rw [loadIndex_saveIndex]
  · rfl
  · intro n hn
    obtain ⟨i, hi, rfl⟩ := List.mem_map.mp hn
    obtain ⟨hp, -, ht⟩ := Scan.lengths hd hi
    exact ⟨prior.merkle.wellFormed hi, hp, ht⟩

/-- **Two scans of a directory under one predicate list the same names** if it is
listed in both, holds the same names, and `lstat` fails for the same of them. -/
theorem listed_same {lost lost₀ : List Name → Bool} {ns : List Name} {node node₀ : Node}
    (hl : Listed d lost ignores root ns node) (hl₀ : Listed d₀ lost₀ ignores root ns node₀)
    (hdir : node.isDir = true) (hdir₀ : node₀.isDir = true)
    (hnames : ∀ m, d₀.get (root ++ (ns ++ [m])) = none ↔ d.get (root ++ (ns ++ [m])) = none)
    (hsee : ∀ m, d₀.get (root ++ (ns ++ [m])) ≠ none → d.get (root ++ (ns ++ [m])) ≠ none →
      lost₀ (root ++ (ns ++ [m])) = lost (root ++ (ns ++ [m])))
    (n : Name) : (∃ node, Listed d lost ignores root (ns ++ [n]) node) ↔
      ∃ node₀, Listed d₀ lost₀ ignores root (ns ++ [n]) node₀ := by
  have hone : ∀ {d d' : Disk} {lost lost' : List Name → Bool} {node : Node},
      Listed d' lost' ignores root ns node → node.isDir = true →
      (d'.get (root ++ (ns ++ [n])) = none → d.get (root ++ (ns ++ [n])) = none) →
      (d'.get (root ++ (ns ++ [n])) ≠ none → d.get (root ++ (ns ++ [n])) ≠ none →
        lost' (root ++ (ns ++ [n])) = lost (root ++ (ns ++ [n]))) →
      (∃ node, Listed d lost ignores root (ns ++ [n]) node) →
      ∃ node, Listed d' lost' ignores root (ns ++ [n]) node := by
    rintro d d' lost lost' node hl' hdir' hsub hsee ⟨node, h⟩
    obtain ⟨-, hlstat, hres, hign⟩ := listed_concat.mp h
    obtain ⟨hlost, hget⟩ := Disk.lstat_eq_some.mp hlstat
    have hne : d.get (root ++ (ns ++ [n])) ≠ none := by rw [hget]; exact nofun
    obtain ⟨node', hget'⟩ := Option.ne_none_iff_exists'.mp (mt hsub hne)
    refine ⟨node', listed_concat.mpr ⟨Or.inr ⟨_, hl', hdir'⟩, ?_, hres, hign⟩⟩
    exact Disk.lstat_eq_some.mpr ⟨(hsee (mt hsub hne) hne).trans hlost, hget'⟩
  exact ⟨hone hl₀ hdir₀ (hnames n).mp (hsee n),
    hone hl hdir (hnames n).mpr fun h h₀ => (hsee n h₀ h).symm⟩

/-- **The digests kept under one predicate are truthful**, of all directories that
keep one. -/
theorem Prior.truthful (prior : Prior H d₀ ignores root) (hun : Unchanged d₀ d root)
    (s : Scan d ignores root) (hsee : SeesAlike d₀ prior.scan.lost d s.lost root) (st₀ : Store) :
    s.index.Truthful H (d.contentAt root) st₀ (refresh H s prior.old)
      fun p => (refresh H s prior.old p).empty = false := by
  have hne : ∀ {p}, (refresh H s prior.old p).empty = false →
      refresh H s prior.old p ≠ Digest.none := fun h => (refresh_empty_iff prior.strictBy_old).mp h
  have hsame : ∀ {ns : List Name} {node : Node}, Listed d s.lost ignores root ns node →
      node.isDir = true → refresh H s prior.old (pathStr ns) ≠ Digest.none →
      ∀ n, (∃ node, Listed d s.lost ignores root (ns ++ [n]) node) ↔
        ∃ node₀, Listed d₀ prior.scan.lost ignores root (ns ++ [n]) node₀ := by
    intro ns node hl hdir h
    obtain ⟨ms, node', hp, hm⟩ := match_of_refresh h
    obtain rfl : ns = ms := pathStr_injective hp
    obtain rfl := hm.now.node_eq hl
    obtain ⟨node₀, hl₀, hstatus, hmtime, htarget⟩ := hm.before
    have hdir₀ : node₀.isDir = true := by
      rw [← Node.status_type_eq_directory, hstatus, Node.status_type_eq_directory, hdir]
    exact listed_same hl hl₀ hdir hdir₀
      ((hun _ _ _ hl₀.get hl.get hstatus hmtime htarget).2 hdir)
      (hsee _ _ _ hl₀.get hl.get hstatus hmtime htarget)
  have hnode : ∀ i ∈ s.inodes, i.isDirectory = true → ∃ ns node, i.path = pathStr ns ∧
      Listed d s.lost ignores root ns node ∧ node.isDir = true := by
    intro i hi hd
    obtain ⟨ns, n, node, hl, rfl⟩ := s.mem_inodes.mp hi
    exact ⟨ns ++ [n], node, by simp [scanned], hl, by simpa [scanned, Inode.isDirectory] using hd⟩
  refine ⟨fun i hi hf he => refresh_file hun hi hf (hne he), fun i hi hf hd =>
    refresh_other hi hf hd, fun i hi hd hn => ?_, fun i hi hd he => ?_,
    fun i hi hd he c hc hp => ?_⟩
  · exact (by simpa [needsTree] using hn : _ ∧ _).1
  · obtain ⟨ns, node, hp, hl, hdir⟩ := hnode i hi hd
    rw [hp] at he ⊢
    exact refresh_dir hl hdir (hne he) (hsame hl hdir (hne he))
  · obtain ⟨ns, node, hip, hl, hdir⟩ := hnode i hi hd
    rw [hip] at he hp
    obtain ⟨ms, n, node', hlc, rfl⟩ := s.mem_inodes.mp hc
    obtain rfl : ms = ns := pathStr_injective (by simpa [scanned] using hp)
    obtain ⟨node₀, hl₀⟩ := (hsame hl hdir (hne he) n).mp ⟨node', hlc⟩
    have hchild := (refresh_empty_iff prior.strictBy_old).mpr (refresh_child hlc hl₀ (hne he))
    have hcp : (scanned (pathStr ms) n node').path = pathStr (ms ++ [n]) := by simp [scanned]
    rw [hcp]
    exact ⟨fun _ => hchild, fun _ => hchild⟩

/-- A refresh of no index gives no digests. -/
theorem refresh_nil (s : Scan d ignores root) : refresh H s [] = Hashes.clean := by
  rw [refresh, refreshList, TwoCursor.walk_nil_right]
  induction s.inodes with
  | nil => rfl
  | cons i l ih => exact ih

namespace WriteTree

variable (w : WriteTree H d ignores root file st₀)

/-- What a run with truthful digests leaves. -/
structure Good (w : WriteTree H d ignores root file st₀) : Prop where
  merkle : w.scan.index.Merkle H (d.contentAt root) w.final.hash
  addressed : ContentAddressed H w.final.store
  stored : w.scan.index.Stored w.final.hash w.final.store
  objects : ∀ i ∈ w.scan.inodes, i.isFile = true →
    w.final.store (filePath (w.final.hash i.path)) = some (d.contentAt root i.path)

variable {w}

/-- **A run from truthful digests** leaves a Merkle-consistent index, and a
content-addressed store that holds all of it. -/
theorem good_of_truthful {D : Bytes → Prop}
    (ht : w.scan.index.Truthful H (d.contentAt root) st₀ w.before D) (hwhole : w.Whole)
    (hS : H.CollisionFree S) (hw : ∀ b ∈ w.atHand, b ∈ S) (hst : ContentAddressed H st₀) :
    w.Good := by
  have hm := ht.merkle w.added hwhole
  have haddr := contentAddressed_of_content ht.file hS
    (fun i hi hf => hw _ (Index.mem_atHand_of_file hi hf (Or.inl rfl))) hst w.run w.returned
  refine ⟨hm, haddr, ?_, fun i hi hf => Index.object_of_added w.added hm haddr hS hw hi hf⟩
  refine Index.stored_of_added w.added hm (fun i hi hd hn => ?_) haddr hS hw
  exact Index.kept_of_added w.added hi (Index.isFile_of_isDirectory hd) fun _ => hn

/-- A run that found no index begins without digests. -/
theorem truthful_of_none (w : WriteTree H d ignores root none st₀) :
    w.scan.index.Truthful H (d.contentAt root) st₀ w.before fun _ => False := by
  have hb : w.before = Hashes.clean := refresh_nil w.scan
  rw [hb]
  exact Index.truthful_clean

/-- A run on a right index begins with truthful digests. -/
theorem truthful_of_prior (prior : Prior H d₀ ignores root) (hd₀ : d₀.WellFormed)
    (hun : Unchanged d₀ d root)
    (w : WriteTree H d ignores root (some (saveIndex prior.inodes)) st₀)
    (hsee : SeesAlike d₀ prior.scan.lost d w.scan.lost root) :
    w.scan.index.Truthful H (d.contentAt root) st₀ w.before
      fun p => (w.before p).empty = false := by
  have hb : w.before = refresh H w.scan prior.old := by rw [before, prior.old_eq hd₀]
  rw [hb]
  exact prior.truthful hun w.scan hsee st₀

/-- The index a good run saves, for a later one. -/
def Good.prior (h : w.Good) : Prior H d ignores root := ⟨w.scan, w.final.hash, h.merkle⟩

end WriteTree

/-- **The saved index of a chain of runs is right.** -/
theorem Saved.prior {lost₀ : List Name → Bool} (h : Saved H S ignores root d₀ lost₀ file₀)
    (hS : H.CollisionFree S) :
    ∃ prior : Prior H d₀ ignores root, prior.scan.lost = lost₀ ∧
      file₀ = saveIndex prior.inodes ∧ d₀.WellFormed ∧
      ∀ i ∈ prior.scan.inodes, i.isDirectory = true →
        prior.scan.index.tree prior.hash i.path ∈ S := by
  induction h with
  | first hd hst w hwhole hw =>
    exact ⟨(WriteTree.good_of_truthful w.truthful_of_none hwhole hS hw hst).prior, rfl, rfl, hd,
      fun i hi hdir => hw _ (Index.mem_atHand_of_dir hi hdir (Or.inl rfl))⟩
  | next prev hun hd hst w hsee hwhole hw ih =>
    obtain ⟨prior, rfl, rfl, hd₀, -⟩ := ih
    have ht := w.truthful_of_prior prior hd₀ hun hsee
    exact ⟨(WriteTree.good_of_truthful ht hwhole hS hw hst).prior, rfl, rfl, hd,
      fun i hi hdir => hw _ (Index.mem_atHand_of_dir hi hdir (Or.inl rfl))⟩

/-- **Every run of a chain is good.** -/
theorem WriteTree.good (w : WriteTree H d ignores root file st₀) (hfound : w.Founded S)
    (hwhole : w.Whole) (hS : H.CollisionFree S) (hw : ∀ b ∈ w.atHand, b ∈ S)
    (hst : ContentAddressed H st₀) : w.Good := by
  rcases hfound with rfl | ⟨d₀, lost₀, bytes, rfl, hsaved, hun, hsee⟩
  · exact good_of_truthful w.truthful_of_none hwhole hS hw hst
  · obtain ⟨prior, rfl, rfl, hd₀, -⟩ := hsaved.prior hS
    exact good_of_truthful (w.truthful_of_prior prior hd₀ hun hsee) hwhole hS hw hst

/-- The records of a Merkle-consistent scan can be read back. -/
theorem Index.Merkle.encodable {s : Scan d ignores root} {content : Bytes → Bytes} {hs : Hashes}
    (h : s.index.Merkle H content hs) (hd : d.WellFormed) : s.index.Encodable hs := by
  intro i hi
  obtain ⟨-, hn, ht⟩ := Scan.lengths hd hi
  exact ⟨h.wellFormed hi, hn, ht⟩

end Saved

/-! ### Two runs on a sample workspace -/

namespace Sample

/-- The sample: a file `a`, and a directory `d` with a symlink `l`. -/
def a : Name := nameA

@[inherit_doc a] def d : Name := nameD

@[inherit_doc a] def l : Name := ⟨ascii ['l'], by decide, by decide⟩

@[inherit_doc a] def disk : Disk where
  entries := [([], .dir 0o755 1 0), ([a], .file 0o644 2 (ascii ['x'])), ([d], .dir 0o755 3 0),
    ([d, l], .symlink 4 (ascii ['x']))]

theorem isDir_disk : disk.IsDir [] := by decide

theorem disk_wellFormed : disk.WellFormed :=
  Disk.wellFormed_of_entries (by decide) (by decide) (by decide)

/-- The tree object of `d`. -/
def treeD : Bytes := encodeTree [scanned (ascii ['d']) l (.symlink 4 (ascii ['x']))]

/-- The tree object of the root. -/
def treeRoot : Bytes :=
  encodeTree [
    (scanned [] a (.file 0o644 2 (ascii ['x']))).setHash
      ⟨.sha1, hexString 40 0x11f6ad8ec52a2984abaafd7c3b516503785c2072⟩,
    (scanned [] d (.dir 0o755 3 0)).setHash
      ⟨.sha1, hexString 40 0xa1b5c0affee79826b4772e11064f51915eaabd26⟩]

/-- SHA-1 on the byte strings of the sample. -/
def hash : HashFunction := .ofTable [
  (ascii ['x'], 0x11f6ad8ec52a2984abaafd7c3b516503785c2072),
  (treeD, 0xa1b5c0affee79826b4772e11064f51915eaabd26),
  (treeRoot, 0x5fafb8692f3557586d5e9de55efd766aaa8b9a31)]

/-- The scan of the sample. -/
def scan : Scan disk (fun _ => false) [] := .sequential disk _ [] isDir_disk

/-- The first run, which finds no index. -/
def first : WriteTree hash disk (fun _ => false) [] none Store.empty :=
  .ofThread scan 30 (by decide)

set_option maxRecDepth 8000 in
/-- The second run, on the index the first has saved, after all objects were evicted. -/
def second : WriteTree hash disk (fun _ => false) [] (some first.saved) Store.empty :=
  .ofThread scan 30 (by decide)

/-- The byte strings of the sample. -/
def strings : List Bytes := [ascii ['x'], treeD, treeRoot]

set_option maxRecDepth 8000 in
theorem collisionFree : hash.CollisionFree {b | b ∈ strings} :=
  HashFunction.collisionFree_list (by decide)

set_option maxRecDepth 8000 in
theorem atHand_first : ∀ b ∈ first.atHand, b ∈ strings := by decide

set_option maxRecDepth 8000 in
theorem atHand_second : ∀ b ∈ second.atHand, b ∈ strings := by decide

theorem founded_second : second.Founded {b | b ∈ strings} :=
  Or.inr ⟨disk, first.scan.lost, first.saved, rfl,
    .first disk_wellFormed (contentAddressed_empty _) _ (WriteTree.whole_ofThread _ _ _)
      atHand_first, unchanged_refl _ _, seesAlike_refl _ _ _⟩

/-- The tree object of the root, if that of `d` has become empty. -/
def treeRootLost : Bytes :=
  encodeTree [
    (scanned [] a (.file 0o644 2 (ascii ['x']))).setHash
      ⟨.sha1, hexString 40 0x11f6ad8ec52a2984abaafd7c3b516503785c2072⟩,
    (scanned [] d (.dir 0o755 3 0)).setHash
      ⟨.sha1, hexString 40 0xda39a3ee5e6b4b0d3255bfef95601890afd80709⟩]

/-- SHA-1 on the byte strings of a run on a full disk. -/
def hashLost : HashFunction := .ofTable [
  (ascii ['x'], 0x11f6ad8ec52a2984abaafd7c3b516503785c2072),
  ([], 0xda39a3ee5e6b4b0d3255bfef95601890afd80709),
  (treeD, 0xa1b5c0affee79826b4772e11064f51915eaabd26),
  (treeRootLost, 0xe2d1cd7e24d992331ef6ff9cd603b3b542dbff51)]

set_option maxRecDepth 8000 in
/-- The run on a full disk: nothing is left of a tree object. -/
def onFullDisk : WriteTree hashLost disk (fun _ => false) [] none Store.empty :=
  .ofThreadLeaving scan (fun _ => []) 30 (by decide)

/-- The byte strings of this run. -/
def stringsLost : List Bytes := [ascii ['x'], [], treeD, treeRootLost]

set_option maxRecDepth 8000 in
theorem collisionFree_lost : hashLost.CollisionFree {b | b ∈ stringsLost} :=
  HashFunction.collisionFree_list (by decide)

set_option maxRecDepth 8000 in
theorem atHand_lost : ∀ b ∈ onFullDisk.atHand, b ∈ stringsLost := by decide

set_option maxRecDepth 8000 in
/-- The object of the root is read, and is no tree. -/
theorem read_lost : ∃ e,
    indexFromTree onFullDisk.final.store .sequential 1 onFullDisk.digest = some (.error e) :=
  ⟨_, rfl⟩

end Sample

/-! ### The round trip -/

/-- **What a run has written reads back**: from its digest every schedule of the reader
succeeds, and the sorted inodes it reads record what the refreshed index does; and every regular
file has its bytes in the cache. -/
def WriteTree.ReadsBack {H : HashFunction} {d : Disk} {ignores : Bytes → Bool} {root : List Name}
    {file : Option Bytes} {st₀ : Store} (w : WriteTree H d ignores root file st₀) : Prop :=
  (∀ sched : Schedule, ∃ levels, ∀ fuel ≥ levels, ∃ l,
    indexFromTree w.final.store sched fuel w.digest = some (.ok l) ∧
      (sortBy Inode.path l).map Inode.entry = w.inodes.map Inode.entry) ∧
  ∀ i ∈ w.inodes, i.isFile = true →
    w.final.store (filePath i.hash) = some (d.contentAt root i.path)

end Fstree
