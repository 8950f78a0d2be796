import Fstree.WriteTree

/-!
# Runs that fail or are killed

A `cache::add` can fail, or be killed after any step; what it leaves is the store
(`Fstree.AddRun`). Tree objects are digested in a temporary file and renamed, so
whatever happens every tree object has the digest it is stored under. File objects
are copied straight to their final path, and from the first byte on they count as
present: a run that is stopped in the middle of a copy leaves an object that no
later run repairs (`Fstree.killed_not_contentAddressed`), and so does one that
copies other bytes than it has digested.

If neither happens the store stays content-addressed, over any sequence of runs
(`Fstree.contentAddressed_of_runs`).
-/

namespace Fstree

open Transition

/-! ### Sequences of runs -/

/-- **A run of `cache::add` on the store `st` that was stopped**: it returned, it threw,
or it was killed, in the state `final`. -/
structure AddRun (H : HashFunction) (st : Store) where
  index : Index
  before : Hashes
  calls : AddCalls
  final : AddState
  run : Reaches (AddStep H index calls) (AddState.start index st before) final

/-- **A run that breaks no copy off**: no copy is in flight or torn when it is stopped,
and what a copy reads has the digest of the inode. -/
structure AddRun.Clean {H : HashFunction} {st : Store} (r : AddRun H st) (S : Set Bytes) :
    Prop where
  copies : Reaches (fun σ τ => AddStep H r.index r.calls σ τ ∧ CopiesDigested H S τ)
    (AddState.start r.index st r.before) r.final
  settled : ∀ p, r.final.job p ≠ .torn ∧ (r.final.job p).isCopying = false

/-- **A sequence of runs**, each on the store the one before has left. -/
def Runs (H : HashFunction) : Store → Store → Prop :=
  Reaches fun st st' => ∃ r : AddRun H st, r.final.store = st'

/-- A sequence of runs that break no copy off. -/
def CleanRuns (H : HashFunction) (S : Set Bytes) : Store → Store → Prop :=
  Reaches fun st st' => ∃ r : AddRun H st, r.Clean S ∧ r.final.store = st'

section Runs

variable {H : HashFunction} {S : Set Bytes} {st₀ st : Store}

theorem AddRun.treesAddressed (r : AddRun H st) (h : TreesAddressed H st) :
    TreesAddressed H r.final.store :=
  treesAddressed_of_run r.run h

/-- **A run that breaks no copy off keeps the store content-addressed.** -/
theorem AddRun.Clean.contentAddressed {r : AddRun H st} (h : r.Clean S) (hS : H.CollisionFree S)
    (hst : ContentAddressed H st) : ContentAddressed H r.final.store :=
  contentAddressed_of_run (h.copies.mono fun _ _ hs => ⟨hs.1, hs.2.honest hS⟩) hst h.settled

/-- Tree objects are right after any runs. -/
theorem Runs.treesAddressed (h : Runs H st₀ st) (hst : TreesAddressed H st₀) :
    TreesAddressed H st := by
  refine Reaches.invariant h hst fun u v hu => ?_
  rintro ⟨r, rfl⟩
  exact r.treesAddressed hu

/-- All objects are right after runs that break no copy off. -/
theorem CleanRuns.contentAddressed (h : CleanRuns H S st₀ st) (hS : H.CollisionFree S)
    (hst : ContentAddressed H st₀) : ContentAddressed H st := by
  refine Reaches.invariant h hst fun u v hu => ?_
  rintro ⟨r, hr, rfl⟩
  exact hr.contentAddressed hS hu

/-- **What a run that returns refers to** is there, under its digest. -/
theorem AddRun.Clean.object {r : AddRun H st} (h : r.Clean S) (hS : H.CollisionFree S)
    (hst : ContentAddressed H st) (hret : r.final.main = .returned) {i : Inode}
    (hi : i ∈ r.index.inodes) (hf : i.isFile = true) (halg : (r.final.hash i.path).alg = H.alg) :
    ∃ b, r.final.store (filePath (r.final.hash i.path)) = some b ∧
      H.sum b = r.final.hash i.path := by
  obtain ⟨b, hb⟩ := Option.isSome_iff_exists.mp ((added_of_returned r.run hret).file i hi hf).2
  exact ⟨b, hb, (h.contentAddressed hS hst).files _ b halg hb⟩

end Runs

/-! ### A write-tree is such a run -/

/-- The add of a `write-tree`. -/
def WriteTree.addRun {H : HashFunction} {d : Disk} {ignores : Bytes → Bool} {root : List Name}
    {file : Option Bytes} {st₀ : Store} (w : WriteTree H d ignores root file st₀) : AddRun H st₀ :=
  ⟨w.scan.index, w.before, readsAs (d.contentAt root) w.leaves, w.final, w.run⟩

/-- **A write-tree on a workspace that does not change breaks no copy off.** -/
theorem WriteTree.clean {H : HashFunction} {S : Set Bytes} {d : Disk} {ignores : Bytes → Bool}
    {root : List Name} {file : Option Bytes} {st₀ : Store} {D : Bytes → Prop}
    (w : WriteTree H d ignores root file st₀)
    (ht : w.scan.index.Truthful H (d.contentAt root) st₀ w.before D) (hw : ∀ b ∈ w.atHand, b ∈ S) :
    w.addRun.Clean S where
  copies := run_copiesDigested_of_content ht.file
    (fun _ hi hf => hw _ (Index.mem_atHand_of_file hi hf (Or.inl rfl))) w.run
  settled := settled_of_returned w.run w.returned

/-! ### Three runs on the sample -/

namespace Sample

/-- A run on the sample that is killed when the copy of `a` has been opened. -/
def killed : AddRun hash Store.empty where
  index := scan.index
  before := Hashes.clean
  calls := readsAs (disk.contentAt []) (leaving id)
  final := runThread hash scan.index (disk.contentAt []) id 4
    (AddState.start scan.index Store.empty Hashes.clean)
  run := reaches_runThread 4

/-- It leaves an empty object under the digest of the file. -/
theorem killed_object : killed.final.store (filePath (hash.sum (ascii ['x']))) = some [] := by
  decide

set_option maxRecDepth 8000 in
/-- A run on the store that the first has left, when the saved index is gone. -/
def afresh : WriteTree hash disk (fun _ => false) [] none first.final.store :=
  .ofThread scan 30 (by decide)

theorem clean_first : first.addRun.Clean {b | b ∈ strings} :=
  first.clean first.truthful_of_none atHand_first

set_option maxRecDepth 8000 in
theorem atHand_afresh : ∀ b ∈ afresh.atHand, b ∈ strings := by decide

theorem clean_afresh : afresh.addRun.Clean {b | b ∈ strings} :=
  afresh.clean afresh.truthful_of_none atHand_afresh

end Sample

/-! ### The store over a sequence of runs -/

/-- **The store stays content-addressed over runs that break no copy off.** Tree objects
are right after any runs, killed in any state; file objects are after runs none of
which is stopped with a copy in flight or torn, or copies other bytes than have the
digest of the inode. A later such run that returns has the bytes of every file it
refers to. -/
theorem contentAddressed_of_runs {H : HashFunction} {S : Set Bytes} {st₀ : Store}
    (hS : H.CollisionFree S) (hst : ContentAddressed H st₀) :
    (∀ st, Runs H st₀ st → TreesAddressed H st) ∧
    ∀ st, CleanRuns H S st₀ st → ContentAddressed H st ∧
      ∀ r : AddRun H st, r.Clean S → r.final.main = .returned → ∀ i ∈ r.index.inodes,
        i.isFile = true → (r.final.hash i.path).alg = H.alg →
          ∃ b, r.final.store (filePath (r.final.hash i.path)) = some b ∧
            H.sum b = r.final.hash i.path := by
  refine ⟨fun st hruns => hruns.treesAddressed hst.trees, fun st hruns => ?_⟩
  have hst' := hruns.contentAddressed hS hst
  exact ⟨hst', fun r hr hret i hi hf halg => hr.object hS hst' hret hi hf halg⟩

set_option maxRecDepth 8000 in
/-- What a killed run on the sample leaves, what the first run leaves, and the object of `a` after
another. -/
theorem contentAddressed_of_runs_sample :
    TreesAddressed Sample.hash Sample.killed.final.store ∧
    ContentAddressed Sample.hash Sample.first.final.store ∧
    ∃ b, Sample.afresh.final.store (filePath (Sample.afresh.final.hash (ascii ['a']))) = some b ∧
      Sample.hash.sum b = Sample.afresh.final.hash (ascii ['a']) := by
  obtain ⟨hany, hclean⟩ :=
    contentAddressed_of_runs Sample.collisionFree (contentAddressed_empty Sample.hash)
  obtain ⟨haddr, hobj⟩ := hclean Sample.first.final.store
    (Relation.ReflTransGen.single ⟨Sample.first.addRun, Sample.clean_first, rfl⟩)
  exact ⟨hany _ (Relation.ReflTransGen.single ⟨Sample.killed, rfl⟩), haddr,
    hobj Sample.afresh.addRun Sample.clean_afresh Sample.afresh.returned
      (scanned [] Sample.a (.file 0o644 2 (ascii ['x']))) (by decide) (by decide) (by decide)⟩

/-- **A killed run can leave an object that is not what its path says.** -/
theorem killed_not_contentAddressed : ¬ ∀ (H : HashFunction) (st₀ st : Store),
    ContentAddressed H st₀ → Runs H st₀ st → ContentAddressed H st := fun h => by
  have hst := h Sample.hash Store.empty _ (contentAddressed_empty _)
    (Relation.ReflTransGen.single ⟨Sample.killed, rfl⟩)
  have hsum := hst.files _ _ (by decide) Sample.killed_object
  exact absurd hsum (by decide)

end Fstree
