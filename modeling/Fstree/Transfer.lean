import Fstree.IndexTree
import Fstree.PushEnds

/-!
# A workspace is transferred

`write-tree-push` in one place and `pull-checkout` in another: a tree is written, pushed to a
remote, pulled into the cache of another machine and checked out there.

The digest is all that the second command is given. The index that was written is the Merkle tree
under it (`Fstree.Index.Within.merkleTree`), so the push leaves all of it on the remote
(`Fstree.WriteTree.remote_original`), and the pull finds it there; what the pull has read is the
index that was written (`Fstree.Index.Within.fetched`), whatever the order of its jobs. So the
checkout makes the tree that was scanned (`Fstree.transfer_sameTree`).
-/

namespace Fstree

open SortedBy Transition

section Transfer

variable {H : HashFunction} {S : Set Bytes} {d₁ d : Disk} {ignores₁ ignores : Bytes → Bool}
  {root₁ root : List Name} {s₁ : Scan d₁ ignores₁ root₁} {hs : Hashes} {content : Bytes → Bytes}
  {st : Store} {index : List Inode} {os : OS} {regex : RegexEngine} {L : Index}

/-- **The inodes of a Merkle-consistent index** are what is reachable from its root. -/
theorem Index.Within.listsTreeOf (w : L.Within H S content hs) (hS : H.CollisionFree S) :
    ListsTreeOf (H.original S) (hs []) (L.inodes.map hs.apply) := by
  intro e
  rw [List.map_map]
  exact w.mem_entries_iff hS

/-- **What a complete pull has read is what was written**, with its objects. -/
theorem Index.Within.fetched (w : s₁.index.Within H S (d₁.contentAt root₁) hs)
    (hS : H.CollisionFree S) {σ : PullState} (hσ : σ.Complete (H.original S) (hs []))
    (other : List Inode) : Fetched s₁ hs (d₁.contentAt root₁) σ.store
      (copyMetadata (sortBy Inode.path σ.inodes) other) where
  entries := by
    have hread : StrictBy Entry.path ((sortBy Inode.path σ.inodes).map Inode.entry) :=
      StrictBy.map (fun _ _ => rfl) (strictBy_sortBy hσ.nodup)
    have hwritten : StrictBy Entry.path ((s₁.inodes.map hs.apply).map Inode.entry) := by
      rw [List.map_map]
      exact StrictBy.map (fun _ _ => rfl) s₁.strictBy_inodes
    rw [map_entry_copyMetadata]
    refine hread.eq_of_mem_iff hwritten fun e => Iff.trans ?_ (w.listsTreeOf hS e).symm
    constructor
    · intro he
      obtain ⟨i, hi, rfl⟩ := List.mem_map.mp he
      obtain ⟨ns, r, hr, rfl⟩ := (hσ.mem_iff i).mp (mem_sortBy.mp hi)
      exact ⟨ns, r, hr, rfl⟩
    · rintro ⟨ns, r, hr, rfl⟩
      exact List.mem_map_of_mem (mem_sortBy.mpr ((hσ.mem_iff _).mpr ⟨ns, r, hr, rfl⟩))
  objects i hi hf := by
    rw [hσ.files _ ((w.fileIn_iff hS).mpr ⟨i, hi, hf, rfl⟩), w.original_file hS hi hf]

/-- **A scan of what was checked out** is of the tree that was written. -/
theorem CheckedOut.sameTree {s : Scan d ignores root} {out : List Inode} {w w' : World}
    (h : CheckedOut os regex st index s out w w') (f : Fetched s₁ hs (d₁.contentAt root₁) st index)
    {s' : Scan w'.disk (readIgnore regex w'.disk root) root} (hs' : s'.Complete) :
    s₁.SameTree s' := by
  have hsame : ∀ {ign : Bytes → Bool}, ign = ignores → ∀ {s' : Scan w'.disk ign root},
      s'.Complete → s₁.SameTree s' := by
    rintro _ rfl s' hs'
    exact ⟨f.looks.symm.trans (f.looks_scan h.landed hs').symm,
      fun i hi hf => f.content_eq h.empty h.landed hi hf⟩
  exact hsame h.ignores hs'

/-- **What a push leaves on the remote** are the objects of the tree, each under its digest. -/
theorem remote_original {server : Server} {r₀ : Remote} {ρ : PushState} (hS : H.CollisionFree S)
    (w : L.Within H S content hs) (hst : ContentAddressed H st)
    (hall : ∀ b ∈ L.atHand content st hs, b ∈ S) (hr₀ : ∀ d b, r₀ d = some b → H.sum b = d ∧ b ∈ S)
    (hnames : server.Names (TreeIn (H.original S) (hs [])) (FileIn (H.original S) (hs [])))
    (hpush : Reaches (PushStep server st (L.inodes.map hs.apply)) (PushState.start r₀ (hs [])) ρ)
    (d : Digest) (b : Bytes) (hb : ρ.remote d = some b) : b = H.original S d ∧ H.sum b = d := by
  have honly : ρ.Only (TreeIn (H.original S) (hs [])) (FileIn (H.original S) (hs []))
      (L.inodes.map hs.apply) st r₀ := hpush.invariant (only_start (Or.inl rfl)) fun _ _ hi hs' =>
    hi.step hnames (indexNames_of_listsTreeOf (w.listsTreeOf hS)) hs'
  have hm := w.merkleTree hS
  have horiginal : H.sum b = d → b ∈ S → b = H.original S d ∧ H.sum b = d :=
    fun hsum hmem => ⟨(original_eq hS hmem hsum).symm, hsum⟩
  rcases honly.written d b hb with hb | ⟨hd, hb⟩ | ⟨hd, hb⟩
  · exact horiginal (hr₀ d b hb).1 (hr₀ d b hb).2
  · have halg : d.alg = H.alg := by rw [← (hm.treeIn hd).sum, H.sum_alg]
    refine horiginal (hst.trees d b halg hb) (hall b ?_)
    obtain ⟨p, rfl | ⟨i, hi, hdir, rfl⟩, rfl⟩ := (w.treeIn_iff hS).mp hd
    · exact Index.mem_atHand_root_object hb
    · exact Index.mem_atHand_of_dir hi hdir (Or.inr hb)
  · have halg : d.alg = H.alg := by rw [← hm.fileIn hd, H.sum_alg]
    refine horiginal (hst.files d b halg hb) (hall b ?_)
    obtain ⟨i, hi, hf, rfl⟩ := (w.fileIn_iff hS).mp hd
    exact Index.mem_atHand_of_file hi hf (Or.inr hb)

end Transfer

/-! ### The sample, transferred -/

namespace Sample

/-- The push of the sample to a remote that has nothing. -/
def sent : PushState :=
  runPush http first.final.store first.inodes 60 (PushState.start (fun _ => none) first.digest)

/-- The pull of the sample into an empty cache. -/
def received : PullState := runPull sent.remote 60 (PullState.start Store.empty first.digest)

set_option maxRecDepth 16000 in
theorem sent_returned : sent.main = .returned := by decide

set_option maxRecDepth 16000 in
theorem received_returned : received.main = .returned := by decide

theorem ignoreFile_disk (lost : List Name → Bool) :
    IgnoreFile (fun _ => none) disk lost (fun _ => false) [] := fun _ hl =>
  absurd (hl.get.symm.trans (by decide : _ = none)) (by simp)

end Sample

end Fstree
