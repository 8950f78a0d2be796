import Fstree.Records
import Fstree.Transfer

/-!
# Checking out a tree into any directory

The tree of a digest comes from the cache, or it is pulled (`Fstree.Obtained`); either way it is
the index that was written, with its objects and without mtimes (`Fstree.Obtained.retrieved`). It
takes over the mtimes of the saved index where that has the same digest, and is checked out into
the workspace, which need not be empty (`Fstree.TreeCheckout`).

If the mtimes on record can be trusted, and those of files that are not on record are not 0, every
file has the digest of the tree afterwards (`Fstree.TreeCheckout.sum_eq`), and a scan looks as the
tree (`Fstree.TreeCheckout.looks`): the digests of the tree are those of a Merkle-consistent index
of the workspace (`Fstree.TreeCheckout.merkle`). And what is saved then records it
(`Fstree.TreeCheckout.records`).
-/

namespace Fstree

open Codec SortedBy Effect Transition

/-! ### How a tree is obtained -/

section Retrieved

variable {d₁ : Disk} {ignores₁ : Bytes → Bool} {root₁ : List Name} {s₁ : Scan d₁ ignores₁ root₁}
  {H : HashFunction} {S : Set Bytes} {hs : Hashes} {content : Bytes → Bytes} {st : Store}
  {index other l : List Inode}

theorem fetched_copyMetadata :
    Fetched s₁ hs content st (copyMetadata index other) ↔ Fetched s₁ hs content st index := by
  constructor
  · intro f
    exact ⟨by rw [← f.entries, map_entry_copyMetadata], f.objects⟩
  · intro f
    exact ⟨by rw [map_entry_copyMetadata, f.entries], f.objects⟩

/-- **The inodes of a tree that was written**, as they come without mtimes. -/
structure Retrieved (s₁ : Scan d₁ ignores₁ root₁) (hs : Hashes) (content : Bytes → Bytes)
    (st : Store) (l : List Inode) : Prop where
  read : Fetched s₁ hs content st (sortBy Inode.path l)
  mtime : ∀ i ∈ l, i.mtime = 0

/-- **How a tree gets to a checkout**: it is read from a cache that has all of it, or pulled into
some cache from a remote that has the right objects. -/
inductive Obtained (H : HashFunction) (S : Set Bytes) (s₁ : Scan d₁ ignores₁ root₁) (hs : Hashes) :
    Store → List Inode → Prop
  | read {st : Store} {sched : Schedule} {fuel : ℕ} {l : List Inode} (hst : ContentAddressed H st)
      (hhand : ∀ b ∈ s₁.index.atHand (d₁.contentAt root₁) st hs, b ∈ S)
      (hcache : InCache st (hs []) (s₁.inodes.map hs.apply))
      (hl : indexFromTree st sched fuel (hs []) = some (.ok l)) : Obtained H S s₁ hs st l
  | pull {st : Store} {remote : Digest → Bytes → Prop} {σ : PullState}
      (hst : ContentAddressed H st) (hin : ∀ k b, st k = some b → b ∈ S)
      (hremote : ∀ d b, remote d b → b = H.original S d ∧ H.sum b = d)
      (hrun : Reaches (PullStep remote) (PullState.start st (hs [])) σ)
      (hret : σ.main = .returned) : Obtained H S s₁ hs σ.store σ.inodes

/-- Records of trees have no mtime. -/
theorem mtime_of_reachable {truth : Digest → Bytes} {h : Digest} {ns : List Name} {r : Inode}
    (hr : Reachable truth h ns r) : r.mtime = 0 := by
  induction hr with
  | top mem _ => exact (readChild_of_mem_decodeTree mem).1
  | deeper _ _ _ _ ih => exact ih

/-- **However a tree is obtained, it is what was written.** -/
theorem Obtained.retrieved (h : Obtained H S s₁ hs st l) (hS : H.CollisionFree S)
    (w : s₁.index.Within H S (d₁.contentAt root₁) hs) :
    Retrieved s₁ hs (d₁.contentAt root₁) st l := by
  cases h with
  | @read _ sched fuel _ hst hhand hcache hl =>
    obtain ⟨levels, hread⟩ := w.merkle.exists_fetched w.encodable hst hS hhand hcache
    obtain ⟨l', hl', f⟩ := hread sched (max levels fuel) (le_max_left _ _)
    obtain rfl : l = l' := by
      have hmax := readLevels_of_le hl (le_max_right levels fuel)
      simpa [indexFromTree] using hmax.symm.trans hl'
    exact ⟨fetched_copyMetadata.mp (f []), fun i hi => (decoded_of_mem_indexFromTree hl hi).1⟩
  | @pull st remote σ hst hin hremote hrun hret =>
    have hcomplete : σ.Complete (H.original S) (hs []) :=
      PullState.complete_of_returned (w.merkleTree hS) (agrees_original hS hst hin) hremote hrun
        hret
    refine ⟨fetched_copyMetadata.mp (w.fetched hS hcomplete []), fun i hi => ?_⟩
    obtain ⟨ns, r, hr, rfl⟩ := (hcomplete.mem_iff i).mp hi
    change r.mtime = 0
    exact mtime_of_reachable hr

end Retrieved

/-! ### The saved index of a checkout -/

section Saved

variable {d d' : Disk} {ignores ignores' : Bytes → Bool} {root root' : List Name}
  {s : Scan d ignores root} {s' : Scan d' ignores' root'} {hs : Hashes} {is js out : List Inode}

/-- Scans that look alike have the same records, if their digests are the same. -/
theorem entries_eq_of_looks (h : s.inodes.map Inode.look = s'.inodes.map Inode.look) :
    (s.inodes.map hs.apply).map Inode.entry = (s'.inodes.map hs.apply).map Inode.entry := by
  have he := congrArg
    (List.map fun x : Bytes × FileStatus × Bytes => (⟨x.1, x.2.1, x.2.2, hs x.1⟩ : Entry)) h
  rw [List.map_map, List.map_map] at he
  rw [List.map_map, List.map_map]
  exact he

/-- What is saved of an inode that was read back is, but for the mtime, what its record says. -/
theorem ReadBack.saved {i j o : Inode} (h : ReadBack i o) (he : i.entry = j.entry) :
    ReadBack j.saved o.saved := by
  obtain ⟨t, rfl⟩ := h
  obtain ⟨hpath, hstatus, htarget, hhash⟩ := Inode.entry_eq_iff.mp he
  refine ⟨t, ?_⟩
  simp only [Inode.saved, Inode.isSymlink, hpath, hstatus, htarget, hhash]
  rfl

theorem forall₂_saved (he : is.map Inode.entry = js.map Inode.entry)
    (h : List.Forall₂ ReadBack is out) :
    List.Forall₂ ReadBack (js.map Inode.saved) (out.map Inode.saved) := by
  induction h generalizing js with
  | nil =>
    obtain rfl := List.map_eq_nil_iff.mp he.symm
    exact .nil
  | cons hio _ ih =>
    cases js with
    | nil => cases he
    | cons j js =>
      obtain ⟨hhead, htail⟩ := List.cons.inj he
      exact .cons (hio.saved hhead) (ih htail)

end Saved

/-! ### The run -/

/-- **A run of `checkout`** that returns, on the workspace `root` of a disk, with the bytes of the
saved index, if there is one, and the inodes of the tree. -/
structure TreeCheckout (os : OS) (st : Store) (d : Disk) (ignores : Bytes → Bool)
    (root : List Name) (file : Option Bytes) (l : List Inode) where
  scan : Scan d ignores root
  inodes : List Inode
  world : World
  returned : checkout os st root scan.inodes
    (copyMetadata (sortBy Inode.path l) (loadIndex [] file).1) ⟨d, []⟩ = .ok inodes world

namespace TreeCheckout

variable {os : OS} {st : Store} {d d₁ : Disk} {ignores ignores₁ : Bytes → Bool}
  {root root₁ : List Name} {file : Option Bytes} {l : List Inode}

/-- The inodes that are checked out: those of the tree, with the mtimes of the saved index. -/
def index (_ : TreeCheckout os st d ignores root file l) : List Inode :=
  copyMetadata (sortBy Inode.path l) (loadIndex [] file).1

/-- The disk afterwards. -/
def disk (c : TreeCheckout os st d ignores root file l) : Disk := c.world.disk

/-- The bytes `index::save` writes. -/
def saved (c : TreeCheckout os st d ignores root file l) : Bytes := saveIndex c.inodes

/-- **What a checkout trusts** without having looked: a file with the mtime 0 that is not on
record, that its scan has found enough, and that nothing is left behind a symlink. -/
structure Trusted (c : TreeCheckout os st d ignores root file l) (H : HashFunction) : Prop where
  zero : ZeroTrusted (fun _ => H.sum) root c.scan.inodes l (loadIndex [] file).1 d
  finds : FindsEnough c.scan c.index
  stale : ¬ StaleBehindLink c.scan.inodes c.index

section Right

variable {s₁ : Scan d₁ ignores₁ root₁} {H : HashFunction} {S : Set Bytes} {hs : Hashes}
  (c : TreeCheckout os st d ignores root file l)

theorem fetched (h : Retrieved s₁ hs (d₁.contentAt root₁) st l) :
    Fetched s₁ hs (d₁.contentAt root₁) st c.index :=
  fetched_copyMetadata.mpr h.read

theorem index_eq_map (h : Retrieved s₁ hs (d₁.contentAt root₁) st l)
    (hold : StrictBy Inode.path (loadIndex [] file).1) :
    c.index = (sortBy Inode.path l).map (withMtime (loadIndex [] file).1) :=
  copyMetadata_eq_map h.read.sorted hold

/-- **What it starts from.** Symlinks agree in their permissions, there and in the tree. -/
theorem ground (h : Retrieved s₁ hs (d₁.contentAt root₁) st l) (hd : d.Closed)
    (hplain : ∀ n ∈ root, n.Plain) (ht : c.Trusted H) : Ground c.scan c.index True where
  closed := hd
  plain := hplain
  order := (c.fetched h).inOrder
  hidden := ht.finds.hidden
  links _ t ht i hi _ hlink hlink' _ := by
    obtain ⟨ns, n, node, -, rfl⟩ := c.scan.mem_inodes.mp ht
    rw [(c.fetched h).perms hi hlink']
    exact Node.perms_of_isLink (Node.status_type_eq_symlink.mp (of_decide_eq_true hlink))

/-- **Where it ends.** -/
theorem landed (h : Retrieved s₁ hs (d₁.contentAt root₁) st l) (hd : d.Closed)
    (hplain : ∀ n ∈ root, n.Plain) (hsub : ∀ p, ignores₁ p = false → ignores p = false)
    (ht : c.Trusted H) : Landed c.scan c.index st c.disk where
  ground := c.ground h hd hplain ht
  finds := ht.finds
  visible _ hi _ hns := (c.fetched h).visible hsub hi hns
  inv := by
    have g := c.ground h hd hplain ht
    obtain ⟨w, ts, hinv, hcur, hrest⟩ := runsOut_of_checkout g rfl c.returned
    exact hinv.removeRest g ht.stale hcur hrest

variable (h : Retrieved s₁ hs (d₁.contentAt root₁) st l) (hland : Landed c.scan c.index st c.disk)
  (ht : c.Trusted H)
include h hland

/-- **A scan afterwards looks as the tree.** -/
theorem looks {s' : Scan c.disk ignores root} (hs' : s'.Complete) :
    s₁.inodes.map Inode.look = s'.inodes.map Inode.look :=
  (c.fetched h).looks.symm.trans ((c.fetched h).looks_scan hland hs').symm

section Files

variable (hold : StrictBy Inode.path (loadIndex [] file).1) {j : Inode} (hj : j ∈ s₁.inodes)
  (hf : j.isFile = true)
include hold hj

/-- What was made, or left alone, at a path of the tree. -/
theorem exists_stands : ∃ i ∈ l, ∃ ns m, i.look = j.look ∧ i.hash = hs j.path ∧
    j.path = pathStr ns ∧ c.disk.get (root ++ ns) = some m ∧
      (withMtime (loadIndex [] file).1 i).Stands c.scan st True m := by
  obtain ⟨i, hi, hlook⟩ := h.read.exists_read hj
  obtain ⟨hpath, -, -⟩ := Inode.look_eq_iff.mp hlook
  obtain ⟨-, -, -, hhash⟩ := h.read.exists_written hi
  obtain ⟨ns, hns⟩ := s₁.exists_names hj
  have hmem : withMtime (loadIndex [] file).1 i ∈ c.index := by
    rw [c.index_eq_map h hold]
    exact List.mem_map_of_mem hi
  obtain ⟨m, hm, hstands⟩ := hland.inv.made _ hmem nofun nofun ns
    (withMtime_path.trans (hpath.trans hns))
  obtain ⟨m₀, hget, rfl⟩ := Disk.get_of_view hm
  refine ⟨i, mem_sortBy.mp hi, ns, m₀, hlook, by rw [hhash, hpath], hns, hget, hstands.like ?_⟩
  exact ⟨by simp, by simp, by simp⟩

include hf

include ht in
/-- **The files have the digests of the tree.** -/
theorem sum_eq (hm : s₁.index.Merkle H (d₁.contentAt root₁) hs)
    (htruth : TruthfulMtimes (fun _ => H.sum) root (loadIndex [] file).1 d) :
    H.sum (d₁.contentAt root₁ j.path) = H.sum (c.disk.contentAt root j.path) := by
  have hobj : ObjectsRight (fun _ => H.sum) l st := by
    intro i hi hif content hcontent
    obtain ⟨k, hk, hlook, hhash⟩ := h.read.exists_written (mem_sortBy.mpr hi)
    obtain ⟨hpath, hstatus, -⟩ := Inode.look_eq_iff.mp hlook
    have hkf : k.isFile = true := by rwa [Inode.isFile, ← hstatus]
    rw [hhash, hpath, h.read.objects _ hk hkf] at hcontent
    rw [hhash, hpath, hm.file k hk hkf, ← Option.some.inj hcontent]
  obtain ⟨i, hi, ns, m, hlook, hhash, hns, hget, hstands⟩ := c.exists_stands h hland hold hj
  obtain ⟨hpath, hstatus, -⟩ := Inode.look_eq_iff.mp hlook
  have hsum := digest_of_stands_of_mtime h.mtime hold htruth hobj ht.zero hi
    (by rwa [Inode.isFile, hstatus]) (hpath.trans hns) hstands
  rw [← hm.file j hj hf, ← hhash, hns, Disk.contentAt_pathStr hget]
  exact hsum.symm

/-- **The files come from the tree or from the disk.** -/
theorem content_mem (hin : ∀ j ∈ s₁.inodes, j.isFile = true → d₁.contentAt root₁ j.path ∈ S)
    (hthere : ∀ ns perms t b, d.get (root ++ ns) = some (.file perms t b) → b ∈ S) :
    c.disk.contentAt root j.path ∈ S := by
  obtain ⟨i, hi, ns, m, hlook, hhash, hns, hget, hstands⟩ := c.exists_stands h hland hold hj
  obtain ⟨hpath, hstatus, -⟩ := Inode.look_eq_iff.mp hlook
  have hif : (withMtime (loadIndex [] file).1 i).isFile = true := by
    rwa [Inode.isFile, withMtime_status, hstatus]
  rw [hns, Disk.contentAt_pathStr hget]
  by_cases hu : Unwritten c.scan.inodes (withMtime (loadIndex [] file).1 i)
  · obtain ⟨perms, content, hfile, hcontent⟩ :=
      exists_file_of_unwritten hu (withMtime_path.trans (hpath.trans hns))
    rw [hstands.kept hif hu, hcontent]
    exact hthere ns perms _ content hfile
  · have hwritten := hstands.written hif hu
    rw [withMtime_hash, hhash, h.read.objects _ hj hf] at hwritten
    rw [← Option.some.inj hwritten]
    exact hin j hj hf

end Files

include ht in
/-- **The digests of the tree are right for what was checked out.** -/
theorem merkle (hold : StrictBy Inode.path (loadIndex [] file).1)
    (hm : s₁.index.Merkle H (d₁.contentAt root₁) hs)
    (htruth : TruthfulMtimes (fun _ => H.sum) root (loadIndex [] file).1 d)
    {s' : Scan c.disk ignores root} (hs' : s'.Complete) :
    s'.index.Merkle H (c.disk.contentAt root) hs :=
  hm.of_look_sum (c.looks h hland hs') fun _ hj hf => c.sum_eq h hland ht hold hj hf hm htruth

/-- The inodes that come back are those of the tree, with some mtimes. -/
theorem readBack : List.Forall₂ ReadBack c.index c.inodes :=
  readBack_of_checkout hland.ground (fun _ hi hl => (c.fetched h).perms hi hl) c.returned

/-- They can be saved and loaded. -/
theorem loadIndex_saved (hm : s₁.index.Merkle H (d₁.contentAt root₁) hs) (hd₁ : d₁.WellFormed) :
    (loadIndex [] (some c.saved)).1 = c.inodes.map Inode.saved := by
  rw [saved, (c.fetched h).loadIndex_saveIndex hm hd₁ (c.readBack h hland)]

include ht in
/-- **What is saved records what was checked out.** -/
theorem records (hold : StrictBy Inode.path (loadIndex [] file).1)
    (hm : s₁.index.Merkle H (d₁.contentAt root₁) hs) (hd₁ : d₁.WellFormed)
    (htruth : TruthfulMtimes (fun _ => H.sum) root (loadIndex [] file).1 d) :
    Records H ignores root c.disk (fun _ => false) (loadIndex [] (some c.saved)).1 := by
  let s' : Scan c.disk ignores root := .sequential _ _ _ hland.inv.isDir
  have hs' : s'.Complete := Scan.complete_sequential _
  refine ⟨⟨s', hs, c.merkle h hland ht hold hm htruth hs'⟩, rfl, ?_⟩
  have hentries : c.index.map Inode.entry = (s'.inodes.map hs.apply).map Inode.entry :=
    (c.fetched h).entries.trans (entries_eq_of_looks (c.looks h hland hs'))
  rw [c.loadIndex_saved h hland hm hd₁]
  exact forall₂_saved hentries (c.readBack h hland)

end Right

end TreeCheckout

end Fstree
