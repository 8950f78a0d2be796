import Fstree.Finish
import Fstree.IgnoreFile

/-!
# Checking out a tree and writing it again

A tree that was written without a saved index is checked out into an empty directory, and written
again. The tree that is read is the index that was written (`Fstree.Fetched`), so the scan of the
directory looks as the one it was written from (`Fstree.Fetched.looks`), and its files have the
same contents: the digests of the first run are those of a Merkle-consistent index of the second
scan (`Fstree.Fetched.merkle`).

The second run finds the index that the checkout has saved. The mtimes in it are those of the
moment an inode was made; the directories are younger by now. It is the index of a disk that
differs in its mtimes only (`Fstree.Disk.dated`), hence one whose digests may be reused
(`Fstree.Prior.truthful`), whatever they are compared with. There is one way to be
Merkle-consistent, so the digest of the root is the one that was checked out
(`Fstree.writeTree_checkout_writeTree`).
-/

namespace Fstree

open Codec SortedBy Effect Transition

/-! ### Disks with other mtimes -/

/-- The node, with this mtime. -/
def Node.dated (t : Time) : Node → Node
  | .file perms _ content => .file perms t content
  | .dir perms _ size => .dir perms t size
  | .symlink _ target => .symlink t target

/-- **Nodes that differ in their mtimes only.** -/
structure Node.Like (m m' : Node) : Prop where
  status : m'.status = m.status
  target : m'.target = m.target
  content : m'.content = m.content

theorem Node.like_dated (m : Node) (t : Time) : m.Like (m.dated t) := by
  cases m <;> exact ⟨rfl, rfl, rfl⟩

theorem Node.like_of_touched {m m' : Node} (h : m'.touched 0 = m.touched 0) : m.Like m' where
  status := by rw [← Node.status_touched (t := 0), h, Node.status_touched]
  target := by rw [← Node.target_touched (t := 0), h, Node.target_touched]
  content := by rw [← Node.content_touched (t := 0), h, Node.content_touched]

@[simp] theorem Node.mtime_dated (m : Node) (t : Time) : (m.dated t).mtime = t := by
  cases m <;> rfl

@[simp] theorem Node.isDir_dated (m : Node) (t : Time) : (m.dated t).isDir = m.isDir := by
  cases m <;> rfl

/-- **A disk with other mtimes.** -/
def Disk.dated (d : Disk) (times : List Name → Time) : Disk :=
  ⟨d.entries.map fun e => (e.1, e.2.dated (times e.1))⟩

section Dated

variable {d : Disk} {times : List Name → Time} {root : List Name}

theorem Disk.get_dated (p : List Name) :
    (d.dated times).get p = (d.get p).map (Node.dated (times p)) := by
  rw [Disk.get, Disk.get, Disk.dated, List.find?_map, Option.map_map, Option.map_map]
  have hfind : d.entries.find? ((fun e => decide (e.1 = p)) ∘ fun e =>
      (e.1, e.2.dated (times e.1))) = d.entries.find? fun e => decide (e.1 = p) := rfl
  rw [hfind]
  cases he : d.entries.find? fun e => decide (e.1 = p) with
  | none => rfl
  | some e =>
    have hp : e.1 = p := by simpa using List.find?_some he
    simp [hp]

theorem Disk.isDir_dated {p : List Name} : (d.dated times).IsDir p ↔ d.IsDir p := by
  simp only [Disk.IsDir, Disk.get_dated]
  constructor
  · rintro ⟨m, hm, hdir⟩
    obtain ⟨m₀, hm₀, rfl⟩ := Option.map_eq_some_iff.mp hm
    exact ⟨m₀, hm₀, by simpa using hdir⟩
  · rintro ⟨m, hm, hdir⟩
    exact ⟨_, by rw [hm, Option.map_some], by simpa using hdir⟩

theorem Disk.Closed.dated (hd : d.Closed) : (d.dated times).Closed where
  root := Disk.isDir_dated.mpr hd.root
  parent p n h := Disk.isDir_dated.mpr (hd.parent p n fun hnone => h (by
    rw [Disk.get_dated, hnone]
    rfl))

/-- **Entries whose mtimes have changed have not changed otherwise.** -/
theorem unchanged_dated : Unchanged (d.dated times) d root := by
  intro ns n₀ n h₀ h _ _ _
  rw [Disk.get_dated, h] at h₀
  obtain rfl := Option.some.inj h₀
  refine ⟨(n.like_dated _).content, fun _ m => ?_⟩
  rw [Disk.get_dated, Option.map_eq_none_iff]

end Dated

/-! ### Indexes that look alike -/

/-- What `lstat` and `readlink` say, but for the times and sizes. -/
def Inode.look (i : Inode) : Bytes × FileStatus × Bytes := (i.path, i.status, i.target)

theorem Inode.look_eq_iff {i j : Inode} :
    i.look = j.look ↔ i.path = j.path ∧ i.status = j.status ∧ i.target = j.target := by
  simp [Inode.look]

namespace Index

variable {L L' : Index} {H : HashFunction} {content content' : Bytes → Bytes} {hs : Hashes}

/-- Inodes with one path have one parent. -/
theorem parent_eq_of_path_eq {i j : Inode} (hi : i ∈ L.inodes) (hj : j ∈ L'.inodes)
    (h : i.path = j.path) : i.parent = j.parent := by
  obtain ⟨ns, n, hp, hparent⟩ := L.named i hi
  obtain ⟨ms, m, hp', hparent'⟩ := L'.named j hj
  obtain ⟨rfl, -⟩ := pathStr_concat_inj.mp (hp.symm.trans (h.trans hp'))
  rw [hparent, hparent']

/-- **Indexes that look alike have the same tree objects**, if their digests are the same. -/
theorem tree_eq_of_look (h : L.inodes.map Inode.look = L'.inodes.map Inode.look) (p : Bytes) :
    L.tree hs p = L'.tree hs p := by
  have hmem : ∀ {L L' : Index}, L.inodes.map Inode.look = L'.inodes.map Inode.look → ∀ e,
      (∃ c ∈ L.inodes, c.parent = some p ∧ (hs.apply c).entry = e) →
      ∃ c ∈ L'.inodes, c.parent = some p ∧ (hs.apply c).entry = e := by
    rintro L L' h e ⟨c, hc, hp, rfl⟩
    have hlook : c.look ∈ L'.inodes.map Inode.look := h ▸ List.mem_map_of_mem hc
    obtain ⟨c', hc', he⟩ := List.mem_map.mp hlook
    obtain ⟨hpath, hstatus, htarget⟩ := Inode.look_eq_iff.mp he
    refine ⟨c', hc', (parent_eq_of_path_eq hc' hc hpath).trans hp, ?_⟩
    exact Inode.entry_eq_iff.mpr ⟨hpath, hstatus, htarget, congrArg hs hpath⟩
  exact L.tree_eq_of_entries fun e => ⟨hmem h e, hmem h.symm e⟩

/-- **Merkle consistency is a matter of how an index looks**, and of the digests of the contents. -/
theorem Merkle.of_look_sum (hm : L.Merkle H content hs)
    (h : L.inodes.map Inode.look = L'.inodes.map Inode.look)
    (hcontent : ∀ i ∈ L.inodes, i.isFile = true →
      H.sum (content i.path) = H.sum (content' i.path)) :
    L'.Merkle H content' hs := by
  have hex : ∀ i ∈ L'.inodes, ∃ j ∈ L.inodes, j.path = i.path ∧ j.status = i.status := by
    intro i hi
    have hlook : i.look ∈ L.inodes.map Inode.look := h ▸ List.mem_map_of_mem hi
    obtain ⟨j, hj, he⟩ := List.mem_map.mp hlook
    obtain ⟨hpath, hstatus, -⟩ := Inode.look_eq_iff.mp he
    exact ⟨j, hj, hpath, hstatus⟩
  refine ⟨fun i hi hf => ?_, fun i hi hd => ?_, fun i hi hf hd => ?_, ?_⟩
  · obtain ⟨j, hj, hpath, hstatus⟩ := hex i hi
    have hjf : j.isFile = true := by rwa [Inode.isFile, hstatus]
    rw [← hpath, hm.file j hj hjf, hcontent j hj hjf]
  · obtain ⟨j, hj, hpath, hstatus⟩ := hex i hi
    rw [← tree_eq_of_look h, ← hpath]
    exact hm.dir j hj (by rwa [Inode.isDirectory, hstatus])
  · obtain ⟨j, hj, hpath, hstatus⟩ := hex i hi
    rw [← hpath]
    exact hm.other j hj (by rwa [Inode.isFile, hstatus]) (by rwa [Inode.isDirectory, hstatus])
  · rw [← tree_eq_of_look h]
    exact hm.root

theorem Merkle.of_look (hm : L.Merkle H content hs)
    (h : L.inodes.map Inode.look = L'.inodes.map Inode.look)
    (hcontent : ∀ i ∈ L.inodes, i.isFile = true → content i.path = content' i.path) :
    L'.Merkle H content' hs :=
  hm.of_look_sum h fun i hi hf => congrArg H.sum (hcontent i hi hf)

end Index

/-! ### What is read from the cache -/

section Fetched

variable {d₁ : Disk} {ignores₁ : Bytes → Bool} {root₁ : List Name} {s₁ : Scan d₁ ignores₁ root₁}
  {H : HashFunction} {hs : Hashes} {content : Bytes → Bytes} {st : Store} {index : List Inode}
  {i : Inode}

/-- **An index that was read** is the one that was written, with the objects of its files in the
cache. -/
structure Fetched (s₁ : Scan d₁ ignores₁ root₁) (hs : Hashes) (content : Bytes → Bytes) (st : Store)
    (index : List Inode) : Prop where
  entries : index.map Inode.entry = (s₁.inodes.map hs.apply).map Inode.entry
  objects : ∀ i ∈ s₁.inodes, i.isFile = true →
    st (filePath (hs i.path)) = some (content i.path)

namespace Fetched

variable (f : Fetched s₁ hs content st index)
include f

/-- What was read looks as what was written. -/
theorem looks : index.map Inode.look = s₁.inodes.map Inode.look := by
  have h := congrArg (List.map fun e : Entry => (e.path, e.status, e.target)) f.entries
  rw [List.map_map, List.map_map, List.map_map] at h
  exact h

theorem exists_written (hi : i ∈ index) :
    ∃ j ∈ s₁.inodes, i.look = j.look ∧ i.hash = hs i.path := by
  have hmem : i.entry ∈ (s₁.inodes.map hs.apply).map Inode.entry :=
    f.entries ▸ List.mem_map_of_mem hi
  obtain ⟨_, hj', he⟩ := List.mem_map.mp hmem
  obtain ⟨j, hj, rfl⟩ := List.mem_map.mp hj'
  obtain ⟨hpath, hstatus, htarget, hhash⟩ := Inode.entry_eq_iff.mp he
  refine ⟨j, hj, Inode.look_eq_iff.mpr ⟨hpath.symm, hstatus.symm, htarget.symm⟩, ?_⟩
  rw [← hhash, ← hpath]
  rfl

theorem exists_read {j : Inode} (hj : j ∈ s₁.inodes) : ∃ i ∈ index, i.look = j.look := by
  have hmem : j.look ∈ index.map Inode.look := f.looks ▸ List.mem_map_of_mem hj
  exact List.mem_map.mp hmem

theorem sorted : StrictBy Inode.path index := by
  have h := congrArg (List.map Prod.fst) f.looks
  rw [List.map_map, List.map_map] at h
  have hs : (s₁.inodes.map Inode.path).Pairwise (· < ·) :=
    List.pairwise_map.mpr s₁.strictBy_inodes
  exact List.pairwise_map.mp ((show index.map Inode.path = _ from h) ▸ hs)

/-- Its paths can be seen under any rules that ignore no more. -/
theorem visible {ignores : Bytes → Bool} (hsub : ∀ p, ignores₁ p = false → ignores p = false)
    (hi : i ∈ index) {ns : List Name} (hp : i.path = pathStr ns) : Visible ignores ns := by
  obtain ⟨j, hj, hlook, -⟩ := f.exists_written hi
  obtain ⟨hpath, -⟩ := Inode.look_eq_iff.mp hlook
  obtain ⟨hv, -⟩ := s₁.exists_node hj (hpath.symm.trans hp)
  exact ⟨hv.ne_nil, hv.reserved, fun ks ls he hk => hsub _ (hv.ignored ks ls he hk)⟩

/-- **The index is in order.** -/
theorem inOrder : InOrder index where
  sorted := f.sorted
  clean i hi := by
    obtain ⟨j, hj, hlook, -⟩ := f.exists_written hi
    obtain ⟨hpath, -⟩ := Inode.look_eq_iff.mp hlook
    obtain ⟨ns, hns⟩ := s₁.exists_names hj
    obtain ⟨hv, -⟩ := s₁.exists_node hj hns
    exact ⟨ns, hpath.trans hns, hv.ne_nil, hv.plain⟩
  parent i hi ns n hp := by
    obtain ⟨j, hj, hlook, -⟩ := f.exists_written hi
    obtain ⟨hpath, -⟩ := Inode.look_eq_iff.mp hlook
    by_cases hns : ns = []
    · exact Or.inl hns
    · obtain ⟨t, ht, htp, htd⟩ :=
        s₁.exists_above hj (hpath.symm.trans hp) hns (List.cons_ne_nil n [])
      obtain ⟨k, hk, hlook'⟩ := f.exists_read ht
      obtain ⟨hkp, hks, -⟩ := Inode.look_eq_iff.mp hlook'
      exact Or.inr ⟨k, hk, hkp.trans htp, by rwa [Inode.isDirectory, hks]⟩

/-- Symlinks have the permissions of symlinks. -/
theorem perms (hi : i ∈ index) (hl : i.isSymlink = true) : i.status.perms = Node.symlinkPerms := by
  obtain ⟨j, hj, hlook, -⟩ := f.exists_written hi
  obtain ⟨-, hstatus, -⟩ := Inode.look_eq_iff.mp hlook
  obtain ⟨ns, n, node, -, rfl⟩ := s₁.mem_inodes.mp hj
  have hnode : i.status = node.status := hstatus
  rw [Inode.isSymlink, hnode, decide_eq_true_eq] at hl
  rw [hnode, Node.perms_of_isLink (Node.status_type_eq_symlink.mp hl)]

/-- **Everything that was read can be made**, if the symlinks have targets. -/
theorem available (hlinks : ∀ j ∈ s₁.inodes, j.isSymlink = true → j.target ≠ []) (hi : i ∈ index) :
    Available st i := by
  obtain ⟨j, hj, hlook, hhash⟩ := f.exists_written hi
  obtain ⟨hpath, hstatus, htarget⟩ := Inode.look_eq_iff.mp hlook
  refine ⟨?_, fun hl => ?_, f.perms hi, fun hf => ?_⟩
  · obtain ⟨ns, n, node, -, rfl⟩ := s₁.mem_inodes.mp hj
    rw [hstatus, scanned]
    cases node <;> exact nofun
  · rw [htarget]
    exact hlinks j hj (by rwa [Inode.isSymlink, ← hstatus])
  · rw [hhash, hpath, f.objects j hj (by rwa [Inode.isFile, ← hstatus])]
    rfl

end Fetched

end Fetched

/-! ### What was checked out -/

section CheckedOut

variable {d₀ d d' : Disk} {ignores : Bytes → Bool} {root : List Name} {s : Scan d₀ ignores root}
  {st : Store} {index : List Inode} {exact : Prop} {i : Inode}

theorem Inode.Stands.like {m m' : Node} (h : i.Stands s st exact m) (hm : m.Like m') :
    i.Stands s st exact m' := by
  have hlink : m'.isLink = true ↔ m.isLink = true := by
    rw [← Node.status_type_eq_symlink, hm.status, Node.status_type_eq_symlink]
  refine ⟨by rw [hm.status, h.type], fun he hl => ?_, fun hl => ?_, fun hf hu => ?_,
    fun hf hu => ?_⟩
  · rw [hm.status]
    exact h.perms he (by simpa [hl] using hlink)
  · rw [hm.target]
    exact h.target (hlink.mp hl)
  · rw [hm.content, h.kept hf hu]
  · rw [hm.content, h.written hf hu]

/-- **What a checkout has left is settled by what can be seen**, mtimes apart. -/
theorem CheckoutInv.like (h : CheckoutInv s index st exact d [] [] [])
    (hv : ∀ i ∈ index, ∀ ns, i.path = pathStr ns → Visible ignores ns)
    (hc : d'.Closed) (hroot : d'.IsDir root)
    (hlike : ∀ ns, Visible ignores ns →
      Option.Rel Node.Like (d.get (root ++ ns)) (d'.get (root ++ ns))) :
    CheckoutInv s index st exact d' [] [] [] where
  closed := hc
  isDir := hroot
  passed := nofun
  made i hi _ _ ns hns := by
    obtain ⟨m, hm, hstands⟩ := h.made i hi nofun nofun ns hns
    obtain ⟨m₀, hget, rfl⟩ := Disk.get_of_view hm
    have hrel := hlike ns (hv i hi ns hns)
    rw [hget] at hrel
    obtain ⟨m₁, hget', hl⟩ : ∃ m₁, d'.get (root ++ ns) = some m₁ ∧ m₀.Like m₁ := by
      cases hget' : d'.get (root ++ ns) with
      | none =>
        rw [hget'] at hrel
        cases hrel
      | some m₁ =>
        rw [hget'] at hrel
        cases hrel with
        | some hl => exact ⟨m₁, rfl, hl⟩
    refine ⟨_, Disk.view_of_get hget', hstands.like ⟨?_, ?_, ?_⟩⟩
    · simpa using hl.status
    · simpa using hl.target
    · simpa using hl.content
  here := nofun
  free := nofun
  kept := nofun
  seen ns hv hne := by
    refine h.seen ns hv fun hnone => hne ?_
    have hrel := hlike ns hv
    rw [Disk.view_eq_none.mp hnone] at hrel
    rw [Disk.view_eq_none]
    cases hget' : d'.get (root ++ ns) with
    | none => rfl
    | some m₁ =>
      rw [hget'] at hrel
      cases hrel

/-- A scan of an empty directory has found enough. -/
theorem Scan.findsEnough_of_empty (s : Scan d₀ ignores root) (hd : d₀.Closed)
    (hempty : d₀.readdir root = []) (hx : InOrder index) : FindsEnough s index where
  hidden := s.hiddenHarmless_of_empty hd hempty hx
  passed _ hv hover := absurd (hd.nothing_below_empty hempty hv.ne_nil) hover.1

/-- **A checkout has come to its end**, on the disk `d`, with all paths of the index in view. -/
structure Landed (s : Scan d₀ ignores root) (index : List Inode) (st : Store) (d : Disk) :
    Prop where
  ground : Ground s index True
  finds : FindsEnough s index
  visible : ∀ i ∈ index, ∀ ns, i.path = pathStr ns → Visible ignores ns
  inv : CheckoutInv s index st True d [] [] []

/-- A complete scan afterwards misses nothing of the index. -/
theorem Landed.not_misses (h : Landed s index st d) {s' : Scan d ignores root}
    (hs : s'.Complete) : ¬ Misses root index s'.lost := by
  rintro ⟨i, hi, ns, hns, hlost⟩
  obtain ⟨m, hm, -⟩ := h.inv.made i hi nofun nofun ns hns
  rw [hs _ fun hnone => by rw [Disk.view_eq_none.mpr hnone] at hm; cases hm] at hlost
  cases hlost

namespace Fetched

variable {d₁ : Disk} {ignores₁ : Bytes → Bool} {root₁ : List Name} {s₁ : Scan d₁ ignores₁ root₁}
  {H : HashFunction} {hs : Hashes} {content : Bytes → Bytes} {out : List Inode}

/-- **A scan of what was checked out** looks as the index. -/
theorem looks_scan (f : Fetched s₁ hs content st index) (h : Landed s index st d)
    {s' : Scan d ignores root} (hs' : s'.Complete) :
    s'.inodes.map Inode.look = index.map Inode.look := by
  have hrep := h.inv.reproduces h.ground h.finds h.visible s' (h.not_misses hs')
  have hlen : s'.inodes.length = index.length := by simpa using congrArg List.length hrep.paths
  refine List.ext_getElem (by simpa using hlen) fun k hk hk' => ?_
  rw [List.length_map] at hk hk'
  have hpath : s'.inodes[k].path = index[k].path := by
    have hp := List.getElem_of_eq hrep.paths (by simpa using hk)
    simpa using hp
  have ht : s'.inodes[k] ∈ s'.inodes := List.getElem_mem hk
  have hi : index[k] ∈ index := List.getElem_mem hk'
  rw [List.getElem_map, List.getElem_map]
  generalize s'.inodes[k] = t at hpath ht ⊢
  generalize index[k] = i at hpath hi ⊢
  obtain ⟨htype, htarget, hperms⟩ := hrep.same t ht i hi hpath
  refine Inode.look_eq_iff.mpr ⟨hpath, FileStatus.ext htype ?_, ?_⟩
  · cases hl : i.isSymlink with
    | false => exact hperms hl
    | true =>
      obtain ⟨ns, n, node, -, rfl⟩ := s'.mem_inodes.mp ht
      rw [f.perms hi hl]
      refine Node.perms_of_isLink (Node.status_type_eq_symlink.mp ?_)
      exact htype.trans (of_decide_eq_true hl)
  · cases hl : i.isSymlink with
    | true => exact htarget hl
    | false =>
      obtain ⟨j, hj, hlook, -⟩ := f.exists_written hi
      obtain ⟨-, hstatus, htj⟩ := Inode.look_eq_iff.mp hlook
      rw [s'.index.target_nil t ht (by rw [Inode.isSymlink, htype]; exact hl), htj,
        s₁.index.target_nil j hj (by rw [Inode.isSymlink, ← hstatus]; exact hl)]

/-- **The files that were checked out** have the contents that were written. -/
theorem content_eq (f : Fetched s₁ hs content st index) (hnil : s.inodes = [])
    (h : Landed s index st d) {j : Inode} (hj : j ∈ s₁.inodes) (hf : j.isFile = true) :
    content j.path = d.contentAt root j.path := by
  obtain ⟨i, hi, hlook⟩ := f.exists_read hj
  obtain ⟨hpath, hstatus, -⟩ := Inode.look_eq_iff.mp hlook
  obtain ⟨-, -, -, hhash⟩ := f.exists_written hi
  obtain ⟨ns, hns⟩ := s₁.exists_names hj
  obtain ⟨m, hm, hstands⟩ := h.inv.made i hi nofun nofun ns (hpath.trans hns)
  obtain ⟨m₀, hget, rfl⟩ := Disk.get_of_view hm
  have hwritten := hstands.written (by rwa [Inode.isFile, hstatus]) (by
    rintro ⟨-, t, ht, -⟩
    rw [hnil] at ht
    cases ht)
  rw [hhash, hpath, f.objects j hj hf, Node.content_touched] at hwritten
  rw [hns, Disk.contentAt_pathStr hget, ← hns]
  exact Option.some.inj hwritten

/-- **The digests of the first run** are right for what was checked out. -/
theorem merkle (f : Fetched s₁ hs content st index) (hm : s₁.index.Merkle H content hs)
    (hnil : s.inodes = []) (h : Landed s index st d) {s' : Scan d ignores root}
    (hs' : s'.Complete) :
    s'.index.Merkle H (d.contentAt root) hs :=
  hm.of_look (f.looks.symm.trans (f.looks_scan h hs').symm) fun _ hj hf =>
    f.content_eq hnil h hj hf

/-- The inodes that come back from a checkout. -/
theorem path_of_made (hout : List.Forall₂ (fun i o => ∃ t, o = { i with mtime := t }) index out) :
    out.map Inode.path = index.map Inode.path := by
  induction hout with
  | nil => rfl
  | cons h _ ih =>
    obtain ⟨t, rfl⟩ := h
    rw [List.map_cons, List.map_cons, ih]

/-- With other mtimes the disk is still checked out. -/
theorem landed_dated (h : Landed s index st d) (times : List Name → Time) :
    Landed s index st (d.dated times) := by
  refine ⟨h.ground, h.finds, h.visible, ?_⟩
  refine h.inv.like h.visible h.inv.closed.dated (Disk.isDir_dated.mpr h.inv.isDir) fun ns _ => ?_
  rw [Disk.get_dated]
  cases d.get (root ++ ns) with
  | none => exact .none
  | some m => exact .some (m.like_dated _)

/-- **The saved index is that of a disk with other mtimes**: those that the index records. -/
theorem exists_prior (f : Fetched s₁ hs content st index) (hm : s₁.index.Merkle H content hs)
    (hnil : s.inodes = []) (h : Landed s index st d)
    (hout : List.Forall₂ (fun i o => ∃ t, o = { i with mtime := t }) index out) :
    ∃ times, ∃ prior : Prior H (d.dated times) ignores root, prior.scan.Complete ∧
      prior.old = out.map Inode.saved := by
  have hpaths := path_of_made hout
  have hsorted : StrictBy Inode.path out := by
    have hs : (index.map Inode.path).Pairwise (· < ·) := List.pairwise_map.mpr f.sorted
    exact List.pairwise_map.mp (hpaths ▸ hs)
  let times : List Name → Time := fun q =>
    ((lookup Inode.path (pathStr (q.drop root.length)) out).map Inode.mtime).getD 0
  have hdir : (d.dated times).IsDir root := Disk.isDir_dated.mpr h.inv.isDir
  have h' : Landed s index st (d.dated times) := landed_dated h times
  let s' : Scan (d.dated times) ignores root := .sequential _ _ _ hdir
  have hs' : s'.Complete := Scan.complete_sequential hdir
  refine ⟨times, ⟨s', hs, f.merkle hm hnil h' hs'⟩, hs', ?_⟩
  have hlooks := f.looks_scan h' hs'
  have hlen : s'.inodes.length = index.length := by simpa using congrArg List.length hlooks
  have hlen' : index.length = out.length := hout.length_eq
  change (s'.inodes.map hs.apply).map Inode.saved = _
  refine List.ext_getElem (by simp [hlen, hlen']) fun k hk hk' => ?_
  rw [List.length_map] at hk'
  rw [List.length_map, List.length_map] at hk
  have hki : k < index.length := by omega
  obtain ⟨time, ho⟩ := hout.get hki hk'
  have hlook : s'.inodes[k].look = index[k].look := by
    have hl := List.getElem_of_eq hlooks (by simpa using hk)
    simpa using hl
  have ht : s'.inodes[k] ∈ s'.inodes := List.getElem_mem hk
  have hi : index[k] ∈ index := List.getElem_mem hki
  have hmem : out[k] ∈ out := List.getElem_mem hk'
  simp only [List.getElem_map]
  simp only [List.get_eq_getElem] at ho
  generalize s'.inodes[k] = t at hlook ht ⊢
  generalize index[k] = i at hlook ho hi
  generalize out[k] = o at ho hmem ⊢
  obtain ⟨hpath, hstatus, htarget⟩ := Inode.look_eq_iff.mp hlook
  obtain ⟨-, -, -, hhash⟩ := f.exists_written hi
  -- the mtime on that disk is the one that was recorded
  have hmtime : t.mtime = o.mtime := by
    obtain ⟨ns, hns⟩ := s'.exists_names ht
    obtain ⟨-, node, hget, -, hnode, -⟩ := s'.exists_node ht hns
    rw [Disk.get_dated] at hget
    obtain ⟨m, -, rfl⟩ := Option.map_eq_some_iff.mp hget
    have hop : o.path = pathStr ns := by rw [ho, ← hns, hpath]
    rw [hnode, Node.mtime_dated]
    simp only [times, List.drop_left, hsorted.lookup_eq_some_iff.mpr ⟨hmem, hop⟩, Option.map_some,
      Option.getD_some]
  have hsym : (hs.apply t).isSymlink = o.isSymlink := by
    rw [ho, Inode.isSymlink, Inode.isSymlink, ← hstatus]
    rfl
  have hpath' : (hs.apply t).path = o.path := by rw [ho, ← hpath]; rfl
  have hhash' : (hs.apply t).hash = o.hash := by rw [ho, Hashes.apply_hash, hpath, hhash]
  have hstatus' : (hs.apply t).status = o.status := by rw [ho, ← hstatus]; rfl
  have htarget' : (hs.apply t).target = o.target := by rw [ho, ← htarget]; rfl
  have hmtime' : (hs.apply t).mtime = o.mtime := hmtime
  rw [Inode.saved, Inode.saved, hpath', hhash', hstatus', hmtime', hsym, htarget']

/-- **The second run** on the saved index gives the digest of the first. -/
theorem digest_eq (f : Fetched s₁ hs content st index) (hm : s₁.index.Merkle H content hs)
    (hnil : s.inodes = []) (h : Landed s index st d)
    (hout : List.Forall₂ (fun i o => ∃ t, o = { i with mtime := t }) index out)
    {file : Option Bytes} (hfile : (loadIndex [] file).1 = out.map Inode.saved) {st₂ : Store}
    (w : WriteTree H d ignores root file st₂) (hw : w.Whole) (hscan : w.scan.Complete) :
    w.digest = hs [] := by
  obtain ⟨times, prior, hprior, hold⟩ := f.exists_prior hm hnil h hout
  have ht := prior.truthful unchanged_dated w.scan (hprior.seesAlike hscan) st₂
  have hbefore : w.before = refresh H w.scan prior.old := by rw [WriteTree.before, hfile, hold]
  rw [← hbefore] at ht
  exact ((ht.merkle w.added hw).unique (f.merkle hm hnil h hscan)).2

/-- The inodes that come back can be saved and loaded. -/
theorem loadIndex_saveIndex (f : Fetched s₁ hs content st index)
    (hm : s₁.index.Merkle H content hs) (hd₁ : d₁.WellFormed)
    (hout : List.Forall₂ (fun i o => ∃ t, o = { i with mtime := t }) index out) :
    loadIndex [] (some (saveIndex out)) = (out.map Inode.saved, none) := by
  refine Fstree.loadIndex_saveIndex (fun o ho => ?_) []
  obtain ⟨k, hk, rfl⟩ := List.mem_iff_getElem.mp ho
  have hki : k < index.length := by rw [hout.length_eq]; exact hk
  obtain ⟨t, he⟩ := hout.get hki hk
  simp only [List.get_eq_getElem] at he
  have hi : index[k] ∈ index := List.getElem_mem hki
  rw [he]
  generalize index[k] = i at hi
  obtain ⟨j, hj, hlook, hhash⟩ := f.exists_written hi
  obtain ⟨hpath, -, htarget⟩ := Inode.look_eq_iff.mp hlook
  obtain ⟨hp, -, ht⟩ := Scan.lengths hd₁ hj
  refine ⟨?_, by rwa [← hpath] at hp, by rwa [← htarget] at ht⟩
  change i.hash.WellFormed
  rw [hhash, hpath]
  exact hm.wellFormed hj

end Fetched

end CheckedOut

/-! ### The ignore file -/

section Ignore

variable {d₁ : Disk} {ignores₁ : Bytes → Bool} {root₁ : List Name} {s₁ : Scan d₁ ignores₁ root₁}
  {hs : Hashes} {st : Store} {index : List Inode} {regex : RegexEngine}

/-- **The ignore file of the tree, if there is one, is that of the run**: a file, and what it is
compiled to is what was ignored. -/
def IgnoreFile (regex : RegexEngine) (d₁ : Disk) (lost₁ : List Name → Bool)
    (ignores₁ : Bytes → Bool) (root₁ : List Name) : Prop :=
  ∀ node, Listed d₁ lost₁ ignores₁ root₁ [ignoreName] node →
    ∃ perms t bs, node = .file perms t bs ∧ loadGlobs regex bs = .ok ignores₁

/-- **The ignore file of the workspace is in the index**, with its object. -/
theorem Fetched.exists_ignoreFile (f : Fetched s₁ hs (d₁.contentAt root₁) st index)
    {perms : Fin 512} {t : Time} {bs : Bytes}
    (hl : Listed d₁ s₁.lost ignores₁ root₁ [ignoreName] (.file perms t bs)) :
    ∃ i ∈ index, i.path = pathStr [ignoreName] ∧ i.isFile = true ∧
      st (filePath i.hash) = some bs := by
  obtain ⟨j, hj, hjp, hjn⟩ := s₁.exists_inode hl
  have hjf : j.isFile = true := by rw [Inode.isFile, hjn]; rfl
  have hbs : d₁.contentAt root₁ j.path = bs := by
    rw [hjp, Disk.contentAt_pathStr hl.get]
    rfl
  obtain ⟨i, hi, hlook⟩ := f.exists_read hj
  obtain ⟨hpath, hstatus, -⟩ := Inode.look_eq_iff.mp hlook
  obtain ⟨-, -, -, hhash⟩ := f.exists_written hi
  refine ⟨i, hi, hpath.trans hjp, by rwa [Inode.isFile, hstatus], ?_⟩
  rw [hhash, hpath, f.objects j hj hjf, hbs]

/-- **What is checked out is ignored as before or not at all**, and the next `write-tree` ignores
as the checkout did. -/
theorem Fetched.exists_ignores (f : Fetched s₁ hs (d₁.contentAt root₁) st index)
    (hfile : IgnoreFile regex d₁ s₁.lost ignores₁ root₁) :
    ∃ ignores, loadIgnoreFromIndex regex st index = .ok ignores ∧
      (∀ p, ignores₁ p = false → ignores p = false) ∧
      ∀ {d₀ d : Disk} {root : List Name} {s : Scan d₀ ignores root}, s.inodes = [] →
        Landed s index st d → readIgnore regex d root = ignores := by
  by_cases hex : ∃ node, Listed d₁ s₁.lost ignores₁ root₁ [ignoreName] node
  · obtain ⟨node, hl⟩ := hex
    obtain ⟨perms, t, bs, rfl, hload⟩ := hfile node hl
    obtain ⟨i, hi, hpath, hif, hobj⟩ := f.exists_ignoreFile hl
    refine ⟨ignores₁, ?_, fun _ h => h, fun {d₀ d root s} hnil h => ?_⟩
    · rw [loadIgnoreFromIndex_of_mem f.sorted hi hpath hif hobj, hload]
    · obtain ⟨m, hm, hstands⟩ := h.inv.made i hi List.not_mem_nil List.not_mem_nil _ hpath
      obtain ⟨m₀, hget', rfl⟩ := Disk.get_of_view hm
      have hwritten := hstands.written hif (by
        rintro ⟨-, t, ht, -⟩
        rw [hnil] at ht
        cases ht)
      rw [hobj, Node.content_touched] at hwritten
      have htype : m₀.status.type = .regular := by
        rw [← Node.status_touched (t := 0), hstands.type]
        exact of_decide_eq_true hif
      have hs : Straight d root ignoreName :=
        ⟨h.inv.closed, h.ground.plain, by decide, h.inv.isDir⟩
      cases m₀ with
      | file perms' t' content =>
        obtain rfl : bs = content := Option.some.inj hwritten
        exact readIgnore_of_file hs hget' hload
      | dir perms' t' size => cases htype
      | symlink t' target => cases htype
  · have hno : ∀ i ∈ index, i.path ≠ pathStr [ignoreName] := by
      intro i hi hp
      obtain ⟨j, hj, hlook, -⟩ := f.exists_written hi
      obtain ⟨hpath, -⟩ := Inode.look_eq_iff.mp hlook
      obtain ⟨node, hl, -⟩ := s₁.exists_listed hj (hpath.symm.trans hp)
      exact hex ⟨node, hl⟩
    refine ⟨fun _ => false, ?_, fun _ _ => rfl, fun {d₀ d root s} hnil h => ?_⟩
    · refine loadIgnoreFromIndex_of_not_mem (fun i hi => ?_) hno
      obtain ⟨ns, hns, hne, -⟩ := f.inOrder.clean i hi
      exact ⟨ns, hne, hns⟩
    · have hs : Straight d root ignoreName :=
        ⟨h.inv.closed, h.ground.plain, by decide, h.inv.isDir⟩
      refine readIgnore_of_none hs (Disk.view_eq_none.mp ?_)
      by_contra hne
      have hv : Visible (fun _ => false) [ignoreName] := ⟨by simp, by decide, fun _ _ _ _ => rfl⟩
      rcases h.inv.seen [ignoreName] hv hne with ⟨i, hi, -, hp⟩ | ⟨t, ht, -⟩ | hover
      · exact hno i hi hp
      · cases ht
      · obtain ⟨i, hi, hp⟩ := h.finds.passed [ignoreName] hv hover
        exact hno i hi hp

end Ignore

/-! ### The identity -/

/-- **The objects of a tree are all in the cache.** -/
structure InCache (st : Store) (digest : Digest) (inodes : List Inode) : Prop where
  root : st.hasTree digest = true
  dirs : ∀ i ∈ inodes, i.isDirectory = true → st.hasTree i.hash = true
  files : ∀ i ∈ inodes, i.isFile = true → st.hasObject i.hash = true

section Identity

variable {H : HashFunction} {S : Set Bytes} {d₁ d : Disk} {ignores₁ : Bytes → Bool}
  {root₁ root : List Name} {st₀ st : Store} {os : OS} {regex : RegexEngine}

/-- **What was written is read** from a cache that holds all of it. -/
theorem Index.Merkle.exists_fetched {s₁ : Scan d₁ ignores₁ root₁} {hs : Hashes}
    {content : Bytes → Bytes} (hm : s₁.index.Merkle H content hs)
    (henc : s₁.index.Encodable hs) (hst : ContentAddressed H st) (hS : H.CollisionFree S)
    (hhand : ∀ b ∈ s₁.index.atHand content st hs, b ∈ S)
    (hcache : InCache st (hs []) (s₁.inodes.map hs.apply)) :
    ∃ levels, ∀ sched : Schedule, ∀ fuel ≥ levels, ∃ l,
      indexFromTree st sched fuel (hs []) = some (.ok l) ∧ ∀ other,
        Fetched s₁ hs content st (copyMetadata (sortBy Inode.path l) other) := by
  have hdirs : ∀ i ∈ s₁.index.inodes, i.isDirectory = true → st.hasTree (hs i.path) = true :=
    fun i hi hd => hcache.dirs _ (List.mem_map_of_mem hi) hd
  have hstored := Index.stored_of_present hm hst hS hhand hcache.root hdirs
  refine ⟨s₁.index.levels, fun sched fuel hfuel => ?_⟩
  obtain ⟨l, hl, hsort⟩ := Index.sort_indexFromTree henc hstored sched hfuel
  have hlist : sortBy Inode.path s₁.index.inodes = s₁.inodes := s₁.strictBy_inodes.sortBy_eq
  rw [hlist] at hsort
  refine ⟨l, hl, fun other => ⟨?_, fun i hi hf => ?_⟩⟩
  · rw [map_entry_copyMetadata]
    exact hsort
  · exact Index.object_of_present hm hst hS hhand hi hf
      (hcache.files _ (List.mem_map_of_mem hi) hf)

/-- **What a run has written is read** from a cache that holds all of it. -/
theorem WriteTree.exists_fetched {file : Option Bytes} (w₁ : WriteTree H d₁ ignores₁ root₁ file st₀)
    (hm : w₁.scan.index.Merkle H (d₁.contentAt root₁) w₁.final.hash) (hd₁ : d₁.WellFormed)
    (hst : ContentAddressed H st) (hS : H.CollisionFree S)
    (hhand : ∀ b ∈ w₁.scan.index.atHand (d₁.contentAt root₁) st w₁.final.hash, b ∈ S)
    (hcache : InCache st w₁.digest w₁.inodes) :
    ∃ levels, ∀ sched : Schedule, ∀ fuel ≥ levels, ∃ l,
      indexFromTree st sched fuel w₁.digest = some (.ok l) ∧ ∀ other,
        Fetched w₁.scan w₁.final.hash (d₁.contentAt root₁) st
          (copyMetadata (sortBy Inode.path l) other) :=
  hm.exists_fetched (hm.encodable hd₁) hst hS hhand hcache

/-- The symlinks of a scan have targets, if those of the disk have. -/
theorem Scan.target_ne_nil (s₁ : Scan d₁ ignores₁ root₁)
    (hlinks : ∀ p t target, d₁.get p = some (.symlink t target) → target ≠ []) :
    ∀ j ∈ s₁.inodes, j.isSymlink = true → j.target ≠ [] := by
  intro j hj hl
  obtain ⟨ns, n, node, hlisted, rfl⟩ := s₁.mem_inodes.mp hj
  have hlink := Node.status_type_eq_symlink.mp (of_decide_eq_true hl)
  cases node with
  | symlink t target => exact hlinks _ t target hlisted.get
  | file perms t content => cases hlink
  | dir perms t size => cases hlink

/-- Nothing below the directory of the saved index can be seen. -/
theorem Visible.not_saved {ignores : Bytes → Bool} {ns : List Name} (hv : Visible ignores ns) :
    ¬ root ++ [fstreeName] <+: root ++ ns := by
  rintro ⟨rest, hr⟩
  rw [List.append_assoc] at hr
  have hmem : fstreeName ∈ ns := by
    rw [← List.append_cancel_left hr]
    simp
  exact hv.reserved _ hmem (by decide)

/-- **A checkout into an empty directory, and the index of it saved.** -/
structure CheckedOut (os : OS) (regex : RegexEngine) (st : Store) (index : List Inode)
    {ignores : Bytes → Bool} (s : Scan d ignores root) (out : List Inode) (w w' : World) :
    Prop where
  checkout : Fstree.checkout os st root s.inodes index ⟨d, []⟩ = .ok out w
  save : Fstree.save os st root out w = .ok () w'
  empty : s.inodes = []
  landed : Landed s index st w'.disk
  made : List.Forall₂ (fun i o => ∃ t, o = { i with mtime := t }) index out
  ignores : readIgnore regex w'.disk root = ignores
  saved : w'.disk.readFile (absPath (root ++ [fstreeName] ++ [indexName])) = some (saveIndex out)

/-- **What was read is checked out and saved.** -/
theorem Fetched.exists_checkedOut {s₁ : Scan d₁ ignores₁ root₁} {hs : Hashes} {index : List Inode}
    (f : Fetched s₁ hs (d₁.contentAt root₁) st index)
    (hlinks : ∀ j ∈ s₁.inodes, j.isSymlink = true → j.target ≠ [])
    (hfile : IgnoreFile regex d₁ s₁.lost ignores₁ root₁) (hos : os.Willing) (hd : d.Closed)
    (hplain : ∀ n ∈ root, n.Plain) (hempty : d.readdir root = []) :
    ∃ ignores, loadIgnoreFromIndex regex st index = .ok ignores ∧
      ∀ s : Scan d ignores root, ∃ out w w', CheckedOut os regex st index s out w w' := by
  obtain ⟨ignores, hload, hsub, hread⟩ := f.exists_ignores hfile
  refine ⟨ignores, hload, fun s => ?_⟩
  have hnil := s.inodes_eq_nil hd hempty
  have hvis : ∀ i ∈ index, ∀ ns, i.path = pathStr ns → Visible ignores ns :=
    fun i hi ns hns => f.visible hsub hi hns
  have hfinds := s.findsEnough_of_empty hd hempty f.inOrder
  have g : Ground s index True :=
    ⟨hd, hplain, f.inOrder, hfinds.hidden, fun _ t ht => by rw [hnil] at ht; cases ht⟩
  obtain ⟨out, w, hout, hmtimes, hinv, hframe⟩ :=
    checkout_fresh g hempty hos fun i hi => f.available hlinks hi
  have hnone : w.disk.get (root ++ [fstreeName]) = none := by
    rw [← Disk.view_eq_none, hframe, Disk.view_eq_none]
    · exact hd.nothing_below_empty hempty (by simp)
    · intro i hi hp
      exact (hvis i hi _ hp).reserved fstreeName (by simp) (by decide)
  obtain ⟨w', hsave, hc', hfile', hview⟩ :=
    @save_fresh os st _ _ hos hinv.closed hplain hinv.isDir hnone out
  have hdir' : w'.disk.IsDir root := by
    refine (Disk.isDir_congr (hview root ?_)).mpr hinv.isDir
    exact fun h => absurd h.length_le (by simp)
  have hinv' : CheckoutInv s index st True w'.disk [] [] [] := by
    refine hinv.like hvis hc' hdir' fun ns hv => ?_
    have hsame := hview (root ++ ns) hv.not_saved
    cases hget : w.disk.get (root ++ ns) with
    | none =>
      rw [Disk.view_eq_none.mpr hget] at hsame
      rw [Disk.view_eq_none.mp hsame]
      exact .none
    | some m =>
      rw [Disk.view_of_get hget] at hsame
      obtain ⟨m', hget', ht⟩ := Disk.get_of_view hsame
      rw [hget']
      exact .some (Node.like_of_touched ht)
  have hlanded : Landed s index st w'.disk := ⟨g, hfinds, hvis, hinv'⟩
  exact ⟨out, w, w', hout, hsave, hnil, hlanded, hmtimes, hread hnil hlanded, hfile'⟩

/-- Every `write-tree` of what was checked out gives the digest. -/
theorem CheckedOut.digest_eq {s₁ : Scan d₁ ignores₁ root₁} {hs : Hashes} {index out : List Inode}
    {ignores : Bytes → Bool} {s : Scan d ignores root} {w w' : World}
    (h : CheckedOut os regex st index s out w w')
    (f : Fetched s₁ hs (d₁.contentAt root₁) st index)
    (hm : s₁.index.Merkle H (d₁.contentAt root₁) hs) (hd₁ : d₁.WellFormed) {st₂ : Store}
    (w₂ : WriteTree H w'.disk (readIgnore regex w'.disk root) root
      (w'.disk.readFile (absPath (root ++ [fstreeName] ++ [indexName]))) st₂)
    (hw₂ : w₂.Whole) (hscan : w₂.scan.Complete) : w₂.digest = hs [] := by
  have hdigest : ∀ {ign : Bytes → Bool} {file : Option Bytes}, ign = ignores →
      file = some (saveIndex out) → ∀ w₂ : WriteTree H w'.disk ign root file st₂, w₂.Whole →
      w₂.scan.Complete → w₂.digest = hs [] := by
    rintro _ _ rfl rfl w₂ hw₂ hscan
    exact f.digest_eq hm h.empty h.landed h.made (by rw [f.loadIndex_saveIndex hm hd₁ h.made]) w₂
      hw₂ hscan
  exact hdigest h.ignores h.saved w₂ hw₂ hscan

/-- **What was read is checked out and saved**, and every `write-tree` of it gives the digest. -/
theorem Fetched.checkout_save {s₁ : Scan d₁ ignores₁ root₁} {hs : Hashes} {index : List Inode}
    (f : Fetched s₁ hs (d₁.contentAt root₁) st index)
    (hm : s₁.index.Merkle H (d₁.contentAt root₁) hs) (hd₁ : d₁.WellFormed)
    (hlinks : ∀ j ∈ s₁.inodes, j.isSymlink = true → j.target ≠ [])
    (hfile : IgnoreFile regex d₁ s₁.lost ignores₁ root₁) (hos : os.Willing) (hd : d.Closed)
    (hplain : ∀ n ∈ root, n.Plain) (hempty : d.readdir root = []) :
    ∃ ignores, loadIgnoreFromIndex regex st index = .ok ignores ∧
      ∀ s : Scan d ignores root, ∃ out w w',
        checkout os st root s.inodes index ⟨d, []⟩ = .ok out w ∧
        save os st root out w = .ok () w' ∧ w'.disk.IsDir root ∧
        w'.disk.readFile (absPath (root ++ [fstreeName] ++ [indexName])) = some (saveIndex out) ∧
        ∀ st₂, ∀ w₂ : WriteTree H w'.disk (readIgnore regex w'.disk root) root
            (w'.disk.readFile (absPath (root ++ [fstreeName] ++ [indexName]))) st₂,
          w₂.Whole → w₂.scan.Complete → w₂.digest = hs [] := by
  obtain ⟨ignores, hload, hrun⟩ := f.exists_checkedOut hlinks hfile hos hd hplain hempty
  refine ⟨ignores, hload, fun s => ?_⟩
  obtain ⟨out, w, w', h⟩ := hrun s
  exact ⟨out, w, w', h.checkout, h.save, h.landed.inv.isDir, h.saved,
    fun st₂ w₂ hw₂ hscan => h.digest_eq f hm hd₁ w₂ hw₂ hscan⟩

/-- **Checkout and then write-tree is the identity on trees.** A tree that was written from no
saved index, with all its objects in the cache, is read, checked out into an empty directory and
saved; a `write-tree` of that directory finds the saved index and the ignore file, gets to its end
unless a call fails, and prints the digest of the tree. That no call is denied covers the `fclose`
of a tree object in both runs and the `lstat` of what was checked out. -/
theorem writeTree_checkout_writeTree (w₁ : WriteTree H d₁ ignores₁ root₁ none st₀)
    (hw₁ : w₁.Whole) (hd₁ : d₁.WellFormed)
    (hlinks : ∀ p t target, d₁.get p = some (.symlink t target) → target ≠ [])
    (hfile : IgnoreFile regex d₁ w₁.scan.lost ignores₁ root₁) (hst : ContentAddressed H st)
    (hS : H.CollisionFree S)
    (hhand : ∀ b ∈ w₁.scan.index.atHand (d₁.contentAt root₁) st w₁.final.hash, b ∈ S)
    (hcache : InCache st w₁.digest w₁.inodes) (hos : os.Willing) (hd : d.Closed)
    (hplain : ∀ n ∈ root, n.Plain) (hroot : d.IsDir root) (hempty : d.readdir root = []) :
    ∃ levels, ∀ sched : Schedule, ∀ fuel ≥ levels, ∃ l ignores,
      indexFromTree st sched fuel w₁.digest = some (.ok l) ∧
      loadIgnoreFromIndex regex st (copyMetadata (sortBy Inode.path l) []) = .ok ignores ∧
      Nonempty (Scan d ignores root) ∧ ∀ s : Scan d ignores root, ∃ out w w',
        checkout os st root s.inodes (copyMetadata (sortBy Inode.path l) []) ⟨d, []⟩ = .ok out w ∧
        save os st root out w = .ok () w' ∧
        let file := w'.disk.readFile (absPath (root ++ [fstreeName] ++ [indexName]))
        let ignores' := readIgnore regex w'.disk root
        file = some (saveIndex out) ∧
        Nonempty (Scan w'.disk ignores' root) ∧
        (∀ st₂, ∀ w₂ : WriteTree H w'.disk ignores' root file st₂, w₂.Whole →
          w₂.scan.Complete → w₂.digest = w₁.digest) ∧
        ∀ st₂, ∀ s₂ : Scan w'.disk ignores' root, ∀ σ,
          Reaches (AddStep H s₂.index (readsAs (w'.disk.contentAt root) (leaving id)))
            (AddState.start s₂.index st₂ (refresh H s₂ (loadIndex [] file).1)) σ →
          Unfailed σ →
          ∃ τ, Reaches (AddStep H s₂.index (readsAs (w'.disk.contentAt root) (leaving id))) σ τ ∧
            τ.main = .returned := by
  have hm := w₁.truthful_of_none.merkle w₁.added hw₁
  obtain ⟨levels, hread⟩ := w₁.exists_fetched hm hd₁ hst hS hhand hcache
  refine ⟨levels, fun sched fuel hfuel => ?_⟩
  obtain ⟨l, hl, f⟩ := hread sched fuel hfuel
  obtain ⟨ignores, hload, hrun⟩ := (f []).checkout_save hm hd₁ (w₁.scan.target_ne_nil hlinks) hfile
    hos hd hplain hempty
  refine ⟨l, ignores, hl, hload, ⟨.sequential d ignores root hroot⟩, fun s => ?_⟩
  obtain ⟨out, w, w', hout, hsave, hdir, hsaved, hdigest⟩ := hrun s
  exact ⟨out, w, w', hout, hsave, hsaved, ⟨.sequential _ _ root hdir⟩, hdigest,
    fun st₂ s₂ σ hσ hu => exists_returned hσ hu⟩

end Identity

/-! ### The sample, checked out -/

namespace Sample

set_option maxRecDepth 8000 in
theorem inCache_first : InCache first.final.store first.digest first.inodes where
  root := by decide
  dirs := by decide
  files := by decide

theorem targets_disk (p : List Name) (t : Time) (target : Bytes)
    (h : disk.get p = some (.symlink t target)) : target ≠ [] := by
  have hall : ∀ e ∈ disk.entries, e.2.isLink = true → e.2.target ≠ [] := by decide
  obtain ⟨e, he, hnode⟩ := Option.map_eq_some_iff.mp h
  have hne := hall e (List.mem_of_find?_eq_some he)
  rw [hnode] at hne
  exact hne rfl

/-- An empty directory. -/
def emptyDisk : Disk := ⟨[([], .dir 0o755 0 0)]⟩

theorem closed_emptyDisk : emptyDisk.Closed :=
  (Disk.wellFormed_of_entries (by decide) (by decide) (by decide)).closed'

end Sample

set_option maxRecDepth 8000 in
/-- The sample is checked out and written again. -/
theorem writeTree_checkout_writeTree_sample :
    ∃ levels, ∀ sched : Schedule, ∀ fuel ≥ levels, ∃ l ignores,
      indexFromTree Sample.first.final.store sched fuel Sample.first.digest = some (.ok l) ∧
      loadIgnoreFromIndex (fun _ => none) Sample.first.final.store
        (copyMetadata (sortBy Inode.path l) []) = .ok ignores ∧
      Nonempty (Scan Sample.emptyDisk ignores []) ∧
      ∀ s : Scan Sample.emptyDisk ignores [], ∃ out w w',
        checkout Sample.kind Sample.first.final.store [] s.inodes
          (copyMetadata (sortBy Inode.path l) []) ⟨Sample.emptyDisk, []⟩ = .ok out w ∧
        save Sample.kind Sample.first.final.store [] out w = .ok () w' ∧
        w'.disk.readFile (absPath ([] ++ [fstreeName] ++ [indexName])) = some (saveIndex out) ∧
        ∀ st₂, ∀ w₂ : WriteTree Sample.hash w'.disk (readIgnore (fun _ => none) w'.disk []) []
            (w'.disk.readFile (absPath ([] ++ [fstreeName] ++ [indexName]))) st₂, w₂.Whole →
          w₂.scan.Complete → w₂.digest = Sample.first.digest := by
  have hwhole : Sample.first.Whole := WriteTree.whole_ofThread _ _ _
  have hgood := WriteTree.good_of_truthful Sample.first.truthful_of_none hwhole
    Sample.collisionFree Sample.atHand_first (contentAddressed_empty _)
  have hfile : IgnoreFile (fun _ => none) Sample.disk Sample.first.scan.lost (fun _ => false) [] :=
    fun node hl => absurd (hl.get.symm.trans (by decide : _ = none)) (by simp)
  obtain ⟨levels, h⟩ := @writeTree_checkout_writeTree _ _ _ _ _ [] [] _ _ Sample.kind
    (fun _ => none)
    Sample.first hwhole Sample.disk_wellFormed Sample.targets_disk hfile hgood.addressed
    Sample.collisionFree Sample.atHand_first Sample.inCache_first (fun _ => rfl)
    Sample.closed_emptyDisk (by simp) (by decide) (by decide)
  refine ⟨levels, fun sched fuel hfuel => ?_⟩
  obtain ⟨l, ignores, hl, hload, hscan, hrun⟩ := h sched fuel hfuel
  refine ⟨l, ignores, hl, hload, hscan, fun s => ?_⟩
  obtain ⟨out, w, w', hout, hsave, hsaved, -, hdigest, -⟩ := hrun s
  exact ⟨out, w, w', hout, hsave, hsaved, hdigest⟩

end Fstree
