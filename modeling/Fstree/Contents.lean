import Fstree.Converge

/-!
# The contents of the files of a checkout

Whether a file is written again is decided by its mtime: that of the inode of the remote index,
which is 0 as it was decoded, or what `index::copy_metadata` has put there from the local index.
If the local index is truthful, a file that is left alone because of an mtime from there has the
right content. But one whose mtime on the disk is 0 is left alone, too, when the local index says
nothing about it (`Fstree.ZeroTrusted`). All others come from the cache, and so does a file that
the scan has not listed (`Fstree.checkout_contents`).
-/

namespace Fstree

open Codec SortedBy TwoCursor Effect

/-! ### Indexes that were read -/

section Read

variable {st : Store} {sched : Schedule} {i : Inode}

theorem origin_of_mem_readLevel {ts l : List Inode} (h : readLevel st ts = .ok l) (hi : i ∈ l) :
    ∃ t ∈ ts, ∃ l', readTree st t = .ok l' ∧ i ∈ l' := by
  induction ts generalizing l with
  | nil =>
    obtain rfl := Except.ok.inj h
    cases hi
  | cons t ts ih =>
    obtain ⟨l₁, l₂, h₁, h₂, rfl⟩ := readLevel_cons_eq_ok.mp h
    rcases List.mem_append.mp hi with hi | hi
    · exact ⟨t, by simp, l₁, h₁, hi⟩
    · obtain ⟨u, hu, l', hl', hil⟩ := ih h₂ hi
      exact ⟨u, List.mem_cons_of_mem _ hu, l', hl', hil⟩

/-- **Where an inode comes from**: from the tree object of a directory that is read. -/
theorem origin_of_mem_readLevels {fuel n : ℕ} {ts l : List Inode}
    (h : readLevels st sched fuel n ts [] = some (.ok l)) (hi : i ∈ l) :
    ∃ t, (t ∈ ts ∨ t ∈ l ∧ t.isDirectory = true) ∧ ∃ l', readTree st t = .ok l' ∧ i ∈ l' := by
  induction fuel generalizing n ts l with
  | zero =>
    cases ts with
    | nil =>
      obtain rfl := Except.ok.inj (Option.some.inj h)
      cases hi
    | cons t ts => cases h
  | succ fuel ih =>
    cases ts with
    | nil =>
      obtain rfl := Except.ok.inj (Option.some.inj h)
      cases hi
    | cons t ts =>
      obtain ⟨children, below, hread, hbelow, rfl⟩ := readLevels_cons_eq_ok h
      rcases List.mem_append.mp hi with hi | hi
      · obtain ⟨u, hu, hl⟩ :=
          origin_of_mem_readLevel hread ((sched.perm n children).mem_iff.mp hi)
        exact ⟨u, Or.inl hu, hl⟩
      · obtain ⟨u, hu, hl⟩ := ih hbelow hi
        refine ⟨u, Or.inr ?_, hl⟩
        rcases hu with hu | ⟨hu, hd⟩
        · exact ⟨List.mem_append_left _ (List.mem_filter.mp hu).1, (List.mem_filter.mp hu).2⟩
        · exact ⟨List.mem_append_right _ hu, hd⟩

/-- **A tree whose names are clean**, and each in its directory once. -/
structure CleanRead (st : Store) (h : Digest) (l : List Inode) : Prop where
  clean : ∀ t, t = rootInode h ∨ t ∈ l ∧ t.isDirectory = true → CleanTree st t
  nodup : (l.map Inode.path).Nodup

variable {fuel : ℕ} {h : Digest} {l : List Inode}

/-- **What was read** has no mtime and, unless it is a symlink, no target. -/
theorem decoded_of_mem_indexFromTree (hl : indexFromTree st sched fuel h = some (.ok l))
    (hi : i ∈ l) : i.mtime = 0 ∧ (i.isSymlink = false → i.target = []) := by
  obtain ⟨t, -, l', hread, hil⟩ := origin_of_mem_readLevels hl hi
  obtain ⟨bs, -, rfl⟩ := readTree_eq_map hread
  obtain ⟨r, hr, rfl⟩ := List.mem_map.mp hil
  have hdecoded := readChild_of_mem_decodeTree hr
  exact hdecoded

theorem CleanRead.confined (hc : CleanRead st h l)
    (hl : indexFromTree st sched fuel h = some (.ok l)) :
    ∀ i ∈ l, i.Confined ∧ CleanPath i.path := by
  have hroot : ∀ t ∈ [rootInode h], CleanDir t.path := fun t ht => by
    rw [List.mem_singleton.mp ht]
    exact cleanDir_nil
  obtain ⟨hiff, hpath⟩ := confined_readLevels_iff hroot hl
  have hconf := hiff.mpr fun t ht => hc.clean t (ht.imp_left List.mem_singleton.mp)
  exact fun i hi => ⟨hconf i hi, hpath hconf i hi⟩

/-- The parents of what was read were read. -/
theorem CleanRead.hasParents (hc : CleanRead st h l)
    (hl : indexFromTree st sched fuel h = some (.ok l)) :
    HasParents (sortBy Inode.path l) := by
  have hconf := hc.confined hl
  intro i hi
  rw [mem_sortBy] at hi
  obtain ⟨t, ht, l', hread, hil⟩ := origin_of_mem_readLevels hl hi
  have hparent := parent_of_mem_readTree hread hil
  have htdir : CleanDir t.path := by
    rcases ht with ht | ⟨ht, -⟩
    · rw [List.mem_singleton.mp ht]
      exact cleanDir_nil
    · exact (hconf t ht).2.cleanDir
  obtain ⟨ns, hns, htp⟩ := htdir
  obtain ⟨p, c, hp, hcl, hpath⟩ := (hconf i hi).1
  obtain rfl : t.path = p := Option.some.inj (hparent.symm.trans hp)
  obtain ⟨n, rfl, -⟩ := hcl.exists_name
  have hi' : i.path = pathStr (ns ++ [n]) := by
    rw [hpath, htp]
    by_cases hnil : ns = []
    · simp [hnil]
    · rw [if_neg (mt pathStr_eq_nil.mp hnil), pathStr_concat hnil]
  rw [hi', parentPath_pathStr, ← htp]
  refine ht.imp (fun ht => ?_) fun ht => ⟨t, mem_sortBy.mpr ht.1, rfl, ht.2⟩
  rw [List.mem_singleton.mp ht]
  rfl

end Read

/-! ### The mtimes that are copied -/

/-- **The local index knows an inode**: it has one with this path and digest. -/
def Known (lindex : List Inode) (i : Inode) : Prop :=
  ∃ o ∈ lindex, o.path = i.path ∧ o.hash = i.hash

/-- An inode after `copy_metadata`. -/
def withMtime (lindex : List Inode) (i : Inode) : Inode :=
  ((lookup Inode.path i.path lindex).map (copyMtime i)).getD i

section Copied

variable {lindex l : List Inode} {i o : Inode}

theorem copyMetadata_eq_map (hl : StrictBy Inode.path l) (hlindex : StrictBy Inode.path lindex) :
    copyMetadata l lindex = l.map (withMtime lindex) := by
  rw [copyMetadata, walk_eq_foldl hl hlindex]
  suffices hs : ∀ done, l.foldl (joinStep Inode.path Inode.path (fun done i => done ++ [i])
      (fun done i o => done ++ [copyMtime i o]) lindex) done =
        done ++ l.map (withMtime lindex) from hs []
  clear hl
  induction l with
  | nil => simp
  | cons i l ih =>
    intro done
    rw [List.foldl_cons, ih, List.map_cons, joinStep, withMtime]
    cases lookup Inode.path i.path lindex <;> simp

@[simp] theorem withMtime_path : (withMtime lindex i).path = i.path := by
  rw [withMtime]
  cases lookup Inode.path i.path lindex <;> simp

@[simp] theorem withMtime_status : (withMtime lindex i).status = i.status := by
  rw [withMtime]
  cases lookup Inode.path i.path lindex with
  | none => rfl
  | some o =>
    rw [Option.map_some, Option.getD_some, copyMtime]
    split_ifs <;> rfl

@[simp] theorem withMtime_hash : (withMtime lindex i).hash = i.hash := by
  rw [withMtime]
  cases lookup Inode.path i.path lindex with
  | none => rfl
  | some o =>
    rw [Option.map_some, Option.getD_some, copyMtime]
    split_ifs <;> rfl

/-- What is known gets the mtime of the local index. -/
theorem withMtime_of_mem (hlindex : StrictBy Inode.path lindex) (ho : o ∈ lindex)
    (hp : o.path = i.path) (hh : o.hash = i.hash) :
    withMtime lindex i = { i with mtime := o.mtime } := by
  rw [withMtime, hlindex.lookup_eq_some_iff.mpr ⟨ho, hp⟩, Option.map_some, Option.getD_some,
    copyMtime, if_pos hh.symm]

/-- What is not known is left as it is. -/
theorem withMtime_of_not_known (hlindex : StrictBy Inode.path lindex) (h : ¬ Known lindex i) :
    withMtime lindex i = i := by
  rw [withMtime]
  cases hlook : lookup Inode.path i.path lindex with
  | none => rfl
  | some o =>
    obtain ⟨ho, hp⟩ := hlindex.lookup_eq_some_iff.mp hlook
    rw [Option.map_some, Option.getD_some, copyMtime, if_neg fun hh => h ⟨o, ho, hp, hh.symm⟩]

/-- Mtimes do not put an index out of order. -/
theorem InOrder.map_withMtime (h : InOrder l) :
    InOrder (l.map (withMtime lindex)) where
  sorted := h.sorted.map fun _ _ => withMtime_path
  clean := List.forall_mem_map.mpr fun i hi => by simpa using h.clean i hi
  parent := List.forall_mem_map.mpr fun i hi ns n hp => by
    refine (h.parent i hi ns n (by simpa using hp)).imp id ?_
    rintro ⟨j, hj, hjp, hjd⟩
    exact ⟨_, List.mem_map_of_mem hj, by simpa using hjp, by simpa [Inode.isDirectory] using hjd⟩

end Copied

/-! ### The contents -/

section Contents

variable {d₀ : Disk} {ignores : Bytes → Bool} {root : List Name} {s : Scan d₀ ignores root}
  {st : Store} {os : OS} {w w' : World} {l lindex ts : List Inode} {i : Inode} {ns : List Name}
  {sched : Schedule} {fuel : ℕ} {h : Digest} {digest : Algorithm → Bytes → Digest}

/-- Mtimes do not change what does harm. -/
theorem HiddenHarmless.map_withMtime (h : HiddenHarmless s l) :
    HiddenHarmless s ((sortBy Inode.path l).map (withMtime lindex)) := by
  intro j hj hno ns hns m hm
  obtain ⟨i, hi, rfl⟩ := List.mem_map.mp hj
  simpa [Inode.isDirectory] using
    h i (mem_sortBy.mp hi) (by simpa using hno) ns (by simpa using hns) m hm

/-- **Files have the content of their digests**, as far as they are there. -/
def RightContents (digest : Algorithm → Bytes → Digest) (root : List Name) (index : List Inode)
    (d : Disk) : Prop :=
  ∀ i ∈ index, i.isFile = true → ∀ ns, i.path = pathStr ns → ∀ perms t content,
    d.get (root ++ ns) = some (.file perms t content) → digest i.hash.alg content = i.hash

/-- **A truthful local index**: a file with the mtime it records has the content it records. -/
def TruthfulMtimes (digest : Algorithm → Bytes → Digest) (root : List Name) (lindex : List Inode)
    (d : Disk) : Prop :=
  ∀ o ∈ lindex, ∀ ns, o.path = pathStr ns → ∀ perms content,
    d.get (root ++ ns) = some (.file perms o.mtime content) → digest o.hash.alg content = o.hash

/-- **Listed files with the mtime 0 that the local index does not know** have the right
contents. -/
def ZeroTrusted (digest : Algorithm → Bytes → Digest) (root : List Name)
    (tree index lindex : List Inode) (d : Disk) : Prop :=
  ∀ i ∈ index, i.isFile = true → ¬ Known lindex i → (∃ t ∈ tree, t.path = i.path) →
    ∀ ns, i.path = pathStr ns → ∀ perms content,
      d.get (root ++ ns) = some (.file perms 0 content) → digest i.hash.alg content = i.hash

/-- The objects of the cache have the digests that the inodes record. -/
def ObjectsRight (digest : Algorithm → Bytes → Digest) (index : List Inode) (st : Store) : Prop :=
  ∀ i ∈ index, i.isFile = true → ∀ content, st (filePath i.hash) = some content →
    digest i.hash.alg content = i.hash

/-- Removing what is left of the scan only removes. -/
theorem view_of_removeRest (hd : w.disk.Closed) (ht : ∀ t ∈ ts, CleanPath t.path)
    (hr : removeRest os st root ts w = .ok () w') (q : List Name) :
    w'.disk.view q = none ∨ w'.disk.view q = w.disk.view q := by
  induction ts generalizing w with
  | nil =>
    obtain ⟨-, rfl⟩ := EStateM.Result.ok.inj hr
    exact Or.inr rfl
  | cons t ts ih =>
    obtain ⟨_, w₁, h₁, h₂⟩ := bind_eq_ok.mp hr
    obtain ⟨ht, hts⟩ := List.forall_mem_cons.mp ht
    obtain ⟨ns, hne, hplain, hp⟩ := ht
    obtain ⟨up, n, rfl⟩ := (List.eq_nil_or_concat' ns).resolve_left hne
    have hpath : fullPath root t = absPath (root ++ up ++ [n]) := fullPath_snoc hp
    rw [hpath] at h₁
    obtain ⟨time, heffect⟩ := effect_of_call h₁
    rcases removeAll_cases hd (hplain n (by simp)) heffect with ⟨he, -⟩ | ⟨dir, -, -, hv⟩
    · rw [← he]
      exact ih (he ▸ hd) hts h₂
    · rcases ih (hd.without hv (by simp)) hts h₂ with hnone | hsame
      · exact Or.inl hnone
      · rw [hsame, hv, Disk.without]
        split_ifs
        · exact Or.inl rfl
        · exact Or.inr rfl

/-- A file that is not written is on the disk with the mtime of the inode. -/
theorem exists_file_of_unwritten (hu : Unwritten s.inodes i)
    (hp : i.path = pathStr ns) : ∃ perms content,
      d₀.get (root ++ ns) = some (.file perms i.mtime content) ∧
        d₀.contentAt root i.path = content := by
  obtain ⟨-, t, ht, htp, htf, hmtime⟩ := hu
  obtain ⟨-, node, hget, hstatus, hnode, -⟩ := s.exists_node ht (htp.trans hp)
  rw [Inode.isFile, hstatus, decide_eq_true_eq] at htf
  rw [hp, Disk.contentAt_pathStr hget, hget]
  cases node with
  | file perms time content =>
    obtain rfl : i.mtime = time := hmtime.symm.trans hnode
    exact ⟨perms, content, rfl, rfl⟩
  | _ => cases htf

/-- **What stands at the path of a file has the right content**, if it was to be trusted. -/
theorem digest_of_stands_of_mtime {exact : Prop} (hmtime : ∀ i ∈ l, i.mtime = 0)
    (hlindex : StrictBy Inode.path lindex) (htruth : TruthfulMtimes digest root lindex d₀)
    (hobj : ObjectsRight digest l st) (hzero : ZeroTrusted digest root s.inodes l lindex d₀)
    (hi : i ∈ l) (hf : i.isFile = true) (hp : i.path = pathStr ns) {m : Node}
    (hm : (withMtime lindex i).Stands s st exact m) : digest i.hash.alg m.content = i.hash := by
  have hf' : (withMtime lindex i).isFile = true := by simpa [Inode.isFile] using hf
  by_cases hu : Unwritten s.inodes (withMtime lindex i)
  · rw [hm.kept hf' hu]
    obtain ⟨perms, content, hget, hcontent⟩ :=
      exists_file_of_unwritten hu (withMtime_path.trans hp)
    rw [hcontent]
    by_cases hk : Known lindex i
    · obtain ⟨o, ho, hop, hoh⟩ := hk
      rw [withMtime_of_mem hlindex ho hop hoh] at hget
      rw [← hoh]
      exact htruth o ho ns (hop.trans hp) perms content hget
    · rw [withMtime_of_not_known hlindex hk, hmtime i hi] at hget
      obtain ⟨-, t, ht, htp, -⟩ := hu
      exact hzero i hi hf hk ⟨t, ht, htp.trans withMtime_path⟩ ns hp perms content hget
  · refine hobj i hi hf _ ?_
    rw [← hm.written hf' hu, withMtime_hash]

/-- So it has when the inodes were read from a tree. -/
theorem digest_of_stands
    (hl : indexFromTree st sched fuel h = some (.ok l)) (hlindex : StrictBy Inode.path lindex)
    (htruth : TruthfulMtimes digest root lindex d₀) (hobj : ObjectsRight digest l st)
    (hzero : ZeroTrusted digest root s.inodes l lindex d₀) (hi : i ∈ l) (hf : i.isFile = true)
    (hp : i.path = pathStr ns) {m : Node} (hm : (withMtime lindex i).Stands s st False m) :
    digest i.hash.alg m.content = i.hash :=
  digest_of_stands_of_mtime (fun _ hi => (decoded_of_mem_indexFromTree hl hi).1) hlindex htruth
    hobj hzero hi hf hp hm

/-- A listed file with the mtime 0 that the local index does not know is not written. -/
theorem unwritten_of_zero (hl : indexFromTree st sched fuel h = some (.ok l))
    (hlindex : StrictBy Inode.path lindex) (hi : i ∈ l) (hf : i.isFile = true)
    (hk : ¬ Known lindex i) (hp : i.path = pathStr ns) (hseen : ∃ t ∈ s.inodes, t.path = i.path)
    {perms : Fin 512} {content : Bytes}
    (hget : d₀.get (root ++ ns) = some (.file perms 0 content)) :
    Unwritten s.inodes (withMtime lindex i) := by
  obtain ⟨hmtime, htarget⟩ := decoded_of_mem_indexFromTree hl hi
  obtain ⟨t, ht, htp⟩ := hseen
  obtain ⟨-, node, hnode, hstatus, htm, -⟩ := s.exists_node ht (htp.trans hp)
  obtain rfl := Option.some.inj (hget.symm.trans hnode)
  rw [withMtime_of_not_known hlindex hk]
  refine ⟨htarget ?_, t, ht, htp, ?_, htm.trans hmtime.symm⟩
  · rw [Inode.isSymlink, of_decide_eq_true hf]
    rfl
  · rw [Inode.isFile, hstatus]
    rfl

end Contents

/-- **A checkout writes the right contents** if the listed files with the mtime 0 that the local
index does not know had them before: no other file is left alone that has not. And unless
something is left behind a symlink at the end of the index, which could remove such a file, this
is needed. What the scan has not listed – because `lstat` has failed for it, or because it is
ignored – is not to be a symlink where the tree has a directory. -/
theorem checkout_contents {d₀ : Disk} {ignores : Bytes → Bool} {root : List Name}
    {s : Scan d₀ ignores root} {st : Store} {os : OS} {w : World} {l l' lindex : List Inode}
    {sched : Schedule} {fuel : ℕ} {h : Digest} {digest : Algorithm → Bytes → Digest}
    (hd : d₀.Closed) (hroot : ∀ n ∈ root, n.Plain)
    (hl : indexFromTree st sched fuel h = some (.ok l)) (hc : CleanRead st h l)
    (hlindex : StrictBy Inode.path lindex) (htruth : TruthfulMtimes digest root lindex d₀)
    (hobj : ObjectsRight digest l st)
    (hr : checkout os st root s.inodes (copyMetadata (sortBy Inode.path l) lindex) ⟨d₀, []⟩ =
      .ok l' w) :
    (HiddenHarmless s l ∧ ZeroTrusted digest root s.inodes l lindex d₀ →
      RightContents digest root l w.disk) ∧
    (HiddenHarmless s l → ¬ StaleBehindLink s.inodes (copyMetadata (sortBy Inode.path l) lindex) →
      RightContents digest root l w.disk → ZeroTrusted digest root s.inodes l lindex d₀) := by
  have hsorted := strictBy_sortBy hc.nodup
  have horder : InOrder (sortBy Inode.path l) :=
    inOrder_of_clean hsorted (fun i hi => (hc.confined hl i (mem_sortBy.mp hi)).2)
      (hc.hasParents hl)
  rw [copyMetadata_eq_map hsorted hlindex] at hr ⊢
  have ground : HiddenHarmless s l →
      Ground s ((sortBy Inode.path l).map (withMtime lindex)) False := fun hhidden =>
    ⟨hd, hroot, horder.map_withMtime, hhidden.map_withMtime, nofun⟩
  have hmem : ∀ i ∈ l, withMtime lindex i ∈ (sortBy Inode.path l).map (withMtime lindex) :=
    fun i hi => List.mem_map_of_mem (mem_sortBy.mpr hi)
  refine ⟨fun ⟨hhidden, hzero⟩ i hi hf ns hp perms t content hget => ?_,
    fun hhidden hstale hright i hi hf hk hseen ns hp perms content hget => ?_⟩
  · obtain ⟨w₁, ts, hinv, hcur, hrest⟩ := runsOut_of_checkout (ground hhidden) rfl hr
    obtain ⟨m, hm, hstands⟩ := hinv.made _ (hmem i hi) nofun nofun ns (withMtime_path.trans hp)
    have hts : ∀ t ∈ ts, CleanPath t.path := fun t ht => s.cleanPath t (hcur.suffix_tree.mem ht)
    have hview := Disk.view_eq_file.mpr hget
    rcases view_of_removeRest hinv.closed hts hrest (root ++ ns) with hnone | hsame
    · rw [hnone] at hview
      cases hview
    · obtain rfl := Option.some.inj (hm.symm.trans (hsame.symm.trans hview))
      exact digest_of_stands hl hlindex htruth hobj hzero hi hf hp hstands
  · obtain ⟨w₁, ts, hinv, hcur, hrest⟩ := runsOut_of_checkout (ground hhidden) rfl hr
    have hend := hinv.removeRest (ground hhidden) hstale hcur hrest
    obtain ⟨m, hm, hstands⟩ := hend.made _ (hmem i hi) nofun nofun ns (withMtime_path.trans hp)
    have hu := unwritten_of_zero hl hlindex hi hf hk hp hseen hget
    have hf' : (withMtime lindex i).isFile = true := by simpa [Inode.isFile] using hf
    have hcontent := hstands.kept hf' hu
    rw [withMtime_path, hp, Disk.contentAt_pathStr hget] at hcontent
    have htype := hstands.type
    rw [withMtime_status, of_decide_eq_true hf] at htype
    cases m with
    | file perms' t content' =>
      obtain rfl : content' = content := hcontent
      exact hright i hi hf ns hp perms' t content' (Disk.view_eq_file.mp hm)
    | _ => cases htype

namespace Sample

/-- The digests of the new file, and of the tree with it. -/
def newDigest : Digest := ⟨.sha1, hexString 40 1⟩

@[inherit_doc newDigest] def newTree : Digest := ⟨.sha1, hexString 40 2⟩

/-- A hash function, as far as it is looked at here. -/
def digestNew : Algorithm → Bytes → Digest := fun _ b =>
  if b = ascii ['n', 'e', 'w'] then newDigest else Digest.none

/-- A cache with a tree that has the file `f`. -/
def newStore : Store :=
  (Store.empty.put (filePath newDigest) (ascii ['n', 'e', 'w'])).put (treePath newTree)
    (treeHeader ++ (putBlock (ascii ['f']) ++ putBlock newDigest.string ++
      le 4 (FileStatus.bits ⟨.regular, 0o644⟩)))

/-- The inode that is read. -/
def newInode : Inode :=
  { fileRead (ascii ['f']) with hash := newDigest }

/-- A destination that has another file there, with this mtime. -/
def destinationAt (t : Time) : Disk :=
  ⟨[([], .dir 0o755 1 0), ([nameW], .dir 0o755 1 0),
    ([nameW, nameF], .file 0o644 t (ascii ['o', 'l', 'd']))]⟩

theorem read_new : indexFromTree newStore .sequential 2 newTree = some (.ok [newInode]) := by
  decide +kernel

theorem cleanRead_new : CleanRead newStore newTree [newInode] where
  clean t ht := by
    have hroot : ∀ t ∈ [rootInode newTree], CleanDir t.path := fun t ht => by
      rw [List.mem_singleton.mp ht]
      exact cleanDir_nil
    refine (confined_readLevels_iff hroot read_new).1.mp (fun i hi => ?_) t
      (ht.imp_left List.mem_singleton.mpr)
    rw [List.mem_singleton.mp hi]
    exact ⟨[], ascii ['f'], rfl, by decide, rfl⟩
  nodup := by decide

theorem objectsRight_new : ObjectsRight digestNew [newInode] newStore := by
  intro i hi _ content hcontent
  rw [List.mem_singleton.mp hi] at hcontent ⊢
  obtain rfl : ascii ['n', 'e', 'w'] = content := by
    refine Option.some.inj (Eq.trans ?_ hcontent)
    decide +kernel
  decide

/-- The scan of the destination, and the checkout of the file into it. -/
def checkoutNew (d : Disk) (hd : d.IsDir [nameW]) :
    EStateM.Result CheckoutError World (List Inode) :=
  checkout kind newStore [nameW] (scanOf d hd).inodes
    (copyMetadata (sortBy Inode.path [newInode]) []) ⟨d, []⟩

/-- The old file, last written at the epoch. -/
def epoch : Disk := destinationAt 0

/-- The old file, last written later. -/
def later : Disk := destinationAt 5

theorem closed_epoch : epoch.Closed :=
  (Disk.wellFormed_of_entries (by decide) (by decide) (by decide)).closed'

theorem closed_later : later.Closed :=
  (Disk.wellFormed_of_entries (by decide) (by decide) (by decide)).closed'

theorem zeroTrusted_later (tree : List Inode) :
    ZeroTrusted digestNew [nameW] tree [newInode] [] later := by
  intro i hi _ _ _ ns hp perms content hget
  rw [List.mem_singleton.mp hi] at hp
  obtain rfl : [nameF] = ns := pathStr_injective hp
  have hlater : later.get ([nameW] ++ [nameF]) = some (.file 0o644 5 (ascii ['o', 'l', 'd'])) := by
    decide
  rw [hlater] at hget
  cases hget

end Sample

/-- A file that was last written later is written again. -/
theorem checkout_contents_sample : ∃ w : World,
    RightContents Sample.digestNew [Sample.nameW] [Sample.newInode] w.disk ∧
      (¬ StaleBehindLink (Sample.scanOf Sample.later (by decide)).inodes
          (copyMetadata (sortBy Inode.path [Sample.newInode]) []) →
        ZeroTrusted Sample.digestNew [Sample.nameW] (Sample.scanOf Sample.later (by decide)).inodes
          [Sample.newInode] [] Sample.later) := by
  have hleaves : Sample.leaves (Sample.checkoutNew Sample.later (by decide)) (fun _ => true) =
      true := by decide +kernel
  obtain ⟨l, w, hr, -⟩ := Sample.exists_of_leaves hleaves
  obtain ⟨hright, hzero⟩ := checkout_contents Sample.closed_later Sample.plain_nameW
    Sample.read_new Sample.cleanRead_new List.Pairwise.nil nofun Sample.objectsRight_new hr
  have hhidden : HiddenHarmless (Sample.scanOf Sample.later (by decide)) [Sample.newInode] := by
    intro i hi _ ns _ m _
    rw [List.mem_singleton.mp hi]
    exact ⟨nofun, nofun⟩
  have hcontents := hright ⟨hhidden, Sample.zeroTrusted_later _⟩
  exact ⟨w, hcontents, fun hstale => hzero hhidden hstale hcontents⟩

/-- **A checkout need not write the right contents**: a file that was last written at the epoch
is left alone. -/
theorem checkout_wrong_contents : ¬ ∀ (d₀ : Disk) (ignores : Bytes → Bool) (root : List Name)
    (s : Scan d₀ ignores root) (st : Store) (os : OS) (w : World) (l l' lindex : List Inode)
    (sched : Schedule) (fuel : ℕ) (h : Digest) (digest : Algorithm → Bytes → Digest),
    d₀.Closed → (∀ n ∈ root, n.Plain) → indexFromTree st sched fuel h = some (.ok l) →
    CleanRead st h l → StrictBy Inode.path lindex →
    TruthfulMtimes digest root lindex d₀ → ObjectsRight digest l st →
    checkout os st root s.inodes (copyMetadata (sortBy Inode.path l) lindex) ⟨d₀, []⟩ =
      .ok l' w →
    RightContents digest root l w.disk := by
  intro hall
  have hleaves : Sample.leaves (Sample.checkoutNew Sample.epoch (by decide)) (fun d =>
      d.get [Sample.nameW, Sample.nameF] = some (.file 0o644 0 (ascii ['o', 'l', 'd']))) =
        true := by decide +kernel
  obtain ⟨l, w, hr, hold⟩ := Sample.exists_of_leaves hleaves
  have hright := hall _ _ _ _ _ _ _ _ _ _ _ _ _ _ Sample.closed_epoch Sample.plain_nameW
    Sample.read_new Sample.cleanRead_new List.Pairwise.nil nofun Sample.objectsRight_new hr
  have hdigest := hright Sample.newInode (by simp) rfl [Sample.nameF] rfl _ _ _
    (of_decide_eq_true hold)
  revert hdigest
  decide +kernel

end Fstree
