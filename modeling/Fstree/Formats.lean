import Fstree.Model.IndexFile

/-!
# The two file formats

What is written in the two formats is what is read back, field by field. Of the children
of a directory that are not ignored a tree object keeps the path, the digest, the status
and the target (`Fstree.treeObject_round_trip`), so a digest of tree objects stands for
what is in them. A saved index is written over the last one in place, so that after a
crash any front part of it may be on the disk: it is read as the inodes that are whole,
and reading fails unless the part ends between two of them (`Fstree.loadIndex_take`).
-/

namespace Fstree

open Codec

/-! ### Tree objects -/

/-- **A child of a directory**: a name below it, a digest or none, and a target for
symlinks only. Its strings have a size. -/
structure Inode.ChildOf (ns : List Name) (c : Inode) : Prop where
  path : ∃ n : Name, c.path = pathStr (ns ++ [n])
  hash : c.hash.WellFormed
  target : c.isSymlink = false → c.target = []
  name_length : c.name.length < 2 ^ 64
  target_length : c.target.length < 2 ^ 64

/-- **What a tree object keeps of a child.** -/
def Inode.recorded (c : Inode) : Bytes × Digest × FileStatus × Bytes :=
  (c.name, c.hash, c.status, c.target)

/-- The children that go into a tree object. -/
def unignored (children : List Inode) : List Inode := children.filter fun c => !c.ignored

section Tree

variable {ns : List Name} {c : Inode} {children : List Inode}

theorem mem_unignored : c ∈ unignored children ↔ c ∈ children ∧ c.ignored = false := by
  simp [unignored]

theorem Inode.ChildOf.encodable (h : c.ChildOf ns) : c.Encodable :=
  ⟨h.hash, h.name_length, h.target_length⟩

/-- The target field is there if there is a target. -/
theorem Inode.ChildOf.decoded_target (h : c.ChildOf ns) (p : Bytes) :
    (c.decoded p).target = c.target := by
  cases hl : c.isSymlink with
  | true => simp [Inode.decoded, hl]
  | false => simp [Inode.decoded, hl, h.target hl]

/-- **A child is read back** in the directory it was written in. -/
theorem Inode.ChildOf.entry_decoded (h : c.ChildOf ns) :
    (c.decoded (pathStr ns)).entry = c.entry := by
  obtain ⟨n, hn⟩ := h.path
  refine Inode.entry_eq_iff.mpr ⟨?_, rfl, h.decoded_target _, rfl⟩
  simp [Inode.decoded, Inode.name, hn]

/-- Read back at the root, the path of a child is its name. -/
theorem Inode.ChildOf.recorded_eq (h : c.ChildOf ns) :
    c.recorded =
      ((c.decoded []).path, (c.decoded []).hash, (c.decoded []).status, (c.decoded []).target) := by
  obtain ⟨n, hn⟩ := h.path
  have hpath : (c.decoded []).path = c.name := by
    simpa [Inode.decoded, Inode.name, hn] using joinPath_pathStr [] n
  rw [hpath, h.decoded_target]
  rfl

end Tree

/-- **The round trip of a tree object.** Decoding the encoding of the children of a
directory, for a directory at the same path, succeeds and gives the children that are not
ignored, in their order, with their paths, digests, statuses and targets. So two
directories, wherever they are, that have one encoding have one list of names, digests,
statuses and targets. -/
theorem treeObject_round_trip {ns : List Name} {children : List Inode}
    (h : ∀ c ∈ children, c.ChildOf ns) :
    (∃ l, decodeTree (pathStr ns) (encodeTree children) = (l, none) ∧
      l.map Inode.entry = (unignored children).map Inode.entry) ∧
    ∀ (ms : List Name) (children' : List Inode), (∀ c ∈ children', c.ChildOf ms) →
      encodeTree children = encodeTree children' →
        (unignored children).map Inode.recorded = (unignored children').map Inode.recorded := by
  have hrecorded : ∀ {ks : List Name} {l : List Inode}, (∀ c ∈ l, c.ChildOf ks) →
      (unignored l).map Inode.recorded = ((unignored l).map (·.decoded [])).map
        fun d => (d.path, d.hash, d.status, d.target) := by
    intro ks l hl
    rw [List.map_map]
    exact List.map_congr_left fun c hc => (hl c (mem_unignored.mp hc).1).recorded_eq
  refine ⟨⟨_, decodeTree_encodeTree (fun c hc _ => (h c hc).encodable) _, ?_⟩,
    fun ms children' h' he => ?_⟩
  · rw [List.map_map]
    exact List.map_congr_left fun c hc => (h c (mem_unignored.mp hc).1).entry_decoded
  · have hdecoded := decoded_eq_of_encodeTree_eq (fun c hc _ => (h c hc).encodable)
      (fun c hc _ => (h' c hc).encodable) he []
    rw [hrecorded h, hrecorded h']
    exact congrArg _ hdecoded

namespace Sample

/-- A directory `d`. -/
def dirName : Name := nameD

/-- A symlink in it. -/
def link : Inode where
  path := ascii ['d', '/', 'l']
  status := ⟨.symlink, 0o777⟩
  mtime := 0
  size := 0
  target := ascii ['x']

/-- A directory beside it. -/
def subdir : Inode :=
  { link with
    path := ascii ['d', '/', 's'], hash := ⟨.sha1, hexString 40 1⟩, status := ⟨.directory, 0o755⟩
    target := [] }

/-- A file that is ignored. -/
def ignoredFile : Inode :=
  { link with
    path := ascii ['d', '/', 'o'], status := ⟨.regular, 0o644⟩, target := [], ignored := true }

/-- What is in the directory. -/
def children : List Inode := [link, ignoredFile, subdir]

theorem children_childOf : ∀ c ∈ children, c.ChildOf [dirName] := by
  refine List.forall_mem_cons.mpr ⟨?_, List.forall_mem_cons.mpr ⟨?_,
    List.forall_mem_singleton.mpr ?_⟩⟩
  · exact ⟨⟨⟨ascii ['l'], by decide, by decide⟩, by decide⟩, by decide, by decide, by decide,
      by decide⟩
  · exact ⟨⟨⟨ascii ['o'], by decide, by decide⟩, by decide⟩, by decide, by decide, by decide,
      by decide⟩
  · exact ⟨⟨⟨ascii ['s'], by decide, by decide⟩, by decide⟩, by decide, by decide, by decide,
      by decide⟩

end Sample

/-- The round trip of a directory with a symlink, an ignored file and a directory in it. -/
theorem treeObject_round_trip_sample :
    (∃ l, decodeTree (pathStr [Sample.dirName]) (encodeTree Sample.children) = (l, none) ∧
      l.map Inode.entry = (unignored Sample.children).map Inode.entry) ∧
    ∀ (ms : List Name) (children' : List Inode), (∀ c ∈ children', c.ChildOf ms) →
      encodeTree Sample.children = encodeTree children' →
        (unignored Sample.children).map Inode.recorded =
          (unignored children').map Inode.recorded :=
  treeObject_round_trip Sample.children_childOf

/-! ### Saved indexes -/

/-- **What a saved index keeps of an inode.** -/
def Inode.kept (n : Inode) : Bytes × Digest × FileStatus × Time × Bytes :=
  (n.path, n.hash, n.status, n.mtime, n.target)

section Index

variable {n : Inode} {inodes : List Inode}

theorem cuts_readTarget {ε : Type} (short : ε) (h : n.target.length < 2 ^ 64) :
    Cuts (readTarget short n.status) short (if n.isSymlink then putBlock n.target else []) := by
  by_cases hl : n.status.type = .symlink
  · simpa [readTarget, Inode.isSymlink, hl] using cuts_block short h
  · simpa [Inode.isSymlink, hl] using cuts_nil (readTarget short n.status) short

/-- **An entry that was cut is noticed.** -/
theorem cuts_entry (h : n.Savable) : Cuts readEntry .short (putEntry n) := by
  have hmtime : n.mtime.toNat < 256 ^ 8 := lt_of_lt_of_le n.mtime.isLt (by decide)
  rw [putEntry, List.append_assoc, List.append_assoc, List.append_assoc]
  refine (cuts_block _ h.path).bind (reads_block _ h.path) ?_
  refine (cuts_block _ (length_string_lt h.hash)).bind (reads_block _ (length_string_lt h.hash)) ?_
  refine (cuts_word _ 4 _).bind (reads_word _ n.status.bits_lt) ?_
  refine (cuts_word _ 8 _).bind (reads_word _ hmtime) ?_
  rw [FileStatus.ofBits_bits]
  exact (cuts_readTarget _ h.target).map (reads_readTarget _ h.target)

theorem cuts_indexHeader : Cuts readIndexHeader .short indexHeader :=
  (cuts_word _ 2 _).bind (reads_word _ (by decide))
    ((cuts_word _ 2 _).map (reads_word _ (by decide)))

theorem length_indexHeader : indexHeader.length = 4 := rfl

theorem length_saveIndex (inodes : List Inode) :
    (saveIndex inodes).length = 4 + (inodes.flatMap putEntry).length := by
  rw [saveIndex, List.length_append, length_indexHeader]

/-- More inodes take no fewer bytes. -/
theorem length_saveIndex_take_mono (inodes : List Inode) {k m : ℕ} (h : k ≤ m) :
    (saveIndex (inodes.take k)).length ≤ (saveIndex (inodes.take m)).length := by
  obtain ⟨rest, hrest⟩ := List.take_prefix_take_left (l := inodes) h
  rw [length_saveIndex, length_saveIndex, ← hrest, List.flatMap_append, List.length_append]
  omega

/-- Without the whole header, nothing is loaded. -/
theorem loadIndex_header (inodes previous : List Inode) {m : ℕ} (hm : m < 4) :
    loadIndex previous (some ((saveIndex inodes).take m)) = (previous, some .short) := by
  have hlen : m ≤ indexHeader.length := by
    rw [length_indexHeader]
    exact hm.le
  rw [saveIndex, List.take_append_of_le_length hlen, loadIndex, cuts_indexHeader m hm]

/-- With the header, what is loaded are the records after it. -/
theorem loadIndex_records (inodes previous : List Inode) {m : ℕ} (hm : 4 ≤ m) :
    loadIndex previous (some ((saveIndex inodes).take m)) =
      readAll readEntry ((inodes.flatMap putEntry).take (m - 4)) := by
  have hlen : indexHeader.length ≤ m := by
    rw [length_indexHeader]
    exact hm
  rw [saveIndex, List.take_append, List.take_of_length_le hlen, length_indexHeader, loadIndex,
    readIndexHeader_append]

/-- The entries that are whole are read. -/
theorem readAll_entries_take (h : ∀ i ∈ inodes, i.Savable) {m : ℕ}
    (hm : m ≤ (inodes.flatMap putEntry).length) : ∃ k ≤ inodes.length,
      readAll readEntry ((inodes.flatMap putEntry).take m) = ((inodes.take k).map Inode.saved,
        if ((inodes.take k).flatMap putEntry).length = m then none else some .short) ∧
      ((inodes.take k).flatMap putEntry).length ≤ m ∧
      (k < inodes.length → m < ((inodes.take (k + 1)).flatMap putEntry).length) :=
  readAll_take consumes_readEntry (fun i hi => reads_entry (h i hi))
    (fun i hi => cuts_entry (h i hi)) hm

theorem Inode.kept_saved (h : n.isSymlink = false → n.target = []) : n.saved.kept = n.kept := by
  cases hl : n.isSymlink with
  | true => simp [Inode.kept, Inode.saved, hl]
  | false => simp [Inode.kept, Inode.saved, hl, h hl]

end Index

/-- **Loading the front part of a saved index.** Without the whole header the index is
left as it was. With it, the index is left with the inodes whose entries are whole, as
many as there are, each with its path, digest, status, mtime and target. And loading
returns normally if and only if the part ends with the header or with an entry. -/
theorem loadIndex_take {inodes : List Inode} (h : ∀ i ∈ inodes, i.Savable)
    (htarget : ∀ i ∈ inodes, i.isSymlink = false → i.target = []) (previous : List Inode) {m : ℕ}
    (hm : m ≤ (saveIndex inodes).length) :
    (m < 4 → (loadIndex previous (some ((saveIndex inodes).take m))).1 = previous) ∧
    (4 ≤ m → ∃ k ≤ inodes.length, (saveIndex (inodes.take k)).length ≤ m ∧
      (∀ k' ≤ inodes.length, (saveIndex (inodes.take k')).length ≤ m → k' ≤ k) ∧
      (loadIndex previous (some ((saveIndex inodes).take m))).1.map Inode.kept =
        (inodes.take k).map Inode.kept) ∧
    ((loadIndex previous (some ((saveIndex inodes).take m))).2 = none ↔
      ∃ k ≤ inodes.length, m = (saveIndex (inodes.take k)).length) := by
  rcases Nat.lt_or_ge m 4 with hlt | hge
  · rw [loadIndex_header inodes previous hlt]
    refine ⟨fun _ => rfl, fun hge => absurd hge (by omega), nofun, ?_⟩
    rintro ⟨k, -, rfl⟩
    rw [length_saveIndex] at hlt
    omega
  · have hm' : m - 4 ≤ (inodes.flatMap putEntry).length := by
      rw [length_saveIndex] at hm
      omega
    obtain ⟨k, hk, hread, hle, hnext⟩ := readAll_entries_take h hm'
    have hlen : (saveIndex (inodes.take k)).length ≤ m := by
      rw [length_saveIndex]
      omega
    have hgreatest : ∀ k' ≤ inodes.length, (saveIndex (inodes.take k')).length ≤ m → k' ≤ k := by
      intro k' hk' hle'
      by_contra hgt
      have hsucc : k + 1 ≤ k' := not_le.mp hgt
      have hmono := length_saveIndex_take_mono inodes hsucc
      have hlast := hnext (by omega)
      rw [length_saveIndex] at hmono
      omega
    rw [loadIndex_records inodes previous hge, hread]
    refine ⟨fun hlt => absurd hlt (by omega), fun _ => ⟨k, hk, hlen, hgreatest, ?_⟩, ?_⟩
    · rw [List.map_map]
      exact List.map_congr_left fun i hi => Inode.kept_saved (htarget i (List.mem_of_mem_take hi))
    · constructor
      · intro hnone
        refine ⟨k, hk, ?_⟩
        split_ifs at hnone with heq
        rw [length_saveIndex]
        omega
      · rintro ⟨k', hk', hm'⟩
        have hmono := length_saveIndex_take_mono inodes (hgreatest k' hk' hm'.ge)
        rw [length_saveIndex, length_saveIndex] at hmono
        rw [length_saveIndex] at hm'
        rw [if_pos (by omega)]

set_option maxRecDepth 8000 in
/-- A saved index of three inodes, cut off in the second entry. -/
theorem loadIndex_take_sample :
    (60 < 4 → (loadIndex [Sample.subdir] (some ((saveIndex Sample.children).take 60))).1 =
      [Sample.subdir]) ∧
    (4 ≤ 60 → ∃ k ≤ Sample.children.length,
      (saveIndex (Sample.children.take k)).length ≤ 60 ∧
      (∀ k' ≤ Sample.children.length, (saveIndex (Sample.children.take k')).length ≤ 60 → k' ≤ k) ∧
      (loadIndex [Sample.subdir] (some ((saveIndex Sample.children).take 60))).1.map Inode.kept =
        (Sample.children.take k).map Inode.kept) ∧
    ((loadIndex [Sample.subdir] (some ((saveIndex Sample.children).take 60))).2 = none ↔
      ∃ k ≤ Sample.children.length, 60 = (saveIndex (Sample.children.take k)).length) :=
  loadIndex_take (by
    refine List.forall_mem_cons.mpr ⟨?_, List.forall_mem_cons.mpr ⟨?_,
      List.forall_mem_singleton.mpr ?_⟩⟩
    · exact ⟨by decide, by decide, by decide⟩
    · exact ⟨by decide, by decide, by decide⟩
    · exact ⟨by decide, by decide, by decide⟩) (by decide) _ (by decide)

end Fstree
