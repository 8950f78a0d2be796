import Fstree.Merge
import Fstree.WriteTree

/-!
# The stored tree of a merge

After a merge of two indexes that are in the cache nothing is dirty but the root,
and no tree object is missing: `cache::add` makes the tree object of the root and
leaves everything else as it is. So a directory that is in both indexes keeps the
digest the other index had for it, and what is read back below it is what the
*other* index lists there (`Fstree.readable`).

The stored tree is the merge **exactly when** no inode that only this index lists
is in a directory that the other one lists too (`Fstree.merge_readsBack_iff`).
-/

namespace Fstree

open SortedBy Transition

/-! ### Indexes that can be merged -/

namespace Index

variable (L : Index)

/-- `_inodes`, with the digests. -/
def hashed (hs : Hashes) : List Inode := L.inodes.map hs.apply

variable {L} {hs : Hashes}

theorem mem_hashed {j : Inode} : j ∈ L.hashed hs ↔ ∃ i ∈ L.inodes, hs.apply i = j :=
  List.mem_map

/-- **The order of the list**: siblings are in increasing order, and no directory of
the root is called `.`. A list that is sorted by path is so, and a merged one. -/
structure InOrder (L : Index) : Prop where
  siblings : ∀ p, StrictBy Inode.path (L.inodes.filter fun i => i.parent = some p)
  plain : ∀ i ∈ L.inodes, i.parent ≠ some [dot]

/-- What is directly in a directory are the inodes that point to it. -/
theorem InOrder.directChildren_hashed (h : L.InOrder) (hs : Hashes) (p : Bytes) :
    directChildren p (L.hashed hs) =
      (L.inodes.filter fun i => i.parent = some p).map hs.apply := by
  rw [directChildren, hashed, List.filter_map]
  refine congrArg (List.map hs.apply) (List.filter_congr fun i hi => ?_)
  obtain ⟨ns, n, hp, hpar⟩ := L.named i hi
  have hplain := h.plain i hi
  rw [hpar] at hplain
  have hdot : pathStr ns ≠ [dot] := fun he => hplain (congrArg some he)
  simp only [Function.comp_apply, isDirectChild, Hashes.apply_path, hp, parentPath_pathStr, hpar]
  split_ifs with hnil
  · simp [hnil, hdot]
  · simp

theorem InOrder.mergeable (h : L.InOrder) (hs : Hashes) : Mergeable (L.hashed hs) where
  named i hi := by
    obtain ⟨i₀, hi₀, rfl⟩ := mem_hashed.mp hi
    obtain ⟨ns, n, hp, -⟩ := L.named i₀ hi₀
    exact ⟨ns, n, hp⟩
  plain i hi := by
    obtain ⟨i₀, hi₀, rfl⟩ := mem_hashed.mp hi
    obtain ⟨ns, n, hp, hpar⟩ := L.named i₀ hi₀
    have hne := h.plain i₀ hi₀
    rw [hpar] at hne
    rw [Hashes.apply_path, hp, parentPath_pathStr]
    exact fun he => hne (congrArg some he)
  sorted p := by
    rw [h.directChildren_hashed]
    exact StrictBy.map (fun _ _ => rfl) (h.siblings p)
  target_nil i hi hl := by
    obtain ⟨i₀, hi₀, rfl⟩ := mem_hashed.mp hi
    exact L.target_nil i₀ hi₀ hl

/-- A list that is sorted by path is in order. -/
theorem inOrder_of_strictBy (h : StrictBy Inode.path L.inodes)
    (hplain : ∀ i ∈ L.inodes, i.parent ≠ some [dot]) : L.InOrder :=
  ⟨fun _ => h.filter _, hplain⟩

/-- **An index in the cache**: hashed, Merkle-consistent, with all its objects. -/
structure Cached (L : Index) (H : HashFunction) (content : Bytes → Bytes) (hs : Hashes)
    (st : Store) : Prop where
  merkle : L.Merkle H content hs
  encodable : L.Encodable hs
  stored : L.Stored hs st
  objects : ∀ i ∈ L.inodes, i.isFile = true → st.hasObject (hs i.path) = true

/-- What is in the cache does not have to be digested. -/
theorem Cached.not_needed {L : Index} {H : HashFunction} {content : Bytes → Bytes} {hs : Hashes}
    {st : Store} (c : L.Cached H content hs st) {i : Inode} (hi : i ∈ L.inodes) :
    (i.isFile = true → (hs i.path).empty = false) ∧
      (i.isDirectory = true → needsTree st (hs i.path) = false) := by
  refine ⟨fun hf => by rw [c.merkle.file i hi hf, H.empty_sum], fun hd => ?_⟩
  have hsum := c.merkle.dir i hi hd
  have hhas : st.hasTree (hs i.path) = true := by
    rw [Store.hasTree, c.stored.dir i hi hd]
    rfl
  have hempty : (hs i.path).empty = false := by rw [hsum, H.empty_sum]
  simp [needsTree, hempty, hhas]

end Index

/-! ### What a merge of two indexes lists -/

section Merge

variable {A B : Index} {hA hB : Hashes} (oA : A.InOrder) (oB : B.InOrder)

/-- The merge of the index `A` with the index `B`. -/
def merged (hA hB : Hashes) : Index := mergeIndex (oA.mergeable hA) (oB.mergeable hB)

/-- The digests of the merged inodes. -/
def mergedHashes (A B : Index) (hA hB : Hashes) : Hashes := fun p =>
  ((lookup Inode.path p (mergeNodes (A.hashed hA) (B.hashed hB))).map Inode.hash).getD Digest.none

/-- **An inode of `B` alone, or of `A` alone.** -/
theorem picked_iff {ns : List Name} {j : Inode} :
    Picked (A.hashed hA) (B.hashed hB) ns j ↔
      (∃ b ∈ B.inodes, b.path = pathStr ns ∧ hB.apply b = j) ∨
      (∃ a ∈ A.inodes, a.path = pathStr ns ∧ hA.apply a = j) ∧
        ∀ b ∈ B.inodes, b.path ≠ pathStr ns := by
  have hnone : (∀ k ∈ B.hashed hB, k.path ≠ pathStr ns) ↔ ∀ b ∈ B.inodes, b.path ≠ pathStr ns := by
    simp [Index.hashed]
  rw [Picked, hnone, Index.mem_hashed, Index.mem_hashed]
  constructor
  · rintro ⟨hp, ⟨b, hb, rfl⟩ | ⟨⟨a, ha, rfl⟩, hn⟩⟩
    · exact Or.inl ⟨b, hb, hp, rfl⟩
    · exact Or.inr ⟨⟨a, ha, hp, rfl⟩, hn⟩
  · rintro (⟨b, hb, hp, rfl⟩ | ⟨⟨a, ha, hp, rfl⟩, hn⟩)
    · exact ⟨hp, Or.inl ⟨b, hb, rfl⟩⟩
    · exact ⟨hp, Or.inr ⟨⟨a, ha, rfl⟩, hn⟩⟩

theorem mem_merged {i : Inode} : i ∈ (merged oA oB hA hB).inodes ↔
    ∃ ns n j, MergedDir (A.hashed hA) (B.hashed hB) ns ∧
      Picked (A.hashed hA) (B.hashed hB) (ns ++ [n]) j ∧ i = placed (pathStr ns) j :=
  mem_merge_concat (oA.mergeable hA).toSiblings (oB.mergeable hB).toSiblings

/-- The digest of a merged inode is its own. -/
theorem mergedHashes_path {i : Inode} (hi : i ∈ (merged oA oB hA hB).inodes) :
    mergedHashes A B hA hB i.path = i.hash := by
  have hl : lookup Inode.path i.path (mergeNodes (A.hashed hA) (B.hashed hB)) = some i :=
    (lookup_eq_some_iff (merged oA oB hA hB).nodup_paths).mpr ⟨hi, rfl⟩
  rw [mergedHashes, hl]
  rfl

/-- **A merge lists all of the other index.** -/
theorem placed_mem_merged (hA hB : Hashes) {ns : List Name} {n : Name} {b : Inode}
    (hb : b ∈ B.inodes) (hp : b.path = pathStr (ns ++ [n])) :
    placed (pathStr ns) (hB.apply b) ∈ (merged oA oB hA hB).inodes := by
  induction ns using List.reverseRecOn generalizing n b with
  | nil =>
    exact (mem_merged oA oB).mpr
      ⟨[], n, _, Or.inl rfl, picked_iff.mpr (Or.inl ⟨b, hb, hp, rfl⟩), rfl⟩
  | append_singleton ks k ih =>
    obtain ⟨dir, hdir, hdp, hd⟩ := B.exists_above _ _ (by simp) b hb hp
    refine (mem_merged oA oB).mpr ⟨ks ++ [k], n, _, Or.inr ⟨_, ih hdir hdp, hdp, ?_⟩,
      picked_iff.mpr (Or.inl ⟨b, hb, hp, rfl⟩), rfl⟩
    exact hd (by simp)

/-- **A merge lists what only `A` does in a listed directory.** -/
theorem placed_mem_merged_of_left (hA hB : Hashes) {ns : List Name} {n : Name} {a : Inode}
    (ha : a ∈ A.inodes) (hp : a.path = pathStr (ns ++ [n])) (hn : ∀ b ∈ B.inodes, b.path ≠ a.path)
    (hdir : MergedDir (A.hashed hA) (B.hashed hB) ns) :
    placed (pathStr ns) (hA.apply a) ∈ (merged oA oB hA hB).inodes :=
  (mem_merged oA oB).mpr ⟨ns, n, _, hdir, picked_iff.mpr (Or.inr ⟨⟨a, ha, hp, rfl⟩, hp ▸ hn⟩), rfl⟩

/-- **What is read back** of a merge: what `B` lists, and what is below a name in the
root that `B` does not list. -/
def Readable (B : Index) (i : Inode) : Prop :=
  (∃ b ∈ B.inodes, b.path = i.path) ∨ ∀ b ∈ B.inodes, b.path ≠ topName i.path

instance (B : Index) : DecidablePred (Readable B) := fun _ => inferInstanceAs (Decidable (_ ∨ _))

/-- The directory of what is read back is read back. -/
theorem Readable.parent {L : Index} : ∀ i ∈ L.inodes, Readable B i → ∀ j ∈ L.inodes,
    i.parent = some j.path → Readable B j := by
  intro i hi h j hj hp
  obtain ⟨ns, n, hpath, hparent⟩ := L.named i hi
  have hjp : j.path = pathStr ns := Option.some.inj (hp.symm.trans hparent)
  rcases h with ⟨b, hb, hbp⟩ | htop
  · obtain ⟨ms, m, hbpath, hbparent⟩ := B.named b hb
    obtain ⟨rfl, -⟩ := pathStr_concat_inj.mp (hbpath.symm.trans (hbp.trans hpath))
    rcases B.parent_mem b hb _ hbparent with hnil | ⟨dir, hdir, hdp, -⟩
    · exact absurd (hjp.trans hnil) (L.path_ne_nil hj)
    · exact Or.inl ⟨dir, hdir, hdp.trans hjp.symm⟩
  · refine Or.inr fun b hb hbp => htop b hb ?_
    obtain ⟨k, ks, rfl⟩ : ∃ k ks, ns = k :: ks := List.exists_cons_of_ne_nil fun h =>
      L.path_ne_nil hj (by rw [hjp, h, pathStr_nil])
    rw [hbp, hjp, hpath, List.cons_append, topName_pathStr, topName_pathStr]

/-- The index that is read back. -/
def readable (hA hB : Hashes) : Index := (merged oA oB hA hB).restrict (Readable B) Readable.parent

theorem mem_readable {i : Inode} : i ∈ (readable oA oB hA hB).inodes ↔
    i ∈ (merged oA oB hA hB).inodes ∧ Readable B i := by
  simp [readable, Index.restrict]

/-- If `A` adds nothing to a directory of `B`, then `B` lists nothing above what it does not list:
the climb comes to the first directory that it lists. -/
theorem path_ne_topName (hall : ∀ a ∈ A.inodes, (∀ b ∈ B.inodes, b.path ≠ a.path) →
      ∀ dir ∈ B.inodes, dir.isDirectory = true → a.parent ≠ some dir.path) (ns : List Name) :
    ∀ n, ∀ i ∈ (merged oA oB hA hB).inodes, i.path = pathStr (ns ++ [n]) →
      (∀ b ∈ B.inodes, b.path ≠ i.path) → ∀ b ∈ B.inodes, b.path ≠ topName i.path := by
  induction ns using List.reverseRecOn with
  | nil =>
    intro n i hi hp hn b hb hbp
    rw [hp, List.nil_append, topName_pathStr] at hbp
    exact hn b hb (by rw [hbp, hp, List.nil_append, pathStr_singleton])
  | append_singleton ks k ih =>
    intro n i hi hp hn
    obtain ⟨ms, m, j, hdir, hpick, rfl⟩ := (mem_merged oA oB).mp hi
    obtain ⟨rfl, -⟩ := pathStr_concat_inj.mp (hpick.1.symm.trans hp)
    obtain ⟨dir, hmem, hdp, hd⟩ := hdir.resolve_left (by simp)
    have htop : topName (placed (pathStr (ks ++ [k])) j).path = topName dir.path := by
      rw [hp, hdp]
      cases ks <;> simp
    rw [htop]
    refine ih k dir hmem hdp fun b hb hbp => ?_
    -- `B` lists the directory, and `A` alone the inode in it
    obtain ⟨ls, l, j', -, hpick', rfl⟩ := (mem_merged oA oB).mp hmem
    obtain ⟨b', hb', hbp', rfl⟩ := (picked_iff.mp hpick').resolve_right fun h =>
      h.2 b hb (hbp.trans hpick'.1)
    obtain ⟨⟨a, ha, hap, -⟩, -⟩ := (picked_iff.mp hpick).resolve_left
      fun ⟨b, hb, hbp, _⟩ => hn b hb (hbp.trans hpick.1.symm)
    obtain ⟨ns', n', hpath, hparent⟩ := A.named a ha
    obtain ⟨rfl, -⟩ := pathStr_concat_inj.mp (hpath.symm.trans hap)
    refine hall a ha (fun b hb hbp => hn b hb ?_) b' hb' hd ?_
    · rw [hbp, hap]
      exact hpick.1.symm
    · rw [hparent, ← hdp]
      rfl

/-- **Everything is read back** exactly when nothing that only `A` lists is in a
directory that `B` lists too. -/
theorem forall_readable_iff : (∀ i ∈ (merged oA oB hA hB).inodes, Readable B i) ↔
    ∀ a ∈ A.inodes, (∀ b ∈ B.inodes, b.path ≠ a.path) → ∀ dir ∈ B.inodes,
      dir.isDirectory = true → a.parent ≠ some dir.path := by
  constructor
  · intro hall a ha hn dir hdir hd hp
    obtain ⟨ns, n, hpath, hparent⟩ := A.named a ha
    have hdp : dir.path = pathStr ns := Option.some.inj (hp.symm.trans hparent)
    obtain ⟨k, ks, rfl⟩ : ∃ k ks, ns = k :: ks := List.exists_cons_of_ne_nil fun h =>
      B.path_ne_nil hdir (by rw [hdp, h, pathStr_nil])
    -- the directory is merged, and so `a` is
    obtain ⟨ms, m, hmp, -⟩ := B.named dir hdir
    have hmem := placed_mem_merged_of_left oA oB hA hB ha hpath hn
      (Or.inr ⟨_, placed_mem_merged oA oB hA hB hdir hmp, hdp, hd⟩)
    rcases hall _ hmem with ⟨b, hb, hbp⟩ | htop
    · exact hn b hb hbp
    · obtain ⟨top, htopmem, htp, -⟩ := B.exists_above [k] ks (by simp) dir hdir hdp
      refine htop top htopmem ?_
      rw [htp, placed_path, Hashes.apply_path, hpath, List.cons_append, topName_pathStr,
        pathStr_singleton]
  · intro hall i hi
    by_cases hb : ∃ b ∈ B.inodes, b.path = i.path
    · exact Or.inl hb
    · obtain ⟨ns, n, hp, -⟩ := (merged oA oB hA hB).named i hi
      exact Or.inr (path_ne_topName oA oB hall ns n i hi hp fun b hb' hbp => hb ⟨b, hb', hbp⟩)

end Merge

/-! ### Adding the merge -/

/-- **A run of `cache::add` on a merged index** that returns. -/
structure MergeAdd (H : HashFunction) {A B : Index} (oA : A.InOrder) (oB : B.InOrder)
    (hA hB : Hashes) (st₀ : Store) where
  calls : AddCalls
  final : AddState
  run : Reaches (AddStep H (merged oA oB hA hB) calls)
    (AddState.start (merged oA oB hA hB) st₀ (mergedHashes A B hA hB)) final
  returned : final.main = .returned

namespace MergeAdd

variable {H : HashFunction} {S : Set Bytes} {A B : Index} {oA : A.InOrder} {oB : B.InOrder}
  {hA hB : Hashes} {st₀ : Store} {contentA contentB : Bytes → Bytes}
  (m : MergeAdd H oA oB hA hB st₀)

/-- `_inodes` after the run. -/
def inodes : List Inode := (merged oA oB hA hB).inodes.map m.final.hash.apply

/-- The digest of the root. -/
def digest : Digest := m.final.hash []

/-- The byte strings that must not collide: the tree object of the root, and what the
store has under its digest. -/
def atHand : List Bytes :=
  (merged oA oB hA hB).tree m.final.hash [] :: (m.final.store (treePath m.digest)).toList

/-- No temporary file of a tree object loses bytes when it is closed. -/
def Whole : Prop := Lossless m.calls.leaves

theorem added : Added H (merged oA oB hA hB) m.calls st₀ (mergedHashes A B hA hB) m.final.store
    m.final.hash :=
  added_of_returned m.run m.returned

/-- **Nothing but the root is digested**: the merged inodes keep what they have. -/
theorem hash_eq (cA : A.Cached H contentA hA st₀) (cB : B.Cached H contentB hB st₀) {i : Inode}
    (hi : i ∈ (merged oA oB hA hB).inodes) : m.final.hash i.path = i.hash := by
  have hsrc : (i.isFile = true → i.hash.empty = false) ∧
      (i.isDirectory = true → needsTree st₀ i.hash = false) := by
    obtain ⟨ns, n, j, -, hpick, rfl⟩ := (mem_merged oA oB).mp hi
    rcases picked_iff.mp hpick with ⟨b, hb, -, rfl⟩ | ⟨⟨a, ha, -, rfl⟩, -⟩
    · exact Index.Cached.not_needed (i := b) cB hb
    · exact Index.Cached.not_needed (i := a) cA ha
  have hbefore : mergedHashes A B hA hB i.path = i.hash := mergedHashes_path oA oB hi
  by_cases hf : i.isFile = true
  · rcases (m.added.file i hi hf).1 with ⟨-, heq⟩ | ⟨he, -⟩
    · rw [heq, hbefore]
    · rw [hbefore, hsrc.1 hf] at he
      cases he
  · rw [Index.kept_of_added m.added hi (by simpa using hf) fun hd => by
      rw [hbefore]
      exact hsrc.2 hd, hbefore]

theorem entry_apply (cA : A.Cached H contentA hA st₀) (cB : B.Cached H contentB hB st₀) {i : Inode}
    (hi : i ∈ (merged oA oB hA hB).inodes) : (m.final.hash.apply i).entry = i.entry :=
  Inode.entry_eq_iff.mpr ⟨rfl, rfl, rfl, m.hash_eq cA cB hi⟩

/-- **The tree object of a directory `B` lists** is the one `B` has. -/
theorem tree_right (cA : A.Cached H contentA hA st₀) (cB : B.Cached H contentB hB st₀) {dir : Inode}
    (hdir : dir ∈ B.inodes) :
    (readable oA oB hA hB).tree m.final.hash dir.path = B.tree hB dir.path := by
  obtain ⟨ks, k, hdp, -⟩ := B.named dir hdir
  refine Index.tree_eq_of_entries _ fun e => ?_
  constructor
  · rintro ⟨c, hc, hp, rfl⟩
    obtain ⟨hmem, hr⟩ := (mem_readable oA oB).mp hc
    rw [m.entry_apply cA cB hmem]
    obtain ⟨ns, n, j, -, hpick, rfl⟩ := (mem_merged oA oB).mp hmem
    obtain rfl : ns = ks ++ [k] := pathStr_injective ((Option.some.inj hp).trans hdp)
    rcases picked_iff.mp hpick with ⟨b, hb, hbp, rfl⟩ | ⟨-, hn⟩
    · obtain ⟨ls, l, hbpath, hbpar⟩ := B.named b hb
      obtain ⟨rfl, -⟩ := pathStr_concat_inj.mp (hbpath.symm.trans hbp)
      exact ⟨b, hb, by rw [hbpar, hdp], rfl⟩
    · -- `B` lists the first name, so it would list the inode
      rcases hr with ⟨b, hb, hbp⟩ | htop
      · exact absurd (hbp.trans hpick.1) (hn b hb)
      · obtain ⟨t, ts, hts⟩ := List.exists_cons_of_ne_nil (l := ks ++ [k]) (by simp)
        obtain ⟨top, htopmem, htp, -⟩ :=
          B.exists_above [t] ts (by simp) dir hdir (by rw [hdp, hts]; rfl)
        refine absurd ?_ (htop top htopmem)
        rw [htp, placed_path, hpick.1, hts, List.cons_append, topName_pathStr, pathStr_singleton]
  · rintro ⟨b, hb, hp, rfl⟩
    obtain ⟨ns, n, hbp, hbpar⟩ := B.named b hb
    have hmem := placed_mem_merged oA oB hA hB hb hbp
    refine ⟨_, (mem_readable oA oB).mpr ⟨hmem, Or.inl ⟨b, hb, rfl⟩⟩, ?_, ?_⟩
    · rw [placed_parent, ← hbpar, hp]
    · rw [m.entry_apply cA cB hmem]
      rfl

/-- **The tree object of a directory only `A` lists**, below a name in the root that
`B` does not list, is the one `A` has. -/
theorem tree_left (cA : A.Cached H contentA hA st₀) (cB : B.Cached H contentB hB st₀) {dir : Inode}
    (hdir : dir ∈ (readable oA oB hA hB).inodes) (hd : dir.isDirectory = true)
    (hn : ∀ b ∈ B.inodes, b.path ≠ dir.path) :
    (readable oA oB hA hB).tree m.final.hash dir.path = A.tree hA dir.path := by
  obtain ⟨hmdir, hr⟩ := (mem_readable oA oB).mp hdir
  have htop := hr.resolve_left fun ⟨b, hb, hbp⟩ => hn b hb hbp
  obtain ⟨ks, k, hdp, -⟩ := (merged oA oB hA hB).named dir hmdir
  have hnone : ∀ n, ∀ b ∈ B.inodes, b.path ≠ pathStr (ks ++ [k] ++ [n]) := fun n b hb hbp => by
    obtain ⟨b', hb', hbp', -⟩ := B.exists_above _ _ (by simp) b hb hbp
    exact hn b' hb' (hbp'.trans hdp.symm)
  refine Index.tree_eq_of_entries _ fun e => ?_
  constructor
  · rintro ⟨c, hc, hp, rfl⟩
    obtain ⟨hmem, -⟩ := (mem_readable oA oB).mp hc
    rw [m.entry_apply cA cB hmem]
    obtain ⟨ns, n, j, -, hpick, rfl⟩ := (mem_merged oA oB).mp hmem
    obtain rfl : ns = ks ++ [k] := pathStr_injective ((Option.some.inj hp).trans hdp)
    obtain ⟨⟨a, ha, hap, rfl⟩, -⟩ := (picked_iff.mp hpick).resolve_left
      fun ⟨b, hb, hbp, _⟩ => hnone n b hb hbp
    obtain ⟨ls, l, hapath, hapar⟩ := A.named a ha
    obtain ⟨rfl, -⟩ := pathStr_concat_inj.mp (hapath.symm.trans hap)
    exact ⟨a, ha, by rw [hapar, hdp], rfl⟩
  · rintro ⟨a, ha, hp, rfl⟩
    obtain ⟨ns, n, hap, hapar⟩ := A.named a ha
    obtain rfl : ns = ks ++ [k] := by
      rw [hapar, hdp] at hp
      exact pathStr_injective (Option.some.inj hp)
    have hmem := placed_mem_merged_of_left oA oB hA hB ha hap
      (fun b hb hbp => hnone n b hb (hbp.trans hap)) (Or.inr ⟨dir, hmdir, hdp, hd⟩)
    refine ⟨_, (mem_readable oA oB).mpr ⟨hmem, Or.inr fun b hb hbp => htop b hb ?_⟩, ?_, ?_⟩
    · rw [hbp, placed_path, Hashes.apply_path, hap, hdp]
      cases ks <;> simp
    · rw [placed_parent, hdp]
    · rw [m.entry_apply cA cB hmem]
      rfl

/-- The tree object of the root lists the root of the merge. -/
theorem tree_root : (readable oA oB hA hB).tree m.final.hash [] =
    (merged oA oB hA hB).tree m.final.hash [] := by
  refine Index.tree_eq_of_entries _ fun e => exists_congr fun c => ?_
  rw [mem_readable, and_assoc]
  refine and_congr_right fun hmem => and_iff_right_of_imp fun h => ?_
  obtain ⟨ns, n, hp, hpar⟩ := (merged oA oB hA hB).named c hmem
  rw [hpar] at h
  obtain rfl : ns = [] := pathStr_eq_nil.mp (Option.some.inj h.1)
  by_cases hb : ∃ b ∈ B.inodes, b.path = c.path
  · exact Or.inl hb
  · refine Or.inr fun b hb' hbp => hb ⟨b, hb', ?_⟩
    rw [hbp, hp, List.nil_append, topName_pathStr, pathStr_singleton]

/-- **What can be read back is stored.** -/
theorem stored_readable (cA : A.Cached H contentA hA st₀) (cB : B.Cached H contentB hB st₀)
    (hst : TreesAddressed H st₀) (hwhole : m.Whole) (hS : H.CollisionFree S)
    (hw : ∀ b ∈ m.atHand, b ∈ S) :
    (readable oA oB hA hB).Stored m.final.hash m.final.store := by
  constructor
  · obtain ⟨hmade, hhas⟩ := m.added.made [] (Index.mem_rebuilt.mpr (Or.inl rfl))
    have hsum := hmade.eq hwhole
    obtain ⟨b, hb⟩ := Option.isSome_iff_exists.mp hhas
    have haddr : TreesAddressed H m.final.store := treesAddressed_of_run m.run hst
    have hb' : b = (merged oA oB hA hB).tree m.final.hash [] := by
      refine hS (hw _ ?_) (hw _ (List.mem_cons_self ..)) ?_
      · rw [atHand, digest, hb]
        simp
      · rw [haddr _ b (by rw [hsum, H.sum_alg]) hb]
        exact hsum
    rw [hb, hb', m.tree_root]
  · intro i hi hd
    obtain ⟨hmem, -⟩ := (mem_readable oA oB).mp hi
    rw [m.hash_eq cA cB hmem]
    by_cases hb : ∃ b ∈ B.inodes, b.path = i.path
    · obtain ⟨b, hb, hbp⟩ := hb
      obtain ⟨ns, n, j, -, hpick, rfl⟩ := (mem_merged oA oB).mp hmem
      obtain ⟨b', hb', hbp', rfl⟩ := (picked_iff.mp hpick).resolve_right fun h =>
        h.2 b hb (hbp.trans hpick.1)
      exact (treePath_kept m.run (cB.stored.dir b' hb' hd)).trans
        (congrArg some (m.tree_right cA cB hb').symm)
    · have hn : ∀ b ∈ B.inodes, b.path ≠ i.path := fun b hb' hbp => hb ⟨b, hb', hbp⟩
      have htree := m.tree_left cA cB hi hd hn
      obtain ⟨ns, n, j, -, hpick, rfl⟩ := (mem_merged oA oB).mp hmem
      obtain ⟨⟨a, ha, hap, rfl⟩, -⟩ := (picked_iff.mp hpick).resolve_left
        fun ⟨b, hb, hbp, _⟩ => hn b hb (hbp.trans hpick.1.symm)
      exact (treePath_kept m.run (cA.stored.dir a ha hd)).trans (congrArg some htree.symm)

/-- The records of a merge can be read back. -/
theorem encodable_readable (cA : A.Cached H contentA hA st₀) (cB : B.Cached H contentB hB st₀) :
    (readable oA oB hA hB).Encodable m.final.hash := by
  intro i hi
  obtain ⟨hmem, -⟩ := (mem_readable oA oB).mp hi
  have hhash := m.hash_eq cA cB hmem
  obtain ⟨ns, n, j, -, hpick, rfl⟩ := (mem_merged oA oB).mp hmem
  have hof : ∀ {L : Index} {hs : Hashes} {c : Inode}, L.Encodable hs → c ∈ L.inodes →
      placed (pathStr ns) (hs.apply c) = placed (pathStr ns) j →
      (m.final.hash.apply (placed (pathStr ns) j)).Encodable := by
    intro L hs c henc hc he
    obtain ⟨h1, h2, h3⟩ := henc c hc
    rw [← he] at hhash ⊢
    exact ⟨by rw [Hashes.apply_hash, hhash]; exact h1, h2, h3⟩
  rcases picked_iff.mp hpick with ⟨b, hb, -, rfl⟩ | ⟨⟨a, ha, -, rfl⟩, -⟩
  · exact hof cB.encodable hb rfl
  · exact hof cA.encodable ha rfl

end MergeAdd

/-! ### Reading the merge back -/

/-- **What a tree has to keep of an inode**: path, status, target, and the digest of a
file. -/
def Entry.kept (e : Entry) : Entry :=
  if e.status.type = .regular then e else { e with hash := Digest.none }

/-- **The tree under a digest reads back** as the inodes of a list, up to the digests
of directories. -/
def ReadsBack (st : Store) (h : Digest) (nodes : List Inode) : Prop :=
  ∀ sched : Schedule, ∃ levels, ∀ fuel ≥ levels, ∃ l,
    indexFromTree st sched fuel h = some (.ok l) ∧
      (sortBy Inode.path l).map (fun i => i.entry.kept) =
        (sortBy Inode.path nodes).map fun i => i.entry.kept

namespace MergeAdd

variable {H : HashFunction} {S : Set Bytes} {A B : Index} {oA : A.InOrder} {oB : B.InOrder}
  {hA hB : Hashes} {st₀ : Store} {contentA contentB : Bytes → Bytes}
  (m : MergeAdd H oA oB hA hB st₀)

/-- **A merge reads back** exactly when everything in it is readable. -/
theorem readsBack_iff_readable (cA : A.Cached H contentA hA st₀) (cB : B.Cached H contentB hB st₀)
    (hst : TreesAddressed H st₀) (hwhole : m.Whole) (hS : H.CollisionFree S)
    (hw : ∀ b ∈ m.atHand, b ∈ S) :
    ReadsBack m.final.store m.digest m.inodes ↔
      ∀ i ∈ (merged oA oB hA hB).inodes, Readable B i := by
  have henc := m.encodable_readable cA cB
  have hstored := m.stored_readable cA cB hst hwhole hS hw
  constructor
  · intro h i hi
    obtain ⟨levels, hlev⟩ := h Schedule.sequential
    obtain ⟨l, hl, hsort⟩ := hlev _ (le_max_left levels (readable oA oB hA hB).levels)
    obtain ⟨l', hl', hsort'⟩ := Index.sort_indexFromTree henc hstored Schedule.sequential
      (le_max_right levels (readable oA oB hA hB).levels)
    obtain rfl : l = l' := by
      rw [digest, hl'] at hl
      simpa using hl.symm
    have hpaths : (sortBy Inode.path l).map Inode.path =
        (sortBy Inode.path m.inodes).map Inode.path := by
      have h := congrArg (List.map Entry.path) hsort
      have hkept : (fun i : Inode => i.entry.kept.path) = Inode.path := by
        funext i
        rw [Entry.kept]
        split_ifs <;> rfl
      simpa only [List.map_map, Function.comp_def, hkept] using h
    have hpaths' : (sortBy Inode.path l).map Inode.path =
        (sortBy Inode.path (readable oA oB hA hB).inodes).map Inode.path := by
      have h := congrArg (List.map Entry.path) hsort'
      rw [List.map_map, List.map_map, List.map_map] at h
      exact h
    have hmem : i.path ∈ (sortBy Inode.path (readable oA oB hA hB).inodes).map Inode.path := by
      rw [← hpaths', hpaths]
      exact List.mem_map.mpr ⟨_, mem_sortBy.mpr (List.mem_map_of_mem hi), rfl⟩
    obtain ⟨j, hj, hjp⟩ := List.mem_map.mp hmem
    obtain ⟨hjm, hr⟩ := (mem_readable oA oB).mp (mem_sortBy.mp hj)
    rwa [(merged oA oB hA hB).eq_of_path_eq hi hjm hjp.symm]
  · intro hall sched
    refine ⟨(readable oA oB hA hB).levels, fun fuel hfuel => ?_⟩
    obtain ⟨l, hl, hsort⟩ := Index.sort_indexFromTree henc hstored sched hfuel
    have hinodes : (readable oA oB hA hB).inodes = (merged oA oB hA hB).inodes :=
      List.filter_eq_self.mpr fun i hi => by simpa using hall i hi
    refine ⟨l, hl, ?_⟩
    rw [hinodes, Index.map_apply_sortBy] at hsort
    have h := congrArg (List.map Entry.kept) hsort
    simpa only [List.map_map, Function.comp_def, MergeAdd.inodes] using h

end MergeAdd

/-! ### Two sample indexes with one directory -/

namespace Sample

/-- The other workspace: the directory `d` with a symlink `m`. -/
def m : Name := ⟨ascii ['m'], by decide, by decide⟩

@[inherit_doc m] def diskM : Disk where
  entries := [([], .dir 0o755 1 0), ([Sample.d], .dir 0o755 3 0),
    ([Sample.d, m], .symlink 4 (ascii ['x']))]

theorem diskM_wellFormed : diskM.WellFormed :=
  Disk.wellFormed_of_entries (by decide) (by decide) (by decide)

/-- The tree object of its `d`. -/
def treeM : Bytes := encodeTree [scanned (ascii ['d']) m (.symlink 4 (ascii ['x']))]

/-- The tree object of its root. -/
def treeRootM : Bytes :=
  encodeTree [(scanned [] Sample.d (.dir 0o755 3 0)).setHash
    ⟨.sha1, hexString 40 0x132b51377e68b0d615d5a50e1ad002bca44475dd⟩]

/-- The tree object of the root of the merge. -/
def treeRootBoth : Bytes :=
  encodeTree [
    (scanned [] Sample.a (.file 0o644 2 (ascii ['x']))).setHash
      ⟨.sha1, hexString 40 0x11f6ad8ec52a2984abaafd7c3b516503785c2072⟩,
    (scanned [] Sample.d (.dir 0o755 3 0)).setHash
      ⟨.sha1, hexString 40 0x132b51377e68b0d615d5a50e1ad002bca44475dd⟩]

/-- SHA-1 on the byte strings of both workspaces and their merge. -/
def hashM : HashFunction := .ofTable [
  (ascii ['x'], 0x11f6ad8ec52a2984abaafd7c3b516503785c2072),
  (treeD, 0xa1b5c0affee79826b4772e11064f51915eaabd26),
  (treeRoot, 0x5fafb8692f3557586d5e9de55efd766aaa8b9a31),
  (treeM, 0x132b51377e68b0d615d5a50e1ad002bca44475dd),
  (treeRootM, 0x72c4b148211c70832bea98a0a0264cbe6b639a38),
  (treeRootBoth, 0xd137c9257c2436a97dcace98ad1bc95f76be786d)]

/-- The scan of the other workspace. -/
def scanM : Scan diskM (fun _ => false) [] := .sequential diskM _ [] (by decide)

/-- The run on the first workspace. -/
def left : WriteTree hashM disk (fun _ => false) [] none Store.empty :=
  .ofThread scan 30 (by decide)

set_option maxRecDepth 8000 in
/-- The run on the other workspace, with the same cache. -/
def right : WriteTree hashM diskM (fun _ => false) [] none left.final.store :=
  .ofThread scanM 30 (by decide)

/-- The store with both trees. -/
def storeM : Store := right.final.store

theorem inOrder_left : left.scan.index.InOrder :=
  Index.inOrder_of_strictBy left.scan.strictBy_inodes (by decide)

theorem inOrder_right : right.scan.index.InOrder :=
  Index.inOrder_of_strictBy right.scan.strictBy_inodes (by decide)

/-- The byte strings of the sample. -/
def stringsM : List Bytes := [ascii ['x'], treeD, treeRoot, treeM, treeRootM, treeRootBoth]

set_option maxRecDepth 8000 in
theorem collisionFree_M : hashM.CollisionFree {b | b ∈ stringsM} :=
  HashFunction.collisionFree_list (by decide)

theorem merkle_left : left.scan.index.Merkle hashM (disk.contentAt []) left.final.hash :=
  left.truthful_of_none.merkle left.added (WriteTree.whole_ofThread _ _ _)

theorem merkle_right : right.scan.index.Merkle hashM (diskM.contentAt []) right.final.hash :=
  right.truthful_of_none.merkle right.added (WriteTree.whole_ofThread _ _ _)

set_option maxRecDepth 8000 in
theorem cached_left :
    left.scan.index.Cached hashM (disk.contentAt []) left.final.hash storeM where
  merkle := merkle_left
  encodable := merkle_left.encodable disk_wellFormed
  stored := ⟨by decide, by decide⟩
  objects := by decide

set_option maxRecDepth 8000 in
theorem cached_right :
    right.scan.index.Cached hashM (diskM.contentAt []) right.final.hash storeM where
  merkle := merkle_right
  encodable := merkle_right.encodable diskM_wellFormed
  stored := ⟨by decide, by decide⟩
  objects := by decide

theorem treesAddressed_M : TreesAddressed hashM storeM :=
  treesAddressed_of_run right.run
    (treesAddressed_of_run left.run (contentAddressed_empty hashM).trees)

set_option maxRecDepth 8000 in
/-- The run on the merge. -/
def joint : MergeAdd hashM inOrder_left inOrder_right left.final.hash right.final.hash storeM where
  calls := readsAs (disk.contentAt []) (leaving id)
  final := runThread hashM (merged inOrder_left inOrder_right left.final.hash right.final.hash)
    (disk.contentAt []) id 30 (AddState.start _ storeM
      (mergedHashes left.scan.index right.scan.index left.final.hash right.final.hash))
  run := reaches_runThread 30
  returned := by decide

theorem whole_joint : joint.Whole := lossless_leaving

set_option maxRecDepth 8000 in
theorem atHand_joint : ∀ b ∈ joint.atHand, b ∈ stringsM := by decide

set_option maxRecDepth 8000 in
/-- The symlink `d/l` is merged, and cannot be read back. -/
theorem not_readable_joint : ¬ ∀ i ∈ (merged inOrder_left inOrder_right left.final.hash
    right.final.hash).inodes, Readable right.scan.index i := by decide

end Sample

/-- **When the stored tree of a merge is the merge.** Two indexes that are in the cache
are merged and added: if no temporary file of a tree object loses bytes when it is closed, the
tree under the digest of the root reads back as the merged inodes exactly when no inode that only
the first lists is directly in a directory that the second lists. -/
theorem merge_readsBack_iff {H : HashFunction} {S : Set Bytes} {A B : Index} {oA : A.InOrder}
    {oB : B.InOrder} {hA hB : Hashes} {st₀ : Store} {contentA contentB : Bytes → Bytes}
    (m : MergeAdd H oA oB hA hB st₀) (cA : A.Cached H contentA hA st₀)
    (cB : B.Cached H contentB hB st₀) (hst : TreesAddressed H st₀) (hwhole : m.Whole)
    (hS : H.CollisionFree S) (hw : ∀ b ∈ m.atHand, b ∈ S) :
    ReadsBack m.final.store m.digest m.inodes ↔
      ∀ a ∈ A.inodes, (∀ b ∈ B.inodes, b.path ≠ a.path) → ∀ dir ∈ B.inodes,
        dir.isDirectory = true → a.parent ≠ some dir.path := by
  rw [m.readsBack_iff_readable cA cB hst hwhole hS hw, forall_readable_iff]

/-- When the merge of the sample reads back. -/
theorem merge_readsBack_iff_sample :
    ReadsBack Sample.joint.final.store Sample.joint.digest Sample.joint.inodes ↔
      ∀ a ∈ Sample.left.scan.index.inodes,
        (∀ b ∈ Sample.right.scan.index.inodes, b.path ≠ a.path) →
        ∀ dir ∈ Sample.right.scan.index.inodes,
          dir.isDirectory = true → a.parent ≠ some dir.path :=
  merge_readsBack_iff Sample.joint Sample.cached_left Sample.cached_right Sample.treesAddressed_M
    Sample.whole_joint Sample.collisionFree_M Sample.atHand_joint

/-- **A merge loses what only one index has** in a directory of both: the symlink `d/l`
of the first is in the merged list, and not in the tree under its digest, though no file loses
bytes. -/
theorem merge_not_readsBack : ¬ ∀ (H : HashFunction) (S : Set Bytes) (A B : Index)
    (oA : A.InOrder) (oB : B.InOrder) (hA hB : Hashes) (st₀ : Store)
    (contentA contentB : Bytes → Bytes) (m : MergeAdd H oA oB hA hB st₀),
    A.Cached H contentA hA st₀ → B.Cached H contentB hB st₀ → TreesAddressed H st₀ →
    m.Whole → H.CollisionFree S → (∀ b ∈ m.atHand, b ∈ S) →
    ReadsBack m.final.store m.digest m.inodes := fun h =>
  Sample.not_readable_joint ((Sample.joint.readsBack_iff_readable Sample.cached_left
    Sample.cached_right Sample.treesAddressed_M Sample.whole_joint Sample.collisionFree_M
    Sample.atHand_joint).mp
    (h _ _ _ _ _ _ _ _ _ _ _ Sample.joint Sample.cached_left Sample.cached_right
      Sample.treesAddressed_M Sample.whole_joint Sample.collisionFree_M Sample.atHand_joint))

end Fstree
