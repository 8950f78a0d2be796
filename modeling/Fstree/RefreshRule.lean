import Fstree.Refresh

/-!
# The rule of a refresh

The loop of `index::refresh` appends each inode of the scan to `_inodes` and sets or clears
digests on the way (`Fstree.runRefresh`). A digest that was set is cleared again when something
below it cannot reuse its own, and `set_dirty` stops at the first parent that is dirty already.

For any old list that is sorted and closed under parents, and any list a scan may give, the outcome
is a rule about the two lists, in which the walk and its order do not occur
(`Fstree.refresh_rule`).
-/

namespace Fstree

open SortedBy TwoCursor

/-- **What a refresh has made so far**: `_inodes`, and the digests of the inodes of the scan. -/
structure Refreshing where
  inodes : List Inode
  hashes : Hashes

/-- The inode of the scan is appended. -/
def Refreshing.push (r : Refreshing) (i : Inode) : Refreshing :=
  { r with inodes := r.inodes ++ [i] }

/-- **The loop of `index::refresh`** over the list of a scan and the old list. -/
def runRefresh (H : HashFunction) (parentOf : Bytes → Option Bytes) (inodes old : List Inode) :
    Refreshing :=
  walk Inode.path Inode.path Refreshing.push
    (fun r i o => { r.push i with hashes := refreshBoth H parentOf r.hashes i o }) inodes old
    ⟨[], Hashes.clean⟩

section Rule

variable {H : HashFunction} {parentOf : Bytes → Option Bytes} {inodes old : List Inode}

/-- **`_inodes` is the list of the scan.** -/
theorem inodes_runRefresh : (runRefresh H parentOf inodes old).inodes = inodes :=
  walk_induction (P := fun done (r : Refreshing) => r.inodes = done)
    (fun _ _ _ h => h ▸ rfl) (fun _ _ _ _ h => h ▸ rfl) inodes old rfl

/-- The digests do not depend on what has been appended. -/
theorem hashes_runRefresh (hlinked : ParentLinked inodes parentOf)
    (hold : StrictBy Inode.path old) :
    (runRefresh H parentOf inodes old).hashes = refreshList H parentOf inodes old := by
  rw [runRefresh, refreshList, walk_eq_foldl hlinked.strict hold,
    walk_eq_foldl hlinked.strict hold]
  have hfold : ∀ (l : List Inode) (r : Refreshing),
      (l.foldl (joinStep Inode.path Inode.path Refreshing.push
          (fun r i o => { r.push i with hashes := refreshBoth H parentOf r.hashes i o }) old)
        r).hashes =
      l.foldl (joinStep Inode.path Inode.path (fun hs _ => hs) (refreshBoth H parentOf) old)
        r.hashes := by
    intro l
    induction l with
    | nil => exact fun _ => rfl
    | cons i l ih =>
      intro r
      rw [List.foldl_cons, List.foldl_cons, ih]
      congr 1
      rw [joinStep, joinStep]
      cases lookup Inode.path i.path old <;> rfl
  exact hfold inodes _

/-- Parent pointers lead to the proper ancestors, and to nothing else. -/
theorem climbs_iff (hlinked : ParentLinked inodes parentOf) {i j : Inode} (hi : i ∈ inodes)
    (hj : j ∈ inodes) :
    Climbs parentOf j.path i.path ↔ j.path = i.path ∨ Ancestor i.path j.path := by
  constructor
  · intro hc
    have hne : ∀ ns, i.path = pathStr ns → ns ≠ [] := by
      rintro _ hp rfl
      obtain ⟨q, hq, -⟩ := hlinked.linked i hi
      obtain ⟨ms, m, hm, -⟩ := hlinked.cut _ _ hq
      rw [hp] at hm
      simp at hm
    -- the climb is taken from its lower end, where one name is cut off
    generalize j.path = p at hc
    induction hc using Relation.ReflTransGen.head_induction_on with
    | refl => exact Or.inl rfl
    | head hstep _ ih =>
      obtain ⟨ns, n, rfl, hq⟩ := hlinked.cut _ _ hstep
      refine Or.inr ?_
      rcases ih with he | ⟨ks, ms, hk, hm, hkne, -⟩
      · have hi := hq.symm.trans he
        exact ⟨ns, [n], hi.symm, rfl, hne ns hi.symm, by simp⟩
      · obtain rfl : ns = ks ++ ms := pathStr_injective (hq.symm.trans hm)
        exact ⟨ks, ms ++ [n], hk, by simp, hkne, by simp⟩
  · rintro (he | ⟨ns, ms, hip, hjp, hns, -⟩)
    · rw [he]
      exact Relation.ReflTransGen.refl
    · rw [hip, hjp]
      clear hi hip
      -- the names below the ancestor are cut off from the end, and what is left is in the list
      induction ms using List.reverseRecOn generalizing j with
      | nil =>
        rw [List.append_nil]
        exact Relation.ReflTransGen.refl
      | append_singleton ms m ih =>
        obtain ⟨q, hq, hmem⟩ := hlinked.linked j hj
        obtain ⟨ks, k, hk, rfl⟩ := hlinked.cut _ _ hq
        have he : ns ++ ms ++ [m] = ks ++ [k] := pathStr_injective (by
          rw [← hk, hjp, List.append_assoc])
        obtain ⟨rfl, -⟩ := List.append_inj' he rfl
        rw [hjp] at hq
        refine Relation.ReflTransGen.head hq ?_
        rcases hmem with hnil | ⟨k', hk', hkp⟩
        · exact absurd (pathStr_eq_nil.mp hnil) (by simp [hns])
        · exact ih hk' hkp

/-- **The test for reusing a digest**: the old list has the path with a digest of this build and
equivalent metadata, and so it has every path of the scan below that it has at all. -/
def Reuses (H : HashFunction) (inodes old : List Inode) (i : Inode) : Prop :=
  (∃ o ∈ old, o.path = i.path ∧ Reusable H o i) ∧
    ∀ j ∈ inodes, Ancestor i.path j.path → ∀ o ∈ old, o.path = j.path → Reusable H o j

/-- The old digest is held at its path. -/
def Refreshing.Holds (r : Refreshing) (o : Inode) : Prop :=
  r.hashes o.path = o.hash ∧ o.hash.empty = false

/-- The inode at the path is dirty. -/
def Refreshing.Dirty (r : Refreshing) (p : Bytes) : Prop := (r.hashes p).empty = true

theorem keptIn_iff (hlinked : ParentLinked inodes parentOf) (hold : StrictBy Inode.path old)
    {i : Inode} (hi : i ∈ inodes) :
    KeptIn H parentOf inodes old i.path ↔ Reuses H inodes old i := by
  constructor
  · rintro ⟨⟨-, -, -, o, ho, hop⟩, hall⟩
    refine ⟨⟨o, ho, hop, hall i hi o ho hop Relation.ReflTransGen.refl⟩,
      fun j hj habove o' ho' hp => ?_⟩
    exact hall j hj o' ho' hp ((climbs_iff hlinked hi hj).mpr (Or.inr habove))
  · rintro ⟨⟨o, ho, hop, hr⟩, hall⟩
    refine ⟨⟨i, hi, rfl, o, ho, hop⟩, fun j hj o' ho' hp hc => ?_⟩
    rcases (climbs_iff hlinked hi hj).mp hc with he | habove
    · -- a path is in each of the lists once
      obtain rfl := eq_of_key_eq hlinked.strict.nodup_keys hj hi he
      obtain rfl := eq_of_key_eq hold.nodup_keys ho' ho (hp.trans hop.symm)
      exact hr
    · exact hall j hj habove o' ho' hp

/-- **The rule of a refresh.** `_inodes` is the list of the scan. An inode of it holds the digest
that the old list has for its path if and only if it passes the test, and is dirty if it does not.
So an inode of both lists that fails the test by itself is dirty, and so are all its ancestors and
the root, though `set_dirty` stops at the first that is dirty already. -/
theorem refresh_rule (hlinked : ParentLinked inodes parentOf) (hold : StrictBy Inode.path old)
    (hclosed : ParentClosed old) :
    (runRefresh H parentOf inodes old).inodes = inodes ∧
    (∀ i ∈ inodes,
      ((∃ o ∈ old, o.path = i.path ∧ (runRefresh H parentOf inodes old).Holds o) ↔
        Reuses H inodes old i) ∧
      (¬ Reuses H inodes old i → (runRefresh H parentOf inodes old).Dirty i.path)) ∧
    ∀ j ∈ inodes, ∀ o ∈ old, o.path = j.path → ¬ Reusable H o j →
      (runRefresh H parentOf inodes old).Dirty j.path ∧
      (runRefresh H parentOf inodes old).Dirty [] ∧
      ∀ i ∈ inodes, Ancestor i.path j.path → (runRefresh H parentOf inodes old).Dirty i.path := by
  have hdirty : ∀ i ∈ inodes, ¬ Reuses H inodes old i →
      (runRefresh H parentOf inodes old).Dirty i.path := by
    intro i hi hnot
    have hnone : refreshList H parentOf inodes old i.path = Digest.none := by
      by_contra hne
      have hkept := (refreshList_ne_none_iff hlinked hold hclosed).mp hne
      exact hnot ((keptIn_iff hlinked hold hi).mp hkept)
    rw [Refreshing.Dirty, hashes_runRefresh hlinked hold, hnone]
    rfl
  refine ⟨inodes_runRefresh, fun i hi => ⟨⟨?_, fun hr => ?_⟩, hdirty i hi⟩,
    fun j hj o ho hop hbad => ⟨?_, ?_, fun i hi habove => ?_⟩⟩
  · rintro ⟨o, ho, hop, hhash, hempty⟩
    -- what fails the test is dirty, and so it does not hold a digest
    by_contra hnot
    have hd := hdirty i hi hnot
    rw [Refreshing.Dirty, ← hop, hhash, hempty] at hd
    cases hd
  · have hkept := (keptIn_iff hlinked hold hi).mpr hr
    obtain ⟨⟨o, ho, hop, hreuse⟩, -⟩ := hr
    refine ⟨o, ho, hop, ?_, hreuse.not_empty⟩
    rw [hashes_runRefresh hlinked hold]
    exact refreshList_of_kept hlinked hold hclosed ho (hop.symm ▸ hkept)
  · refine hdirty j hj fun hr => hbad ?_
    obtain ⟨⟨o', ho', hop', hreuse⟩, -⟩ := hr
    rwa [eq_of_key_eq hold.nodup_keys ho ho' (hop.trans hop'.symm)]
  · rw [Refreshing.Dirty, hashes_runRefresh hlinked hold, refreshList_root hlinked hold]
    rfl
  · exact hdirty i hi fun hr => hbad (hr.2 j hj habove o ho hop)

end Rule

/-! ### A file that has changed -/

namespace Sample

/-- A directory and a file in it. -/
def scannedList : List Inode :=
  [scanned [] nameD (.dir 0o755 1 0), scanned nameD.bytes nameA (.file 0o644 2 (ascii ['x']))]

/-- Its parent pointers. -/
def scannedParent (p : Bytes) : Option Bytes :=
  if p = pathStr [nameD] then some []
  else if p = pathStr [nameD, nameA] then some (pathStr [nameD]) else none

/-- The list of an earlier scan, when the file was another, with its digests. -/
def earlierList : List Inode :=
  [(scanned [] nameD (.dir 0o755 1 0)).setHash ⟨.sha1, hexString 40 1⟩,
    (scanned nameD.bytes nameA (.file 0o644 7 (ascii ['y']))).setHash ⟨.sha1, hexString 40 2⟩]

theorem parentLinked_scannedList : ParentLinked scannedList scannedParent where
  strict := List.pairwise_pair.mpr (by decide)
  linked i hi := by
    rcases List.mem_pair.mp hi with rfl | rfl
    · exact ⟨[], by decide, Or.inl rfl⟩
    · exact ⟨pathStr [nameD], by decide, Or.inr ⟨_, List.mem_cons_self, by decide⟩⟩
  cut p q hq := by
    rw [scannedParent] at hq
    split_ifs at hq with hd ha
    · exact ⟨[], nameD, hd, (Option.some.inj hq).symm⟩
    · exact ⟨[nameD], nameA, ha, (Option.some.inj hq).symm⟩

theorem parentClosed_earlierList : ParentClosed earlierList := by
  intro o ho ns n hp
  rcases List.mem_pair.mp ho with rfl | rfl
  · have he : [nameD] = ns ++ [n] := pathStr_injective hp
    obtain ⟨rfl, -⟩ := List.append_inj' (show [] ++ [nameD] = ns ++ [n] from he) rfl
    exact Or.inl rfl
  · have he : [nameD, nameA] = ns ++ [n] := pathStr_injective hp
    obtain ⟨rfl, -⟩ := List.append_inj' (show [nameD] ++ [nameA] = ns ++ [n] from he) rfl
    exact Or.inr ⟨_, List.mem_cons_self, by decide⟩

end Sample

/-- The directory above the file that has changed is dirty. -/
theorem refresh_rule_sample :
    (runRefresh (.ofTable []) Sample.scannedParent Sample.scannedList Sample.earlierList).Dirty
      (pathStr [Sample.nameD]) := by
  have hrule := @refresh_rule (.ofTable []) _ _ _ Sample.parentLinked_scannedList
    (List.pairwise_pair.mpr (by decide)) Sample.parentClosed_earlierList
  have hbad : ¬ Reusable (.ofTable []) (Sample.earlierList[1]) (Sample.scannedList[1]) := fun h =>
    absurd h.equivalent (by decide)
  exact (hrule.2.2 _ (List.getElem_mem _) _ (List.getElem_mem _) rfl hbad).2.2 Sample.scannedList[0]
    (List.getElem_mem _) ⟨[Sample.nameD], [Sample.nameA], by decide, by decide, by simp, by simp⟩

end Fstree
