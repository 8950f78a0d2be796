import Fstree.Model.Inode
import Fstree.Model.Store

/-!
# Merkle trees, as digests name them

A digest names a tree by what is stored under it: the records of its tree object,
and below a record that is a directory the tree that the digest of the record names.
What is stored under a digest is a function `truth`, wherever it is stored.
`Fstree.MerkleTree` are the digests for which this ends, with objects that have the
digests they are under, `Fstree.Reachable` what can be reached from one, by the names
on the way.

`Fstree.listing` writes the tree down, as the inodes a reader makes of it. It lists
what is reachable (`Fstree.mem_listing`), each entry once
(`Fstree.nodup_listing`).
-/

namespace Fstree

/-! ### The tree under a digest -/

variable (truth : Digest → Bytes)

/-- **The records of the tree object under a digest**: the path of each is its name. -/
def records (d : Digest) : List Inode := (decodeTree [] (truth d)).1

/-- **A Merkle tree**: the tree object and the file objects have the digests they are
under, the object can be decoded, its names are names and distinct, and below its
directories there are Merkle trees. -/
inductive MerkleTree (H : HashFunction) : Digest → Prop
  | node {d} (sum : H.sum (truth d) = d) (decodes : (decodeTree [] (truth d)).2 = none)
      (names : ∀ r ∈ records truth d, ∃ n : Name, r.path = n.bytes)
      (nodup : ((records truth d).map Inode.path).Nodup)
      (files : ∀ r ∈ records truth d, r.isFile = true → H.sum (truth r.hash) = r.hash)
      (dirs : ∀ r ∈ records truth d, r.isDirectory = true → MerkleTree H r.hash) :
      MerkleTree H d

/-- **What is reachable from a digest**: a record, by the names on the way to it. -/
inductive Reachable : Digest → List Name → Inode → Prop
  | top {d} {n : Name} {r} (mem : r ∈ records truth d) (name : r.path = n.bytes) :
      Reachable d [n] r
  | deeper {d} {n : Name} {r ns s} (mem : r ∈ records truth d) (name : r.path = n.bytes)
      (dir : r.isDirectory = true) (rest : Reachable r.hash ns s) : Reachable d (n :: ns) s

/-- The inode of a record that is reached by these names. -/
def Inode.reachedBy (ns : List Name) (r : Inode) : Inode :=
  { r with path := pathStr ns, parent := some (pathStr ns.dropLast) }

/-- The children an inode at `p` gets from the tree object under `d`. -/
def children (p : Bytes) (d : Digest) : List Inode := (decodeTree p (truth d)).1

/-- **The tree under `d`, written down below `p`**, to a depth of `n`. -/
def listing : ℕ → Bytes → Digest → List Inode
  | 0, _, _ => []
  | n + 1, p, d =>
    (children truth p d).flatMap fun c =>
      c :: if c.isDirectory then listing n c.path c.hash else []

/-- What is listed below one inode. -/
def belowOf (n : ℕ) (c : Inode) : List Inode :=
  if c.isDirectory then listing truth n c.path c.hash else []

/-- The tree under a digest is not higher than this. -/
def HasHeight : ℕ → Digest → Prop
  | 0, _ => False
  | n + 1, d => ∀ r ∈ records truth d, r.isDirectory = true → HasHeight n r.hash

variable {truth} {H : HashFunction} {d : Digest} {p : Bytes} {n : ℕ}

theorem Reachable.ne_nil {ns : List Name} {r : Inode} (h : Reachable truth d ns r) : ns ≠ [] := by
  cases h <;> simp

theorem MerkleTree.sum (h : MerkleTree truth H d) : H.sum (truth d) = d := by
  cases h with
  | node sum => exact sum

/-- What is reachable in a Merkle tree has the digest it is under. -/
theorem MerkleTree.reachable (h : MerkleTree truth H d) {ns : List Name} {r : Inode}
    (hr : Reachable truth d ns r) :
    (r.isDirectory = true → MerkleTree truth H r.hash) ∧
      (r.isFile = true → H.sum (truth r.hash) = r.hash) := by
  induction hr with
  | top mem name =>
    cases h with
    | node sum decodes names nodup files dirs => exact ⟨dirs _ mem, files _ mem⟩
  | deeper mem name dir rest ih =>
    cases h with
    | node sum decodes names nodup files dirs => exact ih (dirs _ mem dir)

/-- The digest of a tree object of the tree under `d`. -/
def TreeIn (truth : Digest → Bytes) (d h : Digest) : Prop :=
  h = d ∨ ∃ ns r, Reachable truth d ns r ∧ r.isDirectory = true ∧ r.hash = h

/-- The digest of a file object of the tree under `d`. -/
def FileIn (truth : Digest → Bytes) (d h : Digest) : Prop :=
  ∃ ns r, Reachable truth d ns r ∧ r.isFile = true ∧ r.hash = h

theorem MerkleTree.treeIn (hm : MerkleTree truth H d) {h : Digest} (ht : TreeIn truth d h) :
    MerkleTree truth H h := by
  rcases ht with rfl | ⟨ns, r, hr, hd, rfl⟩
  · exact hm
  · exact (hm.reachable hr).1 hd

theorem MerkleTree.fileIn (hm : MerkleTree truth H d) {h : Digest} (hf : FileIn truth d h) :
    H.sum (truth h) = h := by
  obtain ⟨ns, r, hr, hf, rfl⟩ := hf
  exact (hm.reachable hr).2 hf

theorem Reachable.append {ns ms : List Name} {r s : Inode} (hr : Reachable truth d ns r)
    (hd : r.isDirectory = true) (hs : Reachable truth r.hash ms s) :
    Reachable truth d (ns ++ ms) s := by
  induction hr with
  | top mem name => exact .deeper mem name hd hs
  | deeper mem name dir rest ih => exact .deeper mem name dir (ih hd hs)

/-- A record of a tree object of the tree is reachable. -/
theorem MerkleTree.record (hm : MerkleTree truth H d) {t : Digest} (ht : TreeIn truth d t)
    {r : Inode} (hr : r ∈ records truth t) : ∃ ns, Reachable truth d ns r := by
  have hnames := hm.treeIn ht
  cases hnames with
  | node sum decodes names nodup files dirs =>
    obtain ⟨n, hn⟩ := names r hr
    rcases ht with rfl | ⟨ns, s, hs, hd, rfl⟩
    · exact ⟨_, .top hr hn⟩
    · exact ⟨_, hs.append hd (.top hr hn)⟩

/-- What is reachable is a record of some tree object of the tree. -/
theorem Reachable.exists_tree {ns : List Name} {r : Inode} (hr : Reachable truth d ns r) :
    ∃ t, TreeIn truth d t ∧ r ∈ records truth t := by
  induction hr with
  | top mem name => exact ⟨_, Or.inl rfl, mem⟩
  | @deeper d n s ns r mem name dir rest ih =>
    obtain ⟨t, ht, hmem⟩ := ih
    refine ⟨t, Or.inr ?_, hmem⟩
    rcases ht with rfl | ⟨ms, u, hu, hd, rfl⟩
    · exact ⟨_, s, .top mem name, dir, rfl⟩
    · exact ⟨_, u, .deeper mem name dir hu, hd, rfl⟩

/-! ### Stores of what is true -/

/-- **What a store has under the digest of an object is that object.** -/
def Store.Agrees (truth : Digest → Bytes) (H : HashFunction) (st : Store) : Prop :=
  ∀ d b, H.sum (truth d) = d → st (treePath d) = some b ∨ st (filePath d) = some b → b = truth d

/-- The paths of two objects are the same only for one digest. -/
theorem eq_of_objectPath_eq {d' : Digest} {b b' : Bytes} (hd : H.sum b = d) (hd' : H.sum b' = d')
    (h : treePath d' = treePath d ∨ filePath d' = filePath d) : d' = d := by
  have halg : d'.alg = H.alg := by
    rw [← hd']
    exact H.sum_alg b'
  rw [← hd] at h ⊢
  exact h.elim (treePath_eq_iff H halg).mp (filePath_eq_iff H halg).mp

/-- An object is put where it belongs. -/
theorem Store.Agrees.put {st : Store} (hst : st.Agrees truth H) (hd : H.sum (truth d) = d)
    {k : Bytes} (hk : k = treePath d ∨ k = filePath d) : (st.put k (truth d)).Agrees truth H := by
  intro d' b hd' hb
  by_cases hne : treePath d' ≠ k ∧ filePath d' ≠ k
  · rw [st.put_of_ne hne.1, st.put_of_ne hne.2] at hb
    exact hst d' b hd' hb
  · have he : d' = d := by
      rw [not_and_or, not_not, not_not] at hne
      refine eq_of_objectPath_eq hd hd' ?_
      rcases hk with rfl | rfl
      · exact Or.inl (hne.resolve_right (filePath_ne_treePath _ _))
      · exact Or.inr (hne.resolve_left fun h => filePath_ne_treePath _ _ h.symm)
    rw [he] at hd' hb ⊢
    have hput : ∀ k', st.put k (truth d) k' = some b → st k' = some b ∨ b = truth d := by
      intro k' hb'
      by_cases hk' : k' = k
      · rw [hk', Store.put_self] at hb'
        exact Or.inr (Option.some.inj hb').symm
      · rw [st.put_of_ne hk'] at hb'
        exact Or.inl hb'
    rcases hb with hb | hb
    · exact (hput _ hb).elim (fun hb => hst d b hd' (Or.inl hb)) id
    · exact (hput _ hb).elim (fun hb => hst d b hd' (Or.inr hb)) id

/-! ### What decoding makes of the records -/

/-- A record, read for a parent. -/
def Inode.under (p : Bytes) (r : Inode) : Inode :=
  { r with path := joinPath p r.path, parent := some p }

@[simp] theorem Inode.under_hash (p : Bytes) (r : Inode) : (r.under p).hash = r.hash := rfl

@[simp] theorem Inode.under_isDirectory (p : Bytes) (r : Inode) :
    (r.under p).isDirectory = r.isDirectory := rfl

theorem joinPath_joinPath_nil (p q : Bytes) : joinPath p (joinPath [] q) = joinPath p q := by
  simp [joinPath]

theorem readChild_under (p : Bytes) : readChild p = Inode.under p <$> readChild [] := by
  simp only [readChild, map_bind, map_pure, Inode.under, joinPath_joinPath_nil]

theorem decodeTree_under (p bs : Bytes) :
    decodeTree p bs = ((decodeTree [] bs).1.map (Inode.under p), (decodeTree [] bs).2) := by
  rw [decodeTree, decodeTree]
  cases readTreeHeader bs with
  | error e => rfl
  | ok r =>
    rw [readChild_under p]
    exact Codec.readAll_map _ _ _

theorem children_eq (p : Bytes) (d : Digest) :
    children truth p d = (records truth d).map (Inode.under p) := by
  rw [children, decodeTree_under]
  rfl

theorem under_reachedBy {ns : List Name} {n : Name} {r : Inode} (h : r.path = n.bytes) :
    r.under (pathStr ns) = r.reachedBy (ns ++ [n]) := by
  simp [Inode.under, Inode.reachedBy, h]

/-! ### Heights -/

theorem HasHeight.succ (h : HasHeight truth n d) : HasHeight truth (n + 1) d := by
  induction n generalizing d with
  | zero => exact h.elim
  | succ n ih => exact fun r hr hd => ih (h r hr hd)

theorem HasHeight.mono {m : ℕ} (h : HasHeight truth n d) (hm : n ≤ m) : HasHeight truth m d := by
  induction hm with
  | refl => exact h
  | step _ ih => exact ih.succ

/-- **A Merkle tree has a height.** -/
theorem MerkleTree.exists_height (h : MerkleTree truth H d) : ∃ n, HasHeight truth n d := by
  induction h with
  | @node d sum decodes names nodup files dirs ih =>
    have hall : ∀ l : List Inode, (∀ r ∈ l, r ∈ records truth d) →
        ∃ n, ∀ r ∈ l, r.isDirectory = true → HasHeight truth n r.hash := by
      intro l
      induction l with
      | nil => exact fun _ => ⟨0, by simp⟩
      | cons r l ihl =>
        intro hl
        obtain ⟨n, hn⟩ := ihl fun s hs => hl s (List.mem_cons_of_mem _ hs)
        by_cases hd : r.isDirectory = true
        · obtain ⟨m, hm⟩ := ih r (hl r List.mem_cons_self) hd
          refine ⟨max m n, List.forall_mem_cons.mpr ⟨fun _ => hm.mono (le_max_left _ _), ?_⟩⟩
          exact fun s hs hsd => (hn s hs hsd).mono (le_max_right _ _)
        · exact ⟨n, List.forall_mem_cons.mpr ⟨fun h => absurd h hd, hn⟩⟩
    obtain ⟨n, hn⟩ := hall _ fun _ hr => hr
    exact ⟨n + 1, hn⟩

/-- The children of a tree of a height, in a listing to that depth. -/
theorem mem_children {c : Inode} (hc : c ∈ children truth p d) :
    ∃ r ∈ records truth d, c = r.under p := by
  rw [children_eq] at hc
  obtain ⟨r, hr, rfl⟩ := List.mem_map.mp hc
  exact ⟨r, hr, rfl⟩

/-- **A listing to the height of the tree is complete**: one level more adds nothing. -/
theorem listing_eq (h : HasHeight truth n d) (p : Bytes) :
    listing truth n p d = (children truth p d).flatMap fun c => c :: belowOf truth n c := by
  induction n generalizing d p with
  | zero => exact h.elim
  | succ n ih =>
    refine List.flatMap_congr fun c hc => ?_
    obtain ⟨r, hr, rfl⟩ := mem_children hc
    rw [belowOf, Inode.under_isDirectory]
    split_ifs with hd
    · rw [Inode.under_hash, ih (h r hr hd)]
      rfl
    · rfl

theorem belowOf_under {ms : List Name} {m : Name} {r : Inode} (hr : r.path = m.bytes) :
    belowOf truth n (r.under (pathStr ms)) =
      if r.isDirectory then listing truth n (pathStr (ms ++ [m])) r.hash else [] := by
  rw [under_reachedBy hr]
  rfl

/-- A directory of a tree of a height is not higher. -/
theorem HasHeight.dir (h : HasHeight truth n d) {r : Inode} (hr : r ∈ records truth d)
    (hd : r.isDirectory = true) : HasHeight truth n r.hash := by
  cases n with
  | zero => exact h.elim
  | succ n => exact (h r hr hd).succ

/-! ### What a listing lists -/

/-- **A listing lists what is reachable.** -/
theorem mem_listing (hm : MerkleTree truth H d) (h : HasHeight truth n d) (ms : List Name)
    {c : Inode} : c ∈ listing truth n (pathStr ms) d ↔
      ∃ ns r, Reachable truth d ns r ∧ c = r.reachedBy (ms ++ ns) := by
  induction hm generalizing n ms c with
  | @node d sum decodes names nodup files dirs ih =>
    have hbelow : ∀ r ∈ records truth d, ∀ m, r.path = Name.bytes m → ∀ c,
        c ∈ belowOf truth n (r.under (pathStr ms)) ↔ r.isDirectory = true ∧
          ∃ ns s, Reachable truth r.hash ns s ∧ c = s.reachedBy (ms ++ m :: ns) := by
      intro r hr m hmr c
      rw [belowOf_under hmr]
      split_ifs with hd
      · simpa [hd] using ih r hr hd (h.dir hr hd) (ms ++ [m]) (c := c)
      · simp [hd]
    rw [listing_eq h, children_eq, List.mem_flatMap]
    constructor
    · rintro ⟨_, hc', hc⟩
      obtain ⟨r, hr, rfl⟩ := List.mem_map.mp hc'
      obtain ⟨m, hmr⟩ := names r hr
      rcases List.mem_cons.mp hc with rfl | hc
      · exact ⟨[m], r, .top hr hmr, under_reachedBy hmr⟩
      · obtain ⟨hd, ns, s, hs, rfl⟩ := (hbelow r hr m hmr c).mp hc
        exact ⟨m :: ns, s, .deeper hr hmr hd hs, rfl⟩
    · rintro ⟨ns, s, hs, rfl⟩
      cases hs with
      | top mem name =>
        exact ⟨_, List.mem_map_of_mem mem, List.mem_cons.mpr (Or.inl (under_reachedBy name).symm)⟩
      | deeper mem name dir rest =>
        exact ⟨_, List.mem_map_of_mem mem,
          List.mem_cons_of_mem _ ((hbelow _ mem _ name _).mpr ⟨dir, _, _, rest, rfl⟩)⟩

/-- **A listing lists each path once.** -/
theorem nodup_listing (hm : MerkleTree truth H d) (h : HasHeight truth n d) (ms : List Name) :
    ((listing truth n (pathStr ms) d).map Inode.path).Nodup := by
  induction hm generalizing n ms with
  | @node d sum decodes names nodup files dirs ih =>
    -- what is listed for a record, and the paths it has
    have hpath : ∀ r ∈ records truth d, ∀ m, r.path = Name.bytes m →
        ∀ c ∈ belowOf truth n (r.under (pathStr ms)), ∃ ns ≠ [],
          c.path = pathStr (ms ++ m :: ns) := by
      intro r hr m hmr c hc
      rw [belowOf_under hmr] at hc
      split_ifs at hc with hd
      · obtain ⟨ns, s, hs, rfl⟩ := (mem_listing (dirs r hr hd) (h.dir hr hd) _).mp hc
        exact ⟨ns, hs.ne_nil, by simp [Inode.reachedBy]⟩
      · cases hc
    rw [listing_eq h, children_eq, List.flatMap_map, List.map_flatMap, List.nodup_flatMap]
    constructor
    · intro r hr
      obtain ⟨m, hmr⟩ := names r hr
      rw [List.map_cons, List.nodup_cons]
      constructor
      · intro hmem
        obtain ⟨c, hc, hcp⟩ := List.mem_map.mp hmem
        obtain ⟨ns, hns, hp⟩ := hpath r hr m hmr c hc
        rw [hp, under_reachedBy hmr, Inode.reachedBy, pathStr_inj] at hcp
        exact hns (by simpa using hcp)
      · rw [belowOf_under hmr]
        split_ifs with hd
        · exact ih r hr hd (h.dir hr hd) _
        · exact List.nodup_nil
    · refine (List.pairwise_map.mp nodup).imp_of_mem fun {r s} hr hs hne => ?_
      obtain ⟨m, hmr⟩ := names r hr
      obtain ⟨k, hks⟩ := names s hs
      have hfirst : ∀ r ∈ records truth d, ∀ m, r.path = Name.bytes m → ∀ q,
          q ∈ ((r.under (pathStr ms) :: belowOf truth n (r.under (pathStr ms))).map Inode.path) →
          ∃ ns, q = pathStr (ms ++ m :: ns) := by
        intro r hr m hmr q hq
        obtain ⟨c, hc, rfl⟩ := List.mem_map.mp hq
        rcases List.mem_cons.mp hc with rfl | hc
        · exact ⟨[], by rw [under_reachedBy hmr]; rfl⟩
        · obtain ⟨ns, -, hp⟩ := hpath r hr m hmr c hc
          exact ⟨ns, hp⟩
      intro q hq hq'
      obtain ⟨ns, rfl⟩ := hfirst r hr m hmr q hq
      obtain ⟨ns', he⟩ := hfirst s hs k hks _ hq'
      rw [pathStr_inj, List.append_cancel_left_eq, List.cons.injEq] at he
      exact hne (by rw [hmr, hks, he.1])

end Fstree
