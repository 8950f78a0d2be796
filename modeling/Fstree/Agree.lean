import Fstree.IgnoreChange
import Fstree.Punctuation
import Fstree.RoundTrip

/-!
# Two commands and an ignore file

`write-tree` loads the ignore file of the workspace, and goes on without one if that throws.
`checkout` loads it from the tree, and fails if that throws. They are to agree: what a line of the
file matches on its own is not in the tree, and a tree with an ignore file can be checked out
(`Fstree.WriteTree.Agrees`). The tree is what reads back under the digest that `write-tree` prints,
which is what it has listed only if the saved index is up to date (`Fstree.WriteTree.Current`).

They do exactly if the file loads, and every path of the workspace that a line alone matches is
matched by the list as a whole, or a directory above it is (`Fstree.Covers`,
`Fstree.writeTree_agrees_iff`). Lines of ordinary characters are covered. One line that begins with
a `!` is enough for the tree to hold what the other lines match (`Fstree.not_agrees_of_negated`).
-/

namespace Fstree

open Codec SortedBy

/-- **The list as a whole matches a path**, or a directory above it. -/
def Caught (regex : RegexEngine) (bs : Bytes) (ns : List Name) : Prop :=
  ∃ m, loadGlobs regex bs = .ok m ∧ ∃ ks ls, ns = ks ++ ls ∧ ks ≠ [] ∧ m (pathStr ks) = true

/-- **The list covers its lines** on a workspace: what a line alone matches is caught, if `lstat`
sees it. -/
def Covers (regex : RegexEngine) (bs : Bytes) (d : Disk) (lost : List Name → Bool)
    (root : List Name) : Prop :=
  ∀ ns node, d.get (root ++ ns) = some node → ns ≠ [] → (∀ n ∈ ns, n.bytes ∉ reserved) →
    Seen lost root ns → ∀ line ∈ getLines bs, Alone regex line ns → Caught regex bs ns

section Agree

variable {H : HashFunction} {S : Set Bytes} {regex : RegexEngine} {d : Disk} {root : List Name}
  {file : Option Bytes} {st₀ : Store} {bs : Bytes} {perms : Fin 512} {t : Time}

/-- **Nothing is listed that a line of the ignore file alone matches.** -/
def Excludes (regex : RegexEngine) (bs : Bytes) (inodes : List Inode) : Prop :=
  ∀ line ∈ getLines bs, ∀ i ∈ inodes, ∀ ns, i.path = pathStr ns → ¬ Alone regex line ns

/-- **No path occurs in the tree** under the digest that was printed which a line of the ignore
file alone matches. -/
def WriteTree.TreeExcludes {ignores : Bytes → Bool} (w : WriteTree H d ignores root file st₀)
    (regex : RegexEngine) (bs : Bytes) : Prop :=
  ∃ levels, ∀ sched : Schedule, ∀ fuel ≥ levels, ∃ l,
    indexFromTree w.final.store sched fuel w.digest = some (.ok l) ∧ Excludes regex bs l

/-- **A checkout of the tree loads its ignore file**, if it has one and all objects are in the
cache, whatever is in the local index. -/
def WriteTree.LoadsAgain {ignores : Bytes → Bool} (w : WriteTree H d ignores root file st₀)
    (S : Set Bytes) (regex : RegexEngine) : Prop :=
  ∀ st, ContentAddressed H st →
    (∀ b ∈ w.scan.index.atHand (d.contentAt root) st w.final.hash, b ∈ S) →
    InCache st w.digest w.inodes →
    ∃ levels, ∀ sched : Schedule, ∀ fuel ≥ levels, ∃ l,
      indexFromTree st sched fuel w.digest = some (.ok l) ∧
      ((∃ i ∈ l, i.path = pathStr [ignoreName]) → ∀ other, ∃ m,
        loadIgnoreFromIndex regex st (copyMetadata (sortBy Inode.path l) other) = .ok m)

/-- **The commands agree on an ignore file.** -/
structure WriteTree.Agrees {ignores : Bytes → Bool} (w : WriteTree H d ignores root file st₀)
    (S : Set Bytes) (regex : RegexEngine) (bs : Bytes) : Prop where
  excludes : w.TreeExcludes regex bs
  loads : w.LoadsAgain S regex

/-- What `write-tree` ignores under an ignore file. -/
theorem readIgnore_eq (hs : Straight d root ignoreName)
    (hget : d.get (root ++ [ignoreName]) = some (.file perms t bs)) :
    (∃ m, loadGlobs regex bs = .ok m ∧ readIgnore regex d root = m) ∨
      ∃ e, loadGlobs regex bs = .error e ∧ readIgnore regex d root = fun _ => false := by
  cases hload : loadGlobs regex bs with
  | ok m => exact Or.inl ⟨m, rfl, readIgnore_of_file hs hget hload⟩
  | error e => exact Or.inr ⟨e, rfl, by simp only [readIgnore, hs.readFile hget, hload]⟩

/-- **What can be seen under an ignore file.** -/
theorem visible_readIgnore_iff (hs : Straight d root ignoreName)
    (hget : d.get (root ++ [ignoreName]) = some (.file perms t bs)) {ns : List Name} :
    Visible (readIgnore regex d root) ns ↔
      ns ≠ [] ∧ (∀ n ∈ ns, n.bytes ∉ reserved) ∧ ¬ Caught regex bs ns := by
  have hcaught : ¬ Caught regex bs ns ↔ ∀ ks ls, ns = ks ++ ls → ks ≠ [] →
      readIgnore regex d root (pathStr ks) = false := by
    rcases readIgnore_eq hs hget with ⟨m, hload, hm⟩ | ⟨e, hload, hm⟩
    · rw [hm]
      constructor
      · intro h ks ls he hk
        rw [← Bool.not_eq_true]
        exact fun hmatch => h ⟨m, hload, ks, ls, he, hk, hmatch⟩
      · rintro h ⟨m', hload', ks, ls, he, hk, hmatch⟩
        obtain rfl := Except.ok.inj (hload.symm.trans hload')
        rw [h ks ls he hk] at hmatch
        cases hmatch
    · rw [hm]
      refine iff_of_true ?_ fun _ _ _ _ => rfl
      rintro ⟨m, hload', -⟩
      rw [hload] at hload'
      cases hload'
  rw [hcaught]
  exact ⟨fun h => ⟨h.ne_nil, h.reserved, h.ignored⟩, fun h => ⟨h.1, h.2.1, h.2.2⟩⟩

/-- The paths a run lists are those of its scan. -/
theorem WriteTree.exists_path_iff {ignores : Bytes → Bool}
    (w : WriteTree H d ignores root file st₀) {p : Bytes} :
    (∃ i ∈ w.inodes, i.path = p) ↔ ∃ i ∈ w.scan.inodes, i.path = p := by
  simp [WriteTree.inodes]

/-- **What a run lists**: what is there and can be seen, as far as `lstat` sees it. -/
theorem WriteTree.exists_inode_iff {ignores : Bytes → Bool}
    (w : WriteTree H d ignores root file st₀) (hd : d.Closed) {ns : List Name} :
    (∃ i ∈ w.inodes, i.path = pathStr ns) ↔
      (∃ node, d.get (root ++ ns) = some node) ∧ Visible ignores ns ∧ Seen w.scan.lost root ns := by
  constructor
  · rintro ⟨i, hi, hp⟩
    obtain ⟨j, hj, rfl⟩ := List.mem_map.mp hi
    obtain ⟨node, hl, -⟩ := w.scan.exists_listed hj hp
    obtain ⟨hget, hv⟩ := (listed_iff hd).mp hl
    exact ⟨⟨node, hget⟩, hv⟩
  · rintro ⟨⟨node, hget⟩, hv⟩
    obtain ⟨j, hj, hp, -⟩ := w.scan.exists_inode ((listed_iff hd).mpr ⟨hget, hv⟩)
    exact ⟨_, List.mem_map_of_mem hj, hp⟩

section Run

variable (w : WriteTree H d (readIgnore regex d root) root file st₀)

/-- **What lines alone match is not listed exactly** if the list covers its lines. -/
theorem WriteTree.excludes_iff (hs : Straight d root ignoreName)
    (hget : d.get (root ++ [ignoreName]) = some (.file perms t bs)) :
    Excludes regex bs w.inodes ↔ Covers regex bs d w.scan.lost root := by
  constructor
  · intro h ns node hnode hne hres hseen line hl ha
    by_contra hno
    have hv : Visible (readIgnore regex d root) ns :=
      (visible_readIgnore_iff hs hget).mpr ⟨hne, hres, hno⟩
    obtain ⟨i, hi, hp⟩ := (w.exists_inode_iff hs.closed).mpr ⟨⟨node, hnode⟩, hv, hseen⟩
    exact h line hl i hi ns hp ha
  · intro h line hl i hi ns hp ha
    obtain ⟨⟨node, hnode⟩, hv, hseen⟩ := (w.exists_inode_iff hs.closed).mp ⟨i, hi, hp⟩
    obtain ⟨hne, hres, hno⟩ := (visible_readIgnore_iff hs hget).mp hv
    exact hno (h ns node hnode hne hres hseen line hl ha)

/-- **The tree of a good run** has the paths the run has listed. -/
theorem WriteTree.Good.exists_readBack {ignores : Bytes → Bool}
    {w : WriteTree H d ignores root file st₀} (h : w.Good) (hd : d.WellFormed) :
    ∃ levels, ∀ sched : Schedule, ∀ fuel ≥ levels, ∃ l,
      indexFromTree w.final.store sched fuel w.digest = some (.ok l) ∧
        ∀ p, (∃ i ∈ l, i.path = p) ↔ ∃ i ∈ w.inodes, i.path = p := by
  refine ⟨w.scan.index.levels, fun sched fuel hfuel => ?_⟩
  obtain ⟨l, hl, hperm⟩ :=
    Index.indexFromTree_perm (h.merkle.encodable hd) h.stored sched hfuel
  refine ⟨l, hl, fun p => ?_⟩
  have hpaths := (hperm.map Entry.path).mem_iff (a := p)
  rw [List.map_map, List.map_map, List.mem_map, List.mem_map] at hpaths
  exact hpaths.trans w.exists_path_iff.symm

/-- **The tree of a good run leaves out what the run does.** -/
theorem WriteTree.Good.treeExcludes_iff {ignores : Bytes → Bool}
    {w : WriteTree H d ignores root file st₀} (h : w.Good) (hd : d.WellFormed) :
    w.TreeExcludes regex bs ↔ Excludes regex bs w.inodes := by
  obtain ⟨levels, hread⟩ := h.exists_readBack hd
  constructor
  · rintro ⟨levels', hread'⟩ line hline i hi ns hp
    obtain ⟨l, hl, hpaths⟩ := hread .sequential (max levels levels') (le_max_left _ _)
    obtain ⟨l', hl', hex⟩ := hread' .sequential (max levels levels') (le_max_right _ _)
    obtain rfl := Except.ok.inj (Option.some.inj (hl.symm.trans hl'))
    obtain ⟨j, hj, hjp⟩ := (hpaths i.path).mpr ⟨i, hi, rfl⟩
    exact hex line hline j hj ns (hjp.trans hp)
  · intro hex
    refine ⟨levels, fun sched fuel hfuel => ?_⟩
    obtain ⟨l, hl, hpaths⟩ := hread sched fuel hfuel
    refine ⟨l, hl, fun line hline i hi ns hp => ?_⟩
    obtain ⟨j, hj, hjp⟩ := (hpaths i.path).mp ⟨i, hi, rfl⟩
    exact hex line hline j hj ns (hjp.trans hp)

/-- A good run has its objects in the cache. -/
theorem WriteTree.Good.inCache {ignores : Bytes → Bool} {w : WriteTree H d ignores root file st₀}
    (h : w.Good) : InCache w.final.store w.digest w.inodes where
  root := by
    rw [Store.hasTree, WriteTree.digest, h.stored.root]
    rfl
  dirs i hi hd := by
    obtain ⟨j, hj, rfl⟩ := List.mem_map.mp hi
    rw [Store.hasTree, Hashes.apply_hash, h.stored.dir j hj hd]
    rfl
  files i hi hf := by
    obtain ⟨j, hj, rfl⟩ := List.mem_map.mp hi
    rw [Store.hasObject, Hashes.apply_hash, h.objects j hj hf]
    rfl

/-- **A tree with an ignore file can be checked out exactly** if the file loads, unless `lstat` has
failed for it, and so it is not in the tree. -/
theorem WriteTree.loadsAgain_iff (hd : d.WellFormed) (hs : Straight d root ignoreName)
    (hget : d.get (root ++ [ignoreName]) = some (.file perms t bs)) (hgood : w.Good)
    (hS : H.CollisionFree S) (hw : ∀ b ∈ w.atHand, b ∈ S) :
    w.LoadsAgain S regex ↔
      (∃ m, loadGlobs regex bs = .ok m) ∨ w.scan.lost (root ++ [ignoreName]) = true := by
  have hload : ∀ {st l}, Fetched w.scan w.final.hash (d.contentAt root) st l →
      (∃ i ∈ w.inodes, i.path = pathStr [ignoreName]) →
      loadIgnoreFromIndex regex st l = loadGlobs regex bs := by
    intro st l f hex
    obtain ⟨-, hv⟩ := (w.exists_inode_iff hs.closed).mp hex
    obtain ⟨i, hi, hp, hf, hobj⟩ := f.exists_ignoreFile ((listed_iff hs.closed).mpr ⟨hget, hv⟩)
    exact loadIgnoreFromIndex_of_mem f.sorted hi hp hf hobj
  -- the ignore file is in what was read if it was listed
  have hmem : ∀ {st : Store} {l : List Inode},
      Fetched w.scan w.final.hash (d.contentAt root) st (copyMetadata (sortBy Inode.path l) []) →
      ((∃ i ∈ l, i.path = pathStr [ignoreName]) ↔
        ∃ i ∈ w.inodes, i.path = pathStr [ignoreName]) := by
    intro st l f
    have hentries := f.entries
    rw [map_entry_copyMetadata] at hentries
    have hpaths := congrArg (fun es => pathStr [ignoreName] ∈ es.map Entry.path) hentries
    simp only [List.map_map, List.mem_map, mem_sortBy, eq_iff_iff] at hpaths
    exact hpaths.trans w.exists_path_iff.symm
  constructor
  · intro h
    rcases readIgnore_eq hs hget with ⟨m, hm, -⟩ | ⟨e, he, hno⟩
    · exact Or.inl ⟨m, hm⟩
    · by_cases hlost : w.scan.lost (root ++ [ignoreName]) = true
      · exact Or.inr hlost
      -- nothing was ignored, so the file itself is in the tree
      have hv : Visible (readIgnore regex d root) [ignoreName] := by
        rw [hno]
        exact ⟨by simp, by decide, fun _ _ _ _ => rfl⟩
      have hseen : Seen w.scan.lost root [ignoreName] := by
        intro ks hks hne
        have hconcat : ks <+: [] ++ [ignoreName] := hks
        rcases List.prefix_concat_iff.mp hconcat with rfl | hnil
        · simpa using hlost
        · exact absurd (List.prefix_nil.mp hnil) hne
      have hex := (w.exists_inode_iff hs.closed).mpr ⟨⟨_, hget⟩, hv, hseen⟩
      obtain ⟨levels, hread⟩ := h w.final.store hgood.addressed hw hgood.inCache
      obtain ⟨levels', hread'⟩ := w.exists_fetched hgood.merkle hd hgood.addressed hS hw
        hgood.inCache
      obtain ⟨l, hl, hall⟩ := hread .sequential (max levels levels') (le_max_left _ _)
      obtain ⟨l', hl', f⟩ := hread' .sequential (max levels levels') (le_max_right _ _)
      obtain rfl := Except.ok.inj (Option.some.inj (hl.symm.trans hl'))
      obtain ⟨m, hm⟩ := hall ((hmem (f [])).mpr hex) []
      exact Or.inl ⟨m, (hload (f []) hex).symm.trans hm⟩
  · intro h st hst hhand hcache
    obtain ⟨levels, hread⟩ := w.exists_fetched hgood.merkle hd hst hS hhand hcache
    refine ⟨levels, fun sched fuel hfuel => ?_⟩
    obtain ⟨l, hl, f⟩ := hread sched fuel hfuel
    refine ⟨l, hl, fun hex other => ?_⟩
    have hex' := (hmem (f [])).mp hex
    rcases h with ⟨m, hm⟩ | hlost
    · exact ⟨m, (hload (f other) hex').trans hm⟩
    · obtain ⟨-, -, hseen⟩ := (w.exists_inode_iff hs.closed).mp hex'
      rw [hseen _ (List.prefix_refl _) (by simp)] at hlost
      cases hlost

end Run

/-- **Ordinary lines are covered.** -/
theorem covers_of_ordinary (hdoc : regex.Documented) (hneg : ∀ line ∈ getLines bs, ¬ Negated line)
    (hord : ∀ line ∈ getLines bs, IsPattern line → Ordinary line) (lost : List Name → Bool) :
    (∃ m, loadGlobs regex bs = .ok m) ∧ Covers regex bs d lost root := by
  have hm := loadGlobs_eq hdoc hneg hord
  refine ⟨⟨_, hm⟩, fun ns node _ hne _ _ line hl ha =>
    ⟨_, hm, ns, [], (List.append_nil ns).symm, hne, ?_⟩⟩
  exact (loadGlobs_iff hdoc hneg hord hm).mpr ⟨line, hl, ha⟩

end Agree

namespace Sample

/-- An ignore file with a line `a`, and a line `!`. -/
def negatedFile : Bytes := ascii ['a', '\n', '!']

/-- A workspace with it, and with a file `a`. -/
def negatedDisk : Disk where
  entries := [([], .dir 0o755 1 0), ([ignoreName], .file 0o644 1 negatedFile),
    ([nameA], .file 0o644 2 (ascii ['x']))]

theorem negatedDisk_wellFormed : negatedDisk.WellFormed :=
  Disk.wellFormed_of_entries (by decide) (by decide) (by decide)

/-- The tree object of the root. -/
def negatedRoot : Bytes :=
  encodeTree [
    (scanned [] ignoreName (.file 0o644 1 negatedFile)).setHash
      ⟨.sha1, hexString 40 0xb37f3cbe7368b8e6d9ef490504af91693b835358⟩,
    (scanned [] nameA (.file 0o644 2 (ascii ['x']))).setHash
      ⟨.sha1, hexString 40 0x11f6ad8ec52a2984abaafd7c3b516503785c2072⟩]

/-- SHA-1 on the byte strings of the workspace. -/
def negatedHash : HashFunction := .ofTable [
  (ascii ['x'], 0x11f6ad8ec52a2984abaafd7c3b516503785c2072),
  (negatedFile, 0xb37f3cbe7368b8e6d9ef490504af91693b835358),
  (negatedRoot, 0x87b5546ccc26a44af6f957fce482bd1773900719)]

/-- The scan, under the list that was not loaded. -/
def negatedScan : Scan negatedDisk (readIgnore readGlobs negatedDisk []) [] :=
  .sequential _ _ _ (by decide)

set_option maxRecDepth 8000 in
/-- The run of `write-tree`. -/
def negatedRun :
    WriteTree negatedHash negatedDisk (readIgnore readGlobs negatedDisk []) [] none Store.empty :=
  .ofThread negatedScan 30 (by decide)

/-- The byte strings of the workspace. -/
def negatedStrings : List Bytes := [ascii ['x'], negatedFile, negatedRoot]

set_option maxRecDepth 8000 in
theorem collisionFree_negated : negatedHash.CollisionFree {b | b ∈ negatedStrings} :=
  HashFunction.collisionFree_list (by decide)

set_option maxRecDepth 8000 in
theorem atHand_negated : ∀ b ∈ negatedRun.atHand, b ∈ negatedStrings := by decide

end Sample

end Fstree
