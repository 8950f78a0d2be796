import Fstree.Foundations.SortedBy
import Fstree.Model.Disk

/-!
# The scan of a directory

`sorted_directory_iterator` descends a directory with one job for each
subdirectory; every job appends the inodes it makes to one list and to the
children of the directory it reads, under one mutex. `Fstree.readDirectory` is
the descent; the order in which the jobs append is the scheduler's, so what a
scan appends is *some permutation* of it (`Fstree.Appended`). The children of a
directory are the appended inodes that point to it, in the same order.

`lstat` may fail for an entry that `readdir` has returned, because the directory may be read but not
searched, or the entry is gone by then; it is passed over without a word, and so is everything
below it. For which paths it fails is up to the system (`Fstree.Scan.lost`); a scan for which it
never fails is complete (`Fstree.Scan.Complete`).

After the descent the list is sorted by path, the files and symlinks that the
ignore predicate matches are marked, and the marked ones are dropped from the
list – but not from the children of their directory (`Fstree.Scan`). Directories
that are matched were never entered. The scheduler is gone from the list
(`Fstree.Scan.inodes_eq`): its paths are distinct, so it is the sort of a set.

Which entries are appended is `Fstree.Visits`, and which of them are listed is
`Fstree.Listed`: those that are themselves not ignored.
-/

namespace Fstree

open Codec SortedBy

/-! ### The descent -/

/-- The names the scan skips: `.`, `..` and `.fstree`. -/
def reserved : List Bytes :=
  [[dot], [dot, dot], ascii ['.', 'f', 's', 't', 'r', 'e', 'e']]

/-- The inode made of the node of a name in a directory at `rel`. -/
def scanned (rel : Bytes) (n : Name) (node : Node) : Inode where
  path := joinPath rel n.bytes
  status := node.status
  mtime := node.mtime
  size := node.size
  target := node.target
  parent := some rel

/-- **`lstat`** of a physical path, which fails for the paths in `lost`. -/
def Disk.lstat (d : Disk) (lost : List Name → Bool) (p : List Name) : Option Node :=
  if lost p then none else d.get p

theorem Disk.lstat_eq_some {d : Disk} {lost : List Name → Bool} {p : List Name} {node : Node} :
    d.lstat lost p = some node ↔ lost p = false ∧ d.get p = some node := by
  rw [Disk.lstat]
  cases lost p <;> simp

/-- One turn of the loop over a directory `abs` whose path relative to the root
of the scan is `rel`. A directory the ignore predicate matches is skipped before
it is entered, and so is everything that `lstat` fails for; `descend` reads the
directories that are not. -/
def readName (d : Disk) (lost : List Name → Bool) (ignores : Bytes → Bool)
    (descend : List Name → Bytes → List Inode) (abs : List Name) (rel : Bytes) (n : Name) :
    List Inode :=
  match d.lstat lost (abs ++ [n]) with
  | none => []
  | some node =>
    if n.bytes ∈ reserved then []
    else if node.isDir && ignores (joinPath rel n.bytes) then []
    else scanned rel n node ::
      if node.isDir then descend (abs ++ [n]) (joinPath rel n.bytes) else []

/-- `sorted_directory_iterator::read_directory`: the inodes made of a directory
and of everything below it. -/
def readDirectory (d : Disk) (lost : List Name → Bool) (ignores : Bytes → Bool) :
    ℕ → List Name → Bytes → List Inode
  | 0, _, _ => []
  | fuel + 1, abs, rel =>
    (d.readdir abs).flatMap (readName d lost ignores (readDirectory d lost ignores fuel) abs rel)

/-- A descent depends only on what `lstat` sees. -/
theorem readDirectory_congr {d : Disk} {lost lost' : List Name → Bool} {ignores : Bytes → Bool}
    (h : ∀ p, d.lstat lost p = d.lstat lost' p) (fuel : ℕ) :
    readDirectory d lost ignores fuel = readDirectory d lost' ignores fuel := by
  induction fuel with
  | zero => rfl
  | succ fuel ih =>
    funext abs rel
    rw [readDirectory, readDirectory, ih]
    refine congrArg (d.readdir abs).flatMap (funext fun n => ?_)
    rw [readName, readName, h]

/-- **What a scan may append**: the inodes of the descent, in the order in which
the scheduler ran the jobs. -/
def Appended (d : Disk) (lost : List Name → Bool) (ignores : Bytes → Bool) (root : List Name)
    (l : List Inode) : Prop :=
  l.Perm (readDirectory d lost ignores d.depth root [])

/-! ### What the descent visits -/

section Visits

variable (d : Disk) (lost : List Name → Bool) (ignores : Bytes → Bool) (root : List Name)

/-- **The descent from `base` visits `rest` below it**: every directory on the way
is entered, no name on the way is reserved, and no `lstat` on the way fails. -/
inductive Visits : List Name → List Name → Node → Prop
  | here {base : List Name} {n : Name} {node : Node}
      (hget : d.lstat lost (root ++ (base ++ [n])) = some node) (hres : n.bytes ∉ reserved)
      (hign : node.isDir = true → ignores (pathStr (base ++ [n])) = false) :
      Visits base [n] node
  | down {base : List Name} {n : Name} {dir : Node} {rest : List Name} {node : Node}
      (hget : d.lstat lost (root ++ (base ++ [n])) = some dir) (hdir : dir.isDir = true)
      (hres : n.bytes ∉ reserved) (hign : ignores (pathStr (base ++ [n])) = false)
      (hrest : Visits (base ++ [n]) rest node) :
      Visits base (n :: rest) node

variable {d lost ignores root}

theorem Visits.ne_nil {base ns : List Name} {node : Node}
    (h : Visits d lost ignores root base ns node) :
    ns ≠ [] := by
  cases h <;> simp

/-- `lstat` has seen what is visited. -/
theorem Visits.lstat {base ns : List Name} {node : Node}
    (h : Visits d lost ignores root base ns node) :
    d.lstat lost (root ++ (base ++ ns)) = some node := by
  induction h with
  | here hget => exact hget
  | down _ _ _ _ _ ih => simpa using ih

/-- What is visited is there. -/
theorem Visits.get {base ns : List Name} {node : Node}
    (h : Visits d lost ignores root base ns node) : d.get (root ++ (base ++ ns)) = some node :=
  (Disk.lstat_eq_some.mp h.lstat).2

/-- What is visited depends on the answers of `lstat` alone. -/
theorem Visits.congr {lost' : List Name → Bool} (hlost : ∀ p, d.lstat lost p = d.lstat lost' p)
    {base ns : List Name} {node : Node} (h : Visits d lost ignores root base ns node) :
    Visits d lost' ignores root base ns node := by
  induction h with
  | here hget hres hign => exact .here (hlost _ ▸ hget) hres hign
  | down hget hdir hres hign _ ih => exact .down (hlost _ ▸ hget) hdir hres hign ih

/-- A directory that is visited is not ignored. -/
theorem Visits.dir_not_ignored {base ns : List Name} {node : Node}
    (h : Visits d lost ignores root base ns node) (hdir : node.isDir = true) :
    ignores (pathStr (base ++ ns)) = false := by
  induction h with
  | here _ _ hign => exact hign hdir
  | down _ _ _ _ _ ih => simpa using ih hdir

/-- The last name of what is visited is not reserved. -/
theorem Visits.not_reserved {base ns : List Name} {node : Node}
    (h : Visits d lost ignores root base ns node) : ∀ n ∈ ns, n.bytes ∉ reserved := by
  induction h with
  | here _ hres => simpa using hres
  | down _ _ hres _ _ ih =>
    intro m hm
    rcases List.mem_cons.mp hm with rfl | hm
    · exact hres
    · exact ih m hm

/-- **One more name**: below a visited directory, what is there, is not reserved
and is no ignored directory is visited. -/
theorem visits_concat {base ns : List Name} {n : Name} {node : Node} :
    Visits d lost ignores root base (ns ++ [n]) node ↔
      (ns = [] ∨ ∃ dir, Visits d lost ignores root base ns dir ∧ dir.isDir = true) ∧
        d.lstat lost (root ++ (base ++ (ns ++ [n]))) = some node ∧ n.bytes ∉ reserved ∧
        (node.isDir = true → ignores (pathStr (base ++ (ns ++ [n]))) = false) := by
  constructor
  · intro h
    refine ⟨?_, h.lstat, h.not_reserved n (by simp), h.dir_not_ignored⟩
    generalize hms : ns ++ [n] = ms at h
    induction h generalizing ns with
    | here =>
      left
      simpa using congrArg List.dropLast hms
    | @down base m dir rest node hget hdir hres hign hrest ih =>
      match ns with
      | [] => exact Or.inl rfl
      | m' :: ns =>
        right
        obtain ⟨rfl, rfl⟩ : m' = m ∧ ns ++ [n] = rest := by simpa using hms
        rcases ih rfl with rfl | ⟨dir', hv, hd⟩
        · exact ⟨_, .here hget hres fun _ => hign, hdir⟩
        · exact ⟨dir', .down hget hdir hres hign hv, hd⟩
  · rintro ⟨hns, hget, hres, hign⟩
    rcases hns with rfl | ⟨dir, hv, hdir⟩
    · exact .here (by simpa using hget) hres (by simpa using hign)
    · induction hv with
      | here hget' hres' hign' =>
        exact .down hget' hdir hres' (hign' hdir)
          (.here (by simpa using hget) hres (by simpa using hign))
      | down hget' hdir' hres' hign' _ ih =>
        exact .down hget' hdir' hres' hign' (ih (by simpa using hget) (by simpa using hign) hdir)

theorem mem_readName {descend : List Name → Bytes → List Inode} {abs base : List Name} {n : Name}
    {i : Inode} :
    i ∈ readName d lost ignores descend abs (pathStr base) n ↔
      ∃ node, d.lstat lost (abs ++ [n]) = some node ∧ n.bytes ∉ reserved ∧
        (node.isDir = true → ignores (pathStr (base ++ [n])) = false) ∧
        (i = scanned (pathStr base) n node ∨
          node.isDir = true ∧ i ∈ descend (abs ++ [n]) (pathStr (base ++ [n]))) := by
  rw [readName]
  cases hget : d.lstat lost (abs ++ [n]) with
  | none => simp
  | some node =>
    by_cases hres : n.bytes ∈ reserved
    · simp [hres]
    · cases hdir : node.isDir <;> cases hign : ignores (pathStr (base ++ [n])) <;>
        simp [hres, hdir, hign]

/-- **The descent appends what it visits**, as deep as its fuel goes. -/
theorem mem_readDirectory {fuel : ℕ} {base : List Name} {i : Inode} :
    i ∈ readDirectory d lost ignores fuel (root ++ base) (pathStr base) ↔
      ∃ ns n node, Visits d lost ignores root base (ns ++ [n]) node ∧ ns.length < fuel ∧
        i = scanned (pathStr (base ++ ns)) n node := by
  induction fuel generalizing base with
  | zero => simp [readDirectory]
  | succ fuel ih =>
    simp only [readDirectory, List.mem_flatMap, mem_readName, List.append_assoc]
    constructor
    · rintro ⟨n, -, node, hget, hres, hign, rfl | ⟨hdir, hi⟩⟩
      · exact ⟨[], n, node, .here (by simpa using hget) hres hign, by simp, by simp⟩
      · obtain ⟨ns, m, node', hv, hlen, rfl⟩ := ih.mp hi
        exact ⟨n :: ns, m, node', .down (by simpa using hget) hdir hres (hign hdir) hv,
          by simpa using hlen, by simp⟩
    · rintro ⟨ns, n, node, hv, hlen, rfl⟩
      generalize hms : ns ++ [n] = ms at hv
      cases hv with
      | @here _ m _ hget hres hign =>
        obtain ⟨rfl, rfl⟩ : ns = [] ∧ n = m := by
          rcases ns with _ | ⟨a, ns⟩
          · exact ⟨rfl, by simpa using hms⟩
          · simp at hms
        have hread := (Disk.lstat_eq_some.mp hget).2
        exact ⟨n, Disk.mem_readdir.mpr (by simp [hread]), node,
          by simpa using hget, hres, hign, Or.inl (by simp)⟩
      | @down _ m dir rest _ hget hdir hres hign hrest =>
        match ns with
        | [] => exact absurd (List.cons.inj hms).2.symm hrest.ne_nil
        | m' :: ns =>
          obtain ⟨rfl, rfl⟩ : m' = m ∧ ns ++ [n] = rest := by simpa using hms
          refine ⟨m', Disk.mem_readdir.mpr (by simp [(Disk.lstat_eq_some.mp hget).2]), dir,
            by simpa using hget, hres, fun _ => hign, Or.inr ⟨hdir, ?_⟩⟩
          exact ih.mpr ⟨ns, n, node, hrest, by simpa using hlen, by simp⟩

/-- What is appended below a directory has a path below it. -/
theorem path_of_mem_readName {fuel : ℕ} {base : List Name} {n : Name} {i : Inode}
    (hi : i ∈ readName d lost ignores (readDirectory d lost ignores fuel) (root ++ base)
      (pathStr base) n) :
    ∃ ns, i.path = pathStr (base ++ n :: ns) := by
  obtain ⟨node, -, -, -, rfl | ⟨-, hi⟩⟩ := mem_readName.mp hi
  · exact ⟨[], by simp [scanned]⟩
  · rw [List.append_assoc] at hi
    obtain ⟨ns, m, node', -, -, rfl⟩ := mem_readDirectory.mp hi
    exact ⟨ns ++ [m], by simp [scanned]⟩

/-- **The paths of the descent are distinct.** -/
theorem nodup_paths_readDirectory (fuel : ℕ) (base : List Name) :
    ((readDirectory d lost ignores fuel (root ++ base) (pathStr base)).map Inode.path).Nodup := by
  induction fuel generalizing base with
  | zero => simp [readDirectory]
  | succ fuel ih =>
    rw [readDirectory, List.map_flatMap, List.nodup_flatMap]
    constructor
    · intro n _
      rw [readName]
      cases hget : d.lstat lost (root ++ base ++ [n]) with
      | none => simp
      | some node =>
        have hbelow := ih (base ++ [n])
        rw [← List.append_assoc] at hbelow
        simp only [joinPath_pathStr]
        split_ifs
        · simp
        · simp
        · refine List.nodup_cons.mpr ⟨?_, hbelow⟩
          rw [List.mem_map]
          rintro ⟨i, hi, hpath⟩
          rw [List.append_assoc] at hi
          obtain ⟨ns, m, node', -, -, rfl⟩ := mem_readDirectory.mp hi
          simp [scanned] at hpath
        · simp
    · -- the subtrees of two names have no path in common
      refine (d.nodup_readdir _).imp fun {n m} hne => ?_
      simp only [Function.onFun, List.disjoint_left, List.mem_map]
      rintro p ⟨i, hi, rfl⟩ ⟨j, hj, hpath⟩
      obtain ⟨ns, hns⟩ := path_of_mem_readName hi
      obtain ⟨ms, hms⟩ := path_of_mem_readName hj
      rw [hns, hms] at hpath
      obtain ⟨rfl, -⟩ : m = n ∧ ms = ns := by simpa using hpath
      exact hne rfl

end Visits

/-! ### The list of a scan -/

/-- `is_ignored` after the loop over the sorted list: directories were looked at
when they were read, everything else is now. -/
def mark (ignores : Bytes → Bool) (i : Inode) : Inode :=
  if i.isDirectory then i else { i with ignored := ignores i.path }

/-- **A scan** of the directory `root` of a disk: `sorted_directory_iterator`,
with the inodes in the order in which the jobs have appended them. -/
structure Scan (d : Disk) (ignores : Bytes → Bool) (root : List Name) where
  /-- `opendir` has opened it. -/
  isDir : d.IsDir root
  /-- The paths that `lstat` has failed for. -/
  lost : List Name → Bool
  appended : List Inode
  isScan : Appended d lost ignores root appended

namespace Scan

variable {d : Disk} {ignores : Bytes → Bool} {root : List Name}

/-- All inodes, after the ignored ones were marked. -/
def marked (s : Scan d ignores root) : List Inode := s.appended.map (mark ignores)

/-- `_inodes`: sorted by path, without the ignored ones. -/
def inodes (s : Scan d ignores root) : List Inode :=
  (sortBy Inode.path s.marked).filter fun i => !i.ignored

/-- `_children` of the inode with path `p`, in the order of the appends. -/
def children (s : Scan d ignores root) (p : Bytes) : List Inode :=
  s.marked.filter fun i => i.parent = some p

/-- **`lstat` has failed for nothing that is there.** -/
def Complete (s : Scan d ignores root) : Prop := ∀ p, d.get p ≠ none → s.lost p = false

/-- The scan of a single thread, which `lstat` fails in for the paths in `lost`. -/
def sequentialLosing (d : Disk) (lost : List Name → Bool) (ignores : Bytes → Bool)
    (root : List Name) (h : d.IsDir root) : Scan d ignores root :=
  ⟨h, lost, readDirectory d lost ignores d.depth root [], List.Perm.refl _⟩

/-- The scan of a single thread, in which no `lstat` fails. -/
def sequential (d : Disk) (ignores : Bytes → Bool) (root : List Name) (h : d.IsDir root) :
    Scan d ignores root :=
  sequentialLosing d (fun _ => false) ignores root h

theorem complete_sequential (h : d.IsDir root) : (sequential d ignores root h).Complete :=
  fun _ _ => rfl

end Scan

@[simp] theorem mark_path (ignores : Bytes → Bool) (i : Inode) :
    (mark ignores i).path = i.path := by
  rw [mark]
  split <;> rfl

@[simp] theorem mark_parent (ignores : Bytes → Bool) (i : Inode) :
    (mark ignores i).parent = i.parent := by
  rw [mark]
  split <;> rfl

/-- An inode that is not to be ignored is left as it is. -/
theorem mark_eq_self {ignores : Bytes → Bool} {i : Inode} (hi : i.ignored = false)
    (h : ignores i.path = false) : mark ignores i = i := by
  rw [mark]
  split
  · rfl
  · rw [h, ← hi]

/-! ### What a scan lists -/

/-- **A scan lists `ns`**: it is visited, and it is not ignored. -/
def Listed (d : Disk) (lost : List Name → Bool) (ignores : Bytes → Bool) (root ns : List Name)
    (node : Node) : Prop :=
  Visits d lost ignores root [] ns node ∧ ignores (pathStr ns) = false

section Listed

variable {d : Disk} {lost : List Name → Bool} {ignores : Bytes → Bool} {root : List Name}

/-- What is listed is there. -/
theorem Listed.get {ns : List Name} {node : Node} (h : Listed d lost ignores root ns node) :
    d.get (root ++ ns) = some node := by
  simpa using h.1.get

theorem Listed.ne_nil {ns : List Name} {node : Node} (h : Listed d lost ignores root ns node) :
    ns ≠ [] :=
  h.1.ne_nil

/-- A path is listed with the one node that is there. -/
theorem Listed.node_eq {ns : List Name} {node node' : Node} (h : Listed d lost ignores root ns node)
    (h' : Listed d lost ignores root ns node') : node = node' :=
  Option.some.inj (h.get.symm.trans h'.get)

/-- What is listed depends on the answers of `lstat` alone. -/
theorem Listed.congr {lost' : List Name → Bool} (hlost : ∀ p, d.lstat lost p = d.lstat lost' p)
    {ns : List Name} {node : Node} (h : Listed d lost ignores root ns node) :
    Listed d lost' ignores root ns node :=
  ⟨h.1.congr hlost, h.2⟩

/-- A path below a listed directory, or at the root. -/
def ListedDir (d : Disk) (lost : List Name → Bool) (ignores : Bytes → Bool) (root ns : List Name) :
    Prop :=
  ns = [] ∨ ∃ dir, Listed d lost ignores root ns dir ∧ dir.isDir = true

/-- **A name is listed** in a directory that is listed, if `lstat` sees it, and it is
not reserved, and not ignored. -/
theorem listed_concat {ns : List Name} {n : Name} {node : Node} :
    Listed d lost ignores root (ns ++ [n]) node ↔
      ListedDir d lost ignores root ns ∧ d.lstat lost (root ++ (ns ++ [n])) = some node ∧
        n.bytes ∉ reserved ∧ ignores (pathStr (ns ++ [n])) = false := by
  simp only [Listed, ListedDir, visits_concat, List.nil_append]
  constructor
  · rintro ⟨⟨hns, hget, hres, -⟩, hign⟩
    refine ⟨hns.imp id fun ⟨dir, hv, hdir⟩ => ⟨dir, ⟨hv, ?_⟩, hdir⟩, hget, hres, hign⟩
    exact hv.dir_not_ignored hdir
  · rintro ⟨hns, hget, hres, hign⟩
    exact ⟨⟨hns.imp id fun ⟨dir, hv, hdir⟩ => ⟨dir, hv.1, hdir⟩, hget, hres, fun _ => hign⟩, hign⟩

/-- `lstat` fails neither for an entry nor for a directory it is in. -/
def Seen (lost : List Name → Bool) (root ns : List Name) : Prop :=
  ∀ ks, ks <+: ns → ks ≠ [] → lost (root ++ ks) = false

theorem seen_concat {ns : List Name} {n : Name} :
    Seen lost root (ns ++ [n]) ↔ Seen lost root ns ∧ lost (root ++ (ns ++ [n])) = false := by
  constructor
  · exact fun h => ⟨fun ks hks => h ks (hks.trans (List.prefix_append _ _)),
      h _ (List.prefix_refl _) (by simp)⟩
  · rintro ⟨h, hn⟩ ks hks hne
    rcases List.prefix_concat_iff.mp hks with rfl | hks
    · exact hn
    · exact h ks hks hne

end Listed

namespace Scan

variable {d : Disk} {ignores : Bytes → Bool} {root : List Name} (s : Scan d ignores root)

/-- **What a scan appends is what it visits.** -/
theorem mem_appended {i : Inode} :
    i ∈ s.appended ↔ ∃ ns n node, Visits d s.lost ignores root [] (ns ++ [n]) node ∧
      i = scanned (pathStr ns) n node := by
  have hm : i ∈ readDirectory d s.lost ignores d.depth (root ++ []) (pathStr []) ↔ _ :=
    mem_readDirectory
  rw [List.append_nil, pathStr_nil] at hm
  rw [s.isScan.mem_iff, hm]
  refine exists_congr fun ns => exists_congr fun n => exists_congr fun node => ?_
  simp only [List.nil_append, and_congr_right_iff, and_iff_right_iff_imp]
  rintro hv -
  have hget := hv.get
  have hlen := Disk.length_le_depth (d := d) (p := root ++ ([] ++ (ns ++ [n]))) (by rw [hget]; simp)
  simp only [List.nil_append, List.length_append, List.length_singleton] at hlen
  omega

theorem nodup_paths_appended : (s.appended.map Inode.path).Nodup := by
  have h : ((readDirectory d s.lost ignores d.depth (root ++ []) (pathStr [])).map
      Inode.path).Nodup :=
    nodup_paths_readDirectory _ _
  rw [List.append_nil, pathStr_nil] at h
  exact (s.isScan.map Inode.path).nodup_iff.mpr h

theorem nodup_paths_marked : (s.marked.map Inode.path).Nodup := by
  have h : s.marked.map Inode.path = s.appended.map Inode.path := by
    simp [marked, Function.comp_def]
  rw [h]
  exact s.nodup_paths_appended

/-- **The list of a scan is sorted**, one inode for each path. -/
theorem strictBy_inodes : StrictBy Inode.path s.inodes :=
  (strictBy_sortBy s.nodup_paths_marked).filter _

/-- **The scheduler is gone from the list of a scan.** -/
theorem inodes_eq (s' : Scan d ignores root) (hlost : ∀ p, d.lstat s.lost p = d.lstat s'.lost p) :
    s.inodes = s'.inodes := by
  have hread : readDirectory d s.lost ignores d.depth root [] =
      readDirectory d s'.lost ignores d.depth root [] := by
    rw [readDirectory_congr hlost]
  have hp : s.marked.Perm s'.marked :=
    (s.isScan.trans (hread ▸ s'.isScan.symm)).map _
  rw [inodes, inodes, sortBy_eq_of_perm s.nodup_paths_marked hp]

/-- **A scan lists** what is visited and not ignored, as `lstat` sees it. -/
theorem mem_inodes {i : Inode} :
    i ∈ s.inodes ↔ ∃ ns n node, Listed d s.lost ignores root (ns ++ [n]) node ∧
      i = scanned (pathStr ns) n node := by
  simp only [inodes, List.mem_filter, mem_sortBy, marked, List.mem_map, s.mem_appended]
  constructor
  · rintro ⟨⟨_, ⟨ns, n, node, hv, rfl⟩, rfl⟩, hign⟩
    have hpath : ignores (pathStr (ns ++ [n])) = false := by
      cases hdir : node.isDir with
      | true => exact hv.dir_not_ignored hdir
      | false => simpa [mark, scanned, Inode.isDirectory, hdir] using hign
    exact ⟨ns, n, node, ⟨hv, hpath⟩, mark_eq_self rfl (by simpa [scanned] using hpath)⟩
  · rintro ⟨ns, n, node, ⟨hv, hign⟩, rfl⟩
    have hm : mark ignores (scanned (pathStr ns) n node) = scanned (pathStr ns) n node :=
      mark_eq_self rfl (by simpa [scanned] using hign)
    exact ⟨⟨_, ⟨ns, n, node, hv, rfl⟩, hm⟩, by simp [scanned]⟩

/-- The inode of a listed path. -/
theorem exists_inode {ns : List Name} {node : Node} (h : Listed d s.lost ignores root ns node) :
    ∃ i ∈ s.inodes, i.path = pathStr ns ∧ i.status = node.status := by
  rcases List.eq_nil_or_concat' ns with rfl | ⟨ks, k, rfl⟩
  · exact absurd rfl h.ne_nil
  · exact ⟨_, s.mem_inodes.mpr ⟨ks, k, node, h, rfl⟩, by simp [scanned], rfl⟩

/-- What is listed is not marked, and keeps what the descent has given it. -/
theorem mem_marked_of_mem_inodes {i : Inode} (h : i ∈ s.inodes) : i ∈ s.marked :=
  mem_sortBy.mp (List.mem_filter.mp h).1

theorem not_ignored {i : Inode} (h : i ∈ s.inodes) : i.ignored = false := by
  simpa using (List.mem_filter.mp h).2

/-- The parent pointer of the inode at a path. -/
def parentOf (p : Bytes) : Option Bytes := (lookup Inode.path p s.marked).bind Inode.parent

theorem parentOf_path {i : Inode} (h : i ∈ s.marked) : s.parentOf i.path = i.parent := by
  have hl : lookup Inode.path i.path s.marked = some i :=
    (lookup_eq_some_iff s.nodup_paths_marked).mpr ⟨h, rfl⟩
  rw [parentOf, hl, Option.bind_some]

/-- **Parent pointers cut the last name off.** -/
theorem parentOf_eq_some {p q : Bytes} (h : s.parentOf p = some q) :
    ∃ ns n, p = pathStr (ns ++ [n]) ∧ q = pathStr ns := by
  obtain ⟨i, hi, hq⟩ := Option.bind_eq_some_iff.mp h
  obtain ⟨hmem, rfl⟩ := (lookup_eq_some_iff s.nodup_paths_marked).mp hi
  obtain ⟨j, hj, rfl⟩ := List.mem_map.mp hmem
  obtain ⟨ns, n, node, -, rfl⟩ := s.mem_appended.mp hj
  exact ⟨ns, n, by simp [scanned], by simpa [scanned] using hq.symm⟩

/-- A parent sorts before its children. -/
theorem parent_lt {i : Inode} {q : Bytes} (hi : i ∈ s.inodes) (hq : i.parent = some q) :
    q < i.path := by
  obtain ⟨ns, n, node, -, rfl⟩ := s.mem_inodes.mp hi
  obtain rfl : pathStr ns = q := by simpa [scanned] using hq
  simpa [scanned] using @pathStr_lt_append ns [n] (List.cons_ne_nil n [])

/-- The parent of a listed inode is the root, or a listed directory. -/
theorem mem_inodes_parent {i : Inode} {q : Bytes} (h : i ∈ s.inodes) (hq : i.parent = some q) :
    q = [] ∨ ∃ j ∈ s.inodes, j.path = q ∧ j.isDirectory = true := by
  obtain ⟨ns, n, node, hl, rfl⟩ := s.mem_inodes.mp h
  obtain rfl : pathStr ns = q := by simpa [scanned] using hq
  rcases (listed_concat.mp hl).1 with rfl | ⟨dir, hd, hdir⟩
  · exact Or.inl rfl
  · rcases List.eq_nil_or_concat' ns with rfl | ⟨ms, m, rfl⟩
    · exact Or.inl rfl
    · exact Or.inr ⟨_, s.mem_inodes.mpr ⟨ms, m, dir, hd, rfl⟩, by simp [scanned],
        by simpa [scanned, Inode.isDirectory] using hdir⟩

end Scan

end Fstree
