import Fstree.Model.Inode
import Mathlib.Data.List.Dedup
import Mathlib.Data.List.MinMax

/-!
# The disk

A disk is a finite tree of directories, regular files and symlinks, written down
as a finite map from *physical paths* – the names on the way from the root of
the file system, none of them a symlink – to nodes (`Fstree.Disk`). The tree is
well formed (`Fstree.Disk.WellFormed`) when every entry stands in a directory
and the strings the program will make of it have a size that is a `size_t`.

A symlink has no permissions of its own: `lstat` reports all nine bits for it,
as Linux does.
-/

namespace Fstree

open Codec

/-- A node of the disk. The size of a directory is what `lstat` reports. -/
inductive Node
  | file (perms : Fin 512) (mtime : Time) (content : Bytes)
  | dir (perms : Fin 512) (mtime : Time) (size : ℕ)
  | symlink (mtime : Time) (target : Bytes)
deriving DecidableEq

namespace Node

/-- The permissions `lstat` reports for a symlink. -/
def symlinkPerms : Fin 512 := 0o777

/-- The status bits of `lstat`. -/
def status : Node → FileStatus
  | file perms _ _ => ⟨.regular, perms⟩
  | dir perms _ _ => ⟨.directory, perms⟩
  | symlink _ _ => ⟨.symlink, symlinkPerms⟩

/-- The mtime of `lstat`. -/
def mtime : Node → Time
  | file _ t _ => t
  | dir _ t _ => t
  | symlink t _ => t

/-- The size of `lstat`. -/
def size : Node → ℕ
  | file _ _ content => content.length
  | dir _ _ size => size
  | symlink _ target => target.length

/-- `read_symlink`, and the empty string for what is no symlink. -/
def target : Node → Bytes
  | symlink _ target => target
  | _ => []

/-- The bytes of a regular file. -/
def content : Node → Bytes
  | file _ _ content => content
  | _ => []

/-- Whether the node is a directory. -/
def isDir : Node → Bool
  | dir .. => true
  | _ => false

/-- Whether the node is a symlink. -/
def isLink : Node → Bool
  | symlink .. => true
  | _ => false

@[simp] theorem status_type_eq_directory {n : Node} :
    n.status.type = .directory ↔ n.isDir = true := by
  cases n <;> simp [status, isDir]

@[simp] theorem status_type_eq_symlink {n : Node} :
    n.status.type = .symlink ↔ n.isLink = true := by
  cases n <;> simp [status, isLink]

theorem target_of_not_isLink {n : Node} (h : n.isLink = false) : n.target = [] := by
  cases n <;> simp_all [isLink, target]

end Node

/-- **A disk**: a finite map from physical paths to nodes; of two entries for one
path the first counts. -/
structure Disk where
  entries : List (List Name × Node)

namespace Disk

/-- The node at a physical path. -/
def get (d : Disk) (p : List Name) : Option Node :=
  (d.entries.find? fun e => e.1 = p).map Prod.snd

/-- `readdir`: the names in a directory, in some order. -/
def readdir (d : Disk) (p : List Name) : List Name :=
  (d.entries.filterMap fun e => if e.1.dropLast = p then e.1.getLast? else none).dedup

/-- The number of names on the way to the deepest entry. -/
def depth (d : Disk) : ℕ := (d.entries.map fun e => e.1.length).foldr max 0

theorem get_ne_none_iff {d : Disk} {p : List Name} :
    d.get p ≠ none ↔ ∃ n, (p, n) ∈ d.entries := by
  rw [get, Ne, Option.map_eq_none_iff, List.find?_eq_none]
  constructor
  · intro h
    push Not at h
    obtain ⟨⟨q, n⟩, hmem, hq⟩ := h
    have hqp : q = p := by simpa using hq
    exact ⟨n, hqp ▸ hmem⟩
  · rintro ⟨n, hmem⟩ h
    exact h _ hmem (by simp)

/-- **The names `readdir` gives are the names of the entries.** -/
theorem mem_readdir {d : Disk} {p : List Name} {n : Name} :
    n ∈ d.readdir p ↔ d.get (p ++ [n]) ≠ none := by
  rw [readdir, List.mem_dedup, List.mem_filterMap, get_ne_none_iff]
  constructor
  · rintro ⟨⟨q, m⟩, hmem, hq⟩
    simp only at hq
    split at hq
    · rename_i hdrop
      have hq' : q = p ++ [n] := by
        rw [← List.dropLast_append_getLast? n hq, hdrop]
      exact ⟨m, hq' ▸ hmem⟩
    · cases hq
  · rintro ⟨m, hmem⟩
    exact ⟨_, hmem, by simp⟩

theorem nodup_readdir (d : Disk) (p : List Name) : (d.readdir p).Nodup := List.nodup_dedup _

/-- No entry is deeper than the depth. -/
theorem length_le_depth {d : Disk} {p : List Name} (h : d.get p ≠ none) : p.length ≤ d.depth := by
  obtain ⟨n, hmem⟩ := get_ne_none_iff.mp h
  have hlen : p.length ∈ d.entries.map fun e => e.1.length := List.mem_map.mpr ⟨_, hmem, rfl⟩
  exact List.le_max_of_le' 0 hlen le_rfl

/-- There is a directory at a physical path. -/
def IsDir (d : Disk) (p : List Name) : Prop := ∃ n, d.get p = some n ∧ n.isDir = true

/-- The bytes a file is read as, by its path string below a directory. -/
def contentAt (d : Disk) (root : List Name) (p : Bytes) : Bytes :=
  ((d.entries.find? fun e => root <+: e.1 ∧ pathStr (e.1.drop root.length) = p).map
    fun e => e.2.content).getD []

/-- **Reading by path string** reads the node the names lead to. -/
theorem contentAt_pathStr {d : Disk} {root ns : List Name} {node : Node}
    (h : d.get (root ++ ns) = some node) : d.contentAt root (pathStr ns) = node.content := by
  have hpred : (fun e : List Name × Node => decide (root <+: e.1 ∧
      pathStr (e.1.drop root.length) = pathStr ns)) = fun e => decide (e.1 = root ++ ns) := by
    funext e
    refine decide_eq_decide.mpr ⟨?_, fun he => ?_⟩
    · rintro ⟨⟨ms, hms⟩, hp⟩
      rw [← hms, List.drop_left, pathStr_inj] at hp
      rw [← hms, hp]
    · rw [he]
      exact ⟨⟨ns, rfl⟩, by rw [List.drop_left]⟩
  obtain ⟨e, he, hnode⟩ := Option.map_eq_some_iff.mp h
  rw [contentAt, hpred, he, Option.map_some, Option.getD_some, hnode]

/-- **A well-formed disk**: a tree whose root is a directory, with strings that
have a size. -/
structure WellFormed (d : Disk) : Prop where
  root : d.IsDir []
  closed : ∀ p n, d.get (p ++ [n]) ≠ none → d.IsDir p
  path_length : ∀ p, d.get p ≠ none → (pathStr p).length < 2 ^ 64
  target_length : ∀ p n, d.get p = some n → n.target.length < 2 ^ 64

instance (d : Disk) (p : List Name) : Decidable (d.IsDir p) :=
  match h : d.get p with
  | none => isFalse fun ⟨n, hn, _⟩ => by rw [h] at hn; cases hn
  | some n =>
    if hd : n.isDir = true then isTrue ⟨n, h, hd⟩
    else isFalse fun ⟨m, hm, hmd⟩ => hd (by rw [h] at hm; cases hm; exact hmd)

/-- Whether a disk is well formed can be read off its entries. -/
theorem wellFormed_of_entries {d : Disk} (hroot : d.IsDir [])
    (hclosed : ∀ e ∈ d.entries, e.1 ≠ [] → d.IsDir e.1.dropLast)
    (hlength : ∀ e ∈ d.entries, (pathStr e.1).length < 2 ^ 64 ∧ e.2.target.length < 2 ^ 64) :
    d.WellFormed where
  root := hroot
  closed p n h := by
    obtain ⟨m, hm⟩ := get_ne_none_iff.mp h
    simpa using hclosed _ hm (by simp)
  path_length p h := by
    obtain ⟨m, hm⟩ := get_ne_none_iff.mp h
    exact (hlength _ hm).1
  target_length p n h := by
    obtain ⟨e, he, rfl⟩ := Option.map_eq_some_iff.mp h
    exact (hlength _ (List.mem_of_find?_eq_some he)).2

end Disk

end Fstree
