import Fstree.Model.Digest
import Fstree.Model.Path
import Mathlib.Data.List.Defs

/-!
# Inodes, and the tree objects they are stored in

An inode is one entry of an index: its path string, its digest if it has one,
and the metadata a scan or a tree object gives it. A **tree object** is the
content of a directory inode: a header and one record for each child that is
not ignored, with the child's name, digest, status bits and, for a symlink only,
its target (`Fstree.encodeTree`). The reader (`Fstree.decodeTree`) joins each
name onto the path of the directory it is reading.

The records have no mtime and no size, and the reader predicts the fourth field
from the status bits it has just read. That what is written is read back
(`Fstree.reads_child`, `Fstree.decodeTree_encodeTree`) is therefore about the
decoded form of a child, `Fstree.Inode.decoded`.
-/

namespace Fstree

open Codec

/-! ### File status -/

/-- `std::filesystem::file_type`, as far as the program tells types apart: a
status that is none of the other three is `none`. -/
inductive FileType
  | none
  | regular
  | directory
  | symlink
deriving DecidableEq

instance neZero_perms : NeZero 512 := ⟨by decide⟩

/-- `file_status`: a type and the nine permission bits. -/
structure FileStatus where
  type : FileType
  perms : Fin 512
deriving DecidableEq

theorem FileStatus.ext {s s' : FileStatus} (ht : s.type = s'.type) (hp : s.perms = s'.perms) :
    s = s' := by
  cases s
  cases s'
  simp_all

/-- `file_status::internal_type`, in units of `1 << 24`. -/
def FileType.code : FileType → ℕ
  | .none => 0
  | .regular => 1
  | .directory => 2
  | .symlink => 4

/-- `operator uint32_t`. The permission bits and the type bits are disjoint, so
the `or` of the source is a sum. -/
def FileStatus.bits (s : FileStatus) : ℕ := s.perms.val + 2 ^ 24 * s.type.code

/-- `file_status(uint32_t)`: the type bits are the three from bit 24, the
permissions the nine low ones, and every other bit is dropped. -/
def FileStatus.ofBits (m : ℕ) : FileStatus where
  type := match m / 2 ^ 24 % 8 with
    | 1 => .regular
    | 2 => .directory
    | 4 => .symlink
    | _ => .none
  perms := Fin.ofNat 512 m

theorem FileStatus.bits_lt (s : FileStatus) : s.bits < 256 ^ 4 := by
  have hp := s.perms.isLt
  have hc : s.type.code ≤ 4 := by cases s.type <;> decide
  simp only [bits]
  omega

/-- **A status survives its bits.** -/
@[simp] theorem FileStatus.ofBits_bits (s : FileStatus) : ofBits s.bits = s := by
  obtain ⟨t, p⟩ := s
  have hp := p.isLt
  have hperms : Fin.ofNat 512 (p.val + 2 ^ 24 * t.code) = p := Fin.ext (by
    simp only [Fin.val_ofNat]
    omega)
  have htype : (p.val + 2 ^ 24 * t.code) / 2 ^ 24 % 8 = t.code := by
    have hc : t.code ≤ 4 := by cases t <;> decide
    omega
  simp only [ofBits, bits, hperms, htype]
  cases t <;> rfl

/-! ### Inodes -/

/-- `inode::time_type`: nanoseconds since the epoch, as a 64-bit word. -/
abbrev Time := BitVec 64

/-- **An inode.** The pointer to the parent is the parent's path, which tells
the inodes of one index apart. -/
structure Inode where
  path : Bytes
  hash : Digest := Digest.none
  status : FileStatus
  mtime : Time
  size : ℕ
  target : Bytes
  parent : Option Bytes := none
  ignored : Bool := false
deriving DecidableEq

namespace Inode

/-- `inode::name`. -/
def name (n : Inode) : Bytes := fileName n.path

/-- `inode::is_directory`. -/
def isDirectory (n : Inode) : Bool := n.status.type = .directory

/-- `inode::is_file`. -/
def isFile (n : Inode) : Bool := n.status.type = .regular

/-- `inode::is_symlink`. -/
def isSymlink (n : Inode) : Bool := n.status.type = .symlink

/-- `inode::is_equivalent`. -/
def isEquivalent (n other : Inode) : Bool :=
  n.path = other.path ∧ n.status.type = other.status.type ∧
    n.status.perms = other.status.perms ∧ n.mtime = other.mtime ∧ n.target = other.target

/-- `inode::set_hash`. -/
def setHash (n : Inode) (h : Digest) : Inode := { n with hash := h }

@[simp] theorem setHash_path (n : Inode) (h : Digest) : (n.setHash h).path = n.path := rfl

@[simp] theorem setHash_hash (n : Inode) (h : Digest) : (n.setHash h).hash = h := rfl

@[simp] theorem setHash_status (n : Inode) (h : Digest) : (n.setHash h).status = n.status := rfl

@[simp] theorem setHash_target (n : Inode) (h : Digest) : (n.setHash h).target = n.target := rfl

@[simp] theorem setHash_ignored (n : Inode) (h : Digest) : (n.setHash h).ignored = n.ignored :=
  rfl

@[simp] theorem setHash_parent (n : Inode) (h : Digest) : (n.setHash h).parent = n.parent := rfl

@[simp] theorem setHash_name (n : Inode) (h : Digest) : (n.setHash h).name = n.name := rfl

@[simp] theorem setHash_isDirectory (n : Inode) (h : Digest) :
    (n.setHash h).isDirectory = n.isDirectory := rfl

@[simp] theorem setHash_isFile (n : Inode) (h : Digest) : (n.setHash h).isFile = n.isFile := rfl

@[simp] theorem setHash_isSymlink (n : Inode) (h : Digest) :
    (n.setHash h).isSymlink = n.isSymlink := rfl

theorem isEquivalent_iff {n o : Inode} : n.isEquivalent o = true ↔
    n.path = o.path ∧ n.status = o.status ∧ n.mtime = o.mtime ∧ n.target = o.target := by
  have hstatus : n.status = o.status ↔
      n.status.type = o.status.type ∧ n.status.perms = o.status.perms := by
    cases n.status
    cases o.status
    simp
  simp [isEquivalent, hstatus, and_assoc]

end Inode

/-- **What an inode records**: what a tree object keeps of it, with the whole path. -/
structure Entry where
  path : Bytes
  status : FileStatus
  target : Bytes
  hash : Digest
deriving DecidableEq

/-- The record of an inode. -/
def Inode.entry (n : Inode) : Entry := ⟨n.path, n.status, n.target, n.hash⟩

theorem Inode.entry_eq_iff {n m : Inode} : n.entry = m.entry ↔
    n.path = m.path ∧ n.status = m.status ∧ n.target = m.target ∧ n.hash = m.hash := by
  simp [Inode.entry]

/-! ### Tree objects -/

/-- What can be wrong with a tree object. -/
inductive TreeError
  /-- The input ended inside a field. -/
  | short
  | invalidMagic
  | unsupportedVersion
  /-- A digest that `digest::parse` does not take. -/
  | digest (message : String)
deriving DecidableEq

/-- The text of the exception, up to the system's own words for a short read. -/
def TreeError.message (hash : Digest) : TreeError → String
  | .short => "failed reading tree: " ++ text hash.string ++ ": "
  | .invalidMagic => "failed reading tree: " ++ text hash.string ++ ": invalid magic"
  | .unsupportedVersion => "failed reading tree: " ++ text hash.string ++ ": unsupported version"
  | .digest message => message

/-- `g_magic` and `g_version` of tree objects. -/
def treeHeader : Bytes := le 2 0x3eee ++ le 2 1

/-- One record of a tree object. -/
def putChild (child : Inode) : Bytes :=
  putBlock child.name ++ putBlock child.hash.string ++ le 4 child.status.bits ++
    if child.isSymlink then putBlock child.target else []

/-- A record of a tree object holds nothing that the inode does not record. -/
theorem putChild_congr {c c' : Inode} (h : c.entry = c'.entry) : putChild c = putChild c' := by
  obtain ⟨hp, hs, ht, hh⟩ := Inode.entry_eq_iff.mp h
  rw [putChild, putChild, Inode.name, Inode.name, Inode.isSymlink, Inode.isSymlink, hp, hs, ht, hh]

/-- `operator<<(ostream, inode)`, on the children of the inode. -/
def encodeTree (children : List Inode) : Bytes :=
  treeHeader ++ (children.filter fun c => !c.ignored).flatMap putChild

/-- A digest field; `bad` is the exception for a text that is no digest. -/
def readDigest {ε : Type} (bad : String → ε) (str : Bytes) : Reader ε Digest :=
  match Digest.parse str with
  | .ok d => pure d
  | .error message => throw (bad message)

/-- The target field, which is there for a symlink only. -/
def readTarget {ε : Type} (short : ε) (status : FileStatus) : Reader ε Bytes :=
  if status.type = .symlink then block short else pure []

/-- Magic and version. -/
def readTreeHeader : Reader TreeError Unit := do
  let magic ← word .short 2
  if magic ≠ 0x3eee then throw .invalidMagic
  let version ← word .short 2
  if version ≠ 1 then throw .unsupportedVersion

/-- One record: the child it makes of a directory at `parent`. -/
def readChild (parent : Bytes) : Reader TreeError Inode := do
  let path ← block .short
  let hash ← block .short
  let bits ← word .short 4
  let target ← readTarget .short (FileStatus.ofBits bits)
  let digest ← readDigest .digest hash
  return {
    path := joinPath parent path
    hash := digest
    status := FileStatus.ofBits bits
    mtime := 0
    size := 0
    target := target
    parent := some parent }

/-- `operator>>(istream, inode)` for an inode at `parent`: the children it has
added, and the exception it has left with, if any. -/
def decodeTree (parent : Bytes) (bs : Bytes) : List Inode × Option TreeError :=
  match readTreeHeader bs with
  | .error e => ([], some e)
  | .ok (_, rest) => readAll (readChild parent) rest

/-- **A record that was read** has no mtime and, unless it is a symlink, no target. -/
theorem readChild_eq_ok {parent bs rest : Bytes} {c : Inode}
    (h : readChild parent bs = .ok (c, rest)) :
    c.mtime = 0 ∧ (c.isSymlink = false → c.target = []) := by
  obtain ⟨path, r₁, -, h⟩ := bind_eq_ok h
  obtain ⟨hash, r₂, -, h⟩ := bind_eq_ok h
  obtain ⟨bits, r₃, -, h⟩ := bind_eq_ok h
  obtain ⟨target, r₄, htarget, h⟩ := bind_eq_ok h
  obtain ⟨digest, r₅, -, h⟩ := bind_eq_ok h
  obtain ⟨rfl, rfl⟩ := Prod.mk.inj (Except.ok.inj h)
  refine ⟨rfl, fun hl => ?_⟩
  rw [readTarget, if_neg (of_decide_eq_false hl)] at htarget
  exact ((Prod.mk.inj (Except.ok.inj htarget)).1).symm

theorem readChild_of_mem_decodeTree {parent bs : Bytes} {c : Inode}
    (h : c ∈ (decodeTree parent bs).1) :
    c.mtime = 0 ∧ (c.isSymlink = false → c.target = []) := by
  rw [decodeTree] at h
  split at h
  · cases h
  · exact forall_mem_many (fun _ _ _ hr => readChild_eq_ok hr) _ _ c h

/-! ### Reading a tree object back -/

/-- What is left of a child after it has been written and read back. -/
def Inode.decoded (parent : Bytes) (c : Inode) : Inode where
  path := joinPath parent c.name
  hash := c.hash
  status := c.status
  mtime := 0
  size := 0
  target := if c.isSymlink then c.target else []
  parent := some parent

/-- A child whose record can be read back: a well-formed digest, and strings
whose lengths are sizes of strings. -/
structure Inode.Encodable (c : Inode) : Prop where
  hash : c.hash.WellFormed
  name : c.name.length < 2 ^ 64
  target : c.target.length < 2 ^ 64

section Fields

variable {ε : Type}

theorem reads_readDigest (bad : String → ε) {d : Digest} (h : d.WellFormed) :
    Reads (readDigest bad d.string) [] d := by
  rw [readDigest, Digest.parse_string h]
  exact reads_pure d

theorem shrinks_readDigest (bad : String → ε) (str : Bytes) : Shrinks (readDigest bad str) := by
  rw [readDigest]
  split
  · exact shrinks_pure _
  · exact shrinks_throw _

theorem reads_readTarget (short : ε) {n : Inode} (h : n.target.length < 2 ^ 64) :
    Reads (readTarget short n.status) (if n.isSymlink then putBlock n.target else [])
      (if n.isSymlink then n.target else []) := by
  by_cases hl : n.status.type = .symlink
  · simpa [readTarget, Inode.isSymlink, hl] using reads_block _ h
  · simpa [readTarget, Inode.isSymlink, hl] using reads_pure _

theorem shrinks_readTarget (short : ε) (status : FileStatus) :
    Shrinks (readTarget short status) := by
  rw [readTarget]
  split
  · exact shrinks_block _
  · exact shrinks_pure _

theorem length_string_lt {d : Digest} (h : d.WellFormed) : d.string.length < 2 ^ 64 :=
  lt_of_le_of_lt (Digest.length_string_le h) (by decide)

end Fields

/-- **A record is read back.** -/
theorem reads_child {c : Inode} (h : c.Encodable) (parent : Bytes) :
    Reads (readChild parent) (putChild c) (c.decoded parent) := by
  rw [putChild, List.append_assoc, List.append_assoc]
  refine (reads_block _ h.name).bind ((reads_block _ (length_string_lt h.hash)).bind
    ((reads_word _ c.status.bits_lt).bind ?_))
  rw [FileStatus.ofBits_bits]
  exact (reads_readTarget _ h.target).map ((reads_readDigest _ h.hash).map (reads_pure _))

/-- A record takes at least the eight bytes of its first length. -/
theorem consumes_readChild (parent : Bytes) : Consumes (readChild parent) :=
  (consumes_block _).bind fun _ => (shrinks_block _).bind fun _ => (shrinks_word _ 4).bind fun _ =>
    (shrinks_readTarget _ _).bind fun _ => (shrinks_readDigest _ _).bind fun _ => shrinks_pure _

theorem readTreeHeader_append (rest : Bytes) :
    readTreeHeader (treeHeader ++ rest) = .ok ((), rest) := by
  have h : Reads readTreeHeader treeHeader () := by
    refine (reads_word _ (by decide)).bind ?_
    refine Reads.map (b := ()) (reads_word _ (by decide)) ?_
    exact reads_pure ()
  exact h rest

/-- **A tree object is read back**: its records are the children that are not
ignored, in their order. -/
theorem decodeTree_encodeTree {children : List Inode}
    (h : ∀ c ∈ children, c.ignored = false → c.Encodable) (parent : Bytes) :
    decodeTree parent (encodeTree children) =
      ((children.filter fun c => !c.ignored).map (·.decoded parent), none) := by
  rw [decodeTree, encodeTree, readTreeHeader_append]
  refine readAll_flatMap (consumes_readChild parent) fun c hc => ?_
  obtain ⟨hmem, hign⟩ := List.mem_filter.mp hc
  exact reads_child (h c hmem (by simpa using hign)) parent

/-- **Directories with one encoding have one list of children**, as far as a
tree object records them. -/
theorem decoded_eq_of_encodeTree_eq {l l' : List Inode}
    (h : ∀ c ∈ l, c.ignored = false → c.Encodable) (h' : ∀ c ∈ l', c.ignored = false → c.Encodable)
    (he : encodeTree l = encodeTree l') (parent : Bytes) :
    (l.filter fun c => !c.ignored).map (·.decoded parent) =
      (l'.filter fun c => !c.ignored).map (·.decoded parent) := by
  have h1 := decodeTree_encodeTree h parent
  rw [he, decodeTree_encodeTree h' parent] at h1
  exact (congrArg Prod.fst h1).symm

end Fstree
