import Fstree.Model.Inode

/-!
# The saved index

An index is saved as a header and one entry for each of its inodes: path,
digest, status bits, mtime and, for a symlink, the target
(`Fstree.saveIndex`). `Fstree.loadIndex` reads it back into an index, entry by
entry: the inodes it had are dropped only once the header has been read, and an
exception in the middle of the file leaves the entries read so far, which the
callers go on with.

Sizes, parents and children are not saved. What comes back from a saved inode
is `Fstree.Inode.saved`.
-/

namespace Fstree

open Codec

/-- What can be wrong with a saved index. -/
inductive IndexError
  | cannotOpen
  /-- The file ended inside the header or a field. -/
  | short
  | invalidMagic
  | invalidVersion
  /-- A digest that `digest::parse` does not take. -/
  | digest (message : String)
deriving DecidableEq

/-- The text of the exception, up to the system's own words. -/
def IndexError.message (path : Bytes) : IndexError → String
  | .cannotOpen => "failed to open index for reading: " ++ text path ++ ": "
  | .short => "failed reading index: " ++ text path ++ ": "
  | .invalidMagic => "failed reading index: " ++ text path ++ ": invalid magic"
  | .invalidVersion => "failed reading index: " ++ text path ++ ": invalid version"
  | .digest message => message

/-- `magic` and `version` of index files. -/
def indexHeader : Bytes := le 2 0x3ee3 ++ le 2 1

/-- One entry of a saved index. -/
def putEntry (n : Inode) : Bytes :=
  putBlock n.path ++ putBlock n.hash.string ++ le 4 n.status.bits ++ le 8 n.mtime.toNat ++
    if n.isSymlink then putBlock n.target else []

/-- `index::save`: the bytes of the file. -/
def saveIndex (inodes : List Inode) : Bytes := indexHeader ++ inodes.flatMap putEntry

/-- Magic and version. -/
def readIndexHeader : Reader IndexError Unit := do
  let magic ← word .short 2
  if magic ≠ 0x3ee3 then throw .invalidMagic
  let version ← word .short 2
  if version ≠ 1 then throw .invalidVersion

/-- One entry: the inode it makes. -/
def readEntry : Reader IndexError Inode := do
  let path ← block .short
  let hash ← block .short
  let bits ← word .short 4
  let mtime ← word .short 8
  let target ← readTarget .short (FileStatus.ofBits bits)
  let digest ← readDigest .digest hash
  return {
    path := path
    hash := digest
    status := FileStatus.ofBits bits
    mtime := BitVec.ofNat 64 mtime
    size := 0
    target := target }

/-- `index::load` into an index that holds `previous`, from a file that may not
be there: the inodes the index is left with, and the exception, if any. -/
def loadIndex (previous : List Inode) : Option Bytes → List Inode × Option IndexError
  | none => (previous, some .cannotOpen)
  | some bs =>
    match readIndexHeader bs with
    | .error e => (previous, some e)
    | .ok (_, rest) => readAll readEntry rest

/-! ### Reading a saved index back -/

/-- What is left of an inode after it has been saved and loaded. -/
def Inode.saved (n : Inode) : Inode where
  path := n.path
  hash := n.hash
  status := n.status
  mtime := n.mtime
  size := 0
  target := if n.isSymlink then n.target else []

/-- An inode whose entry can be read back. -/
structure Inode.Savable (n : Inode) : Prop where
  hash : n.hash.WellFormed
  path : n.path.length < 2 ^ 64
  target : n.target.length < 2 ^ 64

@[simp] theorem Inode.saved_path (n : Inode) : n.saved.path = n.path := rfl

@[simp] theorem Inode.saved_hash (n : Inode) : n.saved.hash = n.hash := rfl

@[simp] theorem Inode.saved_status (n : Inode) : n.saved.status = n.status := rfl

@[simp] theorem Inode.saved_mtime (n : Inode) : n.saved.mtime = n.mtime := rfl

/-- **An entry is read back.** -/
theorem reads_entry {n : Inode} (h : n.Savable) : Reads readEntry (putEntry n) n.saved := by
  have hmtime : n.mtime.toNat < 256 ^ 8 := lt_of_lt_of_le n.mtime.isLt (by decide)
  rw [putEntry, List.append_assoc, List.append_assoc, List.append_assoc]
  refine (reads_block _ h.path).bind ((reads_block _ (length_string_lt h.hash)).bind
    ((reads_word _ n.status.bits_lt).bind ((reads_word _ hmtime).bind ?_)))
  rw [FileStatus.ofBits_bits, BitVec.ofNat_toNat]
  exact (reads_readTarget _ h.target).map ((reads_readDigest _ h.hash).map (reads_pure _))

theorem consumes_readEntry : Consumes readEntry :=
  (consumes_block _).bind fun _ => (shrinks_block _).bind fun _ => (shrinks_word _ 4).bind fun _ =>
    (shrinks_word _ 8).bind fun _ => (shrinks_readTarget _ _).bind fun _ =>
      (shrinks_readDigest _ _).bind fun _ => shrinks_pure _

theorem readIndexHeader_append (rest : Bytes) :
    readIndexHeader (indexHeader ++ rest) = .ok ((), rest) := by
  have h : Reads readIndexHeader indexHeader () := by
    refine (reads_word _ (by decide)).bind ?_
    refine Reads.map (b := ()) (reads_word _ (by decide)) ?_
    exact reads_pure ()
  exact h rest

/-- **A saved index is loaded back**, whatever the index held before. -/
theorem loadIndex_saveIndex {inodes : List Inode} (h : ∀ n ∈ inodes, n.Savable)
    (previous : List Inode) :
    loadIndex previous (some (saveIndex inodes)) = (inodes.map Inode.saved, none) := by
  rw [loadIndex, saveIndex, readIndexHeader_append]
  exact readAll_flatMap consumes_readEntry fun n hn => reads_entry (h n hn)

end Fstree
