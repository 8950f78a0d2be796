import Fstree.Foundations.Effect
import Fstree.Foundations.TwoCursor
import Fstree.Model.FileSystem
import Fstree.Scan

/-!
# Checking an index out

`index::checkout` scans the destination, and goes through the scan and the index with two
cursors, in the order of the paths. What is only in the scan is removed, what is only in
the index is created, and what is in both is compared, and created anew if need be. The
scan was taken before anything was changed: it may name a directory that has in the
meantime become something else, and files in it.

The program runs on a `Fstree.World`, the disk and the calls it has made so far; it may
throw at any call (`Fstree.CheckoutM`). `index::checkout_node` reads the mtime and the
status of what it has made back into the inode.
-/

namespace Fstree

open Codec TwoCursor

/-! ### The metadata of the local index -/

/-- What an inode of the index takes over from one of the other index at its path. -/
def copyMtime (i o : Inode) : Inode := if i.hash = o.hash then { i with mtime := o.mtime } else i

/-- **`index::copy_metadata`**: the inodes of the index, with the mtimes of those of the
other index that have the same path and digest. -/
def copyMetadata (index other : List Inode) : List Inode :=
  walk Inode.path Inode.path (fun done i => done ++ [i]) (fun done i o => done ++ [copyMtime i o])
    index other []

@[simp] theorem copyMtime_path (i o : Inode) : (copyMtime i o).path = i.path := by
  rw [copyMtime]
  split_ifs <;> rfl

/-- **Paths are not touched**, whatever the other index is. -/
theorem map_path_copyMetadata (index other : List Inode) :
    (copyMetadata index other).map Inode.path = index.map Inode.path := by
  refine walk_induction (P := fun done (l : List Inode) => l.map Inode.path = done.map Inode.path)
    ?_ ?_ _ _ rfl
  · intro done l i h
    simp [h]
  · intro done l i o h
    simp [h]

theorem copyMtime_entry (i o : Inode) : (copyMtime i o).entry = i.entry := by
  rw [copyMtime]
  split_ifs <;> rfl

/-- **Only mtimes are touched.** -/
theorem map_entry_copyMetadata (index other : List Inode) :
    (copyMetadata index other).map Inode.entry = index.map Inode.entry := by
  refine walk_induction (P := fun done (l : List Inode) => l.map Inode.entry = done.map Inode.entry)
    ?_ ?_ _ _ rfl
  · intro done l i h
    simp [h]
  · intro done l i o h
    simp [h, copyMtime_entry]

/-! ### The program -/

/-- The disk, and the calls that were made on it, in their order. -/
structure World where
  disk : Disk
  log : List FileOp := []

/-- Why a checkout has failed: in which call, on which path. -/
structure CheckoutError where
  what : String
  path : Bytes
  errno : Errno

/-- The text of an error number. -/
def Errno.message : Errno → String
  | noent => "No such file or directory"
  | notdir => "Not a directory"
  | loop => "Too many levels of symbolic links"
  | exist => "File exists"
  | isdir => "Is a directory"
  | notempty => "Directory not empty"
  | denied => "Permission denied"

/-- The text of the exception. -/
def CheckoutError.message (e : CheckoutError) : String :=
  e.what ++ text e.path ++ ": " ++ e.errno.message

/-- **A program on a world that may throw.** -/
abbrev CheckoutM := EStateM CheckoutError World

/-- `std::filesystem::canonical`: the physical path, of something that has to be there. -/
def Disk.canonical (d : Disk) (p : Bytes) : Except Errno Bytes :=
  match d.lookup true p with
  | .ok (.at q) => .ok (absPath q)
  | .ok (.absent ..) => .error .noent
  | .error e => .error e

/-- `std::filesystem::exists`, which throws when it cannot tell. -/
def Disk.existsAt (d : Disk) (p : Bytes) : Except Errno Bool :=
  match d.lookup true p with
  | .ok (.at _) => .ok true
  | .ok (.absent ..) | .error .noent | .error .notdir => .ok false
  | .error e => .error e

/-- The path string of components. -/
def strPath (cs : List Bytes) : Bytes := slash :: [slash].intercalate cs

/-- The components of a path string. -/
def components (p : Bytes) : List Bytes := (p.splitOn slash).filter fun c => c ≠ []

/-- The components that lead to something, and those that are left: from `front` on. -/
def Disk.existingFront (d : Disk) : List Bytes → List Bytes → Except Errno (List Bytes × List Bytes)
  | front, [] => .ok (front, [])
  | front, c :: rest => do
    if ← d.existsAt (strPath (front ++ [c])) then d.existingFront (front ++ [c]) rest
    else return (front, c :: rest)

/-- `path::lexically_normal` on the components of an absolute path. -/
def lexicallyNormal (cs : List Bytes) : List Bytes :=
  cs.foldl (fun done c =>
    if c = [dot] then done else if c = [dot, dot] then done.dropLast else done ++ [c]) []

/-- `std::filesystem::weakly_canonical`: of the longest part of the path that leads to
something, with the rest behind it. -/
def Disk.weaklyCanonical (d : Disk) (p : Bytes) : Except Errno Bytes := do
  if ← d.existsAt p then d.canonical p
  else
    let (front, rest) ← d.existingFront [] (components p)
    let base ← d.canonical (strPath front)
    return strPath (lexicallyNormal (components base ++ rest))

section Program

variable (os : OS) (st : Store) (root : List Name)

/-- A call: `what` and `path` are for the exception. -/
def call (what : String) (path : Bytes) (op : FileOp) : CheckoutM Unit := fun w =>
  let n := w.log.length
  match if os.denies n then .error .denied else op.effect os st (os.clock n) w.disk with
  | .ok d => .ok () ⟨d, w.log ++ [op]⟩
  | .error e => .error ⟨what, path, e⟩ { w with log := w.log ++ [op] }

/-- The absolute path of an inode. -/
def fullPath (node : Inode) : Bytes := joinPath (absPath root) node.path

/-- `fstree::lstat`, into the inode. -/
def stat (node : Inode) : CheckoutM Inode := fun w =>
  match w.disk.lookup false (fullPath root node) with
  | .ok (.at p) =>
    match w.disk.get p with
    | some n => .ok { node with mtime := n.mtime, status := n.status } w
    | none => .error ⟨"failed to stat file: ", fullPath root node, .noent⟩ w
  | .ok (.absent ..) => .error ⟨"failed to stat file: ", fullPath root node, .noent⟩ w
  | .error e => .error ⟨"failed to stat file: ", fullPath root node, e⟩ w

/-- What `index::checkout_node` calls. -/
def makeNode (node : Inode) : CheckoutM Unit := do
  let full := fullPath root node
  if node.isSymlink then
    call os st "failed to remove symlink: " full (.remove full)
    call os st "failed to create symlink: " full (.createSymlink node.target full)
  else if node.isDirectory then
    call os st "failed to create directory: " full (.createDirectory full)
    call os st "failed to set permissions: " full (.permissions full node.status.perms)
  else if node.isFile then
    call os st "failed to remove file: " full (.remove full)
    call os st "cannot copy file: " full (.copyFile (filePath node.hash) full)
    call os st "failed to set permissions: " full (.permissions full node.status.perms)

/-- **`index::checkout_node`.** -/
def checkoutNode (node : Inode) : CheckoutM Inode := do
  makeNode os st root node
  stat root node

/-- The end of the tree: all that is left of the index is added. -/
def checkoutRest : List Inode → CheckoutM (List Inode)
  | [] => return []
  | i :: is => do
    let i ← checkoutNode os st root i
    return i :: (← checkoutRest is)

/-- The end of the index: all that is left of the tree is removed. -/
def removeRest : List Inode → CheckoutM Unit
  | [] => return ()
  | t :: ts => do
    call os st "failed to remove file: " (fullPath root t) (.removeAll (fullPath root t))
    removeRest ts

/-- A node of the tree that is not in the index is removed, unless the directory it is in
is not canonical: it has become a symlink. -/
def removeStale (t : Inode) : CheckoutM Unit := do
  let parent := parentPath (fullPath root t)
  match (← get).disk.weaklyCanonical parent with
  | .error e => throw ⟨"cannot make canonical path: ", parent, e⟩
  | .ok canonical =>
    if parent = canonical then
      call os st "failed to remove directory: " (fullPath root t) (.removeAll (fullPath root t))

/-- A node of the tree, and one of the index with another type. -/
def replaceNode (t i : Inode) : CheckoutM Inode := do
  if t.isDirectory then
    call os st "failed to remove directory: " (fullPath root t) (.removeAll (fullPath root t))
  else
    call os st "failed to remove file: " (fullPath root t) (.remove (fullPath root t))
  checkoutNode os st root i

/-- An inode that is no directory is made anew if its mtime is another. -/
def rewriteNode (t i : Inode) : CheckoutM Inode :=
  if t.mtime ≠ i.mtime ∧ i.isDirectory = false then checkoutNode os st root i else return i

/-- The permissions are set if they are others. -/
def updatePerms (t i : Inode) : CheckoutM Unit :=
  if t.status.perms ≠ i.status.perms then
    call os st "failed to set permissions: " (absPath root)
      (.permissions (fullPath root i) i.status.perms)
  else return ()

/-- What has another target is made anew. -/
def updateTarget (t i : Inode) : CheckoutM Inode :=
  if i.target ≠ t.target then do
    call os st "failed to remove symlink: " (absPath root) (.remove (fullPath root i))
    checkoutNode os st root i
  else return i

/-- A node of the tree, and one of the index with the same type. -/
def updateNode (t i : Inode) : CheckoutM Inode := do
  let i ← rewriteNode os st root t i
  updatePerms os st root t i
  updateTarget os st root t i

/-- The loop while the cursor of the tree is at `t`. What follows is `rest`: it is given
the prefix of the paths that are skipped, if any. -/
def checkoutAt (t : Inode) (ts : List Inode)
    (rest : Option Bytes → List Inode → CheckoutM (List Inode)) :
    List Inode → CheckoutM (List Inode)
  | [] => do
    removeRest os st root (t :: ts)
    return []
  | i :: is => do
    if t.path < i.path then
      removeStale os st root t
      rest none (i :: is)
    else if i.path < t.path then
      let i ← checkoutNode os st root i
      return i :: (← checkoutAt t ts rest is)
    else if t.status.type ≠ i.status.type then
      let i ← replaceNode os st root t i
      return i :: (← rest (if t.isDirectory then some (t.path ++ [slash]) else none) is)
    else
      let i ← updateNode os st root t i
      return i :: (← rest none is)

/-- The loop from the next node of the tree on; those whose path begins with `skip` are
skipped. -/
def checkoutFrom : List Inode → Option Bytes → List Inode → CheckoutM (List Inode)
  | [], _, index => checkoutRest os st root index
  | t :: ts, skip, index =>
    if skip.any fun p => p.isPrefixOf t.path then checkoutFrom ts skip index
    else checkoutAt os st root t ts (checkoutFrom ts) index

/-- **`index::checkout`** of the inodes of an index into a directory that is there, with
what the scan of it has given. -/
def checkout (tree index : List Inode) : CheckoutM (List Inode) :=
  checkoutFrom os st root tree none index

end Program

end Fstree
