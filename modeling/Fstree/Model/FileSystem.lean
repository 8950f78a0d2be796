import Fstree.Model.Disk
import Fstree.Model.Store

/-!
# The file system operations

What the calls of the standard library do to a disk. A path string is looked up name
by name (`Fstree.Disk.lookup`): `.` stays, `..` goes up, a symlink is followed to its
target – always on the way, and at the end if the call follows it – but not more than
forty times. The operations of a checkout (`Fstree.FileOp`) act on what the lookup
finds.

As long as a path leads through directories only, the lookup finds the physical path
(`Fstree.Disk.lookup_concat`), and the operations are updates of the map from physical
paths to nodes. What becomes of a path that does not is the file system's affair, and in
one way or another the concern of whoever uses it.
-/

namespace Fstree

open Codec

/-! ### Changing the map -/

/-- A directory entry, other than `.` and `..`. -/
def Name.Plain (n : Name) : Prop := n.bytes ≠ [dot] ∧ n.bytes ≠ [dot, dot]

instance (n : Name) : Decidable n.Plain := inferInstanceAs (Decidable (_ ∧ _))

namespace Disk

/-- There is this node at `p`. -/
def set (d : Disk) (p : List Name) (n : Node) : Disk :=
  ⟨(p, n) :: d.entries.filter fun e => e.1 ≠ p⟩

/-- There is nothing at `p` nor below it. -/
def erase (d : Disk) (p : List Name) : Disk := ⟨d.entries.filter fun e => ¬ p <+: e.1⟩

/-- The directory at `p` has been changed at this time. -/
def touch (d : Disk) (p : List Name) (t : Time) : Disk :=
  match d.get p with
  | some (.dir perms _ size) => d.set p (.dir perms t size)
  | _ => d

theorem find?_filter_of_imp {α : Type*} {l : List α} {p q : α → Bool}
    (h : ∀ a, q a = true → p a = true) : (l.filter p).find? q = l.find? q := by
  induction l with
  | nil => rfl
  | cons a l ih =>
    by_cases hp : p a = true
    · rw [List.filter_cons_of_pos hp, List.find?_cons, List.find?_cons, ih]
    · have hq : q a = false := by
        cases hq : q a with
        | false => rfl
        | true => exact absurd (h a hq) hp
      rw [List.filter_cons_of_neg hp, List.find?_cons, hq, ih]

theorem get_set (d : Disk) (p q : List Name) (n : Node) :
    (d.set p n).get q = if q = p then some n else d.get q := by
  rw [get, set]
  by_cases h : q = p
  · simp [h]
  · have hpq : ¬ p = q := fun he => h he.symm
    simp only [List.find?_cons, hpq, decide_false, if_neg h]
    rw [find?_filter_of_imp]
    · rfl
    · intro e he
      have he' : e.1 = q := by simpa using he
      simpa [he'] using h

theorem get_erase (d : Disk) (p q : List Name) :
    (d.erase p).get q = if p <+: q then none else d.get q := by
  rw [get, erase]
  by_cases h : p <+: q
  · rw [if_pos h, Option.map_eq_none_iff, List.find?_eq_none]
    intro e he heq
    have heq' : e.1 = q := by simpa using heq
    simp [heq', h] at he
  · rw [if_neg h, find?_filter_of_imp]
    · rfl
    · intro e he
      have he' : e.1 = q := by simpa using he
      simpa [he'] using h

end Disk

/-- A directory that has been changed at this time. -/
def Node.touched (t : Time) : Node → Node
  | .dir perms _ size => .dir perms t size
  | n => n

/-- `chmod` -/
def Node.chmod (perms : Fin 512) : Node → Node
  | .file _ t content => .file perms t content
  | .dir _ t size => .dir perms t size
  | n => n

theorem Disk.get_touch (d : Disk) (p q : List Name) (t : Time) :
    (d.touch p t).get q = if q = p then (d.get q).map (Node.touched t) else d.get q := by
  rw [Disk.touch]
  split
  · rename_i perms t' size hp
    rw [Disk.get_set]
    split_ifs with hq
    · rw [hq, hp]
      rfl
    · rfl
  · rename_i hp
    split_ifs with hq
    · rw [hq]
      cases hn : d.get p with
      | none => rfl
      | some n =>
        cases n with
        | dir perms t' size => exact absurd hn (hp perms t' size)
        | _ => rfl
    · rfl

/-! ### Looking a path up -/

/-- Why a call fails. -/
inductive Errno
  | noent
  | notdir
  | loop
  | exist
  | isdir
  | notempty
  /-- The system denies the call for reasons that are not in the tree. -/
  | denied
deriving DecidableEq

/-- Where a path leads: to a node, or to a directory that has no entry of the last name. -/
inductive Place
  | at (p : List Name)
  | absent (dir : List Name) (n : Name)
deriving DecidableEq

/-- A component of a path string as a name. -/
def Name.ofBytes (c : Bytes) : Option Name :=
  if h : c ≠ [] ∧ slash ∉ c then some ⟨c, h.1, h.2⟩ else none

@[simp] theorem Name.ofBytes_bytes (n : Name) : Name.ofBytes n.bytes = some n := by
  rw [Name.ofBytes, dif_pos ⟨n.ne_nil, n.slash_notMem⟩]

namespace Disk

/-- The lookup of the components of a path, from a directory. A symlink is followed by
`jump`, with the components of its target in front of those that are left. -/
def walk (d : Disk) (follow : Bool) (jump : List Name → List Bytes → Except Errno Place) :
    List Name → List Bytes → Except Errno Place
  | cur, [] => .ok (.at cur)
  | cur, c :: rest =>
    if c = [] ∨ c = [dot] then d.walk follow jump cur rest
    else if c = [dot, dot] then d.walk follow jump cur.dropLast rest
    else
      match Name.ofBytes c with
      | none => .error .noent
      | some n =>
        match d.get (cur ++ [n]) with
        | none => if rest = [] then .ok (.absent cur n) else .error .noent
        | some (.dir ..) => d.walk follow jump (cur ++ [n]) rest
        | some (.file ..) => if rest = [] then .ok (.at (cur ++ [n])) else .error .notdir
        | some (.symlink _ target) =>
          if rest = [] ∧ follow = false then .ok (.at (cur ++ [n]))
          else if target = [] then .error .noent
          else jump (if target.head? = some slash then [] else cur) (target.splitOn slash ++ rest)

/-- The lookup that follows this many symlinks. -/
def resolve (d : Disk) (follow : Bool) : ℕ → List Name → List Bytes → Except Errno Place
  | 0 => d.walk follow fun _ _ => .error .loop
  | links + 1 => d.walk follow (d.resolve follow links)

/-- **The lookup of an absolute path.** -/
def lookup (d : Disk) (follow : Bool) (p : Bytes) : Except Errno Place :=
  d.resolve follow 40 [] (p.splitOn slash)

end Disk

/-- The string of a physical path. -/
def absPath (p : List Name) : Bytes := slash :: pathStr p

/-! ### The operations -/

/-- What the operating system adds to the calls: the time of each, whether it denies it,
and the permissions of new directories and of the files in the cache. -/
structure OS where
  clock : ℕ → Time
  denies : ℕ → Bool
  dirPerms : Fin 512
  filePerms : Fin 512

/-- **The calls that change the file system.** -/
inductive FileOp
  | removeAll (p : Bytes)
  | remove (p : Bytes)
  | createSymlink (target p : Bytes)
  | createDirectory (p : Bytes)
  | permissions (p : Bytes) (perms : Fin 512)
  | copyFile (source p : Bytes)
deriving DecidableEq

/-- The path that a call is given to change. -/
def FileOp.path : FileOp → Bytes
  | removeAll p | remove p | createSymlink _ p | createDirectory p | permissions p _
  | copyFile _ p => p

/-- There is a new entry in a directory. -/
def Disk.create (d : Disk) (dir : List Name) (n : Name) (t : Time) (node : Node) : Disk :=
  (d.set (dir ++ [n]) node).touch dir t

/-- An entry is gone, with all that is below it. -/
def Disk.delete (d : Disk) (p : List Name) (t : Time) : Disk := (d.erase p).touch p.dropLast t

/-- **What a call does** at time `t`, with the objects of the cache `st`. -/
def FileOp.effect (os : OS) (st : Store) (t : Time) (d : Disk) : FileOp → Except Errno Disk
  | removeAll p =>
    match d.lookup false p with
    | .ok (.at q) => .ok (d.delete q t)
    -- nothing is there, or what should be its directory is none
    | .ok (.absent ..) | .error .noent | .error .notdir => .ok d
    | .error e => .error e
  | remove p =>
    match d.lookup false p with
    | .ok (.at q) => if d.readdir q = [] then .ok (d.delete q t) else .error .notempty
    | .ok (.absent ..) | .error .noent => .ok d
    | .error e => .error e
  | createSymlink target p =>
    match d.lookup false p with
    | .ok (.at _) => .error .exist
    | .ok (.absent dir n) =>
      if target = [] then .error .noent else .ok (d.create dir n t (.symlink t target))
    | .error e => .error e
  | createDirectory p =>
    match d.lookup false p with
    -- that there is a directory is no error
    | .ok (.at _) =>
      match d.lookup true p with
      | .ok (.at q) => if d.IsDir q then .ok d else .error .exist
      | _ => .error .exist
    | .ok (.absent dir n) => .ok (d.create dir n t (.dir os.dirPerms t 0))
    | .error e => .error e
  | permissions p perms =>
    match d.lookup true p with
    | .ok (.at q) =>
      match d.get q with
      | some node => .ok (d.set q (node.chmod perms))
      | none => .error .noent
    | .ok (.absent ..) => .error .noent
    | .error e => .error e
  | copyFile source p =>
    match st source, d.lookup true p with
    | none, _ => .error .noent
    | some content, .ok (.at q) =>
      match d.get q with
      | some (.file perms ..) => .ok (d.set q (.file perms t content))
      | _ => .error .isdir
    | some content, .ok (.absent dir n) => .ok (d.create dir n t (.file os.filePerms t content))
    | some _, .error e => .error e

end Fstree
