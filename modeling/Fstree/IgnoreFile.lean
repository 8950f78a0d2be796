import Fstree.FreshCheckout
import Fstree.GlobList
import Fstree.Simple

/-!
# The ignore file

`glob_list::load` reads a file line by line, adds each line that is no comment, and compiles what
it has in the end (`Fstree.loadGlobs`). `std::regex` is a parameter: what a text compiles to, if
it does.

Two commands load the ignore file. `write-tree` reads it in the workspace, and goes on without
ignoring anything if it cannot (`Fstree.readIgnore`): the regular expression of a list that was
not compiled matches nothing. `checkout` reads it in the cache, if it is a file of the index, and
fails if it cannot (`Fstree.loadIgnoreFromIndex`).
-/

namespace Fstree

open Codec SortedBy

/-- `.fstreeignore` -/
def ignoreName : Name :=
  ⟨ascii ['.', 'f', 's', 't', 'r', 'e', 'e', 'i', 'g', 'n', 'o', 'r', 'e'], by decide, by decide⟩

/-- **`std::regex`**: the constructor, which may throw, and `std::regex_match`. -/
abbrev RegexEngine := Bytes → Option (Bytes → Bool)

/-- The lines that `std::getline` gives: what is after the last line feed is a line if it is
not empty. -/
def getLines (bs : Bytes) : List Bytes :=
  let lines := bs.splitOn 10
  if lines.getLast? = some [] then lines.dropLast else lines

/-- A line is added, unless it is empty or begins with a `#`. -/
def addLine (patterns : List Bytes) (line : Bytes) : Except String (List Bytes) :=
  if line = [] ∨ line.head? = some 35 then .ok patterns else addPattern patterns line

/-- The loop of `glob_list::load`. -/
def loadPatterns (bs : Bytes) : Except String (List Bytes) := (getLines bs).foldlM addLine []

/-- `std::regex`, which throws. -/
def makeRegex (regex : RegexEngine) (text : Bytes) : Except String (Bytes → Bool) :=
  match regex text with
  | some r => .ok r
  | none => .error "regex_error"

/-- **`glob_list::load`**, and `glob_list::match` of what is loaded. -/
def loadGlobs (regex : RegexEngine) (bs : Bytes) : Except String (Bytes → Bool) := do
  let patterns ← loadPatterns bs
  let inclusive ← makeRegex regex (compileText patterns)
  let exclusive ← makeRegex regex (compileText [])
  return fun path => if exclusive path then false else inclusive path

/-- **The ignore list of `write-tree`**: without the file, or after an exception, it matches
nothing. -/
def readIgnore (regex : RegexEngine) (d : Disk) (root : List Name) : Bytes → Bool :=
  match d.readFile (absPath (root ++ [ignoreName])) with
  | none => fun _ => false
  | some bs =>
    match loadGlobs regex bs with
    | .ok ignores => ignores
    | .error _ => fun _ => false

/-- **`index::load_ignore_from_index`**: the ignore list of a checkout, or the exception. -/
def loadIgnoreFromIndex (regex : RegexEngine) (st : Store) (index : List Inode) :
    Except String (Bytes → Bool) :=
  match findNodeByPath index ignoreName.bytes with
  | none => .ok fun _ => false
  | some i =>
    if i.isFile then
      match st (filePath i.hash) with
      | none => .error ("failed to open " ++ text (filePath i.hash) ++ " for reading")
      | some bs => loadGlobs regex bs
    else .ok fun _ => false

section Load

variable {regex : RegexEngine} {st : Store} {index : List Inode} {i : Inode} {bs : Bytes}
  {ignores : Bytes → Bool}

/-- The ignore file of the index is loaded from the cache. -/
theorem loadIgnoreFromIndex_of_mem (hsorted : StrictBy Inode.path index) (hi : i ∈ index)
    (hp : i.path = pathStr [ignoreName]) (hf : i.isFile = true)
    (hst : st (filePath i.hash) = some bs) :
    loadIgnoreFromIndex regex st index = loadGlobs regex bs := by
  have hname : pathStr [ignoreName] = ignoreName.bytes := pathStr_singleton _
  obtain ⟨j, hj, hjp⟩ :=
    (looksUp_of_strictBy hsorted ignoreName.bytes).mpr ⟨i, hi, by rw [hp, hname]⟩
  obtain ⟨hat, -⟩ := Option.filter_eq_some_iff.mp hj
  obtain rfl := eq_of_key_eq hsorted.nodup_keys (List.mem_of_getElem? hat) hi
    (hjp.trans (hname.symm.trans hp.symm))
  simp only [loadIgnoreFromIndex, hj, hf, if_true, hst]

/-- An index without an ignore file has none. -/
theorem loadIgnoreFromIndex_of_not_mem (hclean : ∀ i ∈ index, ∃ ns, ns ≠ [] ∧ i.path = pathStr ns)
    (hno : ∀ i ∈ index, i.path ≠ pathStr [ignoreName]) :
    loadIgnoreFromIndex regex st index = .ok fun _ => false := by
  have hnone : findNodeByPath index ignoreName.bytes = none := by
    refine Option.eq_none_iff_forall_not_mem.mpr fun i hi => ?_
    obtain ⟨hat, hsame⟩ := Option.filter_eq_some_iff.mp hi
    have hmem := List.mem_of_getElem? hat
    obtain ⟨ns, hns, hp⟩ := hclean i hmem
    rw [hp, ← pathStr_singleton ignoreName, samePath_pathStr hns (by simp)] at hsame
    exact hno i hmem (by rw [hp, hsame])
  simp only [loadIgnoreFromIndex, hnone]

variable {d : Disk} {root : List Name}

theorem readIgnore_of_file (hs : Straight d root ignoreName) {perms : Fin 512} {t : Time}
    (hget : d.get (root ++ [ignoreName]) = some (.file perms t bs))
    (hload : loadGlobs regex bs = .ok ignores) : readIgnore regex d root = ignores := by
  simp only [readIgnore, hs.readFile hget, hload]

theorem readIgnore_of_none (hs : Straight d root ignoreName)
    (hget : d.get (root ++ [ignoreName]) = none) :
    readIgnore regex d root = fun _ => false := by
  simp only [readIgnore, hs.readFile_none hget]

end Load

end Fstree
