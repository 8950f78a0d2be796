import Fstree.ArgParser
import Fstree.Checkout
import Fstree.GlobList
import Fstree.ParseSize

/-!
# The command line, and the process that evicts

`main` builds a table of options, in which the environment gives some of them values, and parses its
arguments. `cmd_fstree` reads the settings from it, one after the other, before it looks at the
command: the remote, the directory of the cache, the two file names, the number of threads and the
limits of the cache.

After a command that has added to the cache, `spawn_evict_process` runs the program once more, with
the command `evict`. It passes on the directory and the limits as strings, and nothing else: the
other settings are what the environment says. So that process evicts the same cache, with the same
limits (`Fstree.evict_process`); but only if it gets so far, since it reads all settings, and
rejects a remote that is wrong in the environment even if the first process was given another one.
-/

namespace Fstree

open Codec ArgParser

/-! ### Numbers -/

/-- `std::to_string`, of a number that is not negative. -/
def decimalString (n : ℕ) : Bytes :=
  if n < 10 then [Fin.ofNat 256 (48 + n)]
  else decimalString (n / 10) ++ [Fin.ofNat 256 (48 + n % 10)]
termination_by n

/-- `std::to_string`. -/
def toDecimal (n : ℤ) : Bytes :=
  if n < 0 then minus :: decimalString n.natAbs else decimalString n.natAbs

/-- The character `+`. -/
def plus : Byte := 43

/-- `std::stoi`, where `int` has 32 bits. -/
def stoi (s : Bytes) : Except SizeError ℤ :=
  let s := s.dropWhile isSpace
  let ds := (if s.head? = some minus ∨ s.head? = some plus then s.tail else s).takeWhile isDigit
  let n : ℤ := if s.head? = some minus then -decimal ds else decimal ds
  if ds = [] then .error (.invalidArgument "stoi")
  else if n < -2 ^ 31 ∨ 2 ^ 31 ≤ n then .error (.outOfRange "stoi")
  else .ok n

section Numbers

variable {n : ℕ}

theorem decimal_concat (ds : Bytes) (c : Byte) :
    decimal (ds ++ [c]) = 10 * decimal ds + (c.val - 48) := by
  rw [decimal, decimal, List.foldl_append]
  rfl

theorem digit_val (hn : n < 10) : (Fin.ofNat 256 (48 + n) : Byte).val = 48 + n :=
  Nat.mod_eq_of_lt (by omega)

/-- A number is the one its digits stand for. -/
theorem decimal_decimalString (n : ℕ) : decimal (decimalString n) = n := by
  induction n using Nat.strong_induction_on with
  | _ n ih =>
    rw [decimalString]
    split_ifs with h
    · rw [decimal, List.foldl_cons, List.foldl_nil, digit_val h]
      omega
    · rw [decimal_concat, ih (n / 10) (by omega), digit_val (Nat.mod_lt n (by omega))]
      omega

theorem isDigit_digit (hn : n < 10) : isDigit (Fin.ofNat 256 (48 + n)) = true := by
  rw [isDigit, decide_eq_true_iff, Fin.le_def, Fin.le_def, digit_val hn]
  exact ⟨Nat.le_add_right 48 n, by change 48 + n ≤ 57; omega⟩

theorem decimalString_digits (n : ℕ) : ∀ c ∈ decimalString n, isDigit c = true := by
  induction n using Nat.strong_induction_on with
  | _ n ih =>
    rw [decimalString]
    split_ifs with h
    · intro c hc
      rw [List.mem_singleton.mp hc]
      exact isDigit_digit h
    · intro c hc
      rcases List.mem_append.mp hc with hc | hc
      · exact ih (n / 10) (by omega) c hc
      · rw [List.mem_singleton.mp hc]
        exact isDigit_digit (Nat.mod_lt n (by omega))

theorem decimalString_ne_nil (n : ℕ) : decimalString n ≠ [] := by
  rw [decimalString]
  split_ifs
  · exact List.cons_ne_nil _ _
  · exact List.append_ne_nil_of_right_ne_nil _ (List.cons_ne_nil _ _)

theorem isSpace_of_isDigit {c : Byte} (h : isDigit c = true) : isSpace c = false := by
  simp only [isDigit, decide_eq_true_eq] at h
  simp only [isSpace, decide_eq_false_iff_not]
  rintro (rfl | ⟨-, hc⟩)
  · exact absurd h.1 (by decide)
  · exact absurd (h.1.trans hc) (by decide)

/-- **A size is read back as it was printed.** -/
theorem parseSize_decimalString (v : BitVec 64) :
    parseSize (decimalString v.toNat) = some (.ok v) := by
  have hdigits := decimalString_digits v.toNat
  have hsize : IsSize (decimalString v.toNat) v.toNat 1 := by
    refine ⟨decimalString v.toNat, [], ?_, decimalString_ne_nil _, hdigits,
      decimal_decimalString _, List.mem_cons_self⟩
    rw [List.append_nil, withoutSpace, List.filter_eq_self]
    intro c hc
    rw [isSpace_of_isDigit (hdigits c hc)]
    rfl
  rw [parseSize_of_isSize hsize, if_neg (by omega), Nat.mul_one, BitVec.ofNat_toNat,
    BitVec.setWidth_eq]

/-- **A number of seconds is read back as it was printed.** -/
theorem stoi_toDecimal {n : ℤ} (hlow : -2 ^ 31 ≤ n) (hhigh : n < 2 ^ 31) :
    stoi (toDecimal n) = .ok n := by
  have hdigits := decimalString_digits n.natAbs
  have hne := decimalString_ne_nil n.natAbs
  have htake : (decimalString n.natAbs).takeWhile isDigit = decimalString n.natAbs :=
    List.takeWhile_eq_self_iff.mpr hdigits
  have hrange : ¬ (n < -2 ^ 31 ∨ 2 ^ 31 ≤ n) := by omega
  by_cases hneg : n < 0
  · have hspace : (toDecimal n).dropWhile isSpace = toDecimal n := by
      rw [toDecimal, if_pos hneg]
      rfl
    have hvalue : -((n.natAbs : ℕ) : ℤ) = n := by omega
    simp only [stoi, hspace]
    rw [toDecimal, if_pos hneg]
    simp only [List.head?_cons, List.tail_cons, true_or, if_true, htake, if_neg hne,
      decimal_decimalString, hvalue, if_neg hrange]
  · obtain ⟨c, cs, hc⟩ := List.exists_cons_of_ne_nil hne
    have hdigit : isDigit c = true := hdigits c (hc ▸ List.mem_cons_self)
    have hspace : (toDecimal n).dropWhile isSpace = toDecimal n := by
      rw [toDecimal, if_neg hneg, hc, List.dropWhile_cons_of_neg]
      rw [isSpace_of_isDigit hdigit]
      exact Bool.false_ne_true
    have hvalue : ((n.natAbs : ℕ) : ℤ) = n := by omega
    have hhead : ∀ x : Byte, isDigit x = false → (decimalString n.natAbs).head? ≠ some x := by
      intro x hx h
      rw [hc, List.head?_cons] at h
      rw [Option.some.inj h, hx] at hdigit
      cases hdigit
    have hminus := hhead minus (by decide)
    have hplus := hhead plus (by decide)
    simp only [stoi, hspace]
    rw [toDecimal, if_neg hneg]
    simp only [hminus, hplus, or_self, if_false, htake, if_neg hne, decimal_decimalString, hvalue,
      if_neg hrange]

theorem stoi_range {s : Bytes} {n : ℤ} (h : stoi s = .ok n) : -2 ^ 31 ≤ n ∧ n < 2 ^ 31 := by
  simp only [stoi] at h
  split_ifs at h with hnil hrange
  all_goals
    obtain rfl := Except.ok.inj h
    omega

end Numbers

/-! ### Paths -/

/-- The name of the parent directory. -/
def dotDot : Bytes := [dot, dot]

/-- `path::lexically_normal` on the components of a relative path. -/
def relativeNormal (cs : List Bytes) : List Bytes :=
  cs.foldl (fun done c =>
    if c = [dot] then done
    else if c = dotDot ∧ done.getLast?.any (· ≠ dotDot) then done.dropLast
    else done ++ [c]) []

/-- The path names a directory: it ends with a separator, or with one of the two dot names. -/
def EndsInDirectory (p : Bytes) : Prop :=
  (p.splitOn slash).getLast? ∈ [some [], some [dot], some dotDot]

instance (p : Bytes) : Decidable (EndsInDirectory p) :=
  inferInstanceAs (Decidable (_ ∈ [_, _, _]))

/-- **`path::lexically_normal`.** -/
def normalPath (p : Bytes) : Bytes :=
  if p = [] then []
  else if p.head? = some slash then
    let kept := lexicallyNormal (components p)
    strPath (if EndsInDirectory p ∧ kept ≠ [] then kept ++ [[]] else kept)
  else
    let kept := relativeNormal (components p)
    if kept = [] then [dot]
    else [slash].intercalate
      (if EndsInDirectory p ∧ kept.getLast? ≠ some dotDot then kept ++ [[]] else kept)

/-- `std::filesystem::absolute`. -/
def absolutePath (cwd p : Bytes) : Except String Bytes :=
  if p = [] then .error "filesystem error: cannot make absolute path: Invalid argument"
  else if p.head? = some slash then .ok p else .ok (joinPath cwd p)

section Paths

variable {p c : Bytes} {cs : List Bytes}

/-- **A component of a normal absolute path.** -/
structure Component (c : Bytes) : Prop where
  ne_nil : c ≠ []
  slash_notMem : slash ∉ c
  ne_dot : c ≠ [dot]
  ne_dotDot : c ≠ [dot, dot]

theorem component_of_mem (hcs : ∀ c ∈ cs, c ≠ [] ∧ slash ∉ c) (hc : c ∈ lexicallyNormal cs) :
    Component c := by
  rw [lexicallyNormal] at hc
  induction cs using List.reverseRecOn with
  | nil => cases hc
  | append_singleton cs x ih =>
    have ih := ih fun c hc => hcs c (List.mem_append_left _ hc)
    rw [List.foldl_append, List.foldl_cons, List.foldl_nil] at hc
    split_ifs at hc with hdot hdots
    · exact ih hc
    · exact ih ((List.dropLast_sublist _).subset hc)
    · rcases List.mem_append.mp hc with hc | hc
      · exact ih hc
      · obtain rfl := List.mem_singleton.mp hc
        obtain ⟨hne, hslash⟩ := hcs c (by simp)
        exact ⟨hne, hslash, hdot, hdots⟩

theorem lexicallyNormal_eq_self (hcs : ∀ c ∈ cs, Component c) : lexicallyNormal cs = cs := by
  rw [lexicallyNormal]
  induction cs using List.reverseRecOn with
  | nil => rfl
  | append_singleton cs x ih =>
    have hx := hcs x (by simp)
    rw [List.foldl_append, List.foldl_cons, List.foldl_nil,
      ih fun c hc => hcs c (List.mem_append_left _ hc), if_neg hx.ne_dot, if_neg hx.ne_dotDot]

theorem splitOn_strPath (hne : cs ≠ []) (hcs : ∀ c ∈ cs, slash ∉ c) :
    (strPath cs).splitOn slash = [] :: cs := by
  have heq : strPath cs = [slash].intercalate ([] :: cs) := by
    obtain ⟨x, xs, rfl⟩ := List.exists_cons_of_ne_nil hne
    rw [strPath, List.intercalate_cons_cons]
    rfl
  rw [heq, List.splitOn_intercalate _ _ (List.cons_ne_nil _ _)]
  intro c hc
  rcases List.mem_cons.mp hc with rfl | hc
  · exact List.not_mem_nil
  · exact hcs c hc

/-- A normal absolute path is what it is made of, with a separator at the end or without. -/
theorem normalPath_strPath (hcs : ∀ c ∈ cs, Component c) (dir : Prop) [Decidable dir] :
    normalPath (strPath (if dir ∧ cs ≠ [] then cs ++ [[]] else cs)) =
      strPath (if dir ∧ cs ≠ [] then cs ++ [[]] else cs) := by
  have hroot : ∀ cs, strPath cs ≠ [] ∧ (strPath cs).head? = some slash := fun cs =>
    ⟨List.cons_ne_nil _ _, rfl⟩
  have hfilter : cs.filter (· ≠ []) = cs :=
    List.filter_eq_self.mpr fun c hc => decide_eq_true (hcs c hc).ne_nil
  split_ifs with hdir
  · obtain ⟨-, hne⟩ := hdir
    have hsplit : (strPath (cs ++ [[]])).splitOn slash = [] :: (cs ++ [[]]) := by
      refine splitOn_strPath (by simp) fun c hc => ?_
      rcases List.mem_append.mp hc with hc | hc
      · exact (hcs c hc).slash_notMem
      · rw [List.mem_singleton.mp hc]
        exact List.not_mem_nil
    have hcomponents : components (strPath (cs ++ [[]])) = cs := by
      rw [components, hsplit]
      simpa using hfilter
    have hends : EndsInDirectory (strPath (cs ++ [[]])) := by
      rw [EndsInDirectory, hsplit, ← List.cons_append, List.getLast?_concat]
      exact List.mem_cons_self
    rw [normalPath, if_neg (hroot _).1, if_pos (hroot _).2, hcomponents,
      lexicallyNormal_eq_self hcs]
    simp only [hends, hne, ne_eq, not_false_eq_true, and_self, if_true]
  · rcases eq_or_ne cs [] with rfl | hne
    · rfl
    · have hsplit := splitOn_strPath hne fun c hc => (hcs c hc).slash_notMem
      have hcomponents : components (strPath cs) = cs := by
        rw [components, hsplit]
        simpa using hfilter
      have hends : ¬ EndsInDirectory (strPath cs) := by
        have hlast := hcs _ (List.getLast_mem hne)
        rw [EndsInDirectory, hsplit, List.getLast?_cons, List.getLast?_eq_some_getLast hne]
        simpa [dotDot] using ⟨hlast.ne_nil, hlast.ne_dot, hlast.ne_dotDot⟩
      rw [normalPath, if_neg (hroot _).1, if_pos (hroot _).2, hcomponents,
        lexicallyNormal_eq_self hcs]
      simp only [hends, false_and, if_false]

/-- **A normal absolute path is normal.** -/
theorem normalPath_normalPath (hp : p.head? = some slash) :
    normalPath (normalPath p) = normalPath p ∧ (normalPath p).head? = some slash := by
  have hne : p ≠ [] := by
    rintro rfl
    cases hp
  have heq : normalPath p = strPath (if EndsInDirectory p ∧ lexicallyNormal (components p) ≠ []
      then lexicallyNormal (components p) ++ [[]] else lexicallyNormal (components p)) := by
    rw [normalPath, if_neg hne, if_pos hp]
  rw [heq]
  refine ⟨normalPath_strPath (fun c hc => component_of_mem (fun c hc => ?_) hc) _, rfl⟩
  have hmem := List.mem_filter.mp hc
  exact ⟨of_decide_eq_true hmem.2, notMem_of_mem_splitOn hmem.1⟩

end Paths

/-! ### The settings -/

/-- **What a process finds.** -/
structure Environment where
  getenv : Bytes → Option Bytes
  /-- `std::filesystem::current_path`. -/
  cwd : Bytes
  cwd_rooted : cwd.head? = some slash
  /-- `std::thread::hardware_concurrency`. -/
  hardware : ℕ

/-- `fstree::cache_path`, which `cache::default_path` returns. -/
def Environment.cachePath (env : Environment) : Bytes :=
  match env.getenv (ascii ['H', 'O', 'M', 'E']) with
  | none | some [] => []
  | some home => joinPath home
      (ascii ['.', 'c', 'a', 'c', 'h', 'e', '/', 'f', 's', 't', 'r', 'e', 'e'])

/-- The place of the first `://`. -/
def schemeEnd (u : Bytes) : Option ℕ :=
  (List.range u.length).find? fun i => (ascii [':', '/', '/']).isPrefixOf (u.drop i)

/-- `url::host`. -/
def urlHost (u : Bytes) : Bytes :=
  match schemeEnd u with
  | none => u.takeWhile (· ≠ slash)
  | some i => (u.drop (i + 3)).takeWhile (· ≠ slash)

/-- A long name. -/
def longName (cs : List Char) : Bytes := ascii ('-' :: '-' :: cs)

/-- `--cache` -/
def cacheName : Bytes := longName ['c', 'a', 'c', 'h', 'e']

/-- `--cache-size` -/
def cacheSizeName : Bytes := longName ['c', 'a', 'c', 'h', 'e', '-', 's', 'i', 'z', 'e']

/-- `--cache-retention` -/
def cacheRetentionName : Bytes :=
  longName ['c', 'a', 'c', 'h', 'e', '-', 'r', 'e', 't', 'e', 'n', 't', 'i', 'o', 'n']

/-- `--json` -/
def jsonName : Bytes := longName ['j', 's', 'o', 'n']

/-- `--ignore` -/
def ignoreOptionName : Bytes := longName ['i', 'g', 'n', 'o', 'r', 'e']

/-- `--index` -/
def indexOptionName : Bytes := longName ['i', 'n', 'd', 'e', 'x']

/-- `--remote` -/
def remoteName : Bytes := longName ['r', 'e', 'm', 'o', 't', 'e']

/-- `--threads` -/
def threadsName : Bytes := longName ['t', 'h', 'r', 'e', 'a', 'd', 's']

/-- `--help` -/
def helpName : Bytes := longName ['h', 'e', 'l', 'p']

/-- `--version` -/
def versionName : Bytes := longName ['v', 'e', 'r', 's', 'i', 'o', 'n']

/-- The table of options that `main` builds. -/
def mainTable (env : Environment) : Except String ArgParser := do
  let a := ArgParser.new.setEnvPrefix (ascii ['F', 'S', 'T', 'R', 'E', 'E'])
  let a ← a.addOption env.getenv cacheName env.cachePath
  let a ← a.addOptionAlias cacheName (ascii ['-', 'c'])
  let a ← a.addOption env.getenv cacheSizeName (ascii ['1', '0', 'G', 'i', 'B'])
  let a ← a.addOptionAlias cacheSizeName (ascii ['-', 'c', 's'])
  let a ← a.addOption env.getenv cacheRetentionName (decimalString 3600)
  let a ← a.addOptionAlias cacheRetentionName (ascii ['-', 'c', 'r'])
  let a := a.addBoolOption jsonName
  let a ← a.addOptionAlias jsonName (ascii ['-', 'J'])
  let a ← a.addOption env.getenv ignoreOptionName
    (ascii ['.', 'f', 's', 't', 'r', 'e', 'e', 'i', 'g', 'n', 'o', 'r', 'e'])
  let a ← a.addOptionAlias ignoreOptionName (ascii ['-', 'i'])
  let a ← a.addOption env.getenv indexOptionName
    (ascii ['.', 'f', 's', 't', 'r', 'e', 'e', '/', 'i', 'n', 'd', 'e', 'x'])
  let a ← a.addOptionAlias indexOptionName (ascii ['-', 'x'])
  let a ← a.addOption env.getenv remoteName
    (ascii ['j', 'o', 'l', 't', ':', '/', '/', 'l', 'o', 'c', 'a', 'l', 'h', 'o', 's', 't', ':',
      '9', '0', '9', '0'])
  let a ← a.addOptionAlias remoteName (ascii ['-', 'r'])
  let a ← a.addOption env.getenv threadsName (decimalString env.hardware)
  let a ← a.addOptionAlias threadsName (ascii ['-', 'j'])
  let a := a.addBoolOption helpName
  let a ← a.addOptionAlias helpName (ascii ['-', 'h'])
  let a := a.addBoolOption versionName
  a.addOptionAlias versionName (ascii ['-', 'V'])

/-- **`argparser::get_option_path`**. -/
def ArgParser.getOptionPath (cwd name : Bytes) (absolute : Bool) (a : ArgParser) :
    Except String Bytes := do
  let p ← a.getOption name
  if absolute then return normalPath (← absolutePath cwd p)
  return normalPath p

/-- `fstree::set_hardware_concurrency`, of a number that is converted to 32 bits. -/
def setHardwareConcurrency (hardware : ℕ) (threads : ℤ) : Except String ℕ :=
  let threads := (threads % 2 ^ 32).toNat
  if threads < 1 ∨ hardware < threads then
    .error ("invalid thread count: " ++ text (decimalString threads))
  else .ok threads

section Readers

variable (env : Environment) (a : ArgParser)

def readRemote : Except String Bytes := do
  let r ← a.getOption remoteName
  if urlHost r = [] then throw ("invalid remote URL: " ++ text r)
  return r

def readCache : Except String Bytes := do
  let p ← a.getOptionPath env.cwd cacheName true
  if p = [] then throw "unknown cache directory"
  return p

def readIgnoreName : Except String Bytes := do
  let p ← a.getOptionPath env.cwd ignoreOptionName false
  if p = [] then throw "unknown ignore directory"
  return p

def readIndexName : Except String Bytes := do
  let p ← a.getOptionPath env.cwd indexOptionName false
  if p = [] then throw "unknown index path"
  return p

def readThreads : Except String ℕ := do
  let t ← a.getOption threadsName
  if t = [] then throw "unknown thread count"
  match stoi t with
  | .error _ => throw ("invalid thread count: " ++ text t)
  | .ok n =>
    match setHardwareConcurrency env.hardware n with
    | .error _ => throw ("invalid thread count: " ++ text t)
    | .ok threads => return threads

/-- There is no result where that of `parse_size` is undefined. -/
def readCacheSize : Option (Except String (BitVec 64)) :=
  match a.getOption cacheSizeName with
  | .error e => some (.error e)
  | .ok size => (parseSize size).map fun r =>
    match r with
    | .error _ => .error ("invalid cache size: " ++ text size)
    | .ok v => .ok v

def readRetention : Except String ℤ := do
  let r ← a.getOption cacheRetentionName
  match stoi r with
  | .error _ => throw ("invalid cache retention period: " ++ text r)
  | .ok n => return n

end Readers

/-- **The settings of a process.** -/
structure Settings where
  remoteurl : Bytes
  cachedir : Bytes
  ignorefile : Bytes
  indexfile : Bytes
  threads : ℕ
  cachesize : BitVec 64
  retentionPeriod : ℤ

/-- What `cmd_fstree` reads before it looks at the command. -/
def settings (env : Environment) (a : ArgParser) : Option (Except String Settings) :=
  let first : Except String (BitVec 64 → ℤ → Settings) := do
    let remoteurl ← readRemote a
    let cachedir ← readCache env a
    let ignorefile ← readIgnoreName env a
    let indexfile ← readIndexName env a
    let threads ← readThreads env a
    return Settings.mk remoteurl cachedir ignorefile indexfile threads
  match first with
  | .error e => some (.error e)
  | .ok limited => (readCacheSize a).map fun size => do
    return limited (← size) (← readRetention a)

/-- **What becomes of a process** before it executes its command. -/
inductive MainResult
  | usage
  | version
  /-- The text of the exception. -/
  | failed (what : String)
  | undefined
  /-- `cmd_fstree` executes a command, the first of the values. -/
  | run (events : Bool) (s : Settings) (values : List Bytes)

/-- The front of `cmd_fstree`. -/
def cmdFstree (env : Environment) (events : Bool) (a : ArgParser) : MainResult :=
  match settings env a with
  | none => .undefined
  | some (.error e) => .failed e
  | some (.ok s) => if a.values = [] then .failed "missing command argument" else
    .run events s a.values

/-- The parsed command line of `main`, and what comes of it. -/
def mainResult (env : Environment) (command : Bytes) (args : List Bytes) :
    Except String MainResult := do
  let t ← mainTable env
  let a ← t.parse command args
  if ← a.hasOption helpName then return .usage
  if ← a.hasOption versionName then return .version
  let events ← a.hasOption jsonName
  return cmdFstree env events a

/-- **`main`**, with the name of the program as the first argument. -/
def main (env : Environment) : List Bytes → MainResult
  | [] => .usage
  | command :: args =>
    if args = [] then .usage
    else match mainResult env command args with
      | .error e => .failed e
      | .ok r => r

/-- The arguments of the process of **`spawn_evict_process`**. -/
def spawnEvictProcess (cmd cachedir : Bytes) (cachesize : BitVec 64) (retentionPeriod : ℤ) :
    List Bytes :=
  [cmd, ascii ['e', 'v', 'i', 'c', 't'], cacheName, cachedir, cacheSizeName,
    decimalString cachesize.toNat, cacheRetentionName, toDecimal retentionPeriod]

/-! ### What is read -/

section Read

variable {env : Environment} {a b t : ArgParser} {s : Settings} {st : List (ℕ × Bytes)}
  {args vs : List Bytes} {command name v : Bytes} {p : ℕ} {events : Bool}

theorem addOption_eq {getenv : Bytes → Option Bytes} {dflt : Bytes} (henv : a.envPrefix ≠ [])
    (hname : 2 ≤ name.length) : a.addOption getenv name dflt =
      .ok (a.insertNew name ⟨(getenv (envName a.envPrefix name)).getD [], dflt, true⟩) := by
  rw [addOption, if_neg henv, if_neg (by omega)]
  cases getenv (envName a.envPrefix name) with
  | none => rfl
  | some value => simp [insertNew, setValue, Function.update_idem]

/-- What is known of the table of `main`. -/
structure IsMainTable (t : ArgParser) : Prop where
  cache : t.options cacheName = some 0 ∧ (t.record 0).hasValue = true
  cacheSize : t.options cacheSizeName = some 1 ∧ (t.record 1).hasValue = true
  cacheRetention : t.options cacheRetentionName = some 2 ∧ (t.record 2).hasValue = true
  json : t.options jsonName = some 3 ∧ (t.record 3).value = []
  ignore : t.options ignoreOptionName = some 4 ∧ (t.record 4).hasValue = true
  index : t.options indexOptionName = some 5 ∧ (t.record 5).hasValue = true
  remote : t.options remoteName = some 6 ∧ (t.record 6).hasValue = true
  threads : t.options threadsName = some 7 ∧ (t.record 7).hasValue = true
  help : t.options helpName = some 8 ∧ (t.record 8).value = []
  version : t.options versionName = some 9 ∧ (t.record 9).value = []
  values : t.values = []

theorem addOption_bind {β : Type} {getenv : Bytes → Option Bytes} {dflt : Bytes}
    {f : ArgParser → Except String β} (henv : a.envPrefix ≠ []) (hname : 2 ≤ name.length) :
    (a.addOption getenv name dflt >>= f) =
      f (a.insertNew name ⟨(getenv (envName a.envPrefix name)).getD [], dflt, true⟩) := by
  rw [addOption_eq henv hname]
  rfl

theorem addOptionAlias_bind {β : Type} {f : ArgParser → Except String β}
    (hname : a.options name = some p) : (a.addOptionAlias name v >>= f) =
      f { a with options := Function.update a.options v (some p) } := by
  rw [addOptionAlias, hname]
  rfl

theorem exists_mainTable (env : Environment) : ∃ t, mainTable env = .ok t ∧ IsMainTable t := by
  have hname : ∀ n ∈ [cacheName, cacheSizeName, cacheRetentionName, ignoreOptionName,
      indexOptionName, remoteName, threadsName], 2 ≤ n.length := by decide
  simp only [List.forall_mem_cons] at hname
  obtain ⟨h1, h2, h3, h4, h5, h6, h7, -⟩ := hname
  have henv : ascii ['F', 'S', 'T', 'R', 'E', 'E'] ≠ [] := by decide
  rw [mainTable, addOption_bind henv h1, addOptionAlias_bind rfl, addOption_bind henv h2,
    addOptionAlias_bind rfl, addOption_bind henv h3, addOptionAlias_bind rfl,
    addOptionAlias_bind rfl, addOption_bind henv h4, addOptionAlias_bind rfl,
    addOption_bind henv h5, addOptionAlias_bind rfl, addOption_bind henv h6,
    addOptionAlias_bind rfl, addOption_bind henv h7, addOptionAlias_bind rfl,
    addOptionAlias_bind rfl]
  exact ⟨_, rfl, ⟨rfl, rfl⟩, ⟨rfl, rfl⟩, ⟨rfl, rfl⟩, ⟨rfl, rfl⟩, ⟨rfl, rfl⟩, ⟨rfl, rfl⟩,
    ⟨rfl, rfl⟩, ⟨rfl, rfl⟩, ⟨rfl, rfl⟩, ⟨rfl, rfl⟩, rfl⟩

theorem except_eq_ok {α β : Type} {x : Except String α} {f : α → Except String β} {y : β} :
    (x >>= f) = .ok y ↔ ∃ z, x = .ok z ∧ f z = .ok y := by
  cases x with
  | error => exact iff_of_false nofun fun ⟨_, h, _⟩ => nomatch h
  | ok z => exact ⟨fun h => ⟨z, rfl, h⟩, fun ⟨_, h, hf⟩ => Except.ok.inj h ▸ hf⟩

theorem settings_eq_ok_iff : settings env a = some (.ok s) ↔
    readRemote a = .ok s.remoteurl ∧ readCache env a = .ok s.cachedir ∧
      readIgnoreName env a = .ok s.ignorefile ∧ readIndexName env a = .ok s.indexfile ∧
      readThreads env a = .ok s.threads ∧ readCacheSize a = some (.ok s.cachesize) ∧
      readRetention a = .ok s.retentionPeriod := by
  obtain ⟨remoteurl, cachedir, ignorefile, indexfile, threads, cachesize, retention⟩ := s
  rw [settings]
  rcases readRemote a with e | r
  · exact iff_of_false nofun nofun
  rcases readCache env a with e | c
  · exact iff_of_false nofun nofun
  rcases readIgnoreName env a with e | i
  · exact iff_of_false nofun nofun
  rcases readIndexName env a with e | x
  · exact iff_of_false nofun nofun
  rcases readThreads env a with e | t
  · exact iff_of_false nofun nofun
  rcases readCacheSize a with - | (e | v)
  · exact iff_of_false nofun nofun
  · exact iff_of_false nofun nofun
  rcases readRetention a with e | n
  · exact iff_of_false nofun nofun
  constructor
  · intro h
    cases h
    exact ⟨rfl, rfl, rfl, rfl, rfl, rfl, rfl⟩
  · rintro ⟨h1, h2, h3, h4, h5, h6, h7⟩
    cases h1
    cases h2
    cases h3
    cases h4
    cases h5
    cases h6
    cases h7
    rfl

theorem cmdFstree_eq_run_iff {events' : Bool} : cmdFstree env events' a = .run events s vs ↔
    events' = events ∧ settings env a = some (.ok s) ∧ a.values = vs ∧ vs ≠ [] := by
  rw [cmdFstree]
  rcases settings env a with - | (e | s')
  · exact iff_of_false nofun nofun
  · exact iff_of_false nofun nofun
  · by_cases hvalues : a.values = []
    · simp only [hvalues, if_true]
      exact iff_of_false nofun fun ⟨_, _, h, hne⟩ => hne h.symm
    · simp only [hvalues, if_false, MainResult.run.injEq, Option.some.injEq, Except.ok.injEq]
      exact ⟨fun ⟨h1, h2, h3⟩ => ⟨h1, h2, h3, h3 ▸ hvalues⟩, fun ⟨h1, h2, h3, _⟩ => ⟨h1, h2, h3⟩⟩

theorem mainResult_eq_run_iff : mainResult env command args = .ok (.run events s vs) ↔
    ∃ t a, mainTable env = .ok t ∧ t.parse command args = .ok a ∧
      a.hasOption helpName = .ok false ∧ a.hasOption versionName = .ok false ∧
      a.hasOption jsonName = .ok events ∧ settings env a = some (.ok s) ∧ a.values = vs ∧
      vs ≠ [] := by
  simp only [mainResult, except_eq_ok]
  constructor
  · rintro ⟨t, ht, a, ha, help, hhelp, h⟩
    cases help with
    | true => cases h
    | false =>
      simp only [Bool.false_eq_true, if_false] at h
      obtain ⟨version, hversion, h⟩ := except_eq_ok.mp h
      cases version with
      | true => cases h
      | false =>
        simp only [Bool.false_eq_true, if_false] at h
        obtain ⟨json, hjson, h⟩ := except_eq_ok.mp h
        obtain ⟨rfl, hs, hvs, hne⟩ := cmdFstree_eq_run_iff.mp (Except.ok.inj h)
        exact ⟨t, a, ht, ha, hhelp, hversion, hjson, hs, hvs, hne⟩
  · rintro ⟨t, a, ht, ha, hhelp, hversion, hjson, h⟩
    refine ⟨t, ht, a, ha, false, hhelp, ?_⟩
    simp only [Bool.false_eq_true, if_false, except_eq_ok]
    refine ⟨false, hversion, ?_⟩
    simp only [Bool.false_eq_true, if_false, except_eq_ok]
    exact ⟨events, hjson, congrArg Except.ok (cmdFstree_eq_run_iff.mpr ⟨rfl, h⟩)⟩

theorem main_eq_run_iff : main env (command :: args) = .run events s vs ↔
    args ≠ [] ∧ mainResult env command args = .ok (.run events s vs) := by
  rw [main]
  split_ifs with hargs
  · exact iff_of_false nofun fun h => h.1 hargs
  · cases mainResult env command args with
    | error e => exact iff_of_false nofun fun h => nomatch h.2
    | ok r => exact ⟨fun h => ⟨hargs, congrArg Except.ok h⟩, fun h => Except.ok.inj h.2⟩

/-- An option that is not set. -/
theorem getOption_obey_of_not_mem (hp : t.options name = some p) (hst : p ∉ st.map Prod.fst) :
    (t.obey st vs).getOption name = t.getOption name := by
  rw [getOption_obey hp, valueAfter, settle_of_not_mem hst, ArgParser.getOption, hp]

/-- An option that is set last. -/
theorem getOption_obey_of_eq (hp : t.options name = some p) (hv : v ≠ [])
    (hst : t.valueAfter st p = v) : (t.obey st vs).getOption name = .ok v := by
  rw [getOption_obey hp, hst, if_neg hv]

/-- A setting comes from an argument. -/
theorem ArgParser.Says.exists_arg (h : Says t args st vs) (hp : p ∈ st.map Prod.fst) :
    ∃ arg ∈ args, t.options arg = some p := by
  induction h with
  | nil => cases hp
  | value _ _ ih =>
    obtain ⟨arg, harg, ho⟩ := ih hp
    exact ⟨arg, List.mem_cons_of_mem _ harg, ho⟩
  | equals _ _ hq _ _ ih | flag _ _ hq _ _ ih =>
    rcases List.mem_cons.mp hp with rfl | hp
    · exact ⟨_, List.mem_cons_self, hq⟩
    · obtain ⟨arg, harg, ho⟩ := ih hp
      exact ⟨arg, List.mem_cons_of_mem _ harg, ho⟩
  | pair _ _ hq _ _ ih =>
    rcases List.mem_cons.mp hp with rfl | hp
    · exact ⟨_, List.mem_cons_self, hq⟩
    · obtain ⟨arg, harg, ho⟩ := ih hp
      exact ⟨arg, List.mem_cons_of_mem _ (List.mem_cons_of_mem _ harg), ho⟩

/-- **The environment is accepted**: the settings that `spawn_evict_process` does not pass on can be
read if no argument sets them. -/
structure Environment.Accepted (env : Environment) (t : ArgParser) : Prop where
  remote : ∃ x, readRemote t = .ok x
  ignore : ∃ x, readIgnoreName env t = .ok x
  index : ∃ x, readIndexName env t = .ok x
  threads : ∃ x, readThreads env t = .ok x

/-- Only the settings of the other options count for what is read of these. -/
theorem read_obey (env : Environment) (st : List (ℕ × Bytes)) (vs : List Bytes)
    (ht : IsMainTable t) :
    (6 ∉ st.map Prod.fst → readRemote (t.obey st vs) = readRemote t) ∧
    (4 ∉ st.map Prod.fst → readIgnoreName env (t.obey st vs) = readIgnoreName env t) ∧
    (5 ∉ st.map Prod.fst → readIndexName env (t.obey st vs) = readIndexName env t) ∧
    (7 ∉ st.map Prod.fst → readThreads env (t.obey st vs) = readThreads env t) := by
  refine ⟨fun h => ?_, fun h => ?_, fun h => ?_, fun h => ?_⟩
  · rw [readRemote, readRemote, getOption_obey_of_not_mem ht.remote.1 h]
  · rw [readIgnoreName, readIgnoreName, getOptionPath, getOptionPath,
      getOption_obey_of_not_mem ht.ignore.1 h]
  · rw [readIndexName, readIndexName, getOptionPath, getOptionPath,
      getOption_obey_of_not_mem ht.index.1 h]
  · rw [readThreads, readThreads, getOption_obey_of_not_mem ht.threads.1 h]

theorem head?_absolutePath {x : Bytes} (h : absolutePath env.cwd x = .ok v) :
    v.head? = some slash := by
  rw [absolutePath] at h
  split_ifs at h with hx hroot
  · exact Except.ok.inj h ▸ hroot
  · obtain rfl := Except.ok.inj h
    have hcwd := env.cwd_rooted
    rw [joinPath, if_neg hroot]
    split_ifs
    · rw [List.head?_append, hcwd, Option.some_or]
    · rw [List.head?_append, hcwd, Option.some_or]

/-- **The directory of the cache is absolute**, and is read as it is. -/
theorem readCache_absolute (h : readCache env a = .ok v) : v.head? = some slash ∧
    ∀ b, b.getOption cacheName = .ok v → readCache env b = .ok v := by
  simp only [readCache, getOptionPath, if_true, except_eq_ok] at h
  obtain ⟨p, ⟨x, -, y, hy, hp⟩, h⟩ := h
  obtain rfl := Except.ok.inj hp
  obtain ⟨hnormal, hroot⟩ := normalPath_normalPath (head?_absolutePath hy)
  have hne : normalPath y ≠ [] := fun hnil => by
    rw [hnil] at hroot
    cases hroot
  rw [if_neg hne] at h
  obtain rfl := Except.ok.inj h
  refine ⟨hroot, fun b hb => ?_⟩
  have habs : absolutePath env.cwd (normalPath y) = .ok (normalPath y) := by
    rw [absolutePath, if_neg hne, if_pos hroot]
  simp only [readCache, getOptionPath, if_true, except_eq_ok]
  refine ⟨normalPath y, ⟨_, hb, _, habs, congrArg Except.ok hnormal⟩, ?_⟩
  rw [if_neg hne]
  rfl

theorem parse_obey (h : Says t args st vs) (command : Bytes) :
    t.parse command args = .ok (ArgParser.obey { t with command := command } st vs) :=
  h.parseArgs ⟨rfl, fun _ => rfl⟩

theorem readCacheSize_of_getOption {n : BitVec 64}
    (h : a.getOption cacheSizeName = .ok (decimalString n.toNat)) :
    readCacheSize a = some (.ok n) := by
  rw [readCacheSize, h]
  simp only [parseSize_decimalString, Option.map_some]

theorem readRetention_of_getOption {n : ℤ} (hlow : -2 ^ 31 ≤ n) (hhigh : n < 2 ^ 31)
    (h : a.getOption cacheRetentionName = .ok (toDecimal n)) : readRetention a = .ok n := by
  rw [readRetention, h]
  simp only [except_eq_ok]
  refine ⟨_, rfl, ?_⟩
  rw [stoi_toDecimal hlow hhigh]
  rfl

theorem readRetention_range {n : ℤ} (h : readRetention a = .ok n) : -2 ^ 31 ≤ n ∧ n < 2 ^ 31 := by
  simp only [readRetention, except_eq_ok] at h
  obtain ⟨r, -, h⟩ := h
  split at h
  · cases h
  · next m hm =>
    obtain rfl := Except.ok.inj h
    exact stoi_range hm

/-- The settings that `spawn_evict_process` makes. -/
def evictSettings (s : Settings) : List (ℕ × Bytes) :=
  [(0, s.cachedir), (1, decimalString s.cachesize.toNat), (2, toDecimal s.retentionPeriod)]

theorem says_evict (ht : IsMainTable t) (command : Bytes) (s : Settings) :
    Says t (spawnEvictProcess command s.cachedir s.cachesize s.retentionPeriod).tail
      (evictSettings s) [ascii ['e', 'v', 'i', 'c', 't']] := by
  have hname : ∀ n ∈ [cacheName, cacheSizeName, cacheRetentionName],
      n.head? = some minus ∧ equals ∉ n := by decide
  simp only [List.forall_mem_cons] at hname
  obtain ⟨⟨h1, h1'⟩, ⟨h2, h2'⟩, ⟨h3, h3'⟩, -⟩ := hname
  exact .value (by decide) <| .pair h1 h1' ht.cache.1 ht.cache.2 <|
    .pair h2 h2' ht.cacheSize.1 ht.cacheSize.2 <|
    .pair h3 h3' ht.cacheRetention.1 ht.cacheRetention.2 .nil

theorem IsMainTable.withCommand (ht : IsMainTable t) (command : Bytes) :
    IsMainTable { t with command := command } :=
  ⟨ht.cache, ht.cacheSize, ht.cacheRetention, ht.json, ht.ignore, ht.index, ht.remote, ht.threads,
    ht.help, ht.version, ht.values⟩

/-- **What the process reads** that evicts, from what the first process has read. -/
theorem settings_evict_iff (ht : IsMainTable t) (hs : settings env a = some (.ok s))
    {s' : Settings} : settings env (t.obey (evictSettings s) vs) = some (.ok s') ↔
      (readRemote t = .ok s'.remoteurl ∧ readIgnoreName env t = .ok s'.ignorefile ∧
        readIndexName env t = .ok s'.indexfile ∧ readThreads env t = .ok s'.threads) ∧
      s'.cachedir = s.cachedir ∧ s'.cachesize = s.cachesize ∧
        s'.retentionPeriod = s.retentionPeriod := by
  obtain ⟨-, hcache, -, -, -, -, hretention⟩ := settings_eq_ok_iff.mp hs
  obtain ⟨hroot, hsame⟩ := readCache_absolute hcache
  obtain ⟨hlow, hhigh⟩ := readRetention_range hretention
  have hne : s.cachedir ≠ [] := fun hnil => by
    rw [hnil] at hroot
    cases hroot
  have hdecimal : toDecimal s.retentionPeriod ≠ [] := by
    rw [toDecimal]
    split_ifs
    · exact List.cons_ne_nil _ _
    · exact decimalString_ne_nil _
  set b : ArgParser := t.obey (evictSettings s) vs
  have hcache' : b.getOption cacheName = .ok s.cachedir :=
    getOption_obey_of_eq ht.cache.1 hne rfl
  have hsize' : b.getOption cacheSizeName = .ok (decimalString s.cachesize.toNat) :=
    getOption_obey_of_eq ht.cacheSize.1 (decimalString_ne_nil _) rfl
  have hretention' : b.getOption cacheRetentionName = .ok (toDecimal s.retentionPeriod) :=
    getOption_obey_of_eq ht.cacheRetention.1 hdecimal rfl
  obtain ⟨hremote, hignore, hindex, hthreads⟩ := read_obey env (evictSettings s) vs ht
  have hnot : ∀ p, 2 < p → p ∉ (evictSettings s).map Prod.fst := by
    intro p hp hmem
    have hmem : p ∈ [0, 1, 2] := hmem
    simp only [List.mem_cons, List.not_mem_nil, or_false] at hmem
    omega
  rw [settings_eq_ok_iff, hremote (hnot 6 (by decide)), hignore (hnot 4 (by decide)),
    hindex (hnot 5 (by decide)), hthreads (hnot 7 (by decide)), hsame b hcache',
    readCacheSize_of_getOption hsize', readRetention_of_getOption hlow hhigh hretention']
  simp only [Except.ok.injEq, Option.some.injEq]
  constructor
  · rintro ⟨hr, hc, hi, hx, ht, hs, hp⟩
    exact ⟨⟨hr, hi, hx, ht⟩, hc.symm, hs.symm, hp.symm⟩
  · rintro ⟨⟨hr, hi, hx, ht⟩, hc, hs, hp⟩
    exact ⟨hr, hc.symm, hi, hx, ht, hs.symm, hp.symm⟩

theorem hasOption_evict (ht : IsMainTable t) :
    (t.obey (evictSettings s) vs).hasOption helpName = .ok false ∧
      (t.obey (evictSettings s) vs).hasOption versionName = .ok false ∧
      (t.obey (evictSettings s) vs).hasOption jsonName = .ok false := by
  have hunset : ∀ {name p}, t.options name = some p → p ∉ (evictSettings s).map Prod.fst →
      (t.record p).value = [] → (t.obey (evictSettings s) vs).hasOption name = .ok false := by
    intro name p hp hnot hvalue
    rw [hasOption_obey hp, valueAfter, settle_of_not_mem hnot, hvalue]
    rfl
  exact ⟨hunset ht.help.1 (by simp [evictSettings]) ht.help.2,
    hunset ht.version.1 (by simp [evictSettings]) ht.version.2,
    hunset ht.json.1 (by simp [evictSettings]) ht.json.2⟩

/-- **What the process does** that evicts. -/
theorem main_evict_iff (htable : mainTable env = .ok t) (ht : IsMainTable t)
    (hs : settings env a = some (.ok s)) (command : Bytes) (events : Bool) (s' : Settings)
    (vs : List Bytes) :
    main env (spawnEvictProcess command s.cachedir s.cachesize s.retentionPeriod) =
        .run events s' vs ↔ (events = false ∧ vs = [ascii ['e', 'v', 'i', 'c', 't']]) ∧
      (readRemote t = .ok s'.remoteurl ∧ readIgnoreName env t = .ok s'.ignorefile ∧
        readIndexName env t = .ok s'.indexfile ∧ readThreads env t = .ok s'.threads) ∧
      s'.cachedir = s.cachedir ∧ s'.cachesize = s.cachesize ∧
        s'.retentionPeriod = s.retentionPeriod := by
  have ht' := ht.withCommand command
  have hparse := parse_obey (says_evict ht command s) command
  set b := ArgParser.obey { t with command := command } (evictSettings s)
    [ascii ['e', 'v', 'i', 'c', 't']]
  have hvalues : b.values = [ascii ['e', 'v', 'i', 'c', 't']] := by
    change t.values ++ _ = _
    rw [ht.values, List.nil_append]
  obtain ⟨hhelp, hversion, hjson⟩ : b.hasOption helpName = .ok false ∧
    b.hasOption versionName = .ok false ∧ b.hasOption jsonName = .ok false := hasOption_evict ht'
  have hsettings : settings env b = some (.ok s') ↔ _ := settings_evict_iff ht' hs
  rw [spawnEvictProcess, main_eq_run_iff, mainResult_eq_run_iff]
  constructor
  · rintro ⟨-, u, c, hu, hc, -, -, hevents, hs', hvs, -⟩
    obtain rfl : t = u := Except.ok.inj (htable.symm.trans hu)
    obtain rfl : b = c := Except.ok.inj (hparse.symm.trans hc)
    exact ⟨⟨(Except.ok.inj (hjson.symm.trans hevents)).symm, hvs.symm.trans hvalues⟩,
      hsettings.mp hs'⟩
  · rintro ⟨⟨rfl, rfl⟩, hs'⟩
    exact ⟨List.cons_ne_nil _ _, t, b, htable, hparse, hhelp, hversion, hjson, hsettings.mpr hs',
      hvalues, List.cons_ne_nil _ _⟩

end Read

/-- **The process that evicts.** After a command that was executed with some settings, the process
that `spawn_evict_process` starts executes the command `evict` with the same directory of the cache
and the same limits, or fails before it; and it executes it just when the environment is accepted.
That it is if no argument of the first process has set an option that is not passed on. -/
theorem evict_process {env : Environment} {command : Bytes} {args values : List Bytes}
    {events : Bool} {s : Settings} (hrun : main env (command :: args) = .run events s values) :
    (∀ e s' vs, main env (spawnEvictProcess command s.cachedir s.cachesize s.retentionPeriod) =
        .run e s' vs → vs = [ascii ['e', 'v', 'i', 'c', 't']] ∧ s'.cachedir = s.cachedir ∧
      s'.cachesize = s.cachesize ∧ s'.retentionPeriod = s.retentionPeriod) ∧
    ∃ t, mainTable env = .ok t ∧
      ((∃ e s' vs, main env (spawnEvictProcess command s.cachedir s.cachesize s.retentionPeriod) =
        .run e s' vs) ↔ env.Accepted t) ∧
      ((∀ arg ∈ args, ∀ name ∈ [remoteName, ignoreOptionName, indexOptionName, threadsName],
        t.options arg ≠ t.options name) → env.Accepted t) := by
  obtain ⟨-, hresult⟩ := main_eq_run_iff.mp hrun
  obtain ⟨t, a, ht, ha, -, -, -, hs, -, -⟩ := mainResult_eq_run_iff.mp hresult
  have hmain : IsMainTable t := by
    obtain ⟨t', ht', hmain⟩ := exists_mainTable env
    rw [ht] at ht'
    exact Except.ok.inj ht' ▸ hmain
  have hevict := main_evict_iff ht hmain hs command
  refine ⟨fun e s' vs h => ?_, t, ht, ⟨?_, ?_⟩, fun hunset => ?_⟩
  · obtain ⟨⟨-, hvs⟩, -, hsame⟩ := (hevict e s' vs).mp h
    exact ⟨hvs, hsame⟩
  · rintro ⟨e, s', vs, h⟩
    obtain ⟨-, ⟨hr, hi, hx, hj⟩, -⟩ := (hevict e s' vs).mp h
    exact ⟨⟨_, hr⟩, ⟨_, hi⟩, ⟨_, hx⟩, ⟨_, hj⟩⟩
  · rintro ⟨⟨r, hr⟩, ⟨i, hi⟩, ⟨x, hx⟩, ⟨j, hj⟩⟩
    exact ⟨_, ⟨r, s.cachedir, i, x, j, s.cachesize, s.retentionPeriod⟩, _,
      (hevict _ _ _).mpr ⟨⟨rfl, rfl⟩, ⟨hr, hi, hx, hj⟩, rfl, rfl, rfl⟩⟩
  · -- no argument has set what is not passed on
    obtain ⟨st, vs, hsays, rfl⟩ := parseArgs_eq_ok_iff.mp ha
    have hnot : ∀ name p, name ∈ [remoteName, ignoreOptionName, indexOptionName, threadsName] →
        t.options name = some p → p ∉ st.map Prod.fst := by
      intro name p hname hp hmem
      obtain ⟨arg, harg, ho⟩ := hsays.exists_arg hmem
      have ho : t.options arg = some p := ho
      exact hunset arg harg name hname (ho.trans hp.symm)
    obtain ⟨hremote, hignore, hindex, hthreads⟩ :=
      read_obey env st vs (hmain.withCommand command)
    obtain ⟨hr, -, hi, hx, hj, -, -⟩ := settings_eq_ok_iff.mp hs
    rw [hremote (hnot _ _ (by simp) hmain.remote.1)] at hr
    rw [hignore (hnot _ _ (by simp) hmain.ignore.1)] at hi
    rw [hindex (hnot _ _ (by simp) hmain.index.1)] at hx
    rw [hthreads (hnot _ _ (by simp) hmain.threads.1)] at hj
    exact ⟨⟨_, hr⟩, ⟨_, hi⟩, ⟨_, hx⟩, ⟨_, hj⟩⟩

namespace Sample

/-- A process in the root directory, with an empty environment. -/
def environment : Environment where
  getenv _ := none
  cwd := ascii ['/']
  cwd_rooted := rfl
  hardware := 4

/-- The command `push`, with all settings. -/
def pushArgs : List Bytes :=
  [remoteName, ascii ['h'], cacheName, ascii ['c', '/', '.', '.', '/', 'd'], ignoreOptionName,
    ascii ['i'], indexOptionName, ascii ['x'], threadsName, ascii ['2'], cacheSizeName, ascii ['5'],
    cacheRetentionName, ascii ['-', '1'], ascii ['p', 'u', 's', 'h']]

/-- What they set. -/
def pushSets : List (ℕ × Bytes) :=
  [(6, ascii ['h']), (0, ascii ['c', '/', '.', '.', '/', 'd']), (4, ascii ['i']),
    (5, ascii ['x']), (7, ascii ['2']), (1, ascii ['5']), (2, ascii ['-', '1'])]

/-- What is read from them. -/
def pushSettings : Settings where
  remoteurl := ascii ['h']
  cachedir := ascii ['/', 'd']
  ignorefile := ascii ['i']
  indexfile := ascii ['x']
  threads := 2
  cachesize := 5
  retentionPeriod := -1

theorem main_push : main environment ([] :: pushArgs) =
    .run false pushSettings [ascii ['p', 'u', 's', 'h']] := by
  obtain ⟨t, htable, ht⟩ := exists_mainTable environment
  have hname : ∀ n ∈ [remoteName, cacheName, ignoreOptionName, indexOptionName, threadsName,
      cacheSizeName, cacheRetentionName], n.head? = some minus ∧ equals ∉ n := by decide
  simp only [List.forall_mem_cons] at hname
  obtain ⟨h6, h0, h4, h5, h7, h1, h2, -⟩ := hname
  have hsays : Says t pushArgs pushSets [ascii ['p', 'u', 's', 'h']] :=
    .pair h6.1 h6.2 ht.remote.1 ht.remote.2 <| .pair h0.1 h0.2 ht.cache.1 ht.cache.2 <|
    .pair h4.1 h4.2 ht.ignore.1 ht.ignore.2 <| .pair h5.1 h5.2 ht.index.1 ht.index.2 <|
    .pair h7.1 h7.2 ht.threads.1 ht.threads.2 <| .pair h1.1 h1.2 ht.cacheSize.1 ht.cacheSize.2 <|
    .pair h2.1 h2.2 ht.cacheRetention.1 ht.cacheRetention.2 <| .value (by decide) .nil
  have hparse := parse_obey hsays []
  set b := ArgParser.obey { t with command := [] } pushSets [ascii ['p', 'u', 's', 'h']]
  have hunset : ∀ {name p}, t.options name = some p → 7 < p ∨ p = 3 → (t.record p).value = [] →
      b.hasOption name = .ok false := by
    intro name p hp hnot hvalue
    have hp' : ({ t with command := [] } : ArgParser).options name = some p := hp
    rw [hasOption_obey hp', valueAfter, settle_of_not_mem, hvalue]
    · rfl
    · intro hmem
      have hmem : p ∈ [6, 0, 4, 5, 7, 1, 2] := hmem
      simp only [List.mem_cons, List.not_mem_nil, or_false] at hmem
      omega
  have hset : ∀ {name p} v, t.options name = some p → v ≠ [] → t.valueAfter pushSets p = v →
      b.getOption name = .ok v := fun v hp hv h => getOption_obey_of_eq hp hv h
  have hsettings : settings environment b = some (.ok pushSettings) := by
    rw [settings_eq_ok_iff]
    refine ⟨?_, ?_, ?_, ?_, ?_, ?_, ?_⟩
    · rw [readRemote, hset (ascii ['h']) ht.remote.1 (by decide) rfl]
      rfl
    · rw [readCache, getOptionPath,
        hset (ascii ['c', '/', '.', '.', '/', 'd']) ht.cache.1 (by decide) rfl]
      rfl
    · rw [readIgnoreName, getOptionPath, hset (ascii ['i']) ht.ignore.1 (by decide) rfl]
      rfl
    · rw [readIndexName, getOptionPath, hset (ascii ['x']) ht.index.1 (by decide) rfl]
      rfl
    · rw [readThreads, hset (ascii ['2']) ht.threads.1 (by decide) rfl]
      rfl
    · rw [readCacheSize, hset (ascii ['5']) ht.cacheSize.1 (by decide) rfl]
      rfl
    · rw [readRetention, hset (ascii ['-', '1']) ht.cacheRetention.1 (by decide) rfl]
      rfl
  refine main_eq_run_iff.mpr ⟨List.cons_ne_nil _ _, mainResult_eq_run_iff.mpr ⟨t, b, htable, hparse,
    hunset ht.help.1 (by decide) ht.help.2, hunset ht.version.1 (by decide) ht.version.2,
    hunset ht.json.1 (by decide) ht.json.2, hsettings, ?_, List.cons_ne_nil _ _⟩⟩
  change t.values ++ _ = _
  rw [ht.values, List.nil_append]

/-- The defaults of the options are accepted. -/
theorem accepted_environment : ∃ t, mainTable environment = .ok t ∧ environment.Accepted t := by
  refine ⟨_, rfl, ⟨_, rfl⟩, ⟨_, rfl⟩, ⟨_, rfl⟩, 4, ?_⟩
  -- the number of threads is printed, and then read
  have hstoi : stoi (decimalString 4) = .ok 4 := stoi_toDecimal (n := 4) (by decide) (by decide)
  have hne : decimalString 4 ≠ [] := decimalString_ne_nil 4
  rw [readThreads, show ArgParser.getOption threadsName _ = .ok (decimalString 4) from rfl]
  simp only [except_eq_ok]
  refine ⟨_, rfl, ?_⟩
  simp only [hne, hstoi]
  rfl

end Sample

/-- The process that evicts after a `push` is started, and evicts what it has to. -/
theorem evict_process_sample : ∃ e s, main Sample.environment (spawnEvictProcess []
      Sample.pushSettings.cachedir 5 (-1)) = .run e s [ascii ['e', 'v', 'i', 'c', 't']] ∧
    s.cachedir = ascii ['/', 'd'] ∧ s.cachesize = 5 ∧ s.retentionPeriod = -1 := by
  obtain ⟨hsame, t, ht, hruns, -⟩ := evict_process Sample.main_push
  obtain ⟨t', ht', haccepted⟩ := Sample.accepted_environment
  obtain rfl : t' = t := Except.ok.inj (ht'.symm.trans ht)
  obtain ⟨e, s, vs, h⟩ := hruns.mpr haccepted
  obtain ⟨rfl, hs⟩ := hsame e s vs h
  exact ⟨e, s, h, hs⟩

end Fstree
