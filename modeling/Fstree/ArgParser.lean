import Fstree.Model.Digest
import Mathlib.Logic.Function.Basic

/-!
# The options of the command line

`argparser` has a map from names to records. An alias is another name for a record. `parse`
goes through the arguments and writes the values of options to the records.

The value of an option may be the next argument, or follow a `=`. In the second spelling
`parse` looks the whole argument up, and not what stands before the `=`. So `--index=f` is an
unknown option, unless there is an option of just this name; and if there is, the value goes to
that one. When the two spellings come to the same is `Fstree.ArgParser.spellings_iff`.

What a vector of arguments says is stated apart from the loop, as a relation between the
arguments, the settings that they make and the values that are no options
(`Fstree.ArgParser.Says`). The relation is about the names and records of a table, and not
about what is in the records.
-/

namespace Fstree

open Codec

/-! ### The table -/

/-- `argparser::option`. -/
structure OptionRecord where
  value : Bytes
  defaultValue : Bytes
  hasValue : Bool

/-- **`argparser`**: the records have addresses below `size`. -/
structure ArgParser where
  command : Bytes
  size : ℕ
  record : ℕ → OptionRecord
  options : Bytes → Option ℕ
  values : List Bytes
  envPrefix : Bytes

/-- The character `-`. -/
def minus : Byte := 45

/-- The character `=`. -/
def equals : Byte := 61

/-- `toupper`, in the C locale. -/
def toUpper (c : Byte) : Byte := if 97 ≤ c ∧ c ≤ 122 then c - 32 else c

namespace ArgParser

/-- The constructor. -/
def new : ArgParser := ⟨[], 0, fun _ => ⟨[], [], false⟩, fun _ => none, [], []⟩

/-- `argparser::set_env_prefix`. -/
def setEnvPrefix (envPrefix : Bytes) (a : ArgParser) : ArgParser :=
  { a with envPrefix := envPrefix }

/-- A value is written to a record. -/
def setValue (p : ℕ) (value : Bytes) (a : ArgParser) : ArgParser :=
  { a with record := Function.update a.record p { a.record p with value := value } }

/-- An argument that is no option. -/
def pushValue (arg : Bytes) (a : ArgParser) : ArgParser := { a with values := a.values ++ [arg] }

/-- A name gets a new record. -/
def insertNew (name : Bytes) (o : OptionRecord) (a : ArgParser) : ArgParser :=
  { a with
    size := a.size + 1
    record := Function.update a.record a.size o
    options := Function.update a.options name (some a.size) }

/-- The variable of the environment for an option. -/
def envName (envPrefix name : Bytes) : Bytes :=
  ((envPrefix ++ ascii ['_'] ++ name.drop 2).map fun c => if c = minus then 95 else c).map toUpper

/-- **`argparser::add_option`**. -/
def addOption (getenv : Bytes → Option Bytes) (name defaultValue : Bytes) (a : ArgParser) :
    Except String ArgParser :=
  let a' := a.insertNew name ⟨[], defaultValue, true⟩
  if a.envPrefix = [] then .ok a'
  -- `substr`
  else if name.length < 2 then .error "basic_string::substr"
  else match getenv (envName a.envPrefix name) with
    | some value => .ok (a'.setValue a.size value)
    | none => .ok a'

/-- **`argparser::add_option_alias`**. -/
def addOptionAlias (name aliasName : Bytes) (a : ArgParser) : Except String ArgParser :=
  match a.options name with
  | none => .error ("unknown option: " ++ text name)
  | some p => .ok { a with options := Function.update a.options aliasName (some p) }

/-- **`argparser::add_bool_option`**. -/
def addBoolOption (name : Bytes) (a : ArgParser) : ArgParser := a.insertNew name ⟨[], [], false⟩

/-- **A table that was built**, in an environment, with names that start with `-`. -/
inductive Built (getenv : Bytes → Option Bytes) : ArgParser → Prop
  | new : Built getenv new
  | setEnvPrefix {a} (envPrefix : Bytes) (h : Built getenv a) :
      Built getenv (a.setEnvPrefix envPrefix)
  | addOption {a a' name} {defaultValue : Bytes} (h : Built getenv a)
      (hname : name.head? = some minus) (hadd : a.addOption getenv name defaultValue = .ok a') :
      Built getenv a'
  | addOptionAlias {a a' name aliasName} (h : Built getenv a) (hname : name.head? = some minus)
      (halias : aliasName.head? = some minus) (hadd : a.addOptionAlias name aliasName = .ok a') :
      Built getenv a'
  | addBoolOption {a name} (h : Built getenv a) (hname : name.head? = some minus) :
      Built getenv (a.addBoolOption name)

/-! ### The parser -/

/-- What stands after the first `=`. -/
def afterEquals (arg : Bytes) : Bytes := (arg.dropWhile (· ≠ equals)).tail

/-- The loop of `argparser::parse`. -/
def parseArgs (a : ArgParser) : List Bytes → Except String ArgParser
  | [] => .ok a
  | arg :: rest =>
    if arg.head? = some minus then
      if equals ∈ arg then
        match a.options arg with
        | none => .error ("unknown option: " ++ text arg)
        | some p =>
          if (a.record p).hasValue = false then
            .error ("option does not take a value: " ++ text arg)
          else (a.setValue p (afterEquals arg)).parseArgs rest
      else
        match a.options arg with
        | none => .error ("unknown option: " ++ text arg)
        | some p =>
          if (a.record p).hasValue then
            match rest with
            | [] => .error ("missing value for option: " ++ text arg)
            | value :: rest => (a.setValue p value).parseArgs rest
          else (a.setValue p (ascii ['t', 'r', 'u', 'e'])).parseArgs rest
    else (a.pushValue arg).parseArgs rest

/-- **`argparser::parse`**, of the command and the arguments after it. -/
def parse (command : Bytes) (args : List Bytes) (a : ArgParser) : Except String ArgParser :=
  { a with command := command }.parseArgs args

/-- **`argparser::get_option`**. -/
def getOption (name : Bytes) (a : ArgParser) : Except String Bytes :=
  match a.options name with
  | none => .error ("unknown option: " ++ text name)
  | some p =>
    if (a.record p).value = [] then .ok (a.record p).defaultValue else .ok (a.record p).value

/-- **`argparser::has_option`**. -/
def hasOption (name : Bytes) (a : ArgParser) : Except String Bool :=
  match a.options name with
  | none => .error ("unknown option: " ++ text name)
  | some p => .ok (!(a.record p).value.isEmpty)

/-- **What can be seen of a parser**: the options, by all their names, and the other values. -/
def seen (a : ArgParser) : (Bytes → Except String Bytes × Except String Bool) × List Bytes :=
  (fun name => (a.getOption name, a.hasOption name), a.values)

/-- **The outcome of a call** of `parse`, if it does not fail. -/
def outcome (r : Except String ArgParser) :
    Option ((Bytes → Except String Bytes × Except String Bool) × List Bytes) :=
  match r with
  | .ok a => some a.seen
  | .error _ => none

/-! ### What arguments say -/

/-- **What arguments say**: which record is set to which value, in their order, and which
arguments are no options. -/
inductive Says (a : ArgParser) : List Bytes → List (ℕ × Bytes) → List Bytes → Prop
  | nil : Says a [] [] []
  | value {arg args s vs} (harg : arg.head? ≠ some minus) (h : Says a args s vs) :
      Says a (arg :: args) s (arg :: vs)
  | equals {arg args p s vs} (harg : arg.head? = some minus) (heq : equals ∈ arg)
      (hp : a.options arg = some p) (hvalue : (a.record p).hasValue = true)
      (h : Says a args s vs) : Says a (arg :: args) ((p, afterEquals arg) :: s) vs
  | pair {arg value args p s vs} (harg : arg.head? = some minus) (heq : equals ∉ arg)
      (hp : a.options arg = some p) (hvalue : (a.record p).hasValue = true)
      (h : Says a args s vs) : Says a (arg :: value :: args) ((p, value) :: s) vs
  | flag {arg args p s vs} (harg : arg.head? = some minus) (heq : equals ∉ arg)
      (hp : a.options arg = some p) (hvalue : (a.record p).hasValue = false)
      (h : Says a args s vs) : Says a (arg :: args) ((p, ascii ['t', 'r', 'u', 'e']) :: s) vs

/-- The values of the records after some settings. -/
def settle (f : ℕ → Bytes) (s : List (ℕ × Bytes)) : ℕ → Bytes :=
  s.foldl (fun f x => Function.update f x.1 x.2) f

/-- **The values of the records** of a table, after some settings. -/
def valueAfter (a : ArgParser) (s : List (ℕ × Bytes)) : ℕ → Bytes :=
  settle (fun p => (a.record p).value) s

/-- A parser after what arguments say. -/
def obey (a : ArgParser) (s : List (ℕ × Bytes)) (vs : List Bytes) : ArgParser :=
  { a with
    record := fun p => { a.record p with value := a.valueAfter s p }
    values := a.values ++ vs }

/-- **The last of the arguments is an option whose value is missing.** What comes after it is
not in option position. -/
def endsInOption (a : ArgParser) : List Bytes → Bool
  | [] => false
  | arg :: rest =>
    if arg.head? = some minus ∧ equals ∉ arg ∧ (a.options arg).any fun p => (a.record p).hasValue
    then match rest with
      | [] => true
      | _ :: rest => a.endsInOption rest
    else a.endsInOption rest

section Read

variable {getenv : Bytes → Option Bytes} {a b : ArgParser} {f g : ℕ → Bytes} {p q r : ℕ}
  {s s' : List (ℕ × Bytes)} {args pre rest vs vs' : List Bytes} {o v : Bytes}

theorem head_update {options : Bytes → Option ℕ} {n : Bytes} {x : Option ℕ}
    (h : ∀ name, (options name).isSome → name.head? = some minus) (hn : n.head? = some minus) :
    ∀ name, (Function.update options n x name).isSome → name.head? = some minus := by
  intro name hname
  by_cases he : name = n
  · rw [he, hn]
  · rw [Function.update_of_ne he] at hname
    exact h name hname

/-- **All names start with `-`.** -/
theorem Built.head_name (h : Built getenv a) :
    ∀ name, (a.options name).isSome → name.head? = some minus := by
  induction h with
  | new => simp [ArgParser.new]
  | setEnvPrefix _ _ ih => exact ih
  | @addOption a a' n dflt _ hname hadd ih =>
    have hoptions : a'.options = (a.insertNew n ⟨[], dflt, true⟩).options := by
      rw [ArgParser.addOption] at hadd
      split_ifs at hadd
      · cases hadd
        rfl
      · split at hadd <;> cases hadd <;> rfl
    rw [hoptions]
    exact head_update ih hname
  | addOptionAlias _ _ halias hadd ih =>
    rw [ArgParser.addOptionAlias] at hadd
    split at hadd <;> cases hadd
    exact head_update ih halias
  | addBoolOption _ hname ih => exact head_update ih hname

/-! ### Settings -/

theorem settle_cons (x : ℕ × Bytes) :
    settle f (x :: s) = settle (Function.update f x.1 x.2) s := rfl

theorem settle_append : settle f (s ++ s') = settle (settle f s) s' := List.foldl_append

/-- A record that is not set keeps its value. -/
theorem settle_of_not_mem (h : r ∉ s.map Prod.fst) : settle f s r = f r := by
  induction s generalizing f with
  | nil => rfl
  | cons x s ih =>
    rw [List.map_cons, List.mem_cons, not_or] at h
    rw [settle_cons, ih h.2, Function.update_of_ne h.1]

/-- The value that a record had before it is set does not count. -/
theorem settle_of_mem (h : r ∈ s.map Prod.fst) : settle f s r = settle g s r := by
  induction s generalizing f g with
  | nil => simp at h
  | cons x s ih =>
    by_cases hr : r ∈ s.map Prod.fst
    · exact ih hr
    · obtain rfl : r = x.1 := (List.mem_cons.mp h).resolve_right hr
      rw [settle_cons, settle_cons, settle_of_not_mem hr, settle_of_not_mem hr,
        Function.update_self, Function.update_self]

/-! ### The loop reads what the arguments say -/

/-- **The same table**: the same names for the same records, with a value or without. -/
def SameTable (a b : ArgParser) : Prop :=
  a.options = b.options ∧ ∀ p, (a.record p).hasValue = (b.record p).hasValue

theorem setValue_self : (a.setValue p v).record p = { a.record p with value := v } :=
  Function.update_self ..

theorem setValue_ne (h : r ≠ p) : (a.setValue p v).record r = a.record r :=
  Function.update_of_ne h ..

theorem sameTable_setValue : SameTable (a.setValue p v) a := by
  refine ⟨rfl, fun r => ?_⟩
  by_cases hr : r = p
  · rw [hr, setValue_self]
  · rw [setValue_ne hr]

theorem sameTable_pushValue : SameTable (a.pushValue v) a := ⟨rfl, fun _ => rfl⟩

theorem SameTable.trans {c : ArgParser} (h : SameTable a b) (h' : SameTable b c) :
    SameTable a c := ⟨h.1.trans h'.1, fun p => (h.2 p).trans (h'.2 p)⟩

/-- What arguments say depends on the table alone. -/
theorem SameTable.transfer (h : SameTable a b) (hs : Says a args s vs) : Says b args s vs := by
  obtain ⟨hoptions, hrecord⟩ := h
  induction hs with
  | nil => exact .nil
  | value harg _ ih => exact .value harg ih
  | equals harg heq hp hvalue _ ih =>
    exact .equals harg heq (hoptions ▸ hp) (hrecord _ ▸ hvalue) ih
  | pair harg heq hp hvalue _ ih => exact .pair harg heq (hoptions ▸ hp) (hrecord _ ▸ hvalue) ih
  | flag harg heq hp hvalue _ ih => exact .flag harg heq (hoptions ▸ hp) (hrecord _ ▸ hvalue) ih

theorem obey_nil : a.obey [] [] = a := by
  rw [obey, List.append_nil]
  rfl

/-- One setting, and then the others. -/
theorem obey_cons : a.obey ((p, v) :: s) vs = (a.setValue p v).obey s vs := by
  have hvalue : (fun r => ((a.setValue p v).record r).value) =
      Function.update (fun r => (a.record r).value) p v := by
    funext r
    by_cases hr : r = p
    · rw [hr, setValue_self, Function.update_self]
    · rw [setValue_ne hr, Function.update_of_ne hr]
  have hrecord : ∀ r, { (a.setValue p v).record r with value := (a.setValue p v).valueAfter s r } =
      { a.record r with value := a.valueAfter ((p, v) :: s) r } := by
    intro r
    rw [valueAfter, valueAfter, settle_cons, hvalue]
    by_cases hr : r = p
    · rw [hr, setValue_self]
    · rw [setValue_ne hr]
  rw [obey, obey]
  simp only [hrecord]
  rfl

theorem obey_push : a.obey s (v :: vs) = (a.pushValue v).obey s vs := by
  rw [obey, obey, pushValue, List.append_assoc]
  rfl

/-- **What is said is done.** -/
theorem Says.parseArgs (h : Says a args s vs) (hb : SameTable b a) :
    b.parseArgs args = .ok (b.obey s vs) := by
  induction h generalizing b with
  | nil => rw [ArgParser.parseArgs, obey_nil]
  | value harg _ ih =>
    rw [ArgParser.parseArgs, if_neg harg, ih (sameTable_pushValue.trans hb), obey_push]
  | equals harg heq hp hvalue _ ih =>
    rw [ArgParser.parseArgs, if_pos harg, if_pos heq, hb.1, hp]
    simp only [hb.2, hvalue, Bool.true_eq_false, if_false]
    rw [ih (sameTable_setValue.trans hb), obey_cons]
  | pair harg heq hp hvalue _ ih =>
    rw [ArgParser.parseArgs.eq_def]
    simp only [if_pos harg, if_neg heq, hb.1, hp, hb.2, hvalue, if_true]
    rw [ih (sameTable_setValue.trans hb), obey_cons]
  | flag harg heq hp hvalue _ ih =>
    rw [ArgParser.parseArgs.eq_def]
    simp only [if_pos harg, if_neg heq, hb.1, hp, hb.2, hvalue, Bool.false_eq_true, if_false]
    rw [ih (sameTable_setValue.trans hb), obey_cons]

/-- **The loop returns if the arguments say something**, and does it. -/
theorem parseArgs_eq_ok_iff :
    a.parseArgs args = .ok b ↔ ∃ s vs, Says a args s vs ∧ b = a.obey s vs := by
  constructor
  · intro h
    fun_induction ArgParser.parseArgs a args with
    | case1 a =>
      cases h
      exact ⟨[], [], .nil, obey_nil.symm⟩
    | case2 | case3 | case5 | case6 => cases h
    | case4 a arg rest harg heq p hp hvalue ih =>
      obtain ⟨s, vs, hs, rfl⟩ := ih h
      exact ⟨_, vs, .equals harg heq hp (by simpa using hvalue) (sameTable_setValue.transfer hs),
        obey_cons.symm⟩
    | case7 a arg harg heq p hp hvalue value rest ih =>
      obtain ⟨s, vs, hs, rfl⟩ := ih h
      exact ⟨_, vs, .pair harg heq hp hvalue (sameTable_setValue.transfer hs), obey_cons.symm⟩
    | case8 a arg rest harg heq p hp hvalue ih =>
      obtain ⟨s, vs, hs, rfl⟩ := ih h
      exact ⟨_, vs, .flag harg heq hp (by simpa using hvalue) (sameTable_setValue.transfer hs),
        obey_cons.symm⟩
    | case9 a arg rest harg ih =>
      obtain ⟨s, vs, hs, rfl⟩ := ih h
      exact ⟨s, _, .value harg (sameTable_pushValue.transfer hs), obey_push.symm⟩
  · rintro ⟨s, vs, h, rfl⟩
    exact h.parseArgs ⟨rfl, fun _ => rfl⟩

/-! ### Arguments one after the other -/

theorem Says.append (h : Says a pre s vs) (h' : Says a rest s' vs') :
    Says a (pre ++ rest) (s ++ s') (vs ++ vs') := by
  induction h with
  | nil => exact h'
  | value harg _ ih => exact .value harg ih
  | equals harg heq hp hvalue _ ih => exact .equals harg heq hp hvalue ih
  | pair harg heq hp hvalue _ ih => exact .pair harg heq hp hvalue ih
  | flag harg heq hp hvalue _ ih => exact .flag harg heq hp hvalue ih

/-- **What comes in option position is read apart** from what comes before. -/
theorem Says.split (hpos : a.endsInOption pre = false) (h : Says a (pre ++ rest) s vs) :
    ∃ s₁ vs₁ s₂ vs₂, Says a pre s₁ vs₁ ∧ Says a rest s₂ vs₂ ∧ s = s₁ ++ s₂ ∧ vs = vs₁ ++ vs₂ := by
  fun_induction endsInOption a pre generalizing s vs with
  | case1 => exact ⟨[], [], s, vs, .nil, h, rfl, rfl⟩
  | case2 => cases hpos
  | case3 arg harg value pre ih =>
    obtain ⟨hminus, heq, hany⟩ := harg
    obtain ⟨p, hp, hvalue⟩ : ∃ p, a.options arg = some p ∧ (a.record p).hasValue = true := by
      cases hp : a.options arg with
      | none => simp [hp] at hany
      | some p => exact ⟨p, rfl, by simpa [hp] using hany⟩
    cases h with
    | value hne => exact absurd hminus hne
    | equals _ hmem => exact absurd hmem heq
    | pair _ _ hp' hvalue' h =>
      obtain ⟨s₁, vs₁, s₂, vs₂, h₁, h₂, rfl, rfl⟩ := ih hpos h
      exact ⟨_, vs₁, s₂, vs₂, .pair hminus heq hp' hvalue' h₁, h₂, rfl, rfl⟩
    | flag _ _ hp' hvalue' =>
      obtain rfl := Option.some.inj (hp.symm.trans hp')
      simp [hvalue] at hvalue'
  | case4 arg pre harg ih =>
    rw [List.cons_append] at h
    generalize hl : pre ++ rest = l at h
    cases h with
    | value hne h =>
      subst hl
      obtain ⟨s₁, vs₁, s₂, vs₂, h₁, h₂, rfl, rfl⟩ := ih hpos h
      exact ⟨s₁, _, s₂, vs₂, .value hne h₁, h₂, rfl, rfl⟩
    | equals hminus hmem hp hvalue h =>
      subst hl
      obtain ⟨s₁, vs₁, s₂, vs₂, h₁, h₂, rfl, rfl⟩ := ih hpos h
      exact ⟨_, vs₁, s₂, vs₂, .equals hminus hmem hp hvalue h₁, h₂, rfl, rfl⟩
    | flag hminus hmem hp hvalue h =>
      subst hl
      obtain ⟨s₁, vs₁, s₂, vs₂, h₁, h₂, rfl, rfl⟩ := ih hpos h
      exact ⟨_, vs₁, s₂, vs₂, .flag hminus hmem hp hvalue h₁, h₂, rfl, rfl⟩
    | pair hminus hmem hp hvalue => exact absurd ⟨hminus, hmem, by simp [hp, hvalue]⟩ harg

theorem pair_iff (hminus : o.head? = some minus) (heq : equals ∉ o)
    (hp : a.options o = some p) (hvalue : (a.record p).hasValue = true) :
    Says a (o :: v :: rest) s vs ↔ ∃ s', s = (p, v) :: s' ∧ Says a rest s' vs := by
  constructor
  · intro h
    cases h with
    | value hne => exact absurd hminus hne
    | equals _ hmem => exact absurd hmem heq
    | pair _ _ hp' _ h =>
      obtain rfl := Option.some.inj (hp.symm.trans hp')
      exact ⟨_, rfl, h⟩
    | flag _ _ hp' hvalue' =>
      obtain rfl := Option.some.inj (hp.symm.trans hp')
      simp [hvalue] at hvalue'
  · rintro ⟨s', rfl, h⟩
    exact .pair hminus heq hp hvalue h

theorem afterEquals_append (heq : equals ∉ o) : afterEquals (o ++ equals :: v) = v := by
  have hall : ∀ c ∈ o, decide (c ≠ equals) = true := fun c hc =>
    decide_eq_true fun he => heq (he ▸ hc)
  rw [afterEquals, List.dropWhile_append_of_pos hall]
  simp

theorem equals_iff (hminus : o.head? = some minus) (heq : equals ∉ o) :
    Says a ((o ++ equals :: v) :: rest) s vs ↔ ∃ q s', a.options (o ++ equals :: v) = some q ∧
      (a.record q).hasValue = true ∧ s = (q, v) :: s' ∧ Says a rest s' vs := by
  have hhead : (o ++ equals :: v).head? = some minus := by simp [hminus]
  have hmem : equals ∈ o ++ equals :: v := by simp
  constructor
  · intro h
    cases h with
    | value hne => exact absurd hhead hne
    | equals _ _ hp hvalue h => exact ⟨_, _, hp, hvalue, by rw [afterEquals_append heq], h⟩
    | pair _ hne => exact absurd hmem hne
    | flag _ hne => exact absurd hmem hne
  · rintro ⟨q, s', hq, hvalue, rfl, h⟩
    have hs := Says.equals hhead hmem hq hvalue h
    rwa [afterEquals_append heq] at hs

/-! ### What is seen -/

theorem getOption_obey {name : Bytes} (hp : a.options name = some p) :
    (a.obey s vs).getOption name =
      if a.valueAfter s p = [] then .ok (a.record p).defaultValue else .ok (a.valueAfter s p) := by
  have hp' : (a.obey s vs).options name = some p := hp
  rw [getOption, hp']
  rfl

theorem hasOption_obey {name : Bytes} (hp : a.options name = some p) :
    (a.obey s vs).hasOption name = .ok (!(a.valueAfter s p).isEmpty) := by
  have hp' : (a.obey s vs).options name = some p := hp
  rw [hasOption, hp']
  rfl

/-- The value of an option can be seen. -/
theorem seen_obey_eq_iff : (a.obey s vs).seen = (a.obey s' vs).seen ↔
    ∀ name p, a.options name = some p → a.valueAfter s p = a.valueAfter s' p := by
  constructor
  · intro h name p hp
    have hname := congrFun (congrArg Prod.fst h) name
    have hget : (a.obey s vs).getOption name = (a.obey s' vs).getOption name :=
      congrArg Prod.fst hname
    have hhas : (a.obey s vs).hasOption name = (a.obey s' vs).hasOption name :=
      congrArg Prod.snd hname
    rw [hasOption_obey hp, hasOption_obey hp, Except.ok.injEq, Bool.not_inj_iff] at hhas
    rw [getOption_obey hp, getOption_obey hp] at hget
    by_cases hs : a.valueAfter s p = []
    · rw [hs, List.isEmpty_nil, eq_comm, List.isEmpty_iff] at hhas
      rw [hs, hhas]
    · have hs' : a.valueAfter s' p ≠ [] := fun hs' => by
        rw [hs', List.isEmpty_nil, List.isEmpty_iff] at hhas
        exact hs hhas
      rw [if_neg hs, if_neg hs'] at hget
      exact Except.ok.inj hget
  · intro h
    refine Prod.ext (funext fun name => ?_) rfl
    cases hp : a.options name with
    | none =>
      have hnone : ∀ s, (a.obey s vs).options name = none := fun _ => hp
      simp only [seen, getOption, hasOption, hnone]
    | some p =>
      refine Prod.ext ?_ ?_
      · exact (getOption_obey hp).trans (h name p hp ▸ (getOption_obey hp).symm)
      · exact (hasOption_obey hp).trans (h name p hp ▸ (hasOption_obey hp).symm)

end Read

/-! ### The two spellings -/

/-- **The two spellings come to the same**: what comes before the pair or after it is rejected,
or the whole second spelling is the name of an option with a value, which is the same option, or
both options have the value anyway or are given another one later. -/
def SpelledAlike (a : ArgParser) (pre rest : List Bytes) (o v : Bytes) : Prop :=
  ∀ s vs s' vs', a.Says pre s vs → a.Says rest s' vs' →
    ∃ q, a.options (o ++ equals :: v) = some q ∧ (a.record q).hasValue = true ∧
      ∀ p, a.options o = some p → p = q ∨
        ∀ r, r = p ∨ r = q → r ∈ s'.map Prod.fst ∨ a.valueAfter s r = v

section Spellings

variable {getenv : Bytes → Option Bytes} {a : ArgParser} {f : ℕ → Bytes} {p q r : ℕ}
  {s s' : List (ℕ × Bytes)} {args pre rest vs vs' : List Bytes} {o v : Bytes}

/-- Where a setting is seen: unless there is a later one, or the value is there already. -/
theorem settle_cons_eq_iff :
    settle f ((r, v) :: s) r = settle f s r ↔ r ∈ s.map Prod.fst ∨ f r = v := by
  rw [settle_cons]
  by_cases hr : r ∈ s.map Prod.fst
  · exact ⟨fun _ => .inl hr, fun _ => settle_of_mem hr⟩
  · rw [settle_of_not_mem hr, settle_of_not_mem hr, Function.update_self]
    exact ⟨fun h => .inr h.symm, fun h => (h.resolve_left hr).symm⟩

/-- A setting of another record is not seen. -/
theorem settle_cons_ne (h : r ≠ p) : settle f ((p, v) :: s) r = settle f s r := by
  rw [settle_cons]
  by_cases hr : r ∈ s.map Prod.fst
  · exact settle_of_mem hr
  · rw [settle_of_not_mem hr, settle_of_not_mem hr, Function.update_of_ne h]

/-- Setting one record or another to a value. -/
theorem settle_swap_iff (hpq : p ≠ q) :
    (∀ r, r = p ∨ r = q → settle f ((p, v) :: s) r = settle f ((q, v) :: s) r) ↔
      ∀ r, r = p ∨ r = q → r ∈ s.map Prod.fst ∨ f r = v := by
  refine forall_congr' fun r => imp_congr_right fun hr => ?_
  rcases hr with rfl | rfl
  · rw [settle_cons_ne hpq, settle_cons_eq_iff]
  · rw [settle_cons_ne hpq.symm, eq_comm, settle_cons_eq_iff]

theorem valueAfter_append : a.valueAfter (s ++ s') = settle (a.valueAfter s) s' := settle_append

/-- The outcome, if the arguments say something. -/
theorem outcome_parse (h : Says a args s vs) (command : Bytes) :
    outcome (a.parse command args) = some (a.obey s vs).seen := by
  have htable : SameTable { a with command := command } a := ⟨rfl, fun _ => rfl⟩
  rw [ArgParser.parse, h.parseArgs htable]
  rfl

theorem outcome_parse_eq_none (h : ¬ ∃ s vs, Says a args s vs) (command : Bytes) :
    outcome (a.parse command args) = none := by
  cases hr : a.parse command args with
  | error => rfl
  | ok b =>
    obtain ⟨s, vs, hs, -⟩ := parseArgs_eq_ok_iff.mp hr
    have htable : SameTable { a with command := command } a := ⟨rfl, fun _ => rfl⟩
    exact absurd ⟨s, vs, htable.transfer hs⟩ h

end Spellings

/-- **When the two spellings of an option with a value come to the same**, in every vector of
arguments, for every table. -/
theorem spellings_iff (getenv : Bytes → Option Bytes) {a : ArgParser} (ha : Built getenv a)
    (command o v : Bytes) (pre rest : List Bytes) {p : ℕ} (hpos : a.endsInOption pre = false)
    (hp : a.options o = some p) (hvalue : (a.record p).hasValue = true) (heq : equals ∉ o) :
    outcome (a.parse command (pre ++ o :: v :: rest)) =
        outcome (a.parse command (pre ++ (o ++ equals :: v) :: rest)) ↔
      a.SpelledAlike pre rest o v := by
  have hminus : o.head? = some minus := ha.head_name o (by simp [hp])
  have hfirst : ∀ {s vs s' vs'}, Says a pre s vs → Says a rest s' vs' →
      Says a (pre ++ o :: v :: rest) (s ++ (p, v) :: s') (vs ++ vs') := fun hs hs' =>
    hs.append ((pair_iff hminus heq hp hvalue).mpr ⟨_, rfl, hs'⟩)
  have hsecond : ∀ {q s vs s' vs'}, a.options (o ++ equals :: v) = some q →
      (a.record q).hasValue = true → Says a pre s vs → Says a rest s' vs' →
      Says a (pre ++ (o ++ equals :: v) :: rest) (s ++ (q, v) :: s') (vs ++ vs') :=
    fun hq hqv hs hs' =>
      hs.append ((equals_iff hminus heq).mpr ⟨_, _, hq, hqv, rfl, hs'⟩)
  constructor
  · intro h s vs s' vs' hs hs'
    rw [outcome_parse (hfirst hs hs')] at h
    by_cases hmean : ∃ t ws, Says a (pre ++ (o ++ equals :: v) :: rest) t ws
    · obtain ⟨t, ws, ht⟩ := hmean
      obtain ⟨-, -, t', ws', -, ht', -, -⟩ := ht.split hpos
      obtain ⟨q, -, hq, hqv, -, -⟩ := (equals_iff hminus heq).mp ht'
      refine ⟨q, hq, hqv, fun p' hp' => ?_⟩
      obtain rfl := Option.some.inj (hp.symm.trans hp')
      by_cases hpq : p = q
      · exact .inl hpq
      · rw [outcome_parse (hsecond hq hqv hs hs'), Option.some.injEq, seen_obey_eq_iff] at h
        refine .inr ((settle_swap_iff hpq).mp fun r hr => ?_)
        rw [← valueAfter_append, ← valueAfter_append]
        rcases hr with rfl | rfl
        · exact h o r hp
        · exact h _ r hq
    · rw [outcome_parse_eq_none hmean] at h
      cases h
  · intro h
    by_cases hmean : (∃ s vs, Says a pre s vs) ∧ ∃ s vs, Says a rest s vs
    · obtain ⟨⟨s, vs, hs⟩, s', vs', hs'⟩ := hmean
      obtain ⟨q, hq, hqv, hsame⟩ := h s vs s' vs' hs hs'
      rw [outcome_parse (hfirst hs hs'), outcome_parse (hsecond hq hqv hs hs'), Option.some.injEq,
        seen_obey_eq_iff]
      intro name r _
      rw [valueAfter_append, valueAfter_append]
      by_cases hpq : p = q
      · rw [hpq]
      · by_cases hr : r = p ∨ r = q
        · exact (settle_swap_iff hpq).mpr ((hsame p hp).resolve_left hpq) r hr
        · rw [not_or] at hr
          rw [settle_cons_ne hr.1, settle_cons_ne hr.2]
    · -- neither spelling is accepted
      rw [outcome_parse_eq_none, outcome_parse_eq_none]
      · rintro ⟨t, ws, ht⟩
        obtain ⟨_, _, t', ws', hs, ht', -, -⟩ := ht.split hpos
        obtain ⟨q, s', -, -, -, hs'⟩ := (equals_iff hminus heq).mp ht'
        exact hmean ⟨⟨_, _, hs⟩, _, _, hs'⟩
      · rintro ⟨t, ws, ht⟩
        obtain ⟨_, _, t', ws', hs, ht', -, -⟩ := ht.split hpos
        obtain ⟨s', -, hs'⟩ := (pair_iff hminus heq hp hvalue).mp ht'
        exact hmean ⟨⟨_, _, hs⟩, _, _, hs'⟩

namespace Sample

/-- The table of the option `-x`, which is set by nothing in the environment. -/
def table : ArgParser := ArgParser.new.insertNew (ascii ['-', 'x']) ⟨[], ascii ['d'], true⟩

theorem built_table : Built (fun _ => none) table := by
  have hname : (ascii ['-', 'x']).head? = some minus := by decide
  have hadd : ArgParser.new.addOption (fun _ => none) (ascii ['-', 'x']) (ascii ['d']) =
    .ok table := rfl
  exact .addOption .new hname hadd

end Sample

/-- The arguments `-x f`. -/
theorem spellings_iff_sample :
    outcome (Sample.table.parse [] ([] ++ ascii ['-', 'x'] :: ascii ['f'] :: [])) =
        outcome (Sample.table.parse [] ([] ++ (ascii ['-', 'x'] ++ equals :: ascii ['f']) :: [])) ↔
      Sample.table.SpelledAlike [] [] (ascii ['-', 'x']) (ascii ['f']) :=
  spellings_iff (fun _ => none) Sample.built_table [] _ _ [] [] (p := 0) rfl (by decide) (by decide)
    (by decide)

/-- `-x=f` is an unknown option. -/
theorem spellings_differ : ¬ ∀ (getenv : Bytes → Option Bytes) (a : ArgParser), Built getenv a →
    ∀ (command o v : Bytes) (pre rest : List Bytes) (p : ℕ), a.endsInOption pre = false →
      a.options o = some p → (a.record p).hasValue = true → equals ∉ o →
      outcome (a.parse command (pre ++ o :: v :: rest)) =
        outcome (a.parse command (pre ++ (o ++ equals :: v) :: rest)) := by
  intro h
  have hsame := h (fun _ => none) Sample.table Sample.built_table [] (ascii ['-', 'x'])
    (ascii ['f']) [] [] 0 rfl (by decide) (by decide) (by decide)
  exact absurd (congrArg Option.isSome hsame) (by decide)

/-- If no name has a `=`, the second spelling is rejected, always. -/
theorem parse_equals_eq_none {a : ArgParser} (command o v : Bytes) (pre rest : List Bytes)
    (hpos : a.endsInOption pre = false) (hminus : o.head? = some minus) (heq : equals ∉ o)
    (hnames : ∀ name, (a.options name).isSome → equals ∉ name) :
    outcome (a.parse command (pre ++ (o ++ equals :: v) :: rest)) = none := by
  refine outcome_parse_eq_none ?_ command
  rintro ⟨t, ws, ht⟩
  obtain ⟨-, -, t', ws', -, ht', -, -⟩ := ht.split hpos
  obtain ⟨q, s', hq, -⟩ := (equals_iff hminus heq).mp ht'
  exact hnames _ (Option.isSome_of_mem hq) (List.mem_append_right _ List.mem_cons_self)

end ArgParser

end Fstree
