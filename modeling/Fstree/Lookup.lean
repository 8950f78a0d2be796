import Fstree.Model.FileSystem
import Mathlib.Data.List.Induction

/-!
# Where paths lead, and what calls change

On a disk whose entries stand in directories (`Fstree.Disk.Closed`) the path of a directory
leads to this directory, and the path of a name in it to its entry
(`Fstree.Disk.lookup_of_isDir`, `Fstree.Disk.lookup_concat`). Any other path leads where the
path without its last name leads, and from there one name further
(`Fstree.Disk.lookup_false_concat`): what stands at its end is not followed.

A call changes one entry, and the mtime of the directory it is in. What a disk looks like but
for these mtimes is its **view** (`Fstree.Disk.view`). Along a straight path, each call changes
the view at this path only.
-/

namespace Fstree

open Codec

namespace Disk

variable {d : Disk} {follow : Bool} {p q ns : List Name} {n : Name} {node : Node} {t : Time}

/-! ### Closed disks -/

/-- **A closed disk**: what is there stands in a directory. -/
structure Closed (d : Disk) : Prop where
  root : d.IsDir []
  parent : ∀ p n, d.get (p ++ [n]) ≠ none → d.IsDir p

theorem WellFormed.closed' (hd : d.WellFormed) : d.Closed := ⟨hd.root, hd.closed⟩

theorem IsDir.get_ne_none (h : d.IsDir p) : d.get p ≠ none := by
  obtain ⟨n, hn, -⟩ := h
  simp [hn]

/-- What is above an entry is a directory. -/
theorem Closed.isDir_above (hd : d.Closed) (hq : q ≠ []) (h : d.get (p ++ q) ≠ none) :
    d.IsDir p := by
  induction q using List.reverseRecOn with
  | nil => exact absurd rfl hq
  | append_singleton q n ih =>
    have hpq : d.IsDir (p ++ q) := hd.parent _ n (by simpa using h)
    by_cases hnil : q = []
    · simpa [hnil] using hpq
    · exact ih hnil hpq.get_ne_none

theorem Closed.isDir_prefix (hd : d.Closed) (h : d.IsDir (p ++ q)) : d.IsDir p := by
  by_cases hq : q = []
  · simpa [hq] using h
  · exact hd.isDir_above hq h.get_ne_none

theorem Closed.isDir_dropLast (hd : d.Closed) (h : d.IsDir p) : d.IsDir p.dropLast := by
  rcases List.eq_nil_or_concat' p with rfl | ⟨p, n, rfl⟩
  · exact h
  · rw [List.dropLast_concat]
    exact hd.isDir_prefix h

/-- There is nothing below what is no directory. -/
theorem Closed.nothing_below (hd : d.Closed) (h : ¬ d.IsDir p) (hq : q ≠ []) :
    d.get (p ++ q) = none := by
  by_contra hne
  exact h (hd.isDir_above hq hne)

/-- There is nothing below an empty directory. -/
theorem Closed.nothing_below_empty (hd : d.Closed) (h : d.readdir p = []) (hq : q ≠ []) :
    d.get (p ++ q) = none := by
  obtain ⟨n, q, rfl⟩ := List.exists_cons_of_ne_nil hq
  have hn : d.get (p ++ [n]) = none := by
    by_contra hne
    have hmem := mem_readdir.mpr hne
    rw [h] at hmem
    cases hmem
  by_cases hnil : q = []
  · rw [hnil, hn]
  · by_contra hne
    rw [show p ++ n :: q = p ++ [n] ++ q by simp] at hne
    exact (hd.isDir_above hnil hne).get_ne_none hn

/-! ### Looking up -/

theorem splitOn_absPath (hp : p ≠ []) : (absPath p).splitOn slash = [] :: p.map Name.bytes := by
  have hnames : ∀ c ∈ p.map Name.bytes, slash ∉ c := by
    rintro c hc
    obtain ⟨n, -, rfl⟩ := List.mem_map.mp hc
    exact n.slash_notMem
  have h := List.splitOn_append_cons_self [] (pathStr p) (a := slash)
  rw [List.nil_append, pathStr, List.splitOn_intercalate _ hnames (by simpa using hp)] at h
  simpa [absPath, pathStr] using h

/-- **One name of a path.** -/
theorem walk_name {jump : List Name → List Bytes → Except Errno Place} {rest : List Bytes}
    (hn : n.Plain) : d.walk follow jump p (n.bytes :: rest) =
      match d.get (p ++ [n]) with
      | none => if rest = [] then .ok (.absent p n) else .error .noent
      | some (.dir ..) => d.walk follow jump (p ++ [n]) rest
      | some (.file ..) => if rest = [] then .ok (.at (p ++ [n])) else .error .notdir
      | some (.symlink _ target) =>
        if rest = [] ∧ follow = false then .ok (.at (p ++ [n]))
        else if target = [] then .error .noent
        else jump (if target.head? = some slash then [] else p) (target.splitOn slash ++ rest) := by
  have hname : Name.ofBytes n.bytes = some n := Name.ofBytes_bytes n
  rw [walk, if_neg (by simp [n.ne_nil, hn.1]), if_neg hn.2]
  generalize Name.ofBytes n.bytes = m at hname
  subst hname
  rfl

/-- **The names of directories are walked through.** -/
theorem walk_dirs {jump : List Name → List Bytes → Except Errno Place} {rest : List Bytes}
    (hd : d.Closed) (hns : ∀ n ∈ ns, n.Plain) (h : d.IsDir (p ++ ns)) :
    d.walk follow jump p (ns.map Name.bytes ++ rest) = d.walk follow jump (p ++ ns) rest := by
  induction ns generalizing p with
  | nil => simp
  | cons n ns ih =>
    obtain ⟨hn, hns⟩ := List.forall_mem_cons.mp hns
    have happ : p ++ n :: ns = p ++ [n] ++ ns := by simp
    rw [happ] at h
    obtain ⟨node, hnode, hdir⟩ := hd.isDir_prefix h
    rw [List.map_cons, List.cons_append, walk_name hn, hnode, happ]
    cases node with
    | dir => exact ih hns h
    | _ => cases hdir

theorem walk_empty {jump : List Name → List Bytes → Except Errno Place} {rest : List Bytes} :
    d.walk follow jump p ([] :: rest) = d.walk follow jump p rest := by
  rw [walk, if_pos (Or.inl rfl)]

theorem resolve_eq (links : ℕ) : ∃ jump, d.resolve follow links = d.walk follow jump := by
  cases links with
  | zero => exact ⟨_, rfl⟩
  | succ links => exact ⟨_, rfl⟩

/-- **The path of a directory leads to it.** -/
theorem lookup_of_isDir (hd : d.Closed) (hns : ∀ n ∈ ns, n.Plain) (h : d.IsDir ns) :
    d.lookup follow (absPath ns) = .ok (.at ns) := by
  obtain ⟨jump, hjump⟩ : ∃ jump, d.resolve follow 40 = d.walk follow jump := resolve_eq 40
  rw [lookup, hjump]
  by_cases hnil : ns = []
  · subst hnil
    rfl
  · have hwalk : d.walk follow jump [] (ns.map Name.bytes ++ []) = d.walk follow jump ns [] :=
      walk_dirs (p := []) hd hns h
    rw [List.append_nil] at hwalk
    rw [splitOn_absPath hnil, walk_empty, hwalk]
    rfl

/-- **A name in a directory**: the lookup goes on from its entry. -/
theorem lookup_concat (hd : d.Closed) (hns : ∀ n ∈ ns, n.Plain) (hn : n.Plain) (h : d.IsDir ns) :
    (d.get (ns ++ [n]) = none → d.lookup follow (absPath (ns ++ [n])) = .ok (.absent ns n)) ∧
    (∀ node, d.get (ns ++ [n]) = some node → node.isLink = false ∨ follow = false →
      d.lookup follow (absPath (ns ++ [n])) = .ok (.at (ns ++ [n]))) := by
  obtain ⟨jump, hjump⟩ : ∃ jump, d.resolve follow 40 = d.walk follow jump := resolve_eq 40
  have hwalk : d.lookup follow (absPath (ns ++ [n])) = d.walk follow jump ns [n.bytes] := by
    rw [lookup, hjump, splitOn_absPath (by simp), walk_empty, List.map_append]
    exact walk_dirs hd hns h
  rw [hwalk, walk_name hn]
  refine ⟨fun hnone => by rw [hnone]; rfl, fun node hnode hfollow => ?_⟩
  rw [hnode]
  cases node with
  | file => rfl
  | dir => rfl
  | symlink t target =>
    have hf : follow = false := hfollow.resolve_left (by simp [Node.isLink])
    simp [hf]

/-- From where a path leads, one name further; what is found is not followed. -/
def lastStep (d : Disk) (n : Name) : Place → Except Errno Place
  | .at dir =>
    if d.IsDir dir then
      if d.get (dir ++ [n]) = none then .ok (.absent dir n) else .ok (.at (dir ++ [n]))
    else .error .notdir
  | .absent .. => .error .noent

/-- A walk and a name behind it. -/
theorem walk_concat (hd : d.Closed) (hn : n.Plain)
    {jump jump' : List Name → List Bytes → Except Errno Place}
    (hjump : ∀ p cs, d.IsDir p → jump p (cs ++ [n.bytes]) = (jump' p cs).bind (d.lastStep n))
    (hp : d.IsDir p) (cs : List Bytes) :
    d.walk false jump p (cs ++ [n.bytes]) = (d.walk true jump' p cs).bind (d.lastStep n) := by
  induction cs generalizing p with
  | nil =>
    rw [List.nil_append, walk_name hn]
    change _ = d.lastStep n (.at p)
    rw [lastStep, if_pos hp]
    cases hget : d.get (p ++ [n]) with
    | none => rfl
    | some node => cases node <;> rfl
  | cons c cs ih =>
    rw [List.cons_append, walk, walk]
    by_cases hdot : c = [] ∨ c = [dot]
    · rw [if_pos hdot, if_pos hdot]
      exact ih hp
    rw [if_neg hdot, if_neg hdot]
    by_cases hdots : c = [dot, dot]
    · rw [if_pos hdots, if_pos hdots]
      exact ih (hd.isDir_dropLast hp)
    rw [if_neg hdots, if_neg hdots]
    cases Name.ofBytes c with
    | none => rfl
    | some m =>
      have hne : cs ++ [n.bytes] ≠ [] := by simp
      simp only
      cases hget : d.get (p ++ [m]) with
      | none =>
        simp only [hne, if_false]
        by_cases hcs : cs = []
        · rw [if_pos hcs]
          rfl
        · rw [if_neg hcs]
          rfl
      | some node =>
        cases node with
        | dir perms t size => exact ih ⟨_, hget, rfl⟩
        | file perms t content =>
          have hfile : ¬ d.IsDir (p ++ [m]) := by
            rintro ⟨node, hnode, hdir⟩
            rw [hget] at hnode
            cases hnode
            cases hdir
          simp only [hne, if_false]
          by_cases hcs : cs = []
          · rw [if_pos hcs]
            exact (if_neg hfile).symm
          · rw [if_neg hcs]
            rfl
        | symlink t target =>
          simp only [hne, false_and, if_false, Bool.true_eq_false, and_false]
          by_cases htarget : target = []
          · rw [if_pos htarget, if_pos htarget]
            rfl
          · rw [if_neg htarget, if_neg htarget, ← List.append_assoc]
            by_cases hhead : target.head? = some slash
            · rw [if_pos hhead]
              exact hjump _ _ hd.root
            · rw [if_neg hhead]
              exact hjump _ _ hp

theorem resolve_concat (hd : d.Closed) (hn : n.Plain) (links : ℕ) (hp : d.IsDir p)
    (cs : List Bytes) : d.resolve false links p (cs ++ [n.bytes]) =
      (d.resolve true links p cs).bind (d.lastStep n) := by
  induction links generalizing p cs with
  | zero => exact walk_concat hd hn (fun _ _ _ => rfl) hp cs
  | succ links ih => exact walk_concat hd hn (fun _ cs hp => ih hp cs) hp cs

/-- **A path leads where the path without its last name leads**, and one name further. -/
theorem lookup_false_concat (hd : d.Closed) (hn : n.Plain) (ns : List Name) :
    d.lookup false (absPath (ns ++ [n])) = (d.lookup true (absPath ns)).bind (d.lastStep n) := by
  rw [lookup, lookup, splitOn_absPath (by simp), List.map_append, ← List.cons_append]
  rw [List.map_singleton, resolve_concat hd hn 40 hd.root]
  by_cases hnil : ns = []
  · subst hnil
    rfl
  · rw [splitOn_absPath hnil]

/-- The first name on a way down that is no directory. -/
theorem Closed.exists_first (hp : d.IsDir p) (h : ¬ d.IsDir (p ++ ns)) :
    ∃ ks n ls, ns = ks ++ n :: ls ∧ d.IsDir (p ++ ks) ∧ ¬ d.IsDir (p ++ (ks ++ [n])) := by
  induction ns using List.reverseRecOn with
  | nil => exact absurd (by simpa using hp) h
  | append_singleton ns n ih =>
    by_cases hns : d.IsDir (p ++ ns)
    · exact ⟨ns, n, [], rfl, hns, h⟩
    · obtain ⟨ks, k, ls, rfl, hk, hno⟩ := ih hns
      exact ⟨ks, k, ls ++ [n], by simp, hk, hno⟩

/-- **A path that leads to a directory and is none goes through a symlink.** -/
theorem Closed.exists_link (hd : d.Closed) (hp : d.IsDir p) (hplain : ∀ n ∈ p ++ ns, n.Plain)
    (hno : ¬ d.IsDir (p ++ ns)) (h : d.lookup true (absPath (p ++ ns)) = .ok (.at q))
    (hq : d.IsDir q) : ∃ ks n ls node, ns = ks ++ n :: ls ∧ d.get (p ++ (ks ++ [n])) = some node ∧
      node.isLink = true := by
  obtain ⟨ks, n, ls, rfl, hks, hn⟩ := exists_first hp hno
  obtain ⟨jump, hjump⟩ : ∃ jump, d.resolve true 40 = d.walk true jump := resolve_eq 40
  have hdirs : ∀ m ∈ p ++ ks, m.Plain := fun m hm => hplain m (by
    rw [← List.append_assoc]
    exact List.mem_append_left _ hm)
  have hwalk : d.walk true jump [] ((p ++ ks).map Name.bytes ++ n.bytes :: ls.map Name.bytes) =
      d.walk true jump (p ++ ks) (n.bytes :: ls.map Name.bytes) :=
    walk_dirs (p := []) hd hdirs hks
  have hmap : (p ++ (ks ++ n :: ls)).map Name.bytes =
      (p ++ ks).map Name.bytes ++ n.bytes :: ls.map Name.bytes := by simp
  rw [lookup, hjump, splitOn_absPath (by simp), walk_empty, hmap, hwalk,
    walk_name (hplain n (by simp)), List.append_assoc] at h
  refine ⟨ks, n, ls, ?_⟩
  cases hget : d.get (p ++ (ks ++ [n])) with
  | none =>
    rw [hget] at h
    simp only at h
    split_ifs at h
    cases h
  | some node =>
    refine ⟨node, rfl, rfl, ?_⟩
    cases node with
    | symlink => rfl
    | dir => exact absurd ⟨_, hget, rfl⟩ hn
    | file =>
      rw [hget] at h
      simp only at h
      split_ifs at h
      rw [← Place.at.inj (Except.ok.inj h)] at hq
      exact absurd hq hn

end Disk

/-! ### What a disk looks like -/

namespace Node

variable {t t' : Time} {perms : Fin 512}

@[simp] theorem touched_touched (n : Node) : (n.touched t).touched t' = n.touched t' := by
  cases n <;> rfl

@[simp] theorem touched_chmod (n : Node) :
    (n.chmod perms).touched t = (n.touched t).chmod perms := by
  cases n <;> rfl

@[simp] theorem chmod_chmod (n : Node) {perms' : Fin 512} :
    (n.chmod perms).chmod perms' = n.chmod perms' := by
  cases n <;> rfl

theorem chmod_of_isLink {n : Node} (h : n.isLink = true) : n.chmod perms = n := by
  cases n with
  | symlink => rfl
  | _ => cases h

@[simp] theorem isDir_touched (n : Node) : (n.touched t).isDir = n.isDir := by cases n <;> rfl

@[simp] theorem isDir_chmod (n : Node) : (n.chmod perms).isDir = n.isDir := by cases n <;> rfl

@[simp] theorem isLink_touched (n : Node) : (n.touched t).isLink = n.isLink := by cases n <;> rfl

@[simp] theorem isLink_chmod (n : Node) : (n.chmod perms).isLink = n.isLink := by cases n <;> rfl

@[simp] theorem status_touched (n : Node) : (n.touched t).status = n.status := by cases n <;> rfl

@[simp] theorem target_touched (n : Node) : (n.touched t).target = n.target := by cases n <;> rfl

@[simp] theorem target_chmod (n : Node) : (n.chmod perms).target = n.target := by cases n <;> rfl

@[simp] theorem content_touched (n : Node) : (n.touched t).content = n.content := by cases n <;> rfl

@[simp] theorem content_chmod (n : Node) : (n.chmod perms).content = n.content := by cases n <;> rfl

@[simp] theorem type_chmod (n : Node) : (n.chmod perms).status.type = n.status.type := by
  cases n <;> rfl

theorem perms_chmod {n : Node} (h : n.isLink = false) : (n.chmod perms).status.perms = perms := by
  cases n with
  | symlink => cases h
  | _ => rfl

/-- All symlinks have the same permissions. -/
theorem perms_of_isLink {n : Node} (h : n.isLink = true) : n.status.perms = symlinkPerms := by
  cases n with
  | symlink => rfl
  | _ => cases h

end Node

namespace Disk

variable {d d' : Disk} {p q ns dir : List Name} {n : Name} {node : Node} {t : Time}

/-- **The view of a disk**: what stands at each physical path, but for the mtimes of
directories. -/
def view (d : Disk) (p : List Name) : Option Node := (d.get p).map (Node.touched 0)

theorem view_eq_none : d.view p = none ↔ d.get p = none := Option.map_eq_none_iff

theorem view_of_get (h : d.get p = some node) : d.view p = some (node.touched 0) := by
  rw [view, h]
  rfl

/-- What is seen is there, with some mtime. -/
theorem get_of_view (h : d.view p = some node) : ∃ m, d.get p = some m ∧ m.touched 0 = node :=
  Option.map_eq_some_iff.mp h

/-- A file is what the view shows. -/
theorem view_eq_file {perms : Fin 512} {content : Bytes} :
    d.view q = some (.file perms t content) ↔ d.get q = some (.file perms t content) := by
  constructor
  · intro hv
    obtain ⟨m, hget, hm⟩ := get_of_view hv
    rw [hget]
    cases m <;> first | exact congrArg some hm | cases hm
  · exact fun hget => view_of_get hget

theorem isDir_iff_view : d.IsDir p ↔ ∃ node, d.view p = some node ∧ node.isDir = true := by
  constructor
  · rintro ⟨node, hget, hdir⟩
    exact ⟨_, view_of_get hget, by simpa using hdir⟩
  · rintro ⟨node, hview, hdir⟩
    obtain ⟨m, hget, rfl⟩ := get_of_view hview
    exact ⟨m, hget, by simpa using hdir⟩

theorem view_touch : (d.touch p t).view = d.view := by
  funext q
  rw [view, get_touch]
  split_ifs
  · simp [view, Function.comp_def]
  · rfl

theorem view_set : (d.set p node).view = Function.update d.view p (some (node.touched 0)) := by
  funext q
  rw [view, get_set]
  by_cases h : q = p
  · subst h
    simp
  · rw [if_neg h, Function.update_of_ne h]
    rfl

theorem view_create :
    (d.create dir n t node).view = Function.update d.view (dir ++ [n]) (some (node.touched 0)) := by
  rw [create, view_touch, view_set]

/-- A view without what is at a path and below it. -/
def without (v : List Name → Option Node) (p : List Name) : List Name → Option Node :=
  fun q => if p <+: q then none else v q

theorem view_delete : (d.delete p t).view = without d.view p := by
  rw [delete, view_touch]
  funext q
  rw [view, get_erase, without]
  split_ifs <;> rfl

/-- Whether a disk is closed can be seen. -/
theorem closed_iff_view : d.Closed ↔ d.IsDir [] ∧ ∀ p n, d.view (p ++ [n]) ≠ none → d.IsDir p :=
  ⟨fun h => ⟨h.root, fun p n hv => h.parent p n (mt view_eq_none.mpr hv)⟩,
    fun h => ⟨h.1, fun p n hg => h.2 p n (mt view_eq_none.mp hg)⟩⟩

theorem isDir_congr (h : d'.view p = d.view p) : d'.IsDir p ↔ d.IsDir p := by
  rw [isDir_iff_view, isDir_iff_view, h]

/-- **An entry is put into a directory**, or changed into one of the same kind. -/
theorem Closed.update (hd : d.Closed) (hv : d'.view = Function.update d.view p (some node))
    (hp : p = [] ∨ ∃ dir n, p = dir ++ [n] ∧ d.IsDir dir)
    (hkind : d.IsDir p → node.isDir = true) : d'.Closed := by
  have hdir : ∀ q, d.IsDir q → d'.IsDir q := fun q hq => by
    by_cases h : q = p
    · subst h
      exact isDir_iff_view.mpr ⟨node, by rw [hv, Function.update_self], hkind hq⟩
    · exact (isDir_congr (by rw [hv, Function.update_of_ne h])).mpr hq
  rw [closed_iff_view]
  refine ⟨hdir [] hd.root, fun q n hne => hdir q ?_⟩
  by_cases h : q ++ [n] = p
  · rcases hp with hp | ⟨dir, m, hp, hdir⟩
    · rw [hp] at h
      simp at h
    · rw [hp] at h
      obtain ⟨rfl, -⟩ := List.append_inj' h rfl
      exact hdir
  · rw [hv, Function.update_of_ne h] at hne
    exact hd.parent q n (mt view_eq_none.mpr hne)

/-- **Something is removed.** -/
theorem Closed.without (hd : d.Closed) (hv : d'.view = without d.view p) (hp : p ≠ []) :
    d'.Closed := by
  have hdir : ∀ q, ¬ p <+: q → d.IsDir q → d'.IsDir q := fun q hpq hq =>
    (isDir_congr (by rw [hv, Disk.without, if_neg hpq])).mpr hq
  rw [closed_iff_view]
  refine ⟨hdir [] (by simpa using hp) hd.root, fun q n hne => ?_⟩
  rw [hv, Disk.without] at hne
  split_ifs at hne with hpq
  · exact absurd rfl hne
  · refine hdir q (fun h => hpq (h.trans (List.prefix_append q [n]))) ?_
    exact hd.parent q n (mt view_eq_none.mpr hne)

/-- An empty entry is removed alone. -/
theorem without_eq_update (hd : d.Closed) (h : d.readdir p = []) :
    without d.view p = Function.update d.view p none := by
  funext q
  rw [without]
  by_cases hq : q = p
  · subst hq
    simp
  · rw [Function.update_of_ne hq]
    split_ifs with hpq
    · obtain ⟨r, rfl⟩ := hpq
      have hr : r ≠ [] := by
        rintro rfl
        simp at hq
      exact (view_eq_none.mpr (hd.nothing_below_empty h hr)).symm
    · rfl

end Disk

/-! ### What calls change -/

section Effect

variable {os : OS} {st : Store} {t : Time} {d d' : Disk} {ns : List Name} {n : Name} {node : Node}
  {perms : Fin 512} {target source : Bytes}

/-- **`remove_all`** does nothing, or it removes what the name is in the directory to which the
path leads. -/
theorem removeAll_cases (hd : d.Closed) (hn : n.Plain)
    (h : (FileOp.removeAll (absPath (ns ++ [n]))).effect os st t d = .ok d') :
    (d' = d ∧ ∀ dir, d.lookup true (absPath ns) = .ok (.at dir) → d.IsDir dir →
      d.get (dir ++ [n]) = none) ∨
    ∃ dir, d.lookup true (absPath ns) = .ok (.at dir) ∧ d.IsDir dir ∧
      d'.view = Disk.without d.view (dir ++ [n]) := by
  have hlook := Disk.lookup_false_concat hd hn ns
  rw [FileOp.effect] at h
  cases hl : d.lookup true (absPath ns) with
  | error e =>
    rw [hl, Except.bind] at hlook
    rw [hlook] at h
    refine Or.inl ⟨?_, by rintro _ ⟨⟩⟩
    cases e <;> first | exact (Except.ok.inj h).symm | cases h
  | ok place =>
    rw [hl, Except.bind] at hlook
    rw [hlook] at h
    cases place with
    | absent dir m => exact Or.inl ⟨(Except.ok.inj h).symm, by rintro _ ⟨⟩⟩
    | «at» dir =>
      rw [Disk.lastStep] at h
      by_cases hdir : d.IsDir dir
      · rw [if_pos hdir] at h
        by_cases hget : d.get (dir ++ [n]) = none
        · rw [if_pos hget] at h
          refine Or.inl ⟨(Except.ok.inj h).symm, ?_⟩
          rintro _ ⟨⟩ -
          exact hget
        · rw [if_neg hget] at h
          obtain rfl := Except.ok.inj h
          exact Or.inr ⟨dir, rfl, hdir, Disk.view_delete⟩
      · rw [if_neg hdir] at h
        refine Or.inl ⟨(Except.ok.inj h).symm, ?_⟩
        rintro _ ⟨⟩ hdir'
        exact absurd hdir' hdir

/-- **A straight path**: of a name in a directory. -/
structure Straight (d : Disk) (ns : List Name) (n : Name) : Prop where
  closed : d.Closed
  plain : ∀ m ∈ ns, m.Plain
  name : n.Plain
  isDir : d.IsDir ns

namespace Straight

variable (hs : Straight d ns n)
include hs

theorem lookup_none {follow : Bool} (h : d.get (ns ++ [n]) = none) :
    d.lookup follow (absPath (ns ++ [n])) = .ok (.absent ns n) :=
  (Disk.lookup_concat hs.closed hs.plain hs.name hs.isDir).1 h

theorem lookup_some {follow : Bool} (h : d.get (ns ++ [n]) = some node)
    (hf : node.isLink = false ∨ follow = false) :
    d.lookup follow (absPath (ns ++ [n])) = .ok (.at (ns ++ [n])) :=
  (Disk.lookup_concat hs.closed hs.plain hs.name hs.isDir).2 node h hf

/-- A node is put at the end of the path. -/
theorem closed_update (hv : d'.view = Function.update d.view (ns ++ [n]) (some node))
    (hkind : d.IsDir (ns ++ [n]) → node.isDir = true) : d'.Closed :=
  hs.closed.update hv (Or.inr ⟨ns, n, rfl, hs.isDir⟩) hkind

theorem removeAll (h : (FileOp.removeAll (absPath (ns ++ [n]))).effect os st t d = .ok d') :
    d'.view = Disk.without d.view (ns ++ [n]) := by
  have hl : d.lookup true (absPath ns) = .ok (.at ns) :=
    Disk.lookup_of_isDir hs.closed hs.plain hs.isDir
  rcases removeAll_cases hs.closed hs.name h with ⟨rfl, hnone⟩ | ⟨dir, hdir, -, hv⟩
  · have hget := hnone ns hl hs.isDir
    funext q
    rw [Disk.without]
    split_ifs with hq
    · obtain ⟨r, rfl⟩ := hq
      rw [Disk.view_eq_none]
      by_cases hr : r = []
      · rw [hr, List.append_nil, hget]
      · exact hs.closed.nothing_below (fun hd => hd.get_ne_none hget) hr
    · rfl
  · rw [hl] at hdir
    obtain rfl := (Place.at.inj (Except.ok.inj hdir)).symm
    exact hv

theorem remove (h : (FileOp.remove (absPath (ns ++ [n]))).effect os st t d = .ok d') :
    d'.view = Function.update d.view (ns ++ [n]) none ∧
      Disk.without d.view (ns ++ [n]) = Function.update d.view (ns ++ [n]) none := by
  rw [FileOp.effect] at h
  cases hget : d.get (ns ++ [n]) with
  | none =>
    rw [hs.lookup_none hget] at h
    have hempty : d.readdir (ns ++ [n]) = [] := by
      rw [List.eq_nil_iff_forall_not_mem]
      intro m hm
      exact Disk.mem_readdir.mp hm
        (hs.closed.nothing_below (fun hd => hd.get_ne_none hget) (List.cons_ne_nil m []))
    refine ⟨?_, Disk.without_eq_update hs.closed hempty⟩
    rw [← Except.ok.inj h, ← Disk.view_eq_none.mpr hget, Function.update_eq_self]
  | some node =>
    rw [hs.lookup_some hget (Or.inr rfl)] at h
    simp only at h
    split_ifs at h with hempty
    · have hwithout := Disk.without_eq_update hs.closed hempty
      refine ⟨?_, hwithout⟩
      rw [← Except.ok.inj h, Disk.view_delete, hwithout]

theorem createSymlink
    (h : (FileOp.createSymlink target (absPath (ns ++ [n]))).effect os st t d = .ok d') :
    d'.view = Function.update d.view (ns ++ [n]) (some (.symlink t target)) := by
  rw [FileOp.effect] at h
  cases hget : d.get (ns ++ [n]) with
  | none =>
    rw [hs.lookup_none hget] at h
    simp only at h
    split_ifs at h
    rw [← Except.ok.inj h, Disk.view_create]
    rfl
  | some node =>
    rw [hs.lookup_some hget (Or.inr rfl)] at h
    cases h

theorem createDirectory (hlink : ∀ node, d.get (ns ++ [n]) = some node → node.isLink = false)
    (h : (FileOp.createDirectory (absPath (ns ++ [n]))).effect os st t d = .ok d') :
    ∃ node, node.isDir = true ∧ d'.view = Function.update d.view (ns ++ [n]) (some node) := by
  rw [FileOp.effect] at h
  cases hget : d.get (ns ++ [n]) with
  | none =>
    rw [hs.lookup_none hget] at h
    refine ⟨.dir os.dirPerms 0 0, rfl, ?_⟩
    rw [← Except.ok.inj h, Disk.view_create]
    rfl
  | some node =>
    rw [hs.lookup_some hget (Or.inr rfl)] at h
    simp only [hs.lookup_some hget (Or.inl (hlink node hget))] at h
    split_ifs at h with hdir
    obtain ⟨node', hget', hdir'⟩ := hdir
    rw [hget] at hget'
    obtain rfl := Option.some.inj hget'
    refine ⟨node.touched 0, by simpa using hdir', ?_⟩
    rw [← Except.ok.inj h, ← Disk.view_of_get hget, Function.update_eq_self]

theorem permissions (hget : d.get (ns ++ [n]) = some node) (hlink : node.isLink = false)
    (h : (FileOp.permissions (absPath (ns ++ [n])) perms).effect os st t d = .ok d') :
    d'.view = Function.update d.view (ns ++ [n]) (some ((node.chmod perms).touched 0)) := by
  rw [FileOp.effect, hs.lookup_some hget (Or.inl hlink)] at h
  simp only [hget] at h
  rw [← Except.ok.inj h, Disk.view_set]

theorem copyFile (hget : d.get (ns ++ [n]) = none)
    (h : (FileOp.copyFile source (absPath (ns ++ [n]))).effect os st t d = .ok d') :
    ∃ content, st source = some content ∧ d'.view =
      Function.update d.view (ns ++ [n]) (some (.file os.filePerms t content)) := by
  rw [FileOp.effect, hs.lookup_none hget] at h
  cases hst : st source with
  | none =>
    rw [hst] at h
    cases h
  | some content =>
    rw [hst] at h
    refine ⟨content, rfl, ?_⟩
    rw [← Except.ok.inj h, Disk.view_create]
    rfl

end Straight

/-- **`permissions` changes the permissions of one node**, wherever the path leads. -/
theorem permissions_cases {p : Bytes}
    (h : (FileOp.permissions p perms).effect os st t d = .ok d') :
    ∃ q node, d.view q = some node ∧
      d'.view = Function.update d.view q (some (node.chmod perms)) := by
  rw [FileOp.effect] at h
  split at h
  · rename_i q _
    split at h
    · rename_i node hget
      refine ⟨q, node.touched 0, Disk.view_of_get hget, ?_⟩
      rw [← Except.ok.inj h, Disk.view_set, Node.touched_chmod]
    · cases h
  · cases h
  · cases h

end Effect

end Fstree
