import Fstree.Lookup

/-!
# What an unprivileged user may do

A path is looked up in one directory after the other, and each has to be one that the user may
search; to put an entry into a directory or to take one out of it he must also be able to write it,
and the permissions of a node are set by its owner only (`Fstree.FileOp.Permitted`). All that is in
the destination belongs to the user, so that the bits of the owner count. What is elsewhere he may
search, and nothing else.

A system that goes by these rules denies a call exactly when it is not permitted on the disk as it
is by then (`Fstree.OS.Posix`). Along a straight path, the directories above it count
(`Fstree.Straight.reachable_iff`).
-/

namespace Fstree

open Codec

/-- `S_IRUSR`, `S_IWUSR` and `S_IXUSR`. -/
def ownerRead : ℕ := 0o400

@[inherit_doc ownerRead] def ownerWrite : ℕ := 0o200

@[inherit_doc ownerRead] def ownerSearch : ℕ := 0o100

namespace Disk

/-- The owner of the node at `p` has all these bits. -/
def Grants (d : Disk) (bits : ℕ) (p : List Name) : Prop :=
  (d.get p).any (fun n => n.status.perms.val &&& bits = bits) = true

/-- The user may look names up in a directory. -/
def MaySearch (d : Disk) (root p : List Name) : Prop := root <+: p → d.Grants ownerSearch p

/-- The user may write the file or the directory at `p`. -/
def MayWrite (d : Disk) (root p : List Name) : Prop := root <+: p ∧ d.Grants ownerWrite p

/-- The user may list and empty all directories at and below `p` in which there is something. -/
def MayEmpty (d : Disk) (p : List Name) : Prop :=
  ∀ e ∈ d.entries, p <+: e.1 → d.readdir e.1 ≠ [] →
    d.Grants (ownerRead ||| ownerWrite ||| ownerSearch) e.1

/-- The directories in which `walk` looks a name up. -/
def walkDirs (d : Disk) (follow : Bool) (jump : List Name → List Bytes → List (List Name)) :
    List Name → List Bytes → List (List Name)
  | _, [] => []
  | cur, c :: rest =>
    if c = [] then d.walkDirs follow jump cur rest
    else if c = [dot] then cur :: d.walkDirs follow jump cur rest
    else if c = [dot, dot] then cur :: d.walkDirs follow jump cur.dropLast rest
    else
      match Name.ofBytes c with
      | none => [cur]
      | some n =>
        match d.get (cur ++ [n]) with
        | none | some (.file ..) => [cur]
        | some (.dir ..) => cur :: d.walkDirs follow jump (cur ++ [n]) rest
        | some (.symlink _ target) =>
          if rest = [] ∧ follow = false ∨ target = [] then [cur]
          else cur :: jump (if target.head? = some slash then [] else cur)
            (target.splitOn slash ++ rest)

/-- The directories in which `resolve` looks a name up. -/
def resolveDirs (d : Disk) (follow : Bool) : ℕ → List Name → List Bytes → List (List Name)
  | 0 => d.walkDirs follow fun _ _ => []
  | links + 1 => d.walkDirs follow (d.resolveDirs follow links)

/-- **The directories that a lookup searches.** -/
def searched (d : Disk) (follow : Bool) (p : Bytes) : List (List Name) :=
  d.resolveDirs follow 40 [] (p.splitOn slash)

/-- The user may search all of them. -/
def Reachable (d : Disk) (root : List Name) (follow : Bool) (p : Bytes) : Prop :=
  ∀ q ∈ d.searched follow p, d.MaySearch root q

end Disk

namespace FileOp

/-- Whether a call follows a symlink at the end of the path. -/
def follows : FileOp → Bool
  | removeAll _ | remove _ | createSymlink .. | createDirectory _ => false
  | permissions .. | copyFile .. => true

/-- Whether a call makes what is not there. -/
def creates : FileOp → Bool
  | createSymlink .. | createDirectory _ | copyFile .. => true
  | removeAll _ | remove _ | permissions .. => false

/-- The user may do to what is at `q` what the call does to it. -/
def MayChange (root : List Name) (d : Disk) (q : List Name) : FileOp → Prop
  | removeAll _ => d.MayWrite root q.dropLast ∧ d.MayEmpty q
  | remove _ => d.MayWrite root q.dropLast
  -- these change nothing that is there
  | createSymlink .. | createDirectory _ => True
  | permissions .. => root <+: q
  | copyFile .. => d.MayWrite root q

/-- **The user may make the call.** -/
def Permitted (root : List Name) (d : Disk) (op : FileOp) : Prop :=
  d.Reachable root op.follows op.path ∧
    match d.lookup op.follows op.path with
    | .ok (.at q) => op.MayChange root d q
    | .ok (.absent dir _) => op.creates = true → d.MayWrite root dir
    | .error _ => True

end FileOp

/-- The disk after these calls. -/
def Disk.replay (os : OS) (st : Store) (d : Disk) (log : List FileOp) : Disk :=
  log.zipIdx.foldl (fun d x =>
    match x.1.effect os st (os.clock x.2) d with
    | .ok d' => d'
    | .error _ => d) d

/-- **The system goes by the permissions** in a run that makes these calls. -/
def OS.Posix (os : OS) (st : Store) (root : List Name) (d : Disk) (log : List FileOp) : Prop :=
  ∀ k op, log[k]? = some op →
    (os.denies k = true ↔ ¬ op.Permitted root (d.replay os st (log.take k)))

/-! ### Deciding -/

section Decidable

variable (d : Disk) (root p : List Name) (bits : ℕ) (follow : Bool) (path : Bytes) (op : FileOp)

instance : Decidable (d.Grants bits p) := inferInstanceAs (Decidable (_ = true))

instance : Decidable (d.MaySearch root p) := inferInstanceAs (Decidable (_ → _))

instance : Decidable (d.MayWrite root p) := inferInstanceAs (Decidable (_ ∧ _))

instance : Decidable (d.MayEmpty p) := inferInstanceAs (Decidable (∀ e ∈ d.entries, _ → _ → _))

instance : Decidable (d.Reachable root follow path) :=
  inferInstanceAs (Decidable (∀ q ∈ d.searched follow path, d.MaySearch root q))

instance : Decidable (op.MayChange root d p) :=
  match op with
  | .removeAll _ => inferInstanceAs (Decidable (_ ∧ _))
  | .remove _ | .copyFile .. => inferInstanceAs (Decidable (Disk.MayWrite ..))
  | .createSymlink .. | .createDirectory _ => inferInstanceAs (Decidable True)
  | .permissions .. => inferInstanceAs (Decidable (root <+: p))

instance : Decidable (op.Permitted root d) :=
  @instDecidableAnd _ _ inferInstance <|
    match d.lookup op.follows op.path with
    | .ok (.at q) => inferInstanceAs (Decidable (op.MayChange root d q))
    | .ok (.absent dir _) => inferInstanceAs (Decidable (_ = true → d.MayWrite root dir))
    | .error _ => inferInstanceAs (Decidable True)

end Decidable

/-! ### Straight paths -/

section Straight

variable {d d' : Disk} {root p q ns : List Name} {n : Name} {node : Node} {bits : ℕ}
  {follow : Bool} {perms : Fin 512} {target source : Bytes}

namespace Disk

theorem grants_iff : d.Grants bits p ↔
    ∃ node, d.get p = some node ∧ node.status.perms.val &&& bits = bits := by
  rw [Grants, Option.any_eq_true]
  simp

/-- The mtime of a directory does not matter. -/
theorem grants_iff_view : d.Grants bits p ↔
    ∃ node, d.view p = some node ∧ node.status.perms.val &&& bits = bits := by
  rw [grants_iff]
  constructor
  · rintro ⟨node, hget, hbits⟩
    exact ⟨_, view_of_get hget, by rwa [Node.status_touched]⟩
  · rintro ⟨node, hview, hbits⟩
    obtain ⟨m, hget, rfl⟩ := get_of_view hview
    exact ⟨m, hget, by rwa [Node.status_touched] at hbits⟩

theorem grants_congr (h : d'.view p = d.view p) : d'.Grants bits p ↔ d.Grants bits p := by
  rw [grants_iff_view, grants_iff_view, h]

/-- To have some bits and others is to have both. -/
theorem and_or_eq_iff {x a b : ℕ} : x &&& (a ||| b) = a ||| b ↔ x &&& a = a ∧ x &&& b = b := by
  constructor
  · intro h
    have hself : ∀ a b : ℕ, (a ||| b) &&& a = a := fun a b => by
      refine Nat.eq_of_testBit_eq fun i => ?_
      rw [Nat.testBit_and, Nat.testBit_or]
      cases a.testBit i <;> simp
    have hsub : ∀ c, (a ||| b) &&& c = c → x &&& c = c := fun c hc => by
      calc x &&& c = x &&& ((a ||| b) &&& c) := by rw [hc]
        _ = (a ||| b) &&& c := by rw [← Nat.and_assoc, h]
        _ = c := hc
    exact ⟨hsub a (hself a b), hsub b (Nat.or_comm a b ▸ hself b a)⟩
  · rintro ⟨ha, hb⟩
    rw [Nat.and_or_distrib_left, ha, hb]

theorem grants_or {a b : ℕ} : d.Grants (a ||| b) p ↔ d.Grants a p ∧ d.Grants b p := by
  simp only [grants_iff, and_or_eq_iff]
  constructor
  · rintro ⟨node, hget, ha, hb⟩
    exact ⟨⟨node, hget, ha⟩, node, hget, hb⟩
  · rintro ⟨⟨node, hget, ha⟩, node', hget', hb⟩
    obtain rfl := Option.some.inj (hget.symm.trans hget')
    exact ⟨node, hget, ha, hb⟩

/-- **One name of a path** is looked up in one directory. -/
theorem walkDirs_name {jump : List Name → List Bytes → List (List Name)} {rest : List Bytes}
    (hn : n.Plain) : d.walkDirs follow jump p (n.bytes :: rest) =
      match d.get (p ++ [n]) with
      | none | some (.file ..) => [p]
      | some (.dir ..) => p :: d.walkDirs follow jump (p ++ [n]) rest
      | some (.symlink _ target) =>
        if rest = [] ∧ follow = false ∨ target = [] then [p]
        else p :: jump (if target.head? = some slash then [] else p)
          (target.splitOn slash ++ rest) := by
  have hname : Name.ofBytes n.bytes = some n := Name.ofBytes_bytes n
  rw [walkDirs, if_neg n.ne_nil, if_neg hn.1, if_neg hn.2]
  generalize Name.ofBytes n.bytes = m at hname
  subst hname
  rfl

/-- **Each directory on the way** is searched for the next one. -/
theorem mem_walkDirs {jump : List Name → List Bytes → List (List Name)} {rest : List Bytes}
    (hd : d.Closed) (hns : ∀ n ∈ ns, n.Plain) (h : d.IsDir (p ++ ns)) :
    q ∈ d.walkDirs follow jump p (ns.map Name.bytes ++ rest) ↔
      (∃ ks ls, ls ≠ [] ∧ ns = ks ++ ls ∧ q = p ++ ks) ∨
        q ∈ d.walkDirs follow jump (p ++ ns) rest := by
  induction ns generalizing p with
  | nil =>
    rw [List.append_nil, List.map_nil, List.nil_append]
    refine (or_iff_right ?_).symm
    rintro ⟨ks, ls, hls, he, -⟩
    exact hls (List.append_eq_nil_iff.mp he.symm).2
  | cons n ns ih =>
    obtain ⟨hn, hns⟩ := List.forall_mem_cons.mp hns
    have happ : p ++ n :: ns = p ++ [n] ++ ns := by simp
    rw [happ] at h ⊢
    obtain ⟨node, hnode, hdir⟩ := hd.isDir_prefix h
    have hwalk : d.walkDirs follow jump p (n.bytes :: (ns.map Name.bytes ++ rest)) =
        p :: d.walkDirs follow jump (p ++ [n]) (ns.map Name.bytes ++ rest) := by
      rw [walkDirs_name hn, hnode]
      cases node with
      | dir => rfl
      | _ => cases hdir
    rw [List.map_cons, List.cons_append, hwalk, List.mem_cons, ih hns h, ← or_assoc]
    refine or_congr_left ⟨?_, ?_⟩
    · rintro (rfl | ⟨ks, ls, hls, rfl, rfl⟩)
      · exact ⟨[], n :: ns, List.cons_ne_nil _ _, rfl, (List.append_nil _).symm⟩
      · exact ⟨n :: ks, ls, hls, rfl, by simp⟩
    · rintro ⟨ks, ls, hls, he, rfl⟩
      cases ks with
      | nil => exact Or.inl (List.append_nil _)
      | cons k ks =>
        obtain ⟨rfl, rfl⟩ := List.cons.inj he
        exact Or.inr ⟨ks, ls, hls, rfl, by simp⟩

/-- The directories from the destination down to this one can be searched. -/
def Open (d : Disk) (root ns : List Name) : Prop := ∀ q, q <+: ns → d.MaySearch root q

end Disk

namespace Straight

/-- **The directories above a straight path** are searched. -/
theorem mem_searched (hs : Straight d ns n)
    (hlink : ∀ node, d.get (ns ++ [n]) = some node → node.isLink = true → follow = false) :
    q ∈ d.searched follow (absPath (ns ++ [n])) ↔ q <+: ns := by
  obtain ⟨jump, hjump⟩ : ∃ jump, d.resolveDirs follow 40 = d.walkDirs follow jump := ⟨_, rfl⟩
  have hlast : d.walkDirs follow jump ns [n.bytes] = [ns] := by
    rw [Disk.walkDirs_name hs.name]
    cases hget : d.get (ns ++ [n]) with
    | none => rfl
    | some node =>
      cases node with
      | file => rfl
      | dir => rfl
      | symlink t target => exact if_pos (Or.inl ⟨rfl, hlink _ hget rfl⟩)
  have hempty : d.walkDirs follow jump [] ([] :: (ns ++ [n]).map Name.bytes) =
      d.walkDirs follow jump [] (ns.map Name.bytes ++ [n.bytes]) := by
    rw [Disk.walkDirs, if_pos rfl, List.map_append]
    rfl
  rw [Disk.searched, hjump, Disk.splitOn_absPath (by simp), hempty,
    Disk.mem_walkDirs (p := []) hs.closed hs.plain hs.isDir, List.nil_append, hlast,
    List.mem_singleton]
  constructor
  · rintro (⟨ks, ls, -, rfl, rfl⟩ | rfl)
    · exact ⟨ls, rfl⟩
    · exact List.prefix_rfl
  · rintro ⟨ls, rfl⟩
    by_cases hls : ls = []
    · exact Or.inr (by simp [hls])
    · exact Or.inl ⟨q, ls, hls, rfl, rfl⟩

theorem reachable_iff (hs : Straight d ns n)
    (hlink : ∀ node, d.get (ns ++ [n]) = some node → node.isLink = true → follow = false) :
    d.Reachable root follow (absPath (ns ++ [n])) ↔ d.Open root ns :=
  forall_congr' fun _ => imp_congr_left (hs.mem_searched hlink)

section Absent

variable (hs : Straight d ns n) (hget : d.get (ns ++ [n]) = none)
include hs hget

/-- **What makes something where there is nothing** needs a directory that can be written. -/
theorem permitted_of_absent {op : FileOp} (hpath : op.path = absPath (ns ++ [n])) :
    op.Permitted root d ↔ d.Open root ns ∧ (op.creates = true → d.MayWrite root ns) := by
  have hlink : ∀ node, d.get (ns ++ [n]) = some node → node.isLink = true → op.follows = false :=
    fun node hnode => by rw [hget] at hnode; cases hnode
  rw [FileOp.Permitted, hpath, hs.reachable_iff hlink, hs.lookup_none hget]

end Absent

/-- The owner sets the permissions of what he has made. -/
theorem permitted_permissions (hs : Straight d ns n) (hget : d.get (ns ++ [n]) = some node)
    (hlink : node.isLink = false) :
    (FileOp.permissions (absPath (ns ++ [n])) perms).Permitted root d ↔
      d.Open root ns ∧ root <+: ns ++ [n] := by
  have hlink' : ∀ m, d.get (ns ++ [n]) = some m → m.isLink = true →
      (FileOp.permissions (absPath (ns ++ [n])) perms).follows = false := fun m hm hl => by
    obtain rfl := Option.some.inj (hget.symm.trans hm)
    rw [hlink] at hl
    cases hl
  have hlook : d.lookup true (absPath (ns ++ [n])) = .ok (.at (ns ++ [n])) :=
    hs.lookup_some hget (Or.inl hlink)
  rw [FileOp.Permitted, FileOp.path, hs.reachable_iff hlink', FileOp.follows, hlook]
  rfl

end Straight

end Straight

/-! ### Replaying calls -/

section Replay

variable {os : OS} {st : Store} {d : Disk} {log : List FileOp} {op : FileOp}

theorem Disk.replay_concat : d.replay os st (log ++ [op]) =
    match op.effect os st (os.clock log.length) (d.replay os st log) with
    | .ok d' => d'
    | .error _ => d.replay os st log := by
  rw [replay, List.zipIdx_append, List.foldl_append]
  simp only [Nat.zero_add, List.zipIdx_cons, List.zipIdx_nil, List.foldl_cons, List.foldl_nil]
  rfl

end Replay

end Fstree
