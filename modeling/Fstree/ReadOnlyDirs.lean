import Fstree.FreshCheckout
import Fstree.Permission

/-!
# Checking out directories that cannot be written

`index::checkout_node` gives a directory its permissions as soon as it has made it. What is in the
directory comes later in the order of the paths, and is then made in a directory that has the
permissions it has in the index. A user whom these permissions bind can check an index out into an
empty directory if each directory of the index with something in it lets its owner write and search
it, and only then (`Fstree.checkout_permitted_iff`).
-/

namespace Fstree

open Codec SortedBy Effect

/-! ### Calls of a run that goes by the permissions -/

section Calls

variable {os : OS} {st : Store} {root : List Name} {d₀ : Disk} {L M : List FileOp} {w w' : World}
  {what : String} {path : Bytes} {op : FileOp} {u : Unit}

theorem log_call : (final (call os st what path op w)).log = w.log ++ [op] := by
  rw [call]
  split <;> rfl

/-- A call is logged behind those that were made before. -/
theorem ensures_log_call :
    Ensures (fun w => M <+: w.log) (fun _ => True) (call os st what path op) := by
  intro w hw
  have hlog : M <+: (final (call os st what path op w)).log := by
    rw [log_call]
    exact hw.trans (List.prefix_append _ _)
  exact ⟨hlog, fun _ _ _ => trivial⟩

/-- **The parts of a block** make a part of its calls. -/
theorem log_prefix_of_bind {α β : Type} {m : CheckoutM α} {f : α → CheckoutM β}
    (hf : ∀ a M, Ensures (fun w => M <+: w.log) (fun _ => True) (f a))
    (h : (final ((m >>= f) w)).log <+: L) :
    (final (m w)).log <+: L ∧ ∀ a w₁, m w = .ok a w₁ → (final (f a w₁)).log <+: L := by
  rw [bind_apply] at h
  cases hm : m w with
  | ok a w₁ =>
    rw [hm] at h
    refine ⟨(((hf a w₁.log) w₁ List.prefix_rfl).1).trans h, ?_⟩
    rintro _ _ ⟨⟩
    exact h
  | error e w₁ =>
    rw [hm] at h
    exact ⟨h, nofun⟩

/-- **A run so far**: the system goes by the permissions in all calls `L` of the run, and the disk
is what those made so far have left. -/
structure Along (os : OS) (st : Store) (root : List Name) (d₀ : Disk) (L : List FileOp)
    (w : World) : Prop where
  posix : os.Posix st root d₀ L
  disk_eq : w.disk = d₀.replay os st w.log

namespace Along

variable (h : Along os st root d₀ L w)
include h

/-- **A call returns** if it is permitted and has an effect, and only then. -/
theorem call_iff (hL : (final (call os st what path op w)).log <+: L) :
    (∃ w', call os st what path op w = .ok () w') ↔ op.Permitted root w.disk ∧
      ∃ d', op.effect os st (os.clock w.log.length) w.disk = .ok d' := by
  rw [log_call] at hL
  obtain ⟨rest, hrest⟩ := hL
  have hop : L[w.log.length]? = some op := by simp [← hrest]
  have htake : L.take w.log.length = w.log := by simp [← hrest]
  have hdenies := h.posix _ _ hop
  rw [htake, ← h.disk_eq] at hdenies
  by_cases hp : op.Permitted root w.disk
  · have hno : os.denies w.log.length = false := Bool.eq_false_iff.mpr fun hd => hdenies.mp hd hp
    rw [call]
    simp only [hno, Bool.false_eq_true, if_false, hp, true_and]
    cases op.effect os st (os.clock w.log.length) w.disk with
    | ok d' => exact ⟨fun _ => ⟨d', rfl⟩, fun _ => ⟨_, rfl⟩⟩
    | error e =>
      constructor
      · rintro ⟨_, ⟨⟩⟩
      · rintro ⟨_, ⟨⟩⟩
  · have hyes : os.denies w.log.length = true := hdenies.mpr hp
    rw [call]
    simp only [hyes, if_true, hp, false_and, iff_false]
    rintro ⟨_, ⟨⟩⟩

theorem call_ok (hL : (final (call os st what path op w)).log <+: L)
    (hp : op.Permitted root w.disk) (he : ∀ t, ∃ d', op.effect os st t w.disk = .ok d') :
    ∃ w', call os st what path op w = .ok () w' :=
  (h.call_iff hL).mpr ⟨hp, he _⟩

theorem permitted (hL : (final (call os st what path op w)).log <+: L)
    (hc : call os st what path op w = .ok u w') : op.Permitted root w.disk :=
  ((h.call_iff hL).mp ⟨w', hc⟩).1

/-- The run goes on. -/
theorem next (hc : call os st what path op w = .ok u w') : Along os st root d₀ L w' := by
  refine ⟨h.posix, ?_⟩
  have hlog : w'.log = w.log ++ [op] := by
    have hfinal : (final (call os st what path op w)).log = w.log ++ [op] := log_call
    rwa [hc] at hfinal
  rw [hlog, Disk.replay_concat, ← h.disk_eq]
  rw [call] at hc
  split at hc
  · rename_i d' heffect
    split_ifs at heffect
    rw [heffect]
    cases hc
    rfl
  · cases hc

end Along

end Calls

/-! ### Making one inode -/

section Node

variable {os : OS} {st : Store} {root : List Name} {d₀ d d' : Disk} {L : List FileOp}
  {w w₁ w' : World} {ns : List Name} {n : Name} {i i' : Inode} {what what' : String}
  {path : Bytes} {op : FileOp} {u u' : Unit}

/-- What is above the end of a path does not depend on it. -/
theorem Disk.open_congr (hv : ∀ q, q <+: ns → d'.view q = d.view q) :
    d'.Open root ns ↔ d.Open root ns :=
  forall_congr' fun q => forall_congr' fun hq => forall_congr' fun _ =>
    Disk.grants_congr (hv q hq)

theorem Disk.mayWrite_congr (hv : d'.view ns = d.view ns) :
    d'.MayWrite root ns ↔ d.MayWrite root ns :=
  and_congr_right fun _ => Disk.grants_congr hv

/-- **Something can be made in a directory**: it can be written, and it and those above it can be
searched. -/
structure Disk.Admits (d : Disk) (root ns : List Name) : Prop where
  isOpen : d.Open root ns
  write : d.MayWrite root ns

theorem Disk.Admits.congr {o : Option Node} (h : d.Admits root ns)
    (hv : d'.view = Function.update d.view (ns ++ [n]) o) : d'.Admits root ns := by
  have hview : ∀ q, q <+: ns → d'.view q = d.view q := fun q hq => by
    rw [hv, Function.update_of_ne]
    rintro rfl
    have hle := hq.length_le
    simp at hle
  exact ⟨(Disk.open_congr hview).mpr h.isOpen,
    (Disk.mayWrite_congr (hview ns List.prefix_rfl)).mpr h.write⟩

/-- Where nothing stands, `remove` changes nothing. -/
theorem Straight.removed_of_absent {t : Time} (hs : Straight d ns n)
    (hnone : d.get (ns ++ [n]) = none)
    (h : (FileOp.remove (absPath (ns ++ [n]))).effect os st t d = .ok d') :
    Straight d' ns n ∧ d'.get (ns ++ [n]) = none ∧ d'.view = d.view := by
  obtain ⟨hs', hnone', hv⟩ := hs.removed h
  exact ⟨hs', hnone', by rw [hv, ← Disk.view_eq_none.mpr hnone, Function.update_eq_self]⟩

namespace Along

variable (h : Along os st root d₀ L w)
include h

/-- **What is made where nothing stands** needs a directory that admits it. -/
theorem admits_of_create (hs : Straight w.disk ns n) (hnone : w.disk.get (ns ++ [n]) = none)
    (hop : op.path = absPath (ns ++ [n])) (hcreates : op.creates = true)
    (hL : (final (call os st what path op w)).log <+: L)
    (hc : call os st what path op w = .ok u w') : w.disk.Admits root ns := by
  obtain ⟨hopen, hwrite⟩ := (hs.permitted_of_absent hnone hop).mp (h.permitted hL hc)
  exact ⟨hopen, hwrite hcreates⟩

/-- So it does after `remove`, which finds nothing. -/
theorem admits_of_remove_create (hs : Straight w.disk ns n)
    (hnone : w.disk.get (ns ++ [n]) = none)
    (hop : op.path = absPath (ns ++ [n])) (hcreates : op.creates = true)
    (h₁ : call os st what path (.remove (absPath (ns ++ [n]))) w = .ok u w₁)
    (hL : (final (call os st what' path op w₁)).log <+: L)
    (h₂ : call os st what' path op w₁ = .ok u' w') : w.disk.Admits root ns := by
  obtain ⟨t, he⟩ := effect_of_call h₁
  obtain ⟨hs₁, hnone₁, hv₁⟩ := hs.removed_of_absent hnone he
  have hadmits := (h.next h₁).admits_of_create hs₁ hnone₁ hop hcreates hL h₂
  exact ⟨(Disk.open_congr fun q _ => congrFun hv₁ q).mp hadmits.isOpen,
    (Disk.mayWrite_congr (congrFun hv₁ ns)).mp hadmits.write⟩

/-- **An inode that was made** has a target if it is a symlink, and its directory admits it. -/
theorem admits_of_makeNode (hL : (final (makeNode os st root i w)).log <+: L)
    (hs : Straight w.disk ns n) (hpath : fullPath root i = absPath (ns ++ [n]))
    (hnone : w.disk.get (ns ++ [n]) = none) (htype : i.status.type ≠ .none)
    (hm : makeNode os st root i w = .ok u w') :
    w.disk.Admits root ns ∧ (i.isSymlink = true → i.target ≠ []) := by
  rw [makeNode, hpath] at hL hm
  by_cases hsym : i.isSymlink = true
  · rw [if_pos hsym] at hL hm
    obtain ⟨_, w₁, h₁, h₂⟩ := bind_eq_ok.mp hm
    obtain ⟨hL₁, hL₂⟩ := log_prefix_of_bind (fun _ _ => ensures_log_call) hL
    refine ⟨h.admits_of_remove_create hs hnone rfl rfl h₁ (hL₂ _ _ h₁) h₂, fun _ htarget => ?_⟩
    obtain ⟨t₁, he₁⟩ := effect_of_call h₁
    obtain ⟨t₂, he₂⟩ := effect_of_call h₂
    obtain ⟨hs₁, hnone₁, -⟩ := hs.removed_of_absent hnone he₁
    rw [FileOp.effect, hs₁.lookup_none hnone₁] at he₂
    simp [htarget] at he₂
  rw [if_neg hsym] at hL hm
  refine ⟨?_, fun hsym' => absurd hsym' hsym⟩
  by_cases hdir : i.isDirectory = true
  · rw [if_pos hdir] at hL hm
    obtain ⟨_, w₁, h₁, -⟩ := bind_eq_ok.mp hm
    obtain ⟨hL₁, -⟩ := log_prefix_of_bind (fun _ _ => ensures_log_call) hL
    exact h.admits_of_create hs hnone rfl rfl hL₁ h₁
  rw [if_neg hdir] at hL hm
  have hfile : i.isFile = true := by
    cases ht : i.status.type with
    | none => exact absurd ht htype
    | regular => simp [Inode.isFile, ht]
    | directory => exact absurd (by simp [Inode.isDirectory, ht]) hdir
    | symlink => exact absurd (by simp [Inode.isSymlink, ht]) hsym
  rw [if_pos hfile] at hL hm
  obtain ⟨_, w₁, h₁, hm⟩ := bind_eq_ok.mp hm
  obtain ⟨_, w₂, h₂, -⟩ := bind_eq_ok.mp hm
  obtain ⟨hL₁, hL₂⟩ :=
    log_prefix_of_bind (fun _ _ => ensures_log_call.bind fun _ _ => ensures_log_call) hL
  obtain ⟨hL₂, -⟩ := log_prefix_of_bind (fun _ _ => ensures_log_call) (hL₂ _ _ h₁)
  exact h.admits_of_remove_create hs hnone rfl rfl h₁ hL₂ h₂

/-- A call returns that makes something where its directory admits it. -/
theorem create_ok (hs : Straight w.disk ns n) (hnone : w.disk.get (ns ++ [n]) = none)
    (hadmits : w.disk.Admits root ns) (hop : op.path = absPath (ns ++ [n]))
    (hL : (final (call os st what path op w)).log <+: L)
    (he : ∀ t, ∃ d', op.effect os st t w.disk = .ok d') :
    ∃ w', call os st what path op w = .ok () w' :=
  h.call_ok hL ((hs.permitted_of_absent hnone hop).mpr ⟨hadmits.isOpen, fun _ => hadmits.write⟩) he

/-- The permissions can be set of what was made. -/
theorem permissions_ok {node : Node} {perms : Fin 512} (hs : Straight w.disk ns n)
    (hget : w.disk.get (ns ++ [n]) = some node) (hlink : node.isLink = false)
    (hopen : w.disk.Open root ns) (hroot : root <+: ns)
    (hL : (final (call os st what path (.permissions (absPath (ns ++ [n])) perms) w)).log <+: L) :
    ∃ w', call os st what path (.permissions (absPath (ns ++ [n])) perms) w = .ok () w' :=
  h.call_ok hL ((hs.permitted_permissions hget hlink).mpr
    ⟨hopen, hroot.trans (List.prefix_append _ _)⟩) (hs.permissions_ok hget hlink)

/-- **An inode can be made** where its directory admits it. -/
theorem makeNode_ok (hL : (final (makeNode os st root i w)).log <+: L)
    (hs : Straight w.disk ns n) (hpath : fullPath root i = absPath (ns ++ [n]))
    (hnone : w.disk.get (ns ++ [n]) = none) (hadmits : w.disk.Admits root ns)
    (htarget : i.isSymlink = true → i.target ≠ [])
    (hobject : i.isFile = true → (st (filePath i.hash)).isSome = true) :
    ∃ w', makeNode os st root i w = .ok () w' := by
  rw [makeNode, hpath] at hL ⊢
  by_cases hsym : i.isSymlink = true
  · rw [if_pos hsym] at hL ⊢
    obtain ⟨hL₁, hL₂⟩ := log_prefix_of_bind (fun _ _ => ensures_log_call) hL
    obtain ⟨w₁, h₁⟩ := h.create_ok hs hnone hadmits rfl hL₁ (hs.remove_ok hnone)
    obtain ⟨t₁, he₁⟩ := effect_of_call h₁
    obtain ⟨hs₁, hnone₁, hv₁⟩ := hs.removed he₁
    obtain ⟨w₂, h₂⟩ := (h.next h₁).create_ok hs₁ hnone₁ (hadmits.congr hv₁) rfl (hL₂ _ _ h₁)
      (hs₁.createSymlink_ok hnone₁ (htarget hsym))
    exact ⟨w₂, bind_eq_ok.mpr ⟨(), w₁, h₁, h₂⟩⟩
  rw [if_neg hsym] at hL ⊢
  by_cases hdir : i.isDirectory = true
  · rw [if_pos hdir] at hL ⊢
    obtain ⟨hL₁, hL₂⟩ := log_prefix_of_bind (fun _ _ => ensures_log_call) hL
    obtain ⟨w₁, h₁⟩ := h.create_ok hs hnone hadmits rfl hL₁ (hs.createDirectory_ok hnone)
    obtain ⟨t₁, he₁⟩ := effect_of_call h₁
    obtain ⟨m, hm, hv₁⟩ := hs.createDirectory (by simp [hnone]) he₁
    have hs₁ := hs.update (hs.closed_update hv₁ fun _ => hm) hv₁
    have hview : w₁.disk.view (ns ++ [n]) = some m := by rw [hv₁, Function.update_self]
    obtain ⟨m₁, hget, rfl⟩ := Disk.get_of_view hview
    have hlink : m₁.isLink = false := by
      cases m₁ <;> first | rfl | cases hm
    obtain ⟨w₂, h₂⟩ := (h.next h₁).permissions_ok hs₁ hget hlink (hadmits.congr hv₁).isOpen
      hadmits.write.1 (hL₂ _ _ h₁)
    exact ⟨w₂, bind_eq_ok.mpr ⟨(), w₁, h₁, h₂⟩⟩
  rw [if_neg hdir] at hL ⊢
  by_cases hfile : i.isFile = true
  · rw [if_pos hfile] at hL ⊢
    obtain ⟨hL₁, hL₂⟩ :=
      log_prefix_of_bind (fun _ _ => ensures_log_call.bind fun _ _ => ensures_log_call) hL
    obtain ⟨w₁, h₁⟩ := h.create_ok hs hnone hadmits rfl hL₁ (hs.remove_ok hnone)
    obtain ⟨t₁, he₁⟩ := effect_of_call h₁
    obtain ⟨hs₁, hnone₁, hv₁⟩ := hs.removed he₁
    have hadmits₁ := hadmits.congr hv₁
    obtain ⟨hL₂, hL₃⟩ := log_prefix_of_bind (fun _ _ => ensures_log_call) (hL₂ _ _ h₁)
    obtain ⟨w₂, h₂⟩ := (h.next h₁).create_ok hs₁ hnone₁ hadmits₁ rfl hL₂
      (hs₁.copyFile_ok hnone₁ (hobject hfile))
    obtain ⟨t₂, he₂⟩ := effect_of_call h₂
    obtain ⟨content, -, hv₂⟩ := hs₁.copyFile hnone₁ he₂
    have hs₂ := hs₁.update (hs₁.closed_update hv₂ fun hd => absurd hnone₁ hd.get_ne_none) hv₂
    have hview : w₂.disk.view (ns ++ [n]) = some (.file os.filePerms t₂ content) := by
      rw [hv₂, Function.update_self]
    have hget := Disk.view_eq_file.mp hview
    obtain ⟨w₃, h₃⟩ := ((h.next h₁).next h₂).permissions_ok hs₂ hget rfl
      (hadmits₁.congr hv₂).isOpen hadmits.write.1 (hL₃ _ _ h₂)
    exact ⟨w₃, bind_eq_ok.mpr ⟨(), w₁, h₁, bind_eq_ok.mpr ⟨(), w₂, h₂, h₃⟩⟩⟩
  · rw [if_neg hfile]
    exact ⟨w, rfl⟩

end Along

end Node

/-! ### The run -/

/-- **An index that stands for a tree**: strictly sorted, with clean paths and the directory of
each. -/
structure IsTree (index : List Inode) : Prop where
  sorted : StrictBy Inode.path index
  clean : ∀ i ∈ index, CleanPath i.path
  parents : HasParents index

/-- **An empty destination** of a user who may search and write it. -/
structure EmptyDest (d : Disk) (root : List Name) : Prop where
  closed : d.Closed
  plain : ∀ n ∈ root, n.Plain
  isDir : d.IsDir root
  empty : d.readdir root = []
  grants : d.Grants (ownerWrite ||| ownerSearch) root

/-- **What has been checked out so far**, with `is` left of the index. -/
structure Laid (d₀ : Disk) (root : List Name) (st : Store) (index is : List Inode) (d : Disk) : Prop
    where
  closed : d.Closed
  root_view : d.view root = d₀.view root
  suffix : is <:+ index
  made : ∀ i ∈ index, i ∉ is → ∀ ns, i.path = pathStr ns →
    ∃ m, d.view (root ++ ns) = some m ∧ i.Made st m
  free : ∀ i ∈ is, ∀ ns, i.path = pathStr ns → d.view (root ++ ns) = none

section Run

variable {os : OS} {st : Store} {root : List Name} {d₀ d : Disk} {L : List FileOp} {w w' : World}
  {ns ks ls : List Name} {n : Name} {i i' j : Inode} {index is l : List Inode} {bits : ℕ}

namespace IsTree

variable (ht : IsTree index)
include ht

theorem exists_above (hk : ks ≠ []) (hl : ls ≠ []) (hi : i ∈ index)
    (hp : i.path = pathStr (ks ++ ls)) : ∃ j ∈ index, j.path = pathStr ks ∧ j.isDirectory = true :=
  exists_above_of_parent ht.parents.parent hk hl hi hp

/-- What is before the next inode is not left. -/
theorem notMem_of_lt (hsuffix : i :: is <:+ index) (hlt : j.path < i.path) : j ∉ i :: is := by
  have hsorted := strictBy_cons.mp (ht.sorted.sublist hsuffix.sublist)
  rintro (_ | ⟨_, hj⟩)
  · exact lt_irrefl _ hlt
  · exact lt_asymm hlt (hsorted.1 j hj)

/-- What is below a directory has something on the way that is directly in it. -/
theorem exists_child (hi : i ∈ index) (hp : i.path = pathStr (ks ++ n :: ls)) :
    ∃ c ∈ index, c.path = pathStr (ks ++ [n]) := by
  by_cases hls : ls = []
  · exact ⟨i, hi, by rw [hp, hls]⟩
  · have hp' : i.path = pathStr (ks ++ [n] ++ ls) := by simp [hp]
    obtain ⟨c, hc, hcp, -⟩ := ht.exists_above (by simp) hls hi hp'
    exact ⟨c, hc, hcp⟩

end IsTree

namespace Laid

/-- Nothing has been checked out. -/
theorem start (hd : EmptyDest d₀ root) (ht : IsTree index) : Laid d₀ root st index index d₀ where
  closed := hd.closed
  root_view := rfl
  suffix := List.suffix_rfl
  made i hi hni := absurd hi hni
  free i hi ns hp := by
    obtain ⟨ms, hne, -, hms⟩ := ht.clean i hi
    obtain rfl : ns = ms := pathStr_injective (hp.symm.trans hms)
    exact Disk.view_eq_none.mpr (hd.closed.nothing_below_empty hd.empty hne)

/-- **The permissions of a directory** that has been checked out are those of the index. -/
theorem grants_iff (h : Laid d₀ root st index is d) (hj : j ∈ index) (hnj : j ∉ is)
    (hp : j.path = pathStr ns) (hdir : j.isDirectory = true) :
    d.Grants bits (root ++ ns) ↔ j.status.perms.val &&& bits = bits := by
  obtain ⟨m, hm, hmade⟩ := h.made j hj hnj ns hp
  have hlink : m.isLink = false := by
    refine Bool.eq_false_iff.mpr fun hl => ?_
    have htype := hmade.type
    rw [Node.status_type_eq_symlink.mpr hl, of_decide_eq_true hdir] at htype
    cases htype
  rw [Disk.grants_iff_view, hm, ← hmade.perms hlink]
  constructor
  · rintro ⟨m', hm', hbits⟩
    rwa [Option.some.inj hm']
  · exact fun hbits => ⟨m, rfl, hbits⟩

/-- **The next path is straight**, and nothing stands at its end. -/
theorem straight (h : Laid d₀ root st index (i :: is) d) (hd : EmptyDest d₀ root)
    (ht : IsTree index) : ∃ ns n, i.path = pathStr (ns ++ [n]) ∧ Straight d (root ++ ns) n ∧
      fullPath root i = absPath (root ++ ns ++ [n]) ∧ d.get (root ++ ns ++ [n]) = none := by
  have hi : i ∈ index := h.suffix.mem (by simp)
  obtain ⟨ms, hne, hplain, hms⟩ := ht.clean i hi
  obtain ⟨ns, n, rfl⟩ := (List.eq_nil_or_concat' ms).resolve_left hne
  refine ⟨ns, n, hms, ⟨h.closed, ?_, hplain n (by simp), ?_⟩, fullPath_snoc hms, ?_⟩
  · exact List.forall_mem_append.mpr
      ⟨hd.plain, fun m hm => hplain m (List.mem_append_left _ hm)⟩
  · rcases ht.parents.parent i hi ns n hms with rfl | ⟨j, hj, hjp, hjd⟩
    · rw [List.append_nil]
      exact (Disk.isDir_congr h.root_view).mpr hd.isDir
    · have hlt : j.path < i.path := by
        rw [hjp, hms]
        exact pathStr_lt_append (by simp)
      obtain ⟨m, hm, hmade⟩ := h.made j hj (ht.notMem_of_lt h.suffix hlt) ns hjp
      refine Disk.isDir_iff_view.mpr ⟨m, hm, ?_⟩
      rw [← Node.status_type_eq_directory, hmade.type]
      exact of_decide_eq_true hjd
  · rw [List.append_assoc]
    exact Disk.view_eq_none.mp (h.free i (by simp) _ hms)

/-- The next inode has been made. -/
theorem made_next (h : Laid d₀ root st index (i :: is) d) (ht : IsTree index) {d' : Disk}
    {m : Node} (hp : i.path = pathStr (ns ++ [n])) (hc : d'.Closed) (hm : i.Made st m)
    (hv : d'.view = Function.update d.view (root ++ ns ++ [n]) (some m)) :
    Laid d₀ root st index is d' := by
  have hi : i ∈ index := h.suffix.mem (by simp)
  rw [List.append_assoc] at hv
  -- at the paths of the others nothing changes
  have hother : ∀ j ∈ index, j ≠ i → ∀ ms, j.path = pathStr ms →
      d'.view (root ++ ms) = d.view (root ++ ms) := fun j hj hji ms hms => by
    rw [hv, Function.update_of_ne]
    intro he
    have hms' : ms = ns ++ [n] := List.append_cancel_left he
    exact hji (eq_of_key_eq ht.sorted.nodup_keys hj hi (by rw [hms, hms', hp]))
  have hsorted := strictBy_cons.mp (ht.sorted.sublist h.suffix.sublist)
  refine ⟨hc, ?_, (List.suffix_cons i is).trans h.suffix, fun j hj hnj ms hms => ?_,
    fun j hj ms hms => ?_⟩
  · rw [hv, Function.update_of_ne (by simp), h.root_view]
  · by_cases hji : j = i
    · obtain rfl : ms = ns ++ [n] := pathStr_injective (hms.symm.trans (hji ▸ hp))
      exact ⟨m, by rw [hv, Function.update_self], hji ▸ hm⟩
    · rw [hother j hj hji ms hms]
      exact h.made j hj (by simp [hji, hnj]) ms hms
  · have hji : j ≠ i := fun he => lt_irrefl _ (he ▸ hsorted.1 j hj)
    rw [hother j (h.suffix.mem (List.mem_cons_of_mem _ hj)) hji ms hms]
    exact h.free j (List.mem_cons_of_mem _ hj) ms hms

end Laid

/-- **A directory of the index can be used**: its owner may write and search it. -/
def Inode.Usable (i : Inode) : Prop :=
  i.status.perms.val &&& (ownerWrite ||| ownerSearch) = ownerWrite ||| ownerSearch

/-- **All directories can be used** in which there is something. -/
def AllUsable (index : List Inode) : Prop :=
  ∀ j ∈ index, j.isDirectory = true → (∃ i ∈ index, j.path ++ [slash] <+: i.path) → j.Usable

namespace Laid

/-- **The directory of the next inode admits it** if all directories can be used. -/
theorem admits (h : Laid d₀ root st index (i :: is) d) (hd : EmptyDest d₀ root)
    (ht : IsTree index) (hus : AllUsable index) (hp : i.path = pathStr (ns ++ [n])) :
    d.Admits root (root ++ ns) := by
  have hi : i ∈ index := h.suffix.mem (by simp)
  have hgrants : ∀ ks ls, ns = ks ++ ls → d.Grants (ownerWrite ||| ownerSearch) (root ++ ks) := by
    rintro ks ls rfl
    by_cases hks : ks = []
    · rw [hks, List.append_nil]
      exact (Disk.grants_congr h.root_view).mpr hd.grants
    · have hp' : i.path = pathStr (ks ++ (ls ++ [n])) := by rw [hp, List.append_assoc]
      obtain ⟨j, hj, hjp, hjd⟩ := ht.exists_above hks (by simp) hi hp'
      have hlt : j.path < i.path := by
        rw [hjp, hp']
        exact pathStr_lt_append (by simp)
      refine (h.grants_iff hj (ht.notMem_of_lt h.suffix hlt) hjp hjd).mpr (hus j hj hjd ⟨i, hi, ?_⟩)
      rw [hjp, hp', pathStr_below hks]
      exact ⟨_, by simp, rfl⟩
  refine ⟨fun q hq hroot => ?_, List.prefix_append _ _,
    (Disk.grants_or.mp (hgrants ns [] (by simp))).1⟩
  obtain ⟨ks, rfl⟩ := hroot
  obtain ⟨ls, rfl⟩ := (List.prefix_append_right_inj root).mp hq
  exact (Disk.grants_or.mp (hgrants ks ls rfl)).2

/-- A directory that admits the next inode can be used. -/
theorem usable_of_admits (h : Laid d₀ root st index (i :: is) d) (ht : IsTree index)
    (hp : i.path = pathStr (ns ++ [n])) (hadmits : d.Admits root (root ++ ns)) (hj : j ∈ index)
    (hjp : j.path = pathStr ns) (hjd : j.isDirectory = true) : j.Usable := by
  have hlt : j.path < i.path := by
    rw [hjp, hp]
    exact pathStr_lt_append (by simp)
  have hgrants : d.Grants (ownerWrite ||| ownerSearch) (root ++ ns) := Disk.grants_or.mpr
    ⟨hadmits.write.2, hadmits.isOpen _ List.prefix_rfl (List.prefix_append _ _)⟩
  exact (h.grants_iff hj (ht.notMem_of_lt h.suffix hlt) hjp hjd).mp hgrants

end Laid

/-- The run goes on after an inode. -/
theorem Along.next_makeNode {u : Unit} (h : Along os st root d₀ L w)
    (hm : makeNode os st root i w = .ok u w') : Along os st root d₀ L w' := by
  rw [makeNode] at hm
  split_ifs at hm
  · obtain ⟨_, w₁, h₁, h₂⟩ := bind_eq_ok.mp hm
    exact (h.next h₁).next h₂
  · obtain ⟨_, w₁, h₁, h₂⟩ := bind_eq_ok.mp hm
    exact (h.next h₁).next h₂
  · obtain ⟨_, w₁, h₁, hm⟩ := bind_eq_ok.mp hm
    obtain ⟨_, w₂, h₂, h₃⟩ := bind_eq_ok.mp hm
    exact ((h.next h₁).next h₂).next h₃
  · obtain rfl : w = w' := (EStateM.Result.ok.inj hm).2
    exact h

theorem ensures_log_checkoutRest {M : List FileOp} :
    Ensures (fun w => M <+: w.log) (fun _ => True) (checkoutRest os st root is) :=
  ensures_checkoutRest_of_call fun _ _ _ _ _ => ensures_log_call

/-- The calls for one inode, and those for the others. -/
theorem log_prefix_of_checkoutRest (hL : (final (checkoutRest os st root (i :: is) w)).log <+: L) :
    (final (makeNode os st root i w)).log <+: L ∧
    ∀ i' w', checkoutNode os st root i w = .ok i' w' →
      (final (checkoutRest os st root is w')).log <+: L := by
  rw [checkoutRest] at hL
  obtain ⟨hnode, hrest⟩ := log_prefix_of_bind
    (fun _ _ => ensures_log_checkoutRest.bind fun _ _ => Ensures.pure trivial) hL
  refine ⟨(log_prefix_of_bind (fun _ _ => ensures_stat.mono fun _ _ => trivial) hnode).1,
    fun i' w' h => ?_⟩
  exact (log_prefix_of_bind (fun _ _ => Ensures.pure trivial) (hrest i' w' h)).1

/-- **What has an inode made has a type**, and a symlink has a target. -/
def Inode.Makeable (i : Inode) : Prop :=
  i.status.type ≠ .none ∧ (i.isSymlink = true → i.target ≠ [])

namespace Laid

/-- **The rest of the index is checked out** if all directories can be used. -/
theorem exists_rest (h : Laid d₀ root st index is w.disk) (hd : EmptyDest d₀ root)
    (ht : IsTree index) (halong : Along os st root d₀ L w) (hus : AllUsable index)
    (hobject : ∀ i ∈ index, i.isFile = true → (st (filePath i.hash)).isSome = true)
    (hmake : ∀ i ∈ index, i.Makeable)
    (hL : (final (checkoutRest os st root is w)).log <+: L) :
    ∃ l w', checkoutRest os st root is w = .ok l w' ∧ Laid d₀ root st index [] w'.disk := by
  induction is generalizing w with
  | nil => exact ⟨[], w, rfl, h⟩
  | cons i is ih =>
    have hi : i ∈ index := h.suffix.mem (by simp)
    obtain ⟨hnode, hrest⟩ := log_prefix_of_checkoutRest hL
    obtain ⟨ns, n, hp, hs, hpath, hnone⟩ := h.straight hd ht
    obtain ⟨htype, htarget⟩ := hmake i hi
    obtain ⟨w₁, h₁⟩ := halong.makeNode_ok hnode hs hpath hnone (h.admits hd ht hus hp) htarget
      (hobject i hi)
    obtain ⟨m, hcheck, hmade, hv⟩ := checkoutNode_of_makeNode (hs.ready hnone hpath) htype h₁
    obtain ⟨_, -, -, hc⟩ := view_of_makeNode (hs.ready hnone hpath) htype h₁
    have hnext := h.made_next ht hp hc (Inode.Made.touched.mpr hmade) hv
    obtain ⟨l, w', h₂, hend⟩ := ih hnext (halong.next_makeNode h₁) (hrest _ _ hcheck)
    refine ⟨{ i with mtime := m.mtime, status := m.status } :: l, w', ?_, hend⟩
    rw [checkoutRest]
    exact bind_eq_ok.mpr ⟨_, w₁, hcheck, bind_eq_ok.mpr ⟨l, w', h₂, rfl⟩⟩

/-- **What has been checked out could be**: the directory of each inode can be used. -/
theorem of_checkoutRest (h : Laid d₀ root st index is w.disk) (hd : EmptyDest d₀ root)
    (ht : IsTree index) (halong : Along os st root d₀ L w)
    (hL : (final (checkoutRest os st root is w)).log <+: L)
    (hr : checkoutRest os st root is w = .ok l w') :
    Laid d₀ root st index [] w'.disk ∧ ∀ i ∈ is, i.Makeable ∧
      ∀ ns n, i.path = pathStr (ns ++ [n]) → ∀ j ∈ index, j.path = pathStr ns →
        j.isDirectory = true → j.Usable := by
  induction is generalizing w l with
  | nil =>
    obtain ⟨-, rfl⟩ := EStateM.Result.ok.inj hr
    exact ⟨h, nofun⟩
  | cons i is ih =>
    obtain ⟨hnode, hrest⟩ := log_prefix_of_checkoutRest hL
    obtain ⟨ns, n, hp, hs, hpath, hnone⟩ := h.straight hd ht
    rw [checkoutRest] at hr
    obtain ⟨i₁, w₁, hcheck, hr⟩ := bind_eq_ok.mp hr
    obtain ⟨l₁, w₂, h₂, hr⟩ := bind_eq_ok.mp hr
    obtain ⟨-, rfl⟩ := EStateM.Result.ok.inj hr
    obtain ⟨m, hmade, -, hv, hc, -⟩ := view_of_checkoutNode (hs.ready hnone hpath) hcheck
    have htype : i.status.type ≠ .none := fun he => by
      have hm := hmade.type.trans he
      cases m <;> cases hm
    obtain ⟨_, w₁', h₁, hstat⟩ := bind_eq_ok.mp hcheck
    obtain ⟨rfl, -⟩ := stat_eq_ok hpath hstat
    obtain ⟨hadmits, htarget⟩ := halong.admits_of_makeNode hnode hs hpath hnone htype h₁
    have hnext := h.made_next ht hp hc (Inode.Made.touched.mpr hmade) hv
    obtain ⟨hend, hothers⟩ := ih hnext (halong.next_makeNode h₁) (hrest _ _ hcheck) h₂
    refine ⟨hend, List.forall_mem_cons.mpr ⟨⟨⟨htype, htarget⟩, fun ms k hmk j hj hjp hjd => ?_⟩,
      hothers⟩⟩
    obtain ⟨rfl, -⟩ := List.append_inj' (pathStr_injective (hmk.symm.trans hp)) rfl
    exact h.usable_of_admits ht hp hadmits hj hjp hjd

end Laid

/-- **An inode of the index exists** below the destination, with its type, its permissions, its
target and its content. -/
def Inode.Present (st : Store) (root : List Name) (d : Disk) (i : Inode) : Prop :=
  ∃ ns m, i.path = pathStr ns ∧ d.get (root ++ ns) = some m ∧ m.status = i.status ∧
    (i.isSymlink = true → m.target = i.target) ∧
    (i.isFile = true → st (filePath i.hash) = some m.content)

/-- What was checked out exists, if symlinks have the permissions that all symlinks have. -/
theorem Laid.present_iff (h : Laid d₀ root st index [] d) (ht : IsTree index) (hi : i ∈ index) :
    i.Present st root d ↔ (i.isSymlink = true → i.status.perms = Node.symlinkPerms) := by
  obtain ⟨ns, hne, -, hp⟩ := ht.clean i hi
  obtain ⟨_, hview, hmade⟩ := h.made i hi nofun ns hp
  obtain ⟨m, hget, rfl⟩ := Disk.get_of_view hview
  have hmade := Inode.Made.touched.mp hmade
  have hlink : m.isLink = true ↔ i.isSymlink = true := by
    rw [← Node.status_type_eq_symlink, hmade.type, Inode.isSymlink, decide_eq_true_eq]
  constructor
  · rintro ⟨ms, m', hms, hget', hstatus, -⟩ hsym
    obtain rfl := pathStr_injective (hms.symm.trans hp)
    obtain rfl := Option.some.inj (hget.symm.trans hget')
    rw [← hstatus, Node.perms_of_isLink (hlink.mpr hsym)]
  · intro hperms
    refine ⟨ns, m, hp, hget, FileStatus.ext hmade.type ?_,
      fun hsym => hmade.target (hlink.mpr hsym), hmade.content⟩
    cases hl : m.isLink with
    | false => exact hmade.perms hl
    | true => rw [Node.perms_of_isLink hl, hperms (hlink.mp hl)]

/-- **Checking out under permissions.** Into an empty directory that he may search and write, and
with all objects in the cache, an unprivileged user can check an index out exactly if each of its
directories in which there is something lets its owner write and search it. (An inode without a
type, or a symlink without a target, cannot be made at all, and there are no other permissions of
symlinks than `0777`.) -/
theorem checkout_permitted_iff {ignores : Bytes → Bool} (s : Scan d₀ ignores root)
    (hd : EmptyDest d₀ root) (ht : IsTree index)
    (hobject : ∀ i ∈ index, i.isFile = true → (st (filePath i.hash)).isSome = true)
    (hposix : os.Posix st root d₀ (final (checkout os st root s.inodes index ⟨d₀, []⟩)).log) :
    (∃ l w, checkout os st root s.inodes index ⟨d₀, []⟩ = .ok l w ∧
      ∀ i ∈ index, i.Present st root w.disk) ↔
    (∀ i ∈ index, i.Makeable ∧ (i.isSymlink = true → i.status.perms = Node.symlinkPerms)) ∧
      AllUsable index := by
  have hrun : checkout os st root s.inodes index = checkoutRest os st root index := by
    rw [s.inodes_eq_nil hd.closed hd.empty]
    rfl
  rw [hrun] at hposix ⊢
  have hstart : Laid d₀ root st index index (World.mk d₀ []).disk := .start hd ht
  have halong : Along os st root d₀ _ ⟨d₀, []⟩ := ⟨hposix, rfl⟩
  constructor
  · rintro ⟨l, w, hr, hpresent⟩
    obtain ⟨hend, hneeds⟩ := hstart.of_checkoutRest hd ht halong List.prefix_rfl hr
    refine ⟨fun i hi => ⟨(hneeds i hi).1, (hend.present_iff ht hi).mp (hpresent i hi)⟩, ?_⟩
    rintro j hj hjd ⟨i, hi, hbelow⟩
    obtain ⟨ks, hks, -, hjp⟩ := ht.clean j hj
    obtain ⟨ns, -, -, hip⟩ := ht.clean i hi
    rw [hjp, hip, pathStr_below hks] at hbelow
    obtain ⟨ls, hls, rfl⟩ := hbelow
    obtain ⟨n, ls, rfl⟩ := List.exists_cons_of_ne_nil hls
    -- something directly in the directory has been made
    obtain ⟨c, hc, hcp⟩ := ht.exists_child hi hip
    exact (hneeds c hc).2 ks n hcp j hj hjp hjd
  · rintro ⟨hmake, hus⟩
    obtain ⟨l, w, hr, hend⟩ := hstart.exists_rest hd ht halong hus hobject
      (fun i hi => (hmake i hi).1) List.prefix_rfl
    exact ⟨l, w, hr, fun i hi => (hend.present_iff ht hi).mpr (hmake i hi).2⟩

end Run

/-- It can be seen call by call whether a system goes by the permissions. -/
theorem posix_of_forall {os : OS} {st : Store} {root : List Name} {d : Disk} {log : List FileOp}
    (h : ∀ k : Fin log.length,
      os.denies k = true ↔ ¬ (log.get k).Permitted root (d.replay os st (log.take k))) :
    os.Posix st root d log := by
  intro k op hop
  obtain ⟨hk, rfl⟩ := List.getElem?_eq_some_iff.mp hop
  exact h ⟨k, hk⟩

namespace Sample

/-- An empty destination. -/
def emptyW : Disk := ⟨[([], .dir 0o755 1 0), ([nameW], .dir 0o755 1 0)]⟩

/-- A directory with these permissions, and a file in it. -/
def dirIndex (perms : Fin 512) : List Inode :=
  [{ fetchedInode [nameA] .directory [] with status := ⟨.directory, perms⟩ },
    fetchedInode [nameA, nameF] .regular []]

/-- A system that denies the fourth call. -/
def strict : OS := { kind with denies := fun k => k = 3 }

theorem emptyDest_emptyW : EmptyDest emptyW [nameW] where
  closed := (Disk.wellFormed_of_entries (by decide) (by decide) (by decide)).closed'
  plain := plain_nameW
  isDir := by decide
  empty := by decide
  grants := by decide

theorem isTree_dirIndex (perms : Fin 512) : IsTree (dirIndex perms) where
  sorted := by
    refine List.pairwise_pair.mpr ?_
    change pathStr [nameA] < pathStr [nameA, nameF]
    decide
  clean i hi := by
    rcases List.mem_pair.mp hi with rfl | rfl
    · exact ⟨[nameA], by decide, by decide, rfl⟩
    · exact ⟨[nameA, nameF], by decide, by decide, rfl⟩
  parents i hi := by
    rcases List.mem_pair.mp hi with rfl | rfl
    · exact Or.inl (show parentPath (pathStr [nameA]) = [] by decide)
    · exact Or.inr ⟨_, List.mem_cons_self,
        show pathStr [nameA] = parentPath (pathStr [nameA, nameF]) by decide, rfl⟩

/-- The object of the file is in the cache. -/
theorem object_dirIndex (perms : Fin 512) : ∀ i ∈ dirIndex perms, i.isFile = true →
    (linkedStore (filePath i.hash)).isSome = true := by
  intro i hi hf
  rcases List.mem_pair.mp hi with rfl | rfl
  · cases hf
  · decide

end Sample

open Sample in
/-- A directory that can be written is checked out with what is in it. -/
theorem checkout_permitted_iff_sample : ∃ l w,
    checkout kind linkedStore [nameW] (scanOf emptyW (by decide)).inodes (dirIndex 0o755)
      ⟨emptyW, []⟩ = .ok l w ∧
    ∀ i ∈ dirIndex 0o755, i.Present linkedStore [nameW] w.disk := by
  refine (checkout_permitted_iff (scanOf emptyW (by decide)) emptyDest_emptyW
    (isTree_dirIndex 0o755) (object_dirIndex 0o755) (posix_of_forall ?_)).mpr ⟨?_, ?_⟩
  · decide +kernel
  · intro i hi
    rcases List.mem_pair.mp hi with rfl | rfl <;> exact ⟨⟨nofun, nofun⟩, nofun⟩
  · intro j hj hjd _
    rcases List.mem_pair.mp hj with rfl | rfl
    · rfl
    · cases hjd

open Sample in
/-- **A read-only directory is not**: the file in it is denied. -/
theorem checkout_not_permitted : ¬ ∀ (d₀ : Disk) (ignores : Bytes → Bool) (root : List Name)
    (s : Scan d₀ ignores root) (index : List Inode) (os : OS) (st : Store),
    EmptyDest d₀ root → IsTree index →
    (∀ i ∈ index, i.isFile = true → (st (filePath i.hash)).isSome = true) →
    os.Posix st root d₀ (final (checkout os st root s.inodes index ⟨d₀, []⟩)).log →
    ∃ l w, checkout os st root s.inodes index ⟨d₀, []⟩ = .ok l w ∧
      ∀ i ∈ index, i.Present st root w.disk := by
  intro h
  obtain ⟨l, w, hr, -⟩ := h emptyW _ [nameW] (scanOf emptyW (by decide)) (dirIndex 0o555) strict
    linkedStore emptyDest_emptyW (isTree_dirIndex 0o555) (object_dirIndex 0o555)
    (posix_of_forall (by decide +kernel))
  have hleaves : leaves (checkout strict linkedStore [nameW] (scanOf emptyW (by decide)).inodes
      (dirIndex 0o555) ⟨emptyW, []⟩) (fun _ => true) = false := by decide +kernel
  rw [hr] at hleaves
  cases hleaves

end Fstree
