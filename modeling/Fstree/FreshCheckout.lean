import Fstree.Converge
import Fstree.Model.IndexFile

/-!
# Checking out into an empty directory

Into an empty directory `index::checkout` only creates: at every path of the index, in their
order, nothing stands yet, and the directory it is to stand in has been made before. So no call
fails that the operating system does not deny, as long as the objects of the files are in the
cache (`Fstree.checkout_fresh`). What comes back are the inodes with the mtimes of what was made.

`index::save` writes them to a directory that no index has a path in (`Fstree.save_fresh`).
-/

namespace Fstree

open Codec SortedBy Effect

/-! ### Calls that do not fail -/

/-- **The operating system denies nothing.** -/
def OS.Willing (os : OS) : Prop := ∀ k, os.denies k = false

section Calls

variable {os : OS} {st : Store} {root : List Name} {w : World} {d : Disk} {ns : List Name}
    {n : Name}
  {node : Node} {what : String} {path source target : Bytes} {op : FileOp} {perms : Fin 512}
  {i : Inode}

/-- A call that has an effect returns, if it is not denied. -/
theorem call_ok (hos : os.Willing) (h : ∀ t, ∃ d', op.effect os st t w.disk = .ok d') :
    ∃ w', call os st what path op w = .ok () w' := by
  obtain ⟨d', hd'⟩ := h (os.clock w.log.length)
  refine ⟨⟨d', w.log ++ [op]⟩, ?_⟩
  have hno : os.denies w.log.length = false := hos _
  simp [call, hno, hd']

namespace Straight

variable (hs : Straight d ns n)
include hs

theorem remove_ok (hget : d.get (ns ++ [n]) = none) (t : Time) :
    ∃ d', (FileOp.remove (absPath (ns ++ [n]))).effect os st t d = .ok d' := by
  rw [FileOp.effect, hs.lookup_none hget]
  exact ⟨_, rfl⟩

theorem createSymlink_ok (hget : d.get (ns ++ [n]) = none) (htarget : target ≠ []) (t : Time) :
    ∃ d', (FileOp.createSymlink target (absPath (ns ++ [n]))).effect os st t d = .ok d' := by
  rw [FileOp.effect, hs.lookup_none hget]
  exact ⟨_, if_neg htarget⟩

theorem createDirectory_ok (hget : d.get (ns ++ [n]) = none) (t : Time) :
    ∃ d', (FileOp.createDirectory (absPath (ns ++ [n]))).effect os st t d = .ok d' := by
  rw [FileOp.effect, hs.lookup_none hget]
  exact ⟨_, rfl⟩

theorem permissions_ok (hget : d.get (ns ++ [n]) = some node) (hlink : node.isLink = false)
    (t : Time) :
    ∃ d', (FileOp.permissions (absPath (ns ++ [n])) perms).effect os st t d = .ok d' := by
  rw [FileOp.effect, hs.lookup_some hget (Or.inl hlink)]
  simp only [hget]
  exact ⟨_, rfl⟩

theorem copyFile_ok (hget : d.get (ns ++ [n]) = none) (hst : (st source).isSome = true) (t : Time) :
    ∃ d', (FileOp.copyFile source (absPath (ns ++ [n]))).effect os st t d = .ok d' := by
  obtain ⟨content, hc⟩ := Option.isSome_iff_exists.mp hst
  rw [FileOp.effect, hs.lookup_none hget, hc]
  exact ⟨_, rfl⟩

end Straight

/-- **What a checkout needs to make an inode**: a type, a target, an object; and the permissions
that every symlink has. -/
structure Available (st : Store) (i : Inode) : Prop where
  type : i.status.type ≠ .none
  target : i.isSymlink = true → i.target ≠ []
  perms : i.isSymlink = true → i.status.perms = Node.symlinkPerms
  object : i.isFile = true → (st (filePath i.hash)).isSome = true

/-- **Where nothing stands, an inode can be made.** -/
theorem makeNode_ok (hos : os.Willing) (hs : Straight w.disk ns n)
    (hpath : fullPath root i = absPath (ns ++ [n])) (hnone : w.disk.get (ns ++ [n]) = none)
    (ha : Available st i) : ∃ w', makeNode os st root i w = .ok () w' := by
  rw [makeNode, hpath]
  by_cases hsym : i.isSymlink = true
  · rw [if_pos hsym]
    obtain ⟨w₁, h₁⟩ := call_ok hos (hs.remove_ok hnone)
    obtain ⟨t₁, he₁⟩ := effect_of_call h₁
    obtain ⟨hs₁, hnone₁, -⟩ := hs.removed he₁
    obtain ⟨w₂, h₂⟩ := call_ok hos (hs₁.createSymlink_ok hnone₁ (ha.target hsym))
    exact ⟨w₂, bind_eq_ok.mpr ⟨(), w₁, h₁, h₂⟩⟩
  rw [if_neg hsym]
  by_cases hdir : i.isDirectory = true
  · rw [if_pos hdir]
    obtain ⟨w₁, h₁⟩ := call_ok hos (hs.createDirectory_ok hnone)
    obtain ⟨t₁, he₁⟩ := effect_of_call h₁
    obtain ⟨m, hm, hv₁⟩ := hs.createDirectory (by simp [hnone]) he₁
    have hs₁ := hs.update (hs.closed_update hv₁ fun _ => hm) hv₁
    have hview : w₁.disk.view (ns ++ [n]) = some m := by rw [hv₁, Function.update_self]
    obtain ⟨m₁, hget, rfl⟩ := Disk.get_of_view hview
    have hlink : m₁.isLink = false := by
      cases m₁ <;> first | rfl | cases hm
    obtain ⟨w₂, h₂⟩ := call_ok hos (hs₁.permissions_ok hget hlink)
    exact ⟨w₂, bind_eq_ok.mpr ⟨(), w₁, h₁, h₂⟩⟩
  rw [if_neg hdir]
  by_cases hfile : i.isFile = true
  · rw [if_pos hfile]
    obtain ⟨w₁, h₁⟩ := call_ok hos (hs.remove_ok hnone)
    obtain ⟨t₁, he₁⟩ := effect_of_call h₁
    obtain ⟨hs₁, hnone₁, -⟩ := hs.removed he₁
    obtain ⟨w₂, h₂⟩ := call_ok hos (hs₁.copyFile_ok hnone₁ (ha.object hfile))
    obtain ⟨t₂, he₂⟩ := effect_of_call h₂
    obtain ⟨content, -, hv₂⟩ := hs₁.copyFile hnone₁ he₂
    have hs₂ := hs₁.update (hs₁.closed_update hv₂ fun hd => absurd hnone₁ hd.get_ne_none) hv₂
    have hview : w₂.disk.view (ns ++ [n]) = some (.file os.filePerms t₂ content) := by
      rw [hv₂, Function.update_self]
    obtain ⟨m₂, hget, hm₂⟩ := Disk.get_of_view hview
    have hlink : m₂.isLink = false := by rw [← Node.isLink_touched, hm₂]; rfl
    obtain ⟨w₃, h₃⟩ := call_ok hos (hs₂.permissions_ok hget hlink)
    exact ⟨w₃, bind_eq_ok.mpr ⟨(), w₁, h₁, bind_eq_ok.mpr ⟨(), w₂, h₂, h₃⟩⟩⟩
  · rw [if_neg hfile]
    exact ⟨w, rfl⟩

/-- What was made is read back. -/
theorem checkoutNode_of_makeNode {w' : World} (hr : Ready w.disk root i ns n)
    (htype : i.status.type ≠ .none) (h : makeNode os st root i w = .ok () w') :
    ∃ m, checkoutNode os st root i w = .ok { i with mtime := m.mtime, status := m.status } w' ∧
      i.Made st m ∧
      w'.disk.view = Function.update w.disk.view (ns ++ [n]) (some (m.touched 0)) := by
  obtain ⟨m₁, hmade, hv, hc⟩ := view_of_makeNode hr htype h
  have hview : w'.disk.view (ns ++ [n]) = some m₁ := by rw [hv, Function.update_self]
  obtain ⟨m, hget, rfl⟩ := Disk.get_of_view hview
  have hlook : w'.disk.lookup false (absPath (ns ++ [n])) = .ok (.at (ns ++ [n])) :=
    (hr.straight.update hc hv).lookup_some hget (Or.inr rfl)
  refine ⟨m, bind_eq_ok.mpr ⟨(), w', h, ?_⟩, Inode.Made.touched.mp hmade, hv⟩
  simp only [stat, hr.path, hlook, hget]

/-- **`checkout_node` where nothing stands**: only the mtime of the inode is changed. -/
theorem checkoutNode_ok (hos : os.Willing) (hs : Straight w.disk ns n)
    (hpath : fullPath root i = absPath (ns ++ [n])) (hnone : w.disk.get (ns ++ [n]) = none)
    (ha : Available st i) :
    ∃ t w' m, checkoutNode os st root i w = .ok { i with mtime := t } w' ∧
      w'.disk.view = Function.update w.disk.view (ns ++ [n]) (some m) := by
  obtain ⟨w', h₁⟩ := makeNode_ok hos hs hpath hnone ha
  obtain ⟨m, h, hmade, hv⟩ := checkoutNode_of_makeNode (hs.ready hnone hpath) ha.type h₁
  have hstatus : m.status = i.status := by
    refine FileStatus.ext hmade.type ?_
    cases hl : m.isLink with
    | false => exact hmade.perms hl
    | true =>
      have hsym : i.isSymlink = true := by
        rw [Inode.isSymlink, ← hmade.type, Node.status_type_eq_symlink.mpr hl]
        rfl
      rw [Node.perms_of_isLink hl, ha.perms hsym]
  rw [hstatus] at h
  exact ⟨m.mtime, w', _, h, hv⟩

end Calls

/-! ### The run -/

section Run

variable {d₀ : Disk} {ignores : Bytes → Bool} {root : List Name} {s : Scan d₀ ignores root}
  {index is : List Inode} {st : Store} {exact : Prop} {os : OS} {w : World}

/-- A scan of an empty directory lists nothing. -/
theorem Scan.inodes_eq_nil (s : Scan d₀ ignores root) (hd : d₀.Closed)
    (hempty : d₀.readdir root = []) : s.inodes = [] := by
  refine List.eq_nil_iff_forall_not_mem.mpr fun t ht => ?_
  obtain ⟨ns, n, node, hl, -⟩ := s.mem_inodes.mp ht
  have hget := hl.get
  rw [hd.nothing_below_empty hempty (by simp)] at hget
  cases hget

/-- A scan of an empty directory hides nothing. -/
theorem Scan.hiddenHarmless_of_empty (s : Scan d₀ ignores root) (hd : d₀.Closed)
    (hempty : d₀.readdir root = []) (hx : InOrder index) : HiddenHarmless s index := by
  intro i hi _ ns hns m hm
  rw [hd.nothing_below_empty hempty (hx.names hi hns).1] at hm
  cases hm

/-- **The inodes are made one after the other**, where nothing stands. What is at other paths
stays. -/
theorem CheckoutInv.exists_rest (g : Ground s index exact) (hos : os.Willing)
    (ha : ∀ i ∈ index, Available st i) (h : CheckoutInv s index st exact w.disk [] is [])
    (hcur : Cursors s.inodes index is [] none)
    (hfree : ∀ i ∈ is, ∀ ns, i.path = pathStr ns → w.disk.view (root ++ ns) = none) :
    ∃ l w', checkoutRest os st root is w = .ok l w' ∧
      List.Forall₂ (fun i o => ∃ t, o = { i with mtime := t }) is l ∧
      CheckoutInv s index st exact w'.disk [] [] [] ∧
      ∀ ns, (∀ i ∈ is, i.path ≠ pathStr ns) →
        w'.disk.view (root ++ ns) = w.disk.view (root ++ ns) := by
  induction is generalizing w with
  | nil => exact ⟨[], w, rfl, .nil, h, fun _ _ => rfl⟩
  | cons i is ih =>
    obtain ⟨ns, n, hns, hs, hpath⟩ := h.straight hcur g
    have hnone := Disk.view_eq_none.mp (hfree i (by simp) _ hns)
    rw [← List.append_assoc] at hnone
    have hi : i ∈ index := hcur.suffix_index.mem (by simp)
    obtain ⟨t, w₁, m, h₁, hv⟩ := checkoutNode_ok hos hs hpath hnone (ha i hi)
    obtain ⟨hinv, hcur'⟩ := h.created hcur g nofun h₁
    -- only at the path of the first inode something has changed
    have hother : ∀ ms, i.path ≠ pathStr ms →
        w₁.disk.view (root ++ ms) = w.disk.view (root ++ ms) := by
      intro ms hne
      rw [hv, Function.update_of_ne]
      intro he
      rw [List.append_assoc] at he
      exact hne (hns.trans (congrArg pathStr (List.append_cancel_left he).symm))
    have hfree' : ∀ j ∈ is, ∀ ms, j.path = pathStr ms → w₁.disk.view (root ++ ms) = none := by
      intro j hj ms hms
      rw [hother ms fun he => ne_of_lt ((hcur.lt_index g.order).2.2 j hj) (he.trans hms.symm)]
      exact hfree j (List.mem_cons_of_mem _ hj) ms hms
    obtain ⟨l, w', h₂, hl, hend, hframe⟩ := ih hinv hcur' hfree'
    refine ⟨_ :: l, w', ?_, .cons ⟨t, rfl⟩ hl, hend, fun ms hms => ?_⟩
    · rw [checkoutRest]
      exact bind_eq_ok.mpr ⟨_, w₁, h₁, bind_eq_ok.mpr ⟨l, w', h₂, rfl⟩⟩
    · obtain ⟨hne, hms⟩ := List.forall_mem_cons.mp hms
      rw [hframe ms hms, hother ms hne]

/-- **A checkout into an empty directory succeeds**, and changes only mtimes of the inodes. -/
theorem checkout_fresh (g : Ground s index exact) (hempty : d₀.readdir root = [])
    (hos : os.Willing) (ha : ∀ i ∈ index, Available st i) :
    ∃ l w', checkout os st root s.inodes index ⟨d₀, []⟩ = .ok l w' ∧
      List.Forall₂ (fun i o => ∃ t, o = { i with mtime := t }) index l ∧
      CheckoutInv s index st exact w'.disk [] [] [] ∧
      ∀ ns, (∀ i ∈ index, i.path ≠ pathStr ns) →
        w'.disk.view (root ++ ns) = d₀.view (root ++ ns) := by
  have hnil := s.inodes_eq_nil g.closed hempty
  have h : CheckoutInv s index st exact d₀ [] index s.inodes := .start g
  have hcur : Cursors s.inodes index index [] none := by
    have hstart : Cursors s.inodes index index s.inodes none := Cursors.start
    rwa [hnil] at hstart ⊢
  rw [hnil] at h
  have hfree : ∀ i ∈ index, ∀ ns, i.path = pathStr ns → d₀.view (root ++ ns) = none :=
    fun i hi ns hns => Disk.view_eq_none.mpr
      (g.closed.nothing_below_empty hempty (g.order.names hi hns).1)
  obtain ⟨l, w', hr, hrest⟩ := CheckoutInv.exists_rest (w := ⟨d₀, []⟩) g hos ha h hcur hfree
  refine ⟨l, w', ?_, hrest⟩
  rw [hnil, checkout, checkoutFrom]
  exact hr

end Run

/-! ### Saving the index -/

/-- The directory of the saved index. -/
def fstreeName : Name := ⟨ascii ['.', 'f', 's', 't', 'r', 'e', 'e'], by decide, by decide⟩

/-- The saved index in it. -/
def indexName : Name := ⟨ascii ['i', 'n', 'd', 'e', 'x'], by decide, by decide⟩

/-- `std::ofstream` with `trunc`, and the bytes that are written. -/
def Disk.writeFile (os : OS) (t : Time) (d : Disk) (p content : Bytes) : Except Errno Disk :=
  match d.lookup true p with
  | .ok (.at q) =>
    match d.get q with
    | some (.file perms ..) => .ok (d.set q (.file perms t content))
    | _ => .error .isdir
  | .ok (.absent dir n) => .ok (d.create dir n t (.file os.filePerms t content))
  | .error e => .error e

/-- The index file is opened and written. -/
def writeIndex (os : OS) (p content : Bytes) : CheckoutM Unit := fun w =>
  let n := w.log.length
  match if os.denies n then .error .denied else w.disk.writeFile os (os.clock n) p content with
  | .ok d => .ok () { w with disk := d }
  | .error e => .error ⟨"failed to open index for writing: ", p, e⟩ w

/-- **`index::save`** of an index whose root is there: `create_directories` has to make one
directory at most. -/
def save (os : OS) (st : Store) (root : List Name) (inodes : List Inode) : CheckoutM Unit := do
  let dir := absPath (root ++ [fstreeName])
  call os st "failed to create index directory: " dir (.createDirectory dir)
  writeIndex os (absPath (root ++ [fstreeName] ++ [indexName])) (saveIndex inodes)

/-- `index::load` opens the file, if it is there. -/
def Disk.readFile (d : Disk) (p : Bytes) : Option Bytes :=
  match d.lookup true p with
  | .ok (.at q) =>
    match d.get q with
    | some (.file _ _ content) => some content
    | _ => none
  | _ => none

section Save

variable {os : OS} {st : Store} {root : List Name} {w : World} {d : Disk} {inodes : List Inode}

/-- The path of a file in a directory is read. -/
theorem Straight.readFile {ns : List Name} {n : Name} (hs : Straight d ns n) {perms : Fin 512}
    {t : Time} {content : Bytes} (hget : d.get (ns ++ [n]) = some (.file perms t content)) :
    d.readFile (absPath (ns ++ [n])) = some content := by
  rw [Disk.readFile, hs.lookup_some hget (Or.inl rfl)]
  simp only [hget]

theorem Straight.readFile_none {ns : List Name} {n : Name} (hs : Straight d ns n)
    (hget : d.get (ns ++ [n]) = none) : d.readFile (absPath (ns ++ [n])) = none := by
  rw [Disk.readFile, hs.lookup_none hget]

/-- **Saving to a directory without an index succeeds**: the index is there afterwards, and only
there something has changed. -/
theorem save_fresh (hos : os.Willing) (hd : w.disk.Closed) (hplain : ∀ n ∈ root, n.Plain)
    (hroot : w.disk.IsDir root) (hnone : w.disk.get (root ++ [fstreeName]) = none)
    (inodes : List Inode) :
    ∃ w', save os st root inodes w = .ok () w' ∧ w'.disk.Closed ∧
      w'.disk.readFile (absPath (root ++ [fstreeName] ++ [indexName])) =
        some (saveIndex inodes) ∧
      ∀ q, ¬ root ++ [fstreeName] <+: q → w'.disk.view q = w.disk.view q := by
  have hs : Straight w.disk root fstreeName := ⟨hd, hplain, by decide, hroot⟩
  obtain ⟨w₁, h₁⟩ :=
    @call_ok os st w "failed to create index directory: " _ _ hos (hs.createDirectory_ok hnone)
  obtain ⟨t₁, he₁⟩ := effect_of_call h₁
  obtain ⟨m, hm, hv₁⟩ := hs.createDirectory (by simp [hnone]) he₁
  have hc₁ := hs.closed_update hv₁ fun _ => hm
  have hdir₁ : w₁.disk.IsDir (root ++ [fstreeName]) :=
    Disk.isDir_iff_view.mpr ⟨m, by rw [hv₁, Function.update_self], hm⟩
  have hs₁ : Straight w₁.disk (root ++ [fstreeName]) indexName := by
    refine ⟨hc₁, List.forall_mem_append.mpr ⟨hplain, fun n hn => ?_⟩, by decide, hdir₁⟩
    rw [List.mem_singleton.mp hn]
    decide
  have hnone₁ : w₁.disk.get (root ++ [fstreeName] ++ [indexName]) = none := by
    rw [← Disk.view_eq_none, hv₁, Function.update_of_ne (by simp), Disk.view_eq_none]
    exact hd.nothing_below (fun hx => hx.get_ne_none hnone) (by simp)
  have hno : os.denies w₁.log.length = false := hos _
  let file : Node := .file os.filePerms (os.clock w₁.log.length) (saveIndex inodes)
  let d' := w₁.disk.create (root ++ [fstreeName]) indexName (os.clock w₁.log.length) file
  have hv' : d'.view = Function.update w₁.disk.view (root ++ [fstreeName] ++ [indexName])
      (some file) := Disk.view_create
  have hc' : d'.Closed := hs₁.closed_update hv' fun hx => absurd hnone₁ hx.get_ne_none
  have hwrite :
      writeIndex os (absPath (root ++ [fstreeName] ++ [indexName])) (saveIndex inodes) w₁ =
      .ok () { w₁ with disk := d' } := by
    have heffect : w₁.disk.writeFile os (os.clock w₁.log.length)
        (absPath (root ++ [fstreeName] ++ [indexName])) (saveIndex inodes) = .ok d' := by
      rw [Disk.writeFile, hs₁.lookup_none hnone₁]
    simp only [writeIndex, hno, Bool.false_eq_true, if_false, heffect]
  refine ⟨_, bind_eq_ok.mpr ⟨(), w₁, h₁, hwrite⟩, hc', ?_, fun q hq => ?_⟩
  · have hview : d'.view (root ++ [fstreeName] ++ [indexName]) = some file := by
      rw [hv', Function.update_self]
    exact (hs₁.update hc' hv').readFile (Disk.view_eq_file.mp hview)
  · have hq₁ : q ≠ root ++ [fstreeName] := fun he => hq ⟨[], by simp [he]⟩
    have hq₂ : q ≠ root ++ [fstreeName] ++ [indexName] := fun he => hq ⟨[indexName], by simp [he]⟩
    change d'.view q = _
    rw [hv', Function.update_of_ne hq₂, hv₁, Function.update_of_ne hq₁]

end Save

end Fstree
