import Fstree.Confine
import Fstree.Lookup

/-!
# What a checkout does at one path

The parts of `index::checkout` at one inode of the index or one node of the scan, at the end of
a straight path: `checkout_node` leaves there what the inode says (`Fstree.Inode.Made`) and
changes nothing else but mtimes of directories, and what is stale is gone afterwards with all
that is below it, whether it was there or not (`Fstree.removeStale_view`).
-/

namespace Fstree

open Codec Effect

/-- The path above the path of a name. -/
theorem parentPath_absPath (ns : List Name) (n : Name) :
    parentPath (absPath (ns ++ [n])) = absPath ns := by
  by_cases hns : ns = []
  · subst hns
    have hall : ∀ b ∈ n.bytes.reverse, (decide (b ≠ slash)) = true := fun b hb => by
      have hmem : b ∈ n.bytes := by simpa using hb
      exact decide_eq_true fun he => n.slash_notMem (he ▸ hmem)
    have hdir : (slash :: n.bytes).reverse.dropWhile (· ≠ slash) = [slash] := by
      rw [List.reverse_cons, List.dropWhile_append_of_pos hall]
      simp
    simp only [absPath, List.nil_append, pathStr_singleton, pathStr_nil, parentPath, hdir]
    rfl
  · have hlast : (absPath ns).getLast? ≠ some slash := by
      rw [absPath, List.getLast?_cons_of_ne_nil (by simpa using hns)]
      exact pathStr_getLast?_ne ns
    have happ : absPath (ns ++ [n]) = absPath ns ++ slash :: n.bytes := by
      rw [absPath, pathStr_concat hns]
      rfl
    rw [happ]
    exact parentPath_append (List.cons_ne_nil _ _) hlast n

/-- **What an inode says of a node.** -/
structure Inode.Made (st : Store) (i : Inode) (m : Node) : Prop where
  type : m.status.type = i.status.type
  perms : m.isLink = false → m.status.perms = i.status.perms
  target : m.isLink = true → m.target = i.target
  content : i.isFile = true → st (filePath i.hash) = some m.content

section Node

variable {os : OS} {st : Store} {root : List Name} {w w' : World} {ns : List Name} {n : Name}
  {node i' : Inode} {what : String} {path : Bytes} {op : FileOp} {u : Unit}

/-- A call that returns has had its effect. -/
theorem effect_of_call (h : call os st what path op w = .ok u w') :
    ∃ t, op.effect os st t w.disk = .ok w'.disk := by
  rw [call] at h
  split at h
  · rename_i d heffect
    split_ifs at heffect
    refine ⟨_, heffect.trans ?_⟩
    cases h
    rfl
  · cases h

/-- **The path of an inode is straight**, no symlink stands where it is to be a directory, and
nothing where it is to be nothing. -/
structure Ready (d : Disk) (root : List Name) (node : Inode) (ns : List Name) (n : Name) : Prop
    where
  straight : Straight d ns n
  path : fullPath root node = absPath (ns ++ [n])
  type : node.status.type = .none → d.get (ns ++ [n]) = none
  link : node.isDirectory = true → ∀ m, d.get (ns ++ [n]) = some m → m.isLink = false

theorem Straight.update {d d' : Disk} (hs : Straight d ns n) {o : Option Node} (hd : d'.Closed)
    (hv : d'.view = Function.update d.view (ns ++ [n]) o) : Straight d' ns n where
  closed := hd
  plain := hs.plain
  name := hs.name
  isDir := (Disk.isDir_congr (by rw [hv, Function.update_of_ne (by simp)])).mpr hs.isDir

/-- Nothing is left at a path after `remove`. -/
theorem Straight.removed {d d' : Disk} {t : Time} (hs : Straight d ns n)
    (h : (FileOp.remove (absPath (ns ++ [n]))).effect os st t d = .ok d') :
    Straight d' ns n ∧ d'.get (ns ++ [n]) = none ∧
      d'.view = Function.update d.view (ns ++ [n]) none := by
  obtain ⟨hv, hwithout⟩ := hs.remove h
  refine ⟨hs.update (hs.closed.without (hv.trans hwithout.symm) (by simp)) hv, ?_, hv⟩
  rw [← Disk.view_eq_none, hv, Function.update_self]

/-- A symlink is made where nothing is left. -/
theorem view_of_makeNode_symlink (hr : Ready w.disk root node ns n) (hsym : node.isSymlink = true)
    (h : makeNode os st root node w = .ok u w') :
    ∃ m, node.Made st m ∧ w'.disk.view = Function.update w.disk.view (ns ++ [n]) (some m) ∧
      w'.disk.Closed := by
  obtain ⟨hs, hpath, -, -⟩ := hr
  rw [makeNode, hpath, if_pos hsym] at h
  obtain ⟨_, w₁, h₁, h₂⟩ := bind_eq_ok.mp h
  obtain ⟨t₁, h₁⟩ := effect_of_call h₁
  obtain ⟨t₂, h₂⟩ := effect_of_call h₂
  obtain ⟨hs₁, hnone, hv₁⟩ := hs.removed h₁
  have hv₂ := hs₁.createSymlink h₂
  have htype' : node.status.type = .symlink := of_decide_eq_true hsym
  refine ⟨.symlink t₂ node.target, ⟨htype'.symm, by rintro ⟨⟩, fun _ => rfl, ?_⟩, ?_,
    hs₁.closed_update hv₂ fun hd => absurd hnone hd.get_ne_none⟩
  · intro hf
    rw [Inode.isFile, htype'] at hf
    simp at hf
  · rw [hv₂, hv₁, Function.update_idem]

/-- A directory is made, or is there, and gets the permissions. -/
theorem view_of_makeNode_directory (hr : Ready w.disk root node ns n)
    (hdir : node.isDirectory = true) (h : makeNode os st root node w = .ok u w') :
    ∃ m, node.Made st m ∧ w'.disk.view = Function.update w.disk.view (ns ++ [n]) (some m) ∧
      w'.disk.Closed := by
  have hs := hr.straight
  have htype : node.status.type = .directory := of_decide_eq_true hdir
  rw [makeNode, hr.path, if_neg (by simp [Inode.isSymlink, htype]), if_pos hdir] at h
  obtain ⟨_, w₁, h₁, h₂⟩ := bind_eq_ok.mp h
  obtain ⟨t₁, h₁⟩ := effect_of_call h₁
  obtain ⟨t₂, h₂⟩ := effect_of_call h₂
  obtain ⟨m, hm, hv₁⟩ := hs.createDirectory (hr.link hdir) h₁
  have hc₁ := hs.closed_update hv₁ fun _ => hm
  have hs₁ := hs.update hc₁ hv₁
  obtain ⟨m₁, hget, hm₁⟩ := Disk.get_of_view (show w₁.disk.view (ns ++ [n]) = some m by
    rw [hv₁, Function.update_self])
  have hdir₁ : m₁.isDir = true := by rw [← hm, ← hm₁, Node.isDir_touched]
  have hlink₁ : m₁.isLink = false := by cases m₁ <;> first | rfl | cases hdir₁
  have hv₂ := hs₁.permissions hget hlink₁ h₂
  refine ⟨_, ⟨?_, fun _ => ?_, ?_, ?_⟩, by rw [hv₂, hv₁, Function.update_idem],
    hs₁.closed_update hv₂ fun _ => by simpa using hdir₁⟩
  · rw [Node.status_touched, Node.type_chmod, Node.status_type_eq_directory.mpr hdir₁]
    exact htype.symm
  · rw [Node.status_touched, Node.perms_chmod hlink₁]
  · intro hl
    simp [hlink₁] at hl
  · intro hf
    rw [Inode.isFile, htype] at hf
    simp at hf

/-- A file is copied to where nothing is left, and gets the permissions. -/
theorem view_of_makeNode_file (hr : Ready w.disk root node ns n) (hfile : node.isFile = true)
    (h : makeNode os st root node w = .ok u w') :
    ∃ m, node.Made st m ∧ w'.disk.view = Function.update w.disk.view (ns ++ [n]) (some m) ∧
      w'.disk.Closed := by
  obtain ⟨hs, hpath, -, -⟩ := hr
  have htype : node.status.type = .regular := of_decide_eq_true hfile
  rw [makeNode, hpath, if_neg (by simp [Inode.isSymlink, htype]),
    if_neg (by simp [Inode.isDirectory, htype]), if_pos hfile] at h
  obtain ⟨_, w₁, h₁, h⟩ := bind_eq_ok.mp h
  obtain ⟨_, w₂, h₂, h₃⟩ := bind_eq_ok.mp h
  obtain ⟨t₁, h₁⟩ := effect_of_call h₁
  obtain ⟨t₂, h₂⟩ := effect_of_call h₂
  obtain ⟨t₃, h₃⟩ := effect_of_call h₃
  obtain ⟨hs₁, hnone, hv₁⟩ := hs.removed h₁
  obtain ⟨content, hst, hv₂⟩ := hs₁.copyFile hnone h₂
  have hc₂ := hs₁.closed_update hv₂ fun hd => absurd hnone hd.get_ne_none
  have hs₂ := hs₁.update hc₂ hv₂
  obtain ⟨m₂, hget, hm₂⟩ := Disk.get_of_view (show w₂.disk.view (ns ++ [n]) = some _ by
    rw [hv₂, Function.update_self])
  have hm₂ : m₂ = .file os.filePerms t₂ content := by
    cases m₂ <;> first | exact hm₂ | cases hm₂
  subst hm₂
  have hv₃ := hs₂.permissions hget rfl h₃
  refine ⟨((Node.file os.filePerms t₂ content).chmod node.status.perms).touched 0,
    ⟨htype.symm, fun _ => rfl, by rintro ⟨⟩, fun _ => hst⟩,
    by rw [hv₃, hv₂, hv₁, Function.update_idem, Function.update_idem],
    hs₂.closed_update hv₃ fun hd => ?_⟩
  obtain ⟨m, hm, hmd⟩ := hd
  rw [hget] at hm
  cases hm
  cases hmd

/-- **`checkout_node` makes what the inode says**, and nothing else. -/
theorem view_of_makeNode (hr : Ready w.disk root node ns n) (htype : node.status.type ≠ .none)
    (h : makeNode os st root node w = .ok u w') :
    ∃ m, node.Made st m ∧ w'.disk.view = Function.update w.disk.view (ns ++ [n]) (some m) ∧
      w'.disk.Closed := by
  cases ht : node.status.type with
  | none => exact absurd ht htype
  | regular => exact view_of_makeNode_file hr (by simp [Inode.isFile, ht]) h
  | directory => exact view_of_makeNode_directory hr (by simp [Inode.isDirectory, ht]) h
  | symlink => exact view_of_makeNode_symlink hr (by simp [Inode.isSymlink, ht]) h

/-- `lstat` reads what stands at the path. -/
theorem stat_eq_ok (hpath : fullPath root node = path) (h : stat root node w = .ok i' w') :
    w' = w ∧ ∃ p m, w.disk.lookup false path = .ok (.at p) ∧ w.disk.get p = some m ∧
      i' = { node with mtime := m.mtime, status := m.status } := by
  rw [stat, hpath] at h
  split at h
  · rename_i p hl
    split at h
    · rename_i m hget
      cases h
      exact ⟨rfl, p, m, hl, hget, rfl⟩
    · cases h
  · cases h
  · cases h

theorem Inode.Made.touched {m : Node} {t : Time} :
    node.Made st (m.touched t) ↔ node.Made st m := by
  constructor
  · rintro ⟨h₁, h₂, h₃, h₄⟩
    exact ⟨by simpa using h₁, by simpa using h₂, by simpa using h₃, by simpa using h₄⟩
  · rintro ⟨h₁, h₂, h₃, h₄⟩
    exact ⟨by simpa using h₁, by simpa using h₂, by simpa using h₃, by simpa using h₄⟩

/-- **`checkout_node`**: what it has made is read back into the inode. -/
theorem view_of_checkoutNode (hr : Ready w.disk root node ns n)
    (h : checkoutNode os st root node w = .ok i' w') :
    ∃ m, node.Made st m ∧ w'.disk.get (ns ++ [n]) = some m ∧
      w'.disk.view = Function.update w.disk.view (ns ++ [n]) (some (m.touched 0)) ∧
      w'.disk.Closed ∧ i' = { node with mtime := m.mtime, status := m.status } := by
  rw [checkoutNode] at h
  obtain ⟨_, w₁, h₁, h₂⟩ := bind_eq_ok.mp h
  obtain ⟨rfl, p, m, hl, hget, hi'⟩ := stat_eq_ok hr.path h₂
  by_cases htype : node.status.type = .none
  · -- nothing is made, and there is nothing to read
    have hw : w' = w := by
      rw [makeNode] at h₁
      simp [Inode.isSymlink, Inode.isDirectory, Inode.isFile, htype] at h₁
      exact h₁.symm
    rw [hw, hr.straight.lookup_none (hr.type htype)] at hl
    cases hl
  · obtain ⟨m₁, hm₁, hv, hc⟩ := view_of_makeNode hr htype h₁
    obtain ⟨m₂, hget₂, rfl⟩ := Disk.get_of_view (show w'.disk.view (ns ++ [n]) = some m₁ by
      rw [hv, Function.update_self])
    rw [(hr.straight.update hc hv).lookup_some hget₂ (Or.inr rfl)] at hl
    obtain rfl := Place.at.inj (Except.ok.inj hl)
    rw [hget₂] at hget
    obtain rfl := Option.some.inj hget
    exact ⟨m₂, Inode.Made.touched.mp hm₁, hget₂, hv, hc, hi'⟩

/-- What has been read back is made as before. -/
theorem Inode.Made.of_read {m m' : Node} {t : Time} (h : node.Made st m)
    (h' : Inode.Made st { node with mtime := t, status := m.status } m')
    (hlink : m'.isLink = false → m.isLink = false) : node.Made st m' where
  type := h'.type.trans h.type
  perms hl := (h'.perms hl).trans (h.perms (hlink hl))
  target := h'.target
  content hf := h'.content (by simpa [Inode.isFile, h.type] using hf)

/-! ### What is stale -/

/-- `weakly_canonical` of the path of what is there. -/
theorem weaklyCanonical_of_lookup {d : Disk} {p : Bytes} {q : List Name}
    (h : d.lookup true p = .ok (.at q)) : d.weaklyCanonical p = .ok (absPath q) := by
  simp only [Disk.weaklyCanonical, Disk.existsAt, Disk.canonical, h]
  rfl

theorem absPath_injective : Function.Injective absPath := fun _ _ h =>
  pathStr_injective (List.cons.inj h).2

theorem Disk.without_eq_self {d : Disk} {p : List Name} (h : ∀ r, d.get (p ++ r) = none) :
    Disk.without d.view p = d.view := by
  funext q
  rw [Disk.without]
  split_ifs with hq
  · obtain ⟨r, rfl⟩ := hq
    exact (Disk.view_eq_none.mpr (h r)).symm
  · rfl

/-- **What is stale is gone**, with all that is below it, unless it was gone before: then
nothing is changed. -/
theorem removeStale_view {t : Inode} {up : List Name} (hd : w.disk.Closed)
    (hup : ∀ m ∈ up, m.Plain) (hn : n.Plain) (hpath : fullPath root t = absPath (up ++ [n]))
    (h : removeStale os st root t w = .ok u w') :
    w'.disk.view = Disk.without w.disk.view (up ++ [n]) ∧ w'.disk.Closed := by
  -- where the directory is none, there is nothing to remove
  have hgone : ¬ w.disk.IsDir up → Disk.without w.disk.view (up ++ [n]) = w.disk.view := fun hno =>
    Disk.without_eq_self fun r => by
      rw [List.append_assoc]
      exact hd.nothing_below hno (by simp)
  rw [removeStale, hpath, parentPath_absPath] at h
  obtain ⟨_, _, hget, h⟩ := bind_eq_ok.mp h
  obtain ⟨rfl, rfl⟩ : w = _ ∧ w = _ := EStateM.Result.ok.inj hget
  cases hwc : w.disk.weaklyCanonical (absPath up) with
  | error e =>
    rw [hwc] at h
    cases h
  | ok canonical =>
    simp only [hwc] at h
    split_ifs at h with hc
    · obtain ⟨t', heffect⟩ := effect_of_call h
      by_cases hdir : w.disk.IsDir up
      · have hv := Straight.removeAll ⟨hd, hup, hn, hdir⟩ heffect
        exact ⟨hv, hd.without hv (by simp)⟩
      · rcases removeAll_cases hd hn heffect with ⟨he, -⟩ | ⟨dir, hl, hdir', -⟩
        · rw [he, hgone hdir]
          exact ⟨rfl, hd⟩
        · rw [weaklyCanonical_of_lookup hl] at hwc
          have hdirup : dir = up := absPath_injective ((Except.ok.inj hwc).trans hc.symm)
          exact absurd (hdirup ▸ hdir') hdir
    · have hw : w = w' := (EStateM.Result.ok.inj h).2
      have hdir : ¬ w.disk.IsDir up := fun hdir => by
        rw [weaklyCanonical_of_lookup (Disk.lookup_of_isDir hd hup hdir)] at hwc
        exact hc (Except.ok.inj hwc)
      rw [← hw, hgone hdir]
      exact ⟨rfl, hd⟩

/-! ### What is in the way, and what is there already -/

theorem Straight.of_without {d d' : Disk} (hs : Straight d ns n)
    (hv : d'.view = Disk.without d.view (ns ++ [n])) : Straight d' ns n where
  closed := hs.closed.without hv (by simp)
  plain := hs.plain
  name := hs.name
  isDir := by
    refine (Disk.isDir_congr ?_).mpr hs.isDir
    rw [hv, Disk.without, if_neg fun hp => ?_]
    have hle := hp.length_le
    simp at hle

/-- Where nothing stands, any inode can be made. -/
theorem Straight.ready {d : Disk} (hs : Straight d ns n) (hget : d.get (ns ++ [n]) = none)
    (hpath : fullPath root node = absPath (ns ++ [n])) : Ready d root node ns n :=
  ⟨hs, hpath, fun _ => hget, fun _ m hm => by rw [hget] at hm; cases hm⟩

/-- **What has another type is replaced**, a directory with all that is below it. -/
theorem view_of_replaceNode {t i : Inode} (hs : Straight w.disk ns n)
    (ht : fullPath root t = absPath (ns ++ [n])) (hi : fullPath root i = absPath (ns ++ [n]))
    (h : replaceNode os st root t i w = .ok i' w') :
    ∃ m, i.Made st m ∧ w'.disk.Closed ∧ w'.disk.view = Function.update
      (if t.isDirectory then Disk.without w.disk.view (ns ++ [n]) else w.disk.view)
      (ns ++ [n]) (some m) := by
  rw [replaceNode, ht] at h
  split_ifs at h ⊢
  · obtain ⟨_, w₁, h₁, h₂⟩ := bind_eq_ok.mp h
    obtain ⟨t', h₁⟩ := effect_of_call h₁
    have hv := hs.removeAll h₁
    have hget : w₁.disk.get (ns ++ [n]) = none := by
      rw [← Disk.view_eq_none, hv, Disk.without, if_pos List.prefix_rfl]
    obtain ⟨m, hm, -, hv₂, hc, -⟩ := view_of_checkoutNode ((hs.of_without hv).ready hget hi) h₂
    exact ⟨_, Inode.Made.touched.mpr hm, hc, by rw [hv₂, hv]⟩
  · obtain ⟨_, w₁, h₁, h₂⟩ := bind_eq_ok.mp h
    obtain ⟨t', h₁⟩ := effect_of_call h₁
    obtain ⟨hs₁, hget, hv⟩ := hs.removed h₁
    obtain ⟨m, hm, -, hv₂, hc, -⟩ := view_of_checkoutNode (hs₁.ready hget hi) h₂
    exact ⟨_, Inode.Made.touched.mpr hm, hc, by rw [hv₂, hv, Function.update_idem]⟩

theorem rewriteNode_cases {t i : Inode} {m₀ : Node} (hs : Straight w.disk ns n)
    (hi : fullPath root i = absPath (ns ++ [n])) (hm₀ : w.disk.view (ns ++ [n]) = some m₀)
    (htype : m₀.status.type = i.status.type) (h : rewriteNode os st root t i w = .ok i' w') :
    (w' = w ∧ i' = i ∧ (t.mtime = i.mtime ∨ i.isDirectory = true)) ∨
    (t.mtime ≠ i.mtime ∧ i.isDirectory = false) ∧ ∃ m, i.Made st m ∧
      w'.disk.view = Function.update w.disk.view (ns ++ [n]) (some m) ∧
      w'.disk.Closed ∧ i' = { i with mtime := i'.mtime, status := m.status } := by
  obtain ⟨m, hget, rfl⟩ := Disk.get_of_view hm₀
  rw [rewriteNode] at h
  split_ifs at h with hc
  · right
    have hr : Ready w.disk root i ns n := by
      refine ⟨hs, hi, fun hnone => ?_, fun hd => ?_⟩
      · rw [hnone] at htype
        cases m <;> cases htype
      · rw [hc.2] at hd
        cases hd
    obtain ⟨m', hm', -, hv, hcl, rfl⟩ := view_of_checkoutNode hr h
    exact ⟨hc, _, Inode.Made.touched.mpr hm', hv, hcl, by rw [Node.status_touched]⟩
  · left
    obtain ⟨rfl, rfl⟩ := EStateM.Result.ok.inj h
    refine ⟨rfl, rfl, ?_⟩
    rw [not_and_or, not_not] at hc
    exact hc.imp_right fun hd => by simpa using hd

theorem updatePerms_cases {t i : Inode} {m : Node} (hs : Straight w.disk ns n)
    (hi : fullPath root i = absPath (ns ++ [n])) (hm : w.disk.view (ns ++ [n]) = some m)
    (h : updatePerms os st root t i w = .ok u w') :
    (w' = w ∧ t.status.perms = i.status.perms) ∨
    (t.status.perms ≠ i.status.perms ∧ w'.disk.Closed ∧ ∃ q node, w.disk.view q = some node ∧
      w'.disk.view = Function.update w.disk.view q (some (node.chmod i.status.perms)) ∧
      (m.isLink = false → q = ns ++ [n])) := by
  rw [updatePerms, hi] at h
  split_ifs at h with hp
  · right
    obtain ⟨t', h⟩ := effect_of_call h
    obtain ⟨m₁, hget, rfl⟩ := Disk.get_of_view hm
    have hclosed : ∀ q node, w.disk.view q = some node →
        w'.disk.view = Function.update w.disk.view q (some (node.chmod i.status.perms)) →
        w'.disk.Closed := by
      intro q node hq hv
      refine hs.closed.update hv ?_ fun hd => ?_
      · rcases List.eq_nil_or_concat' q with rfl | ⟨dir, m, rfl⟩
        · exact Or.inl rfl
        · refine Or.inr ⟨dir, m, rfl, hs.closed.parent dir m fun hnone => ?_⟩
          rw [Disk.view_eq_none.mpr hnone] at hq
          cases hq
      · obtain ⟨node', hnode', hd⟩ := Disk.isDir_iff_view.mp hd
        rw [hq] at hnode'
        obtain rfl := Option.some.inj hnode'
        simpa using hd
    cases hlink : m₁.isLink with
    | false =>
      have hv := hs.permissions hget hlink h
      rw [Node.touched_chmod] at hv
      exact ⟨hp, hclosed _ _ hm hv, _, _, hm, hv, fun _ => rfl⟩
    | true =>
      obtain ⟨q, node, hq, hv⟩ := permissions_cases h
      exact ⟨hp, hclosed _ _ hq hv, q, node, hq, hv, fun hl => by simp [hlink] at hl⟩
  · left
    exact ⟨((EStateM.Result.ok.inj h).2).symm, not_not.mp hp⟩

theorem updateTarget_cases {t i : Inode} (hs : Straight w.disk ns n)
    (hi : fullPath root i = absPath (ns ++ [n])) (h : updateTarget os st root t i w = .ok i' w') :
    (w' = w ∧ i.target = t.target) ∨
    i.target ≠ t.target ∧ ∃ m, i.Made st m ∧
      w'.disk.view = Function.update w.disk.view (ns ++ [n]) (some m) ∧
      w'.disk.Closed := by
  rw [updateTarget, hi] at h
  split_ifs at h with ht
  · right
    obtain ⟨_, w₁, h₁, h₂⟩ := bind_eq_ok.mp h
    obtain ⟨t', h₁⟩ := effect_of_call h₁
    obtain ⟨hs₁, hget, hv₁⟩ := hs.removed h₁
    obtain ⟨m, hm, -, hv, hc, -⟩ := view_of_checkoutNode (hs₁.ready hget hi) h₂
    exact ⟨ht, _, Inode.Made.touched.mpr hm, by rw [hv, hv₁, Function.update_idem], hc⟩
  · left
    exact ⟨((EStateM.Result.ok.inj h).2).symm, not_not.mp ht⟩

end Node

end Fstree
