import Fstree.CheckoutRun

/-!
# When a checkout converges

After a checkout a scan is to find what is in the index, and nothing else. It does
(`Fstree.checkout_converges`) as long as two things do not happen that go through symlinks the
checkout has put there. At the end of the index all that is left of the scan is removed, without
looking where its directory has gone: if this has become a symlink, something is removed behind
the symlink (`Fstree.StaleBehindLink`). And permissions are set through a symlink if they differ
from those in the index (`Fstree.LinksAgree`). A path with the name `.fstree` is never found, as
scans skip it. Nor is what `lstat` fails for: what the scan of the destination has passed over
stays there unless the index has something else to put in its place (`Fstree.FindsEnough`), and
what the scan afterwards passes over is missing from it.
-/

namespace Fstree

open Codec SortedBy Effect

/-- **The parents of all inodes are in the index**, as directories. -/
def HasParents (index : List Inode) : Prop :=
  ∀ i ∈ index, parentPath i.path = [] ∨
    ∃ j ∈ index, j.path = parentPath i.path ∧ j.isDirectory = true

/-- **A name that scans skip** is in a path of the index. -/
def HasReserved (index : List Inode) : Prop :=
  ∃ i ∈ index, ∃ c ∈ i.path.splitOn slash, c ∈ reserved

instance (index : List Inode) : Decidable (HasParents index) :=
  inferInstanceAs (Decidable (∀ i ∈ index, _ ∨ ∃ j ∈ index, _))

instance (index : List Inode) : Decidable (HasReserved index) :=
  inferInstanceAs (Decidable (∃ i ∈ index, ∃ c ∈ i.path.splitOn slash, c ∈ reserved))

/-- **Something is left of the scan behind a symlink** of the index when the index has come to
its end: it is above all paths of the index, and it was not skipped right after the symlink. -/
def StaleBehindLink (tree index : List Inode) : Prop :=
  ∃ i ∈ index, i.isSymlink = true ∧ ∃ t ∈ tree, i.path ++ [slash] <+: t.path ∧
    (∀ j ∈ index, j.path < t.path) ∧
    ∃ u ∈ tree, i.path < u.path ∧ u.path < t.path ∧ ¬ i.path ++ [slash] <+: u.path

instance (tree index : List Inode) : Decidable (StaleBehindLink tree index) :=
  inferInstanceAs (Decidable (∃ i ∈ index, _ ∧ ∃ t ∈ tree, _))

/-- **What a scan gives is what is in the index.** -/
structure Reproduces (index tree : List Inode) : Prop where
  paths : tree.map Inode.path = index.map Inode.path
  same : ∀ t ∈ tree, ∀ i ∈ index, t.path = i.path → t.status.type = i.status.type ∧
    (i.isSymlink = true → t.target = i.target) ∧
    (i.isSymlink = false → t.status.perms = i.status.perms)

theorem splitOn_pathStr {ns : List Name} (hns : ns ≠ []) :
    (pathStr ns).splitOn slash = ns.map Name.bytes :=
  List.splitOn_intercalate slash (by simpa using fun a _ => a.slash_notMem) (by simpa using hns)

/-- The directory of a name is in the index. -/
theorem HasParents.parent {index : List Inode} (h : HasParents index) :
    ∀ i ∈ index, ∀ ns n, i.path = pathStr (ns ++ [n]) →
      ns = [] ∨ ∃ j ∈ index, j.path = pathStr ns ∧ j.isDirectory = true := by
  intro i hi ns n hp
  have hi := h i hi
  rwa [hp, parentPath_pathStr, pathStr_eq_nil] at hi

/-- An index with clean paths and all parents is in order. -/
theorem inOrder_of_clean {index : List Inode} (hsorted : StrictBy Inode.path index)
    (hclean : ∀ i ∈ index, CleanPath i.path) (hparent : HasParents index) : InOrder index := by
  refine ⟨hsorted, fun i hi => ?_, hparent.parent⟩
  obtain ⟨ns, hne, hplain, hp⟩ := hclean i hi
  exact ⟨ns, hp, hne, hplain⟩

/-- The paths of an index in order can be seen if none is ignored and no name is skipped. -/
theorem InOrder.visible {ignores : Bytes → Bool} {index : List Inode} (hx : InOrder index)
    (hign : ∀ i ∈ index, ignores i.path = false) (hres : ¬ HasReserved index) {i : Inode}
    (hi : i ∈ index) {ns : List Name} (hp : i.path = pathStr ns) : Visible ignores ns := by
  have hne := (hx.names hi hp).1
  refine ⟨hne, fun n hn hr => hres ⟨i, hi, n.bytes, ?_, hr⟩, ?_⟩
  · rw [hp, splitOn_pathStr hne]
    exact List.mem_map_of_mem hn
  -- what is above a path of the index is one too
  rintro ks ls rfl hks
  by_cases hls : ls = []
  · rw [hls, List.append_nil] at hp
    exact hp ▸ hign i hi
  · obtain ⟨j, hj, hjp, -⟩ := hx.exists_above hks hls hi hp
    exact hjp ▸ hign j hj

section Converge

variable {d₀ : Disk} {ignores : Bytes → Bool} {root : List Name} {s : Scan d₀ ignores root}
  {index : List Inode} {st : Store} {exact : Prop} {os : OS} {ts : List Inode} {t : Inode}
  {w w' : World}

/-! ### The end of the index -/

/-- **There is no symlink on the way** to what is left of the scan. -/
theorem CheckoutInv.staleBehindLink (h : CheckoutInv s index st exact w.disk [] [] ts)
    (hcur : Cursors s.inodes index [] ts none) (ht : t ∈ ts)
    {ks ls : List Name} {n : Name} {m : Name} {node : Node}
    (hns : t.path = pathStr (ks ++ n :: ls ++ [m]))
    (hget : w.disk.get (root ++ (ks ++ [n])) = some node) (hlink : node.isLink = true) :
    StaleBehindLink s.inodes index := by
  have htm := hcur.suffix_tree.mem ht
  have hns' : t.path = pathStr (ks ++ [n] ++ (ls ++ [m])) := by
    rw [hns]
    simp
  obtain ⟨hv, -⟩ := s.exists_node htm hns'
  have hview := Disk.view_of_get hget
  rcases h.seen (ks ++ [n]) (hv.above (by simp)) (by simp [hview]) with
    ⟨i, hi, hni, hp⟩ | ⟨u, hu, hp⟩ | ⟨-, hover⟩
  · obtain ⟨m', hm', hstands⟩ := h.made i hi hni List.not_mem_nil _ hp
    obtain rfl := Option.some.inj (hview.symm.trans hm')
    have hsym : i.isSymlink = true := by
      rw [Inode.isSymlink, ← hstands.type, Node.status_touched, decide_eq_true_eq,
        Node.status_type_eq_symlink]
      exact hlink
    have hdir : i.isDirectory = false := by
      rw [Inode.isDirectory, of_decide_eq_true hsym]
      rfl
    have hbelow : i.path ++ [slash] <+: t.path := by
      rw [hp, hns', pathStr_below (by simp)]
      exact ⟨_, by simp, rfl⟩
    obtain ⟨u, hu, hgap⟩ := (hcur.past i hi hni hdir t ht hbelow).resolve_left (by simp)
    exact ⟨i, hi, hsym, t, htm, hbelow,
      fun j hj => hcur.order j hj List.not_mem_nil t ht, u, hu, hgap⟩
  · -- in the scan it is a directory
    obtain ⟨u', hu', hp', hud⟩ := s.exists_above htm hns' (by simp) (by simp)
    obtain rfl := s.eq_of_path hu' (hcur.suffix_tree.mem hu) (hp'.trans hp.symm)
    have hrem := (h.kept _ hu _ hp _ hview).type
    rw [Node.status_touched, Node.status_type_eq_symlink.mpr hlink, of_decide_eq_true hud] at hrem
    cases hrem
  · -- what is above something listed was not passed over
    obtain ⟨u, hu, hp, -⟩ := s.exists_above htm hns' (by simp) (by simp)
    exact absurd hp (hover u hu)

/-- **What is left of the scan is removed**, and nothing else. -/
theorem CheckoutInv.removeRest (g : Ground s index exact)
    (hclear : ¬ StaleBehindLink s.inodes index)
    (h : CheckoutInv s index st exact w.disk [] [] ts) (hcur : Cursors s.inodes index [] ts none)
    (hr : Fstree.removeRest os st root ts w = .ok () w') :
    CheckoutInv s index st exact w'.disk [] [] [] := by
  induction ts generalizing w with
  | nil =>
    obtain ⟨-, rfl⟩ := EStateM.Result.ok.inj hr
    exact h
  | cons t ts ih =>
    obtain ⟨_, w₁, h₁, h₂⟩ := bind_eq_ok.mp hr
    refine ih ?_ (hcur.popTree (by simp)) h₂
    obtain ⟨ns, hns⟩ := s.exists_names hcur.lt_tree.1
    obtain ⟨hvis, -⟩ := s.exists_node hcur.lt_tree.1 hns
    obtain ⟨up, n, rfl⟩ := (List.eq_nil_or_concat' ns).resolve_left hvis.ne_nil
    have hplain : ∀ m ∈ root ++ up, m.Plain := List.forall_mem_append.mpr
      ⟨g.plain, fun m hm => hvis.plain m (List.mem_append_left _ hm)⟩
    have hpath : fullPath root t = absPath (root ++ up ++ [n]) := fullPath_snoc hns
    rw [hpath] at h₁
    obtain ⟨time, heffect⟩ := effect_of_call h₁
    have hlook : w.disk.IsDir (root ++ up) →
        w.disk.lookup true (absPath (root ++ up)) = .ok (.at (root ++ up)) :=
      Disk.lookup_of_isDir h.closed hplain
    rcases removeAll_cases h.closed (hvis.plain n (by simp)) heffect with
      ⟨he, hnone⟩ | ⟨dir, hl, hdir, hv⟩
    · -- it was gone
      rw [he]
      refine h.drop (by simp) hns ?_
      rw [Disk.view_eq_none, ← List.append_assoc]
      by_cases hup : w.disk.IsDir (root ++ up)
      · exact hnone _ (hlook hup) hup
      · exact h.closed.nothing_below hup (by simp)
    · by_cases hup : w.disk.IsDir (root ++ up)
      · obtain rfl := Place.at.inj (Except.ok.inj ((hlook hup).symm.trans hl))
        have hc := h.closed.without hv (by simp)
        rw [List.append_assoc] at hv
        refine (h.removed hcur g (by simp) (fun j hj hjp => ?_) hc hv).drop (by simp) hns ?_
        · exact lt_irrefl _ (hns ▸ hjp ▸ hcur.order j hj List.not_mem_nil t (by simp))
        · rw [hv, Disk.without, if_pos List.prefix_rfl]
      · obtain ⟨ks, k, ls, node, rfl, hget, hlink⟩ :=
          h.closed.exists_link h.isDir hplain hup hl hdir
        exact absurd (h.staleBehindLink hcur (by simp) hns hget hlink) hclear

/-! ### Convergence -/

/-- **The scan has found enough**: what it has passed over, though it can be seen, is at a path
of the index, and does no harm there. -/
structure FindsEnough (s : Scan d₀ ignores root) (index : List Inode) : Prop where
  hidden : HiddenHarmless s index
  passed : ∀ ns, Visible ignores ns → PassedOver s ns → ∃ i ∈ index, i.path = pathStr ns

/-- A complete scan has found enough for an index whose paths it can see. -/
theorem Scan.Complete.findsEnough (hs : s.Complete) (hd : d₀.Closed)
    (hv : ∀ i ∈ index, ∀ ns, i.path = pathStr ns → Visible ignores ns) :
    FindsEnough s index where
  hidden := hs.hiddenHarmless hd hv
  passed ns hvis hover := by
    obtain ⟨node, hget⟩ := Option.ne_none_iff_exists'.mp hover.1
    obtain ⟨t, ht, hp, -⟩ := hs.exists_mem hd hvis hget
    exact absurd hp (hover.2 t ht)

/-- **A scan misses something of an index**: `lstat` fails at one of its paths. -/
def Misses (root : List Name) (index : List Inode) (lost : List Name → Bool) : Prop :=
  ∃ i ∈ index, ∃ ns, i.path = pathStr ns ∧ lost (root ++ ns) = true

/-- What stands at the paths of an index is listed, unless `lstat` fails for it. -/
theorem InOrder.listed {d : Disk} {lost : List Name → Bool} (hx : InOrder index)
    (hv : ∀ i ∈ index, ∀ ns, i.path = pathStr ns → Visible ignores ns)
    (hmade : ∀ i ∈ index, ∀ ns, i.path = pathStr ns →
      ∃ node, d.get (root ++ ns) = some node ∧ (i.isDirectory = true → node.isDir = true))
    (hlost : ¬ Misses root index lost) (ns : List Name) : ∀ i ∈ index, i.path = pathStr ns →
      ∃ node, Listed d lost ignores root ns node := by
  induction ns using List.reverseRecOn with
  | nil =>
    intro i hi hp
    exact absurd rfl (hv i hi _ hp).ne_nil
  | append_singleton ns n ih =>
    intro i hi hp
    obtain ⟨node, hget, -⟩ := hmade i hi _ hp
    obtain ⟨-, hres, hign⟩ := visible_concat.mp (hv i hi _ hp)
    refine ⟨node, listed_concat.mpr ⟨?_, Disk.lstat_eq_some.mpr ⟨?_, hget⟩, hres, hign⟩⟩
    · refine (hx.parent i hi ns n hp).imp id ?_
      rintro ⟨j, hj, hjp, hjd⟩
      obtain ⟨dir, hl⟩ := ih j hj hjp
      obtain ⟨dir', hget', hisDir⟩ := hmade j hj ns hjp
      obtain rfl := Option.some.inj (hl.get.symm.trans hget')
      exact ⟨dir, hl, hisDir hjd⟩
    · refine Bool.eq_false_iff.mpr fun h => hlost ⟨i, hi, _, hp, h⟩

/-- What is left in the end is what is in the index, as far as `lstat` sees it. -/
theorem CheckoutInv.reproduces {d : Disk} (h : CheckoutInv s index st True d [] [] [])
    (g : Ground s index True) (hf : FindsEnough s index)
    (hv : ∀ i ∈ index, ∀ ns, i.path = pathStr ns → Visible ignores ns)
    (s' : Scan d ignores root) (hlost : ¬ Misses root index s'.lost) :
    Reproduces index s'.inodes := by
  have hmade : ∀ i ∈ index, ∀ ns, i.path = pathStr ns →
      ∃ node, d.get (root ++ ns) = some node ∧ (i.isDirectory = true → node.isDir = true) := by
    intro i hi ns hns
    obtain ⟨m, hm, hstands⟩ := h.made i hi nofun nofun ns hns
    obtain ⟨node, hget, rfl⟩ := Disk.get_of_view hm
    refine ⟨node, hget, fun hdir => ?_⟩
    rw [← Node.status_type_eq_directory, ← Node.status_touched, hstands.type]
    exact of_decide_eq_true hdir
  have hpaths : ∀ p, p ∈ s'.inodes.map Inode.path ↔ p ∈ index.map Inode.path := by
    intro p
    simp only [List.mem_map]
    constructor
    · rintro ⟨t, ht, rfl⟩
      obtain ⟨ns, hns⟩ := s'.exists_names ht
      obtain ⟨hvis, node, hget, -⟩ := s'.exists_node ht hns
      rcases h.seen ns hvis (by rw [Disk.view_of_get hget]; exact nofun) with
        ⟨i, hi, -, hp⟩ | ⟨u, hu, -⟩ | hover
      · exact ⟨i, hi, hp.trans hns.symm⟩
      · cases hu
      · obtain ⟨i, hi, hp⟩ := hf.passed ns hvis hover
        exact ⟨i, hi, hp.trans hns.symm⟩
    · rintro ⟨i, hi, rfl⟩
      obtain ⟨ns, hns, -⟩ := g.order.clean i hi
      obtain ⟨node, hl⟩ := g.order.listed hv hmade hlost ns i hi hns
      obtain ⟨t, ht, hp, -⟩ := s'.exists_inode hl
      exact ⟨t, ht, hp.trans hns.symm⟩
  refine ⟨?_, fun t ht i hi hp => ?_⟩
  · have hsorted : StrictBy id (s'.inodes.map Inode.path) :=
      List.pairwise_map.mpr s'.strictBy_inodes
    exact hsorted.eq_of_mem_iff (List.pairwise_map.mpr g.order.sorted) hpaths
  · obtain ⟨ns, hns⟩ := s'.exists_names ht
    obtain ⟨-, node, hget, hstatus, -, htarget⟩ := s'.exists_node ht hns
    obtain ⟨m, hm, hstands⟩ := h.made i hi nofun nofun ns (hp.symm.trans hns)
    rw [Disk.view_of_get hget] at hm
    obtain rfl := Option.some.inj hm
    have htype := hstands.type
    rw [Node.status_touched] at htype
    refine ⟨by rw [hstatus, htype], fun hsym => ?_, fun hsym => ?_⟩
    · have hl : node.isLink = true := by
        rw [← Node.status_type_eq_symlink, htype]
        exact of_decide_eq_true hsym
      rw [htarget, ← Node.target_touched, hstands.target (by simpa using hl)]
    · have hl : node.isLink = false := by
        refine Bool.eq_false_iff.mpr fun hl => ?_
        rw [Inode.isSymlink, ← htype, Node.status_type_eq_symlink.mpr hl] at hsym
        cases hsym
      rw [hstatus, ← Node.status_touched, hstands.perms trivial (by simpa using hl)]

/-- A name that scans skip is not found. -/
theorem not_reproduces_of_hasReserved {d : Disk} (hclean : ∀ i ∈ index, CleanPath i.path)
    (hres : HasReserved index) (s' : Scan d ignores root) : ¬ Reproduces index s'.inodes := by
  intro h
  obtain ⟨i, hi, c, hc, hcr⟩ := hres
  obtain ⟨ns, hne, -, hp⟩ := hclean i hi
  have hmem : i.path ∈ index.map Inode.path := List.mem_map_of_mem hi
  rw [← h.paths, List.mem_map] at hmem
  obtain ⟨t, ht, htp⟩ := hmem
  obtain ⟨ms, m, node, hl, rfl⟩ := s'.mem_inodes.mp ht
  obtain rfl : ms ++ [m] = ns :=
    pathStr_injective ((show _ = _ by simp [scanned]).trans (htp.trans hp))
  rw [hp, splitOn_pathStr hne, List.mem_map] at hc
  obtain ⟨n, hn, rfl⟩ := hc
  exact hl.1.not_reserved n hn hcr

/-- What `lstat` fails for is not found. -/
theorem not_reproduces_of_misses {d : Disk} (s' : Scan d ignores root)
    (hlost : Misses root index s'.lost) : ¬ Reproduces index s'.inodes := by
  intro h
  obtain ⟨i, hi, ns, hp, hns⟩ := hlost
  have hmem : i.path ∈ index.map Inode.path := List.mem_map_of_mem hi
  rw [← h.paths, List.mem_map] at hmem
  obtain ⟨t, ht, htp⟩ := hmem
  obtain ⟨node, hl, -⟩ := s'.exists_listed ht (htp.trans hp)
  have hlstat := (Disk.lstat_eq_some.mp hl.1.lstat).1
  rw [List.nil_append, hns] at hlstat
  cases hlstat

end Converge

/-- **When a checkout converges.** Whatever the destination holds, if a checkout of an index
that is sorted, has clean paths and the parents of all of them, none of which is ignored,
returns, then a scan in which `lstat` fails at no path of the index finds what is in the index,
and no other scan does, provided that no name in it is skipped by scans, the scan of the checkout
has found enough, nothing is left behind a symlink at the end of the index, and no permissions
are set through one. If a name is skipped, no scan does. -/
theorem checkout_converges {d₀ : Disk} {ignores : Bytes → Bool} {root : List Name}
    {s : Scan d₀ ignores root} {index : List Inode} {os : OS} {st : Store} {l : List Inode}
    {w : World} (hd : d₀.Closed) (hroot : ∀ n ∈ root, n.Plain)
    (hsorted : StrictBy Inode.path index) (hclean : ∀ i ∈ index, CleanPath i.path)
    (hparent : HasParents index) (hign : ∀ i ∈ index, ignores i.path = false)
    (hr : checkout os st root s.inodes index ⟨d₀, []⟩ = .ok l w) :
    (¬ HasReserved index ∧ FindsEnough s index ∧ ¬ StaleBehindLink s.inodes index ∧
        LinksAgree s.inodes index →
      w.disk.IsDir root ∧ ∀ s' : Scan w.disk ignores root,
        (Reproduces index s'.inodes ↔ ¬ Misses root index s'.lost)) ∧
    (HasReserved index → ∀ s' : Scan w.disk ignores root, ¬ Reproduces index s'.inodes) := by
  refine ⟨?_, fun hres s' => not_reproduces_of_hasReserved hclean hres s'⟩
  rintro ⟨hres, hfinds, hstale, hlinks⟩
  have horder := inOrder_of_clean hsorted hclean hparent
  have g : Ground s index True := ⟨hd, hroot, horder, hfinds.hidden, fun _ => hlinks⟩
  obtain ⟨w₁, ts, h, hcur, hrest⟩ := runsOut_of_checkout g rfl hr
  have hend := h.removeRest g hstale hcur hrest
  refine ⟨hend.isDir, fun s' => ⟨fun hrep hlost => not_reproduces_of_misses s' hlost hrep, ?_⟩⟩
  exact hend.reproduces g hfinds (fun i hi ns => horder.visible hign hres hi) s'

namespace Sample

/-- The destination, and names in it. -/
def nameW : Name := ⟨ascii ['w'], by decide, by decide⟩

@[inherit_doc nameW] def nameF : Name := ⟨ascii ['f'], by decide, by decide⟩

@[inherit_doc nameW] def nameZ : Name := ⟨ascii ['z'], by decide, by decide⟩

@[inherit_doc nameW] def nameZDash : Name := ⟨ascii ['z', '-'], by decide, by decide⟩

/-- A destination with a directory `z` with a file in it. -/
def destination : Disk :=
  ⟨[([], .dir 0o755 1 0), ([nameW], .dir 0o755 1 0), ([nameW, nameZ], .dir 0o755 1 0),
    ([nameW, nameZ, nameF], .file 0o644 1 (ascii ['x']))]⟩

/-- The same with a file `z-`, which is between the two in the order of the paths. -/
def destinationGap : Disk := ⟨destination.entries ++ [([nameW, nameZDash], .file 0o644 1 [])]⟩

/-- An inode of an index that was pulled. -/
def fetchedInode (p : List Name) (type : FileType) (target : Bytes) : Inode where
  path := pathStr p
  status := ⟨type, 0o755⟩
  mtime := 0
  size := 0
  target := target
  parent := some (pathStr p.dropLast)

/-- The index: a directory `a` with a file in it, and a symlink `z` to `a`. -/
def linked : List Inode :=
  [fetchedInode [nameA] .directory [], fetchedInode [nameA, nameF] .regular [],
    fetchedInode [nameZ] .symlink (ascii ['a'])]

/-- A cache with the file. -/
def linkedStore : Store := Store.empty.put (filePath Digest.none) (ascii ['x'])

/-- A system that denies nothing. -/
def kind : OS := ⟨fun n => BitVec.ofNat 64 n, fun _ => false, 0o755, 0o644⟩

/-- Whether a run returns with such a disk. -/
def leaves (r : EStateM.Result CheckoutError World (List Inode)) (p : Disk → Bool) : Bool :=
  match r with
  | .ok _ w => p w.disk
  | .error .. => false

theorem exists_of_leaves {r : EStateM.Result CheckoutError World (List Inode)} {p : Disk → Bool}
    (h : leaves r p = true) : ∃ l w, r = .ok l w ∧ p w.disk = true := by
  cases r with
  | ok l w => exact ⟨l, w, rfl, h⟩
  | error e w => cases h

/-- The scan of a single thread, under an empty ignore list. -/
def scanOf (d : Disk) (h : d.IsDir [nameW]) : Scan d (fun _ => false) [nameW] :=
  Scan.sequential d _ _ h

theorem closed_destination : destination.Closed :=
  (Disk.wellFormed_of_entries (by decide) (by decide) (by decide)).closed'

theorem closed_destinationGap : destinationGap.Closed :=
  (Disk.wellFormed_of_entries (by decide) (by decide) (by decide)).closed'

theorem plain_nameW : ∀ n ∈ [nameW], n.Plain := by decide

theorem sorted_linked : StrictBy Inode.path linked := by
  simp only [StrictBy, linked, List.pairwise_cons]
  decide

theorem clean_linked : ∀ i ∈ linked, CleanPath i.path := by
  intro i hi
  simp only [linked, List.mem_cons, List.not_mem_nil, or_false] at hi
  rcases hi with rfl | rfl | rfl
  · exact ⟨[nameA], by decide, by decide, rfl⟩
  · exact ⟨[nameA, nameF], by decide, by decide, rfl⟩
  · exact ⟨[nameZ], by decide, by decide, rfl⟩

/-- The scan of a single thread has found enough. -/
theorem findsEnough : FindsEnough (scanOf destination (by decide)) linked :=
  (Scan.complete_sequential _).findsEnough closed_destination fun i hi ns =>
    (inOrder_of_clean sorted_linked clean_linked (by decide)).visible (fun _ _ => rfl)
      (by decide) hi

/-- The file is gone that the symlink leads to. -/
theorem gone_of_gap : leaves (checkout kind linkedStore [nameW]
    (scanOf destinationGap (by decide)).inodes linked ⟨destinationGap, []⟩)
      (fun d => d.IsDir [nameW] ∧ d.get [nameW, nameA, nameF] = none) = true := by decide +kernel

end Sample

/-- A directory with a file in it has become a symlink: what is below it is skipped. -/
theorem checkout_converges_sample : ∃ w : World,
    w.disk.IsDir [Sample.nameW] ∧
      ∀ s' : Scan w.disk (fun _ => false) [Sample.nameW],
        (Reproduces Sample.linked s'.inodes ↔ ¬ Misses [Sample.nameW] Sample.linked s'.lost) := by
  have hleaves : Sample.leaves (checkout Sample.kind Sample.linkedStore [Sample.nameW]
      (Sample.scanOf Sample.destination (by decide)).inodes Sample.linked
      ⟨Sample.destination, []⟩) (fun _ => true) = true := by decide +kernel
  obtain ⟨l, w, hr, -⟩ := Sample.exists_of_leaves hleaves
  refine ⟨w, (checkout_converges Sample.closed_destination Sample.plain_nameW Sample.sorted_linked
    Sample.clean_linked (by decide) (fun _ _ => rfl) hr).1
      ⟨by decide, Sample.findsEnough, by decide +kernel, ?_⟩⟩
  intro t ht i hi
  revert t i
  decide +kernel

/-- **A checkout need not converge**: what is left of the scan is removed at the end of the
index through the symlink that its directory has become. -/
theorem checkout_not_converges : ¬ ∀ (d₀ : Disk) (ignores : Bytes → Bool) (root : List Name)
    (s : Scan d₀ ignores root) (index : List Inode) (os : OS) (st : Store) (l : List Inode)
    (w : World), d₀.Closed → (∀ n ∈ root, n.Plain) → StrictBy Inode.path index →
    (∀ i ∈ index, CleanPath i.path) → HasParents index →
    (∀ i ∈ index, ignores i.path = false) →
    checkout os st root s.inodes index ⟨d₀, []⟩ = .ok l w →
    ∀ s' : Scan w.disk ignores root, Reproduces index s'.inodes := by
  intro h
  obtain ⟨l, w, hr, hgone⟩ := Sample.exists_of_leaves Sample.gone_of_gap
  obtain ⟨hdir, hnone⟩ := of_decide_eq_true hgone
  have hrep := h _ _ _ _ _ _ _ _ _ Sample.closed_destinationGap Sample.plain_nameW
    Sample.sorted_linked Sample.clean_linked (by decide) (fun _ _ => rfl) hr
    (Sample.scanOf w.disk hdir)
  have hmem : pathStr [Sample.nameA, Sample.nameF] ∈ Sample.linked.map Inode.path := by decide
  rw [← hrep.paths, List.mem_map] at hmem
  obtain ⟨t, ht, hp⟩ := hmem
  obtain ⟨ms, m, node, hl, rfl⟩ := (Sample.scanOf w.disk hdir).mem_inodes.mp ht
  have hms : ms ++ [m] = [Sample.nameA, Sample.nameF] :=
    pathStr_injective (Eq.trans (by simp [scanned]) hp)
  have hget := hl.get
  rw [hms] at hget
  exact Option.some_ne_none _ (hget.symm.trans hnone)

end Fstree
