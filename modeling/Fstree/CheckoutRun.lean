import Fstree.CheckoutNode

/-!
# What a checkout has done so far

The loop of `index::checkout` has gone through a part of the scan and a part of the index. At
the path of every inode of the index it has passed stands what the inode says
(`Fstree.Inode.Stands`), and everything else that can be seen is still to come in the old scan, or
was passed over by it (`Fstree.CheckoutInv`). The scan is behind the times – what was below a
directory that has become something else is in it, and gone – but nothing new has come up at the
paths in it. What it has passed over does no harm unless it is a symlink where the index has a
directory: `create_directory` takes this for the directory that it leads to
(`Fstree.HiddenHarmless`).

Where the cursors are is apart from that (`Fstree.Cursors`). Paths below one that has become a
symlink are skipped, as long as they follow it without a gap: in the order of the strings, a
directory and what is below it may have something else between them.
-/

namespace Fstree

open Codec SortedBy Effect

/-! ### What a scan can see -/

/-- **What a scan can see**: it has a path of names that are not skipped, and neither it nor
anything on the way is ignored. -/
structure Visible (ignores : Bytes → Bool) (ns : List Name) : Prop where
  ne_nil : ns ≠ []
  reserved : ∀ n ∈ ns, n.bytes ∉ Fstree.reserved
  ignored : ∀ ks ls, ns = ks ++ ls → ks ≠ [] → ignores (pathStr ks) = false

section Visible

variable {d : Disk} {ignores : Bytes → Bool} {root ns ks ls : List Name} {n : Name} {node : Node}

theorem Visible.above (h : Visible ignores (ks ++ ls)) (hk : ks ≠ []) : Visible ignores ks where
  ne_nil := hk
  reserved n hn := h.reserved n (List.mem_append_left _ hn)
  ignored ms _ he hm := h.ignored ms _ (by rw [he, List.append_assoc]) hm

theorem Visible.plain (h : Visible ignores ns) : ∀ n ∈ ns, n.Plain := by
  intro n hn
  have hres := h.reserved n hn
  simp only [Fstree.reserved, List.mem_cons, not_or] at hres
  exact ⟨hres.1, hres.2.1⟩

theorem visible_concat : Visible ignores (ns ++ [n]) ↔
    (ns = [] ∨ Visible ignores ns) ∧ n.bytes ∉ reserved ∧
      ignores (pathStr (ns ++ [n])) = false := by
  constructor
  · intro h
    refine ⟨?_, h.reserved n (by simp), h.ignored _ [] (by simp) (by simp)⟩
    by_cases hns : ns = []
    · exact Or.inl hns
    · exact Or.inr (h.above hns)
  · rintro ⟨hns, hres, hign⟩
    refine ⟨by simp, fun m hm => ?_, fun ks ls he hk => ?_⟩
    · rcases List.mem_append.mp hm with hm | hm
      · rcases hns with rfl | hns
        · cases hm
        · exact hns.reserved m hm
      · rwa [List.mem_singleton.mp hm]
    · rcases List.eq_nil_or_concat' ls with rfl | ⟨ls, l, rfl⟩
      · rwa [← List.append_nil ks, ← he]
      · rw [← List.append_assoc] at he
        obtain ⟨rfl, -⟩ := List.append_inj' he rfl
        rcases hns with hns | hns
        · exact absurd (List.append_eq_nil_iff.mp hns).1 hk
        · exact hns.ignored ks ls rfl hk

variable {lost : List Name → Bool}

/-- **What is listed can be seen.** -/
theorem Listed.visible (h : Listed d lost ignores root ns node) : Visible ignores ns := by
  induction ns using List.reverseRecOn generalizing node with
  | nil => exact absurd rfl h.ne_nil
  | append_singleton ns n ih =>
    obtain ⟨hns, -, hres, hign⟩ := listed_concat.mp h
    refine visible_concat.mpr ⟨hns.imp id ?_, hres, hign⟩
    rintro ⟨dir, hdir, -⟩
    exact ih hdir

/-- What is above something listed is a directory, and listed too. -/
theorem Listed.above (h : Listed d lost ignores root (ks ++ ls) node) (hk : ks ≠ [])
    (hl : ls ≠ []) : ∃ dir, Listed d lost ignores root ks dir ∧ dir.isDir = true := by
  induction ls using List.reverseRecOn generalizing node with
  | nil => exact absurd rfl hl
  | append_singleton ls l ih =>
    rw [← List.append_assoc] at h
    rcases (listed_concat.mp h).1 with hnil | ⟨dir, hdir, hisDir⟩
    · exact absurd (List.append_eq_nil_iff.mp hnil).1 hk
    · by_cases hls : ls = []
      · subst hls
        exact ⟨dir, by simpa using hdir, hisDir⟩
      · exact ih hdir hls

/-- **A scan lists what is there and can be seen**, as far as `lstat` sees it. -/
theorem listed_iff (hd : d.Closed) : Listed d lost ignores root ns node ↔
    d.get (root ++ ns) = some node ∧ Visible ignores ns ∧ Seen lost root ns := by
  induction ns using List.reverseRecOn generalizing node with
  | nil => exact ⟨fun h => absurd rfl h.ne_nil, fun h => absurd rfl h.2.1.ne_nil⟩
  | append_singleton ns n ih =>
    rw [listed_concat, visible_concat, seen_concat, Disk.lstat_eq_some]
    constructor
    · rintro ⟨hdir, ⟨hlost, hget⟩, hres, hign⟩
      have hup : ns = [] ∨ Visible ignores ns ∧ Seen lost root ns :=
        hdir.imp id fun ⟨dir, hl, _⟩ => (ih.mp hl).2
      refine ⟨hget, ⟨hup.imp id And.left, hres, hign⟩, ?_, hlost⟩
      rcases hup with rfl | ⟨-, hseen⟩
      · exact fun ks hks hne => absurd (List.prefix_nil.mp hks) hne
      · exact hseen
    · rintro ⟨hget, ⟨hup, hres, hign⟩, hseen, hlost⟩
      refine ⟨hup.imp id fun hv => ?_, ⟨hlost, hget⟩, hres, hign⟩
      rw [← List.append_assoc] at hget
      obtain ⟨dir, hdir, hisDir⟩ := hd.parent (root ++ ns) n (by rw [hget]; simp)
      exact ⟨dir, ih.mpr ⟨hdir, hv, hseen⟩, hisDir⟩

end Visible

namespace Scan

variable {d : Disk} {ignores : Bytes → Bool} {root ns ks ls : List Name}
  (s : Scan d ignores root) {t : Inode} {node : Node}

/-- **A complete scan lists what is there and can be seen.** -/
theorem Complete.listed_iff {s : Scan d ignores root} (hs : s.Complete) (hd : d.Closed) :
    Listed d s.lost ignores root ns node ↔
      d.get (root ++ ns) = some node ∧ Visible ignores ns := by
  rw [Fstree.listed_iff hd]
  refine and_congr_right fun hget => and_iff_left ?_
  rintro ks ⟨ls, rfl⟩ -
  refine hs _ fun hnone => ?_
  by_cases hls : ls = []
  · rw [hls, List.append_nil, hnone] at hget
    cases hget
  · rw [← List.append_assoc] at hget
    obtain ⟨node', hget', -⟩ := hd.isDir_above hls (by rw [hget]; exact nofun)
    rw [hnone] at hget'
    cases hget'

/-- The node of a listed inode. -/
theorem exists_listed (ht : t ∈ s.inodes) (hp : t.path = pathStr ns) :
    ∃ node, Listed d s.lost ignores root ns node ∧ t.status = node.status ∧
      t.mtime = node.mtime ∧ t.target = node.target := by
  obtain ⟨ms, m, node, hl, rfl⟩ := s.mem_inodes.mp ht
  obtain rfl : ns = ms ++ [m] := pathStr_injective (hp.symm.trans (by simp [scanned]))
  exact ⟨node, hl, rfl, rfl, rfl⟩

theorem exists_node (ht : t ∈ s.inodes) (hp : t.path = pathStr ns) :
    Visible ignores ns ∧ ∃ node, d.get (root ++ ns) = some node ∧ t.status = node.status ∧
      t.mtime = node.mtime ∧ t.target = node.target := by
  obtain ⟨node, hl, hnode⟩ := s.exists_listed ht hp
  exact ⟨hl.visible, node, hl.get, hnode⟩

theorem exists_names (ht : t ∈ s.inodes) : ∃ ns, t.path = pathStr ns := by
  obtain ⟨ms, m, node, -, rfl⟩ := s.mem_inodes.mp ht
  exact ⟨ms ++ [m], by simp [scanned]⟩

/-- The inode of what is there and can be seen, unless it was passed over. -/
theorem Complete.exists_mem {s : Scan d ignores root} (hs : s.Complete) (hd : d.Closed)
    (hv : Visible ignores ns) (hget : d.get (root ++ ns) = some node) :
    ∃ t ∈ s.inodes, t.path = pathStr ns ∧ t.status = node.status :=
  s.exists_inode ((hs.listed_iff hd).mpr ⟨hget, hv⟩)

theorem eq_of_path (ht : t ∈ s.inodes) {t' : Inode} (ht' : t' ∈ s.inodes)
    (h : t.path = t'.path) : t = t' :=
  eq_of_key_eq s.strictBy_inodes.nodup_keys ht ht' h

/-- **What is above a listed inode is a listed directory.** -/
theorem exists_above (ht : t ∈ s.inodes) (hp : t.path = pathStr (ks ++ ls))
    (hk : ks ≠ []) (hl : ls ≠ []) :
    ∃ t' ∈ s.inodes, t'.path = pathStr ks ∧ t'.isDirectory = true := by
  obtain ⟨node, hnode, -⟩ := s.exists_listed ht hp
  obtain ⟨dir, hdir, hisDir⟩ := hnode.above hk hl
  obtain ⟨t', ht', hp', hst⟩ := s.exists_inode hdir
  exact ⟨t', ht', hp', by simpa [Inode.isDirectory, hst] using hisDir⟩

end Scan

/-! ### Indexes that can be checked out -/

/-- **An index in order**: sorted by path, with clean relative paths, and the directory of
everything that is in it. -/
structure InOrder (index : List Inode) : Prop where
  sorted : StrictBy Inode.path index
  clean : ∀ i ∈ index, ∃ ns, i.path = pathStr ns ∧ ns ≠ [] ∧ ∀ n ∈ ns, n.Plain
  parent : ∀ i ∈ index, ∀ ns n, i.path = pathStr (ns ++ [n]) →
    ns = [] ∨ ∃ j ∈ index, j.path = pathStr ns ∧ j.isDirectory = true

/-- If the directory of everything is in an index, what is above an inode is. -/
theorem exists_above_of_parent {index : List Inode} {i : Inode} {ks ls : List Name}
    (hparent : ∀ i ∈ index, ∀ ns n, i.path = pathStr (ns ++ [n]) →
      ns = [] ∨ ∃ j ∈ index, j.path = pathStr ns ∧ j.isDirectory = true)
    (hk : ks ≠ []) (hl : ls ≠ []) (hi : i ∈ index) (hp : i.path = pathStr (ks ++ ls)) :
    ∃ j ∈ index, j.path = pathStr ks ∧ j.isDirectory = true := by
  induction ls using List.reverseRecOn generalizing i with
  | nil => exact absurd rfl hl
  | append_singleton ls l ih =>
    rw [← List.append_assoc] at hp
    rcases hparent i hi _ _ hp with hnil | ⟨j, hj, hjp, hjd⟩
    · exact absurd (List.append_eq_nil_iff.mp hnil).1 hk
    · by_cases hls : ls = []
      · exact ⟨j, hj, by simpa [hls] using hjp, hjd⟩
      · exact ih hls hj hjp

namespace InOrder

variable {index : List Inode} {i j : Inode} {ns ks ls : List Name}

/-- The names of a path of the index. -/
theorem names (h : InOrder index) (hi : i ∈ index) (hp : i.path = pathStr ns) :
    ns ≠ [] ∧ ∀ n ∈ ns, n.Plain := by
  obtain ⟨ms, hms, hv⟩ := h.clean i hi
  obtain rfl : ns = ms := pathStr_injective (hp.symm.trans hms)
  exact hv

theorem eq_of_path (h : InOrder index) (hi : i ∈ index) (hj : j ∈ index)
    (hp : i.path = j.path) : i = j :=
  eq_of_key_eq h.sorted.nodup_keys hi hj hp

/-- **What is above an inode of the index is a directory of the index.** -/
theorem exists_above (h : InOrder index) (hk : ks ≠ []) (hl : ls ≠ []) (hi : i ∈ index)
    (hp : i.path = pathStr (ks ++ ls)) :
    ∃ j ∈ index, j.path = pathStr ks ∧ j.isDirectory = true :=
  exists_above_of_parent h.parent hk hl hi hp

/-- There is nothing of the index below what is no directory. -/
theorem nothing_below (h : InOrder index) (hi : i ∈ index) (hd : i.isDirectory = false)
    (hp : i.path = pathStr ks) (hl : ls ≠ []) : ∀ j ∈ index, j.path ≠ pathStr (ks ++ ls) := by
  intro j hj hjp
  obtain ⟨i', hi', hp', hd'⟩ := h.exists_above (h.names hi hp).1 hl hj hjp
  rw [h.eq_of_path hi' hi (hp'.trans hp.symm), hd] at hd'
  cases hd'

end InOrder

/-! ### Where the cursors are -/

/-- **Where the two cursors are**: at `is` in the index and at `ts` in the scan, with the prefix
of the paths that are skipped. -/
structure Cursors (tree index is ts : List Inode) (skip : Option Bytes) : Prop where
  suffix_index : is <:+ index
  suffix_tree : ts <:+ tree
  /-- What was passed in the index is below what is left of the scan. -/
  order : ∀ i ∈ index, i ∉ is → ∀ t ∈ ts, i.path < t.path
  /-- What was passed in the scan is not at a path that is left of the index. -/
  gone : ∀ t ∈ tree, t ∉ ts → ∀ i ∈ is, t.path ≠ i.path
  skips : ∀ p, skip = some p → ∃ i ∈ index, i ∉ is ∧ i.isDirectory = false ∧ p = i.path ++ [slash]
  /-- What is left below something that is no directory is skipped, or there is a gap. -/
  past : ∀ i ∈ index, i ∉ is → i.isDirectory = false → ∀ t ∈ ts, i.path ++ [slash] <+: t.path →
    skip = some (i.path ++ [slash]) ∨
      ∃ u ∈ tree, i.path < u.path ∧ u.path < t.path ∧ ¬ i.path ++ [slash] <+: u.path

/-- A path string below another. -/
theorem pathStr_below {ks ns : List Name} (hk : ks ≠ []) :
    pathStr ks ++ [slash] <+: pathStr ns ↔ ∃ ls, ls ≠ [] ∧ ns = ks ++ ls := by
  constructor
  · rintro ⟨q, hq⟩
    rw [List.append_assoc, List.singleton_append] at hq
    obtain ⟨ks', ls, rfl, -, hls, hks, -⟩ := pathStr_cut hq.symm
    exact ⟨ls, hls, by rw [pathStr_injective hks]⟩
  · rintro ⟨ls, hls, rfl⟩
    exact ⟨pathStr ls, by rw [pathStr_append hk hls]; simp⟩

namespace Cursors

variable {d₀ : Disk} {ignores : Bytes → Bool} {root : List Name} {s : Scan d₀ ignores root}
  {index is ts : List Inode} {skip : Option Bytes} {t i : Inode}

theorem start : Cursors s.inodes index index s.inodes none where
  suffix_index := List.suffix_rfl
  suffix_tree := List.suffix_rfl
  order _ hi hn := absurd hi hn
  gone _ ht hn := absurd ht hn
  skips := nofun
  past _ hi hn := absurd hi hn

/-- What the cursor of the index is at is below what is left behind it. -/
theorem lt_index (h : Cursors s.inodes index (i :: is) ts skip) (hx : InOrder index) :
    i ∈ index ∧ i ∉ is ∧ ∀ j ∈ is, i.path < j.path := by
  have hsorted := strictBy_cons.mp (hx.sorted.sublist h.suffix_index.sublist)
  exact ⟨h.suffix_index.mem (by simp), fun hi => lt_irrefl _ (hsorted.1 i hi), hsorted.1⟩

theorem lt_tree (h : Cursors s.inodes index is (t :: ts) skip) :
    t ∈ s.inodes ∧ t ∉ ts ∧ ∀ u ∈ ts, t.path < u.path := by
  have hsorted := strictBy_cons.mp (s.strictBy_inodes.sublist h.suffix_tree.sublist)
  exact ⟨h.suffix_tree.mem (by simp), fun ht => lt_irrefl _ (hsorted.1 t ht), hsorted.1⟩

/-- **What is not skipped** is the gap that ends the skipping. -/
theorem noSkip (h : Cursors s.inodes index is (t :: ts) skip)
    (hskip : ¬ (skip.any fun p => p.isPrefixOf t.path) = true) :
    Cursors s.inodes index is (t :: ts) none where
  suffix_index := h.suffix_index
  suffix_tree := h.suffix_tree
  order := h.order
  gone := h.gone
  skips := nofun
  past i hi hni hd u hu hp := by
    refine (h.past i hi hni hd u hu hp).elim (fun he => Or.inr ?_) Or.inr
    have ht : ¬ i.path ++ [slash] <+: t.path := by
      rw [he] at hskip
      simpa using hskip
    rcases List.mem_cons.mp hu with rfl | hu
    · exact absurd hp ht
    · exact ⟨t, h.lt_tree.1, h.order i hi hni t (by simp), h.lt_tree.2.2 u hu, ht⟩

/-- The cursor of the scan moves on. -/
theorem popTree (h : Cursors s.inodes index is (t :: ts) skip) (ht : ∀ i ∈ is, t.path ≠ i.path) :
    Cursors s.inodes index is ts skip where
  suffix_index := h.suffix_index
  suffix_tree := (List.suffix_cons t ts).trans h.suffix_tree
  order i hi hni u hu := h.order i hi hni u (List.mem_cons_of_mem _ hu)
  gone u hu hnu := by
    by_cases hut : u = t
    · rwa [hut]
    · exact h.gone u hu (by simp [hut, hnu])
  skips := h.skips
  past i hi hni hd u hu := h.past i hi hni hd u (List.mem_cons_of_mem _ hu)

/-- A listed inode below something shows that this is a directory. -/
theorem dir_of_below (hx : InOrder index) (hi : i ∈ index) {u : Inode}
    (hu : u ∈ s.inodes) (hp : i.path ++ [slash] <+: u.path) :
    ∃ t ∈ s.inodes, t.path = i.path ∧ t.isDirectory = true := by
  obtain ⟨ks, hks, hne, -⟩ := hx.clean i hi
  obtain ⟨ns, hns⟩ := s.exists_names hu
  rw [hks, hns, pathStr_below hne] at hp
  obtain ⟨ls, hls, rfl⟩ := hp
  obtain ⟨t, ht, htp, htd⟩ := s.exists_above hu hns hne hls
  exact ⟨t, ht, htp.trans hks.symm, htd⟩

/-- The cursor of the index moves on. -/
theorem popIndex (h : Cursors s.inodes index (i :: is) ts none)
    (hx : InOrder index) (hi : ∀ t ∈ ts, i.path < t.path) :
    Cursors s.inodes index is ts none where
  suffix_index := (List.suffix_cons i is).trans h.suffix_index
  suffix_tree := h.suffix_tree
  order j hj hnj t ht := by
    by_cases hji : j = i
    · exact hji ▸ hi t ht
    · exact h.order j hj (by simp [hji, hnj]) t ht
  gone t ht hnt j hj := h.gone t ht hnt j (List.mem_cons_of_mem _ hj)
  skips := nofun
  past j hj hnj hjd t ht hp := by
    by_cases hji : j = i
    · -- the directory in the scan is at a path of the index, and so was not passed
      rw [hji] at hp
      obtain ⟨u, hu, hup, -⟩ := dir_of_below hx (h.lt_index hx).1 (h.suffix_tree.mem ht) hp
      by_cases hut : u ∈ ts
      · exact absurd (hi u hut) (by simp [hup])
      · exact absurd hup (h.gone u hu hut i (by simp))
    · exact h.past j hj (by simp [hji, hnj]) hjd t ht hp

/-- Both cursors move on. -/
theorem popBoth (h : Cursors s.inodes index (i :: is) (t :: ts) none)
    (hx : InOrder index) (ht : t.path = i.path)
    (hskip : i.isDirectory = false → t.isDirectory = true → skip = some (i.path ++ [slash]))
    (hskip' : ∀ p, skip = some p → i.isDirectory = false ∧ p = i.path ++ [slash]) :
    Cursors s.inodes index is ts skip where
  suffix_index := (List.suffix_cons i is).trans h.suffix_index
  suffix_tree := (List.suffix_cons t ts).trans h.suffix_tree
  order j hj hnj u hu := by
    by_cases hji : j = i
    · rw [hji, ← ht]
      exact h.lt_tree.2.2 u hu
    · exact h.order j hj (by simp [hji, hnj]) u (List.mem_cons_of_mem _ hu)
  gone u hu hnu j hj := by
    by_cases hut : u = t
    · rw [hut, ht]
      exact ne_of_lt ((h.lt_index hx).2.2 j hj)
    · exact h.gone u hu (by simp [hut, hnu]) j (List.mem_cons_of_mem _ hj)
  skips p hp := by
    obtain ⟨hi, rfl⟩ := hskip' p hp
    exact ⟨i, (h.lt_index hx).1, (h.lt_index hx).2.1, hi, rfl⟩
  past j hj hnj hjd u hu hp := by
    by_cases hji : j = i
    · rw [hji] at hp hjd ⊢
      obtain ⟨v, hv, hvp, hvd⟩ := dir_of_below hx (h.lt_index hx).1
        (h.suffix_tree.mem (List.mem_cons_of_mem _ hu)) hp
      rw [s.eq_of_path hv h.lt_tree.1 (hvp.trans ht.symm)] at hvd
      exact Or.inl (hskip hjd hvd)
    · exact Or.inr ((h.past j hj (by simp [hji, hnj]) hjd u (List.mem_cons_of_mem _ hu)
        hp).resolve_left nofun)

end Cursors

/-! ### What is left as it was -/

/-- **A node is left as it was**, except for its permissions where they do not count. -/
def Alike (exact : Prop) (o o' : Option Node) : Prop :=
  o' = o ∨ ¬ exact ∧ ∃ m perms, o = some m ∧ o' = some (m.chmod perms)

section Alike

variable {exact : Prop} {o o' o'' : Option Node} {m m' : Node} {d d' d'' : Disk} {p q : List Name}

theorem Alike.refl (o : Option Node) : Alike exact o o := Or.inl rfl

theorem Alike.trans (h : Alike exact o o') (h' : Alike exact o' o'') : Alike exact o o'' := by
  rcases h' with rfl | ⟨he, m', perms', rfl, rfl⟩
  · exact h
  · rcases h with hm | ⟨-, m, perms, rfl, hm⟩
    · exact Or.inr ⟨he, m', perms', hm.symm, rfl⟩
    · rw [Option.some.inj hm, Node.chmod_chmod]
      exact Or.inr ⟨he, m, perms', rfl, rfl⟩

theorem Alike.eq_none_iff (h : Alike exact o o') : o' = none ↔ o = none := by
  rcases h with rfl | ⟨-, m, perms, rfl, rfl⟩
  · rfl
  · simp

/-- What is there was there before. -/
theorem Alike.exists_some (h : Alike exact o (some m')) :
    ∃ m, o = some m ∧ (m' = m ∨ ¬ exact ∧ ∃ perms, m' = m.chmod perms) := by
  rcases h with rfl | ⟨he, m, perms, rfl, hm⟩
  · exact ⟨m', rfl, Or.inl rfl⟩
  · exact ⟨m, rfl, Or.inr ⟨he, perms, Option.some.inj hm⟩⟩

/-- What was there is there still. -/
theorem Alike.some_exists (h : Alike exact (some m) o') :
    ∃ m', o' = some m' ∧ (m' = m ∨ ¬ exact ∧ ∃ perms, m' = m.chmod perms) := by
  rcases h with rfl | ⟨he, m₁, perms, hm, rfl⟩
  · exact ⟨m, rfl, Or.inl rfl⟩
  · obtain rfl := Option.some.inj hm
    exact ⟨_, rfl, Or.inr ⟨he, perms, rfl⟩⟩

theorem Alike.isDir (h : Alike exact (d.view p) (d'.view p)) (hd : d.IsDir p) : d'.IsDir p := by
  obtain ⟨m, hm, hisDir⟩ := Disk.isDir_iff_view.mp hd
  rw [hm] at h
  obtain ⟨m', hm', rfl | ⟨-, perms, rfl⟩⟩ := h.some_exists
  · exact Disk.isDir_iff_view.mpr ⟨_, hm', hisDir⟩
  · exact Disk.isDir_iff_view.mpr ⟨_, hm', by simpa using hisDir⟩

/-- **One path has changed**, and everything else is left as it was. -/
structure Changed (exact : Prop) (p : List Name) (d d' : Disk) (m : Node) : Prop where
  closed : d'.Closed
  self : d'.view p = some m
  other : ∀ q, q ≠ p → Alike exact (d.view q) (d'.view q)

theorem Changed.refl (hd : d.Closed) (hm : d.view p = some m) : Changed exact p d d m :=
  ⟨hd, hm, fun _ _ => .refl _⟩

theorem Changed.of_update (hd : d'.Closed) (hv : d'.view = Function.update d.view p (some m)) :
    Changed exact p d d' m where
  closed := hd
  self := by rw [hv, Function.update_self]
  other q hq := Or.inl (by rw [hv, Function.update_of_ne hq])

theorem Changed.trans (h : Changed exact p d d' m) (h' : Changed exact p d' d'' m') :
    Changed exact p d d'' m' :=
  ⟨h'.closed, h'.self, fun q hq => (h.other q hq).trans (h'.other q hq)⟩

theorem Changed.straight {ns : List Name} {n : Name} (h : Changed exact (ns ++ [n]) d d' m)
    (hs : Straight d ns n) : Straight d' ns n :=
  ⟨h.closed, hs.plain, hs.name, (h.other ns (by simp)).isDir hs.isDir⟩

end Alike

/-! ### What stands at a path -/

section Stands

variable {d₀ : Disk} {ignores : Bytes → Bool} {root : List Name} (s : Scan d₀ ignores root)
  (st : Store) (exact : Prop)

/-- **A file that is not written**: the scan has it with the mtime that the inode has. -/
def Unwritten (tree : List Inode) (i : Inode) : Prop :=
  i.target = [] ∧ ∃ t ∈ tree, t.path = i.path ∧ t.isFile = true ∧ t.mtime = i.mtime

/-- **What stands at the path of an inode** that has been checked out. -/
structure Inode.Stands (i : Inode) (m : Node) : Prop where
  type : m.status.type = i.status.type
  perms : exact → m.isLink = false → m.status.perms = i.status.perms
  target : m.isLink = true → m.target = i.target
  kept : i.isFile = true → Unwritten s.inodes i → m.content = d₀.contentAt root i.path
  written : i.isFile = true → ¬ Unwritten s.inodes i → st (filePath i.hash) = some m.content

/-- **A node is as the scan has it.** -/
structure Inode.Remains (d₀ : Disk) (root : List Name) (exact : Prop) (t : Inode) (m : Node) :
    Prop where
  type : m.status.type = t.status.type
  perms : exact → m.status.perms = t.status.perms
  target : m.target = t.target
  content : m.content = d₀.contentAt root t.path

variable {s st exact} {t i i' : Inode} {m m₀ m' : Node} {os : OS} {w w' : World} {ns : List Name}
  {n : Name} {u : Unit}

theorem Inode.Made.stands (h : i.Made st m) (hw : i.isFile = true → ¬ Unwritten s.inodes i) :
    i.Stands s st exact m :=
  ⟨h.type, fun _ => h.perms, h.target, fun hf hu => absurd hu (hw hf), fun hf _ => h.content hf⟩

theorem Inode.Stands.alike (h : i.Stands s st exact m)
    (hm : m' = m ∨ ¬ exact ∧ ∃ perms, m' = m.chmod perms) : i.Stands s st exact m' := by
  rcases hm with rfl | ⟨he, perms, rfl⟩
  · exact h
  · exact ⟨by simpa using h.type, fun hx => absurd hx he, by simpa using h.target,
      by simpa using h.kept, by simpa using h.written⟩

theorem Inode.Remains.alike (h : t.Remains d₀ root exact m)
    (hm : m' = m ∨ ¬ exact ∧ ∃ perms, m' = m.chmod perms) : t.Remains d₀ root exact m' := by
  rcases hm with rfl | ⟨he, perms, rfl⟩
  · exact h
  · exact ⟨by simpa using h.type, fun hx => absurd hx he, by simpa using h.target,
      by simpa using h.content⟩

/-- A listed file settles whether the inode at its path is written. -/
theorem unwritten_iff (ht : t ∈ s.inodes) (hp : t.path = i.path) :
    Unwritten s.inodes i ↔ i.target = [] ∧ t.isFile = true ∧ t.mtime = i.mtime := by
  rw [Unwritten]
  refine and_congr_right fun _ => ⟨?_, fun h => ⟨t, ht, hp, h⟩⟩
  rintro ⟨t', ht', hp', h⟩
  rwa [s.eq_of_path ht ht' (hp.trans hp'.symm)]

theorem not_unwritten_of_gone (h : ∀ t ∈ s.inodes, t.path ≠ i.path) : ¬ Unwritten s.inodes i := by
  rintro ⟨-, t, ht, hp, -⟩
  exact h t ht hp

/-- The permissions, after they were compared. -/
theorem changed_of_updatePerms (exact : Prop) (hs : Straight w.disk ns n)
    (hi : fullPath root i = absPath (ns ++ [n])) (hm : w.disk.view (ns ++ [n]) = some m)
    (hlink : exact → m.isLink = true → t.status.perms = i.status.perms)
    (h : updatePerms os st root t i w = .ok u w') :
    ∃ m', Changed exact (ns ++ [n]) w.disk w'.disk m' ∧
      ((m' = m ∧ (m.isLink = false → t.status.perms = i.status.perms)) ∨
        m.isLink = false ∧ m' = m.chmod i.status.perms) := by
  rcases updatePerms_cases hs hi hm h with ⟨rfl, hp⟩ | ⟨hp, hc, q, node, hq, hv, hstraight⟩
  · exact ⟨m, .refl hs.closed hm, Or.inl ⟨rfl, fun _ => hp⟩⟩
  · cases hl : m.isLink with
    | false =>
      rw [hstraight hl] at hq hv
      obtain rfl := Option.some.inj (hm.symm.trans hq)
      exact ⟨_, .of_update hc hv, Or.inr ⟨rfl, rfl⟩⟩
    | true =>
      -- the permissions of something else are changed
      have he : ¬ exact := fun he => hp (hlink he hl)
      refine ⟨m, ⟨hc, ?_, fun q' _ => ?_⟩, Or.inl ⟨rfl, nofun⟩⟩
      · rw [hv]
        by_cases hqp : ns ++ [n] = q
        · rw [← hqp, hm] at hq
          obtain rfl := Option.some.inj hq
          rw [hqp, Function.update_self, Node.chmod_of_isLink hl]
        · rw [Function.update_of_ne hqp, hm]
      · rw [hv]
        by_cases hqq : q' = q
        · rw [hqq, Function.update_self, hq]
          exact Or.inr ⟨he, node, _, rfl, rfl⟩
        · rw [Function.update_of_ne hqq]
          exact .refl _

/-- A file of the same type as what the scan has: it is written if its mtime is another. -/
theorem Inode.Remains.unwritten_iff (hr : t.Remains d₀ root exact m₀) (ht : t ∈ s.inodes)
    (hp : t.path = i.path) (htype : t.status.type = i.status.type) (hf : i.isFile = true) :
    Unwritten s.inodes i ↔ i.target = t.target ∧ t.mtime = i.mtime := by
  have htf : t.isFile = true := by simpa [Inode.isFile, htype] using hf
  have htarget : t.target = [] := by
    have htm : m₀.status.type = .regular := hr.type.trans (of_decide_eq_true htf)
    rw [← hr.target]
    refine Node.target_of_not_isLink (Bool.eq_false_iff.mpr fun hl => ?_)
    rw [Node.status_type_eq_symlink.mpr hl] at htm
    cases htm
  rw [Fstree.unwritten_iff ht hp, htarget]
  simp [htf]

/-- **What has the same type** is as the inode says in the end. -/
theorem stands_of_updateNode (hs : Straight w.disk ns n) (ht : t ∈ s.inodes)
    (hp : t.path = i.path) (hi : fullPath root i = absPath (ns ++ [n]))
    (hm₀ : w.disk.view (ns ++ [n]) = some m₀) (hr : t.Remains d₀ root exact m₀)
    (htype : t.status.type = i.status.type)
    (hlink : exact → t.isSymlink = true → t.mtime = i.mtime → t.status.perms = i.status.perms)
    (h : updateNode os st root t i w = .ok i' w') :
    ∃ m, Changed exact (ns ++ [n]) w.disk w'.disk m ∧ i.Stands s st exact m := by
  have hsym : ∀ m : Node, m.status.type = t.status.type → m.isLink = true → t.isSymlink = true :=
    fun m hm hl => decide_eq_true (hm.symm.trans (Node.status_type_eq_symlink.mpr hl))
  rw [updateNode] at h
  obtain ⟨i₁, w₁, h₁, h⟩ := bind_eq_ok.mp h
  obtain ⟨_, w₂, h₂, h₃⟩ := bind_eq_ok.mp h
  rcases rewriteNode_cases hs hi hm₀ (hr.type.trans htype) h₁ with
    ⟨rfl, rfl, hmtime⟩ | ⟨⟨hmtime, -⟩, m₁, hm₁, hv₁, hc₁, hi₁⟩
  · -- it was not made anew
    obtain ⟨m₂, hch₂, hm₂⟩ := changed_of_updatePerms exact hs hi hm₀ (fun he hl =>
      hlink he (hsym m₀ hr.type hl) (hmtime.resolve_right fun hd => by
        rw [Inode.isDirectory, ← htype, ← hr.type, Node.status_type_eq_symlink.mpr hl] at hd
        cases hd)) h₂
    rcases updateTarget_cases (hch₂.straight hs) hi h₃ with
      ⟨rfl, htarget⟩ | ⟨htarget, m₃, hm₃, hv₃, hc₃⟩
    · refine ⟨m₂, hch₂, ?_⟩
      have hfile : i₁.isFile = true → Unwritten s.inodes i₁ := fun hf => by
        refine (hr.unwritten_iff ht hp htype hf).mpr ⟨htarget, hmtime.resolve_right fun hd => ?_⟩
        rw [Inode.isDirectory, of_decide_eq_true hf] at hd
        cases hd
      rcases hm₂ with ⟨rfl, hperms⟩ | ⟨hl, rfl⟩
      · exact ⟨hr.type.trans htype, fun he hl => (hr.perms he).trans (hperms hl),
          fun _ => hr.target.trans htarget.symm, fun _ _ => hp ▸ hr.content,
          fun hf hnu => absurd (hfile hf) hnu⟩
      · exact ⟨by simpa using hr.type.trans htype, fun _ _ => Node.perms_chmod hl,
          fun hl' => by simp [hl] at hl', fun _ _ => by simpa using hp ▸ hr.content,
          fun hf hnu => absurd (hfile hf) hnu⟩
    · refine ⟨m₃, hch₂.trans (.of_update hc₃ hv₃), hm₃.stands fun hf hu => ?_⟩
      exact htarget ((hr.unwritten_iff ht hp htype hf).mp hu).1
  · have hstands : ∀ {m : Node}, i.Made st m → i.Stands s st exact m := fun hm =>
      hm.stands fun hf hu => hmtime ((hr.unwritten_iff ht hp htype hf).mp hu).2
    have hch₁ : Changed exact (ns ++ [n]) w.disk w₁.disk m₁ := .of_update hc₁ hv₁
    have hi₁' : fullPath root i₁ = absPath (ns ++ [n]) := by rw [hi₁, ← hi]; rfl
    have hst₁ : i₁.status = m₁.status := by rw [hi₁]
    obtain ⟨m₂, hch₂, hm₂⟩ := changed_of_updatePerms exact (hch₁.straight hs) hi₁'
      hch₁.self (fun he hl => by
        -- a symlink has the permissions that every symlink has
        have hl₀ : m₀.isLink = true := by
          rw [← Node.status_type_eq_symlink, hr.type, htype, ← hm₁.type,
            Node.status_type_eq_symlink]
          exact hl
        rw [hst₁, ← hr.perms he]
        rw [Node.perms_of_isLink hl₀, Node.perms_of_isLink hl]) h₂
    rcases updateTarget_cases (hch₂.straight (hch₁.straight hs)) hi₁' h₃ with
      ⟨rfl, -⟩ | ⟨-, m₃, hm₃, hv₃, hc₃⟩
    · refine ⟨m₂, hch₁.trans hch₂, hstands ?_⟩
      rcases hm₂ with ⟨rfl, -⟩ | ⟨hl, rfl⟩
      · exact hm₁
      · rw [hst₁]
        exact ⟨by simpa using hm₁.type, fun _ => (Node.perms_chmod hl).trans (hm₁.perms hl),
          fun hl' => by simp [hl] at hl', by simpa using hm₁.content⟩
    · refine ⟨m₃, (hch₁.trans hch₂).trans (.of_update hc₃ hv₃), hstands ?_⟩
      rw [hi₁] at hm₃
      refine hm₁.of_read hm₃ fun hl => ?_
      rw [← Bool.not_eq_true] at hl ⊢
      rwa [← Node.status_type_eq_symlink, ← hm₃.type, Node.status_type_eq_symlink]

end Stands

/-! ### The invariant -/

/-- **Symlinks agree in their permissions**, as far as they are compared. -/
def LinksAgree (tree index : List Inode) : Prop :=
  ∀ t ∈ tree, ∀ i ∈ index, t.path = i.path → t.isSymlink = true → i.isSymlink = true →
    t.mtime = i.mtime → t.status.perms = i.status.perms

section Inv

variable {d₀ : Disk} {ignores : Bytes → Bool} {root : List Name} (s : Scan d₀ ignores root)
  (index : List Inode) (st : Store) (exact : Prop)

/-- **What is hidden does no harm**: what the scan has not listed is no symlink where the index
has a directory, and is not there where the index has an inode of no type. -/
def HiddenHarmless (s : Scan d₀ ignores root) (index : List Inode) : Prop :=
  ∀ i ∈ index, (∀ t ∈ s.inodes, t.path ≠ i.path) → ∀ ns, i.path = pathStr ns →
    ∀ m, d₀.get (root ++ ns) = some m →
      i.status.type ≠ .none ∧ (i.isDirectory = true → m.isLink = false)

/-- **What a checkout starts from**: a directory at its physical path, an index in order, and
a scan that has found what matters to it. -/
structure Ground : Prop where
  closed : d₀.Closed
  plain : ∀ n ∈ root, n.Plain
  order : InOrder index
  hidden : HiddenHarmless s index
  links : exact → LinksAgree s.inodes index

/-- A complete scan hides nothing from an index whose paths it can see. -/
theorem Scan.Complete.hiddenHarmless {s : Scan d₀ ignores root} {index : List Inode}
    (hs : s.Complete) (hd : d₀.Closed)
    (hv : ∀ i ∈ index, ∀ ns, i.path = pathStr ns → Visible ignores ns) :
    HiddenHarmless s index := by
  intro i hi hno ns hns m hm
  obtain ⟨t, ht, hp, -⟩ := hs.exists_mem hd (hv i hi ns hns) hm
  exact absurd (hp.trans hns.symm) (hno t ht)

/-- **Passed over by the scan**: it was there, but it is not listed. -/
def PassedOver (s : Scan d₀ ignores root) (ns : List Name) : Prop :=
  d₀.get (root ++ ns) ≠ none ∧ ∀ t ∈ s.inodes, t.path ≠ pathStr ns

/-- **The invariant of a checkout** with `is` left of the index and `ts` of the scan, except for
what stands at the paths of `hole`. -/
structure CheckoutInv (d : Disk) (hole is ts : List Inode) : Prop where
  closed : d.Closed
  isDir : d.IsDir root
  passed : ∀ i ∈ hole, i ∈ index ∧ i ∉ is
  made : ∀ i ∈ index, i ∉ is → i ∉ hole → ∀ ns, i.path = pathStr ns →
    ∃ m, d.view (root ++ ns) = some m ∧ i.Stands s st exact m
  /-- What is in both is there. -/
  here : ∀ i ∈ is, ∀ t ∈ ts, t.path = i.path → ∀ ns, i.path = pathStr ns →
    d.view (root ++ ns) ≠ none
  /-- What is only in the index is not in the way. -/
  free : ∀ i ∈ is, (∀ t ∈ ts, t.path ≠ i.path) → ∀ ns, i.path = pathStr ns →
    ∀ m, d.view (root ++ ns) = some m →
      i.status.type ≠ .none ∧ (i.isDirectory = true → m.isLink = false)
  kept : ∀ t ∈ ts, ∀ ns, t.path = pathStr ns → ∀ m, d.view (root ++ ns) = some m →
    t.Remains d₀ root exact m
  seen : ∀ ns, Visible ignores ns → d.view (root ++ ns) ≠ none →
    (∃ i ∈ index, i ∉ is ∧ i.path = pathStr ns) ∨ (∃ t ∈ ts, t.path = pathStr ns) ∨
      PassedOver s ns

variable {s index st exact} {d d' : Disk} {hole is ts : List Inode} {t i : Inode} {ns : List Name}
  {m : Node} {skip : Option Bytes}

namespace CheckoutInv

/-- Everything is in the scan. -/
theorem start (g : Ground s index exact) : CheckoutInv s index st exact d₀ [] index s.inodes where
  closed := g.closed
  isDir := s.isDir
  passed := nofun
  made i hi hni := absurd hi hni
  here i _ t ht hp ns hns := by
    obtain ⟨-, node, hget, -⟩ := s.exists_node ht (hp.trans hns)
    rw [Disk.view_of_get hget]
    exact nofun
  free i hi hno ns hns m hm := by
    obtain ⟨node, hget, rfl⟩ := Disk.get_of_view hm
    simpa using g.hidden i hi hno ns hns node hget
  kept t ht ns hns m hm := by
    obtain ⟨-, node, hget, hstatus, -, htarget⟩ := s.exists_node ht hns
    rw [Disk.view_of_get hget] at hm
    obtain rfl := Option.some.inj hm
    refine ⟨by rw [hstatus, Node.status_touched], fun _ => by rw [hstatus, Node.status_touched],
      by rw [htarget, Node.target_touched], ?_⟩
    rw [Node.content_touched, hns, Disk.contentAt_pathStr hget]
  seen ns hv hne := by
    refine Or.inr ?_
    by_cases hex : ∃ t ∈ s.inodes, t.path = pathStr ns
    · exact Or.inl hex
    · exact Or.inr ⟨mt Disk.view_eq_none.mpr hne, fun t ht hp => hex ⟨t, ht, hp⟩⟩

/-- **The invariant is kept** by a change that spares the paths of the index, those of `hole`
apart, and puts nothing anywhere else. -/
theorem change (h : CheckoutInv s index st exact d hole is ts)
    (hcur : Cursors s.inodes index is ts skip) (g : Ground s index exact) (hc : d'.Closed)
    (hq : ∀ ns, Alike exact (d.view (root ++ ns)) (d'.view (root ++ ns)) ∨
      (∃ i ∈ hole, i.path = pathStr ns) ∨
      d'.view (root ++ ns) = none ∧ ns ≠ [] ∧ ∀ i ∈ index, i.path ≠ pathStr ns) :
    CheckoutInv s index st exact d' hole is ts := by
  -- the paths of the index are spared
  have hspared : ∀ i ∈ index, i ∉ hole → ∀ ns, i.path = pathStr ns →
      Alike exact (d.view (root ++ ns)) (d'.view (root ++ ns)) := by
    intro i hi hnh ns hns
    rcases hq ns with ha | ⟨j, hj, hjp⟩ | ⟨-, -, hno⟩
    · exact ha
    · exact absurd (g.order.eq_of_path hi (h.passed j hj).1 (hns.trans hjp.symm) ▸ hj) hnh
    · exact absurd hns (hno i hi)
  have hleft : ∀ i ∈ is, i ∈ index ∧ i ∉ hole := fun i hi =>
    ⟨hcur.suffix_index.mem hi, fun hh => (h.passed i hh).2 hi⟩
  refine ⟨hc, ?_, h.passed, ?_, ?_, ?_, ?_, ?_⟩
  · rcases hq [] with ha | ⟨j, hj, hjp⟩ | ⟨-, hno, -⟩
    · rw [List.append_nil] at ha
      exact ha.isDir h.isDir
    · exact absurd rfl (g.order.names (h.passed j hj).1 hjp).1
    · exact absurd rfl hno
  · intro i hi hni hnh ns hns
    obtain ⟨m, hm, hstands⟩ := h.made i hi hni hnh ns hns
    have ha := hspared i hi hnh ns hns
    rw [hm] at ha
    obtain ⟨m', hm', heq⟩ := ha.some_exists
    exact ⟨m', hm', hstands.alike heq⟩
  · intro i hi t ht hp ns hns
    obtain ⟨hmem, hnh⟩ := hleft i hi
    exact mt (hspared i hmem hnh ns hns).eq_none_iff.mp (h.here i hi t ht hp ns hns)
  · intro i hi hno ns hns m hm
    obtain ⟨hmem, hnh⟩ := hleft i hi
    have ha := hspared i hmem hnh ns hns
    rw [hm] at ha
    obtain ⟨m₀, hm₀, heq⟩ := ha.exists_some
    refine (h.free i hi hno ns hns m₀ hm₀).imp id fun hlink hd => ?_
    rcases heq with rfl | ⟨-, perms, rfl⟩
    · exact hlink hd
    · simpa using hlink hd
  · intro t ht ns hns m hm
    rcases hq ns with ha | ⟨j, hj, hjp⟩ | ⟨hnone, -⟩
    · rw [hm] at ha
      obtain ⟨m₀, hm₀, heq⟩ := ha.exists_some
      exact (h.kept t ht ns hns m₀ hm₀).alike heq
    · have hlt := hcur.order j (h.passed j hj).1 (h.passed j hj).2 t ht
      exact absurd hlt (by rw [hjp, hns]; exact lt_irrefl _)
    · rw [hnone] at hm
      cases hm
  · intro ns hv hne
    rcases hq ns with ha | ⟨j, hj, hjp⟩ | ⟨hnone, -⟩
    · exact h.seen ns hv (mt ha.eq_none_iff.mpr hne)
    · exact Or.inl ⟨j, (h.passed j hj).1, (h.passed j hj).2, hjp⟩
    · exact absurd hnone hne

/-- What stands at the path of the hole is as the inode says. -/
theorem close (h : CheckoutInv s index st exact d [i] is ts) (hns : i.path = pathStr ns)
    (hm : d.view (root ++ ns) = some m) (hstands : i.Stands s st exact m) :
    CheckoutInv s index st exact d [] is ts := by
  refine ⟨h.closed, h.isDir, nofun, fun j hj hnj _ ms hms => ?_, h.here, h.free, h.kept, h.seen⟩
  by_cases hji : j = i
  · subst hji
    rw [pathStr_injective (hms.symm.trans hns)]
    exact ⟨m, hm, hstands⟩
  · exact h.made j hj hnj (by simpa using hji) ms hms

/-- What is gone needs not be looked at. -/
theorem drop (h : CheckoutInv s index st exact d hole is (t :: ts))
    (ht : ∀ i ∈ is, t.path ≠ i.path) (hns : t.path = pathStr ns)
    (hnone : d.view (root ++ ns) = none) : CheckoutInv s index st exact d hole is ts where
  closed := h.closed
  isDir := h.isDir
  passed := h.passed
  made := h.made
  here i hi u hu := h.here i hi u (List.mem_cons_of_mem _ hu)
  free i hi hno := h.free i hi (List.forall_mem_cons.mpr ⟨ht i hi, hno⟩)
  kept u hu := h.kept u (List.mem_cons_of_mem _ hu)
  seen ms hv hne := by
    refine (h.seen ms hv hne).imp id (Or.imp ?_ id)
    rintro ⟨u, hu, hup⟩
    rcases List.mem_cons.mp hu with rfl | hu
    · rw [pathStr_injective (hup.symm.trans hns)] at hne
      exact absurd hnone hne
    · exact ⟨u, hu, hup⟩

/-- The next inode of the index is only there. -/
theorem openIndex (h : CheckoutInv s index st exact d [] (i :: is) ts)
    (hcur : Cursors s.inodes index (i :: is) ts skip) (g : Ground s index exact) :
    CheckoutInv s index st exact d [i] is ts where
  closed := h.closed
  isDir := h.isDir
  passed j hj := by
    rw [List.mem_singleton.mp hj]
    exact ⟨(hcur.lt_index g.order).1, (hcur.lt_index g.order).2.1⟩
  made j hj hnj hnh := by
    have hji : j ≠ i := by simpa using hnh
    exact h.made j hj (by simp [hji, hnj]) nofun
  here j hj := h.here j (List.mem_cons_of_mem _ hj)
  free j hj := h.free j (List.mem_cons_of_mem _ hj)
  kept := h.kept
  seen ms hv hne := by
    refine (h.seen ms hv hne).imp ?_ id
    rintro ⟨j, hj, hnj, hp⟩
    exact ⟨j, hj, fun hj' => hnj (List.mem_cons_of_mem _ hj'), hp⟩

/-- The next inode of the index has the path of the next one of the scan. -/
theorem openBoth (h : CheckoutInv s index st exact d [] (i :: is) (t :: ts))
    (hcur : Cursors s.inodes index (i :: is) (t :: ts) skip) (g : Ground s index exact)
    (ht : t.path = i.path) : CheckoutInv s index st exact d [i] is ts := by
  have ho := h.openIndex hcur g
  obtain ⟨hi, hni, hlt⟩ := hcur.lt_index g.order
  refine ⟨ho.closed, ho.isDir, ho.passed, ho.made,
    fun j hj u hu => ho.here j hj u (List.mem_cons_of_mem _ hu), fun j hj hno => ?_,
    fun u hu => ho.kept u (List.mem_cons_of_mem _ hu), fun ms hv hne => ?_⟩
  · refine ho.free j hj (List.forall_mem_cons.mpr ⟨?_, hno⟩)
    rw [ht]
    exact ne_of_lt (hlt j hj)
  · rcases ho.seen ms hv hne with hpast | ⟨u, hu, hup⟩ | hover
    · exact Or.inl hpast
    · rcases List.mem_cons.mp hu with rfl | hu
      · exact Or.inl ⟨i, hi, hni, ht.symm.trans hup⟩
      · exact Or.inr (Or.inl ⟨u, hu, hup⟩)
    · exact Or.inr (Or.inr hover)

/-- **The next path of the index is straight.** -/
theorem straight (h : CheckoutInv s index st exact d [] (i :: is) ts)
    (hcur : Cursors s.inodes index (i :: is) ts skip) (g : Ground s index exact) :
    ∃ ns n, i.path = pathStr (ns ++ [n]) ∧ Straight d (root ++ ns) n ∧
      fullPath root i = absPath (root ++ ns ++ [n]) := by
  obtain ⟨hi, hni, hlt⟩ := hcur.lt_index g.order
  obtain ⟨ms, hms, hne, hplain⟩ := g.order.clean i hi
  obtain ⟨ns, n, rfl⟩ := (List.eq_nil_or_concat' ms).resolve_left hne
  refine ⟨ns, n, hms, ⟨h.closed, ?_, hplain n (by simp), ?_⟩, ?_⟩
  · exact List.forall_mem_append.mpr
      ⟨g.plain, fun m hm => hplain m (List.mem_append_left _ hm)⟩
  · rcases g.order.parent i hi ns n hms with rfl | ⟨j, hj, hjp, hjd⟩
    · simpa using h.isDir
    · -- the directory is before it in the index
      have hji : j.path < i.path := by
        rw [hjp, hms]
        exact pathStr_lt_append (by simp)
      have hnj : j ∉ i :: is := by
        rintro (_ | ⟨_, hj'⟩)
        · exact lt_irrefl _ hji
        · exact lt_asymm hji (hlt j hj')
      obtain ⟨m, hm, hstands⟩ := h.made j hj hnj nofun ns hjp
      refine Disk.isDir_iff_view.mpr ⟨m, hm, ?_⟩
      rw [← Node.status_type_eq_directory, hstands.type]
      exact of_decide_eq_true hjd
  · exact fullPath_snoc hms

/-- Where the scan has found nothing, the next inode of the index can be made. -/
theorem ready {n : Name} (h : CheckoutInv s index st exact d [] (i :: is) ts)
    (hs : Straight d (root ++ ns) n) (hpath : fullPath root i = absPath (root ++ ns ++ [n]))
    (hns : i.path = pathStr (ns ++ [n])) (hgone : ∀ t ∈ ts, t.path ≠ i.path) :
    Ready d root i (root ++ ns) n := by
  have hfree := h.free i (by simp) hgone _ hns
  rw [← List.append_assoc] at hfree
  refine ⟨hs, hpath, fun htype => ?_, fun hd m hm => ?_⟩
  · by_contra hne
    obtain ⟨m, hm⟩ := Option.ne_none_iff_exists'.mp (mt Disk.view_eq_none.mp hne)
    exact (hfree m hm).1 htype
  · simpa using (hfree _ (Disk.view_of_get hm)).2 hd

/-! ### The steps -/

variable {os : OS} {w w' : World} {i' : Inode} {u : Unit}

/-- **A node of the scan is skipped.** -/
theorem skipped (h : CheckoutInv s index st exact d [] is (t :: ts))
    (hcur : Cursors s.inodes index is (t :: ts) skip) (g : Ground s index exact)
    (hskip : (skip.any fun p => p.isPrefixOf t.path) = true) :
    CheckoutInv s index st exact d [] is ts ∧ Cursors s.inodes index is ts skip := by
  obtain ⟨p, hp, hpre⟩ : ∃ p, skip = some p ∧ p.isPrefixOf t.path = true := by
    cases skip with
    | none => cases hskip
    | some p => exact ⟨p, rfl, hskip⟩
  obtain ⟨a, ha, hna, had, rfl⟩ := hcur.skips p hp
  obtain ⟨ks, hks, hne, -⟩ := g.order.clean a ha
  obtain ⟨ns, hns⟩ := s.exists_names hcur.lt_tree.1
  rw [List.isPrefixOf_iff_prefix, hks, hns, pathStr_below hne] at hpre
  obtain ⟨ls, hls, rfl⟩ := hpre
  have hbelow := g.order.nothing_below ha had hks hls
  have ht : ∀ i ∈ is, t.path ≠ i.path := fun i hi he =>
    hbelow i (hcur.suffix_index.mem hi) (he.symm.trans hns)
  refine ⟨h.drop ht hns ?_, hcur.popTree ht⟩
  -- there is nothing below what is no directory
  obtain ⟨m, hm, hstands⟩ := h.made a ha hna nofun ks hks
  rw [Disk.view_eq_none, ← List.append_assoc]
  refine h.closed.nothing_below (fun hd => ?_) hls
  obtain ⟨m', hm', hmd⟩ := Disk.isDir_iff_view.mp hd
  obtain rfl := Option.some.inj (hm.symm.trans hm')
  rw [← Node.status_type_eq_directory, hstands.type] at hmd
  rw [Inode.isDirectory, hmd] at had
  cases had

/-- What is removed at a path that is not in the index, and below it. -/
theorem removed (h : CheckoutInv s index st exact d hole is ts)
    (hcur : Cursors s.inodes index is ts skip) (g : Ground s index exact) (hns : ns ≠ [])
    (hno : ∀ i ∈ index, i.path ≠ pathStr ns) (hc : d'.Closed)
    (hv : d'.view = Disk.without d.view (root ++ ns)) :
    CheckoutInv s index st exact d' hole is ts := by
  refine h.change hcur g hc fun ms => ?_
  rw [hv, Disk.without]
  split_ifs with hp
  · obtain ⟨ls, hls⟩ := hp
    obtain rfl : ns ++ ls = ms := List.append_cancel_left (by rw [← hls, List.append_assoc])
    refine Or.inr (Or.inr ⟨rfl, by simp [hns], fun j hj hjp => ?_⟩)
    by_cases hnil : ls = []
    · exact hno j hj (by simpa [hnil] using hjp)
    · obtain ⟨k, hk, hkp, -⟩ := g.order.exists_above hns hnil hj hjp
      exact hno k hk hkp
  · exact Or.inl (.refl _)

/-- What the scan has below the cursor of the index is not in the index. -/
theorem path_ne_of_lt (hcur : Cursors s.inodes index (i :: is) (t :: ts) skip)
    (g : Ground s index exact) (hlt : t.path < i.path) : ∀ j ∈ index, j.path ≠ t.path := by
  intro j hj
  by_cases hjl : j ∈ i :: is
  · rcases List.mem_cons.mp hjl with rfl | hjl
    · exact ne_of_gt hlt
    · exact ne_of_gt (hlt.trans ((hcur.lt_index g.order).2.2 j hjl))
  · exact ne_of_lt (hcur.order j hj hjl t (by simp))

/-- **What is stale is removed.** -/
theorem stale (h : CheckoutInv s index st exact w.disk [] (i :: is) (t :: ts))
    (hcur : Cursors s.inodes index (i :: is) (t :: ts) none) (g : Ground s index exact)
    (hlt : t.path < i.path) (hr : removeStale os st root t w = .ok u w') :
    CheckoutInv s index st exact w'.disk [] (i :: is) ts ∧
      Cursors s.inodes index (i :: is) ts none := by
  have hno := path_ne_of_lt hcur g hlt
  have hne : ∀ j ∈ i :: is, t.path ≠ j.path := fun j hj =>
    (hno j (hcur.suffix_index.mem hj)).symm
  obtain ⟨ns, hns⟩ := s.exists_names hcur.lt_tree.1
  obtain ⟨hvis, -⟩ := s.exists_node hcur.lt_tree.1 hns
  obtain ⟨up, n, rfl⟩ := (List.eq_nil_or_concat' ns).resolve_left hvis.ne_nil
  have hpath : fullPath root t = absPath (root ++ up ++ [n]) := fullPath_snoc hns
  have hplain : ∀ m ∈ root ++ up, m.Plain := List.forall_mem_append.mpr
    ⟨g.plain, fun m hm => hvis.plain m (List.mem_append_left _ hm)⟩
  obtain ⟨hv, hc⟩ := removeStale_view h.closed hplain (hvis.plain n (by simp)) hpath hr
  rw [List.append_assoc] at hv
  have hinv := h.removed hcur g (by simp) (fun j hj hjp => hno j hj (hjp.trans hns.symm)) hc hv
  refine ⟨hinv.drop hne hns ?_, hcur.popTree hne⟩
  rw [hv, Disk.without, if_pos List.prefix_rfl]

/-- **The next inode of the index is made**, where there is nothing. -/
theorem created (h : CheckoutInv s index st exact w.disk [] (i :: is) ts)
    (hcur : Cursors s.inodes index (i :: is) ts none) (g : Ground s index exact)
    (hlt : ∀ t ∈ ts, i.path < t.path) (hr : checkoutNode os st root i w = .ok i' w') :
    CheckoutInv s index st exact w'.disk [] is ts ∧ Cursors s.inodes index is ts none := by
  have hcur' := hcur.popIndex g.order hlt
  refine ⟨?_, hcur'⟩
  obtain ⟨ns, n, hns, hs, hpath⟩ := h.straight hcur g
  have hgone : ∀ t ∈ ts, t.path ≠ i.path := fun t ht => ne_of_gt (hlt t ht)
  obtain ⟨m, hm, -, hv, hc, -⟩ := view_of_checkoutNode (h.ready hs hpath hns hgone) hr
  have hch : Changed exact (root ++ (ns ++ [n])) w.disk w'.disk (m.touched 0) :=
    .of_update hc (by rw [hv, List.append_assoc])
  have hinv := (h.openIndex hcur g).change hcur' g hc fun ms => by
    by_cases hms : ms = ns ++ [n]
    · exact Or.inr (Or.inl ⟨i, by simp, by rw [hms, hns]⟩)
    · exact Or.inl (hch.other _ fun he => hms (List.append_cancel_left he))
  refine hinv.close hns hch.self ((Inode.Made.touched.mpr hm).stands fun _ => ?_)
  refine not_unwritten_of_gone fun t ht => ?_
  by_cases htl : t ∈ ts
  · exact hgone t htl
  · exact hcur.gone t ht htl i (by simp)

/-- The path of an inode that is in both. -/
theorem present (h : CheckoutInv s index st exact d [] (i :: is) (t :: ts)) (ht : t.path = i.path)
    (hns : i.path = pathStr ns) :
    ∃ m, d.view (root ++ ns) = some m ∧ t.Remains d₀ root exact m := by
  obtain ⟨m, hm⟩ := Option.ne_none_iff_exists'.mp (h.here i (by simp) t (by simp) ht ns hns)
  exact ⟨m, hm, h.kept t (by simp) ns (ht.trans hns) m hm⟩

/-- **What has another type is replaced.** -/
theorem replaced (h : CheckoutInv s index st exact w.disk [] (i :: is) (t :: ts))
    (hcur : Cursors s.inodes index (i :: is) (t :: ts) none) (g : Ground s index exact)
    (ht : t.path = i.path) (htype : t.status.type ≠ i.status.type)
    (hr : replaceNode os st root t i w = .ok i' w') :
    let skip := if t.isDirectory then some (t.path ++ [slash]) else none
    CheckoutInv s index st exact w'.disk [] is ts ∧ Cursors s.inodes index is ts skip := by
  have hdir : t.isDirectory = true → i.isDirectory = false := fun htd =>
    Bool.eq_false_iff.mpr fun hid =>
      htype ((of_decide_eq_true htd).trans (of_decide_eq_true hid).symm)
  have hcur' : Cursors s.inodes index is ts
      (if t.isDirectory then some (t.path ++ [slash]) else none) := by
    refine hcur.popBoth g.order ht (fun _ htd => by rw [if_pos htd, ht]) fun p hp => ?_
    split_ifs at hp with htd
    exact ⟨hdir htd, by rw [← Option.some.inj hp, ht]⟩
  refine ⟨?_, hcur'⟩
  obtain ⟨ns, n, hns, hs, hpath⟩ := h.straight hcur g
  have htpath : fullPath root t = absPath (root ++ ns ++ [n]) := by rw [← hpath, fullPath, ht]; rfl
  obtain ⟨m, hm, hc, hv⟩ := view_of_replaceNode hs htpath hpath hr
  have hself : w'.disk.view (root ++ (ns ++ [n])) = some m := by
    rw [hv, ← List.append_assoc, Function.update_self]
  have hinv := (h.openBoth hcur g ht).change hcur' g hc fun ms => by
    by_cases hms : ms = ns ++ [n]
    · exact Or.inr (Or.inl ⟨i, by simp, by rw [hms, hns]⟩)
    · have hne : root ++ ms ≠ root ++ ns ++ [n] := fun he =>
        hms (List.append_cancel_left (he.trans (List.append_assoc ..)))
      rw [hv, Function.update_of_ne hne]
      split_ifs with htd
      · rw [Disk.without]
        split_ifs with hp
        · obtain ⟨ls, hls⟩ := hp
          obtain rfl : ns ++ [n] ++ ls = ms := List.append_cancel_left (by rw [← hls]; simp)
          exact Or.inr (Or.inr ⟨rfl, by simp, g.order.nothing_below (hcur.lt_index g.order).1
            (hdir htd) hns fun hnil => hms (by simp [hnil])⟩)
        · exact Or.inl (.refl _)
      · exact Or.inl (.refl _)
  refine hinv.close hns hself (hm.stands fun hf hu => ?_)
  obtain ⟨-, htf, -⟩ := (unwritten_iff hcur.lt_tree.1 ht).mp hu
  exact htype ((of_decide_eq_true htf).trans (of_decide_eq_true hf).symm)

/-- **What has the same type is compared.** -/
theorem updated (h : CheckoutInv s index st exact w.disk [] (i :: is) (t :: ts))
    (hcur : Cursors s.inodes index (i :: is) (t :: ts) none) (g : Ground s index exact)
    (ht : t.path = i.path) (htype : t.status.type = i.status.type)
    (hr : updateNode os st root t i w = .ok i' w') :
    CheckoutInv s index st exact w'.disk [] is ts ∧ Cursors s.inodes index is ts none := by
  have hcur' : Cursors s.inodes index is ts none :=
    hcur.popBoth g.order ht (fun hid htd => by
      rw [Inode.isDirectory, ← htype, of_decide_eq_true htd] at hid
      cases hid) nofun
  refine ⟨?_, hcur'⟩
  obtain ⟨ns, n, hns, hs, hpath⟩ := h.straight hcur g
  obtain ⟨m₀, hm₀, hrem⟩ := h.present ht hns
  rw [← List.append_assoc] at hm₀
  have hlink : exact → t.isSymlink = true → t.mtime = i.mtime → t.status.perms = i.status.perms :=
    fun he hl hmt => g.links he t hcur.lt_tree.1 i (hcur.lt_index g.order).1 ht hl
      (by simpa [Inode.isSymlink, htype] using hl) hmt
  obtain ⟨m, hch, hstands⟩ :=
    stands_of_updateNode hs hcur.lt_tree.1 ht hpath hm₀ hrem htype hlink hr
  have hself := hch.self
  rw [List.append_assoc] at hself
  refine CheckoutInv.close ?_ hns hself hstands
  refine (h.openBoth hcur g ht).change hcur' g hch.closed fun ms => ?_
  by_cases hms : ms = ns ++ [n]
  · exact Or.inr (Or.inl ⟨i, by simp, by rw [hms, hns]⟩)
  · exact Or.inl (hch.other _ fun he =>
      hms (List.append_cancel_left (he.trans (List.append_assoc ..))))

end CheckoutInv

/-! ### The run -/

variable {os : OS}

/-- What is skipped does not matter at the end of the scan. -/
theorem Cursors.atEnd (h : Cursors s.inodes index is [] skip) :
    Cursors s.inodes index is [] none :=
  ⟨h.suffix_index, h.suffix_tree, h.order, h.gone, nofun, fun _ _ _ _ _ ht => nomatch ht⟩

/-- **What is left to do**: the rest of the scan is to be removed. -/
def RunsOut (s : Scan d₀ ignores root) (index : List Inode) (st : Store) (exact : Prop) (os : OS)
    (w' : World) : Prop :=
  ∃ w ts, CheckoutInv s index st exact w.disk [] [] ts ∧ Cursors s.inodes index [] ts none ∧
    removeRest os st root ts w = .ok () w'

/-- **A part of the loop** that is begun with `ts` left of the scan ends well. -/
def Continues (s : Scan d₀ ignores root) (index : List Inode) (st : Store) (exact : Prop) (os : OS)
    (ts : List Inode) (skip : Option Bytes) (loop : List Inode → CheckoutM (List Inode)) : Prop :=
  ∀ is w l w', CheckoutInv s index st exact w.disk [] is ts →
    Cursors s.inodes index is ts skip → loop is w = .ok l w' → RunsOut s index st exact os w'

theorem continues_checkoutRest (g : Ground s index exact) :
    Continues s index st exact os [] none (checkoutRest os st root) := by
  intro is
  induction is with
  | nil =>
    intro w l w' h hcur hr
    obtain ⟨rfl, rfl⟩ := EStateM.Result.ok.inj hr
    exact ⟨w, [], h, hcur, rfl⟩
  | cons i is ih =>
    intro w l w' h hcur hr
    obtain ⟨i', w₁, h₁, hr⟩ := bind_eq_ok.mp hr
    obtain ⟨l', w₂, h₂, hr⟩ := bind_eq_ok.mp hr
    obtain ⟨rfl, rfl⟩ := EStateM.Result.ok.inj hr
    obtain ⟨hinv, hcur'⟩ := h.created hcur g nofun h₁
    exact ih w₁ l' w₂ hinv hcur' h₂

theorem continues_checkoutAt (g : Ground s index exact)
    {rest : Option Bytes → List Inode → CheckoutM (List Inode)}
    (hrest : ∀ skip, Continues s index st exact os ts skip (rest skip)) :
    Continues s index st exact os (t :: ts) none (checkoutAt os st root t ts rest) := by
  intro is
  induction is with
  | nil =>
    intro w l w' h hcur hr
    obtain ⟨_, w₁, h₁, hr⟩ := bind_eq_ok.mp hr
    obtain ⟨rfl, rfl⟩ := EStateM.Result.ok.inj hr
    exact ⟨w, t :: ts, h, hcur, h₁⟩
  | cons i is ih =>
    intro w l w' h hcur hr
    rw [checkoutAt] at hr
    by_cases hti : t.path < i.path
    · rw [if_pos hti] at hr
      obtain ⟨_, w₁, h₁, h₂⟩ := bind_eq_ok.mp hr
      obtain ⟨hinv, hcur'⟩ := h.stale hcur g hti h₁
      exact hrest _ _ w₁ l w' hinv hcur' h₂
    rw [if_neg hti] at hr
    by_cases hit : i.path < t.path
    · rw [if_pos hit] at hr
      obtain ⟨i', w₁, h₁, hr⟩ := bind_eq_ok.mp hr
      obtain ⟨l', w₂, h₂, hr⟩ := bind_eq_ok.mp hr
      obtain ⟨rfl, rfl⟩ := EStateM.Result.ok.inj hr
      have hlt : ∀ u ∈ t :: ts, i.path < u.path :=
        List.forall_mem_cons.mpr ⟨hit, fun u hu => hit.trans (hcur.lt_tree.2.2 u hu)⟩
      obtain ⟨hinv, hcur'⟩ := h.created hcur g hlt h₁
      exact ih w₁ l' w₂ hinv hcur' h₂
    rw [if_neg hit] at hr
    have hp : t.path = i.path := le_antisymm (not_lt.mp hit) (not_lt.mp hti)
    by_cases htype : t.status.type = i.status.type
    · rw [if_neg (not_not.mpr htype)] at hr
      obtain ⟨i', w₁, h₁, hr⟩ := bind_eq_ok.mp hr
      obtain ⟨l', w₂, h₂, hr⟩ := bind_eq_ok.mp hr
      obtain ⟨rfl, rfl⟩ := EStateM.Result.ok.inj hr
      obtain ⟨hinv, hcur'⟩ := h.updated hcur g hp htype h₁
      exact hrest _ is w₁ l' w₂ hinv hcur' h₂
    · rw [if_pos htype] at hr
      obtain ⟨i', w₁, h₁, hr⟩ := bind_eq_ok.mp hr
      obtain ⟨l', w₂, h₂, hr⟩ := bind_eq_ok.mp hr
      obtain ⟨rfl, rfl⟩ := EStateM.Result.ok.inj hr
      obtain ⟨hinv, hcur'⟩ := h.replaced hcur g hp htype h₁
      exact hrest _ is w₁ l' w₂ hinv hcur' h₂

theorem continues_checkoutFrom (g : Ground s index exact) (ts : List Inode) (skip : Option Bytes) :
    Continues s index st exact os ts skip (checkoutFrom os st root ts skip) := by
  induction ts generalizing skip with
  | nil =>
    intro is w l w' h hcur hr
    exact continues_checkoutRest g is w l w' h hcur.atEnd hr
  | cons t ts ih =>
    intro is w l w' h hcur hr
    rw [checkoutFrom] at hr
    split_ifs at hr with hskip
    · obtain ⟨hinv, hcur'⟩ := h.skipped hcur g hskip
      exact ih skip is w l w' hinv hcur' hr
    · exact continues_checkoutAt g ih is w l w' h (hcur.noSkip hskip) hr

/-- **A checkout that returns has passed through the whole index**, and has removed what was
left of the scan then. -/
theorem runsOut_of_checkout (g : Ground s index exact) {w : World} {l : List Inode} {w' : World}
    (hw : w.disk = d₀) (hr : checkout os st root s.inodes index w = .ok l w') :
    RunsOut s index st exact os w' := by
  subst hw
  exact continues_checkoutFrom g s.inodes none index w l w' (.start g) Cursors.start hr

end Inv

end Fstree
