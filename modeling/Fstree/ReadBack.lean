import Fstree.Contents

/-!
# What a checkout reads back

`index::checkout_node` reads the mtime and the status of what it has made into the inode. In a
checkout that returns nothing but the mtime comes back changed (`Fstree.ReadBack`), whatever the
destination held: what was made has the status that the inode says, and a symlink that of every
symlink. So the inodes that are saved are those of the index, in their order, each with some mtime
(`Fstree.readBack_of_checkout`).
-/

namespace Fstree

open Codec SortedBy Effect

/-- **An inode that was read back**: with another mtime. -/
def ReadBack (i o : Inode) : Prop := ∃ t, o = { i with mtime := t }

theorem ReadBack.refl (i : Inode) : ReadBack i i := ⟨i.mtime, rfl⟩

theorem ReadBack.trans {i j k : Inode} (h : ReadBack i j) (h' : ReadBack j k) : ReadBack i k := by
  obtain ⟨t, rfl⟩ := h
  obtain ⟨t', rfl⟩ := h'
  exact ⟨t', rfl⟩

/-- Symlinks have the permissions of symlinks. -/
def LinkPerms (index : List Inode) : Prop :=
  ∀ i ∈ index, i.isSymlink = true → i.status.perms = Node.symlinkPerms

section ReadBack

variable {d₀ : Disk} {ignores : Bytes → Bool} {root : List Name} {s : Scan d₀ ignores root}
  {index : List Inode} {st : Store} {exact : Prop} {os : OS} {w w' : World} {i i' t : Inode}
  {is ts : List Inode} {ns : List Name} {n : Name} {m : Node} {skip : Option Bytes}

/-- What was made has the status that the inode says. -/
theorem Inode.Made.status_eq (h : i.Made st m)
    (hi : i.isSymlink = true → i.status.perms = Node.symlinkPerms) : m.status = i.status := by
  refine FileStatus.ext h.type ?_
  cases hl : m.isLink with
  | false => exact h.perms hl
  | true =>
    have hsym : i.isSymlink = true := by
      rw [Inode.isSymlink, ← h.type, decide_eq_true_eq, Node.status_type_eq_symlink]
      exact hl
    rw [Node.perms_of_isLink hl, hi hsym]

/-- What `checkout_node` reads back. -/
theorem readBack_of_checkoutNode (hr : Ready w.disk root i ns n)
    (hi : i.isSymlink = true → i.status.perms = Node.symlinkPerms)
    (h : checkoutNode os st root i w = .ok i' w') : ReadBack i i' := by
  obtain ⟨m, hm, -, -, -, rfl⟩ := view_of_checkoutNode hr h
  exact ⟨m.mtime, by rw [hm.status_eq hi]⟩

theorem readBack_of_replaceNode (hs : Straight w.disk ns n)
    (ht : fullPath root t = absPath (ns ++ [n])) (hpath : fullPath root i = absPath (ns ++ [n]))
    (hi : i.isSymlink = true → i.status.perms = Node.symlinkPerms)
    (h : replaceNode os st root t i w = .ok i' w') : ReadBack i i' := by
  rw [replaceNode, ht] at h
  split_ifs at h
  · obtain ⟨_, w₁, h₁, h₂⟩ := bind_eq_ok.mp h
    obtain ⟨t', h₁⟩ := effect_of_call h₁
    have hv := hs.removeAll h₁
    have hget : w₁.disk.get (ns ++ [n]) = none := by
      rw [← Disk.view_eq_none, hv, Disk.without, if_pos List.prefix_rfl]
    exact readBack_of_checkoutNode ((hs.of_without hv).ready hget hpath) hi h₂
  · obtain ⟨_, w₁, h₁, h₂⟩ := bind_eq_ok.mp h
    obtain ⟨t', h₁⟩ := effect_of_call h₁
    obtain ⟨hs₁, hget, -⟩ := hs.removed h₁
    exact readBack_of_checkoutNode (hs₁.ready hget hpath) hi h₂

theorem readBack_of_updateTarget (hs : Straight w.disk ns n)
    (hpath : fullPath root i = absPath (ns ++ [n]))
    (hi : i.isSymlink = true → i.status.perms = Node.symlinkPerms)
    (h : updateTarget os st root t i w = .ok i' w') : ReadBack i i' := by
  rw [updateTarget, hpath] at h
  split_ifs at h
  · obtain ⟨_, w₁, h₁, h₂⟩ := bind_eq_ok.mp h
    obtain ⟨t', h₁⟩ := effect_of_call h₁
    obtain ⟨hs₁, hget, -⟩ := hs.removed h₁
    exact readBack_of_checkoutNode (hs₁.ready hget hpath) hi h₂
  · obtain ⟨rfl, -⟩ := EStateM.Result.ok.inj h
    exact .refl _

theorem readBack_of_updateNode (hs : Straight w.disk ns n)
    (hpath : fullPath root i = absPath (ns ++ [n])) {m₀ : Node}
    (hm₀ : w.disk.view (ns ++ [n]) = some m₀) (htype : m₀.status.type = i.status.type)
    (hi : i.isSymlink = true → i.status.perms = Node.symlinkPerms)
    (h : updateNode os st root t i w = .ok i' w') : ReadBack i i' := by
  rw [updateNode] at h
  obtain ⟨i₁, w₁, h₁, h⟩ := bind_eq_ok.mp h
  obtain ⟨_, w₂, h₂, h₃⟩ := bind_eq_ok.mp h
  -- the path stays straight, and the permissions are those of the inode
  obtain ⟨m₁, hch, hback⟩ : ∃ m₁, Changed False (ns ++ [n]) w.disk w₁.disk m₁ ∧
      ReadBack i i₁ := by
    rcases rewriteNode_cases hs hpath hm₀ htype h₁ with
      ⟨rfl, rfl, -⟩ | ⟨-, m₁, hm₁, hv₁, hc₁, hi₁⟩
    · exact ⟨m₀, .refl hs.closed hm₀, .refl _⟩
    · refine ⟨m₁, .of_update hc₁ hv₁, i₁.mtime, ?_⟩
      rw [hi₁, hm₁.status_eq hi]
  have hpath₁ : fullPath root i₁ = absPath (ns ++ [n]) := by
    obtain ⟨time, rfl⟩ := hback
    exact hpath
  have hi₁ : i₁.isSymlink = true → i₁.status.perms = Node.symlinkPerms := by
    obtain ⟨time, rfl⟩ := hback
    exact hi
  obtain ⟨m₂, hch₂, -⟩ :=
    changed_of_updatePerms False (hch.straight hs) hpath₁ hch.self False.elim h₂
  exact hback.trans (readBack_of_updateTarget (hch₂.straight (hch.straight hs)) hpath₁ hi₁ h₃)

namespace CheckoutInv

theorem readBack_created (h : CheckoutInv s index st exact w.disk [] (i :: is) ts)
    (hcur : Cursors s.inodes index (i :: is) ts none) (g : Ground s index exact)
    (hlink : LinkPerms index) (hlt : ∀ t ∈ ts, i.path < t.path)
    (hr : checkoutNode os st root i w = .ok i' w') : ReadBack i i' := by
  obtain ⟨ns, n, hns, hs, hpath⟩ := h.straight hcur g
  exact readBack_of_checkoutNode (h.ready hs hpath hns fun t ht => ne_of_gt (hlt t ht))
    (hlink i (hcur.suffix_index.mem (by simp))) hr

theorem readBack_replaced (h : CheckoutInv s index st exact w.disk [] (i :: is) (t :: ts))
    (hcur : Cursors s.inodes index (i :: is) (t :: ts) none) (g : Ground s index exact)
    (hlink : LinkPerms index) (ht : t.path = i.path)
    (hr : replaceNode os st root t i w = .ok i' w') : ReadBack i i' := by
  obtain ⟨ns, n, -, hs, hpath⟩ := h.straight hcur g
  have htpath : fullPath root t = absPath (root ++ ns ++ [n]) := by rw [← hpath, fullPath, ht]; rfl
  exact readBack_of_replaceNode hs htpath hpath (hlink i (hcur.suffix_index.mem (by simp))) hr

theorem readBack_updated (h : CheckoutInv s index st exact w.disk [] (i :: is) (t :: ts))
    (hcur : Cursors s.inodes index (i :: is) (t :: ts) none) (g : Ground s index exact)
    (hlink : LinkPerms index) (ht : t.path = i.path) (htype : t.status.type = i.status.type)
    (hr : updateNode os st root t i w = .ok i' w') : ReadBack i i' := by
  obtain ⟨ns, n, hns, hs, hpath⟩ := h.straight hcur g
  obtain ⟨m₀, hm₀, hrem⟩ := h.present ht hns
  rw [← List.append_assoc] at hm₀
  exact readBack_of_updateNode hs hpath hm₀ (hrem.type.trans htype)
    (hlink i (hcur.suffix_index.mem (by simp))) hr

end CheckoutInv

/-! ### The run -/

/-- **A part of the loop** whose result is what was left of the index, read back. -/
def GivesBack (s : Scan d₀ ignores root) (index : List Inode) (st : Store) (exact : Prop)
    (ts : List Inode) (skip : Option Bytes) (loop : List Inode → CheckoutM (List Inode)) : Prop :=
  ∀ is w l w', CheckoutInv s index st exact w.disk [] is ts →
    Cursors s.inodes index is ts skip → loop is w = .ok l w' → List.Forall₂ ReadBack is l

theorem givesBack_checkoutRest (g : Ground s index exact) (hlink : LinkPerms index) :
    GivesBack s index st exact [] none (checkoutRest os st root) := by
  intro is
  induction is with
  | nil =>
    intro w l w' _ _ hr
    obtain ⟨rfl, -⟩ := EStateM.Result.ok.inj hr
    exact .nil
  | cons i is ih =>
    intro w l w' h hcur hr
    obtain ⟨i', w₁, h₁, hr⟩ := bind_eq_ok.mp hr
    obtain ⟨l', w₂, h₂, hr⟩ := bind_eq_ok.mp hr
    obtain ⟨rfl, -⟩ := EStateM.Result.ok.inj hr
    obtain ⟨hinv, hcur'⟩ := h.created hcur g nofun h₁
    exact .cons (h.readBack_created hcur g hlink nofun h₁) (ih w₁ l' w₂ hinv hcur' h₂)

theorem givesBack_checkoutAt (g : Ground s index exact) (hlink : LinkPerms index)
    {rest : Option Bytes → List Inode → CheckoutM (List Inode)}
    (hrest : ∀ skip, GivesBack s index st exact ts skip (rest skip)) :
    GivesBack s index st exact (t :: ts) none (checkoutAt os st root t ts rest) := by
  intro is
  induction is with
  | nil =>
    intro w l w' _ _ hr
    obtain ⟨_, w₁, -, hr⟩ := bind_eq_ok.mp hr
    obtain ⟨rfl, -⟩ := EStateM.Result.ok.inj hr
    exact .nil
  | cons i is ih =>
    intro w l w' h hcur hr
    rw [checkoutAt] at hr
    by_cases hti : t.path < i.path
    · rw [if_pos hti] at hr
      obtain ⟨_, w₁, h₁, h₂⟩ := bind_eq_ok.mp hr
      obtain ⟨hinv, hcur'⟩ := h.stale hcur g hti h₁
      exact hrest _ _ w₁ l w' hinv hcur' h₂
    rw [if_neg hti] at hr
    by_cases hit : i.path < t.path
    · rw [if_pos hit] at hr
      obtain ⟨i', w₁, h₁, hr⟩ := bind_eq_ok.mp hr
      obtain ⟨l', w₂, h₂, hr⟩ := bind_eq_ok.mp hr
      obtain ⟨rfl, -⟩ := EStateM.Result.ok.inj hr
      have hlt : ∀ u ∈ t :: ts, i.path < u.path :=
        List.forall_mem_cons.mpr ⟨hit, fun u hu => hit.trans (hcur.lt_tree.2.2 u hu)⟩
      obtain ⟨hinv, hcur'⟩ := h.created hcur g hlt h₁
      exact .cons (h.readBack_created hcur g hlink hlt h₁) (ih w₁ l' w₂ hinv hcur' h₂)
    rw [if_neg hit] at hr
    have hp : t.path = i.path := le_antisymm (not_lt.mp hit) (not_lt.mp hti)
    by_cases htype : t.status.type = i.status.type
    · rw [if_neg (not_not.mpr htype)] at hr
      obtain ⟨i', w₁, h₁, hr⟩ := bind_eq_ok.mp hr
      obtain ⟨l', w₂, h₂, hr⟩ := bind_eq_ok.mp hr
      obtain ⟨rfl, -⟩ := EStateM.Result.ok.inj hr
      obtain ⟨hinv, hcur'⟩ := h.updated hcur g hp htype h₁
      exact .cons (h.readBack_updated hcur g hlink hp htype h₁)
        (hrest _ is w₁ l' w₂ hinv hcur' h₂)
    · rw [if_pos htype] at hr
      obtain ⟨i', w₁, h₁, hr⟩ := bind_eq_ok.mp hr
      obtain ⟨l', w₂, h₂, hr⟩ := bind_eq_ok.mp hr
      obtain ⟨rfl, -⟩ := EStateM.Result.ok.inj hr
      obtain ⟨hinv, hcur'⟩ := h.replaced hcur g hp htype h₁
      exact .cons (h.readBack_replaced hcur g hlink hp h₁) (hrest _ is w₁ l' w₂ hinv hcur' h₂)

theorem givesBack_checkoutFrom (g : Ground s index exact) (hlink : LinkPerms index)
    (ts : List Inode) (skip : Option Bytes) :
    GivesBack s index st exact ts skip (checkoutFrom os st root ts skip) := by
  induction ts generalizing skip with
  | nil =>
    intro is w l w' h hcur hr
    exact givesBack_checkoutRest g hlink is w l w' h hcur.atEnd hr
  | cons t ts ih =>
    intro is w l w' h hcur hr
    rw [checkoutFrom] at hr
    split_ifs at hr with hskip
    · obtain ⟨hinv, hcur'⟩ := h.skipped hcur g hskip
      exact ih skip is w l w' hinv hcur' hr
    · exact givesBack_checkoutAt g hlink ih is w l w' h (hcur.noSkip hskip) hr

/-- **The inodes that come back from a checkout** are those of the index with some mtimes, whatever
the destination held. -/
theorem readBack_of_checkout (g : Ground s index exact) (hlink : LinkPerms index) {l : List Inode}
    (hr : checkout os st root s.inodes index ⟨d₀, []⟩ = .ok l w) :
    List.Forall₂ ReadBack index l :=
  givesBack_checkoutFrom g hlink s.inodes none index _ l w (.start g) Cursors.start hr

end ReadBack

end Fstree
