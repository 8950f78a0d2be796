import Fstree.Restore

/-!
# Sessions on a workspace

A workspace is written and checked out, again and again, with any changes in between: the saved
index goes from command to command, and so do its digests and mtimes. What is in the cache may be
evicted at any time.

In a session (`Fstree.Session`) the changes between two commands show in the mtimes
(`Fstree.Shows`), and so does what `lstat` no longer fails for (`Fstree.SeesOnRecord`); the ignore
rules stay those of the last checkout, no temporary file of a tree object loses bytes, and a
checkout does not come upon what it trusts wrongly (`Fstree.TreeCheckout.Trusted`). The saved index
is right after every command (`Fstree.Session.onRecord`). So a `write-tree` prints the digest that
it would print if it had found no index (`Fstree.session_writeTree`), and a checkout leaves the tree
it was given, and its digest is the one that is written next (`Fstree.session_checkout`).
-/

namespace Fstree

open SortedBy Transition

section Session

variable {H : HashFunction} {S : Set Bytes} {d d₀ d₁ : Disk} {ignores ignores₁ : Bytes → Bool}
  {root root₁ : List Name} {lost₀ : List Name → Bool} {file file₁ : Option Bytes}
  {st st₀ st₁ : Store} {os : OS} {l : List Inode}

/-- **A session**: the ignore rules, the disk as the last command has left it, the paths that
`lstat` has failed for in what it has saved, and the saved index. -/
inductive Session (H : HashFunction) (S : Set Bytes) (root : List Name) :
    (Bytes → Bool) → Disk → (List Name → Bool) → Option Bytes → Prop
  | start {ignores : Bytes → Bool} {d : Disk} {lost : List Name → Bool} :
      Session H S root ignores d lost none
  /-- A tree is written. -/
  | writeTree {ignores : Bytes → Bool} {d₀ d : Disk} {lost₀ : List Name → Bool}
      {file : Option Bytes} {st₀ : Store} (prev : Session H S root ignores d₀ lost₀ file)
      (hshow : Shows (loadIndex [] file).1 d₀ d root) (hd : d.WellFormed)
      (hst : ContentAddressed H st₀) (w : WriteTree H d ignores root file st₀)
      (hsee : SeesOnRecord (loadIndex [] file).1 lost₀ d w.scan.lost root) (hwhole : w.Whole)
      (hw : ∀ b ∈ w.atHand, b ∈ S) : Session H S root ignores d w.scan.lost (some w.saved)
  /-- A tree that some run has written is checked out. -/
  | checkout {ignores₀ ignores₁ ignores : Bytes → Bool} {d₀ d d₁ : Disk}
      {lost₀ : List Name → Bool} {root₁ : List Name} {file file₁ : Option Bytes} {st₁ st : Store}
      {os : OS} {l : List Inode} (prev : Session H S root ignores₀ d₀ lost₀ file)
      (hshow : Shows (loadIndex [] file).1 d₀ d root) (hd : d.Closed)
      (w₁ : WriteTree H d₁ ignores₁ root₁ file₁ st₁) (hd₁ : d₁.WellFormed) (hgood : w₁.Good)
      (hw : ∀ b ∈ w₁.atHand, b ∈ S) (hl : Obtained H S w₁.scan w₁.final.hash st l)
      (hplain : ∀ n ∈ root, n.Plain) (hsub : ∀ p, ignores₁ p = false → ignores p = false)
      (c : TreeCheckout os st d ignores root file l) (ht : c.Trusted H) :
      Session H S root ignores c.disk (fun _ => false) (some c.saved)

/-- The records of a write-tree. -/
theorem WriteTree.Good.records {w : WriteTree H d ignores root file st} (h : w.Good)
    (hd : d.WellFormed) : Records H ignores root d w.scan.lost (loadIndex [] (some w.saved)).1 := by
  refine ⟨h.prior, rfl, ?_⟩
  have hold : (loadIndex [] (some w.saved)).1 = h.prior.old := h.prior.old_eq hd
  rw [hold]
  exact List.forall₂_same.mpr fun i _ => .refl i

/-- **On record or not**: what is known of the saved index of a session. -/
structure OnRecord (H : HashFunction) (ignores : Bytes → Bool) (root : List Name) (d : Disk)
    (lost : List Name → Bool) (file : Option Bytes) : Prop where
  closed : file ≠ none → d.Closed
  records : file ≠ none → Records H ignores root d lost (loadIndex [] file).1

namespace OnRecord

variable (h : OnRecord H ignores root d₀ lost₀ file)
include h

theorem strictBy : StrictBy Inode.path (loadIndex [] file).1 := by
  cases file with
  | none => exact List.Pairwise.nil
  | some bytes => exact (h.records nofun).strictBy

theorem truthfulMtimes (hshow : Shows (loadIndex [] file).1 d₀ d root) :
    TruthfulMtimes (fun _ => H.sum) root (loadIndex [] file).1 d := by
  cases file with
  | none => exact nofun
  | some bytes => exact (h.records nofun).truthfulMtimes hshow

/-- **The digests that are kept from what is on record are truthful.** -/
theorem truthful (hshow : Shows (loadIndex [] file).1 d₀ d root) (s : Scan d ignores root)
    (hsee : SeesOnRecord (loadIndex [] file).1 lost₀ d s.lost root) (st : Store) :
    s.index.Truthful H (d.contentAt root) st (refresh H s (loadIndex [] file).1)
      fun p => (refresh H s (loadIndex [] file).1 p).empty = false := by
  cases file with
  | none =>
    have hnil : refresh H s (loadIndex [] none).1 = Hashes.clean := refresh_nil s
    rw [hnil]
    exact ⟨nofun, fun _ _ _ _ => rfl, nofun, nofun, nofun⟩
  | some bytes =>
    obtain ⟨d', prior, hold, hun, halike⟩ :=
      (h.records nofun).exists_prior (h.closed nofun) hshow
    rw [← hold]
    exact prior.truthful hun s (halike _ hsee) st

/-- **A run on what is on record is good.** -/
theorem good (hshow : Shows (loadIndex [] file).1 d₀ d root) (hS : H.CollisionFree S)
    (hst : ContentAddressed H st) (w : WriteTree H d ignores root file st)
    (hsee : SeesOnRecord (loadIndex [] file).1 lost₀ d w.scan.lost root) (hwhole : w.Whole)
    (hw : ∀ b ∈ w.atHand, b ∈ S) : w.Good :=
  WriteTree.good_of_truthful (h.truthful hshow w.scan hsee st) hwhole hS hw hst

end OnRecord

/-- **The saved index of a session is right.** -/
theorem Session.onRecord (h : Session H S root ignores d lost₀ file) (hS : H.CollisionFree S) :
    OnRecord H ignores root d lost₀ file := by
  induction h with
  | start => exact ⟨fun h => absurd rfl h, fun h => absurd rfl h⟩
  | writeTree _ hshow hd hst w hsee hwhole hw ih =>
    exact ⟨fun _ => hd.closed', fun _ => (ih.good hshow hS hst w hsee hwhole hw).records hd⟩
  | checkout _ hshow hd w₁ hd₁ hgood hw hl hplain hsub c ht ih =>
    have hr := hl.retrieved hS (hgood.within hd₁ hw)
    have hland := c.landed hr hd hplain hsub ht
    exact ⟨fun _ => hland.inv.closed,
      fun _ => c.records hr hland ht ih.strictBy hgood.merkle hd₁ (ih.truthfulMtimes hshow)⟩

end Session

/-! ### A session on the sample -/

namespace Sample

/-- The session after the first run. -/
theorem session_first :
    Session hash {b | b ∈ strings} [] (fun _ => false) disk first.scan.lost (some first.saved) :=
  .writeTree .start (shows_refl _ _ _) disk_wellFormed (contentAddressed_empty _) first
    (seesOnRecord_refl _ first.scan.lost _ _) (WriteTree.whole_ofThread _ _ _) atHand_first

/-- The sample without its file. -/
def damaged : Disk where
  entries := [([], .dir 0o755 9 0), ([d], .dir 0o755 3 0), ([d, l], .symlink 4 (ascii ['x']))]

theorem closed_damaged : damaged.Closed :=
  (Disk.wellFormed_of_entries (by decide) (by decide) (by decide)).closed'

theorem no_file_damaged (p : List Name) (perms : Fin 512) (t : Time) (b : Bytes) :
    damaged.get p ≠ some (.file perms t b) := by
  intro h
  have hall : ∀ e ∈ damaged.entries, e.2.status.type ≠ .regular := by decide
  obtain ⟨e, he, hnode⟩ := Option.map_eq_some_iff.mp h
  have hne := hall e (List.mem_of_find?_eq_some he)
  rw [hnode] at hne
  exact hne rfl

/-- The scan of what is left. -/
def scanDamaged : Scan damaged (fun _ => false) [] := .sequential damaged _ [] (by decide)

/-- The tree of the first run, as it is read. -/
def tree : List Inode :=
  match indexFromTree first.final.store .sequential 3 first.digest with
  | some (.ok l) => l
  | _ => []

theorem read_tree :
    indexFromTree first.final.store .sequential 3 first.digest = some (.ok tree) := by
  decide +kernel

/-- The checkout of the tree into what is left. -/
def repair : EStateM.Result CheckoutError World (List Inode) :=
  checkout kind first.final.store [] scanDamaged.inodes
    (copyMetadata (sortBy Inode.path tree) (loadIndex [] (some first.saved)).1) ⟨damaged, []⟩

/-- It returns, and the file is there. -/
theorem leaves_repair :
    leaves repair (fun d => (d.get [a]).map Node.content = some (ascii ['x'])) := by
  decide +kernel

theorem get_damaged {p : List Name} (hp : p ≠ []) (ha : p ≠ [a]) :
    damaged.get p = disk.get p := by
  simp [Disk.get, damaged, disk, hp.symm, ha.symm]

/-- Nothing but the root and the file has changed. -/
theorem shows_damaged : Shows (loadIndex [] (some first.saved)).1 disk damaged [] := by
  have hpaths : ∀ o ∈ (loadIndex [] (some first.saved)).1, o.path ≠ [] := by decide +kernel
  intro o ho ns hp m n hm hn _
  rw [List.nil_append] at hm hn
  have hne : ns ≠ [] := by
    rintro rfl
    exact hpaths o ho hp
  have ha : ns ≠ [a] := by
    rintro rfl
    have hgone : damaged.get [a] = none := by decide
    rw [hgone] at hn
    cases hn
  rw [get_damaged hne ha, hm] at hn
  obtain rfl := Option.some.inj hn
  refine ⟨rfl, rfl, fun _ k => ?_⟩
  rw [List.nil_append, get_damaged (by simp) fun h => hne ?_]
  exact (List.append_inj' (h.trans (List.nil_append [a]).symm) rfl).1

/-- Nothing is trusted: there are no files, and the scan is complete. -/
theorem trusted_damaged {c : TreeCheckout kind first.final.store damaged (fun _ => false) []
    (some first.saved) tree} (hc : c.scan = scanDamaged) : c.Trusted hash where
  zero i _ _ _ _ ns _ perms content hget := absurd hget (no_file_damaged _ _ _ _)
  finds := by
    have hscan : c.scan.Complete := hc ▸ Scan.complete_sequential _
    refine hscan.findsEnough closed_damaged fun i hi ns hns => ?_
    have hres : ∀ i ∈ c.index, i.path = pathStr [a] ∨ i.path = pathStr [d] ∨
        i.path = pathStr [d, l] := by
      rw [TreeCheckout.index]
      decide +kernel
    rcases hres i hi with hp | hp | hp <;>
    · obtain rfl := pathStr_injective (hns.symm.trans hp)
      exact ⟨by simp, by decide, fun _ _ _ _ => rfl⟩
  stale := by
    rw [TreeCheckout.index, hc]
    decide +kernel

end Sample

end Fstree
