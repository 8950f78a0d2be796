import Fstree.Foundations.Transition
import Fstree.Model.Inode

/-!
# Indexes as values that share their inodes

An `index` is a value: a pointer to the root and a list of pointers to inodes, which are
objects on the heap that point to their children and to their parent. A copy of an index
points to the same inodes. The class declares a destructor, so that it has no move
operations, and what `simple` does at the end of `load`, `pull` and `write_tree`,
`_index = std::move(index)`, is a copy; then the local index is destroyed, and
`index::~index` clears every inode it points to, its children and its parent.

So the handle is left with inodes that have lost their children
(`Fstree.handle_loses_children`): the index of the handle is a tree exactly when it has no
inodes at all (`Fstree.handle_keepsTree_iff`).
-/

namespace Fstree

open Transition

/-! ### The heap -/

/-- **An inode on the heap**: its fields, and what it points to. -/
structure HeapInode where
  fields : Inode
  children : List ℕ
  parent : Option ℕ

/-- **A heap**: the objects at the addresses below `size`. -/
structure Heap where
  size : ℕ
  object : ℕ → HeapInode

/-- The object at an address is replaced. -/
def Heap.set (h : Heap) (a : ℕ) (o : HeapInode) : Heap :=
  { h with object := Function.update h.object a o }

/-- `make_intrusive`: a new inode, at the next address. -/
def Heap.alloc (h : Heap) (fields : Inode) : Heap :=
  { h.set h.size ⟨fields, [], none⟩ with size := h.size + 1 }

/-- `inode::add_child`. -/
def Heap.addChild (h : Heap) (d c : ℕ) : Heap :=
  let h' := h.set d { h.object d with children := (h.object d).children ++ [c] }
  h'.set c { h'.object c with parent := some d }

/-- **`inode::clear`**. The first argument bounds the depth of the recursion. -/
def Heap.clear : ℕ → Heap → ℕ → Option Heap
  | 0, _, _ => none
  | depth + 1, h, a => do
    let h' ← (h.object a).children.foldlM (Heap.clear depth) h
    return h'.set a { h'.object a with children := [], parent := none }

/-- **An index**: the pointers it holds. A copy of it holds the same. -/
structure IndexValue where
  root : ℕ
  inodes : List ℕ

/-- **`index::~index`**. -/
def IndexValue.destroy (x : IndexValue) (h : Heap) : Option Heap :=
  (x.root :: x.inodes).foldlM (Heap.clear h.size) h

/-! ### Building an index -/

/-- **An index that is being built**: `pending` are the inodes that are children of their
parent by now, and that are still to be appended to the list. -/
structure IndexBuild where
  heap : Heap
  root : ℕ
  inodes : List ℕ
  pending : List ℕ

/-- The fields of the inodes are written, but for their types, and children are sorted. -/
structure Heap.Tidied (h h' : Heap) : Prop where
  size : h'.size = h.size
  isDirectory : ∀ a, (h'.object a).fields.isDirectory = (h.object a).fields.isDirectory
  children : ∀ a, (h'.object a).children.Perm (h.object a).children
  parent : ∀ a, (h'.object a).parent = (h.object a).parent

/-- **One step of building an index**, as `index_from_tree`, `pull`, a scan and a merge do
it, whatever they read and in whatever order their workers come. -/
inductive BuildStep : IndexBuild → IndexBuild → Prop
  /-- An inode is made, and added to the children of the root or of a directory. -/
  | add {b : IndexBuild} {d : ℕ} (fields : Inode)
      (hd : d = b.root ∨ d ∈ b.inodes ++ b.pending ∧ (b.heap.object d).fields.isDirectory = true) :
      BuildStep b { b with
        heap := (b.heap.alloc fields).addChild d b.heap.size
        pending := b.pending ++ [b.heap.size] }
  /-- `push_back`. -/
  | push {b : IndexBuild} {l c r} (hpending : b.pending = l ++ c :: r) :
      BuildStep b { b with inodes := b.inodes ++ [c], pending := l ++ r }
  /-- `set_hash`, `set_status`, `sort`, and so on. -/
  | tidy {b : IndexBuild} {h : Heap} (ht : b.heap.Tidied h) : BuildStep b { b with heap := h }
  /-- An inode is made for something else, as those of a saved index are. -/
  | alloc {b : IndexBuild} (fields : Inode) :
      BuildStep b { b with heap := b.heap.alloc fields }

/-- The constructor of an index makes its root. -/
def IndexBuild.start (h : Heap) (fields : Inode) : IndexBuild := ⟨h.alloc fields, h.size, [], []⟩

/-- **An index is built**, from its root to the last `push_back`. -/
def Builds (h h' : Heap) (x : IndexValue) : Prop :=
  ∃ fields, Reaches BuildStep (.start h fields) ⟨h', x.root, x.inodes, []⟩

/-- **The loop of `simple::write_tree`** over several paths: each has an index of its own,
which is merged and destroyed. The merge builds the index anew. -/
inductive Merges : Heap → Heap → IndexValue → Prop
  | nil {h} (fields : Inode) : Merges h (h.alloc fields) ⟨h.size, []⟩
  | cons {h h₁ h₂ h₃ h₄ x y x'} (hloop : Merges h h₁ x) (hother : Builds h₁ h₂ y)
      (hmerge : Builds h₂ h₃ x') (hdestroy : y.destroy h₃ = some h₄) : Merges h h₄ x'

/-- **An operation of the handle builds a local index**: `load` and `pull` from trees,
`write_tree` by a scan, or by the merge of several, and `cache::add` writes digests. -/
inductive BuildsLocal : Heap → Heap → IndexValue → Prop
  | one {h h' x} (hbuild : Builds h h' x) : BuildsLocal h h' x
  | several {h h₁ h' x} (hmerge : Merges h h₁ x) (hadd : h₁.Tidied h') : BuildsLocal h h' x

/-- **The index is a tree on the heap `h'`**: the children of the root and of the listed
directories are the listed inodes that have it as their parent directory, as they have been
built on `h`. -/
def IndexValue.KeepsTree (x : IndexValue) (h h' : Heap) : Prop :=
  ∀ d, d = x.root ∨ d ∈ x.inodes ∧ (h'.object d).fields.isDirectory = true →
    ∀ c, c ∈ (h'.object d).children ↔ c ∈ x.inodes ∧ (h.object c).parent = some d

/-! ### What clearing does -/

section Clear

variable {h h' h₁ : Heap} {a c n depth : ℕ} {l : List ℕ} {o : HeapInode}

@[simp] theorem Heap.set_size : (h.set a o).size = h.size := rfl

@[simp] theorem Heap.set_self : (h.set a o).object a = o := Function.update_self ..

theorem Heap.set_ne (hc : c ≠ a) : (h.set a o).object c = h.object c :=
  Function.update_of_ne hc ..

/-- **What clears do to a heap**: an inode keeps its children or loses all of them, and
keeps its parent or loses it. -/
structure Heap.Cleared (h h' : Heap) : Prop where
  size : h'.size = h.size
  fields : ∀ a, (h'.object a).fields = (h.object a).fields
  children : ∀ a, (h'.object a).children = (h.object a).children ∨ (h'.object a).children = []
  parent : ∀ a, (h'.object a).parent = (h.object a).parent ∨ (h'.object a).parent = none

theorem Heap.Cleared.refl : h.Cleared h :=
  ⟨rfl, fun _ => rfl, fun _ => Or.inl rfl, fun _ => Or.inl rfl⟩

theorem Heap.Cleared.trans (hc : h.Cleared h₁) (hc' : h₁.Cleared h') : h.Cleared h' where
  size := hc'.size.trans hc.size
  fields a := (hc'.fields a).trans (hc.fields a)
  children a := by
    rcases hc'.children a with he | he
    · rw [he]
      exact hc.children a
    · exact Or.inr he
  parent a := by
    rcases hc'.parent a with he | he
    · rw [he]
      exact hc.parent a
    · exact Or.inr he

/-- What has no children gets none. -/
theorem Heap.Cleared.children_nil (hc : h.Cleared h') (ha : (h.object a).children = []) :
    (h'.object a).children = [] :=
  (hc.children a).elim (fun he => he.trans ha) id

/-- The last thing `clear` does. -/
theorem Heap.cleared_set :
    h.Cleared (h.set a { h.object a with children := [], parent := none }) := by
  refine ⟨rfl, fun b => ?_, fun b => ?_, fun b => ?_⟩ <;> rcases eq_or_ne b a with rfl | hb
  · rw [set_self]
  · rw [set_ne hb]
  · exact Or.inr (by rw [set_self])
  · exact Or.inl (by rw [set_ne hb])
  · exact Or.inr (by rw [set_self])
  · exact Or.inl (by rw [set_ne hb])

/-- One clear after the other. -/
theorem Heap.clearAll_cons : (a :: l).foldlM (Heap.clear depth) h = some h' ↔
    ∃ h₁, Heap.clear depth h a = some h₁ ∧ l.foldlM (Heap.clear depth) h₁ = some h' := by
  simp [List.foldlM_cons, Option.bind_eq_some_iff]

/-- **Clearing an inode** clears its children, and then the inode itself. -/
theorem Heap.clear_succ : Heap.clear (depth + 1) h a = some h' ↔
    ∃ h₁, (h.object a).children.foldlM (Heap.clear depth) h = some h₁ ∧
      h' = h₁.set a { h₁.object a with children := [], parent := none } := by
  rw [Heap.clear, Option.bind_eq_bind, Option.bind_eq_some_iff]
  exact exists_congr fun _ => and_congr_right fun _ => Option.some_inj.trans eq_comm

/-- Clearing several inodes leaves all of them without children, if clearing one does. -/
theorem Heap.clearAll_spec
    (hone : ∀ h a h', Heap.clear depth h a = some h' → h.Cleared h' ∧ (h'.object a).children = [])
    (hl : l.foldlM (Heap.clear depth) h = some h') :
    h.Cleared h' ∧ ∀ a ∈ l, (h'.object a).children = [] := by
  induction l generalizing h with
  | nil =>
    obtain rfl : h = h' := Option.some.inj hl
    exact ⟨.refl, nofun⟩
  | cons a l ih =>
    obtain ⟨h₁, ha, hl⟩ := clearAll_cons.mp hl
    obtain ⟨hc₁, hnil⟩ := hone _ _ _ ha
    obtain ⟨hc, hall⟩ := ih hl
    exact ⟨hc₁.trans hc, List.forall_mem_cons.mpr ⟨hc.children_nil hnil, hall⟩⟩

/-- **A cleared inode has no children.** -/
theorem Heap.clear_spec (hc : Heap.clear depth h a = some h') :
    h.Cleared h' ∧ (h'.object a).children = [] := by
  induction depth generalizing h a h' with
  | zero => cases hc
  | succ depth ih =>
    obtain ⟨h₁, hchildren, rfl⟩ := clear_succ.mp hc
    have hcleared := (clearAll_spec (fun _ _ _ => ih) hchildren).1
    exact ⟨hcleared.trans cleared_set, by rw [set_self]⟩

/-- **A destroyed index has left its inodes without children.** -/
theorem IndexValue.destroy_spec {x : IndexValue} (hx : x.destroy h = some h') :
    h.Cleared h' ∧ ∀ a ∈ x.root :: x.inodes, (h'.object a).children = [] :=
  Heap.clearAll_spec (fun _ _ _ => Heap.clear_spec) hx

/-- What is below an address points to what is below it. -/
def Heap.ClosedBelow (h : Heap) (n : ℕ) : Prop := ∀ a < n, ∀ c ∈ (h.object a).children, c < n

theorem Heap.ClosedBelow.cleared (hn : h.ClosedBelow n) (hc : h.Cleared h') :
    h'.ClosedBelow n := by
  intro a ha c hca
  rcases hc.children a with he | he <;> rw [he] at hca
  · exact hn a ha c hca
  · cases hca

theorem Heap.clearAll_frame
    (hone : ∀ h a h', a < n → h.ClosedBelow n → Heap.clear depth h a = some h' →
      ∀ b, n ≤ b → h'.object b = h.object b)
    (hl : l.foldlM (Heap.clear depth) h = some h') (hlt : ∀ a ∈ l, a < n)
    (hn : h.ClosedBelow n) {b : ℕ} (hb : n ≤ b) : h'.object b = h.object b := by
  induction l generalizing h with
  | nil =>
    obtain rfl : h = h' := Option.some.inj hl
    rfl
  | cons a l ih =>
    obtain ⟨h₁, ha, hl⟩ := clearAll_cons.mp hl
    obtain ⟨hlta, hltl⟩ := List.forall_mem_cons.mp hlt
    exact (ih hl hltl (hn.cleared (clear_spec ha).1)).trans (hone _ _ _ hlta hn ha b hb)

/-- Clearing an inode leaves those alone that it does not lead to. -/
theorem Heap.clear_frame (ha : a < n) (hn : h.ClosedBelow n)
    (hc : Heap.clear depth h a = some h') : ∀ b, n ≤ b → h'.object b = h.object b := by
  induction depth generalizing h a h' with
  | zero => cases hc
  | succ depth ih =>
    obtain ⟨h₁, hchildren, rfl⟩ := clear_succ.mp hc
    intro b hb
    rw [set_ne (by omega)]
    exact clearAll_frame (fun _ _ _ => ih) hchildren (hn a ha) hn hb

/-- **Destroying an index leaves the other inodes alone.** -/
theorem IndexValue.destroy_frame {x : IndexValue} (hx : x.destroy h = some h')
    (hlt : ∀ a ∈ x.root :: x.inodes, a < n) (hn : h.ClosedBelow n) {b : ℕ} (hb : n ≤ b) :
    h'.object b = h.object b :=
  Heap.clearAll_frame (fun _ _ _ => Heap.clear_frame) hx hlt hn hb

/-- Children are made after their parents. -/
def Heap.Ordered (h : Heap) : Prop := ∀ a < h.size, ∀ c ∈ (h.object a).children, a < c ∧ c < h.size

theorem Heap.Ordered.cleared (ho : h.Ordered) (hc : h.Cleared h') : h'.Ordered := by
  intro a ha c hca
  rw [hc.size] at ha ⊢
  rcases hc.children a with he | he <;> rw [he] at hca
  · exact ho a ha c hca
  · cases hca

theorem Heap.exists_clearAll
    (hone : ∀ h a, h.size = n → a ∈ l → h.Ordered → ∃ h', Heap.clear depth h a = some h')
    (hsize : h.size = n) (ho : h.Ordered) :
    ∃ h', l.foldlM (Heap.clear depth) h = some h' := by
  induction l generalizing h with
  | nil => exact ⟨h, rfl⟩
  | cons a l ih =>
    obtain ⟨h₁, ha⟩ := hone h a hsize (by simp) ho
    have hc := (clear_spec ha).1
    obtain ⟨h', hl⟩ := ih (fun h b hs hb => hone h b hs (List.mem_cons_of_mem _ hb))
      (hc.size.trans hsize) (ho.cleared hc)
    exact ⟨h', clearAll_cons.mpr ⟨h₁, ha, hl⟩⟩

/-- **Clearing ends**: from a parent to a child the addresses grow. -/
theorem Heap.exists_clear (ho : h.Ordered) (ha : a < h.size) (hdepth : h.size ≤ depth + a) :
    ∃ h', Heap.clear depth h a = some h' := by
  induction depth generalizing h a with
  | zero => omega
  | succ depth ih =>
    have hchildren : ∃ h', (h.object a).children.foldlM (Heap.clear depth) h = some h' :=
      exists_clearAll (fun g c hs hc hg => by
        have := ho a ha c hc
        exact ih hg (by omega) (by omega)) rfl ho
    obtain ⟨h₁, hl⟩ := hchildren
    exact ⟨_, clear_succ.mpr ⟨h₁, hl, rfl⟩⟩

/-- **The destructor returns.** -/
theorem IndexValue.exists_destroy {x : IndexValue} (ho : h.Ordered)
    (hlt : ∀ a ∈ x.root :: x.inodes, a < h.size) : ∃ h', x.destroy h = some h' :=
  Heap.exists_clearAll (fun g a hs ha hg =>
    Heap.exists_clear hg (hs ▸ hlt a ha) (by omega)) rfl ho

end Clear

/-! ### What building does -/

section Build

variable {h h' : Heap} {b b' : IndexBuild} {x : IndexValue} {lo a c d : ℕ} {fields : Inode}

/-- The inodes an index that is being built has. -/
def IndexBuild.made (b : IndexBuild) : List ℕ := b.inodes ++ b.pending

/-- **A partial index is a tree**, above the address `lo` of its root: everything it has
made is a child of its parent, which is the root or a directory of its own. -/
structure IndexBuild.Grown (lo : ℕ) (b : IndexBuild) : Prop where
  root : b.root = lo
  made : ∀ c ∈ b.made, lo < c ∧ c < b.heap.size
  root_lt : lo < b.heap.size
  tree : ∀ d, d = b.root ∨ d ∈ b.made →
    ∀ c, c ∈ (b.heap.object d).children ↔ c ∈ b.made ∧ (b.heap.object c).parent = some d
  parent : ∀ c ∈ b.made, ∃ d, (b.heap.object c).parent = some d ∧
    (d = b.root ∨ d ∈ b.made ∧ (b.heap.object d).fields.isDirectory = true)
  ordered : b.heap.Ordered
  closed : b.heap.ClosedBelow lo

theorem Heap.alloc_object_self : (h.alloc fields).object h.size = ⟨fields, [], none⟩ :=
  Function.update_self ..

theorem Heap.alloc_object_ne (ha : a ≠ h.size) : (h.alloc fields).object a = h.object a :=
  Function.update_of_ne ha ..

/-- A new inode as a child of `d`. -/
def Heap.add (h : Heap) (fields : Inode) (d : ℕ) : Heap := (h.alloc fields).addChild d h.size

theorem Heap.add_object_self (hd : d < h.size) :
    (h.add fields d).object h.size = ⟨fields, [], some d⟩ := by
  rw [add, addChild, set_self, set_ne (by omega), alloc_object_self]

theorem Heap.add_object_parent (hd : d < h.size) :
    (h.add fields d).object d =
      { h.object d with children := (h.object d).children ++ [h.size] } := by
  rw [add, addChild, set_ne (by omega), set_self, alloc_object_ne (by omega)]

theorem Heap.add_object_ne (ha : a ≠ h.size) (had : a ≠ d) :
    (h.add fields d).object a = h.object a := by
  rw [add, addChild, set_ne ha, set_ne had, alloc_object_ne ha]

/-- The parents after an inode was added. -/
theorem Heap.add_parent (hd : d < h.size) (ha : a ≠ h.size) :
    ((h.add fields d).object a).parent = (h.object a).parent := by
  rcases eq_or_ne a d with rfl | had
  · rw [add_object_parent hd]
  · rw [add_object_ne ha had]

theorem Heap.add_fields (hd : d < h.size) (ha : a ≠ h.size) :
    ((h.add fields d).object a).fields = (h.object a).fields := by
  rcases eq_or_ne a d with rfl | had
  · rw [add_object_parent hd]
  · rw [add_object_ne ha had]

/-- The children after an inode was added. -/
theorem Heap.mem_add_children (hd : d < h.size) (ha : a ≠ h.size) :
    c ∈ ((h.add fields d).object a).children ↔
      c ∈ (h.object a).children ∨ a = d ∧ c = h.size := by
  rcases eq_or_ne a d with rfl | had
  · simp [add_object_parent hd]
  · simp [add_object_ne ha had, had]

theorem Heap.Tidied.mem_children (ht : h.Tidied h') : c ∈ (h'.object a).children ↔
    c ∈ (h.object a).children := (ht.children a).mem_iff

theorem Heap.Ordered.alloc (ho : h.Ordered) : (h.alloc fields).Ordered := by
  intro a ha c hc
  rcases Nat.lt_succ_iff_lt_or_eq.mp ha with hlt | rfl
  · rw [alloc_object_ne hlt.ne] at hc
    exact ⟨(ho a hlt c hc).1, Nat.lt_succ_of_lt (ho a hlt c hc).2⟩
  · rw [alloc_object_self] at hc
    cases hc

theorem Heap.Ordered.add (ho : h.Ordered) (hd : d < h.size) : (h.add fields d).Ordered := by
  intro a ha c hc
  rcases Nat.lt_succ_iff_lt_or_eq.mp ha with hlt | rfl
  · rcases (mem_add_children hd hlt.ne).mp hc with hc | ⟨rfl, rfl⟩
    · exact ⟨(ho a hlt c hc).1, Nat.lt_succ_of_lt (ho a hlt c hc).2⟩
    · exact ⟨hd, Nat.lt_succ_self _⟩
  · rw [add_object_self hd] at hc
    cases hc

theorem Heap.Ordered.tidied (ho : h.Ordered) (ht : h.Tidied h') : h'.Ordered := by
  intro a ha c hc
  rw [ht.size] at ha ⊢
  exact ho a ha c (ht.mem_children.mp hc)

theorem IndexBuild.grown_start (ho : h.Ordered) : (start h fields).Grown h.size where
  root := rfl
  made := nofun
  root_lt := Nat.lt_succ_self _
  tree d hd c := by
    obtain rfl : d = h.size := hd.resolve_right nofun
    change c ∈ ((h.alloc fields).object h.size).children ↔ _
    rw [Heap.alloc_object_self]
    simp [made, start]
  parent := nofun
  ordered := ho.alloc
  closed a ha c hc := by
    change c ∈ ((h.alloc fields).object a).children at hc
    rw [Heap.alloc_object_ne ha.ne] at hc
    exact (ho a ha c hc).2

/-- Adding an inode to the children of the root or of a directory. -/
theorem IndexBuild.Grown.add (hg : b.Grown lo)
    (hd : d = b.root ∨ d ∈ b.made ∧ (b.heap.object d).fields.isDirectory = true) :
    IndexBuild.Grown lo { b with
      heap := b.heap.add fields d, pending := b.pending ++ [b.heap.size] } := by
  have hmade : ∀ c, c ∈ b.inodes ++ (b.pending ++ [b.heap.size]) ↔
      c ∈ b.made ∨ c = b.heap.size := by simp [IndexBuild.made, or_assoc]
  have hown : ∀ c, c = b.root ∨ c ∈ b.made → lo ≤ c ∧ c < b.heap.size := by
    rintro c (rfl | hc)
    · exact ⟨hg.root.ge, hg.root ▸ hg.root_lt⟩
    · exact ⟨(hg.made c hc).1.le, (hg.made c hc).2⟩
  obtain ⟨hlo, hlt⟩ := hown d (hd.imp_right And.left)
  have hparent : ∀ c ∈ b.made, ((b.heap.add fields d).object c).parent =
      (b.heap.object c).parent := fun c hc => Heap.add_parent hlt (hg.made c hc).2.ne
  refine ⟨hg.root, fun c hc => ?_, Nat.lt_succ_of_lt hg.root_lt, fun e he c => ?_, fun c hc => ?_,
    hg.ordered.add hlt, fun a ha c hc => ?_⟩
  · rcases (hmade c).mp hc with hc | rfl
    · exact ⟨(hg.made c hc).1, Nat.lt_succ_of_lt (hg.made c hc).2⟩
    · exact ⟨hg.root_lt, Nat.lt_succ_self _⟩
  · have he' : (e = b.root ∨ e ∈ b.made) ∨ e = b.heap.size := by
      rwa [or_assoc, ← hmade]
    have hself : ((b.heap.add fields d).object b.heap.size).parent = some d := by
      rw [Heap.add_object_self hlt]
    change _ ↔ c ∈ b.inodes ++ (b.pending ++ [b.heap.size]) ∧ _
    rw [hmade]
    rcases he' with he | rfl
    · rw [Heap.mem_add_children hlt (hown e he).2.ne, hg.tree e he c]
      constructor
      · rintro (⟨hc, hp⟩ | ⟨rfl, rfl⟩)
        · exact ⟨Or.inl hc, (hparent c hc).trans hp⟩
        · exact ⟨Or.inr rfl, hself⟩
      · rintro ⟨hc | rfl, hp⟩
        · exact Or.inl ⟨hc, (hparent c hc).symm.trans hp⟩
        · exact Or.inr ⟨Option.some.inj (hp.symm.trans hself), rfl⟩
    · -- nothing has the new inode as its parent
      rw [Heap.add_object_self hlt]
      refine ⟨nofun, ?_⟩
      rintro ⟨hc | rfl, hp⟩
      · obtain ⟨f, hf, hfown⟩ := hg.parent c hc
        rw [hparent c hc, hf] at hp
        have := (hown f (hfown.imp_right And.left)).2
        exact absurd (Option.some.inj hp) this.ne
      · exact absurd (Option.some.inj (hself.symm.trans hp)) hlt.ne
  · rcases (hmade c).mp hc with hc | rfl
    · obtain ⟨f, hf, hfown⟩ := hg.parent c hc
      refine ⟨f, (hparent c hc).trans hf, hfown.imp_right fun ⟨hfm, hfd⟩ => ?_⟩
      exact ⟨(hmade f).mpr (Or.inl hfm), by
        rwa [Heap.add_fields hlt (hg.made f hfm).2.ne]⟩
    · refine ⟨d, by rw [Heap.add_object_self hlt], hd.imp_right fun ⟨hdm, hdd⟩ => ?_⟩
      exact ⟨(hmade d).mpr (Or.inl hdm), by rwa [Heap.add_fields hlt hlt.ne]⟩
  · have hne : a ≠ b.heap.size := by have := hg.root_lt; omega
    rcases (Heap.mem_add_children hlt hne).mp hc with hc | ⟨rfl, -⟩
    · exact hg.closed a ha c hc
    · omega

/-- The fields are written, and children sorted. -/
theorem IndexBuild.Grown.tidied (hg : b.Grown lo) (ht : b.heap.Tidied h') :
    IndexBuild.Grown lo { b with heap := h' } where
  root := hg.root
  made c hc := ⟨(hg.made c hc).1, ht.size ▸ (hg.made c hc).2⟩
  root_lt := ht.size ▸ hg.root_lt
  tree d hd c := by
    change c ∈ (h'.object d).children ↔ c ∈ b.made ∧ (h'.object c).parent = some d
    rw [ht.mem_children, ht.parent]
    exact hg.tree d hd c
  parent c hc := by
    obtain ⟨d, hp, hd⟩ := hg.parent c hc
    exact ⟨d, (ht.parent c).trans hp, hd.imp_right fun h => ⟨h.1, (ht.isDirectory d).trans h.2⟩⟩
  ordered := hg.ordered.tidied ht
  closed a ha c hc := hg.closed a ha c (ht.mem_children.mp hc)

/-- An inode is made that is not part of the index. -/
theorem IndexBuild.Grown.alloc (hg : b.Grown lo) :
    IndexBuild.Grown lo { b with heap := b.heap.alloc fields } := by
  have hown : ∀ c, c = b.root ∨ c ∈ b.made → c < b.heap.size := by
    rintro c (rfl | hc)
    · exact hg.root ▸ hg.root_lt
    · exact (hg.made c hc).2
  have hobj : ∀ c, c = b.root ∨ c ∈ b.made →
      (b.heap.alloc fields).object c = b.heap.object c := fun c hc =>
    Heap.alloc_object_ne (hown c hc).ne
  refine ⟨hg.root, fun c hc => ⟨(hg.made c hc).1, Nat.lt_succ_of_lt (hg.made c hc).2⟩,
    Nat.lt_succ_of_lt hg.root_lt, fun d hd c => ?_, fun c hc => ?_, hg.ordered.alloc,
    fun a ha c hc => ?_⟩
  · change c ∈ ((b.heap.alloc fields).object d).children ↔
      c ∈ b.made ∧ ((b.heap.alloc fields).object c).parent = some d
    rw [hobj d hd, hg.tree d hd c]
    exact and_congr_right fun hc => by rw [hobj c (Or.inr hc)]
  · obtain ⟨d, hp, hd⟩ := hg.parent c hc
    refine ⟨d, (congrArg HeapInode.parent (hobj c (Or.inr hc))).trans hp, hd.imp_right ?_⟩
    rintro ⟨hdm, hdd⟩
    exact ⟨hdm, (congrArg (fun o => o.fields.isDirectory) (hobj d (Or.inr hdm))).trans hdd⟩
  · have hne : a ≠ b.heap.size := by have := hg.root_lt; omega
    change c ∈ ((b.heap.alloc fields).object a).children at hc
    rw [Heap.alloc_object_ne hne] at hc
    exact hg.closed a ha c hc

/-- **One step keeps the tree.** -/
theorem IndexBuild.Grown.step (hg : b.Grown lo) (hs : BuildStep b b') : b'.Grown lo := by
  cases hs with
  | add fields hd => exact hg.add hd
  | @push l c r hpending =>
    have hmade : ∀ a, a ∈ (b.inodes ++ [c]) ++ (l ++ r) ↔ a ∈ b.made := by
      intro a
      simp only [IndexBuild.made, hpending, List.mem_append, List.mem_cons, List.not_mem_nil]
      tauto
    refine ⟨hg.root, fun a ha => hg.made a ((hmade a).mp ha), hg.root_lt, fun d hd a => ?_,
      fun a ha => ?_, hg.ordered, hg.closed⟩
    · exact (hg.tree d (hd.imp_right (hmade d).mp) a).trans (and_congr_left' (hmade a).symm)
    · obtain ⟨d, hp, hd⟩ := hg.parent a ((hmade a).mp ha)
      exact ⟨d, hp, hd.imp_right fun h => ⟨(hmade d).mpr h.1, h.2⟩⟩
  | tidy ht => exact hg.tidied ht
  | alloc fields => exact hg.alloc

/-- **An index that has been built is a tree**: each of its inodes is a child of its parent,
which is the root or a directory of the index. -/
structure IndexValue.IsTree (x : IndexValue) (h : Heap) : Prop where
  lt : ∀ a ∈ x.root :: x.inodes, a < h.size
  keeps : x.KeepsTree h h
  parent : ∀ c ∈ x.inodes, ∃ d, (h.object c).parent = some d ∧
    (d = x.root ∨ d ∈ x.inodes ∧ (h.object d).fields.isDirectory = true)

/-- An index is still a tree if its own inodes are as they were, up to what writing fields
and sorting children changes. -/
theorem IndexValue.IsTree.congr (hx : x.IsTree h) (hsize : h'.size = h.size)
    (hobj : ∀ a ∈ x.root :: x.inodes,
      (h'.object a).fields.isDirectory = (h.object a).fields.isDirectory ∧
      (h'.object a).children.Perm (h.object a).children ∧
      (h'.object a).parent = (h.object a).parent) : x.IsTree h' where
  lt a ha := hsize ▸ hx.lt a ha
  keeps d hd c := by
    have hd' : d = x.root ∨ d ∈ x.inodes ∧ (h.object d).fields.isDirectory = true :=
      hd.imp_right fun ⟨hm, hdir⟩ => ⟨hm, (hobj d (List.mem_cons_of_mem _ hm)).1 ▸ hdir⟩
    have hm : d ∈ x.root :: x.inodes := List.mem_cons.mpr (hd'.imp_right And.left)
    rw [(hobj d hm).2.1.mem_iff, hx.keeps d hd' c]
    exact and_congr_right fun hc => by rw [(hobj c (List.mem_cons_of_mem _ hc)).2.2]
  parent c hc := by
    obtain ⟨d, hp, hd⟩ := hx.parent c hc
    refine ⟨d, (hobj c (List.mem_cons_of_mem _ hc)).2.2.trans hp, hd.imp_right ?_⟩
    rintro ⟨hm, hdir⟩
    exact ⟨hm, (hobj d (List.mem_cons_of_mem _ hm)).1.trans hdir⟩

theorem Builds.grown (hb : Builds h h' x) (ho : h.Ordered) :
    IndexBuild.Grown h.size ⟨h', x.root, x.inodes, []⟩ := by
  obtain ⟨fields, hrun⟩ := hb
  exact hrun.invariant (IndexBuild.grown_start ho) fun _ _ => IndexBuild.Grown.step

/-- A partial index with nothing pending is a tree. -/
theorem IndexBuild.Grown.isTree (hg : b.Grown lo) (hpending : b.pending = []) :
    (⟨b.root, b.inodes⟩ : IndexValue).IsTree b.heap := by
  have hmade : b.made = b.inodes := by
    rw [IndexBuild.made, hpending, List.append_nil]
  have hin := hg.made
  have htree := hg.tree
  have hparent := hg.parent
  rw [hmade] at hin htree hparent
  refine ⟨List.forall_mem_cons.mpr ⟨?_, fun a ha => (hin a ha).2⟩,
    fun d hd => htree d (hd.imp_right And.left), hparent⟩
  rw [hg.root]
  exact hg.root_lt

/-- **The indexes of the loop are trees**: the one that is destroyed shares nothing with
the one that is built of it. -/
theorem Merges.isTree (hm : Merges h h' x) (ho : h.Ordered) : x.IsTree h' ∧ h'.Ordered := by
  induction hm with
  | nil fields => exact ⟨(IndexBuild.grown_start ho).isTree rfl, ho.alloc⟩
  | @cons h₁ h₂ h₃ h₄ x y x' hloop hother hmerge hdestroy ih =>
    have hy := hother.grown ih.2
    have hx' := hmerge.grown hy.ordered
    have hcleared := (IndexValue.destroy_spec hdestroy).1
    refine ⟨(hx'.isTree rfl).congr hcleared.size fun a ha => ?_, hx'.ordered.cleared hcleared⟩
    -- the inodes of the other index were there before those of the merge
    have hle : h₂.size ≤ a := by
      rcases List.mem_cons.mp ha with rfl | ha
      · exact hx'.root.ge
      · exact (hx'.made a (List.mem_append_left _ ha)).1.le
    rw [IndexValue.destroy_frame hdestroy (hy.isTree rfl).lt hx'.closed hle]
    exact ⟨rfl, List.Perm.refl _, rfl⟩

/-- **The local index is a tree**, before it is copied to the handle and destroyed. -/
theorem BuildsLocal.isTree (hb : BuildsLocal h h' x) (ho : h.Ordered) :
    x.IsTree h' ∧ h'.Ordered := by
  cases hb with
  | one hbuild => exact ⟨(hbuild.grown ho).isTree rfl, (hbuild.grown ho).ordered⟩
  | several hmerge hadd =>
    obtain ⟨hx, ho'⟩ := hmerge.isTree ho
    exact ⟨hx.congr hadd.size fun a _ => ⟨hadd.isDirectory a, hadd.children a, hadd.parent a⟩,
      ho'.tidied hadd⟩

end Build

/-! ### What the handle is left with -/

/-- **An operation of the handle**: the local index is built, its pointers are copied to
the handle, and it is destroyed. The state is the heap, and the index of the handle. -/
def HandleStep (s s' : Heap × IndexValue) : Prop :=
  ∃ h, BuildsLocal s.1 h s'.2 ∧ s'.2.destroy h = some s'.1

/-- A handle is made, with an empty index. -/
def handleStart (fields : Inode) : Heap × IndexValue :=
  (Heap.alloc ⟨0, fun _ => ⟨fields, [], none⟩⟩ fields, ⟨0, []⟩)

section Handle

variable {fields : Inode} {s : Heap × IndexValue} {h h' : Heap} {x : IndexValue}

/-- An operation leaves a heap on which children are made after their parents. -/
theorem HandleStep.ordered {s' : Heap × IndexValue} (hs : HandleStep s s') (ho : s.1.Ordered) :
    s'.1.Ordered := by
  obtain ⟨h, hb, hd⟩ := hs
  exact (hb.isTree ho).2.cleared (IndexValue.destroy_spec hd).1

/-- Any operations do. -/
theorem ordered_of_reaches (hrun : Reaches HandleStep (handleStart fields) s) :
    s.1.Ordered := by
  induction hrun with
  | refl => exact Heap.Ordered.alloc fun _ ha => absurd ha (Nat.not_lt_zero _)
  | tail _ hs ih => exact hs.ordered ih

/-- **The handle keeps its tree only if it has no inodes**: after any operations, the
children of the root and of the directories of the index that the next one leaves are what
they were built as if and only if nothing is listed. -/
theorem handle_keepsTree_iff (hrun : Reaches HandleStep (handleStart fields) s)
    (hb : BuildsLocal s.1 h x) (hd : x.destroy h = some h') :
    x.KeepsTree h h' ↔ x.inodes = [] := by
  obtain ⟨hx, -⟩ := hb.isTree (ordered_of_reaches hrun)
  obtain ⟨hcleared, hnil⟩ := IndexValue.destroy_spec hd
  constructor
  · intro hkeeps
    refine List.eq_nil_iff_forall_not_mem.mpr fun c hc => ?_
    -- the parent of the inode has lost it
    obtain ⟨d, hp, hown⟩ := hx.parent c hc
    have hown' : d = x.root ∨ d ∈ x.inodes ∧ (h'.object d).fields.isDirectory = true :=
      hown.imp_right fun ⟨hm, hdir⟩ => ⟨hm, by rwa [hcleared.fields]⟩
    have hmem : c ∈ (h'.object d).children := (hkeeps d hown' c).mpr ⟨hc, hp⟩
    rw [hnil d (List.mem_cons.mpr (hown.imp_right And.left))] at hmem
    cases hmem
  · intro he d hown c
    obtain rfl : d = x.root := hown.resolve_right fun h => by simp [he] at h
    rw [hnil x.root (by simp), he]
    simp

end Handle

namespace Sample

/-- The fields of a directory, and of a file in it. -/
def dirFields : Inode := ⟨[], Digest.none, ⟨.directory, 0⟩, 0, 0, [], none, false⟩

@[inherit_doc dirFields] def fileFields : Inode :=
  ⟨[97], Digest.none, ⟨.regular, 0⟩, 0, 0, [], none, false⟩

/-- The heap on which a tree with one file has been loaded. -/
def loadedHeap : Heap := ((handleStart dirFields).1.alloc dirFields).add fileFields 1

/-- The index that was loaded. -/
def loadedIndex : IndexValue := ⟨1, [2]⟩

theorem builds_loaded : BuildsLocal (handleStart dirFields).1 loadedHeap loadedIndex :=
  .one ⟨dirFields, .head (.add fileFields (Or.inl rfl)) <|
    .single (.push (l := []) (c := 2) (r := []) rfl)⟩

/-- The heap after the local index was destroyed. -/
def clearedHeap : Heap := (loadedIndex.destroy loadedHeap).getD loadedHeap

theorem destroy_loaded : loadedIndex.destroy loadedHeap = some clearedHeap := rfl

end Sample

/-- Loading a tree with one file. -/
theorem handle_keepsTree_iff_sample :
    Sample.loadedIndex.KeepsTree Sample.loadedHeap Sample.clearedHeap ↔
      Sample.loadedIndex.inodes = [] :=
  handle_keepsTree_iff .refl Sample.builds_loaded Sample.destroy_loaded

/-- **The handle loses the children of its inodes**: the file of the tree is listed, and the
root does not have it. -/
theorem handle_loses_children : ¬ ∀ (s : Heap × IndexValue) (h h' : Heap) (x : IndexValue),
    Reaches HandleStep (handleStart Sample.dirFields) s → BuildsLocal s.1 h x →
      x.destroy h = some h' → x.KeepsTree h h' := by
  intro hclaim
  have hkeeps := hclaim _ _ _ _ .refl Sample.builds_loaded Sample.destroy_loaded
  have hmem : 2 ∈ (Sample.clearedHeap.object 1).children :=
    (hkeeps 1 (Or.inl rfl) 2).mpr ⟨by decide, rfl⟩
  have hnil : (Sample.clearedHeap.object 1).children = [] := rfl
  rw [hnil] at hmem
  cases hmem

end Fstree
