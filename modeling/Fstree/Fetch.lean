import Fstree.PullComplete

/-!
# How an object is fetched

`remote::read_object` opens a temporary file with `mkstemp`, writes to it what the server sends, one
chunk after the other, closes it, and renames it to the path of the object. Here a pull is modelled
with all of this (`Fstree.FetchStep`): each of its jobs is somewhere in such a call, and the calls
take their steps in any order.

What is written goes through the buffer of a `FILE`. On a full disk `fwrite` falls short:
`remote_jolt` throws then, but the callback of `remote_http` returns that all was written, and goes
on with the next chunk. Neither of them looks at what `fclose` returns, which writes what is left in
the buffer. So what lands at the path of an object (`Fstree.Lands`) may be less than what was sent.

Nothing but the renaming is seen by the other jobs. A pull that fetches in this way reaches the
states that a pull reaches in which an object arrives in one step, no more and no fewer
(`Fstree.fetch_reaches_iff`); and unless the disk is full, what arrives is what was sent, so that
what holds of a pull holds whatever is broken off in between (`Fstree.fetch_complete`).
-/

namespace Fstree

open Pool Transition

/-! ### A call of `read_object` -/

/-- **The implementations of `remote`.** -/
inductive RemoteKind
  | jolt
  | http
deriving DecidableEq

/-- **How far a call of `read_object` has got.** -/
inductive FetchCall
  | begun
  /-- The temporary file is open. The server has sent the chunks `sent`, and of what was written
  `file` is in the file and `buffer` is not. -/
  | receiving (sent : List Bytes) (file buffer : Bytes)
  /-- `fclose` has been called, and `Finish` or `CURLINFO_RESPONSE_CODE` was looked at. -/
  | closed (file : Bytes)
  /-- The temporary file has been removed, if it was not the renaming that has failed. -/
  | threw
deriving DecidableEq

/-- **One step of a call**, for a digest to which the server may send the chunks `sends`. `full`
says
that the disk may be full. -/
inductive FetchCallStep (kind : RemoteKind) (full : Prop) (sends : List Bytes → Prop) :
    FetchCall → FetchCall → Prop
  | «open» : FetchCallStep kind full sends .begun (.receiving [] [] [])
  | notOpened : FetchCallStep kind full sends .begun .threw
  /-- `fwrite` of a chunk. -/
  | chunk {sent file buffer c} :
      FetchCallStep kind full sends (.receiving sent file buffer)
        (.receiving (sent ++ [c]) file (buffer ++ c))
  /-- A part of the buffer is written to the file. -/
  | flush {sent file buffer} (n : ℕ) :
      FetchCallStep kind full sends (.receiving sent file buffer)
        (.receiving sent (file ++ buffer.take n) (buffer.drop n))
  /-- `fwrite` falls short, and its result is looked at. -/
  | notWritten {sent file buffer} (hfull : full) (hkind : kind = .jolt) :
      FetchCallStep kind full sends (.receiving sent file buffer) .threw
  /-- `fwrite` falls short, and `FileWriteCallback` returns that it has not. -/
  | short {sent file buffer c} (n : ℕ) (hn : n < c.length) (hfull : full) (hkind : kind = .http) :
      FetchCallStep kind full sends (.receiving sent file buffer)
        (.receiving (sent ++ [c]) file (buffer ++ c.take n))
  | broken {sent file buffer} :
      FetchCallStep kind full sends (.receiving sent file buffer) .threw
  | close {sent file buffer} (hsent : sends sent) :
      FetchCallStep kind full sends (.receiving sent file buffer) (.closed (file ++ buffer))
  /-- `fclose` fails to write the buffer. -/
  | closeShort {sent file buffer} (n : ℕ) (hfull : full) (hsent : sends sent) :
      FetchCallStep kind full sends (.receiving sent file buffer) (.closed (file ++ buffer.take n))
  /-- `create_directories` fails. -/
  | noDirectory {file} : FetchCallStep kind full sends (.closed file) .threw

/-- Some bytes at the start of each chunk. -/
def Clipped (sent : List Bytes) (b : Bytes) : Prop :=
  ∃ pieces, List.Forall₂ (fun p c => p <+: c) pieces sent ∧ b = pieces.flatten

/-- **What may land** at the path of the object when the chunks `sent` were sent. -/
def Lands (full : Prop) (sent : List Bytes) (b : Bytes) : RemoteKind → Prop
  | .jolt => b = sent.flatten ∨ full ∧ b <+: sent.flatten
  | .http => b = sent.flatten ∨ full ∧ Clipped sent b

section Lands

variable {kind : RemoteKind} {full : Prop} {sends : List Bytes → Prop} {sent : List Bytes}
  {b c file buffer : Bytes} {n : ℕ} {x y : FetchCall}

theorem clipped_nil : Clipped [] [] := ⟨[], .nil, rfl⟩

theorem clipped_flatten (sent : List Bytes) : Clipped sent sent.flatten :=
  ⟨sent, List.forall₂_same.mpr fun _ _ => List.prefix_rfl, rfl⟩

theorem clipped_concat (h : Clipped sent b) (n : ℕ) : Clipped (sent ++ [c]) (b ++ c.take n) := by
  obtain ⟨pieces, hp, rfl⟩ := h
  refine ⟨pieces ++ [c.take n], List.rel_append hp (.cons (List.take_prefix n c) .nil), by simp⟩

/-- What is clipped once more is still clipped. -/
theorem clipped_prefix (h : Clipped sent b) {b' : Bytes} (hb : b' <+: b) : Clipped sent b' := by
  obtain ⟨pieces, hp, rfl⟩ := h
  induction hp generalizing b' with
  | nil =>
    obtain rfl := List.prefix_nil.mp hb
    exact clipped_nil
  | @cons p c pieces sent hpc hp ih =>
    rw [List.flatten_cons] at hb
    rcases List.prefix_or_prefix_of_prefix hb (List.prefix_append p pieces.flatten) with
      hshort | ⟨rest, rfl⟩
    · obtain ⟨pieces', hp', hnil⟩ : Clipped sent [] := ih List.nil_prefix
      exact ⟨b' :: pieces', .cons (hshort.trans hpc) hp', by rw [List.flatten_cons, ← hnil]; simp⟩
    · obtain ⟨pieces', hp', rfl⟩ := ih ((List.prefix_append_right_inj p).mp hb)
      exact ⟨p :: pieces', .cons hpc hp', rfl⟩

/-- Unless the disk is full what lands is what was sent. -/
theorem lands_iff_of_not_full (hfull : ¬ full) : Lands full sent b kind ↔ b = sent.flatten := by
  cases kind <;> simp [Lands, hfull]

/-- What has landed may be cut by a failing `fclose`. -/
theorem Lands.take (h : Lands full sent b kind) (hfull : full) {b' : Bytes} (hb : b' <+: b) :
    Lands full sent b' kind := by
  cases kind with
  | jolt =>
    refine Or.inr ⟨hfull, ?_⟩
    rcases h with rfl | ⟨-, h⟩
    · exact hb
    · exact hb.trans h
  | http =>
    refine Or.inr ⟨hfull, ?_⟩
    rcases h with rfl | ⟨-, h⟩
    · exact clipped_prefix (clipped_flatten sent) hb
    · exact clipped_prefix h hb

/-- **What holds of a call.** -/
def FetchCall.Inv (kind : RemoteKind) (full : Prop) (sends : List Bytes → Prop) : FetchCall → Prop
  | .receiving sent file buffer =>
    match kind with
    | .jolt => file ++ buffer = sent.flatten
    | .http => Lands full sent (file ++ buffer) .http
  | .closed b => ∃ sent, sends sent ∧ Lands full sent b kind
  | _ => True

theorem FetchCall.Inv.lands (h : (FetchCall.receiving sent file buffer).Inv kind full sends) :
    Lands full sent (file ++ buffer) kind := by
  cases kind with
  | jolt => exact Or.inl h
  | http => exact h

/-- **A step of a call keeps what holds of it.** -/
theorem FetchCallStep.inv (hs : FetchCallStep kind full sends x y) (hi : x.Inv kind full sends) :
    y.Inv kind full sends := by
  cases hs with
  | «open» =>
    cases kind with
    | jolt => rfl
    | http => exact Or.inl rfl
  | @chunk sent file buffer c =>
    cases kind with
    | jolt =>
      have heq : file ++ buffer = sent.flatten := hi
      simp [FetchCall.Inv, ← heq]
    | http =>
      rcases hi with heq | ⟨hfull, hclip⟩
      · exact Or.inl (by simp [← heq])
      · refine Or.inr ⟨hfull, ?_⟩
        have h := clipped_concat (c := c) hclip c.length
        rwa [List.take_length, List.append_assoc] at h
  | flush n =>
    cases kind with
    | jolt => simpa [FetchCall.Inv, List.append_assoc] using hi
    | http => simpa [FetchCall.Inv, List.append_assoc] using hi
  | @short sent file buffer c n _ hfull hkind =>
    subst hkind
    refine Or.inr ⟨hfull, ?_⟩
    rw [← List.append_assoc]
    refine clipped_concat ?_ n
    rcases hi with heq | ⟨-, hclip⟩
    · rw [heq]
      exact clipped_flatten sent
    · exact hclip
  | close hsent => exact ⟨_, hsent, hi.lands⟩
  | closeShort n hfull hsent =>
    exact ⟨_, hsent,
      hi.lands.take hfull ((List.prefix_append_right_inj _).mpr (List.take_prefix _ _))⟩
  | _ => trivial

/-- **Whatever may land does in some run of a call.** -/
theorem exists_reaches_closed (hsent : sends sent) (hb : Lands full sent b kind) :
    Reaches (FetchCallStep kind full sends) .begun (.closed b) := by
  have hopen : Reaches (FetchCallStep kind full sends) .begun (.receiving [] [] []) :=
    Relation.ReflTransGen.single .open
  have hclose : ∀ buffer, FetchCallStep kind full sends (.receiving sent [] buffer)
      (.closed buffer) := fun _ => .close hsent
  have hall : ∀ todo sent buffer, Reaches (FetchCallStep kind full sends)
      (.receiving sent [] buffer) (.receiving (sent ++ todo) [] (buffer ++ todo.flatten)) := by
    intro todo
    induction todo with
    | nil => exact fun sent buffer => by simpa using Relation.ReflTransGen.refl
    | cons c todo ih =>
      intro sent buffer
      have hrest := ih (sent ++ [c]) (buffer ++ c)
      simp only [List.append_assoc, List.singleton_append] at hrest
      exact Relation.ReflTransGen.head .chunk (by simpa using hrest)
  have hwhole : Reaches (FetchCallStep kind full sends) .begun
      (.receiving sent [] sent.flatten) := hopen.trans (hall sent [] [])
  cases kind with
  | jolt =>
    rcases hb with rfl | ⟨hfull, hpre⟩
    · exact hwhole.tail (hclose _)
    · have hshort : FetchCallStep .jolt full sends (.receiving sent [] sent.flatten)
          (.closed (sent.flatten.take b.length)) := .closeShort b.length hfull hsent
      rw [← List.prefix_iff_eq_take.mp hpre] at hshort
      exact hwhole.tail hshort
  | http =>
    rcases hb with rfl | ⟨hfull, pieces, hp, rfl⟩
    · exact hwhole.tail (hclose _)
    have hclipped : ∀ pieces todo, List.Forall₂ (fun p c => p <+: c) pieces todo →
        ∀ sent buffer, Reaches (FetchCallStep .http full sends) (.receiving sent [] buffer)
          (.receiving (sent ++ todo) [] (buffer ++ pieces.flatten)) := by
      intro pieces todo hp
      induction hp with
      | nil => exact fun sent buffer => by simpa using Relation.ReflTransGen.refl
      | @cons p c pieces todo hpc _ ih =>
        intro sent buffer
        have hrest := ih (sent ++ [c]) (buffer ++ p)
        simp only [List.append_assoc, List.singleton_append] at hrest
        have hone : FetchCallStep .http full sends (.receiving sent [] buffer)
            (.receiving (sent ++ [c]) [] (buffer ++ p)) := by
          obtain ⟨rest, rfl⟩ := hpc
          cases rest with
          | nil =>
            rw [List.append_nil]
            exact .chunk
          | cons x rest =>
            have hshort : FetchCallStep .http full sends (.receiving sent [] buffer)
                (.receiving (sent ++ [p ++ x :: rest]) []
                  (buffer ++ (p ++ x :: rest).take p.length)) :=
              .short p.length (by simp) hfull rfl
            rwa [List.take_left] at hshort
        exact Relation.ReflTransGen.head hone (by simpa using hrest)
    exact (hopen.trans (hclipped pieces sent hp [] [])).tail (hclose _)

end Lands

/-! ### A pull that fetches -/

/-- The digest that a job asks the remote for. -/
def PullJob.request : PullJob → Option Digest
  | askTree t => some t.hash
  | askObject h => some h
  | _ => none

/-- The temporary file of a job is renamed to the path of the object. -/
def PullJob.moved (st : Store) (b : Bytes) : PullJob → PullEffect
  | askTree t => { store := st.put (treePath t.hash) b, job := .readTree t }
  | askObject h => { store := st.put (filePath h) b, job := .objectThere h }
  | j => { store := st, job := j }

/-- The state after a step of the job between `l` and `r`. -/
def PullState.stepJob (σ : PullState) (l r : List PullJob) (e : PullEffect) : PullState :=
  { σ with
    store := e.store
    inodes := σ.inodes ++ e.inodes
    newTrees := σ.newTrees ++ e.newTrees
    jobs := (l ++ e.job :: r) ++ e.spawned
    wg := (σ.wg.settle e.job.outcome).add e.spawned.length }

/-- **The state of a pull that fetches**: with the call of `read_object` of each job, and what was
left behind in the directory of the temporary files. -/
structure FetchState where
  pull : PullState
  call : ℕ → FetchCall
  left : List Bytes

/-- **One step of a pull that fetches**: of a call of `read_object`, or of anything else. -/
inductive FetchStep (kind : RemoteKind) (full : Prop) (sends : Digest → List Bytes → Prop) :
    FetchState → FetchState → Prop
  | call {σ : FetchState} {l j r d c} (hjobs : σ.pull.jobs = l ++ j :: r)
      (hreq : j.request = some d)
      (hcall : FetchCallStep kind full (sends d) (σ.call l.length) c) :
      FetchStep kind full sends σ { σ with call := Function.update σ.call l.length c }
  | move {σ : FetchState} {l j r d b} (hjobs : σ.pull.jobs = l ++ j :: r)
      (hreq : j.request = some d) (hcall : σ.call l.length = .closed b) :
      FetchStep kind full sends σ { σ with
        pull := σ.pull.stepJob l r (j.moved σ.pull.store b)
        call := Function.update σ.call l.length .begun }
  /-- `remote_jolt` removes the file then, and `remote_http` does not. -/
  | notMoved {σ : FetchState} {l j r d b} (hjobs : σ.pull.jobs = l ++ j :: r)
      (hreq : j.request = some d) (hcall : σ.call l.length = .closed b) :
      FetchStep kind full sends σ { σ with
        call := Function.update σ.call l.length .threw
        left := if kind = .jolt then σ.left else b :: σ.left }
  | throw {σ : FetchState} {l j r d} (hjobs : σ.pull.jobs = l ++ j :: r)
      (hreq : j.request = some d) (hcall : σ.call l.length = .threw) :
      FetchStep kind full sends σ { σ with
        pull := σ.pull.stepJob l r { store := σ.pull.store, job := .failed }
        call := Function.update σ.call l.length .begun }
  /-- A step that is not of a job in a call of `read_object`. -/
  | other {σ : FetchState} {τ : PullState} (hstep : PullStep (fun _ _ => False) σ.pull τ)
      (hkeep : ∀ (i : ℕ) (j : PullJob), σ.pull.jobs[i]? = some j → j.request ≠ none →
        τ.jobs[i]? = some j) :
      FetchStep kind full sends σ { σ with pull := τ }

/-- A pull that fetches begins. -/
def FetchState.start (st : Store) (h : Digest) : FetchState where
  pull := PullState.start st h
  call := fun _ => .begun
  left := []

/-- **What the remote delivers** for a digest: what may land at the path of its object. -/
def Delivers (kind : RemoteKind) (full : Prop) (sends : Digest → List Bytes → Prop) (d : Digest)
    (b : Bytes) : Prop :=
  ∃ sent, sends d sent ∧ Lands full sent b kind

section Fetch

variable {kind : RemoteKind} {full : Prop} {sends : Digest → List Bytes → Prop} {σ τ : FetchState}
  {ρ ρ' : PullState} {l r : List PullJob} {j : PullJob} {d : Digest} {b : Bytes}

/-- Unless the disk is full, what was sent is delivered. -/
theorem delivers_iff_of_not_full (hfull : ¬ full) :
    Delivers kind full sends d b ↔ ∃ sent, sends d sent ∧ b = sent.flatten :=
  exists_congr fun _ => and_congr_right fun _ => lands_iff_of_not_full hfull

/-! ### A pull that fetches is a pull -/

theorem PullJobStep.mono {remote remote' : Digest → Bytes → Prop} {st : Store} {e : PullEffect}
    (h : PullJobStep remote st j e) (hsub : ∀ d b, remote d b → remote' d b) :
    PullJobStep remote' st j e := by
  cases h with
  | treePresent hobj => exact .treePresent hobj
  | treeMissing hobj => exact .treeMissing hobj
  | treeArrives hremote => exact .treeArrives (hsub _ _ hremote)
  | treeIsRead hread => exact .treeIsRead hread
  | treeFails hjob => exact .treeFails hjob
  | append => exact .append
  | passLink hlink => exact .passLink hlink
  | pushTree hlink hdir => exact .pushTree hlink hdir
  | enqueueObject hlink hdir => exact .enqueueObject hlink hdir
  | walked => exact .walked
  | objectPresent hobj => exact .objectPresent hobj
  | objectMissing hobj => exact .objectMissing hobj
  | objectArrives hremote => exact .objectArrives (hsub _ _ hremote)
  | objectFails hjob => exact .objectFails hjob

/-- A remote that may answer more allows more. -/
theorem PullStep.mono {remote remote' : Digest → Bytes → Prop} (h : PullStep remote ρ ρ')
    (hsub : ∀ d b, remote d b → remote' d b) : PullStep remote' ρ ρ' := by
  cases h with
  | job hjobs hstep => exact .job hjobs (hstep.mono hsub)
  | enqueueTree hmain => exact .enqueueTree hmain
  | treesRead hmain hidle hok => exact .treesRead hmain hidle hok
  | enqueueWalk hmain => exact .enqueueWalk hmain
  | nextLevel hmain hidle hok => exact .nextLevel hmain hidle hok
  | rethrow hmain hidle hfailed => exact .rethrow hmain hidle hfailed

/-- What is renamed arrives. -/
theorem pullJobStep_moved {remote : Digest → Bytes → Prop} {st : Store} (hreq : j.request = some d)
    (hb : remote d b) : PullJobStep remote st j (j.moved st b) := by
  cases j with
  | askTree t =>
    obtain rfl : t.hash = d := Option.some.inj hreq
    exact .treeArrives hb
  | askObject h =>
    obtain rfl : h = d := Option.some.inj hreq
    exact .objectArrives hb
  | _ => cases hreq

theorem pullJobStep_threw {remote : Digest → Bytes → Prop} {st : Store}
    (hreq : j.request = some d) :
    PullJobStep remote st j { store := st, job := .failed } := by
  cases j with
  | askTree t => exact .treeFails ⟨t, Or.inr (Or.inl rfl)⟩
  | askObject h => exact .objectFails ⟨h, Or.inr rfl⟩
  | _ => cases hreq

/-- **What holds of the calls**: who is in one asks the remote, and what lands is what may land. And
`remote_jolt` leaves nothing behind. -/
structure FetchInv (kind : RemoteKind) (full : Prop) (sends : Digest → List Bytes → Prop)
    (σ : FetchState) : Prop where
  asks : ∀ i, σ.call i ≠ .begun → ∃ j d, σ.pull.jobs[i]? = some j ∧ j.request = some d
  inv : ∀ i j d, σ.pull.jobs[i]? = some j → j.request = some d →
    (σ.call i).Inv kind full (sends d)
  left : kind = .jolt → σ.left = []

theorem fetchInv_start (st : Store) (h : Digest) :
    FetchInv kind full sends (FetchState.start st h) where
  asks _ hi := absurd rfl hi
  inv _ _ _ _ _ := trivial
  left _ := rfl

theorem getElem?_split (l r : List PullJob) (j : PullJob) : (l ++ j :: r)[l.length]? = some j := by
  simp

theorem getElem?_split_ne {i : ℕ} (hi : i ≠ l.length) (j j' : PullJob) (spawned : List PullJob)
    {k : PullJob} (hk : (l ++ j :: r)[i]? = some k) :
    ((l ++ j' :: r) ++ spawned)[i]? = some k := by
  rw [List.append_assoc]
  rcases Nat.lt_or_gt_of_ne hi with hlt | hgt
  · rw [List.getElem?_append_left hlt] at hk ⊢
    exact hk
  · obtain ⟨m, hm⟩ : ∃ m, i - l.length = m + 1 := ⟨i - l.length - 1, by omega⟩
    rw [List.getElem?_append_right (by omega), hm, List.getElem?_cons_succ] at hk
    rw [List.getElem?_append_right (by omega), hm, List.cons_append, List.getElem?_cons_succ,
      List.getElem?_append_left (List.getElem?_eq_some_iff.mp hk).1]
    exact hk

/-- A call takes a step. -/
theorem FetchInv.update (hi : FetchInv kind full sends σ) (hjobs : σ.pull.jobs = l ++ j :: r)
    (hreq : j.request = some d) {c : FetchCall} (hc : c.Inv kind full (sends d))
    {left : List Bytes} (hleft : kind = .jolt → left = []) :
    FetchInv kind full sends
      { σ with call := Function.update σ.call l.length c, left := left } := by
  have hj : σ.pull.jobs[l.length]? = some j := by rw [hjobs, getElem?_split]
  refine ⟨fun i hb => ?_, fun i k d' hk hd' => ?_, hleft⟩
  · by_cases hil : i = l.length
    · exact ⟨j, d, hil ▸ hj, hreq⟩
    · exact hi.asks i (by simpa [Function.update_of_ne hil] using hb)
  · by_cases hil : i = l.length
    · subst hil
      obtain rfl : j = k := Option.some.inj (hj.symm.trans hk)
      obtain rfl : d = d' := Option.some.inj (hreq.symm.trans hd')
      simpa using hc
    · simpa [Function.update_of_ne hil] using hi.inv i k d' hk hd'

/-- Who is in a call stays in it. -/
theorem FetchInv.keep (hi : FetchInv kind full sends σ)
    (hkeep : ∀ i, τ.call i ≠ .begun → τ.call i = σ.call i ∧
      ∀ j, σ.pull.jobs[i]? = some j → j.request ≠ none → τ.pull.jobs[i]? = some j)
    (hleft : τ.left = σ.left) : FetchInv kind full sends τ := by
  have hold : ∀ i, τ.call i ≠ .begun → ∃ j d, τ.call i = σ.call i ∧ σ.pull.jobs[i]? = some j ∧
      τ.pull.jobs[i]? = some j ∧ j.request = some d := by
    intro i hb
    obtain ⟨hcall, hstay⟩ := hkeep i hb
    obtain ⟨j, d, hj, hreq⟩ := hi.asks i (hcall ▸ hb)
    exact ⟨j, d, hcall, hj, hstay j hj (by simp [hreq]), hreq⟩
  refine ⟨fun i hb => ?_, fun i k d' hk hd' => ?_, fun hkind => hleft.trans (hi.left hkind)⟩
  · obtain ⟨j, d, -, -, hj, hreq⟩ := hold i hb
    exact ⟨j, d, hj, hreq⟩
  · by_cases hb : τ.call i = .begun
    · rw [hb]
      trivial
    · obtain ⟨j, d, hcall, hj, hj', hreq⟩ := hold i hb
      obtain rfl : j = k := Option.some.inj (hj'.symm.trans hk)
      rw [hcall]
      exact hi.inv i j d' hj hd'

/-- The job that has ended its call is in none. -/
theorem FetchInv.ended (hi : FetchInv kind full sends σ) (hjobs : σ.pull.jobs = l ++ j :: r)
    (e : PullEffect) : FetchInv kind full sends { σ with
      pull := σ.pull.stepJob l r e
      call := Function.update σ.call l.length .begun } := by
  refine hi.keep (fun i hb => ?_) rfl
  have hil : i ≠ l.length := fun he => hb (by simp [he])
  refine ⟨Function.update_of_ne hil _ _, fun k hk _ => ?_⟩
  rw [hjobs] at hk
  exact getElem?_split_ne hil j e.job e.spawned hk

theorem FetchInv.step (hi : FetchInv kind full sends σ) (hs : FetchStep kind full sends σ τ) :
    FetchInv kind full sends τ := by
  cases hs with
  | @call l j r d c hjobs hreq hcall =>
    exact hi.update hjobs hreq
      (hcall.inv (hi.inv _ j d (by rw [hjobs, getElem?_split]) hreq)) hi.left
  | move hjobs => exact hi.ended hjobs _
  | notMoved hjobs hreq =>
    exact hi.update (c := .threw) hjobs hreq trivial fun hkind => by
      rw [if_pos hkind, hi.left hkind]
  | throw hjobs => exact hi.ended hjobs _
  | other hstep hkeep => exact hi.keep (fun i _ => ⟨rfl, fun j => hkeep i j⟩) rfl

/-- **A step of a pull that fetches is a step of a pull**, in which what is renamed arrives, or
nothing that the others see. -/
theorem pullStep_of_fetchStep (hi : FetchInv kind full sends σ)
    (hs : FetchStep kind full sends σ τ) :
    τ.pull = σ.pull ∨ PullStep (Delivers kind full sends) σ.pull τ.pull := by
  cases hs with
  | call => exact Or.inl rfl
  | @move l j r d b hjobs hreq hcall =>
    have hinv := hi.inv _ j d (by rw [hjobs, getElem?_split]) hreq
    rw [hcall] at hinv
    exact Or.inr (.job hjobs (pullJobStep_moved hreq hinv))
  | notMoved => exact Or.inl rfl
  | throw hjobs hreq => exact Or.inr (.job hjobs (pullJobStep_threw hreq))
  | other hstep => exact Or.inr (hstep.mono fun _ _ h => h.elim)

/-- **A run of a pull that fetches is a run of a pull.** -/
theorem reaches_pull_of_fetch {st : Store} {h : Digest}
    (hrun : Reaches (FetchStep kind full sends) (FetchState.start st h) σ) :
    Reaches (PullStep (Delivers kind full sends)) (PullState.start st h) σ.pull ∧
      FetchInv kind full sends σ := by
  have hstep : ∀ (u v : FetchState) (ρ : PullState), u.pull = ρ ∧ FetchInv kind full sends u →
      FetchStep kind full sends u v →
      ∃ ρ', Reaches (PullStep (Delivers kind full sends)) ρ ρ' ∧
        v.pull = ρ' ∧ FetchInv kind full sends v := by
    rintro u v ρ ⟨rfl, hi⟩ hs
    refine ⟨v.pull, ?_, rfl, hi.step hs⟩
    rcases pullStep_of_fetchStep hi hs with heq | hstep
    · rw [heq]
    · exact Relation.ReflTransGen.single hstep
  obtain ⟨ρ, hrun, rfl, hi⟩ := Reaches.simulate hrun ⟨rfl, fetchInv_start st h⟩ hstep
  exact ⟨hrun, hi⟩

/-! ### A pull is a pull that fetches -/

/-- The calls of a job that asks the remote. -/
theorem reaches_calls (hjobs : σ.pull.jobs = l ++ j :: r) (hreq : j.request = some d)
    {c : FetchCall} (hrun : Reaches (FetchCallStep kind full (sends d)) (σ.call l.length) c) :
    Reaches (FetchStep kind full sends) σ
      { σ with call := Function.update σ.call l.length c } := by
  induction hrun with
  | refl =>
    rw [Function.update_eq_self]
  | @tail x y _ hs ih =>
    refine ih.tail ?_
    have hstep : FetchStep kind full sends _ _ :=
      FetchStep.call (σ := { σ with call := Function.update σ.call l.length x }) hjobs hreq
        (by simpa using hs)
    simpa using hstep

/-- What comes of a job that asks the remote. -/
theorem PullJobStep.asks_cases {remote : Digest → Bytes → Prop} {st : Store} {e : PullEffect}
    (h : PullJobStep remote st j e) (hreq : j.request = some d) :
    (∃ b, remote d b ∧ e = j.moved st b) ∨ e = { store := st, job := .failed } := by
  cases h with
  | treeArrives hremote =>
    obtain rfl := Option.some.inj hreq
    exact Or.inl ⟨_, hremote, rfl⟩
  | objectArrives hremote =>
    obtain rfl := Option.some.inj hreq
    exact Or.inl ⟨_, hremote, rfl⟩
  | treeFails => exact Or.inr rfl
  | objectFails => exact Or.inr rfl
  | _ => cases hreq

/-- A job that does not ask the remote has nothing to do with it. -/
theorem PullJobStep.of_request_none {remote remote' : Digest → Bytes → Prop} {st : Store}
    {e : PullEffect} (h : PullJobStep remote st j e) (hreq : j.request = none) :
    PullJobStep remote' st j e := by
  cases h with
  | treeArrives => cases hreq
  | objectArrives => cases hreq
  | treePresent hobj => exact .treePresent hobj
  | treeMissing hobj => exact .treeMissing hobj
  | treeIsRead hread => exact .treeIsRead hread
  | treeFails hjob => exact .treeFails hjob
  | append => exact .append
  | passLink hlink => exact .passLink hlink
  | pushTree hlink hdir => exact .pushTree hlink hdir
  | enqueueObject hlink hdir => exact .enqueueObject hlink hdir
  | walked => exact .walked
  | objectPresent hobj => exact .objectPresent hobj
  | objectMissing hobj => exact .objectMissing hobj
  | objectFails hjob => exact .objectFails hjob

/-- A job that has ended does not ask. -/
theorem request_of_outcome (h : j.outcome ≠ .running) : j.request = none := by
  cases j with
  | askTree => exact absurd rfl h
  | askObject => exact absurd rfl h
  | _ => rfl

/-- No call is under way. -/
def FetchState.Quiet (σ : FetchState) : Prop := ∀ i, σ.call i = .begun

/-- A job that is not in a call takes a step, or the calling thread. -/
theorem exists_fetch_of_other (hquiet : σ.Quiet)
    (hs : PullStep (fun _ _ => False) σ.pull ρ)
    (hkeep : ∀ (i : ℕ) (j : PullJob), σ.pull.jobs[i]? = some j → j.request ≠ none →
      ρ.jobs[i]? = some j) :
    ∃ τ, Reaches (FetchStep kind full sends) σ τ ∧ τ.pull = ρ ∧ τ.Quiet :=
  ⟨{ σ with pull := ρ }, Relation.ReflTransGen.single (.other hs hkeep), rfl, hquiet⟩

/-- A job makes its whole call. -/
theorem exists_fetch_of_call (hquiet : σ.Quiet) (hjobs : σ.pull.jobs = l ++ j :: r)
    (hreq : j.request = some d) {e : PullEffect}
    (he : (∃ b, Delivers kind full sends d b ∧ e = j.moved σ.pull.store b) ∨
      e = { store := σ.pull.store, job := .failed }) :
    ∃ τ, Reaches (FetchStep kind full sends) σ τ ∧ τ.pull = σ.pull.stepJob l r e ∧ τ.Quiet := by
  have hend : ∀ c, Reaches (FetchCallStep kind full (sends d)) .begun c →
      Reaches (FetchStep kind full sends) σ
        { σ with call := Function.update σ.call l.length c } := fun c hc =>
    reaches_calls hjobs hreq (by rwa [hquiet])
  have hquiet' : ∀ c i, Function.update (Function.update σ.call l.length c) l.length
      FetchCall.begun i = .begun := fun c i => by
    by_cases hi : i = l.length
    · rw [hi, Function.update_self]
    · rw [Function.update_of_ne hi, Function.update_of_ne hi, hquiet]
  rcases he with ⟨b, ⟨sent, hsent, hb⟩, rfl⟩ | rfl
  · exact ⟨_, (hend _ (exists_reaches_closed hsent hb)).tail
      (.move hjobs hreq (Function.update_self _ _ _)), rfl, hquiet' _⟩
  · exact ⟨_, (hend .threw (Relation.ReflTransGen.single .notOpened)).tail
      (.throw hjobs hreq (Function.update_self _ _ _)), rfl, hquiet' _⟩

/-- **A step of a pull can be made by one that fetches**, when no call is under way. -/
theorem exists_fetch_of_pullStep (hquiet : σ.Quiet) (hcounts : σ.pull.Counts)
    (hs : PullStep (Delivers kind full sends) σ.pull ρ) :
    ∃ τ, Reaches (FetchStep kind full sends) σ τ ∧ τ.pull = ρ ∧ τ.Quiet := by
  have hidle : σ.pull.wg.count ≤ 0 → ∀ (i : ℕ) (j : PullJob), σ.pull.jobs[i]? = some j →
      j.request ≠ none → ([] : List PullJob)[i]? = some j := fun hle i j hj hn =>
    absurd (request_of_outcome (Counts.idle hcounts hle j (List.mem_of_getElem? hj))) hn
  have happend : ∀ (k : PullJob) (i : ℕ) (j : PullJob), σ.pull.jobs[i]? = some j →
      j.request ≠ none → (σ.pull.jobs ++ [k])[i]? = some j := fun k i j hj _ => by
    rw [List.getElem?_append_left (List.getElem?_eq_some_iff.mp hj).1, hj]
  cases hs with
  | @job l j r e hjobs hstep =>
    cases hreq : j.request with
    | some d => exact exists_fetch_of_call hquiet hjobs hreq (hstep.asks_cases hreq)
    | none =>
      refine exists_fetch_of_other hquiet (.job hjobs (hstep.of_request_none hreq))
        fun i k hk hn => ?_
      have hil : i ≠ l.length := by
        rintro rfl
        rw [hjobs, getElem?_split] at hk
        exact hn (Option.some.inj hk ▸ hreq)
      rw [hjobs] at hk
      exact getElem?_split_ne hil j e.job e.spawned hk
  | enqueueTree hmain => exact exists_fetch_of_other hquiet (.enqueueTree hmain) (happend _)
  | treesRead hmain hle hok =>
    exact exists_fetch_of_other hquiet (.treesRead hmain hle hok) (hidle hle)
  | enqueueWalk hmain => exact exists_fetch_of_other hquiet (.enqueueWalk hmain) (happend _)
  | nextLevel hmain hle hok =>
    exact exists_fetch_of_other hquiet (.nextLevel hmain hle hok) (hidle hle)
  | rethrow hmain hle hfailed =>
    exact exists_fetch_of_other hquiet (.rethrow hmain hle hfailed) fun _ _ hj _ => hj

/-- **A run of a pull can be made by one that fetches.** -/
theorem exists_fetch_of_reaches {st : Store} {h : Digest}
    (hrun : Reaches (PullStep (Delivers kind full sends)) (PullState.start st h) ρ) :
    ∃ σ, Reaches (FetchStep kind full sends) (FetchState.start st h) σ ∧ σ.pull = ρ := by
  have hstep : ∀ (u v : PullState) (σ : FetchState),
      σ.pull = u ∧ u.Counts ∧ σ.Quiet → PullStep (Delivers kind full sends) u v →
      ∃ τ, Reaches (FetchStep kind full sends) σ τ ∧ τ.pull = v ∧ v.Counts ∧ τ.Quiet := by
    rintro u v σ ⟨rfl, hcounts, hquiet⟩ hs
    obtain ⟨τ, hrun, rfl, hquiet'⟩ := exists_fetch_of_pullStep hquiet hcounts hs
    exact ⟨τ, hrun, rfl, hcounts.step hs, hquiet'⟩
  obtain ⟨σ, hrun, heq, -⟩ := Reaches.simulate hrun
    (show (FetchState.start st h).pull = PullState.start st h ∧ _ ∧ _ from
      ⟨rfl, PullState.counts_start st h, fun _ => rfl⟩) hstep
  exact ⟨σ, hrun, heq⟩

end Fetch

/-- **Only the renaming is seen.** However the calls of `read_object` of its jobs are interleaved,
with each other and with everything else, and whatever fails in them, a pull reaches the states that
it reaches when objects arrive in one step, each being what may land at its path: these and no
others. -/
theorem fetch_reaches_iff (kind : RemoteKind) (full : Prop) (sends : Digest → List Bytes → Prop)
    (st : Store) (h : Digest) (ρ : PullState) :
    (∃ σ, Reaches (FetchStep kind full sends) (FetchState.start st h) σ ∧ σ.pull = ρ) ↔
      Reaches (PullStep (Delivers kind full sends)) (PullState.start st h) ρ := by
  constructor
  · rintro ⟨σ, hrun, rfl⟩
    exact (reaches_pull_of_fetch hrun).1
  · exact exists_fetch_of_reaches

/-! ### Whatever is broken off -/

section Complete

variable {kind : RemoteKind} {full : Prop} {sends : Digest → List Bytes → Prop} {σ : FetchState}
  {truth : Digest → Bytes} {H : HashFunction} {h : Digest} {st st₀ : Store}

/-- When a pull has ended so have its jobs. -/
def PullState.Over (σ : PullState) : Prop :=
  (∃ todo, σ.main = .fetching todo) ∨ (∃ todo, σ.main = .listing todo) ∨
    ∀ j ∈ σ.jobs, j.outcome ≠ .running

theorem PullState.Over.step {remote : Digest → Bytes → Prop} {ρ ρ' : PullState} (h : ρ.Over)
    (hcounts : ρ.Counts) (hs : PullStep remote ρ ρ') : ρ'.Over := by
  cases hs with
  | job hjobs hstep =>
    refine h.imp id (Or.imp id fun hall => ?_)
    exact absurd hstep.running (hall _ (by rw [hjobs]; simp))
  | enqueueTree => exact Or.inl ⟨_, rfl⟩
  | treesRead => exact Or.inr (Or.inl ⟨_, rfl⟩)
  | enqueueWalk => exact Or.inr (Or.inl ⟨_, rfl⟩)
  | nextLevel => exact Or.inr (Or.inr (by simp))
  | rethrow _ hidle => exact Or.inr (Or.inr (Counts.idle hcounts hidle))

/-- **When a pull has ended no call is under way.** -/
theorem quiet_of_ended (hrun : Reaches (FetchStep kind full sends) (FetchState.start st h) σ)
    (hend : σ.pull.main = .returned ∨ σ.pull.main = .threw) : σ.Quiet := by
  obtain ⟨hpull, hi⟩ := reaches_pull_of_fetch hrun
  have hstep : ∀ u v : PullState, u.Over ∧ u.Counts → PullStep (Delivers kind full sends) u v →
      v.Over ∧ v.Counts := fun _ _ hi hs => ⟨hi.1.step hi.2 hs, hi.2.step hs⟩
  have hover : σ.pull.Over ∧ σ.pull.Counts :=
    hpull.invariant ⟨Or.inl ⟨_, rfl⟩, PullState.counts_start st h⟩ hstep
  have hjobs : ∀ j ∈ σ.pull.jobs, j.outcome ≠ .running := by
    rcases hover.1 with ⟨todo, hm⟩ | ⟨todo, hm⟩ | hall
    · rcases hend with he | he <;> rw [hm] at he <;> cases he
    · rcases hend with he | he <;> rw [hm] at he <;> cases he
    · exact hall
  intro i
  by_contra hb
  obtain ⟨j, d, hj, hreq⟩ := hi.asks i hb
  rw [request_of_outcome (hjobs j (List.mem_of_getElem? hj))] at hreq
  cases hreq

/-- **Every state of a pull has the true objects**, if the remote answers with them or not at
all. -/
theorem agrees_of_pull {remote : Digest → Bytes → Prop} {ρ : PullState} (hst : st.Agrees truth H)
    (hremote : ∀ d b, remote d b → b = truth d ∧ H.sum b = d)
    (hrun : Reaches (PullStep remote) (PullState.start st h) ρ) : ρ.store.Agrees truth H := by
  have hinv : PullStoreInv remote st ρ :=
    hrun.invariant pullStoreInv_start fun _ _ hi hs => hi.step hs
  have hpath : ∀ {d d' : Digest} {b : Bytes}, H.sum (truth d) = d → remote d' b →
      treePath d' = treePath d ∨ filePath d' = filePath d → b = truth d := by
    intro d d' b hd hb hpath
    obtain ⟨rfl, hsum⟩ := hremote d' b hb
    rw [eq_of_objectPath_eq hd hsum hpath]
  rintro d b hd (hb | hb)
  · rcases hinv.answered _ b hb with hold | ⟨d', hb', hk | hk⟩
    · exact hst d b hd (Or.inl hold)
    · exact absurd hk.symm (filePath_ne_treePath d' d)
    · exact hpath hd hb' (Or.inl hk.symm)
  · rcases hinv.answered _ b hb with hold | ⟨d', hb', hk | hk⟩
    · exact hst d b hd (Or.inr hold)
    · exact hpath hd hb' (Or.inr hk.symm)
    · exact absurd hk (filePath_ne_treePath d d')

/-- **A pull that was broken off**, at any moment, has left the cache like this. -/
def BrokenOff (kind : RemoteKind) (full : Prop) (sends : Digest → List Bytes → Prop)
    (st st' : Store) : Prop :=
  ∃ h σ, Reaches (FetchStep kind full sends) (FetchState.start st h) σ ∧ σ.pull.store = st'

end Complete

/-- **A pull after pulls that were broken off.** The cache has none but true objects, the remote
sends the true objects, in any chunks, or fails, and the disk is not full. After any number of pulls
of any digests, each broken off at any moment, by an error or a crash, the cache has no object that
is not the true one; and when a pull of a tree returns it has the whole tree. When a pull has ended
it has left no temporary file behind, but those that `remote_http` could not rename. -/
theorem fetch_complete {kind : RemoteKind} {full : Prop} {sends : Digest → List Bytes → Prop}
    {truth : Digest → Bytes} {H : HashFunction} {h : Digest} {st₀ st : Store} {σ : FetchState}
    (hfull : ¬ full)
    (hsends : ∀ d sent, sends d sent → sent.flatten = truth d ∧ H.sum (truth d) = d)
    (hst : st₀.Agrees truth H) (hbefore : Reaches (BrokenOff kind full sends) st₀ st)
    (hrun : Reaches (FetchStep kind full sends) (FetchState.start st h) σ) :
    σ.pull.store.Agrees truth H ∧
    (MerkleTree truth H h → σ.pull.main = .returned → σ.pull.Complete truth h) ∧
    (σ.pull.main = .returned ∨ σ.pull.main = .threw →
      (∀ i, σ.call i = .begun) ∧ (kind = .jolt → σ.left = [])) := by
  have hremote : ∀ d b, Delivers kind full sends d b → b = truth d ∧ H.sum b = d := by
    intro d b hb
    obtain ⟨sent, hsent, rfl⟩ := (delivers_iff_of_not_full hfull).mp hb
    obtain ⟨heq, hsum⟩ := hsends d sent hsent
    rw [heq]
    exact ⟨rfl, hsum⟩
  have hagrees : st.Agrees truth H := hbefore.invariant hst fun u v hu hs => by
    obtain ⟨h', σ', hrun', rfl⟩ := hs
    exact agrees_of_pull hu hremote (reaches_pull_of_fetch hrun').1
  obtain ⟨hpull, hi⟩ := reaches_pull_of_fetch hrun
  refine ⟨agrees_of_pull hagrees hremote hpull, fun hm hret => ?_, fun hend =>
    ⟨quiet_of_ended hrun hend, hi.left⟩⟩
  obtain ⟨n, hn⟩ := hm.exists_height
  have hinv : PullInv truth H n h σ.pull := hpull.invariant (pullInv_start hm hn hagrees)
    fun _ _ hi hs => hi.step hremote hs
  exact hinv.complete hm hn hret

/-! ### A pull of the sample that is broken off -/

namespace Sample

/-- The honest remote sends what it has in any chunks. -/
def sends (d : Digest) (sent : List Bytes) : Prop := honest d = some sent.flatten

theorem delivers_honest {d : Digest} {b : Bytes} (h : honest d = some b) :
    Delivers .http False sends d b :=
  ⟨[b], by simpa [sends] using h, Or.inl (by simp)⟩

theorem exists_fetch_thread (st : Store) (n : ℕ) :
    ∃ σ, Reaches (FetchStep .http False sends) (FetchState.start st wanted) σ ∧
      σ.pull = runPull honest n (PullState.start st wanted) :=
  exists_fetch_of_reaches ((reaches_runPull (PullState.counts_start _ _) n).mono
    fun _ _ hs => hs.mono fun _ _ hb => delivers_honest hb)

/-- The pull is broken off when it has got the tree object of the root. -/
def interrupted : PullState := runPull honest 3 (PullState.start partly wanted)

/-- The next one goes on from there. -/
def resumed : PullState := runPull honest 60 (PullState.start interrupted.store wanted)

set_option maxRecDepth 16000 in
example : interrupted.store (treePath wanted) = some treeRoot ∧
    interrupted.store (filePath digestX) = none := by decide

set_option maxRecDepth 16000 in
theorem returned_resumed : resumed.main = .returned := by decide

end Sample

open Sample in
/-- A pull of the sample that goes on where another was broken off. -/
theorem fetch_complete_sample : resumed.Complete truth wanted := by
  obtain ⟨σ₁, h₁, hpull₁⟩ := exists_fetch_thread partly 3
  obtain ⟨σ, hrun, hpull⟩ := exists_fetch_thread interrupted.store 60
  have hsends : ∀ d sent, sends d sent → sent.flatten = truth d ∧ hash.sum (truth d) = d := by
    intro d sent hs
    obtain ⟨heq, hsum⟩ := honest_true hs
    rw [← heq]
    exact ⟨rfl, hsum⟩
  have hbefore : Reaches (BrokenOff .http False sends) partly interrupted.store :=
    Relation.ReflTransGen.single ⟨wanted, σ₁, h₁, by rw [hpull₁]; rfl⟩
  have hdone := (fetch_complete not_false hsends agrees_partly hbefore hrun).2.1 merkleTree_wanted
  rw [hpull] at hdone
  exact hdone returned_resumed

end Fstree
