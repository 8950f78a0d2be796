import Fstree.Add

/-!
# Copies in flight

While a file is being copied to the path of its object, the object is there and
is not yet what it should be. Several files with one digest can be copied to one
object at once, each job truncating it when it begins and writing at its own
offset from then on. What saves the object is that they all write the same
bytes: everything before the offset of the job that truncated last is right, and
so when that job has finished the object is right and stays so
(`Fstree.CopyInv`).

The invariant needs the sources to be **honest** (`Fstree.HonestCopies`): they
have the digest of the inode, and those copied to one object at once are the
same. It is lost when a copy is torn, by an error in the middle of it.
-/

namespace Fstree

/-! ### Writing bytes one after the other -/

section WriteByte

variable {b src : Bytes} {off : ℕ} {x : Byte}

theorem length_writeByte (b : Bytes) (off : ℕ) (x : Byte) :
    (writeByte b off x).length = max b.length (off + 1) := by
  simp only [writeByte, List.length_append, List.length_take, List.length_replicate,
    List.length_cons, List.length_drop]
  omega

theorem getElem?_writeByte_self (b : Bytes) (off : ℕ) (x : Byte) :
    (writeByte b off x)[off]? = some x := by
  have hlen : (b.take off ++ List.replicate (off - b.length) 0).length = off := by
    simp only [List.length_append, List.length_take, List.length_replicate]
    omega
  rw [writeByte, List.getElem?_append_right (by rw [hlen]), hlen]
  simp

theorem getElem?_writeByte_of_ne {k : ℕ} (hk : k < b.length) (hne : k ≠ off) (x : Byte) :
    (writeByte b off x)[k]? = b[k]? := by
  rcases Nat.lt_or_gt_of_ne hne with h | h
  · rw [writeByte, List.append_assoc,
      List.getElem?_append_left (by simp only [List.length_take]; omega),
      List.getElem?_take_of_lt h]
  · have hzero : off - b.length = 0 := by omega
    have hlen : (b.take off).length = off := by
      simp only [List.length_take]
      omega
    rw [writeByte, hzero, List.replicate_zero, List.append_nil,
      List.getElem?_append_right (by omega), hlen]
    obtain ⟨m, hm⟩ : ∃ m, k - off = m + 1 := ⟨k - off - 1, by omega⟩
    rw [hm, List.getElem?_cons_succ, List.getElem?_drop]
    congr 1
    omega

/-- Writing the right byte over the right bytes changes nothing. -/
theorem writeByte_eq_self (hx : src[off]? = some x) : writeByte src off x = src := by
  obtain ⟨hlt, -⟩ := List.getElem?_eq_some_iff.mp hx
  refine List.ext_getElem? fun k => ?_
  by_cases hk : k = off
  · rw [hk, getElem?_writeByte_self, hx]
  · by_cases hkl : k < src.length
    · exact getElem?_writeByte_of_ne hkl hk x
    · rw [List.getElem?_eq_none (by rw [length_writeByte]; omega),
        List.getElem?_eq_none (by omega)]

/-- **The first `n` bytes are those of the source.** -/
structure Covered (b src : Bytes) (n : ℕ) : Prop where
  length : n ≤ b.length
  bytes : ∀ k < n, b[k]? = src[k]?

theorem covered_nil (src : Bytes) : Covered [] src 0 := ⟨le_rfl, fun k hk => absurd hk (by omega)⟩

/-- Writing a right byte keeps what is covered. -/
theorem Covered.writeByte {n : ℕ} (h : Covered b src n) (hx : src[off]? = some x) :
    Covered (writeByte b off x) src n := by
  refine ⟨by rw [length_writeByte]; exact h.length.trans (le_max_left _ _), fun k hk => ?_⟩
  by_cases hko : k = off
  · rw [hko, getElem?_writeByte_self, hx]
  · rw [getElem?_writeByte_of_ne (lt_of_lt_of_le hk h.length) hko]
    exact h.bytes k hk

/-- Writing the next byte covers one more. -/
theorem Covered.next (h : Covered b src off) (hx : src[off]? = some x) :
    Covered (Fstree.writeByte b off x) src (off + 1) := by
  refine ⟨by rw [length_writeByte]; exact le_max_right _ _, fun k hk => ?_⟩
  by_cases hko : k = off
  · rw [hko, getElem?_writeByte_self, hx]
  · exact (h.writeByte hx).bytes k (by omega)

theorem Covered.eq_src (h : Covered b src src.length) (hlen : b.length ≤ src.length) : b = src := by
  refine List.ext_getElem? fun k => ?_
  by_cases hk : k < src.length
  · exact h.bytes k hk
  · rw [List.getElem?_eq_none (by omega), List.getElem?_eq_none (by omega)]

end WriteByte

/-! ### Objects that are copied to -/

/-- **The state of the objects while copies are in flight**: `W k src off` says that someone is
copying `src` to `k` and has written `off` bytes, and `ok` what is to be there in the end. -/
structure Copying (ok : Bytes → Bytes → Prop) (st : Store) (W : Bytes → Bytes → ℕ → Prop) :
    Prop where
  /-- An object nobody is copying to is what it should be. -/
  settled : ∀ k b, st k = some b → (∀ src off, ¬ W k src off) → ok k b
  /-- An object someone is copying to is covered up to the offset of one of those
  who are, unless it is complete. -/
  growing : ∀ k src off, W k src off → ∃ b, st k = some b ∧
    b.length ≤ src.length ∧ (b = src ∨ ∃ off', W k src off' ∧ Covered b src off')

/-- All who copy to one object copy the same. -/
def Uniform (W : Bytes → Bytes → ℕ → Prop) : Prop :=
  ∀ k src off src' off', W k src off → W k src' off' → src = src'

/-- What a job with the digest `h` is copying. -/
def Job.writes (h : Digest) (j : Job) (k src : Bytes) (off : ℕ) : Prop :=
  j = .copying src off ∧ filePath h = k

/-- The job and others. -/
def Job.beside (h : Digest) (j : Job) (O : Bytes → Bytes → ℕ → Prop) (k src : Bytes) (off : ℕ) :
    Prop :=
  j.writes h k src off ∨ O k src off

namespace Copying

variable {ok : Bytes → Bytes → Prop} {st st' : Store} {W W' O : Bytes → Bytes → ℕ → Prop}
  {H : HashFunction} {read : Bytes → Prop} {h h' : Digest} {j j' : Job}

/-- Only the objects that have to be something matter. -/
theorem congr (hi : Copying ok st W) (hst : ∀ k b, st' k = some b → st k = some b ∨ ok k b)
    (hkeep : ∀ k src off, W k src off → st' k = st k)
    (hw : ∀ k src off, W' k src off ↔ W k src off) : Copying ok st' W' := by
  refine ⟨fun k b hb hn => ?_, fun k src off hk => ?_⟩
  · rcases hst k b hb with hb | hok
    · exact hi.settled k b hb fun src off hwr => hn src off ((hw _ _ _).mpr hwr)
    · exact hok
  · have hk' := (hw _ _ _).mp hk
    obtain ⟨b, hb, hlen, hcov⟩ := hi.growing _ src off hk'
    refine ⟨b, (hkeep k src off hk').trans hb, hlen, hcov.imp id ?_⟩
    rintro ⟨off', hwr, hc⟩
    exact ⟨off', (hw _ _ _).mpr hwr, hc⟩

/-- A job that was not copying and is not copying leaves the copies as they are. -/
theorem idle (hi : Copying ok st (j.beside h O)) (hj : j.isCopying = false)
    (hj' : j'.isCopying = false) : Copying ok st (j'.beside h' O) := by
  refine hi.congr (fun _ _ hb => Or.inl hb) (fun _ _ _ _ => rfl) fun k src off => ?_
  refine or_congr ⟨?_, ?_⟩ Iff.rfl
  · rintro ⟨rfl, -⟩
    cases hj'
  · rintro ⟨rfl, -⟩
    cases hj

/-- A job opens its target. -/
theorem «open» (hi : Copying ok st (j.beside h O)) (hj : j.isCopying = false) {src : Bytes}
    (hsame : Uniform ((Job.copying src 0).beside h O)) :
    Copying ok (st.put (filePath h) []) ((Job.copying src 0).beside h O) := by
  have hother : ∀ {k src off}, j.beside h O k src off → O k src off := fun hw => by
    refine hw.resolve_left ?_
    rintro ⟨rfl, -⟩
    cases hj
  have hself : (Job.copying src 0).beside h O (filePath h) src 0 := Or.inl ⟨rfl, rfl⟩
  refine ⟨fun k b hb hn => ?_, fun k src' off' hw => ?_⟩
  · have hk : k ≠ filePath h := fun he => hn src 0 (he ▸ hself)
    refine hi.settled k b ?_ fun src off hw => hn src off (Or.inr (hother hw))
    exact (Store.put_of_ne _ hk _).symm.trans hb
  · by_cases hk : k = filePath h
    · subst hk
      rw [hsame _ _ _ _ _ hw hself]
      exact ⟨[], Store.put_self _ _ _, Nat.zero_le _, Or.inr ⟨0, hself, covered_nil src⟩⟩
    · have ho : O k src' off' := hw.resolve_left fun h => hk h.2.symm
      obtain ⟨b, hb, hlen, hcov⟩ := hi.growing k src' off' (Or.inr ho)
      refine ⟨b, (Store.put_of_ne _ hk _).trans hb, hlen, hcov.imp id ?_⟩
      rintro ⟨off'', hw', hc⟩
      exact ⟨off'', Or.inr (hother hw'), hc⟩

/-- A job writes a byte. -/
theorem write {src b : Bytes} {off : ℕ} {x : Byte}
    (hi : Copying ok st ((Job.copying src off).beside h O)) (hsrc : src[off]? = some x)
    (hobj : st (filePath h) = some b)
    (hsame : Uniform ((Job.copying src (off + 1)).beside h O)) :
    Copying ok (st.put (filePath h) (writeByte b off x))
      ((Job.copying src (off + 1)).beside h O) := by
  have hother : ∀ {k src' off'}, k ≠ filePath h → (Job.copying src off).beside h O k src' off' →
      O k src' off' := fun hk hw => hw.resolve_left fun h => hk h.2.symm
  have hself : (Job.copying src (off + 1)).beside h O (filePath h) src (off + 1) :=
    Or.inl ⟨rfl, rfl⟩
  refine ⟨fun k b' hb hn => ?_, fun k src' off' hw => ?_⟩
  · have hk : k ≠ filePath h := fun he => hn src (off + 1) (he ▸ hself)
    refine hi.settled k b' ?_ fun src off hw => hn src off (Or.inr (hother hk hw))
    exact (Store.put_of_ne _ hk _).symm.trans hb
  · by_cases hk : k = filePath h
    · subst hk
      rw [hsame _ _ _ _ _ hw hself]
      obtain ⟨b', hb', hlen, hcov⟩ := hi.growing _ src off (Or.inl ⟨rfl, rfl⟩)
      obtain rfl : b' = b := Option.some.inj (hb'.symm.trans hobj)
      obtain ⟨hoff, -⟩ := List.getElem?_eq_some_iff.mp hsrc
      refine ⟨_, Store.put_self _ _ _, by rw [length_writeByte]; omega, ?_⟩
      rcases hcov with rfl | ⟨off'', hw', hc⟩
      · exact Or.inl (writeByte_eq_self hsrc)
      · -- the one who covers is the job itself, which has come one further, or another
        rcases hw' with ⟨hp, -⟩ | ho
        · obtain ⟨-, rfl⟩ : src = src ∧ off = off'' := by simpa using hp
          exact Or.inr ⟨off + 1, hself, hc.next hsrc⟩
        · exact Or.inr ⟨off'', Or.inr ho, hc.writeByte hsrc⟩
    · have ho : O k src' off' := hw.resolve_left fun h => hk h.2.symm
      obtain ⟨b', hb', hlen, hcov⟩ := hi.growing k src' off' (Or.inr ho)
      refine ⟨b', (Store.put_of_ne _ hk _).trans hb', hlen, hcov.imp id ?_⟩
      rintro ⟨off'', hw', hc⟩
      exact ⟨off'', Or.inr (hother hk hw'), hc⟩

/-- **A job has copied everything**: if it is the last one, the object is what was copied. -/
theorem finish {src : Bytes} (hi : Copying ok st ((Job.copying src src.length).beside h O))
    (hok : ok (filePath h) src) (hj : j.isCopying = false) : Copying ok st (j.beside h O) := by
  have hstep : ∀ {k src off}, j.beside h O k src off → O k src off := fun hw =>
    hw.resolve_left fun h => by
      rw [h.1] at hj
      cases hj
  have hoff : ∀ {src' off'}, Job.copying src src.length = .copying src' off' →
      src' = src ∧ off' = src.length := by
    intro src' off' hp
    obtain ⟨rfl, rfl⟩ : src = src' ∧ src.length = off' := by simpa using hp
    exact ⟨rfl, rfl⟩
  refine ⟨fun k b hb hn => ?_, fun k src' off' hw => ?_⟩
  · have hnone : ∀ src off, ¬ O k src off := fun src off ho => hn src off (Or.inr ho)
    by_cases hk : k = filePath h
    · subst hk
      obtain ⟨b', hb', hlen, hcov⟩ := hi.growing _ src _ (Or.inl ⟨rfl, rfl⟩)
      obtain rfl : b' = b := Option.some.inj (hb'.symm.trans hb)
      have hsrc : b' = src := by
        rcases hcov with h | ⟨off', hw', hc⟩
        · exact h
        · rcases hw' with ⟨hp, -⟩ | ho
          · rw [(hoff hp).2] at hc
            exact hc.eq_src hlen
          · exact absurd ho (hnone _ _)
      rwa [hsrc]
    · refine hi.settled k b hb fun src off hw => ?_
      exact hnone src off (hw.resolve_left fun h => hk h.2.symm)
  · have ho := hstep hw
    obtain ⟨b, hb, hlen, hcov⟩ := hi.growing k src' off' (Or.inr ho)
    refine ⟨b, hb, hlen, ?_⟩
    rcases hcov with h | ⟨off'', hw', hc⟩
    · exact Or.inl h
    · rcases hw' with ⟨hp, -⟩ | ho'
      · obtain ⟨rfl, rfl⟩ := hoff hp
        exact Or.inl (hc.eq_src hlen)
      · exact Or.inr ⟨off'', Or.inr ho', hc⟩

/-- **A step of a job keeps the state of the objects**, whoever else is copying, unless it tears
one. -/
theorem jobStep (hi : Copying ok st (j.beside h O))
    (hs : JobStep H read (st, h, j) (st', h', j'))
    (hok : ∀ src off, j = .copying src off → ok (filePath h) src)
    (hsame : Uniform (j'.beside h' O)) : j' = .torn ∨ Copying ok st' (j'.beside h' O) := by
  cases hs with
  | rehash => exact Or.inr (hi.idle rfl rfl)
  | clean => exact Or.inr (hi.idle rfl rfl)
  | present => exact Or.inr (hi.idle rfl rfl)
  | missing => exact Or.inr (hi.idle rfl rfl)
  | skipCopy => exact Or.inr (hi.idle rfl rfl)
  | fail _ hcopy => exact Or.inr (hi.idle hcopy rfl)
  | openCopy => exact Or.inr (hi.open rfl hsame)
  | write hsrc hobj => exact Or.inr (hi.write hsrc hobj hsame)
  | finish => exact Or.inr (hi.finish (hok _ _ rfl) rfl)
  | failPermissions => exact Or.inr (hi.finish (hok _ _ rfl) rfl)
  | tear => exact Or.inl rfl

end Copying

/-- **The state of the objects but for those in `T`**, to which a copy was broken off. -/
def CopyingBut (T : Bytes → Prop) (ok : Bytes → Bytes → Prop) (st : Store)
    (W : Bytes → Bytes → ℕ → Prop) : Prop :=
  Copying (fun k b => T k ∨ ok k b) st fun k src off => ¬ T k ∧ W k src off

section CopyingBut

variable {T T' : Bytes → Prop} {ok : Bytes → Bytes → Prop} {st st' : Store}
  {W W' O : Bytes → Bytes → ℕ → Prop} {H : HashFunction} {read : Bytes → Prop} {h h' : Digest}
  {j j' : Job}

/-- Only the objects that are left count. -/
theorem CopyingBut.congr (hi : CopyingBut T ok st W) (hT : ∀ k, T k → T' k)
    (hst : ∀ k b, ¬ T' k → st' k = some b → st k = some b ∨ ok k b)
    (hkeep : ∀ k src off, ¬ T' k → W k src off → st' k = st k)
    (hw : ∀ k src off, ¬ T' k → (W' k src off ↔ W k src off)) : CopyingBut T' ok st' W' := by
  refine ⟨fun k b hb hn => ?_, fun k src off hk => ?_⟩
  · by_cases hk : T' k
    · exact Or.inl hk
    rcases hst k b hk hb with hb | hok
    · refine Or.inr ((hi.settled k b hb fun src off hwr => ?_).resolve_left fun h => hk (hT k h))
      exact hn src off ⟨hk, (hw _ _ _ hk).mpr hwr.2⟩
    · exact Or.inr hok
  · have hwr := (hw _ _ _ hk.1).mp hk.2
    obtain ⟨b, hb, hlen, hcov⟩ := hi.growing k src off ⟨fun h => hk.1 (hT k h), hwr⟩
    refine ⟨b, (hkeep k src off hk.1 hwr).trans hb, hlen, hcov.imp id ?_⟩
    rintro ⟨off', hwr', hc⟩
    exact ⟨off', ⟨hk.1, (hw _ _ _ hk.1).mpr hwr'.2⟩, hc⟩

/-- A job touches no object but its own. -/
theorem JobStep.elsewhere (hs : JobStep H read (st, h, j) (st', h', j')) {k : Bytes}
    (hk : k ≠ filePath h) : st' k = st k := by
  cases hs with
  | openCopy => exact Store.put_of_ne _ hk _
  | write => exact Store.put_of_ne _ hk _
  | _ => rfl

/-- Nor does it copy to another, before or afterwards. -/
theorem JobStep.writes_self (hs : JobStep H read (st, h, j) (st', h', j')) {k src : Bytes}
    {off : ℕ} (hw : j'.writes h' k src off) : k = filePath h := by
  obtain ⟨rfl, rfl⟩ := hw
  cases hs <;> rfl

/-- A job that tears its copy keeps its digest. -/
theorem JobStep.digest_of_torn (hs : JobStep H read (st, h, j) (st', h', .torn)) : h' = h := by
  cases hs
  rfl

/-- **A step of a job keeps the state of the objects that are left.** -/
theorem CopyingBut.jobStep (hi : CopyingBut T ok st (j.beside h O))
    (hs : JobStep H read (st, h, j) (st', h', j'))
    (hok : ∀ src off, j = .copying src off → ok (filePath h) src)
    (hsame : Uniform (j'.beside h' O)) (hT : ∀ k, T k → T' k)
    (htorn : j' = .torn → T' (filePath h)) : CopyingBut T' ok st' (j'.beside h' O) := by
  have hother : ∀ k src off, k ≠ filePath h → (j'.beside h' O k src off ↔ j.beside h O k src off) :=
    fun k src off hk => or_congr (iff_of_false (fun hw => hk (hs.writes_self hw))
      fun hw => hk hw.2.symm) Iff.rfl
  by_cases hTh : T' (filePath h)
  · -- its object is no longer counted
    have hne : ∀ {k}, ¬ T' k → k ≠ filePath h := fun hk he => hk (he ▸ hTh)
    refine hi.congr hT (fun k b hk hb => Or.inl ?_) (fun k src off hk _ => hs.elsewhere (hne hk))
      fun k src off hk => hother k src off (hne hk)
    rwa [← hs.elsewhere (hne hk)]
  · have hbut : ∀ {h' j'}, (∀ k src off, Job.writes h' j' k src off → k = filePath h) →
        (fun k src off => ¬ T k ∧ Job.beside h' j' O k src off) =
          Job.beside h' j' fun k src off => ¬ T k ∧ O k src off := by
      intro h' j' hself
      funext k src off
      refine propext ⟨fun hw => hw.2.imp id fun ho => ⟨hw.1, ho⟩, ?_⟩
      rintro (hw | ho)
      · exact ⟨fun hk => hTh (hT _ (hself _ _ _ hw ▸ hk)), Or.inl hw⟩
      · exact ⟨ho.1, Or.inr ho.2⟩
    have hcopy : Copying (fun k b => T k ∨ ok k b) st
        (j.beside h fun k src off => ¬ T k ∧ O k src off) := by
      rw [← hbut fun _ _ _ hw => hw.2.symm]
      exact hi
    have hleft := (hcopy.jobStep hs (fun src off hj => Or.inr (hok src off hj))
      fun k src off src' off' hw hw' => hsame k src off src' off' (hw.imp id And.right)
        (hw'.imp id And.right)).resolve_left fun hj => hTh (htorn hj)
    rw [← hbut fun _ _ _ hw => hs.writes_self hw] at hleft
    exact CopyingBut.congr (T := T) hleft hT (fun _ _ _ hb => Or.inl hb) (fun _ _ _ _ _ => rfl)
      fun _ _ _ _ => Iff.rfl

end CopyingBut

/-! ### The invariant of the copies -/

namespace AddState

/-- A job is copying `src` to the object path `k`, and has written `off` bytes. -/
def Writer (σ : AddState) (k : Bytes) (src : Bytes) (off : ℕ) : Prop :=
  ∃ p, σ.job p = .copying src off ∧ σ.object p = k

/-- A copy was broken off by an error. -/
def Torn (σ : AddState) : Prop := ∃ p, σ.job p = .torn

end AddState

/-- **The sources of the copies in flight are honest**: they have the digest of
their inode, and those copied to one object are the same. -/
structure HonestCopies (H : HashFunction) (σ : AddState) : Prop where
  sum : ∀ p src off, σ.job p = .copying src off → H.sum src = σ.hash p
  same : ∀ k src off src' off', σ.Writer k src off → σ.Writer k src' off' → src = src'

/-- **Whatever is copied has the digest of its inode**, and is one of the byte strings
`S`. -/
def CopiesDigested (H : HashFunction) (S : Set Bytes) (σ : AddState) : Prop :=
  ∀ p src off, σ.job p = .copying src off → src ∈ S ∧ H.sum src = σ.hash p

/-- Without collisions such copies are honest. -/
theorem CopiesDigested.honest {S : Set Bytes} (h : CopiesDigested H S σ) (hS : H.CollisionFree S) :
    HonestCopies H σ where
  sum p src off hp := (h p src off hp).2
  same := by
    rintro k src off src' off' ⟨p, hp, hk⟩ ⟨q, hq, hk'⟩
    obtain ⟨hSp, hsp⟩ := h p src off hp
    obtain ⟨hSq, hsq⟩ := h q src' off' hq
    have hpath : filePath (H.sum src) = filePath (H.sum src') := by
      rw [hsp, hsq]
      exact hk.trans hk'.symm
    exact hS hSp hSq ((filePath_eq_iff H (H.sum_alg _)).mp hpath)

/-- **The state of the file objects while copies are in flight.** -/
structure CopyInv (H : HashFunction) (σ : AddState) : Prop where
  /-- An object nobody is copying to has the digest it is stored under. -/
  settled : ∀ h b, h.alg = H.alg → σ.store (filePath h) = some b →
    (∀ src off, ¬ σ.Writer (filePath h) src off) → H.sum b = h
  /-- An object someone is copying to is covered up to the offset of one of those
  who are, unless it is complete. -/
  growing : ∀ k src off, σ.Writer k src off → ∃ b, σ.store k = some b ∧
    b.length ≤ src.length ∧ (b = src ∨ ∃ off', σ.Writer k src off' ∧ Covered b src off')

section Copies

variable {H : HashFunction} {σ τ : AddState}

/-- The invariant is about the file objects and the copies in flight only. -/
theorem CopyInv.congr (hi : CopyInv H σ) (hst : ∀ h, τ.store (filePath h) = σ.store (filePath h))
    (hw : ∀ k src off, τ.Writer k src off ↔ σ.Writer k src off) : CopyInv H τ := by
  refine ⟨fun h b ha hb hn => ?_, fun k src off hk => ?_⟩
  · refine hi.settled h b ha (by rwa [← hst]) fun src off hwr => hn src off ((hw _ _ _).mpr hwr)
  · obtain ⟨b, hb, hlen, hcov⟩ := hi.growing _ src off ((hw _ _ _).mp hk)
    obtain ⟨p, -, rfl⟩ := hk
    refine ⟨b, (hst _).trans hb, hlen, hcov.imp id ?_⟩
    rintro ⟨off', hwr, hc⟩
    exact ⟨off', (hw _ _ _).mpr hwr, hc⟩

/-- The state after the job at `p` has taken a step. -/
def AddState.stepJob (σ : AddState) (p : Bytes) (st : Store) (h : Digest) (j : Job) : AddState :=
  { σ with store := st, hash := σ.hash.set p h, job := Function.update σ.job p j }

/-- Another job than the one at `p` is copying. -/
def AddState.Other (σ : AddState) (p k src : Bytes) (off : ℕ) : Prop :=
  ∃ q, q ≠ p ∧ σ.job q = .copying src off ∧ σ.object q = k

theorem AddState.Other.writer {p k src : Bytes} {off : ℕ} (h : σ.Other p k src off) :
    σ.Writer k src off := by
  obtain ⟨q, -, hq⟩ := h
  exact ⟨q, hq⟩

/-- Who is copying: the job at `p`, or another. -/
theorem writer_iff (p : Bytes) {k src : Bytes} {off : ℕ} :
    σ.Writer k src off ↔
      (σ.job p = .copying src off ∧ σ.object p = k) ∨ σ.Other p k src off := by
  constructor
  · rintro ⟨q, hq⟩
    by_cases hqp : q = p
    · exact Or.inl (hqp ▸ hq)
    · exact Or.inr ⟨q, hqp, hq⟩
  · rintro (hp | ho)
    · exact ⟨p, hp⟩
    · exact ho.writer

/-- **Who is copying after a step of the job at `p`**: those who were, and `p` if
it is copying now. -/
theorem writer_stepJob {p : Bytes} {st : Store} {h : Digest} {j : Job} {k src : Bytes} {off : ℕ} :
    (σ.stepJob p st h j).Writer k src off ↔
      (j = .copying src off ∧ filePath h = k) ∨ σ.Other p k src off := by
  rw [writer_iff p]
  refine or_congr ?_ (exists_congr fun q => and_congr_right fun hqp => ?_)
  · simp [AddState.stepJob, AddState.object]
  · simp only [AddState.stepJob, AddState.object, Function.update_of_ne hqp, σ.hash.set_of_ne hqp]

/-- A job that was not copying and is not copying leaves the copies as they are. -/
theorem writer_stepJob_of_not_copying {p : Bytes} {st : Store} {h : Digest} {j : Job}
    (hj : (σ.job p).isCopying = false) (hj' : j.isCopying = false) (k src : Bytes) (off : ℕ) :
    (σ.stepJob p st h j).Writer k src off ↔ σ.Writer k src off := by
  rw [writer_stepJob, writer_iff p]
  refine or_congr ⟨?_, ?_⟩ Iff.rfl
  · rintro ⟨rfl, -⟩
    cases hj'
  · rintro ⟨hp, -⟩
    rw [hp] at hj
    cases hj

/-- What is to be at the path of a file object: what has its digest. -/
def HasDigest (H : HashFunction) (k b : Bytes) : Prop :=
  ∀ h : Digest, h.alg = H.alg → filePath h = k → H.sum b = h

theorem copyInv_iff : CopyInv H σ ↔ Copying (HasDigest H) σ.store σ.Writer := by
  constructor
  · intro hi
    refine ⟨fun k b hb hn h ha hk => ?_, hi.growing⟩
    subst hk
    exact hi.settled h b ha hb hn
  · intro hi
    exact ⟨fun h b ha hb hn => hi.settled _ b hb hn h ha rfl, hi.growing⟩

/-- A copy that has the digest of its inode is what is to be there. -/
theorem hasDigest_of_sum {src : Bytes} {h : Digest} (hsum : H.sum src = h) :
    HasDigest H (filePath h) src := by
  intro h' ha hk
  subst hsum
  exact ((filePath_eq_iff H ha).mp hk).symm

/-- **A step of a job keeps the invariant of the copies**, unless it tears one. -/
theorem CopyInv.job (hi : CopyInv H σ) (hσ : HonestCopies H σ) {read : Bytes → Prop} {p : Bytes}
    {st : Store} {h : Digest} {j : Job}
    (hs : JobStep H read (σ.store, σ.hash p, σ.job p) (st, h, j))
    (hτ : HonestCopies H (σ.stepJob p st h j)) : j = .torn ∨ CopyInv H (σ.stepJob p st h j) := by
  have hbefore : σ.Writer = (σ.job p).beside (σ.hash p) (σ.Other p) := by
    funext k src off
    exact propext (writer_iff p)
  have hafter : (σ.stepJob p st h j).Writer = j.beside h (σ.Other p) := by
    funext k src off
    exact propext writer_stepJob
  have hcopy : Copying (HasDigest H) σ.store ((σ.job p).beside (σ.hash p) (σ.Other p)) := by
    rw [← hbefore]
    exact copyInv_iff.mp hi
  have hsame : Uniform (j.beside h (σ.Other p)) := by
    rw [← hafter]
    exact hτ.same
  refine (hcopy.jobStep hs (fun src off hp => hasDigest_of_sum (hσ.sum p src off hp)) hsame).imp id
    fun hcopy' => copyInv_iff.mpr ?_
  rw [hafter]
  exact hcopy'

variable {L : Index} {calls : AddCalls} {st₀ : Store} {hs₀ : Hashes}

variable {C : Store → List Inode → List Bytes → Prop}

/-- Once the calling thread makes tree objects, nobody is copying. -/
theorem AddCore.not_copying (hi : AddCore C H L calls hs₀ σ)
    (hdone : ∀ i ∈ L.inodes, i.isFile = true → σ.job i.path = .done) (p : Bytes) :
    (σ.job p).isCopying = false := by
  cases hj : σ.job p with
  | copying src off =>
    obtain ⟨i, hil, hf, rfl⟩ := hi.jobs_file p (by simp [hj])
    rw [hdone i hil hf] at hj
    cases hj
  | _ => rfl

theorem AddInv.core (hi : AddInv H L calls st₀ hs₀ σ) :
    AddCore (CollectedAlone st₀ hs₀) H L calls hs₀ σ :=
  (addInv_iff.mp hi).2

theorem AddInv.not_copying (hi : AddInv H L calls st₀ hs₀ σ)
    (hdone : ∀ i ∈ L.inodes, i.isFile = true → σ.job i.path = .done) (p : Bytes) :
    (σ.job p).isCopying = false :=
  hi.core.not_copying hdone p

theorem not_writer (h : ∀ p, (σ.job p).isCopying = false) (k src : Bytes) (off : ℕ) :
    ¬ σ.Writer k src off := by
  rintro ⟨p, hp, -⟩
  have hc := h p
  rw [hp] at hc
  cases hc

/-- The file whose job is enqueued had none. -/
theorem AddCore.absent_of_enqueue (hi : AddCore C H L calls hs₀ σ) {i : Inode} {todo : List Inode}
    {dirs : List Bytes} (hmain : σ.main = .scanning (i :: todo) dirs) (hfile : i.isFile = true) :
    σ.job i.path = .absent := by
  have hm := hi.main
  rw [hmain] at hm
  exact hm.2.1 i (by simp) hfile

/-- **What a step of an add does to the copies**: a job takes one, or they go on and no file object
is touched. -/
theorem AddCore.copies_cases (hi : AddCore C H L calls hs₀ σ) (hs : AddStep H L calls σ τ) :
    (∃ p st h j, JobStep H (calls.reads p) (σ.store, σ.hash p, σ.job p) (st, h, j) ∧
      τ = σ.stepJob p st h j) ∨
    (∀ d, τ.store (filePath d) = σ.store (filePath d)) ∧
      (∀ p, τ.job p = .torn ↔ σ.job p = .torn) ∧ (∀ p, σ.job p = .torn → τ.hash p = σ.hash p) ∧
      ∀ k src off, τ.Writer k src off ↔ σ.Writer k src off := by
  have hm := hi.main
  cases hs with
  | @job p st h j hs => exact Or.inl ⟨p, st, h, j, hs, rfl⟩
  | @enqueue i todo dirs hmain hfile =>
    have hab := hi.absent_of_enqueue hmain hfile
    refine Or.inr ⟨fun _ => rfl, fun p => ?_, fun _ _ => rfl, fun k src off => ?_⟩
    · by_cases hp : p = i.path
      · subst hp
        simp [hab]
      · simp [Function.update_of_ne hp]
    · have h := @writer_stepJob_of_not_copying σ i.path σ.store (σ.hash i.path) .queued
        (by rw [hab]; rfl) rfl k src off
      simpa [AddState.Writer, AddState.stepJob, AddState.object, Hashes.set] using h
  | @hashTree p tmp todo hmain =>
    rw [hmain] at hm
    have hn := hi.not_copying hm.1
    refine Or.inr ⟨fun _ => rfl, fun _ => Iff.rfl, fun q hq => ?_, fun k src off =>
      iff_of_false (not_writer (by exact hn) k src off) (not_writer hn k src off)⟩
    -- when the trees are made, all jobs are done
    obtain ⟨i, hil, hf, rfl⟩ := hi.jobs_file q (by simp [hq])
    rw [hm.1 i hil hf] at hq
    cases hq
  | @publish p tmp todo hmain hobj =>
    exact Or.inr ⟨fun d => σ.store.put_of_ne (filePath_ne_treePath d (σ.hash p)) _,
      fun _ => Iff.rfl, fun _ _ => rfl, fun _ _ _ => Iff.rfl⟩
  | _ => exact Or.inr ⟨fun _ => rfl, fun _ => Iff.rfl, fun _ _ => rfl, fun _ _ _ => Iff.rfl⟩

/-- A torn copy stays torn, and its object is the same. -/
theorem AddCore.torn_step (hi : AddCore C H L calls hs₀ σ) (hs : AddStep H L calls σ τ)
    {p : Bytes} (hp : σ.job p = .torn) : τ.job p = .torn ∧ τ.object p = σ.object p := by
  rcases hi.copies_cases hs with ⟨q, st, h, j, hjob, rfl⟩ | ⟨-, htorn, hhash, -⟩
  · have hne : p ≠ q := fun he => by
      have hn := hjob.not_finished
      rw [← he, hp] at hn
      cases hn
    refine ⟨(Function.update_of_ne hne _ _).trans hp, ?_⟩
    exact congrArg filePath (σ.hash.set_of_ne hne h)
  · exact ⟨(htorn p).mpr hp, congrArg filePath (hhash p hp)⟩

/-- **A step of an add keeps the invariant of the copies**, unless a copy is torn. -/
theorem CopyInv.step (hadd : AddInv H L calls st₀ hs₀ σ) (hi : σ.Torn ∨ CopyInv H σ)
    (hσ : HonestCopies H σ) (hτ : HonestCopies H τ) (hs : AddStep H L calls σ τ) :
    τ.Torn ∨ CopyInv H τ := by
  rcases hi with ⟨p, hp⟩ | hi
  · exact Or.inl ⟨p, (hadd.core.torn_step hs hp).1⟩
  rcases hadd.core.copies_cases hs with ⟨p, st, h, j, hjob, rfl⟩ | ⟨hst, -, -, hw⟩
  · refine (hi.job hσ hjob hτ).imp (fun hj => ⟨p, ?_⟩) id
    rw [← hj]
    exact Function.update_self _ _ _
  · exact Or.inr (hi.congr hst hw)

/-- An add begins with nobody copying. -/
theorem copyInv_start (h : FilesAddressed H st₀) : CopyInv H (AddState.start L st₀ hs₀) where
  settled d b ha hb _ := h d b ha hb
  growing _ _ _ hw := by
    obtain ⟨p, hp, -⟩ := hw
    cases hp

theorem honestCopies_start : HonestCopies H (AddState.start L st₀ hs₀) where
  sum _ _ _ hp := by cases hp
  same _ _ _ _ _ hw := by
    obtain ⟨p, hp, -⟩ := hw
    cases hp

/-- **Trees are always content-addressed**: what is renamed to the path of a tree
object is the temporary file that was digested. -/
theorem TreesAddressed.step (hadd : AddCore C H L calls hs₀ σ) (hi : TreesAddressed H σ.store)
    (hs : AddStep H L calls σ τ) : TreesAddressed H τ.store := by
  have hm := hadd.main
  cases hs with
  | job hs => exact fun d b ha hb => hi d b ha ((hs.treePath_eq d).symm.trans hb)
  | @publish p tmp todo hmain hobj =>
    rw [hmain] at hm
    obtain ⟨-, ⟨-, hsum⟩, -⟩ := hm
    change TreesAddressed H (σ.store.put (treePath (σ.hash p)) tmp)
    rw [hsum]
    exact hi.put tmp
  | _ => exact hi

theorem treesAddressed_of_run
    (hrun : Transition.Reaches (AddStep H L calls) (AddState.start L st₀ hs₀) σ)
    (hst : TreesAddressed H st₀) : TreesAddressed H σ.store := by
  have hstep : ∀ u v, AddInv H L calls st₀ hs₀ u ∧ TreesAddressed H u.store →
      AddStep H L calls u v → AddInv H L calls st₀ hs₀ v ∧ TreesAddressed H v.store :=
    fun _ _ hi hs => ⟨hi.1.step hs, TreesAddressed.step hi.1.core hi.2 hs⟩
  exact (hrun.invariant ⟨addInv_start, hst⟩ hstep).2

/-- What holds throughout a run with honest copies. -/
structure CopyRunInv (H : HashFunction) (L : Index) (calls : AddCalls) (st₀ : Store)
    (hs₀ : Hashes) (σ : AddState) : Prop where
  add : AddInv H L calls st₀ hs₀ σ
  honest : HonestCopies H σ
  copies : σ.Torn ∨ CopyInv H σ
  trees : TreesAddressed H σ.store

theorem copyRunInv_of_run
    (hrun : Transition.Reaches (fun σ τ => AddStep H L calls σ τ ∧ HonestCopies H τ)
      (AddState.start L st₀ hs₀) σ)
    (hst : ContentAddressed H st₀) : CopyRunInv H L calls st₀ hs₀ σ :=
  hrun.invariant ⟨addInv_start, honestCopies_start, Or.inr (copyInv_start hst.files), hst.trees⟩
    fun _ _ hi hs => ⟨hi.add.step hs.1, hs.2, CopyInv.step hi.add hi.copies hi.honest hs.2 hs.1,
      TreesAddressed.step hi.add.core hi.trees hs.1⟩

/-- **A run of an add keeps the store content-addressed**: as soon as every state
has honest copies, and in the last no copy is torn or in flight. -/
theorem contentAddressed_of_run
    (hrun : Transition.Reaches (fun σ τ => AddStep H L calls σ τ ∧ HonestCopies H τ)
      (AddState.start L st₀ hs₀) σ)
    (hst : ContentAddressed H st₀)
    (hclean : ∀ p, σ.job p ≠ .torn ∧ (σ.job p).isCopying = false) :
    ContentAddressed H σ.store := by
  have hinv := copyRunInv_of_run hrun hst
  refine ⟨fun h b ha hb => ?_, hinv.trees⟩
  rcases hinv.copies with ⟨p, hp⟩ | hc
  · exact absurd hp (hclean p).1
  · exact hc.settled h b ha hb fun src off => not_writer (fun p => (hclean p).2) _ _ _

end Copies

end Fstree
