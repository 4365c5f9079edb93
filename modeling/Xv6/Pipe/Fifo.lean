import Xv6.Pipe.Step
import Xv6.Core.Ring

/-!
# A pipe is a FIFO byte stream

The two 32-bit counters are the lengths of the two histories modulo 2^32, and
`Ring` relates the cells of `data[]` to the history of the inserted bytes.

* `pipe_fifo`: in every reachable state the ring holds at most `PIPESIZE`
  bytes, the inserted bytes are the removed ones followed by those in the
  ring, a `pipewrite` has inserted a prefix of its buffer, of the length it
  returns, and `piperead` leaves its wait loop with an empty ring only if the
  write end is closed.
-/
namespace Xv6.Pipe
open Function (update update_self update_of_ne)

theorem Pc.knows_of_outside {pi : Pipe} {c : Pc} (h : c.inside = false) : c.knows pi := by
  cases c <;> trivial

section
variable {n : Nat} {s s' t : Sys n} {p q : Fin n} {k c : Pc} {l : Lbl n}

/-! ## The lock -/

structure LockInv (s : Sys n) : Prop where
  holder : ∀ p, (s.pc p).inside = true ↔ s.lock = some p
  knows : ∀ p, (s.pc p).knows s.pipe

section
variable (h : LockInv s)
include h

theorem LockInv.alone (hp : (s.pc p).inside = true) (hq : q ≠ p) : (s.pc q).inside = false := by
  cases hin : (s.pc q).inside with
  | false => rfl
  | true =>
    have e := ((h.holder q).1 hin).symm.trans ((h.holder p).1 hp)
    exact absurd (Option.some.inj e) hq

theorem LockInv.out_of_free (hfree : s.lock = none) (q : Fin n) : (s.pc q).inside = false := by
  cases hin : (s.pc q).inside with
  | false => rfl
  | true => exact absurd ((h.holder q).1 hin) (by simp [hfree])

theorem LockInv.holder_step (hlock : LockStep s s' p c) (hpc : s'.pc = update s.pc p c) (q : Fin n) :
    (s'.pc q).inside = true ↔ s'.lock = some q := by
  rw [hpc]
  by_cases hq : q = p
  · subst hq
    rw [update_self]
    cases hlock with
    | stay was is lock | out was is lock => rw [lock, is, ← h.holder q, was]
    | leave _ is lock | enter _ is _ lock => simp [lock, is]
  · rw [update_of_ne hq]
    cases hlock with
    | stay _ _ lock | out _ _ lock => rw [lock]; exact h.holder q
    | leave was is lock => simp [lock, h.alone was hq]
    | enter was is free lock => simp [lock, h.out_of_free free q, Ne.symm hq]

/-- What `q` knows stays true, because without the lock nobody changes the pipe. -/
theorem LockInv.knows_other (hlock : LockStep s s' p c) (hq : q ≠ p) : (s.pc q).knows s'.pipe := by
  cases hlock with
  | stay was | leave was => exact Pc.knows_of_outside (h.alone was hq)
  | enter was is free lock => exact Pc.knows_of_outside (h.out_of_free free q)
  | out was is lock pipe => rw [pipe]; exact h.knows q

theorem lockInv_step (hs : step s l = some t) : LockInv t := by
  rcases step_did hs with ⟨p, k, c, hd⟩ | ⟨ha, -⟩
  · refine ⟨h.holder_step hd.lock hd.pc, fun q => ?_⟩
    rw [hd.pc]
    by_cases hq : q = p
    · subst hq
      rw [update_self]
      exact hd.knows (hd.was ▸ h.knows q)
    · rw [update_of_ne hq]
      exact h.knows_other hd.lock hq
  · exact ⟨fun p => by rw [ha.pc, ha.lock]; exact h.holder p,
      fun p => by rw [ha.pc, ha.pipe]; exact h.knows p⟩

end

theorem Init.lockInv (h : Init s) : LockInv s :=
  ⟨fun p => by rw [h.pc, h.lock]; simp [Pc.inside], fun p => by rw [h.pc]; trivial⟩

/-! ## The ring -/

/-- The inserted bytes, without the calls they came from. -/
def bytes (s : Sys n) : List UInt8 := s.inserted.map Prod.snd

structure RingInv (s : Sys n) : Prop where
  ring : Ring PIPESIZE s.pipe.data (bytes s) s.removed.length
  removed : s.removed = (bytes s).take s.removed.length
  nwrite : s.pipe.nwrite = UInt32.ofNat (bytes s).length
  nread : s.pipe.nread = UInt32.ofNat s.removed.length

theorem ofNat_mod (k : Nat) : (UInt32.ofNat k).toNat % PIPESIZE = k % PIPESIZE := by
  rw [UInt32.toNat_ofNat']
  exact Nat.mod_mod_of_dvd k (by decide)

theorem RingInv.room (h : RingInv s) (hroom : ¬s.pipe.full) :
    (bytes s).length < s.removed.length + PIPESIZE := by
  have hle := h.ring.room
  refine Nat.lt_of_le_of_ne hle fun e => hroom ?_
  unfold full
  rw [h.nwrite, h.nread, e, UInt32.ofNat_add]
  rfl

theorem RingInv.data (h : RingInv s) (hdata : ¬s.pipe.empty) : s.removed.length < (bytes s).length := by
  have hle := h.ring.le
  refine Nat.lt_of_le_of_ne hle fun e => hdata ?_
  unfold empty
  rw [h.nwrite, h.nread, e]

theorem RingInv.next_eq (h : RingInv s) (hlt : s.removed.length < (bytes s).length) :
    s.pipe.next = (bytes s)[s.removed.length] := by
  unfold next
  rw [h.nread, ofNat_mod]
  exact h.ring.cell _ hlt (Nat.le_refl _)

theorem RingInv.of_quiet (h : RingInv s) (hq : Quiet s s') : RingInv s' := by
  have hb : bytes s' = bytes s := by unfold bytes; rw [hq.inserted]
  exact ⟨by rw [hq.data, hb, hq.removed]; exact h.ring, by rw [hb, hq.removed]; exact h.removed,
    by rw [hq.nwrite, hb]; exact h.nwrite, by rw [hq.nread, hq.removed]; exact h.nread⟩

variable {ch : UInt8} {id i : Nat} {buf : Nat → Option UInt8} {w : Write}

theorem RingInv.put (h : RingInv s) (hroom : ¬s.pipe.full)
    (hpipe : s'.pipe = s.pipe.put ch) (hi : s'.inserted = s.inserted ++ [(id, ch)])
    (hr : s'.removed = s.removed) : RingInv s' := by
  have hb : bytes s' = bytes s ++ [ch] := by unfold bytes; rw [hi, List.map_append]; rfl
  have hle := h.ring.le
  refine ⟨?_, ?_, ?_, ?_⟩
  · rw [hpipe, hb, hr]
    unfold Pipe.put
    rw [h.nwrite, ofNat_mod]
    exact h.ring.push (h.room hroom) ch
  · rw [hb, hr, List.take_append_of_le_length hle]
    exact h.removed
  · rw [hpipe, hb, List.length_append, List.length_singleton, UInt32.ofNat_add]
    unfold Pipe.put
    rw [h.nwrite]
    rfl
  · rw [hpipe, hr]
    exact h.nread

theorem RingInv.take (h : RingInv s) (hdata : ¬s.pipe.empty)
    (hpipe : s'.pipe = { s.pipe with nread := s.pipe.nread + 1 }) (hi : s'.inserted = s.inserted)
    (hr : s'.removed = s.removed ++ [s.pipe.next]) : RingInv s' := by
  have hb : bytes s' = bytes s := by unfold bytes; rw [hi]
  have hlt := h.data hdata
  have hlen : s'.removed.length = s.removed.length +
      1 := by rw [hr, List.length_append, List.length_singleton]
  refine ⟨?_, ?_, ?_, ?_⟩
  · rw [hpipe, hb, hlen]
    exact h.ring.pop hlt
  · rw [hb, hlen, hr, h.next_eq hlt, List.take_succ_eq_append_getElem hlt, ← h.removed]
  · rw [hpipe, hb]
    exact h.nwrite
  · rw [hpipe, hlen, UInt32.ofNat_add, ← h.nread]
    rfl

theorem ringInv_step (h : RingInv s) (hs : step s l = some t) : RingInv t := by
  rcases step_did hs with ⟨p, k, c, hd⟩ | ⟨ha, -⟩
  · cases hd.effect with
    | same quiet | called _ quiet | ret _ _ quiet => exact h.of_quiet quiet
    | put w ch was call room byte pipe inserted removed => exact h.put room pipe inserted removed
    | take data call pipe inserted removed => exact h.take data pipe inserted removed
  · exact h.of_quiet ⟨by rw [ha.pipe], by rw [ha.pipe], by rw [ha.pipe], ha.inserted, ha.removed⟩

theorem Init.ringInv (h : Init s) : RingInv s := by
  have hb : bytes s = [] := by unfold bytes; rw [h.inserted]; rfl
  have hr := h.removed
  refine ⟨?_, ?_, ?_, ?_⟩
  · rw [hb, hr]; exact .empty _ _
  · rw [hb, hr]; rfl
  · rw [hb, h.nwrite]; rfl
  · rw [hr, h.nread]; rfl

/-- How many bytes the counters say there are. -/
theorem RingInv.count (h : RingInv s) :
    (s.pipe.nwrite - s.pipe.nread).toNat = (bytes s).length - s.removed.length := by
  have hle := h.ring.le
  have hroom := h.ring.room
  unfold PIPESIZE at hroom
  rw [h.nwrite, h.nread, UInt32.toNat_sub, UInt32.toNat_ofNat', UInt32.toNat_ofNat']
  omega

theorem RingInv.held_eq (h : RingInv s) : s.pipe.held = (bytes s).drop s.removed.length := by
  have hmod : ∀ k, (s.pipe.nread.toNat + k) % PIPESIZE = (s.removed.length + k) % PIPESIZE := fun k => by
    rw [h.nread, Nat.add_mod, ofNat_mod, ← Nat.add_mod]
  unfold held
  refine List.ext_getElem (by simp [h.count]) fun k hk hk' => ?_
  rw [List.length_drop] at hk'
  simp only [List.getElem_map, List.getElem_range, List.getElem_drop, hmod]
  exact h.ring.cell _ (by omega) (by omega)

/-! ## The calls -/

/-- The bytes that the call `id` has inserted. -/
def bytesOf (s : Sys n) (id : Nat) : List UInt8 := (s.inserted.filter fun e => e.1 = id).map Prod.snd

/-- The call `id` has inserted the first `i` bytes of `buf`. -/
def Sent (s : Sys n) (id : Nat) (buf : Nat → Option UInt8) (i : Nat) : Prop :=
  (bytesOf s id).map some = (List.range i).map buf

structure CallInv (s : Sys n) : Prop where
  sent : ∀ p w, (s.pc p).call = some w → w.id < s.calls ∧ Sent s w.id w.buf w.i
  distinct : ∀ p q w v, (s.pc p).call = some w → (s.pc q).call = some v → w.id = v.id → p = q
  ended : ∀ d ∈ s.returned, d.id < s.calls ∧ (∀ p w, (s.pc p).call = some w → w.id ≠ d.id) ∧
    ∃ i, Sent s d.id d.buf i ∧ (d.ret ≠ -1 → d.ret = i)
  known : ∀ e ∈ s.inserted, e.1 < s.calls

/-- Every call is one that was there, or a new one of `p`; a history that grows does so for one call. -/
theorem CallInv.step (h : CallInv s) (p : Fin n) (hcalls : s.calls ≤ t.calls)
    (hids : ∀ q u, (t.pc q).call = some u →
      (∃ v, (s.pc q).call = some v ∧ v.id = u.id) ∨ q = p ∧ u.id = s.calls ∧ s.calls < t.calls)
    (hsent : ∀ q u, (t.pc q).call = some u → Sent t u.id u.buf u.i)
    (hended : ∀ d ∈ t.returned, (d ∈ s.returned ∧ ∀ i, Sent s d.id d.buf i → Sent t d.id d.buf i) ∨
      d.id < s.calls ∧ (∀ q u, (t.pc q).call = some u → u.id ≠ d.id) ∧ ∃ i, Sent t d.id d.buf i ∧
      (d.ret ≠ -1 → d.ret = i))
    (hknown : ∀ e ∈ t.inserted, e ∈ s.inserted ∨ e.1 < s.calls) : CallInv t := by
  refine ⟨fun q u hu => ⟨?_, hsent q u hu⟩, fun q1 q2 u v hu hv e => ?_, fun d hd => ?_, fun e he => ?_⟩
  · rcases hids q u hu with ⟨v, hv, e⟩ | ⟨-, e, hlt⟩
    · have := (h.sent q v hv).1
      omega
    · omega
  · rcases hids q1 u hu with ⟨u', hu', e1⟩ | ⟨rfl, e1, -⟩ <;> rcases hids q2 v hv with ⟨v',
      hv', e2⟩ | ⟨rfl, e2, -⟩
    · exact h.distinct q1 q2 u' v' hu' hv' (by rw [e1, e2, e])
    · have := (h.sent q1 u' hu').1
      omega
    · have := (h.sent q2 v' hv').1
      omega
    · rfl
  · rcases hended d hd with ⟨hd, hkeep⟩ | ⟨hlt, hne, hi⟩
    · obtain ⟨hlt, hne, i, hi, hret⟩ := h.ended d hd
      refine ⟨by omega, fun q u hu => ?_, i, hkeep i hi, hret⟩
      rcases hids q u hu with ⟨v, hv, e⟩ | ⟨-, e, -⟩
      · exact e ▸ hne q v hv
      · omega
    · exact ⟨by omega, hne, hi⟩
  · rcases hknown e he with he | he
    · have := h.known e he
      omega
    · omega

theorem Sent.congr (h : Sent s id buf i) (hi : t.inserted = s.inserted) :
    Sent t id buf i := by
  unfold Sent bytesOf at *
  rw [hi]
  exact h

theorem Sent.put_other {id' : Nat} (h : Sent s id buf i)
    (hi : t.inserted = s.inserted ++ [(id', ch)]) (hne : id ≠ id') : Sent t id buf i := by
  unfold Sent bytesOf at *
  simpa [hi, List.filter_append, Ne.symm hne] using h

theorem Sent.put (h : Sent s id buf i)
    (hi : t.inserted = s.inserted ++ [(id, ch)]) (hch : buf i = some ch) : Sent t id buf (i + 1) := by
  unfold Sent bytesOf at *
  rw [hi, List.filter_append, List.map_append, List.map_append, h, List.range_succ, List.map_append]
  simp [hch]

/-- The call of each process, after a step of `p` to `c`. -/
theorem call_update (hpc : t.pc = update s.pc p c) (hq : (t.pc q).call = some w) :
    q = p ∧ c.call = some w ∨ q ≠ p ∧ (s.pc q).call = some w := by
  rw [hpc] at hq
  by_cases e : q = p
  · exact .inl ⟨e, by simpa [e] using hq⟩
  · exact .inr ⟨e, by simpa [e] using hq⟩

/-- A step that inserts nothing, in or out of the call of `p`. -/
theorem CallInv.keep (h : CallInv s) (hpc : t.pc = update s.pc p c)
    (hcall : ∀ w, c.call = some w → ∃ v, (s.pc p).call = some v ∧ v.id = w.id ∧ v.buf = w.buf ∧ v.i = w.i)
    (hi : t.inserted = s.inserted) (hc : t.calls = s.calls)
    (hr : ∀ d ∈ t.returned, d ∈ s.returned ∨ c.call = none ∧ ∃ w, (s.pc p).call = some w ∧
    d.id = w.id ∧ d.buf = w.buf ∧
      (d.ret ≠ -1 → d.ret = w.i)) : CallInv t := by
  have hold : ∀ q w, (t.pc q).call = some w → ∃ v, (s.pc q).call = some v ∧ v.id = w.id ∧
      v.buf = w.buf ∧ v.i = w.i := by
    intro q w hw
    rcases call_update hpc hw with ⟨rfl, hw⟩ | ⟨-, hw⟩
    · exact hcall w hw
    · exact ⟨w, hw, rfl, rfl, rfl⟩
  refine h.step p (Nat.le_of_eq hc.symm) (fun q u hu => ?_) (fun q u hu => ?_) (fun d hd => ?_)
    fun e he => .inl (hi ▸ he)
  · obtain ⟨v, hv, e, -⟩ := hold q u hu
    exact .inl ⟨v, hv, e⟩
  · obtain ⟨v, hv, e1, e2, e3⟩ := hold q u hu
    exact e1 ▸ e2 ▸ e3 ▸ (h.sent q v hv).2.congr hi
  · rcases hr d hd with hd | ⟨hnone, w, hw, e1, e2, hret⟩
    · exact .inl ⟨hd, fun i hs => hs.congr hi⟩
    · obtain ⟨hlt, hs⟩ := h.sent p w hw
      refine .inr ⟨e1 ▸ hlt, fun q u hu e => ?_, w.i, e1 ▸ e2 ▸ hs.congr hi, hret⟩
      -- only `p` was in this call, and it has left it
      obtain ⟨v, hv, e', -⟩ := hold q u hu
      obtain rfl := h.distinct q p v w hv hw (by rw [e', e, e1])
      rcases call_update hpc hu with ⟨-, hu⟩ | ⟨hne, -⟩
      · rw [hnone] at hu; cases hu
      · exact hne rfl

theorem same_call (h : SameCall c k) (w : Write) (hw : c.call = some w) :
    ∃ v, k.call = some v ∧ v.id = w.id ∧ v.buf = w.buf ∧ v.i = w.i := by
  unfold SameCall at h
  rw [hw] at h
  obtain ⟨v, hv, e⟩ := Option.map_eq_some_iff.1 h.symm
  simp only [Prod.mk.injEq] at e
  exact ⟨v, hv, e⟩

theorem CallInv.called (h : CallInv s) (hpc : t.pc = update s.pc p c) (hcall : c.call = some w)
    (hid : w.id = s.calls) (h0 : w.i = 0) (hi : t.inserted = s.inserted) (hc : t.calls = s.calls + 1)
    (hr : t.returned = s.returned) : CallInv t := by
  have hfresh : bytesOf s s.calls = [] := by
    unfold bytesOf
    rw [List.filter_eq_nil_iff.2, List.map_nil]
    intro e he
    have := h.known e he
    simp only [decide_eq_true_eq]
    omega
  refine h.step p (by omega) (fun q u hu => ?_) (fun q u hu => ?_)
    (fun d hd => .inl ⟨hr ▸ hd, fun i hs => hs.congr hi⟩) fun e he => .inl (hi ▸ he)
  · rcases call_update hpc hu with ⟨rfl, hu⟩ | ⟨-, hu⟩
    · cases hcall.symm.trans hu
      exact .inr ⟨rfl, hid, by omega⟩
    · exact .inl ⟨u, hu, rfl⟩
  · rcases call_update hpc hu with ⟨rfl, hu⟩ | ⟨-, hu⟩
    · cases hcall.symm.trans hu
      have : Sent s w.id w.buf w.i := by
        unfold Sent
        rw [hid, hfresh, h0]
        rfl
      exact this.congr hi
    · exact (h.sent q u hu).2.congr hi

theorem CallInv.put (h : CallInv s) (hpc : t.pc = update s.pc p c)
    (hwas : (s.pc p).call = some w) (hcall : c.call = some { w with i := w.i + 1 })
    (hch : w.buf w.i = some ch) (hi : t.inserted = s.inserted ++ [(w.id, ch)]) (hc : t.calls = s.calls)
    (hr : t.returned = s.returned) : CallInv t := by
  obtain ⟨hlt, hsent⟩ := h.sent p w hwas
  refine h.step p (Nat.le_of_eq hc.symm) (fun q u hu => ?_) (fun q u hu => ?_) (fun d hd => ?_) fun e he => ?_
  · rcases call_update hpc hu with ⟨rfl, hu⟩ | ⟨-, hu⟩
    · cases hcall.symm.trans hu
      exact .inl ⟨w, hwas, rfl⟩
    · exact .inl ⟨u, hu, rfl⟩
  · rcases call_update hpc hu with ⟨rfl, hu⟩ | ⟨hq, hu⟩
    · cases hcall.symm.trans hu
      exact hsent.put hi hch
    · exact (h.sent q u hu).2.put_other hi fun e => hq (h.distinct q p u w hu hwas e)
  · have hd := hr ▸ hd
    exact .inl ⟨hd, fun i hs => hs.put_other hi (Ne.symm ((h.ended d hd).2.1 p w hwas))⟩
  · rw [hi, List.mem_append, List.mem_singleton] at he
    exact he.imp id fun e => by rw [e]; exact hlt

theorem callInv_step (h : CallInv s) (hs : step s l = some t) : CallInv t := by
  rcases step_did hs with ⟨p, k, c, hd⟩ | ⟨ha, -⟩
  · cases hd.effect with
    | same quiet call calls returned =>
      exact h.keep hd.pc (same_call call) quiet.inserted calls fun d hd => .inl (returned ▸ hd)
    | called w quiet call id i calls returned => exact h.called hd.pc call id i quiet.inserted calls returned
    | put w ch was call room byte pipe inserted removed calls returned =>
      exact h.put hd.pc was call byte inserted calls returned
    | take data call pipe inserted removed calls returned =>
      exact h.keep hd.pc (same_call call) inserted calls fun d hd => .inl (returned ▸ hd)
    | ret w v quiet was call val calls returned =>
      refine h.keep hd.pc (fun w hw => by rw [call] at hw; cases hw) quiet.inserted calls fun d hd => ?_
      rw [returned, List.mem_cons] at hd
      exact hd.symm.imp id fun e => ⟨call, w, was, by rw [e]; exact ⟨rfl, rfl, val⟩⟩
  · obtain ⟨hsent, hdist, hended, hknown⟩ := h
    refine ⟨?_, ?_, ?_, ?_⟩
    all_goals simp only [Sent, bytesOf, ha.pc, ha.inserted, ha.calls, ha.returned]
    · exact hsent
    · exact hdist
    · exact hended
    · exact hknown

theorem Init.callInv (h : Init s) : CallInv s := by
  have hnone : ∀ p, (s.pc p).call = none := fun p => by rw [h.pc]; rfl
  refine ⟨fun p w hw => ?_, fun p q w v hw => ?_, fun d hd => ?_, fun e he => ?_⟩
  · rw [hnone] at hw; cases hw
  · rw [hnone] at hw; cases hw
  · rw [h.returned] at hd; cases hd
  · rw [h.inserted] at he; cases he

/-! ## The stream -/

structure FifoInv (s : Sys n) : Prop where
  lock : LockInv s
  ring : RingInv s
  call : CallInv s

theorem fifoInv_inductive : (lts n).Inductive FifoInv where
  init _ h := ⟨h.lockInv, h.ringInv, h.callInv⟩
  step _ _ _ h hs := ⟨lockInv_step h.lock hs, ringInv_step h.ring hs, callInv_step h.call hs⟩

/-- The call `id` has inserted `len` bytes, which are the first bytes of `buf`. -/
def Wrote (s : Sys n) (id : Nat) (buf : Nat → Option UInt8) (len : Nat) : Prop :=
  (bytesOf s id).length = len ∧ ∀ k (h : k < (bytesOf s id).length), buf k = some (bytesOf s id)[k]

theorem Sent.wrote (h : Sent s id buf i) : Wrote s id buf i := by
  have hlen : (bytesOf s id).length = i := by
    have := congrArg List.length h
    simpa using this
  refine ⟨hlen, fun k hk => ?_⟩
  have e := congrArg (fun l => l[k]?) h
  simp only [List.getElem?_map, List.getElem?_eq_getElem hk, List.getElem?_range (hlen ▸ hk), Option.map_some,
    Option.some.injEq] at e
  exact e.symm

theorem pipe_fifo (hs : (lts n).Reachable s) :
    (s.pipe.nwrite - s.pipe.nread).toNat ≤ PIPESIZE ∧
    bytes s = s.removed ++ s.pipe.held ∧
    (∀ p w, (s.pc p).call = some w → Wrote s w.id w.buf w.i) ∧
    (∀ d ∈ s.returned, ∃ len, Wrote s d.id d.buf len ∧ (d.ret ≠ -1 → d.ret = len)) ∧
    ∀ p r, s.pc p = .reading r → r.i = 0 → s.pipe.empty → s.pipe.writeopen = false := by
  have h := fifoInv_inductive.reachable hs
  refine ⟨?_, ?_, fun p w hw => (h.call.sent p w hw).2.wrote, fun d hd => ?_, fun p r hp => ?_⟩
  · rw [h.ring.count]
    have := h.ring.ring.room
    omega
  · rw [h.ring.held_eq]
    conv => rhs; lhs; rw [h.ring.removed]
    exact (List.take_append_drop ..).symm
  · obtain ⟨_, _, i, hsent, hret⟩ := h.call.ended d hd
    exact ⟨i, hsent.wrote, hret⟩
  · have := h.lock.knows p
    rw [hp] at this
    exact this

/-- A new pipe. -/
def boot (n : Nat) : Sys n :=
  ⟨⟨fun _ => 0, 0, 0, true, true⟩, false, none, fun _ => none, fun _ => false, fun _ => .idle, [], [], 0, []⟩

theorem boot_init (n : Nat) : Init (boot n) :=
  ⟨rfl, rfl, rfl, rfl, rfl, rfl, fun _ => rfl, fun _ => rfl, rfl, rfl, rfl, rfl⟩

/-- A run of the step function from a new pipe. -/
theorem reachable_of_foldlM {ls : List (Lbl n)} (h : ls.foldlM step (boot n) = some s) :
    (lts n).Reachable s :=
  ⟨boot n, ls, boot_init n, LTS.Run.of_foldlM (fun _ _ _ h => h) h⟩

/-- Process 0 writes two bytes and process 1 reads one of them. -/
def writeTwo : List (Lbl 2) :=
  [.pipewrite 0 (fun i => some (65 + i.toUInt8)) 2, .piperead 1 1] ++ List.replicate 7 (.go 0 true) ++
    List.replicate 3 (.go 1 true)

theorem pipe_fifo_writeTwo : ∃ s, (lts 2).Reachable s ∧ s.removed = [65] ∧ s.pipe.held = [66] ∧
    (s.pipe.nwrite - s.pipe.nread).toNat ≤ PIPESIZE ∧ bytes s = s.removed ++ s.pipe.held := by
  have hrun : (writeTwo.foldlM step (boot 2)).map
      (fun s => (s.removed, s.pipe.held)) = some ([65], [66]) := by
    decide +kernel
  obtain ⟨s, hs, e⟩ := Option.map_eq_some_iff.1 hrun
  simp only [Prod.mk.injEq] at e
  have hr := reachable_of_foldlM hs
  have h := pipe_fifo hr
  exact ⟨s, hr, e.1, e.2, h.1, h.2.1⟩

end
end Xv6.Pipe
