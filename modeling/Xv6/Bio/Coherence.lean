import Xv6.Bio.List
import Xv6.Core.Count

/-!
# Coherence of the buffer cache

`CacheInv`: `refcnt` counts the references, a valid buffer has the contents
of its block, and a block that is in no buffer, or in one that may be
recycled, has them on the disk. It holds in runs in which modified data is
written before its buffer may be recycled (`Writes`) and in which references
are counted as they should be (`Counts`).

* `cache_coherent`: the list, the uniqueness and the choice of the victim in
  every run, and what `bread` returns in those runs.
* `stale_read`: without `Counts`, a `bunpin` that undoes no `bpin` loses an
  update.
-/
namespace Xv6.Bio
open Function (update update_self update_of_ne)

section
variable {m n : Nat} {D : Type}

/-- The buffer has nothing that the disk has not. -/
def Clean (s : Sys m n D) (b : Fin n) : Prop :=
  (s.buf b).valid = true → (s.buf b).data = s.disk (s.buf b).blockno

/-- Who modifies a buffer writes it before `brelse`, or keeps it pinned until it is written. -/
def Writes (s : Sys m n D) : Lbl m n D → Prop
  | .brelse p b => (s.buf b).lock = some p → Clean s b ∨ 0 < s.pins b
  | .bunpin _ b => (s.buf b).lock = none → Clean s b ∨ 1 < s.pins b
  | _ => True

/-- Every `bunpin` undoes a `bpin`, and no `refcnt` overflows. -/
def Counts (s : Sys m n D) : Lbl m n D → Prop
  | .bread _ k => ∀ b, (s.buf b).dev = ROOTDEV → (s.buf b).blockno = k → (s.buf b).refcnt.toNat + 1 < 2 ^ 32
  | .bpin _ b => (s.buf b).refcnt.toNat + 1 < 2 ^ 32
  | .bunpin _ b => 0 < s.pins b
  | _ => True

/-! ## References -/

/-- A process without the lock that has a reference to `b`. -/
def Pc.refers (b : Fin n) : Pc n → Bool
  | .lock b' _ | .drop b' => b' = b
  | _ => false

/-- The references that processes have to `b`. -/
def holders (s : Sys m n D) (b : Fin n) : Nat := (s.buf b).lock.isSome.toNat + count (Pc.refers b) s.pc

structure CacheInv (s : Sys m n D) : Prop where
  list : ListInv s
  refs : ∀ b, (s.buf b).refcnt.toNat = s.pins b + holders s b
  waits : ∀ p b k, s.pc p = .lock b k → (s.buf b).dev = ROOTDEV ∧ (s.buf b).blockno = k
  fills : ∀ p b k, s.pc p = .fill b k →
    (s.buf b).dev = ROOTDEV ∧ (s.buf b).blockno = k ∧ (s.buf b).lock = some p
  held : ∀ b p, (s.buf b).lock = some p → (s.buf b).valid = true ∨ ∃ k, s.pc p = .fill b k
  root : ∀ b, (s.buf b).valid = true → (s.buf b).dev = ROOTDEV
  data : ∀ b, (s.buf b).valid = true → (s.buf b).data = s.content (s.buf b).blockno
  clean : ∀ b, (s.buf b).lock = none → s.pins b = 0 → Clean s b
  gone : ∀ k, (∀ b, (s.buf b).valid = true → (s.buf b).blockno ≠ k) → s.disk k = s.content k

variable {s s' : Sys m n D} {p : Fin m} {b : Fin n} {k : UInt32}

/-- Nobody has a reference to a buffer with `refcnt` 0. -/
theorem CacheInv.unused (h : CacheInv s) (hb : (s.buf b).refcnt = 0) :
    s.pins b = 0 ∧ (s.buf b).lock = none ∧ ∀ p, (s.pc p).refers b = false := by
  have hr := h.refs b
  rw [hb, UInt32.toNat_zero] at hr
  unfold holders at hr
  refine ⟨by omega, ?_, count_eq_zero.1 (by omega)⟩
  cases hl : (s.buf b).lock with
  | none => rfl
  | some p =>
    simp only [hl, Option.isSome_some, Bool.toNat_true] at hr
    omega

/-- A buffer with an idle holder is valid. -/
theorem CacheInv.valid (h : CacheInv s) (hp : s.pc p = .idle) (hb : (s.buf b).lock = some p) :
    (s.buf b).valid = true := by
  rcases h.held b p hb with hv | ⟨k, e⟩
  · exact hv
  · rw [hp] at e; cases e

/-- A valid buffer is the only one of its block. -/
theorem CacheInv.only (h : CacheInv s) {b' : Fin n} (hb : (s.buf b).dev = ROOTDEV)
    (hv : (s.buf b').valid = true) (hk : (s.buf b').blockno = (s.buf b).blockno) : b' = b :=
  h.list.unique b' b (h.root b' hv) hb hk

/-! ## Steps that move references only -/

theorem toNat_succ {x : UInt32} (h : x.toNat + 1 < 2 ^ 32) : (x + 1).toNat = x.toNat + 1 := by
  rw [UInt32.toNat_add, show (1 : UInt32).toNat = 1 from rfl]
  exact Nat.mod_eq_of_lt h

theorem toNat_pred {x : UInt32} (h : 1 ≤ x.toNat) : (x - 1).toNat = x.toNat - 1 :=
  UInt32.toNat_sub_of_le x 1 h

/-- Process `p` goes on at `c`; the references to `b`, its lock and its pins change, the contents do not. -/
structure Transfers (s s' : Sys m n D) (p : Fin m) (b : Fin n) (c : Pc n) (r : UInt32) (lk : Option (Fin m))
    (pn : Nat) : Prop where
  buf : s'.buf = update s.buf b { s.buf b with refcnt := r, lock := lk }
  pc : s'.pc = update s.pc p c
  pins : s'.pins = update s.pins b pn
  disk : s'.disk = s.disk
  content : s'.content = s.content

section transfer
variable {c : Pc n} {r : UInt32} {lk : Option (Fin m)} {pn : Nat}

section
variable (ht : Transfers s s' p b c r lk pn)
include ht

theorem Transfers.at :
    s'.buf b = { s.buf b with refcnt := r, lock := lk } ∧ s'.pins b = pn := by
  rw [ht.buf, ht.pins, update_self, update_self]
  exact ⟨rfl, rfl⟩

theorem Transfers.other {b' : Fin n} (e : b' ≠ b) :
    s'.buf b' = s.buf b' ∧ s'.pins b' = s.pins b' := by
  rw [ht.buf, ht.pins, update_of_ne e, update_of_ne e]
  exact ⟨rfl, rfl⟩

/-- The contents of a buffer and its name stay. -/
theorem Transfers.same (b' : Fin n) :
    (s'.buf b').valid = (s.buf b').valid ∧ (s'.buf b').dev = (s.buf b').dev ∧
      (s'.buf b').blockno = (s.buf b').blockno ∧ (s'.buf b').data = (s.buf b').data := by
  by_cases e : b' = b
  · subst e; rw [ht.at.1]; exact ⟨rfl, rfl, rfl, rfl⟩
  · rw [(ht.other e).1]; exact ⟨rfl, rfl, rfl, rfl⟩

variable (h : CacheInv s)
  (hr : r.toNat + s.pins b + (s.buf b).lock.isSome.toNat + ((s.pc p).refers b).toNat =
    (s.buf b).refcnt.toNat + pn + lk.isSome.toNat + (c.refers b).toNat)
  (hother : ∀ b' ≠ b, c.refers b' = (s.pc p).refers b')
include h hr hother

theorem Transfers.refs (b' : Fin n) : (s'.buf b').refcnt.toNat = s'.pins b' + holders s' b' := by
  have hcount := count_update (Pc.refers b') s.pc p c
  have hb := h.refs b'
  unfold holders at hb ⊢
  rw [ht.pc]
  by_cases e : b' = b
  · subst e
    rw [ht.at.1, ht.at.2]
    show r.toNat = pn + (lk.isSome.toNat + _)
    omega
  · rw [(ht.other e).1, (ht.other e).2]
    rw [hother b' e] at hcount
    omega

/-- A step of a process that is not reading from the disk. -/
theorem CacheInv.transfer (hlist : ListInv s') (hp : ∀ b' k, s.pc p ≠ .fill b' k)
    (hwait : ∀ b' k, c = .lock b' k → (s.buf b').dev = ROOTDEV ∧ (s.buf b').blockno = k)
    (hfill : ∀ b' k, c = .fill b' k →
      b' = b ∧ (s.buf b').dev = ROOTDEV ∧ (s.buf b').blockno = k ∧ lk = some p)
    (hkeep : ∀ q k, s.pc q = .fill b k → lk = some q)
    (hheld : ∀ q, lk = some q → (s.buf b).valid = true ∨ (s.buf b).lock = some q ∨ ∃ k, q = p ∧ c = .fill b k)
    (hclean : lk = none → pn = 0 → Clean s b) : CacheInv s' := by
  have hpc : ∀ q, q ≠ p → s'.pc q = s.pc q := fun q e => by rw [ht.pc, update_of_ne e]
  have hself : s'.pc p = c := by rw [ht.pc, update_self]
  refine ⟨hlist, ht.refs h hr hother, fun q b' k hq => ?_, fun q b' k hq => ?_,
    fun b' q hb => ?_, fun b' => ?_, fun b' => ?_, fun b' hl hpin => ?_, fun k => ?_⟩
  · rw [(ht.same b').2.1, (ht.same b').2.2.1]
    by_cases e : q = p
    · subst e; exact hwait b' k (hself.symm.trans hq)
    · exact h.waits q b' k ((hpc q e).symm.trans hq)
  · rw [(ht.same b').2.1, (ht.same b').2.2.1]
    by_cases e : q = p
    · subst e
      obtain ⟨rfl, hd, hk, hlk⟩ := hfill b' k (hself.symm.trans hq)
      exact ⟨hd, hk, by rw [ht.at.1]; exact hlk⟩
    · have hq' := (hpc q e).symm.trans hq
      obtain ⟨hd, hk, hl⟩ := h.fills q b' k hq'
      refine ⟨hd, hk, ?_⟩
      by_cases eb : b' = b
      · subst eb; rw [ht.at.1]; exact hkeep q k hq'
      · rw [(ht.other eb).1]; exact hl
  · rw [(ht.same b').1]
    -- who was filling before this step still is
    have hstill : (s.buf b').lock = some q → (s.buf b').valid = true ∨
        ∃ k, s'.pc q = .fill b' k := fun hl => by
      refine (h.held b' q hl).imp_right fun ⟨k, hq⟩ => ⟨k, ?_⟩
      rw [hpc q (by rintro rfl; exact hp b' k hq), hq]
    by_cases eb : b' = b
    · subst eb
      rw [ht.at.1] at hb
      rcases hheld q hb with hv | hl | ⟨k, rfl, hc⟩
      · exact .inl hv
      · exact hstill hl
      · exact .inr ⟨k, hself.trans hc⟩
    · rw [(ht.other eb).1] at hb
      exact hstill hb
  · rw [(ht.same b').1, (ht.same b').2.1]; exact h.root b'
  · rw [(ht.same b').1, (ht.same b').2.2.1, (ht.same b').2.2.2, ht.content]; exact h.data b'
  · unfold Clean
    rw [(ht.same b').1, (ht.same b').2.2.1, (ht.same b').2.2.2, ht.disk]
    by_cases eb : b' = b
    · subst eb
      rw [ht.at.1] at hl
      rw [ht.at.2] at hpin
      exact hclean hl hpin
    · rw [(ht.other eb).1] at hl
      rw [(ht.other eb).2] at hpin
      exact h.clean b' hl hpin
  · rw [ht.disk, ht.content]
    intro hk
    refine h.gone k fun b' hv => ?_
    have := hk b'
    rw [(ht.same b').1, (ht.same b').2.2.1] at this
    exact this hv

end

end transfer

theorem refers_idle (b : Fin n) : (Pc.idle : Pc n).refers b = false := rfl
theorem refers_fill (b b' : Fin n) (k : UInt32) : (Pc.fill b' k).refers b = false := rfl
theorem refers_lock (b b' : Fin n) (k : UInt32) : (Pc.lock b' k).refers b = decide (b' = b) := rfl
theorem refers_drop (b b' : Fin n) : (Pc.drop b').refers b = decide (b' = b) := rfl

section
variable (h : CacheInv s) (hlist : ListInv s')
include h hlist

/-- `bread` finds the block in `b`. -/
theorem CacheInv.hit (hp : s.pc p = .idle) (hd : (s.buf b).dev = ROOTDEV)
    (hk : (s.buf b).blockno = k) (hc : (s.buf b).refcnt.toNat + 1 < 2 ^ 32)
    (e : s' = { s with
      buf := update s.buf b { s.buf b with refcnt := (s.buf b).refcnt + 1 }
      pc := update s.pc p (.lock b k) }) : CacheInv s' := by
  subst e
  refine .transfer ⟨rfl, rfl, (Function.update_eq_self ..).symm, rfl, rfl⟩ h ?_ (fun b' e => ?_) hlist
    (by rw [hp]; simp) ?_ (by simp) ?_ (fun q hq => .inr (.inl hq)) ?_
  · rw [toNat_succ hc, hp, refers_idle, refers_lock]
    simp
    omega
  · rw [hp, refers_idle, refers_lock]
    simp [Ne.symm e]
  · rintro b' k' ⟨⟩
    exact ⟨hd, hk⟩
  · exact fun q k' hq => (h.fills q b k' hq).2.2
  · exact fun hl hpin => h.clean b hl hpin

/-- `acquiresleep` -/
theorem CacheInv.lock (hp : s.pc p = .lock b k) (hfree : (s.buf b).lock = none)
    (e : s' = { s with
      buf := update s.buf b { s.buf b with lock := some p }
      pc := update s.pc p (.fill b k) }) : CacheInv s' := by
  subst e
  obtain ⟨hd, hk⟩ := h.waits p b k hp
  refine .transfer ⟨rfl, rfl, (Function.update_eq_self ..).symm, rfl, rfl⟩ h ?_ (fun b' e => ?_) hlist
    (by rw [hp]; simp) (by simp) ?_ ?_ ?_ (by simp)
  · rw [hp, hfree, refers_lock, refers_fill]
    simp
  · rw [hp, refers_lock, refers_fill]
    simp [Ne.symm e]
  · rintro b' k' ⟨⟩
    exact ⟨rfl, hd, hk, rfl⟩
  · intro q k' hq
    have := (h.fills q b k' hq).2.2
    rw [hfree] at this
    cases this
  · rintro q ⟨⟩
    exact .inr (.inr ⟨k, rfl, rfl⟩)

/-- `releasesleep` in `brelse` -/
theorem CacheInv.brelse (hp : s.pc p = .idle) (hl : (s.buf b).lock = some p)
    (hw : Clean s b ∨ 0 < s.pins b)
    (e : s' = { s with
      buf := update s.buf b { s.buf b with lock := none }
      pc := update s.pc p (.drop b) }) : CacheInv s' := by
  subst e
  refine .transfer ⟨rfl, rfl, (Function.update_eq_self ..).symm, rfl, rfl⟩ h ?_ (fun b' e => ?_) hlist
    (by rw [hp]; simp) (by simp) (by simp) ?_ (by simp) ?_
  · rw [hp, hl, refers_drop, refers_idle]
    simp
  · rw [hp, refers_drop, refers_idle]
    simp [Ne.symm e]
  · intro q k' hq
    have := (h.fills q b k' hq).2.2
    rw [hl] at this
    cases this
    rw [hp] at hq
    cases hq
  · intro _ hpin
    exact hw.resolve_right (Nat.not_lt.2 (Nat.le_of_eq hpin))

/-- The rest of `brelse` -/
theorem CacheInv.drop (hp : s.pc p = .drop b)
    (e : s' = Bio.drop s p b) : CacheInv s' := by
  have ht : Transfers s s' p b .idle ((s.buf b).refcnt - 1) (s.buf b).lock (s.pins b) := by
    obtain ⟨hbuf, hpc, hdisk, hcontent, hpins⟩ := drop_fields s p b
    subst e
    exact ⟨hbuf, hpc, by rw [hpins, Function.update_eq_self], hdisk, hcontent⟩
  have hpos : 1 ≤ (s.buf b).refcnt.toNat := by
    have hcount := count_update (Pc.refers b) s.pc p .idle
    have hr := h.refs b
    unfold holders at hr
    rw [hp, refers_idle, refers_drop] at hcount
    simp at hcount
    omega
  refine .transfer ht h ?_ (fun b' e => ?_) hlist (by rw [hp]; simp) (by simp) (by simp) ?_
    (fun q hq => .inr (.inl hq)) ?_
  · rw [toNat_pred hpos, hp, refers_idle, refers_drop]
    simp
    omega
  · rw [hp, refers_idle, refers_drop]
    simp [Ne.symm e]
  · exact fun q k' hq => (h.fills q b k' hq).2.2
  · exact fun hl hpin => h.clean b hl hpin

/-- `bpin` and `bunpin` -/
theorem CacheInv.pin (hp : s.pc p = .idle) (r : UInt32) (pn : Nat)
    (hr : r.toNat + s.pins b = (s.buf b).refcnt.toNat + pn)
    (hclean : (s.buf b).lock = none → pn = 0 → Clean s b) (e : s' = { s with
      buf := update s.buf b { s.buf b with refcnt := r }
      pins := update s.pins b pn }) : CacheInv s' := by
  have ht : Transfers s s' p b .idle r (s.buf b).lock pn := by
    subst e
    refine ⟨rfl, ?_, rfl, rfl, rfl⟩
    show s.pc = _
    rw [← hp, Function.update_eq_self]
  refine .transfer ht h ?_ (fun b' e => ?_) hlist (by rw [hp]; simp) (by simp) (by simp) ?_
    (fun q hq => .inr (.inl hq)) hclean
  · rw [hp]
    omega
  · rw [hp]
  · exact fun q k' hq => (h.fills q b k' hq).2.2

end

/-! ## Steps that change contents -/

theorem update_valid (hv : (s.buf b).valid = true) :
    update s.buf b { s.buf b with data := (s.buf b).data, valid := true } = s.buf := by
  rw [← hv]
  exact Function.update_eq_self ..

section
variable (h : CacheInv s)
include h

section
variable (hlist : ListInv s')
include hlist

/-- `bget` recycles `b`: nobody has a reference to it, and the disk has its contents. -/
theorem CacheInv.recycle (hp : s.pc p = .idle) (hb : (s.buf b).refcnt = 0)
    (e : s' = { s with
      buf := update s.buf b { s.buf b with dev := ROOTDEV, blockno := k, valid := false, refcnt := 1 }
      pc := update s.pc p (.lock b k) }) : CacheInv s' := by
  obtain ⟨hpins, hlock, hrefs⟩ := h.unused hb
  have hself : s'.buf b = { s.buf b with dev := ROOTDEV, blockno := k, valid := false, refcnt := 1 } := by
    rw [e]; exact update_self ..
  have hother : ∀ b' ≠ b, s'.buf b' = s.buf b' := fun b' eb => by rw [e]; exact update_of_ne eb _ _
  have hpc : ∀ q, q ≠ p → s'.pc q = s.pc q := fun q eq => by rw [e]; exact update_of_ne eq _ _
  have hpp : s'.pc p = .lock b k := by rw [e]; exact update_self ..
  have hpins' : s'.pins = s.pins := by rw [e]
  have hdisk : s'.disk = s.disk := by rw [e]
  have hcontent : s'.content = s.content := by rw [e]
  have hvalid : ∀ b', (s'.buf b').valid = true → s'.buf b' = s.buf b' := fun b' hv => by
    refine hother b' ?_
    rintro rfl
    rw [hself] at hv
    cases hv
  refine ⟨hlist, fun b' => ?_, fun q b' k' hq => ?_, fun q b' k' hq => ?_, fun b' q hl => ?_, fun b' hv => ?_,
    fun b' hv => ?_, fun b' hl hpin hv => ?_, fun k' hk' => ?_⟩
  · have hcount := count_update (Pc.refers b') s.pc p (.lock b k)
    have hr := h.refs b'
    unfold holders at hr ⊢
    rw [hp, refers_idle, refers_lock] at hcount
    rw [hpins', show s'.pc = update s.pc p (.lock b k) by rw [e]]
    by_cases eb : b' = b
    · subst eb
      rw [hself]
      rw [hb, hpins, hlock] at hr
      rw [hpins]
      simp at hr hcount ⊢
      rw [hlock]
      simp
      omega
    · rw [hother b' eb]
      simp [Ne.symm eb] at hcount
      omega
  · by_cases eq : q = p
    · subst eq
      rw [hpp] at hq
      cases hq
      rw [hself]
      exact ⟨rfl, rfl⟩
    · rw [hpc q eq] at hq
      have eb : b' ≠ b := by
        rintro rfl
        have := hrefs q
        rw [hq, refers_lock] at this
        simp at this
      rw [hother b' eb]
      exact h.waits q b' k' hq
  · have eq : q ≠ p := by
      rintro rfl
      rw [hpp] at hq
      cases hq
    rw [hpc q eq] at hq
    have hf := h.fills q b' k' hq
    have eb : b' ≠ b := by
      rintro rfl
      rw [hlock] at hf
      cases hf.2.2
    rw [hother b' eb]
    exact hf
  · have eb : b' ≠ b := by
      rintro rfl
      rw [hself] at hl
      have hl : (s.buf b').lock = some q := hl
      rw [hlock] at hl
      cases hl
    rw [hother b' eb] at hl ⊢
    refine (h.held b' q hl).imp_right fun ⟨k', hq⟩ => ⟨k', ?_⟩
    rw [hpc q (by rintro rfl; rw [hp] at hq; cases hq), hq]
  · have e := hvalid b' hv
    rw [e] at hv ⊢
    exact h.root b' hv
  · have e := hvalid b' hv
    rw [e] at hv ⊢
    rw [hcontent]
    exact h.data b' hv
  · have e := hvalid b' hv
    rw [e] at hl hv ⊢
    rw [hdisk]
    exact h.clean b' hl (hpins' ▸ hpin) hv
  · rw [hdisk, hcontent]
    by_cases hv : (s.buf b).valid = true ∧ (s.buf b).blockno = k'
    · -- the block that leaves the cache
      rw [← hv.2, ← h.clean b hlock hpins hv.1, h.data b hv.1]
    · refine h.gone k' fun b' hv' => ?_
      by_cases eb : b' = b
      · subst eb
        exact fun ek => hv ⟨hv', ek⟩
      · have := hk' b'
        rw [hother b' eb] at this
        exact this hv'

/-- The holder of a buffer gives it the contents of its block, and nobody else's block changes. -/
theorem CacheInv.holder {d : D} (hl : (s.buf b).lock = some p) (hd : (s.buf b).dev = ROOTDEV)
    (hbuf : s'.buf = update s.buf b { s.buf b with data := d, valid := true }) (hpins : s'.pins = s.pins)
    (hpc : ∀ q, s'.pc q = s.pc q ∨ ∃ k, s.pc q = .fill b k ∧ s'.pc q = .idle)
    (hdata : d = s'.content (s.buf b).blockno)
    (hrest : ∀ k, k ≠ (s.buf b).blockno → s'.content k = s.content k ∧ s'.disk k = s.disk k) :
    CacheInv s' := by
  have hself : s'.buf b = { s.buf b with data := d, valid := true } := by rw [hbuf, update_self]
  have hother : ∀ b' ≠ b, s'.buf b' = s.buf b' := fun b' eb => by rw [hbuf, update_of_ne eb]
  have hsame : ∀ b', (s'.buf b').dev = (s.buf b').dev ∧ (s'.buf b').blockno = (s.buf b').blockno ∧
      (s'.buf b').refcnt = (s.buf b').refcnt ∧ (s'.buf b').lock = (s.buf b').lock := fun b' => by
    by_cases eb : b' = b
    · subst eb; rw [hself]; exact ⟨rfl, rfl, rfl, rfl⟩
    · rw [hother b' eb]; exact ⟨rfl, rfl, rfl, rfl⟩
  have hrefers : ∀ b q, (s'.pc q).refers b = (s.pc q).refers b := fun b q => by
    rcases hpc q with e | ⟨k, e1, e2⟩
    · rw [e]
    · rw [e1, e2]; rfl
  -- another valid buffer is that of another block
  have hvalid : ∀ b', (s'.buf b').valid = true → b' = b ∨
      b' ≠ b ∧ (s.buf b').valid = true ∧ (s.buf b').blockno ≠ (s.buf b).blockno := fun b' hv => by
    by_cases eb : b' = b
    · exact .inl eb
    · rw [hother b' eb] at hv
      exact .inr ⟨eb, hv, fun ek => eb (h.only hd hv ek)⟩
  refine ⟨hlist, fun b' => ?_, fun q b' k hq => ?_, fun q b' k hq => ?_, fun b' q hq => ?_,
    fun b' hv => ?_, fun b' hv => ?_, fun b' hl' hpin hv => ?_, fun k hk => ?_⟩
  · unfold holders
    rw [(hsame b').2.2.1, (hsame b').2.2.2, hpins, count_congr (hrefers b')]
    exact h.refs b'
  · rw [(hsame b').1, (hsame b').2.1]
    rcases hpc q with e | ⟨k', _, e⟩
    · exact h.waits q b' k (e.symm.trans hq)
    · cases hq.symm.trans e
  · rw [(hsame b').1, (hsame b').2.1, (hsame b').2.2.2]
    rcases hpc q with e | ⟨k', _, e⟩
    · exact h.fills q b' k (e.symm.trans hq)
    · cases hq.symm.trans e
  · by_cases eb : b' = b
    · subst eb; rw [hself]; exact .inl rfl
    · rw [hother b' eb] at hq ⊢
      refine (h.held b' q hq).imp_right fun ⟨k, e⟩ => ⟨k, ?_⟩
      rcases hpc q with e' | ⟨k', e', _⟩
      · exact e'.trans e
      · cases e.symm.trans e'
        exact absurd rfl eb
  · rw [(hsame b').1]
    rcases hvalid b' hv with rfl | ⟨_, hv, _⟩
    · exact hd
    · exact h.root b' hv
  · rcases hvalid b' hv with rfl | ⟨eb, hv, ek⟩
    · rw [hself]; exact hdata
    · rw [hother b' eb, (hrest _ ek).1]; exact h.data b' hv
  · rw [(hsame b').2.2.2] at hl'
    rcases hvalid b' hv with rfl | ⟨eb, hv, ek⟩
    · cases hl.symm.trans hl'
    · rw [hother b' eb, (hrest _ ek).2]; exact h.clean b' hl' (hpins ▸ hpin) hv
  · have ek : k ≠ (s.buf b).blockno := fun ek => hk b (by rw [hself]) (by rw [hself]; exact ek.symm)
    rw [(hrest k ek).1, (hrest k ek).2]
    refine h.gone k fun b' hv => ?_
    by_cases eb : b' = b
    · rw [eb]; exact Ne.symm ek
    · have := hk b'
      rw [hother b' eb] at this
      exact this hv

/-- `bread` reads the block, unless the buffer is valid. -/
theorem CacheInv.fill (hp : s.pc p = .fill b k) (e : s' = Bio.fill s p b) : CacheInv s' := by
  obtain ⟨hd, hk, hl⟩ := h.fills p b k hp
  have hpc : ∀ q, s'.pc q = s.pc q ∨ ∃ k, s.pc q = .fill b k ∧ s'.pc q = .idle := fun q => by
    rw [e]
    by_cases eq : q = p
    · subst eq
      exact .inr ⟨k, hp, update_self ..⟩
    · exact .inl (update_of_ne eq _ _)
  have hrest : s'.pins = s.pins ∧ s'.content = s.content ∧
      s'.disk = s.disk := by rw [e]; exact ⟨rfl, rfl, rfl⟩
  obtain ⟨hpins, hcontent, hdisk⟩ := hrest
  by_cases hv : (s.buf b).valid = true
  · refine h.holder hlist hl hd (d := (s.buf b).data) ?_ hpins hpc ?_
      fun k' _ => ⟨by rw [hcontent], by rw [hdisk]⟩
    · rw [update_valid hv, e]
      exact if_pos hv
    · rw [hcontent]
      exact h.data b hv
  · refine h.holder hlist hl hd (d := s.disk (s.buf b).blockno) ?_ hpins hpc ?_
      fun k' _ => ⟨by rw [hcontent], by rw [hdisk]⟩
    · rw [e]
      exact if_neg hv
    · -- no other buffer has the block, so the disk has its contents
      rw [hcontent]
      exact h.gone _ fun b' hv' hk' => hv (h.only hd hv' hk' ▸ hv')

/-- The holder of a buffer changes its data. -/
theorem CacheInv.modify (hp : s.pc p = .idle) (hl : (s.buf b).lock = some p) {d : D}
    (e : s' = Bio.modify s b d) : CacheInv s' := by
  have hv := h.valid hp hl
  subst e
  refine h.holder hlist hl (h.root b hv) (d := d) ?_ rfl (fun _ => .inl rfl) ?_
    fun k' ek => ⟨update_of_ne ek _ _, rfl⟩
  · rw [← hv]
    rfl
  · exact (update_self (s.buf b).blockno d s.content).symm

/-- The holder of a buffer writes it to the disk. -/
theorem CacheInv.bwrite (hp : s.pc p = .idle) (hl : (s.buf b).lock = some p)
    (e : s' = { s with disk := update s.disk (s.buf b).blockno (s.buf b).data }) : CacheInv s' := by
  have hv := h.valid hp hl
  subst e
  exact h.holder hlist hl (h.root b hv) (update_valid hv).symm rfl (fun _ => .inl rfl) (h.data b hv)
    fun k' ek => ⟨rfl, update_of_ne ek _ _⟩

end

/-- A panic stops the machine as it is. -/
theorem CacheInv.panic (e : Panic) : CacheInv { s with panic := some e } :=
  { h with list := h.list.same rfl rfl rfl fun _ => ⟨rfl, rfl⟩ }

theorem cacheInv_step {l : Lbl m n D} (hw : Writes s l) (hc : Counts s l)
    (hs : step s l = some s') : CacheInv s' := by
  have hlist := listInv_step h.list hs
  cases (step_fires h.list hs).2 with
  | bread p k s' idle get =>
    cases get with
    | hit b dev blockno eq => exact h.hit hlist idle dev blockno (hc b dev blockno) eq
    | recycle b miss oldest eq => exact h.recycle hlist idle oldest.unused eq
    | full all eq => subst eq; exact h.panic _
  | lock p b k pc free => exact h.lock hlist pc free rfl
  | fill p b k pc => exact h.fill hlist pc rfl
  | drop p b pc => exact h.drop hlist pc rfl
  | modify p b d idle held => exact h.modify hlist idle held rfl
  | bwrite p b idle =>
    unfold Bio.bwrite at hlist ⊢
    split
    · rename_i hl
      rw [if_pos hl] at hlist
      exact h.bwrite hlist idle hl rfl
    · exact h.panic _
  | brelse p b idle =>
    unfold Bio.brelse at hlist ⊢
    split
    · rename_i hl
      rw [if_pos hl] at hlist
      exact h.brelse hlist idle hl (hw hl) rfl
    · exact h.panic _
  | bpin p b idle =>
    refine h.pin hlist idle ((s.buf b).refcnt + 1) (s.pins b + 1) ?_ (by simp) rfl
    rw [toNat_succ hc]
    omega
  | bunpin p b idle =>
    have hpos : 0 < s.pins b := hc
    have hr := h.refs b
    refine h.pin hlist idle ((s.buf b).refcnt - 1) (s.pins b - 1) ?_ ?_ rfl
    · rw [toNat_pred (by omega)]
      omega
    · exact fun hl hpin => (hw hl).resolve_right (by omega)

end

theorem Init.cacheInv (h : Init s) : CacheInv s := by
  have hv : ∀ b, (s.buf b).valid ≠ true := fun b => by rw [h.valid]; simp
  refine ⟨h.listInv, fun b => ?_, fun p b k hp => ?_, fun p b k hp => ?_, fun b p hl => ?_,
    fun b hb => absurd hb (hv b),
    fun b hb => absurd hb (hv b), fun b _ _ hb => absurd hb (hv b), fun k _ => by rw [h.content]⟩
  · unfold holders
    rw [h.refcnt, h.pins, h.lock, count_eq_zero.2 fun p => by rw [h.pc]; rfl]
    rfl
  · rw [h.pc] at hp; cases hp
  · rw [h.pc] at hp; cases hp
  · rw [h.lock] at hl; cases hl

theorem cacheInv_inductive : ((lts m n D).only fun s l => Writes s l ∧ Counts s l).Inductive CacheInv :=
  ⟨fun _ h => h.cacheInv, fun _ _ _ h hs => cacheInv_step h hs.2.1 hs.2.2 hs.1⟩

/-! ## The results -/

/-- What a call of `bread` for block `k` returns to `p`. -/
structure Returns (s s' : Sys m n D) (p : Fin m) (b : Fin n) (k : UInt32) : Prop where
  lock : (s'.buf b).lock = some p
  dev : (s'.buf b).dev = ROOTDEV
  blockno : (s'.buf b).blockno = k
  /-- what the last holder left -/
  data : (s'.buf b).data = s.content k
  /-- if the block was not cached, the contents of the disk -/
  disk : (s.buf b).valid = false → (s'.buf b).data = s.disk k

theorem CacheInv.returns (h : CacheInv s) (h' : CacheInv s') (hp : s.pc p = .fill b k)
    (hs : step s (.go p) = some s') : Returns s s' p b k := by
  have e : Bio.fill s p b = s' := by
    unfold step at hs
    split at hs
    · simp only [go, hp] at hs
      exact Option.some.inj hs
    · cases hs
  obtain ⟨hd, hk, hl⟩ := h.fills p b k hp
  have hbuf : s'.buf b = if (s.buf b).valid then s.buf b
      else { s.buf b with data := s.disk (s.buf b).blockno, valid := true } := by
    rw [← e]
    unfold Bio.fill
    simp only
    split
    · rfl
    · exact update_self ..
  have hname : (s'.buf b).lock = (s.buf b).lock ∧ (s'.buf b).dev = (s.buf b).dev ∧
      (s'.buf b).blockno = (s.buf b).blockno ∧ (s'.buf b).valid = true := by
    rw [hbuf]
    split
    · exact ⟨rfl, rfl, rfl, ‹_›⟩
    · exact ⟨rfl, rfl, rfl, rfl⟩
  obtain ⟨h1, h2, h3, hv⟩ := hname
  refine ⟨h1.trans hl, h2.trans hd, h3.trans hk, ?_, fun hinv => ?_⟩
  · rw [h'.data b hv, h3, hk, ← e]
    rfl
  · rw [hbuf, hinv, ← hk]
    rfl

/-- The list, the names and the choice of the victim are right in every run. Where moreover modified data is
written before its buffer may be recycled, every `bunpin` undoes a `bpin` and no `refcnt` overflows, `bread`
returns what the last holder left, or what the disk has. -/
theorem cache_coherent (m n : Nat) (D : Type) :
    (∀ s, (lts m n D).Reachable s →
      (∃ l, s.links.Linked l ∧ ∀ b, b ∈ l) ∧
      (∀ b b', (s.buf b).dev = ROOTDEV → (s.buf b').dev = ROOTDEV →
        (s.buf b).blockno = (s.buf b').blockno → b = b') ∧
      ∀ p k, s.panic = none → s.pc p = .idle → (∀ b, (s.buf b).dev = ROOTDEV → (s.buf b).blockno ≠ k) →
        ∃ s', step s (.bread p k) = some s' ∧
          ((∀ b, (s.buf b).refcnt ≠ 0) ∧ s'.panic = some .noBuffers ∨ ∃ b, Oldest s b ∧
            s'.pc p = .lock b k)) ∧
    ∀ s, ((lts m n D).only fun s l => Writes s l ∧ Counts s l).Reachable s → ∀ p b k s',
      s.pc p = .fill b k → step s (.go p) = some s' → Returns s s' p b k := by
  refine ⟨fun s hs => ?_, fun s hs p b k s' hp hstep => ?_⟩
  · have h := listInv_inductive.reachable hs
    obtain ⟨l, hl, hall, _⟩ := h.linked
    refine ⟨⟨l, hl, hall⟩, h.unique, fun p k hpanic hp hmiss => ?_⟩
    obtain ⟨s', hs', hget⟩ := bget_cases (p := p) (k := k) h
    refine ⟨s', by simp [step, hpanic, hp, hs'], ?_⟩
    cases hget with
    | hit b dev blockno eq => exact absurd blockno (hmiss b dev)
    | recycle b miss oldest eq => exact .inr ⟨b, oldest, by rw [eq]; exact update_self ..⟩
    | full all eq => exact .inl ⟨all, by rw [eq]⟩
  · have h := cacheInv_inductive.reachable hs
    exact h.returns (cacheInv_step (l := .go p) h trivial trivial hstep) hp hstep

/-- All buffers are zero, and the blocks of the disk too. -/
def boot (m n : Nat) : Sys m n Nat where
  buf _ := ⟨false, 0, 0, 0, none, 0⟩
  links := binit ⟨fun _ => none, fun _ => none⟩
  disk _ := 0
  pc _ := .idle
  panic := none
  pins _ := 0
  content _ := 0
  time := 0
  freed _ := 0

theorem boot_init (m n : Nat) : Init (boot m n) :=
  ⟨⟨_, rfl⟩, fun _ => rfl, fun _ => rfl, fun _ => rfl, fun _ => rfl, fun _ => rfl, rfl,
    fun _ => rfl, rfl, fun _ => rfl⟩

instance [DecidableEq D] (s : Sys m n D) (b : Fin n) : Decidable (Clean s b) := by
  unfold Clean
  infer_instance

instance [DecidableEq D] (s : Sys m n D) : (l : Lbl m n D) → Decidable (Writes s l)
  | .brelse p b => inferInstanceAs (Decidable ((s.buf b).lock = some p → Clean s b ∨ 0 < s.pins b))
  | .bunpin _ b => inferInstanceAs (Decidable ((s.buf b).lock = none → Clean s b ∨ 1 < s.pins b))
  | .bread .. | .go _ | .modify .. | .bwrite .. | .bpin .. => isTrue trivial

instance (s : Sys m n D) : (l : Lbl m n D) → Decidable (Counts s l)
  | .bread _ k => inferInstanceAs (Decidable (∀ b, (s.buf b).dev = ROOTDEV → (s.buf b).blockno = k →
      (s.buf b).refcnt.toNat + 1 < 2 ^ 32))
  | .bpin _ b => inferInstanceAs (Decidable ((s.buf b).refcnt.toNat + 1 < 2 ^ 32))
  | .bunpin _ b => inferInstanceAs (Decidable (0 < s.pins b))
  | .go _ | .modify .. | .bwrite .. | .brelse .. => isTrue trivial

/-- Steps that meet a condition. -/
def stepIf (P : Sys m n Nat → Lbl m n Nat → Prop) [∀ s l, Decidable (P s l)]
    (s : Sys m n Nat) (l : Lbl m n Nat) : Option (Sys m n Nat) := if P s l then step s l else none

theorem reachable_of_foldlM {P : Sys m n Nat → Lbl m n Nat → Prop} [∀ s l, Decidable (P s l)]
    {ls : List (Lbl m n Nat)} {s : Sys m n Nat} (h : ls.foldlM (stepIf P) (boot m n) = some s) :
    ((lts m n Nat).only P).Reachable s := by
  refine ⟨boot m n, ls, boot_init m n, LTS.Run.of_foldlM (fun s l s' h => ?_) h⟩
  unfold stepIf at h
  split at h
  · exact ⟨h, ‹_›⟩
  · cases h

/-- A process changes block 5 and writes it; another one reads it. -/
def handOver : List (Lbl 2 3 Nat) :=
  [.bread 0 5, .go 0, .go 0, .modify 0 0 7, .bwrite 0 0, .brelse 0 0, .go 0, .bread 1 5, .go 1]

theorem cache_coherent_handOver :
    ∃ s s', ((lts 2 3 Nat).only fun s l => Writes s l ∧ Counts s l).Reachable s ∧
    s.pc 1 = .fill 0 5 ∧ step s (.go 1) = some s' ∧ s.content 5 = 7 ∧ Returns s s' 1 0 5 := by
  have hrun : ((handOver.foldlM (stepIf fun s l => Writes s l ∧ Counts s l) (boot 2 3)).bind fun s =>
      (step s (.go 1)).map fun _ => (s.pc 1, s.content 5)) = some (.fill 0 5, 7) := by decide +kernel
  obtain ⟨s, hs, hrun⟩ := Option.bind_eq_some_iff.1 hrun
  obtain ⟨s', hs', e⟩ := Option.map_eq_some_iff.1 hrun
  simp only [Prod.mk.injEq] at e
  have hr := reachable_of_foldlM hs
  exact ⟨s, s', hr, e.1, hs', e.2, (cache_coherent 2 3 Nat).2 s hr 1 0 5 s' e.1 hs'⟩

/-- Process 0 changes block 5, and calls `bunpin` without a pin. The buffer is recycled for block 6 while
process 0 has it, its `bwrite` goes to block 6, and the next `bread` of block 5 gets the old contents. -/
def unpinned : List (Lbl 2 3 Nat) :=
  [.bread 0 5, .go 0, .go 0, .modify 0 0 7, .bunpin 0 0, .bread 1 6, .bwrite 0 0, .brelse 0 0,
    .go 0, .bread 0 5, .go 0]

theorem stale_read : ∃ s s', ((lts 2 3 Nat).only Writes).Reachable s ∧ s.pc 0 = .fill 1 5 ∧
    step s (.go 0) = some s' ∧ s.content 5 = 7 ∧ (s'.buf 1).data = 0 := by
  have hrun : ((unpinned.foldlM (stepIf Writes) (boot 2 3)).bind fun s =>
      (step s (.go 0)).map fun s' => (s.pc 0, s.content 5, (s'.buf 1).data)) = some (.fill 1 5, 7, 0) := by
    decide +kernel
  obtain ⟨s, hs, hrun⟩ := Option.bind_eq_some_iff.1 hrun
  obtain ⟨s', hs', e⟩ := Option.map_eq_some_iff.1 hrun
  simp only [Prod.mk.injEq] at e
  exact ⟨s, s', reachable_of_foldlM hs, e.1, hs', e.2.1, e.2.2⟩

end
end Xv6.Bio
