import Mathlib.Algebra.Order.BigOperators.Group.Finset
import Xv6.Log.Group

/-!
# Log space: the reservation of `begin_op` and the check of `log_write`

`begin_op` admits an operation while `lh.n + (outstanding + 1) * MAXOPBLOCKS`
is at most `LOGSIZE`, so operations that stay within `MAXOPBLOCKS` blocks
each can fill the header up to `LOGSIZE` entries. `mkfs` writes
`nlog = LOGSIZE` (mkfs/mkfs.c:25), one of which is the header block, and
`log_write` refuses to run once `lh.n` has reached `log.size - 1`, whether or
not the block would be absorbed. The last entry of the reservation is
therefore not there: `reservation_overrun` is a run of three operations of
ten blocks each that panics.

* `storage_in_log`: `write_log` and `install_trans` copy between a home block
  and a block of the log area, and touch no other block.
* `reserved_step`: what an operation has not used of its `MAXOPBLOCKS` blocks
  stays reserved, so a group never asks for more than `LOGSIZE` of them.
* `logWrite_tooBig_iff`: a `log_write` panics exactly when the blocks logged
  since the last commit already number `LOGSIZE - 1`.
* `log_space`: in a run that never asks for more, the panic is not reached.
-/
namespace Xv6.Log

section
variable {P : Type} [DecidableEq P]

/-- The operation stays within `MAXOPBLOCKS` distinct blocks. -/
def InBudget (s : Sys P) : Lbl P → Prop
  | .logWrite p b => (insert b ((curOp p s.hist).getD []).toFinset).card ≤ MAXOPBLOCKS
  | _ => True

instance (s : Sys P) (l : Lbl P) : Decidable (InBudget s l) :=
  match l with
  | .logWrite _ _ => inferInstanceAs (Decidable (_ ≤ _))
  | .call _ | .beginOp _ | .kill _ | .endOp _ | .commit _ | .endCommit _ => .isTrue trivial

/-- The calls of the current group have logged fewer than `LOGSIZE - 1`
distinct blocks before this one. -/
def Fits (s : Sys P) : Lbl P → Prop
  | .logWrite _ _ => (group s.hist).toFinset.card < LOGSIZE - 1
  | _ => True

instance (s : Sys P) (l : Lbl P) : Decidable (Fits s l) :=
  match l with
  | .logWrite _ _ => inferInstanceAs (Decidable (_ < _))
  | .call _ | .beginOp _ | .kill _ | .endOp _ | .commit _ | .endCommit _ => .isTrue trivial

/-- The log as `mkfs` lays it out, used by operations within their budget. -/
def budgeted (P : Type) [DecidableEq P] : LTS (Sys P) (Lbl P) where
  init s := Init s ∧ s.log.size = LOGSIZE
  step s l s' := step s l = some s' ∧ InBudget s l

/-- The runs all of whose `log_write`s find room. -/
def fitting (P : Type) [DecidableEq P] : LTS (Sys P) (Lbl P) where
  init := (budgeted P).init
  step s l s' := (budgeted P).step s l s' ∧ Fits s l

/-- From `l` to `l'` one block is written, `dst` with the contents of `src`,
and only these two are read. -/
structure Copied (l l' : St) (src dst : Nat) : Prop where
  writes : l'.writes = l.writes ++ [(dst, l.cached src)]
  cache : ∀ a, a ≠ src → a ≠ dst → l'.cache a = l.cache a

/-- The pass of `write_log` for an entry of the header writes a block of the
log area, and the pass of `install_trans` reads it. -/
def StorageOk (s : Sys P) : Prop :=
  ∀ p tail b, s.log.lh[tail]? = some b → ∃ c, InLog s.log.start s.log.size c ∧
    (s.pc p = .commit (.writeLog tail) →
      Copied s.log (commitStep s p (.writeLog tail)).log b.toNat c) ∧
    (s.pc p = .commit (.install tail) →
      Copied s.log (commitStep s p (.install tail)).log c b.toNat)

/-- The header holds distinct blocks and leaves room for itself. -/
structure Room (s : Sys P) : Prop where
  size : s.log.size = LOGSIZE
  nodup : s.log.lh.Nodup
  len : s.log.lh.length ≤ LOGSIZE - 1

theorem room_absorb {l : St} (hn : l.lh.Nodup) (hl : l.lh.length < LOGSIZE - 1) (b : UInt32) :
    (absorb l b).lh.Nodup ∧ (absorb l b).lh.length ≤ LOGSIZE - 1 := by
  unfold absorb
  split
  · exact ⟨hn, Nat.le_of_lt hl⟩
  · rename_i hb
    refine ⟨?_, by rw [List.length_append]; exact hl⟩
    simp only [List.nodup_append, hn, true_and]
    exact ⟨by simp, fun a ha c hc e => hb (by simp at hc; rw [← hc, ← e]; exact ha)⟩

variable {l : Lbl P} {s s' : Sys P}

omit [DecidableEq P] in
theorem Room.of_lh (h : Room s) (hl : s'.log.lh = s.log.lh) (hs : s'.log.size = s.log.size) :
    Room s' := ⟨hs.trans h.size, by rw [hl]; exact h.nodup, by rw [hl]; exact h.len⟩

@[simp] theorem absorb_size (l : St) (b : UInt32) : (absorb l b).size = l.size := by
  unfold absorb; split <;> rfl

omit [DecidableEq P] in
theorem room_logWrite (h : Room s) (p : P) (b : UInt32) : Room (logWrite s p b) := by
  unfold logWrite
  split
  · exact h.of_lh rfl rfl
  split
  · exact h.of_lh rfl rfl
  rename_i hroom _
  have hlt : s.log.lh.length < LOGSIZE - 1 := by
    have := h.size
    omega
  obtain ⟨h1, h2⟩ := room_absorb h.nodup hlt b
  exact ⟨(absorb_size s.log b).trans h.size, h1, h2⟩

theorem room_commitStep (h : Room s) (p : P) (c : CommitPc) : Room (commitStep s p c) := by
  obtain ⟨l, c', hist, e, -, -, hsize, hlh, -⟩ := commitStep_frame s p c
  rw [e]
  rcases hlh with hlh | hlh
  · exact h.of_lh hlh hsize
  · exact ⟨hsize.trans h.size, by simp [hlh], by simp [hlh]⟩

theorem room_step (h : Room s) (hs : step s l = some s') : Room s' := by
  obtain ⟨-, hf⟩ := step_fires hs
  cases hf with
  | call | kill | endCommit => exact h.of_lh rfl rfl
  | beginOp hp => unfold beginOp; split_ifs <;> exact h.of_lh rfl rfl
  | @logWrite p b hp => exact room_logWrite h p b
  | endOp hp => unfold endOp; split_ifs <;> exact h.of_lh rfl rfl
  | @commit p c hp => exact room_commitStep h p c

omit [DecidableEq P] in
theorem room_init (hi : Init s) (hsz : s.log.size = LOGSIZE) : Room s := by
  refine ⟨hsz, ?_, ?_⟩
  · rw [hi.lh]; exact List.nodup_nil
  · rw [hi.lh]; exact Nat.zero_le _

theorem copied_writeLogPass (tail : Nat) (b : UInt32) (l : St) :
    Copied l (writeLogPass tail b l) b.toNat (l.start + tail + 1) := by
  refine ⟨?_, fun a h1 h2 => by simp [writeLogPass, bread, bwrite, upd, h1, h2]⟩
  by_cases e : b.toNat = l.start + tail + 1 <;> simp [writeLogPass, bread, bwrite, St.cached, upd, e]

theorem copied_installPass (tail : Nat) (b : UInt32) (l : St) :
    Copied l (installPass false tail b l) (l.start + tail + 1) b.toNat :=
  ⟨rfl, fun a h1 h2 => by simp [installPass, bunpin, bread, bwrite, upd, h1, h2]⟩

theorem storage_in_log (h : Room s) : StorageOk s := by
  intro p tail b hb
  have h1 := h.len
  have h2 := h.size
  have ht := (List.getElem?_eq_some_iff.1 hb).1
  refine ⟨s.log.start + tail + 1, ⟨by omega, by omega⟩, fun _ => ?_, fun _ => ?_⟩
  · simpa only [commitStep, hb] using copied_writeLogPass tail b s.log
  · simpa only [commitStep, hb] using copied_installPass tail b s.log

/-- Outside a commit, `lh.n` is the number of distinct blocks logged since
the last one. -/
theorem length_lh (hI : Inv s) (hR : Room s) (hc : s.log.committing = false) :
    s.log.lh.length = (group s.hist).toFinset.card := by
  rw [← List.toFinset_card_of_nodup hR.nodup]
  congr 1
  ext b
  simpa using hI.grp hc b

theorem logWrite_tooBig_iff (hI : Inv s) (hR : Room s) (hpn : s.panic = none) {p : P}
    (hp : s.pc p = .op) (b : UInt32) :
    (logWrite s p b).panic = some .tooBig ↔ ¬Fits s (.logWrite p b) := by
  have hlen := length_lh hI hR (hI.op_not_committing hp)
  have hsz := hR.size
  have hpos := hI.op_pos hp
  simp only [Fits, ← hlen]
  unfold logWrite
  split
  · rename_i hfull
    simp only [true_iff]
    omega
  · rename_i hfull
    split
    · omega
    · simp only [hpn]
      simp only [reduceCtorEq, false_iff, not_not]
      omega

/-! ## The reservation -/

/-- What `p` has not used of the budget of its operation. -/
def spare (h : List (Event P)) (p : P) : Nat := MAXOPBLOCKS - ((curOp p h).getD []).toFinset.card

/-- The header has room for what the operations under way may still log. -/
def Reserved (s : Sys P) : Prop :=
  ∀ F : Finset P, (∀ p, p ∈ F ↔ s.pc p = .op) → s.log.lh.length + ∑ p ∈ F, spare s.hist p ≤ LOGSIZE

theorem curOp_sub_group {p : P} {b : UInt32} {h : List (Event P)} (hok : HistOk h)
    (hb : b ∈ (curOp p h).getD []) : b ∈ group h := by
  induction h with
  | nil => cases hb
  | cons e h ih =>
    have ih := ih hok.2
    cases e with
    | began | ended => simp only [curOp] at hb; split at hb <;> simp_all [group]
    | wrote q c =>
      simp only [curOp] at hb
      split at hb
      · cases hc : curOp p h <;> simp_all [group]
        exact hb.imp_right ih
      · exact List.mem_cons_of_mem _ (ih hb)
    | started q hdr => rw [curOp, hok.1.2.1 p] at hb; cases hb
    | header | finished => exact ih hb

theorem Reserved.of_ops (h : Reserved s) (hop : ∀ q, s'.pc q = .op ↔ s.pc q = .op)
    (hl : s'.log.lh.length ≤ s.log.lh.length) (hc : ∀ q, curOp q s'.hist = curOp q s.hist) :
    Reserved s' := by
  intro F hF
  have := h F fun q => (hF q).trans (hop q)
  simp only [spare, hc] at this ⊢
  omega

theorem reserved_beginOp {p : P} (hI : Inv s) (h : Reserved s) (hp : s.pc p = .begin) :
    Reserved (beginOp s p) := by
  have hno : s.pc p ≠ .op := by rw [hp]; decide
  unfold beginOp
  split_ifs with hc hroom
  · exact h.of_ops (at_op s hno (by decide)) le_rfl fun _ => rfl
  · exact h.of_ops (at_op s hno (by decide)) le_rfl fun _ => rfl
  · intro F hF
    obtain ⟨F0, h1, h2⟩ := hI.ops
    have hpF : p ∉ F0 := fun hm => hno ((h1 p).1 hm)
    -- everybody else was in an operation before
    have e : F = insert p F0 := by
      ext q
      rw [hF q]
      by_cases hq : q = p
      · simp [hq, at_same]
      · change s.at p .op q = .op ↔ _
        rw [at_ne s _ hq, Finset.mem_insert, h1 q]
        simp [hq]
    have hle : ∑ q ∈ insert p F0, spare (.began p :: s.hist) q ≤ (insert p F0).card • MAXOPBLOCKS :=
      Finset.sum_le_card_nsmul _ _ _ fun q _ => Nat.sub_le _ _
    rw [Finset.card_insert_of_notMem hpF, nsmul_eq_mul, Nat.cast_id] at hle
    rw [h2] at hroom
    simp only [e]
    simp only [LOGSIZE, MAXOPBLOCKS] at hle hroom ⊢
    push_cast at hroom
    omega

/-- An absorbed block uses neither the header nor the budget; a new one uses
one entry of the header and, if it is within its budget, one spare block. -/
theorem reserved_logWrite {p : P} {b : UInt32} (hI : Inv s) (h : Reserved s) (hp : s.pc p = .op)
    (hb : InBudget s (.logWrite p b)) : Reserved (logWrite s p b) := by
  unfold logWrite
  split_ifs
  · exact h
  · exact h
  · intro F hF
    have hpF : p ∈ F := (hF p).2 hp
    have h0 := h F hF
    have hcur := (hI.cur p).2 hp
    obtain ⟨bs, hbs⟩ := Option.isSome_iff_exists.1 hcur
    rw [← Finset.add_sum_erase _ _ hpF] at h0 ⊢
    have hrest : ∑ q ∈ F.erase p, spare (.wrote p b :: s.hist) q = ∑ q ∈ F.erase p, spare s.hist q :=
      Finset.sum_congr rfl fun q hq => by simp [spare, curOp, Ne.symm (Finset.ne_of_mem_erase hq)]
    simp only [hrest]
    simp only [InBudget, spare, curOp, hbs, if_true, Option.map_some, Option.getD_some,
      List.toFinset_cons] at hb h0 ⊢
    by_cases hmem : b ∈ bs
    · have hlh : b ∈ s.log.lh := (hI.grp (hI.op_not_committing hp) b).2
        (curOp_sub_group (p := p) hI.hist (by simpa [hbs] using hmem))
      rw [Finset.insert_eq_of_mem (by simpa using hmem)]
      simpa [absorb, hlh] using h0
    · have hcard : (insert b bs.toFinset).card = bs.toFinset.card + 1 :=
        Finset.card_insert_of_notMem (by simpa using hmem)
      have hlen : (absorb s.log b).lh.length ≤ s.log.lh.length + 1 := by
        unfold absorb; split <;> simp
      omega

theorem reserved_endOp {p : P} (h : Reserved s) (hp : s.pc p = .op) : Reserved (endOp s p) := by
  -- `p` gives back what it did not use
  have key : ∀ F : Finset P, (∀ q, q ∈ F ↔ q ≠ p ∧ s.pc q = .op) →
      s.log.lh.length + ∑ q ∈ F, spare (.ended p :: s.hist) q ≤ LOGSIZE := by
    intro F hF
    have hpF : p ∉ F := fun hm => ((hF p).1 hm).1 rfl
    have h0 := h (insert p F) fun q => by
      rw [Finset.mem_insert, hF q]
      by_cases hq : q = p <;> simp [hq, hp]
    rw [Finset.sum_insert hpF] at h0
    have hrest : ∑ q ∈ F, spare (.ended p :: s.hist) q = ∑ q ∈ F, spare s.hist q :=
      Finset.sum_congr rfl fun q hq => by simp [spare, curOp, Ne.symm ((hF q).1 hq).1]
    omega
  unfold endOp
  split_ifs
  · exact h
  · exact fun F hF => key F fun q => (hF q).trans (at_leave s p (by decide) q)
  · exact fun F hF => key F fun q => (hF q).trans ((wakeup_op _ _).trans (at_leave s p (by decide) q))

theorem reserved_commitStep {p : P} {c : CommitPc} (h : Reserved s) (hp : s.pc p = .commit c) :
    Reserved (commitStep s p c) := by
  obtain ⟨l, c', hist, e, hc, -, -, hlh, hh⟩ := commitStep_frame s p c
  rw [e]
  refine h.of_ops (at_op s (by simp [hp]) hc.ne_op) ?_ fun q => ?_
  · rcases hlh with hlh | hlh <;> simp [hlh]
  · rcases hh with rfl | ⟨x, rfl⟩ <;> rfl

theorem reserved_step (hI : Inv s) (h : Reserved s) (hs : step s l = some s') (hb : InBudget s l) :
    Reserved s' := by
  obtain ⟨-, hf⟩ := step_fires hs
  cases hf with
  | call hp | kill hp => exact h.of_ops (at_op s (by rw [hp]; decide) (by decide)) le_rfl fun _ => rfl
  | beginOp hp => exact reserved_beginOp hI h hp
  | logWrite hp => exact reserved_logWrite hI h hp hb
  | endOp hp => exact reserved_endOp h hp
  | commit hp => exact reserved_commitStep h hp
  | endCommit hp =>
    exact h.of_ops (fun q => (wakeup_op _ q).trans (at_op s (by rw [hp]; decide) (by decide) q)) le_rfl
      fun _ => rfl

/-- With the block an operation is about to log within its budget, the group
has at most `LOGSIZE` blocks. -/
theorem group_le_logsize {p : P} {b : UInt32} (hI : Inv s) (hR : Room s) (h : Reserved s)
    (hp : s.pc p = .op) (hb : InBudget s (.logWrite p b)) :
    (insert b (group s.hist).toFinset).card ≤ LOGSIZE := by
  obtain ⟨F, h1, -⟩ := hI.ops
  have h0 := h F h1
  have hlen := length_lh hI hR (hI.op_not_committing hp)
  have hspare : spare s.hist p ≤ ∑ q ∈ F, spare s.hist q :=
    Finset.single_le_sum (fun _ _ => Nat.zero_le _) ((h1 p).2 hp)
  have hins := Finset.card_insert_le b (group s.hist).toFinset
  by_cases hmem : b ∈ (curOp p s.hist).getD []
  · rw [Finset.insert_eq_of_mem (by simpa using curOp_sub_group hI.hist hmem)]
    omega
  · simp only [InBudget] at hb
    rw [Finset.card_insert_of_notMem (by simpa using hmem)] at hb
    have hone : 1 ≤ spare s.hist p := by simp only [spare]; omega
    omega

theorem budgeted_inv (h : (budgeted P).Reachable s) : Inv s ∧ Room s ∧ Reserved s := by
  have hind : (budgeted P).Inductive (fun s => Inv s ∧ Room s ∧ Reserved s) := by
    refine ⟨?_, ?_⟩
    · rintro s ⟨hi, hsz⟩
      refine ⟨inv_init hi, room_init hi hsz, fun F hF => ?_⟩
      have hF : F = ∅ := Finset.eq_empty_of_forall_notMem fun p hp => by
        have := (hF p).1 hp
        simp [hi.pc p] at this
      simp [hF, hi.lh]
    · rintro s l s' ⟨hI, hR, hv⟩ ⟨hs, hb⟩
      exact ⟨inv_step hI hs, room_step hR hs, reserved_step hI hv hs hb⟩
  exact hind.reachable h

/-! ## The panic -/

/-- Only a `log_write` raises the panic. -/
theorem tooBig_only_logWrite (hs : step s l = some s')
    (e : s'.panic = some .tooBig) : ∃ p b, l = .logWrite p b ∧ s.pc p = .op ∧ s' = logWrite s p b := by
  obtain ⟨hpn, hf⟩ := step_fires hs
  cases hf with
  | @logWrite p b hp => exact ⟨p, b, rfl, hp, rfl⟩
  | call hp => simp [hpn] at e
  | beginOp hp => unfold beginOp at e; split_ifs at e <;> simp [hpn] at e
  | kill hp => simp [hpn] at e
  | endOp hp => unfold endOp at e; split_ifs at e <;> simp [hpn] at e
  | @commit p c hp =>
    obtain ⟨l, c', hist, hstep, -⟩ := commitStep_frame s p c
    simp [hstep, hpn] at e
  | endCommit hp => simp [endCommit, hpn] at e

theorem fitting_inv (h : (fitting P).Reachable s) : Inv s ∧ Room s ∧ s.panic = none := by
  have hind : (fitting P).Inductive (fun s => Inv s ∧ Room s ∧ s.panic = none) := by
    refine ⟨?_, ?_⟩
    · rintro s ⟨hi, hsz⟩
      exact ⟨inv_init hi, room_init hi hsz, hi.panic⟩
    · rintro s l s' ⟨hI, hR, hpn⟩ ⟨⟨hs, -⟩, hfit⟩
      have hI' := inv_step hI hs
      refine ⟨hI', room_step hR hs, ?_⟩
      rcases hI'.panic with e | e
      · exact e
      · obtain ⟨p, b, rfl, hp, rfl⟩ := tooBig_only_logWrite hs e
        exact absurd hfit ((logWrite_tooBig_iff hI hR hpn hp b).1 e)
  exact hind.reachable h

/-- **Log space.** A run all of whose `log_write`s come before the group has
logged `LOGSIZE - 1` distinct blocks does not panic, and a `log_write` that
comes later does, although the reservation of `begin_op` is kept: within its
budget an operation asks for at most block `LOGSIZE` of its group. Log storage
stays inside the log area either way. -/
theorem log_space :
    (∀ s : Sys P, (fitting P).Reachable s → s.panic ≠ some .tooBig ∧ StorageOk s) ∧
    ∀ s : Sys P, (budgeted P).Reachable s → StorageOk s ∧
      (∀ p b, s.pc p = .op → InBudget s (.logWrite p b) →
        (insert b (group s.hist).toFinset).card ≤ LOGSIZE) ∧
      (s.panic = none → ∀ p b, s.pc p = .op →
        ((logWrite s p b).panic = some .tooBig ↔ ¬Fits s (.logWrite p b))) := by
  refine ⟨fun s h => ?_, fun s h => ?_⟩
  · obtain ⟨-, hR, hpn⟩ := fitting_inv h
    exact ⟨by rw [hpn]; simp, storage_in_log hR⟩
  · obtain ⟨hI, hR, hv⟩ := budgeted_inv h
    exact ⟨storage_in_log hR, fun p b hp hb => group_le_logsize hI hR hv hp hb,
      fun hpn p b hp => logWrite_tooBig_iff hI hR hpn hp b⟩

end

/-! ## The overrun -/

/-- A step that `ok` allows. -/
def guarded {P : Type} [DecidableEq P] (ok : Sys P → Lbl P → Bool) (s : Sys P) (l : Lbl P) : Option (Sys P) :=
  if ok s l then step s l else none

variable {P : Type} {ls : List (Lbl P)} {s s' : Sys P}

theorem budgeted_run [DecidableEq P]
    (h : ls.foldlM (guarded fun s l => InBudget s l) s = some s') : (budgeted P).Run s ls s' := by
  refine LTS.Run.of_foldlM (fun s l s' h => ?_) h
  unfold guarded at h
  split at h
  · rename_i hb
    exact ⟨h, of_decide_eq_true hb⟩
  · cases h

theorem fitting_run [DecidableEq P]
    (h : ls.foldlM (guarded fun s l => decide (InBudget s l) && decide (Fits s l)) s = some s') :
    (fitting P).Run s ls s' := by
  refine LTS.Run.of_foldlM (fun s l s' h => ?_) h
  unfold guarded at h
  split at h
  · rename_i hb
    rw [Bool.and_eq_true, decide_eq_true_eq, decide_eq_true_eq] at hb
    exact ⟨⟨h, hb.1⟩, hb.2⟩
  · cases h

/-- Three processes on the log that `mkfs` writes: `logstart` 2, `nlog` 30. -/
def threeProcs : Sys (Fin 3) where
  log := boot 2 LOGSIZE (fun _ => Bytes.zero)
  pc := fun _ => .idle
  panic := none
  hist := []

theorem init_threeProcs : (budgeted (Fin 3)).init threeProcs :=
  ⟨⟨rfl, rfl, rfl, fun _ => rfl, rfl, rfl⟩, rfl⟩

/-- Three operations are admitted and each logs ten blocks of its own. -/
def threeOps : List (Lbl (Fin 3)) :=
  [.call 0, .beginOp 0, .call 1, .beginOp 1, .call 2, .beginOp 2] ++
  (List.range 30).map fun i => .logWrite (Fin.ofNat 3 (i / 10)) (UInt32.ofNat (100 + i))

/-- A run within the budgets all of whose `log_write`s find room. -/
def fits (ls : List (Lbl (Fin 3))) : Option (Sys (Fin 3)) :=
  ls.foldlM (guarded fun s l => decide (InBudget s l) && decide (Fits s l)) threeProcs

theorem fits_reachable {ls : List (Lbl (Fin 3))} {s : Sys (Fin 3)} (h : fits ls = some s) :
    (fitting (Fin 3)).Reachable s := ⟨threeProcs, ls, init_threeProcs, fitting_run h⟩

/-- Up to the thirtieth `log_write` the run fits, and that one does not; an
operation that logs block 100 alone has it copied to the log area. -/
theorem log_space_threeOps :
    (∃ s, fits (threeOps.take 35) = some s ∧ s.panic ≠ some .tooBig ∧
      (logWrite s 2 129).panic = some .tooBig) ∧
    ∃ s, fits [.call 0, .beginOp 0, .logWrite 0 100, .endOp 0, .commit 0] = some s ∧
      ∃ c, InLog 2 30 c ∧ Copied s.log (commitStep s 0 (.writeLog 0)).log 100 c := by
  constructor
  · have hdata : (fits (threeOps.take 35)).map
        (fun t => (t.panic, t.pc 2, decide (Fits t (.logWrite 2 129)))) = some (none, .op, false) := by
      decide +kernel
    rw [Option.map_eq_some_iff] at hdata
    obtain ⟨s, hs, hd⟩ := hdata
    simp only [Prod.mk.injEq, decide_eq_false_iff_not] at hd
    obtain ⟨hpn, hpc, hfull⟩ := hd
    have hbud : (budgeted (Fin 3)).Reachable s :=
      ⟨threeProcs, _, init_threeProcs, (fitting_run hs).mono fun _ _ _ h => And.left h⟩
    exact ⟨s, hs, (log_space.1 s (fits_reachable hs)).1, ((log_space.2 s hbud).2.2 hpn 2 129 hpc).2 hfull⟩
  · have hdata : (fits [.call 0, .beginOp 0, .logWrite 0 100, .endOp 0, .commit 0]).map
        (fun t => (t.log.start, t.log.size, t.log.lh, t.pc 0)) =
        some (2, 30, [100], .commit (.writeLog 0)) := by decide +kernel
    rw [Option.map_eq_some_iff] at hdata
    obtain ⟨s, hs, hd⟩ := hdata
    simp only [Prod.mk.injEq] at hd
    obtain ⟨hst, hsz, hlh, hpc⟩ := hd
    obtain ⟨c, hc, hw, -⟩ := (log_space.1 s (fits_reachable hs)).2 0 0 100 (by rw [hlh]; rfl)
    rw [hst, hsz] at hc
    exact ⟨s, hs, c, hc, hw hpc⟩

/-- The thirtieth `log_write` panics although every operation is within its
reservation. -/
theorem reservation_overrun :
    ¬∀ s : Sys (Fin 3), (budgeted (Fin 3)).Reachable s → s.panic ≠ some .tooBig := by
  intro h
  have hrun : (threeOps.foldlM (guarded fun s l => InBudget s l) threeProcs).map (·.panic) =
      some (some .tooBig) := by decide +kernel
  rw [Option.map_eq_some_iff] at hrun
  obtain ⟨s, hs, hp⟩ := hrun
  exact h s ⟨threeProcs, threeOps, init_threeProcs, budgeted_run hs⟩ hp

end Xv6.Log
