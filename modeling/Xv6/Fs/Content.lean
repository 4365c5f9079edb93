import Mathlib.Algebra.Order.Interval.Finset.SuccPred
import Mathlib.Data.Nat.SuccPred
import Mathlib.Order.Interval.Finset.Nat
import Xv6.Fs.Own

/-!
# An inode is a byte array: `readi` and `writei`

`byteAt` reads a file through its block map, with zeros where no block is
mapped; `contents` are the bytes below its size. `need` counts the blocks a
write has to allocate.

* `readLoop_spec`, `readi_outcome`: reading a range that is mapped.
* `writeLoop_spec`: what a write leaves behind, whether it goes through or
  stops for want of blocks or at a page that is not mapped.
* `inode_refines`: on an inode without holes, `writei` overwrites a range of
  the contents and `readi` returns a range of it.
-/
namespace Xv6.Fs
open Function (update update_self update_of_ne update_idem)

variable {sb : Superblock} {full : Prop} {ip : Fin NINODE}

/-- Byte `k` of a file. -/
def byteAt (blk : Nat → Block) (d : Dinode) (k : Nat) : UInt8 :=
  ((file blk d (k / BSIZE)).getD Bytes.zero).get (k % BSIZE)

def contents (blk : Nat → Block) (d : Dinode) : List UInt8 := (List.range d.size).map (byteAt blk d)

variable {blk blk' : Nat → Block} {d d' : Dinode} {k n m bn left a off tot : Nat}
  {room : Option Nat} {s s' s1 t : St} {R : Panic → Prop} {src : Nat → UInt8}

theorem byteAt_congr
    (h : file blk' d' (k / BSIZE) = file blk d (k / BSIZE)) : byteAt blk' d' k = byteAt blk d k := by
  unfold byteAt; rw [h]

theorem fits_mono (h : fits room n = true) (hm : m ≤ n) : fits room m = true := by
  unfold fits at *
  cases room with
  | none => rfl
  | some k => simp only [Option.all_some, decide_eq_true_eq] at *; omega

/-- Bytes of one block. -/
theorem same_block (off i : Nat) (h : off % BSIZE + i < BSIZE) :
    (off + i) / BSIZE = off / BSIZE ∧ (off + i) % BSIZE = off % BSIZE + i := by
  simp only [BSIZE] at h ⊢
  omega

/-! ## Reading -/

/-- The bytes of a range that is mapped, or -1 if they cannot all be stored. -/
theorem readLoop_spec (passes : Nat) :
    ∀ {off left : Nat} {out : List UInt8}, left ≤ passes →
    (∀ k, off ≤ k → k < off + left → slot s.blk (s.inode ip).d (dataSlot (k / BSIZE)) ≠ 0) →
    fits room out.length = true →
    Wp (readLoop sb ip room passes off left out) s (fun r s' => s' = s ∧
      if fits room (out.length + left) = true then r = (((out.length + left : Nat) : Int),
        out ++ (List.range left).map fun i => byteAt s.blk (s.inode ip).d (off + i)) else r.1 = -1) R := by
  induction passes with
  | zero =>
    intro off left out hp _ hfit
    obtain rfl : left = 0 := by omega
    simp [readLoop, wp_pure, hfit]
  | succ passes ih =>
    intro off left out hp hmap hfit
    unfold readLoop
    rw [wp_ite]
    refine ⟨fun h0 => ?_, fun h0 => ?_⟩
    · rw [wp_pure, h0]; simp [hfit]
    have hmod : off % BSIZE < BSIZE := Nat.mod_lt _ (by decide)
    have hne := hmap off (Nat.le_refl _) (by omega)
    refine (bmap_mapped hne).bind (fun a s' h => ?_)
    obtain ⟨e1, e2⟩ := h
    rw [e2, e1, if_neg hne, wp_bind, wp_bread]
    generalize hm : min left (BSIZE - off % BSIZE) = m
    rw [wp_ite]
    refine ⟨fun hm' => ?_, fun hm' => ?_⟩
    swap
    · rw [wp_pure, if_neg fun hf => hm' (fits_mono hf (Nat.add_le_add_left (by omega) _))]
      exact ⟨rfl, rfl⟩
    -- the bytes of this pass are those of the file
    have hbytes : ((List.range m).map fun i =>
          (s.blk (slot s.blk (s.inode ip).d (dataSlot (off / BSIZE)))).get (off % BSIZE + i)) =
        (List.range m).map fun i => byteAt s.blk (s.inode ip).d (off + i) := by
      refine List.map_congr_left (fun i hi => ?_)
      obtain ⟨h1, h2⟩ := same_block off i (by have := List.mem_range.1 hi; omega)
      unfold byteAt file
      rw [h1, h2, if_neg hne]; rfl
    rw [hbytes]
    refine (ih (show left - m ≤ passes by omega) (fun k h1 h2 => hmap k (by omega) (by omega))
      (by simpa using hm')).post fun r s' h => ⟨h.1, ?_⟩
    have hr := h.2
    have hsplit : left = m + (left - m) := by omega
    rw [List.length_append, List.length_map, List.length_range, Nat.add_assoc, ← hsplit] at hr
    split
    · rename_i hf
      rw [if_pos hf] at hr
      rw [hr, Prod.mk.injEq]
      refine ⟨rfl, ?_⟩
      conv_rhs => rw [hsplit, List.range_add, List.map_append]
      rw [List.append_assoc, List.map_map]
      congr 2
      refine List.map_congr_left (fun i _ => ?_)
      rw [Function.comp_apply, Nat.add_assoc]
    · rename_i hf
      rwa [if_neg hf] at hr

/-! ## Writing -/

/-- The blocks that have to be allocated to write `left` bytes at `off`. -/
def need (blk : Nat → Block) (d : Dinode) (off left : Nat) : Nat :=
  ((Finset.Ico (off / BSIZE) ((off + left + BSIZE - 1) / BSIZE)).filter fun bn => file blk d bn = none).card +
    if NDIRECT < (off + left + BSIZE - 1) / BSIZE ∧ d.addrs NDIRECT = 0 then 1 else 0

/-- The file in `ip` after `r` of the `left` bytes of `src` (from `tot` on)
have been written at `off`. -/
structure Written (sb : Superblock) (full : Prop) (ip : Fin NINODE) (src : Nat → UInt8) (room : Option Nat)
    (off tot left r : Nat) (s s' : St) : Prop extends Readdress ip s s' where
  rep : Rep sb full s'.blk (view s' ip)
  le : r ≤ left
  file_other : ∀ j, Live sb (view s ip) j → j ≠ (s.inode ip).inum →
    ∀ m, file s'.blk (view s' ip j) m = file s.blk (view s ip j) m
  kept : ∀ u, slot s.blk (s.inode ip).d u ≠ 0 → slot s'.blk (s'.inode ip).d u = slot s.blk (s.inode ip).d u
  mapped : ∀ k, off ≤ k → k < off + r → slot s'.blk (s'.inode ip).d (dataSlot (k / BSIZE)) ≠ 0
  new : ∀ k, off ≤ k → k < off + r → byteAt s'.blk (s'.inode ip).d k = src (tot + (k - off))
  old : ∀ k, k < off ∨ off + left ≤ k → byteAt s'.blk (s'.inode ip).d k = byteAt s.blk (s.inode ip).d k
  /-- nothing is copied that is not reported, unless the source faults -/
  rest : fits room (tot + left) = true → ∀ k, off + r ≤ k →
    byteAt s'.blk (s'.inode ip).d k = byteAt s.blk (s.inode ip).d k
  done : fits room (tot + left) = true → need s.blk (s.inode ip).d off left ≤ nfree sb s.blk → r = left
  /-- a block is written whole, unless the source faults -/
  whole : fits room (tot + left) = true → r < left → r = 0 ∨ (off + r) % BSIZE = 0

theorem file_none : file blk d bn = none ↔ slot blk d (dataSlot bn) = 0 := by
  by_cases h : slot blk d (dataSlot bn) = 0 <;> simp [file, h]

theorem cost_le_need (blk : Nat → Block) (d : Dinode) (off : Nat) (h : 0 < left) :
    cost blk d (off / BSIZE) ≤ need blk d off left := by
  have hlt : off / BSIZE < (off + left + BSIZE - 1) / BSIZE := by simp only [BSIZE]; omega
  unfold cost need
  refine Nat.add_le_add ?_ (by split_ifs <;> omega)
  split
  · next h0 =>
    exact Finset.card_pos.2 ⟨off / BSIZE,
      Finset.mem_filter.2 ⟨Finset.mem_Ico.2 ⟨Nat.le_refl _, hlt⟩, file_none.2 h0⟩⟩
  · exact Nat.zero_le _

theorem Mapped.byte_eq (h : Mapped sb full ip bn a s s') (k : Nat) :
    byteAt s'.blk (s'.inode ip).d k = byteAt s.blk (s.inode ip).d k := by
  unfold byteAt
  rw [h.file_self]
  split
  · rename_i e
    rw [e.1]; rfl
  · rfl

/-- The file after one pass of `writei` that has written `m` bytes to the
block of `off`. -/
structure Pass (sb : Superblock) (full : Prop) (ip : Fin NINODE) (src : Nat → UInt8)
    (off tot m : Nat) (s s' : St) : Prop extends Readdress ip s s' where
  rep : Rep sb full s'.blk (view s' ip)
  file_other : ∀ j, Live sb (view s ip) j → j ≠ (s.inode ip).inum →
    ∀ m, file s'.blk (view s' ip j) m = file s.blk (view s ip j) m
  kept : ∀ u, slot s.blk (s.inode ip).d u ≠ 0 → slot s'.blk (s'.inode ip).d u = slot s.blk (s.inode ip).d u
  mapped : slot s'.blk (s'.inode ip).d (dataSlot (off / BSIZE)) ≠ 0
  byte : ∀ k, byteAt s'.blk (s'.inode ip).d k =
    if off ≤ k ∧ k < off + m then src (tot + (k - off)) else byteAt s.blk (s.inode ip).d k
  nfree : Fs.nfree sb s'.blk + cost s.blk (s.inode ip).d (off / BSIZE) = Fs.nfree sb s.blk
  unmapped : ∀ bn, bn ≠ off / BSIZE →
    (file s'.blk (s'.inode ip).d bn = none ↔ file s.blk (s.inode ip).d bn = none)

theorem Mapped.pass (h : Mapped sb full ip (off / BSIZE) a s s1) (tot : Nat)
    (hi : Live sb (view s ip) (s.inode ip).inum) (ha : a ≠ 0) (hm : off % BSIZE + m ≤ BSIZE)
    (src : Nat → UInt8) : Pass sb full ip src off tot m s
      { s1 with blk := update s1.blk a ((s1.blk a).splice (off % BSIZE) m fun i => src (tot + i)) } := by
  obtain ⟨g1, g2, g3, g4, g5⟩ := store_spec h.rep (h.toReaddress.live_self hi) ha (h.addr ha)
    ((s1.blk a).splice (off % BSIZE) m fun i => src (tot + i))
  have hself : ∀ u, slot (update s1.blk a ((s1.blk a).splice (off % BSIZE) m fun i => src (tot + i)))
      (s1.inode ip).d u = slot s1.blk (s1.inode ip).d u := by
    intro u
    have := g3 _ (h.toReaddress.live_self hi) u
    rwa [view_self] at this
  generalize update s1.blk a ((s1.blk a).splice (off % BSIZE) m fun i => src (tot + i)) = blk2 at *
  refine ⟨{ h with self := h.toReaddress.self }, g1, fun j hj hne k => ?_,
    fun u hu => ?_, ?_, fun k => ?_, ?_, fun bn hne => ?_⟩
  · exact (g4 j ((h.toReaddress.live j).2 hj) (by rw [h.toReaddress.inum]; exact hne) k).trans
      (h.file_other j hj hne k)
  · exact (hself u).trans (h.kept u hu)
  · exact fun e => ha ((h.addr ha).symm.trans ((hself _).symm.trans e))
  · show byteAt blk2 (s1.inode ip).d k = _
    rw [← h.byte_eq k]
    by_cases e : k / BSIZE = off / BSIZE
    · -- the block of off: k - off is the distance inside the block
      have hold : byteAt s1.blk (s1.inode ip).d k = (s1.blk a).get (k % BSIZE) := by
        unfold byteAt file
        rw [e, h.addr ha, if_neg ha]; rfl
      have hnew : byteAt blk2 (s1.inode ip).d k =
          ((s1.blk a).splice (off % BSIZE) m fun i => src (tot + i)).get (k % BSIZE) := by
        unfold byteAt
        rw [g5, if_pos e]; rfl
      have hk := Nat.div_add_mod k BSIZE
      have ho := Nat.div_add_mod off BSIZE
      rw [e] at hk
      rw [hnew, hold, Bytes.get_splice]
      by_cases hin : off ≤ k ∧ k < off + m
      · rw [if_pos hin, if_pos (by omega), show k % BSIZE - off % BSIZE = k - off by omega]
      · rw [if_neg hin, if_neg (by omega)]
    · have hout : ¬(off ≤ k ∧ k < off + m) := by
        intro hin
        apply e
        have := (same_block off (k - off) (by omega)).1
        rwa [show off + (k - off) = k by omega] at this
      rw [if_neg hout]
      exact byteAt_congr (by rw [g5, if_neg e])
  · show Fs.nfree sb blk2 + _ = _
    rw [nfree_congr g2]; exact h.found ha
  · show file blk2 (s1.inode ip).d bn = none ↔ _
    rw [g5, if_neg hne, h.file_self, if_neg (fun hh => hne hh.1)]

/-- What is left to allocate after a pass. -/
theorem Pass.need_le (h : Pass sb full ip src off tot m s s')
    (hm : off % BSIZE + m = BSIZE) (hleft : m < left) :
    need s'.blk (s'.inode ip).d (off + m) (left - m) + cost s.blk (s.inode ip).d (off / BSIZE) ≤
      need s.blk (s.inode ip).d off left := by
  have hdiv : (off + m) / BSIZE = off / BSIZE + 1 := by
    simp only [BSIZE] at *
    omega
  have hend : off + m + (left - m) = off + left := by omega
  have hlt : off / BSIZE + 1 ≤ (off + left + BSIZE - 1) / BSIZE := by
    simp only [BSIZE] at *
    omega
  unfold need cost
  rw [hdiv, hend]
  generalize (off + left + BSIZE - 1) / BSIZE = e at *
  have hcard : ((Finset.Ico (off / BSIZE) e).filter fun bn => file s.blk (s.inode ip).d bn = none).card =
      (if slot s.blk (s.inode ip).d (dataSlot (off / BSIZE)) = 0 then 1 else 0) +
        ((Finset.Ico (off / BSIZE + 1) e).filter fun bn => file s'.blk (s'.inode ip).d bn = none).card := by
    have hrest : ((Finset.Ico (off / BSIZE + 1) e).filter fun bn => file s'.blk (s'.inode ip).d bn = none) =
        (Finset.Ico (off / BSIZE + 1) e).filter fun bn => file s.blk (s.inode ip).d bn = none := by
      refine Finset.filter_congr (fun bn hbn => ?_)
      exact h.unmapped bn (by have := (Finset.mem_Ico.1 hbn).1; omega)
    have hnot : off / BSIZE ∉ (Finset.Ico (off / BSIZE + 1) e).filter
        fun bn => file s.blk (s.inode ip).d bn = none := by
      simp
    have hins : insert (off / BSIZE) (Finset.Ico (off / BSIZE + 1) e) = Finset.Ico (off / BSIZE) e :=
      Finset.insert_Ico_add_one_left_eq_Ico (by omega)
    rw [hrest, ← hins, Finset.filter_insert]
    split
    · rename_i h0
      rw [Finset.card_insert_of_notMem hnot, if_pos (file_none.1 h0), Nat.add_comm]
    · rename_i h0
      rw [if_neg (fun h1 => h0 (file_none.2 h1)), Nat.zero_add]
  -- the indirect block is there once a block past the direct ones is
  have hind : (if NDIRECT < e ∧ (s'.inode ip).d.addrs NDIRECT = 0 then 1 else 0) +
      (if NDIRECT ≤ off / BSIZE ∧ (s.inode ip).d.addrs NDIRECT = 0 then 1 else 0) ≤
      if NDIRECT < e ∧ (s.inode ip).d.addrs NDIRECT = 0 then 1 else 0 := by
    have h1 : (s.inode ip).d.addrs NDIRECT ≠ 0 → (s'.inode ip).d.addrs NDIRECT ≠ 0 := by
      intro h0
      have := h.kept NDIRECT (by rw [slot_ndirect]; exact h0)
      rw [slot_ndirect, slot_ndirect] at this
      rw [this]; exact h0
    have h2 : NDIRECT ≤ off / BSIZE → (s'.inode ip).d.addrs NDIRECT ≠ 0 := fun hge h0 =>
      h.mapped (by rw [dataSlot_indirect (by omega), slot_no_entry h0])
    split_ifs <;> omega
  omega

theorem Written.nothing
    (hrep : Rep sb full s.blk (view s ip)) : Written sb full ip src room off tot 0 0 s s where
  toReaddress := Readdress.refl ip s
  rep := hrep
  le := Nat.le_refl _
  file_other _ _ _ _ := rfl
  kept _ _ := rfl
  mapped k h1 h2 := by omega
  new k h1 h2 := by omega
  old _ _ := rfl
  rest _ _ _ := rfl
  done _ _ := rfl
  whole _ _ := .inl rfl

/-- No block for the next byte. -/
theorem Mapped.stop
    (h : Mapped sb full ip (off / BSIZE) 0 s s') (hleft : 0 < left) :
    Written sb full ip src room off tot left 0 s s' where
  toReaddress := h.toReaddress
  rep := h.rep
  le := Nat.zero_le _
  file_other := h.file_other
  kept := h.kept
  mapped k h1 h2 := by omega
  new k h1 h2 := by omega
  old k _ := h.byte_eq k
  rest _ k _ := h.byte_eq k
  done _ hneed := by
    have h1 := h.failed rfl
    have h2 := cost_le_need s.blk (s.inode ip).d off hleft
    omega
  whole _ _ := .inl rfl

/-- The source faults within the block. -/
theorem Pass.fault
    (h : Pass sb full ip src off tot m s s') (hm : m ≤ left) (hfault : fits room (tot + left) = false) :
    Written sb full ip src room off tot left 0 s s' where
  toReaddress := h.toReaddress
  rep := h.rep
  le := Nat.zero_le _
  file_other := h.file_other
  kept := h.kept
  mapped k h1 h2 := by omega
  new k h1 h2 := by omega
  old k hk := by rw [h.byte, if_neg (by omega)]
  rest hf := by rw [hfault] at hf; cases hf
  done hf := by rw [hfault] at hf; cases hf
  whole _ _ := .inl rfl

/-- A whole pass, and then the rest. -/
theorem Pass.then_written {r : Nat}
    (h : Pass sb full ip src off tot m s s1) (hm : off % BSIZE + m ≤ BSIZE) (hle : m ≤ left)
    (hend : m = left ∨ off % BSIZE + m = BSIZE)
    (w : Written sb full ip src room (off + m) (tot + m) (left - m) r s1 s') :
    Written sb full ip src room off tot left (m + r) s s' where
  toReaddress := h.toReaddress.trans w.toReaddress
  rep := w.rep
  le := by have := w.le; omega
  file_other j hj hne k := by
    rw [w.file_other j ((h.toReaddress.live j).2 hj) (by rw [h.toReaddress.inum]; exact hne),
      h.file_other j hj hne]
  kept u hu := by
    have hsame := h.kept u hu
    rw [w.kept u (by rw [hsame]; exact hu), hsame]
  mapped k h1 h2 := by
    by_cases hk : k < off + m
    · have e : k / BSIZE = off / BSIZE := by
        have := (same_block off (k - off) (by omega)).1
        rwa [show off + (k - off) = k by omega] at this
      rw [e, w.kept _ h.mapped]; exact h.mapped
    · exact w.mapped k (by omega) (by omega)
  new k h1 h2 := by
    by_cases hk : k < off + m
    · rw [w.old k (.inl hk), h.byte, if_pos ⟨h1, hk⟩]
    · rw [w.new k (by omega) (by omega)]
      congr 1; omega
  old k hk := by
    have hout : ¬(off ≤ k ∧ k < off + m) := by omega
    rw [w.old k (by omega), h.byte, if_neg hout]
  rest hf k hk := by
    rw [w.rest (by rw [show tot + m + (left - m) = tot + left by omega]; exact hf) k (by omega), h.byte,
      if_neg (by omega)]
  done hf hneed := by
    rcases hend with e | e
    · have := w.le
      omega
    by_cases hlt : m < left
    · have h1 := h.need_le e hlt
      have h2 := h.nfree
      have h3 := w.done (by rw [show tot + m + (left - m) = tot + left by omega]; exact hf) (by omega)
      omega
    · have := w.le
      omega
  whole hf hlt := by
    right
    have hfull : off % BSIZE + m = BSIZE := by omega
    have hrest : fits room (tot + m + (left - m)) = true := by
      rw [show tot + m + (left - m) = tot + left by omega]; exact hf
    rw [← Nat.add_assoc]
    rcases w.whole hrest (by omega) with e | e
    · rw [e, Nat.add_zero, Nat.add_mod]
      simp only [BSIZE] at hfull ⊢
      omega
    · exact e

theorem writeLoop_spec (passes : Nat) :
    ∀ {s : St} {off tot left : Nat}, Rep sb full s.blk (view s ip) → Live sb (view s ip) (s.inode ip).inum →
    left ≤ passes → off + left ≤ MAXFILE * BSIZE →
    Wp (writeLoop sb ip src room passes off tot left) s
      (fun r s' => ∃ n, r = (tot + n, off + n) ∧ Written sb full ip src room off tot left n s s')
      (fun _ => False) := by
  induction passes with
  | zero =>
    intro s off tot left hrep _ hp _
    obtain rfl : left = 0 := by omega
    exact (wp_pure _).2 ⟨0, rfl, Written.nothing hrep⟩
  | succ passes ih =>
    intro s off tot left hrep hi hp hmax
    unfold writeLoop
    rw [wp_ite]
    refine ⟨fun h0 => ?_, fun h0 => ?_⟩
    · rw [wp_pure, h0]
      exact ⟨0, rfl, Written.nothing hrep⟩
    have hmod : off % BSIZE < BSIZE := Nat.mod_lt _ (by decide)
    have hbn : off / BSIZE < MAXFILE := Nat.div_lt_of_lt_mul (by rw [Nat.mul_comm]; omega)
    refine (bmap_spec hrep hi hbn).bind (fun a s1 hmap => ?_)
    by_cases ha : a = 0
    · rw [if_pos ha, wp_pure]
      rw [ha] at hmap
      exact ⟨0, rfl, hmap.stop (by omega)⟩
    rw [if_neg ha, wp_bind, wp_bread]
    generalize hm : min left (BSIZE - off % BSIZE) = m
    have hle : m ≤ left := by omega
    have hin : off % BSIZE + m ≤ BSIZE := by omega
    cases hf : fits room (tot + m) with
    | true =>
      rw [if_pos hf, wp_bind, wp_bstore]
      have hpass := hmap.pass tot hi ha hin src
      generalize ({ s1 with
        blk := update s1.blk a ((s1.blk a).splice (off % BSIZE) m fun i => src (tot + i)) } : St) = s2 at *
      refine (ih hpass.rep (hpass.toReaddress.live_self hi) (by omega) (by omega)).post fun r s' h => ?_
      obtain ⟨n, hr, hw⟩ := h
      refine ⟨m + n, ?_, hpass.then_written hin hle (by omega) hw⟩
      rw [hr, Nat.add_assoc, Nat.add_assoc]
    | false =>
      rw [if_neg (by rw [hf]; simp), wp_bind, wp_bstore, wp_pure]
      -- fewer bytes than m are copied before the fault
      have hshort : room.getD 0 - tot < m := by
        cases room with
        | none => cases hf
        | some k =>
          simp only [fits, Option.all_some, decide_eq_false_iff_not, Option.getD_some] at hf ⊢
          omega
      have hfault : fits room (tot + left) = false := by
        cases hf' : fits room (tot + left) with
        | false => rfl
        | true => rw [fits_mono hf' (by omega)] at hf; cases hf
      exact ⟨0, rfl, (hmap.pass tot hi ha (by omega) src).fault (by omega) hfault⟩

/-- `writei` after its loop: the size is at least `e`, and the inode is on
disk. -/
def closed (s : St) (ip : Fin NINODE) (e : Nat) : St where
  blk := s.blk
  dinode := update s.dinode (s.inode ip).inum { (s.inode ip).d with size := max (s.inode ip).d.size e }
  inode := update s.inode ip { s.inode ip with
    d := { (s.inode ip).d with size := max (s.inode ip).d.size e } }
  gen := s.gen

section Closed
variable {s : St} {e : Nat}

theorem closed_self : (closed s ip e).inode ip =
    { s.inode ip with d := { (s.inode ip).d with size := max (s.inode ip).d.size e } } := update_self ..

theorem closed_view : view (closed s ip e) ip = (closed s ip e).dinode := by
  rw [view, closed_self]
  exact update_idem ..

theorem closed_view_self : view (closed s ip e) ip (s.inode ip).inum =
    { (s.inode ip).d with size := max (s.inode ip).d.size e } := by
  rw [closed_view]; exact update_self ..

theorem closed_view_other {j : Nat} (h : j ≠ (s.inode ip).inum) :
    view (closed s ip e) ip j = view s ip j := by
  rw [closed_view, view_other h]; exact update_of_ne h ..

theorem closed_live (j : Nat) : Live sb (view (closed s ip e) ip) j ↔ Live sb (view s ip) j := by
  unfold Live
  by_cases h : j = (s.inode ip).inum
  · rw [h, closed_view_self, view_self]
  · rw [closed_view_other h]

theorem closed_rep (h : Rep sb full s.blk (view s ip)) :
    Rep sb full (closed s ip e).blk (view (closed s ip e) ip) := by
  refine h.congr closed_live (fun j _ t => ?_) (fun _ _ => rfl)
  by_cases hj : j = (s.inode ip).inum
  · rw [hj, closed_view_self, view_self]; rfl
  · rw [closed_view_other hj]; rfl

end Closed

/-- A range `writei` refuses. -/
def Refused (d : Dinode) (off n : UInt32) : Prop :=
  d.size < off.toNat ∨ 2 ^ 32 ≤ off.toNat + n.toNat ∨ MAXFILE * BSIZE < off.toNat + n.toNat

theorem add_wraps {a b : UInt32} : a + b < a ↔ 2 ^ 32 ≤ a.toNat + b.toNat := by
  have h2 := b.toNat_lt
  rw [UInt32.lt_iff_toNat_lt, UInt32.toNat_add]
  omega

theorem writei_spec (src : Nat → UInt8) (room : Option Nat) (off n : UInt32)
    (hrep : Rep sb full s.blk (view s ip)) (hi : Live sb (view s ip) (s.inode ip).inum) :
    Wp (writei sb ip src room off n) s
      (fun r s' => (r = -1 ∧ s' = s ∧ Refused (s.inode ip).d off n) ∨
        ∃ k t, r = (k : Nat) ∧ ¬Refused (s.inode ip).d off n ∧
          Written sb full ip src room off.toNat 0 n.toNat k s t ∧
          s' = closed t ip (off.toNat + k)) (fun _ => False) := by
  unfold writei Refused
  rw [wp_bind, wp_getInode, wp_ite, add_wraps]
  refine ⟨fun h => (wp_pure _).2 (.inl ⟨rfl, rfl, by omega⟩), fun h => ?_⟩
  rw [wp_ite]
  refine ⟨fun h' => (wp_pure _).2 (.inl ⟨rfl, rfl, by omega⟩), fun h' => ?_⟩
  refine (writeLoop_spec n.toNat hrep hi (Nat.le_refl _) (by omega)).bind (fun r t hw => ?_)
  obtain ⟨k, hr, hw⟩ := hw
  rw [wp_bind, wp_setInode, wp_bind, iupdate, wp_modify, wp_pure, hr, Nat.zero_add]
  refine .inr ⟨k, t, rfl, by omega, hw, ?_⟩
  unfold closed
  simp only [update_self]

/-! ## The byte array -/

/-- Every block below the size is mapped. -/
def NoHole (blk : Nat → Block) (d : Dinode) : Prop := ∀ bn, bn * BSIZE < d.size → file blk d bn ≠ none

theorem NoHole.slot_ne (h : NoHole blk d) (hk : k < d.size) :
    slot blk d (dataSlot (k / BSIZE)) ≠ 0 := by
  have hle := Nat.div_mul_le_self k BSIZE
  exact fun e => h (k / BSIZE) (by omega) (file_none.2 e)

/-- A file without holes is no longer than its blocks allow. -/
theorem NoHole.size_le (h : NoHole blk d) : d.size ≤ MAXFILE * BSIZE := by
  by_contra hgt
  have := h MAXFILE (by omega)
  apply this
  rw [file_none]
  apply slot_past
  rw [show dataSlot MAXFILE = MAXFILE + 1 from if_neg (by decide)]
  exact Nat.le_refl _

/-- A block below the new size was mapped before, or has just been written. -/
theorem Written.noHole
    (w : Written sb full ip src room off 0 n k s t) (h : NoHole s.blk (s.inode ip).d)
    (hoff : off ≤ (s.inode ip).d.size) : NoHole t.blk ((closed t ip (off + k)).inode ip).d := by
  intro bn hbn
  obtain ⟨f, hf⟩ := w.self
  rw [closed_self] at hbn ⊢
  show file t.blk (t.inode ip).d bn ≠ none
  rw [Ne, file_none]
  by_cases hb : bn * BSIZE < (s.inode ip).d.size
  · have h0 : slot s.blk (s.inode ip).d (dataSlot bn) ≠ 0 := fun e => h bn hb (file_none.2 e)
    rw [w.kept _ h0]; exact h0
  · have hsize : (t.inode ip).d.size = (s.inode ip).d.size := by rw [hf]
    simp only [hsize] at hbn
    have hm := w.mapped (bn * BSIZE) (by omega) (by omega)
    rwa [Nat.mul_div_cancel _ (by decide : 0 < BSIZE)] at hm

/-- The invariants of an inode on disk, the one cached in `ip`: it is
allocated and without holes, and the blocks of the allocated inodes are data
blocks, pairwise distinct and marked used. -/
structure InodeOk (sb : Superblock) (s : St) (ip : Fin NINODE) : Prop where
  live : Live sb (view s ip) (s.inode ip).inum
  rep : Rep sb False s.blk (view s ip)
  mapped : NoHole s.blk (s.inode ip).d

/-- `c` with the bytes of `new` from `off` on. -/
def overwrite (c : List UInt8) (off : Nat) (new : List UInt8) : List UInt8 :=
  c.take off ++ new ++ c.drop (off + new.length)

theorem contents_range (blk : Nat → Block) (d : Dinode) (off n : Nat) :
    ((contents blk d).drop off).take n = (List.range (min n (d.size - off))).map
    fun i => byteAt blk d (off + i) := by
  apply List.ext_getElem
  · simp [contents]
  · intro i h1 h2
    simp [contents]

/-- What `readi` returns: the range, -1 if it cannot be stored,
or 0 for one that starts past the end or wraps around. -/
theorem readi_outcome (h : NoHole s.blk (s.inode ip).d) (room : Option Nat) (off n : UInt32) :
    Wp (readi sb ip room off n) s (fun r s' => s' = s ∧
      if off.toNat ≤ (s.inode ip).d.size ∧ off.toNat + n.toNat < 2 ^ 32 then
        if fits room (min n.toNat ((s.inode ip).d.size - off.toNat)) = true then
          r = (((min n.toNat ((s.inode ip).d.size - off.toNat) : Nat) : Int),
            ((contents s.blk (s.inode ip).d).drop off.toNat).take n.toNat)
        else r.1 = -1
      else r = (0, [])) R := by
  unfold readi
  rw [wp_bind, wp_getInode, wp_ite, add_wraps]
  refine ⟨fun hout => ?_, fun hin => ?_⟩
  · rw [wp_pure, if_neg (by omega)]
    exact ⟨rfl, rfl⟩
  · have hn : (if (s.inode ip).d.size < off.toNat + n.toNat
        then (s.inode ip).d.size - off.toNat else n.toNat) =
        min n.toNat ((s.inode ip).d.size - off.toNat) := by
      split <;> omega
    simp only [hn, if_pos (show off.toNat ≤ (s.inode ip).d.size ∧ off.toNat + n.toNat < 2 ^ 32 by omega)]
    refine (readLoop_spec _ (Nat.le_refl _) (fun k h1 h2 => h.slot_ne (by omega))
      (by cases room <;> simp [fits])).post fun r s' hr => ⟨hr.1, ?_⟩
    rw [contents_range]
    simpa using hr.2

theorem readi_spec (h : NoHole s.blk (s.inode ip).d) {off n : UInt32}
    (hroom : fits room (min n.toNat ((s.inode ip).d.size - off.toNat)) = true) :
    Wp (readi sb ip room off n) s (fun r s' => s' = s ∧
      r = if off.toNat ≤ (s.inode ip).d.size ∧ off.toNat + n.toNat < 2 ^ 32 then
          (((min n.toNat ((s.inode ip).d.size - off.toNat) : Nat) : Int),
            ((contents s.blk (s.inode ip).d).drop off.toNat).take n.toNat)
        else (0, [])) (fun _ => False) := by
  refine (readi_outcome h room off n).post fun r s' hr => ⟨hr.1, ?_⟩
  have hr := hr.2
  rw [hroom, if_pos rfl] at hr
  split_ifs at hr ⊢ <;> exact hr

/-- The contents, given byte by byte. -/
theorem contents_overwrite
    (hoff : off ≤ d.size) (hsize : d'.size = max d.size (off + n))
    (hnew : ∀ k, off ≤ k → k < off + n → byteAt blk' d' k = src (k - off))
    (hold : ∀ k, k < off ∨ off + n ≤ k → byteAt blk' d' k = byteAt blk d k) :
    contents blk' d' = overwrite (contents blk d) off ((List.range n).map src) := by
  apply List.ext_getElem
  · simp [contents, overwrite, hsize]; omega
  · intro i h1 h2
    simp only [contents, overwrite, List.length_map, List.length_range,
      List.getElem_append, List.length_append,
      List.length_take, List.getElem_map, List.getElem_range, List.getElem_take, List.getElem_drop,
      Nat.min_eq_left hoff]
    split
    · split
      · exact hold i (.inl ‹_›)
      · exact hnew i (by omega) (by omega)
    · rw [hold i (.inr (by omega))]
      congr 1; omega

theorem contents_congr (hsize : d'.size = d.size)
    (h : ∀ m, file blk' d' m = file blk d m) : contents blk' d' = contents blk d := by
  unfold contents
  rw [hsize]
  exact List.map_congr_left (fun k _ => byteAt_congr (h _))

/-- A complete write, and its effect on the contents of the files. -/
theorem Written.contents
    (h : InodeOk sb s ip) (w : Written sb False ip src room off 0 n n s t)
    (hoff : off ≤ (s.inode ip).d.size) : InodeOk sb (closed t ip (off + n)) ip ∧
    ((closed t ip (off + n)).inode ip).d.size = max (s.inode ip).d.size (off + n) ∧
    Fs.contents (closed t ip (off + n)).blk ((closed t ip (off + n)).inode ip).d =
      overwrite (Fs.contents s.blk (s.inode ip).d) off ((List.range n).map src) ∧
    ∀ j, Live sb (view s ip) j → j ≠ (s.inode ip).inum → Live sb (view (closed t ip (off + n)) ip) j ∧
      Fs.contents (closed t ip (off + n)).blk (view (closed t ip (off + n)) ip j) =
        Fs.contents s.blk (view s ip j) := by
  obtain ⟨f, hf⟩ := w.self
  have hself : (closed t ip (off + n)).inode ip =
      { t.inode ip with d := { (t.inode ip).d with size := max (t.inode ip).d.size (off + n) } } :=
    closed_self
  have hsize : ((closed t ip (off + n)).inode ip).d.size = max (s.inode ip).d.size (off + n) := by
    rw [hself, hf]
  have hinum : ((closed t ip (off + n)).inode ip).inum = (s.inode ip).inum := by rw [hself, hf]
  have hbyte : ∀ k, byteAt (closed t ip (off + n)).blk ((closed t ip (off + n)).inode ip).d k =
      byteAt t.blk (t.inode ip).d k := fun k => by rw [hself]; rfl
  refine ⟨⟨?_, closed_rep w.rep, w.noHole h.mapped hoff⟩, hsize, ?_, fun j hj hne => ⟨?_, ?_⟩⟩
  · rw [hinum]; exact (closed_live _).2 ((w.toReaddress.live _).2 h.live)
  · refine contents_overwrite hoff hsize (fun k h1 h2 => ?_) (fun k hk => ?_)
    · rw [hbyte, w.new k h1 h2, Nat.zero_add]
    · rw [hbyte, w.old k hk]
  · exact (closed_live _).2 ((w.toReaddress.live _).2 hj)
  · have hv : view (closed t ip (off + n)) ip j = view t ip j :=
      closed_view_other (by rw [w.toReaddress.inum]; exact hne)
    rw [hv]
    refine contents_congr ?_ (w.file_other j hj hne)
    rw [w.toReaddress.other hne]

/-- An inode is a byte array. With enough free blocks and a readable source,
a `writei` that starts inside the file and ends below the maximal size
overwrites the range and changes no other file; a `readi` returns the bytes of
the range that are inside the file. -/
theorem inode_refines {s : St} (h : InodeOk sb s ip) :
    (∀ (src : Nat → UInt8) (room : Option Nat) (off n : UInt32), off.toNat ≤ (s.inode ip).d.size →
      off.toNat + n.toNat ≤ MAXFILE * BSIZE → need s.blk (s.inode ip).d off.toNat n.toNat ≤ nfree sb s.blk →
      fits room n.toNat = true →
      ∃ s', writei sb ip src room off n s = .ok ((n.toNat : Int), s') ∧ InodeOk sb s' ip ∧
        (s'.inode ip).d.size = max (s.inode ip).d.size (off.toNat + n.toNat) ∧
        contents s'.blk (s'.inode ip).d =
          overwrite (contents s.blk (s.inode ip).d) off.toNat ((List.range n.toNat).map src) ∧
        ∀ j, Live sb (view s ip) j → j ≠ (s.inode ip).inum →
          Live sb (view s' ip) j ∧ contents s'.blk (view s' ip j) = contents s.blk (view s ip j)) ∧
    ∀ (room : Option Nat) (off n : UInt32), fits room (min n.toNat ((s.inode ip).d.size - off.toNat)) = true →
      readi sb ip room off n s = .ok
        (if off.toNat ≤ (s.inode ip).d.size ∧ off.toNat + n.toNat < 2 ^ 32 then
          (((min n.toNat ((s.inode ip).d.size - off.toNat) : Nat) : Int),
            ((contents s.blk (s.inode ip).d).drop off.toNat).take n.toNat)
        else (0, []), s) := by
  refine ⟨fun src room off n h1 h2 h3 h4 => ?_, fun room off n h1 => ?_⟩
  · have hmax : MAXFILE * BSIZE < 2 ^ 32 := by decide
    obtain ⟨r, s', hrun, hcase⟩ := (writei_spec src room off n h.rep h.live).returns
    rcases hcase with ⟨-, -, href⟩ | ⟨k, t, hr, -, hw, hs'⟩
    · unfold Refused at href
      omega
    · have hk : k = n.toNat := hw.done (by rw [Nat.zero_add]; exact h4) h3
      rw [hk] at hw hr hs'
      refine ⟨s', by rw [hrun, hr], ?_⟩
      rw [hs']
      exact hw.contents h h1
  · obtain ⟨r, s', hrun, hs', hr⟩ := (readi_spec h.mapped h1).returns
    rw [hrun, hs', hr]

/-- A disk of 20 blocks, the first five of them metadata. -/
def tiny : Superblock where
  size := 20
  ninodes := 2
  nlog := 1
  fits := by decide
  size_lt := by decide
  ninodes_gt := by decide
  ninodes_le := by decide

/-- An empty file on it, open and locked. -/
def tinyFile : St where
  blk b := if b = 4 then (Bytes.zero : Block).splice 0 1 fun _ => 0x1f else Bytes.zero
  dinode _ := { type := .free, major := 0, minor := 0, nlink := 0, size := 0, addrs := fun _ => 0 }
  inode k :=
    { inum := 1, ref := if k = 0 then 1 else 0, locked := true, valid := true,
      d := { type := .file, major := 0, minor := 0, nlink := 1, size := 0, addrs := fun _ => 0 } }
  gen _ := 0

theorem tinyFile_ok : InodeOk tiny tinyFile 0 := by
  have hcell : ∀ k, cell tiny tinyFile.blk (view tinyFile 0) k = none := by
    intro k
    by_cases hl : Live tiny (view tinyFile 0) k.1
    · have hv : (view tinyFile 0 k.1).addrs = fun _ => 0 := by
        by_cases e : k.1 = (tinyFile.inode 0).inum
        · rw [e, view_self]; rfl
        · rw [view_other e]; rfl
      have hs : slot tinyFile.blk (view tinyFile 0 k.1) k.2 = 0 := by
        unfold slot
        rw [hv]; split <;> rfl
      rw [cell_live hl, if_pos hs]
    · exact cell_dead hl
  refine ⟨by decide, ⟨⟨?_, ?_, ?_, fun h => h.elim⟩, by decide⟩, fun bn h => absurd h (Nat.not_lt_zero _)⟩
  · intro k r h; rw [hcell] at h; cases h
  · intro k r h; rw [hcell] at h; cases h
  · intro k l r h; rw [hcell] at h; cases h

/-- Three bytes go into the empty file. -/
theorem inode_refines_firstBytes : InodeOk tiny tinyFile 0 ∧
    ∃ s', writei tiny 0 (fun _ => 7) none 0 3 tinyFile = .ok (3, s') ∧
    contents s'.blk (s'.inode 0).d = [7, 7, 7] := by
  obtain ⟨hwrite, -⟩ := inode_refines tinyFile_ok
  obtain ⟨s', h1, -, -, h2, -⟩ := hwrite (fun _ => 7) none 0 3 (by decide) (by decide) (by decide) rfl
  exact ⟨tinyFile_ok, s', h1, h2⟩

end Xv6.Fs
