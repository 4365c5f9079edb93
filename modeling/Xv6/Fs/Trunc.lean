import Xv6.Fs.Own

/-!
# Truncation: `itrunc`

`itrunc` frees the blocks of an inode. A direct block leaves the ledger with
its address; the blocks of the indirect entries are freed first, while the
entries are still there, and leave it with the address of the indirect block.

* `itrunc_spec`: no `bfree` of it panics, the inode is left without blocks,
  and the other files keep theirs.
-/
namespace Xv6.Fs
open Function (update update_self update_of_ne update_idem)

variable {sb : Superblock} {full : Prop} {ip : Fin NINODE}

/-- Only the bitmap and the addresses of the inode in `ip` change. -/
structure Frees (sb : Superblock) (ip : Fin NINODE) (s s' : St) : Prop extends Readdress ip s s' where
  blk : ∀ c, sb.nmeta ≤ c → s'.blk c = s.blk c

theorem Frees.refl (sb : Superblock) (ip : Fin NINODE) (s : St) :
    Frees sb ip s s := ⟨Readdress.refl ip s, fun _ _ => rfl⟩

variable {s s' : St} {j : Nat}

theorem Frees.trans {t u : St} (h : Frees sb ip s t) (h' : Frees sb ip t u) : Frees sb ip s u :=
  ⟨h.toReaddress.trans h'.toReaddress, fun c hc => (h'.blk c hc).trans (h.blk c hc)⟩

/-- The addresses of an inode whose indirect block is a data block. -/
theorem slot_frees {d : Dinode} (h : ∀ c, sb.nmeta ≤ c → s'.blk c = s.blk c)
    (hd : d.addrs NDIRECT ≠ 0 → sb.nmeta ≤ d.addrs NDIRECT) (t : Nat) : slot s'.blk d t = slot s.blk d t :=
  slot_congr (fun h0 => h _ (hd h0)) t

theorem Rep.indirect_meta {blk : Nat → Block} {cur : Nat → Dinode} (h : Rep sb full blk cur)
    (hj : Live sb cur j) (h0 : (cur j).addrs NDIRECT ≠ 0) : sb.nmeta ≤ (cur j).addrs NDIRECT := by
  have hs : slot blk (cur j) NDIRECT = (cur j).addrs NDIRECT := slot_direct _ (Nat.le_refl _)
  have hcell := cell_of_slot hj (by rw [hs]; exact h0)
  rw [hs] at hcell
  exact (h.ledger.in_pool _ _ hcell).1

/-- `bfree` of a block that a cell of the ledger holds. -/
theorem bfree_cell {κ : Type} [DecidableEq κ] {c c' : κ → Option Nat} {k : κ} {b : Nat}
    (hl : Ledger full c (InData sb) (fun x => used sb s.blk x = true))
    (hm : ∀ x, x < sb.nmeta → used sb s.blk x = true) (hk : c k = some b)
    (hc : ∀ l, c' l = if l = k then none else c l) :
    Wp (bfree sb b) s (fun _ s' => s'.dinode = s.dinode ∧ s'.inode = s.inode ∧ s'.gen = s.gen ∧
      (∀ x, sb.nmeta ≤ x → s'.blk x = s.blk x) ∧ (∀ x, x < sb.nmeta → used sb s'.blk x = true) ∧
      Ledger full c' (InData sb) (fun x => used sb s'.blk x = true)) (fun _ => False) := by
  have hdata := hl.in_pool _ _ hk
  refine (bfree_spec (hl.in_use _ _ hk)).post fun _ s' hs' => ?_
  rw [hs']
  refine ⟨rfl, rfl, rfl, fun x hx => released_other hdata.2 hx, fun x hx => ?_,
    hl.drop hk hc (fun x hx => ?_)⟩
  · have := hdata.1
    rw [used_released, hm x hx, Bool.and_true, Bool.not_eq_true', decide_eq_false_iff_not]
    omega
  · rw [used_released, Bool.and_eq_true, Bool.not_eq_true', decide_eq_false_iff_not, ne_comm]

/-- An address is cleared once its blocks are free. -/
theorem setAddr_frees {s1 : St} {k : Nat} {Q : Unit → St → Prop} {R : Panic → Prop}
    (h1 : s1.dinode = s.dinode ∧ s1.inode = s.inode ∧ s1.gen = s.gen)
    (hblk : ∀ c, sb.nmeta ≤ c → s1.blk c = s.blk c) (hQ : ∀ s', s'.blk = s1.blk → Frees sb ip s s' →
      (∀ t, (s'.inode ip).d.addrs t = if t = k then 0 else (s.inode ip).d.addrs t) → Q () s') :
    Wp (setAddr ip k 0) s1 Q R := by
  obtain ⟨e1, e2, e3⟩ := h1
  rw [setAddr, wp_setInode, e2]
  refine hQ _ rfl ⟨⟨e1, e3, fun j hj => update_of_ne hj .., _, update_self ..⟩, hblk⟩ fun t => ?_
  dsimp only
  rw [update_self]
  exact Function.update_apply ..

theorem addrs_of_zero {d : Dinode} {k : Nat} (h : d.addrs k = 0) (t : Nat) :
    d.addrs t = if t = k then 0 else d.addrs t := by
  by_cases e : t = k
  · rw [e, if_pos rfl, h]
  · rw [if_neg e]

section
variable (hrep : Rep sb full s.blk (view s ip))
include hrep

theorem Frees.cell_other {l : Nat × Nat} (hfr : Frees sb ip s s') (hl : l.1 ≠ (s.inode ip).inum) :
    cell sb s'.blk (view s' ip) l = cell sb s.blk (view s ip) l :=
  hfr.toReaddress.cell_other hl fun hj => slot_frees hfr.blk (hrep.indirect_meta hj) _

/-! ## The first loop -/

theorem freeAddr_spec {k : Nat} (hk : k < NDIRECT) (hi : Live sb (view s ip) (s.inode ip).inum) :
    Wp (freeAddr sb ip k) s (fun _ s' => Frees sb ip s s' ∧ Rep sb full s'.blk (view s' ip) ∧
      ∀ t, (s'.inode ip).d.addrs t = if t = k then 0 else (s.inode ip).d.addrs t) (fun _ => False) := by
  unfold freeAddr
  rw [wp_bind, wp_getInode, wp_ite]
  refine ⟨fun h0 => ?_, fun h0 => (wp_pure _).2 ⟨.refl sb ip s, hrep, addrs_of_zero (not_not.1 h0)⟩⟩
  have hslot : slot s.blk (view s ip (s.inode ip).inum) k = (s.inode ip).d.addrs k := by
    rw [view_self, slot_direct _ (Nat.le_of_lt hk)]
  have hcell := cell_of_slot hi (by rw [hslot]; exact h0)
  rw [hslot] at hcell
  refine (bfree_cell hrep.ledger hrep.metadata hcell (fun _ => rfl)).bind (fun _ s1 h1 => ?_)
  obtain ⟨e1, e2, e3, e4, e5, e6⟩ := h1
  refine setAddr_frees ⟨e1, e2, e3⟩ e4 fun s' hblk hfr haddrs =>
    ⟨hfr, ⟨e6.congr (fun l => ?_) (fun x _ => by rw [hblk]), by rwa [hblk]⟩, haddrs⟩
  by_cases hl : l.1 = (s.inode ip).inum
  · obtain ⟨_, t⟩ := l
    obtain rfl := hl
    have hs : slot s'.blk (s'.inode ip).d t = if t = k then 0 else slot s.blk (s.inode ip).d t := by
      by_cases ht : t ≤ NDIRECT
      · rw [slot_direct _ ht, slot_direct _ ht, haddrs]
      · rw [if_neg (by omega), ← slot_frees hfr.blk (d := (s.inode ip).d)
          (fun hh => (hrep.indirect hi hh).1.1)]
        have hne : NDIRECT ≠ k := by omega
        unfold slot
        rw [if_neg ht, if_neg ht, haddrs, if_neg hne]
    rw [hfr.cell_self hi, hs, (Readdress.refl ip s).cell_self hi]
    by_cases e : t = k <;> simp [e]
  · rw [if_neg fun e => hl (by rw [e]), hfr.cell_other hrep hl]

end

theorem truncDirect_spec (passes : Nat) : ∀ {s : St} {k : Nat}, k + passes ≤ NDIRECT →
    Rep sb full s.blk (view s ip) → Live sb (view s ip) (s.inode ip).inum →
    Wp (truncDirect sb ip passes k) s (fun _ s' => Frees sb ip s s' ∧ Rep sb full s'.blk (view s' ip) ∧
      ∀ t, (s'.inode ip).d.addrs t = if k ≤ t ∧
      t < k + passes then 0 else (s.inode ip).d.addrs t) (fun _ => False) := by
  induction passes with
  | zero =>
    intro s k _ hrep _
    unfold truncDirect
    rw [wp_pure]
    exact ⟨Frees.refl sb ip s, hrep, fun t => by rw [if_neg (by omega)]⟩
  | succ passes ih =>
    intro s k hk hrep hi
    unfold truncDirect
    refine (freeAddr_spec hrep (by omega) hi).bind (fun _ s1 h1 => ?_)
    obtain ⟨hf1, hr1, ha1⟩ := h1
    refine (ih (by omega) hr1 (hf1.toReaddress.live_self hi)).post fun _ s' h2 => ?_
    obtain ⟨hf2, hr2, ha2⟩ := h2
    refine ⟨hf1.trans hf2, hr2, fun t => ?_⟩
    rw [ha2, ha1]
    by_cases e : t = k
    · rw [if_pos e, if_pos (show k ≤ t ∧ t < k + (passes + 1) by omega), ite_self]
    · rw [if_neg e]
      by_cases hin : k + 1 ≤ t ∧ t < k + 1 + passes
      · rw [if_pos hin, if_pos (by omega)]
      · rw [if_neg hin, if_neg (by omega)]

/-! ## The indirect block -/

/-- The cells after `j` passes of the second loop, started in `s`: the
entries before `j` are still in the indirect block, but their blocks are no
longer theirs. -/
def drained (sb : Superblock) (ip : Fin NINODE) (s : St) (j : Nat) (l : Nat × Nat) : Option Nat :=
  if l.1 = (s.inode ip).inum ∧ NDIRECT < l.2 ∧ l.2 < NDIRECT + 1 + j then none
  else cell sb s.blk (view s ip) l

theorem drained_of_not {l : Nat × Nat}
    (h : ¬(l.1 = (s.inode ip).inum ∧ NDIRECT < l.2 ∧ l.2 < NDIRECT + 1 + j)) :
    drained sb ip s j l = cell sb s.blk (view s ip) l := if_neg h

structure Draining (sb : Superblock) (full : Prop) (ip : Fin NINODE) (s : St) (j : Nat) (s' : St) : Prop
    extends Frees sb ip s s' where
  inodes : s'.inode = s.inode
  ledger : Ledger full (drained sb ip s j) (InData sb) (fun b => used sb s'.blk b = true)
  metadata : ∀ b, b < sb.nmeta → used sb s'.blk b = true

theorem Draining.start (hrep : Rep sb full s.blk (view s ip)) : Draining sb full ip s 0 s := by
  refine ⟨Frees.refl sb ip s, rfl, hrep.ledger.congr (fun l => ?_) (fun _ _ => Iff.rfl), hrep.metadata⟩
  exact drained_of_not (by omega)

theorem freeEntry_spec {s1 : St} (hi : Live sb (view s ip) (s.inode ip).inum)
    (hrep : Rep sb full s.blk (view s ip)) (h0 : (s.inode ip).d.addrs NDIRECT ≠ 0)
    (hd : Draining sb full ip s j s1) :
    Wp (freeEntry sb ((s.inode ip).d.addrs NDIRECT) j) s1 (fun _ s' => Draining sb full ip s (j + 1) s')
      (fun _ => False) := by
  have hind := hrep.indirect hi h0
  have hslot : slot s.blk (view s ip (s.inode ip).inum) (NDIRECT + 1 + j) =
      ((s.blk ((s.inode ip).d.addrs NDIRECT)).word j).toNat := by
    rw [view_self]
    unfold slot
    rw [if_neg (by omega), if_neg h0, show NDIRECT + 1 + j - (NDIRECT + 1) = j by omega]
  have hnext : ∀ l : Nat × Nat, l ≠ ((s.inode ip).inum, NDIRECT + 1 + j) →
      ((l.1 = (s.inode ip).inum ∧ NDIRECT < l.2 ∧ l.2 < NDIRECT + 1 + (j + 1)) ↔
        (l.1 = (s.inode ip).inum ∧ NDIRECT < l.2 ∧ l.2 < NDIRECT + 1 + j)) := by
    intro l hl
    have : l.1 = (s.inode ip).inum → l.2 ≠ NDIRECT + 1 + j := fun e1 e2 => hl (Prod.ext e1 e2)
    constructor <;> intro h <;> have := this h.1 <;> omega
  unfold freeEntry
  rw [wp_bind, wp_bread, hd.blk _ hind.1.1, wp_ite]
  refine ⟨fun hw => ?_, fun hw => ?_⟩
  · have hw' : slot s.blk (view s ip (s.inode ip).inum) (NDIRECT + 1 + j) ≠ 0 := by
      rw [hslot]
      intro e
      exact hw (UInt32.toNat_inj.1 e)
    have hcell := cell_of_slot hi hw'
    rw [hslot] at hcell
    refine (bfree_cell hd.ledger hd.metadata
      (k := ((s.inode ip).inum, NDIRECT + 1 + j)) ((drained_of_not (by simp)).trans hcell)
      (fun l => rfl)).post
      fun _ s' hs' => ?_
    obtain ⟨e1, e2, e3, e4, e5, e6⟩ := hs'
    have hfr : Frees sb ip s1 s' := ⟨⟨e1, e3, fun k _ => by rw [e2], _, by rw [e2]⟩, e4⟩
    refine ⟨hd.toFrees.trans hfr, e2.trans hd.inodes, e6.congr (fun l => ?_) (fun _ _ => Iff.rfl), e5⟩
    by_cases e : l = ((s.inode ip).inum, NDIRECT + 1 + j)
    · rw [if_pos e, drained, if_pos (by rw [e]; exact ⟨rfl, by omega, by omega⟩)]
    · rw [if_neg e]
      unfold drained
      simp only [hnext l e]
  · rw [wp_pure]
    refine { hd with ledger := hd.ledger.congr (fun l => ?_) (fun _ _ => Iff.rfl) }
    by_cases e : l = ((s.inode ip).inum, NDIRECT + 1 + j)
    · have hz : cell sb s.blk (view s ip) l = none := by
        rw [e, cell_live hi, hslot, if_pos (by rw [not_not.1 hw]; rfl)]
      unfold drained
      rw [hz, ite_self, ite_self]
    · unfold drained
      simp only [hnext l e]

theorem truncEntries_spec (hi : Live sb (view s ip) (s.inode ip).inum)
    (hrep : Rep sb full s.blk (view s ip)) (h0 : (s.inode ip).d.addrs NDIRECT ≠ 0) (passes : Nat) :
    ∀ {s1 : St} {j : Nat}, Draining sb full ip s j s1 →
      Wp (truncEntries sb ((s.inode ip).d.addrs NDIRECT) passes j) s1
        (fun _ s' => Draining sb full ip s (j + passes) s') (fun _ => False) := by
  induction passes with
  | zero =>
    intro s1 j hd
    unfold truncEntries
    rw [wp_pure]
    exact hd
  | succ passes ih =>
    intro s1 j hd
    unfold truncEntries
    refine (freeEntry_spec hi hrep h0 hd).bind (fun _ s2 h2 => ?_)
    have h := ih h2
    rwa [show j + 1 + passes = j + (passes + 1) by omega] at h

section
variable (hrep : Rep sb full s.blk (view s ip))
include hrep

/-- Without the indirect block all slots from `NDIRECT` on are empty. -/
theorem cell_drained (hi : Live sb (view s ip) (s.inode ip).inum) (hfr : Frees sb ip s s')
    (haddrs : ∀ t, (s'.inode ip).d.addrs t = if t = NDIRECT then 0 else (s.inode ip).d.addrs t)
    (l : Nat × Nat) : cell sb s'.blk (view s' ip) l =
      if l = ((s.inode ip).inum, NDIRECT) then none else drained sb ip s NINDIRECT l := by
  unfold drained
  by_cases hl : l.1 = (s.inode ip).inum
  · obtain ⟨_, t⟩ := l
    obtain rfl := hl
    rw [hfr.cell_self hi, (Readdress.refl ip s).cell_self hi]
    by_cases hlt : t < NDIRECT
    · have h2 : ¬(NDIRECT < t ∧ t < NDIRECT + 1 + NINDIRECT) := by omega
      have h3 : t ≠ NDIRECT := by omega
      rw [slot_direct _ (Nat.le_of_lt hlt), slot_direct _ (Nat.le_of_lt hlt), haddrs, if_neg h3]
      simp [h2, h3]
    · have hz : slot s'.blk (s'.inode ip).d t = 0 := by
        unfold slot
        rw [haddrs, haddrs, if_pos rfl, if_pos rfl]
        split
        · rw [if_pos (by omega)]
        · rfl
      rw [hz, if_pos rfl]
      by_cases e3 : t < NDIRECT + 1 + NINDIRECT
      · by_cases e2 : t = NDIRECT
        · simp [e2]
        · have h2 : NDIRECT < t := by omega
          simp [h2, e3]
      · rw [slot_past (by omega), if_pos rfl, ite_self, ite_self]
  · have h2 : ¬(l.1 = (s.inode ip).inum ∧ NDIRECT < l.2 ∧ l.2 < NDIRECT + 1 + NINDIRECT) := fun h => hl h.1
    rw [if_neg fun e => hl (by rw [e]), if_neg h2, hfr.cell_other hrep hl]

theorem truncIndirect_spec
    (hi : Live sb (view s ip) (s.inode ip).inum) :
    Wp (truncIndirect sb ip) s (fun _ s' => Frees sb ip s s' ∧ Rep sb full s'.blk (view s' ip) ∧
      ∀ t, (s'.inode ip).d.addrs t = if t = NDIRECT then 0 else (s.inode ip).d.addrs t) (fun _ => False) := by
  unfold truncIndirect
  rw [wp_bind, wp_getInode, wp_ite]
  refine ⟨fun h0 => ?_, fun h0 => (wp_pure _).2 ⟨.refl sb ip s, hrep, addrs_of_zero (not_not.1 h0)⟩⟩
  refine (truncEntries_spec hi hrep h0 NINDIRECT (Draining.start hrep)).bind (fun _ s1 hd => ?_)
  rw [Nat.zero_add] at hd
  have hslot : slot s.blk (view s ip (s.inode ip).inum) NDIRECT = (s.inode ip).d.addrs NDIRECT := by
    rw [view_self, slot_ndirect]
  have hcell := cell_of_slot hi (by rw [hslot]; exact h0)
  rw [hslot] at hcell
  refine (bfree_cell hd.ledger hd.metadata ((drained_of_not (by simp)).trans hcell) (fun l => rfl)).bind
    (fun _ s2 h2 => ?_)
  obtain ⟨e1, e2, e3, e4, e5, e6⟩ := h2
  refine setAddr_frees ⟨e1.trans hd.dinode, e2.trans hd.inodes, e3.trans hd.gen⟩
    (fun c hc => (e4 c hc).trans (hd.blk c hc)) fun s' hblk hfr haddrs => ⟨hfr, ⟨?_, by rwa [hblk]⟩, haddrs⟩
  exact e6.congr (cell_drained hrep hi hfr haddrs) (fun x _ => by rw [hblk])

/-! ## The whole function -/

/-- `itrunc` leaves the inode in `ip` without blocks, on disk as well. -/
structure Truncated (sb : Superblock) (full : Prop) (ip : Fin NINODE) (s s' : St) : Prop where
  inode : ∀ k, k ≠ ip → s'.inode k = s.inode k
  self : ∃ f, (∀ t, t ≤ NDIRECT → f t = 0) ∧
    s'.inode ip = { s.inode ip with d := { (s.inode ip).d with size := 0, addrs := f } }
  dinode : s'.dinode = update s.dinode (s.inode ip).inum (s'.inode ip).d
  gen : s'.gen = s.gen
  blk : ∀ c, sb.nmeta ≤ c → s'.blk c = s.blk c
  rep : Rep sb full s'.blk s'.dinode

theorem itrunc_spec (hi : Live sb (view s ip) (s.inode ip).inum) :
    Wp (itrunc sb ip) s (fun _ s' => Truncated sb full ip s s') (fun _ => False) := by
  unfold itrunc
  refine (truncDirect_spec NDIRECT (by omega) hrep hi).bind (fun _ s1 h1 => ?_)
  obtain ⟨hf1, hr1, ha1⟩ := h1
  refine (truncIndirect_spec hr1 (hf1.toReaddress.live_self hi)).bind (fun _ s2 h2 => ?_)
  obtain ⟨hf2, hr2, ha2⟩ := h2
  have hf := hf1.trans hf2
  have haddrs : ∀ t, t ≤ NDIRECT → (s2.inode ip).d.addrs t = 0 := by
    intro t ht
    rw [ha2, ha1]
    by_cases e : t = NDIRECT
    · rw [if_pos e]
    · rw [if_neg e, if_pos (by omega)]
  obtain ⟨f, hself⟩ := hf.self
  rw [wp_bind, wp_setInode, iupdate, wp_modify]
  dsimp only
  rw [update_self]
  -- the new size and the copy on disk change no slot
  have hview : ∀ j, ∃ z, update s2.dinode (s2.inode ip).inum { (s2.inode ip).d with size := 0 } j =
      { view s2 ip j with size := z } := by
    intro j
    by_cases e : j = (s2.inode ip).inum
    · exact ⟨0, by rw [e, update_self, view_self]⟩
    · exact ⟨_, by rw [update_of_ne e, view_other e]⟩
  refine ⟨fun k hk => (update_of_ne hk ..).trans (hf.inode k hk),
    ⟨f, fun t ht => by simpa only [hself] using haddrs t ht, ?_⟩, ?_,
    hf.gen, hf.blk, hr2.congr (fun j => ?_) (fun j _ t => ?_) fun _ _ => rfl⟩ <;> dsimp only
  · rw [update_self, hself]
  · rw [update_self, hf.dinode, hf.inum]
  · obtain ⟨z, e⟩ := hview j
    unfold Live
    rw [e]
  · obtain ⟨z, e⟩ := hview j
    rw [e]
    rfl

end

end Xv6.Fs
