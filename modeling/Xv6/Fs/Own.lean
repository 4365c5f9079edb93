import Mathlib.Data.Finset.Card
import Mathlib.Data.Finset.Range
import Xv6.Core.Ledger
import Xv6.Fs.Basic

/-!
# Block ownership: `balloc`, `bfree` and `bmap`

The cells of the ledger are the block addresses of the inodes: `slot d t` is
`addrs[t]`, or past the `NDIRECT + 1` of these an entry of the indirect
block. `Rep` says that they and the bitmap form a ledger over the data
blocks, a full one if `full`.

`view s ip` is the inodes on disk, except that the one cached in `ip` is
taken from memory, where `bmap` changes it before `iupdate`. `file blk d bn`
is the content of block `bn` of an inode, if it has one.

* `balloc_spec`, `bfree_spec`: what they do to the bitmap.
* `bmap_spec`: `bmap` gives the inode the block asked for, zeroed if it is
  new, and changes the contents of no file; it fails only without free blocks.
* `store_spec`: writing a block of a file changes that file only.
-/
namespace Xv6.Fs
open Function (update update_self update_of_ne)

/-! ## Cells -/

def slot (blk : Nat → Block) (d : Dinode) (t : Nat) : Nat :=
  if t ≤ NDIRECT then d.addrs t
  else if d.addrs NDIRECT = 0 then 0
  else ((blk (d.addrs NDIRECT)).word (t - (NDIRECT + 1))).toNat

/-- The slot with the address of block `bn` of a file. -/
def dataSlot (bn : Nat) : Nat := if bn < NDIRECT then bn else bn + 1

/-- An allocated inode. -/
def Live (sb : Superblock) (cur : Nat → Dinode) (i : Nat) : Prop :=
  1 ≤ i ∧ i < sb.ninodes ∧ (cur i).type ≠ .free

instance (sb : Superblock) (cur : Nat → Dinode) (i : Nat) : Decidable (Live sb cur i) :=
  inferInstanceAs (Decidable (_ ∧ _ ∧ _))

def cell (sb : Superblock) (blk : Nat → Block) (cur : Nat → Dinode) (k : Nat × Nat) : Option Nat :=
  if Live sb cur k.1 ∧ slot blk (cur k.1) k.2 ≠ 0 then some (slot blk (cur k.1) k.2) else none

/-- The bitmap bit of `b`. -/
def used (sb : Superblock) (blk : Nat → Block) (b : Nat) : Bool := (blk (sb.bblock b)).bit (b % BPB)

/-- The data blocks. -/
def InData (sb : Superblock) (b : Nat) : Prop := sb.nmeta ≤ b ∧ b < sb.size

structure Rep (sb : Superblock) (full : Prop) (blk : Nat → Block) (cur : Nat → Dinode) : Prop where
  ledger : Ledger full (cell sb blk cur) (InData sb) (fun b => used sb blk b = true)
  metadata : ∀ b, b < sb.nmeta → used sb blk b = true

variable {sb : Superblock} {full : Prop} {blk blk' : Nat → Block} {cur cur' : Nat → Dinode}

variable {k : Nat × Nat} {b t bn passes bi c j : Nat} {d : Dinode} {data : Block}
  {s s' : St} {ip : Fin NINODE}

theorem cell_some :
    cell sb blk cur k = some b ↔ Live sb cur k.1 ∧ slot blk (cur k.1) k.2 = b ∧ b ≠ 0 := by
  unfold cell
  split
  · next h => exact ⟨fun e => by cases e; exact ⟨h.1, rfl, h.2⟩, fun e => by rw [e.2.1]⟩
  · next h => exact ⟨fun e => (by cases e), fun e => absurd ⟨e.1, by rw [e.2.1]; exact e.2.2⟩ h⟩

theorem cell_live (h : Live sb cur k.1) :
    cell sb blk cur k = if slot blk (cur k.1) k.2 = 0 then none else some (slot blk (cur k.1) k.2) := by
  by_cases h0 : slot blk (cur k.1) k.2 = 0 <;> simp [cell, h, h0]

theorem cell_dead (h : ¬Live sb cur k.1) : cell sb blk cur k = none := if_neg (fun hh => h hh.1)

theorem cell_of_slot {i : Nat} (hl : Live sb cur i) (h : slot blk (cur i) t ≠ 0) :
    cell sb blk cur (i, t) = some (slot blk (cur i) t) := cell_some.2 ⟨hl, rfl, h⟩

namespace Superblock
variable (sb : Superblock)

variable {b : Nat}

theorem bblock_lt (h : b < sb.size) : sb.bblock b < sb.nmeta := by
  have : b / BPB ≤ sb.size / BPB := Nat.div_le_div_right (Nat.le_of_lt h)
  unfold bblock nmeta nbitmap
  omega

theorem nmeta_pos : 0 < sb.nmeta :=
  Nat.add_pos_left (Nat.add_pos_left (Nat.add_pos_left Nat.two_pos _) _) _

theorem nmeta_le : sb.nmeta ≤ sb.size := sb.fits

theorem bblock_inj (h : sb.bblock b = sb.bblock c) : b % BPB = c % BPB ↔ b = c := by
  have e : b / BPB = c / BPB := Nat.add_right_cancel h
  refine ⟨fun h2 => ?_, fun h2 => by rw [h2]⟩
  rw [← Nat.div_add_mod b BPB, ← Nat.div_add_mod c BPB, e, h2]

end Superblock

/-- Cells and bitmap decide. -/
theorem Rep.congr (h : Rep sb full blk cur) (hl : ∀ i, Live sb cur' i ↔ Live sb cur i)
    (hs : ∀ i, Live sb cur i → ∀ t, slot blk' (cur' i) t = slot blk (cur i) t)
    (hu : ∀ c, c < sb.size → used sb blk' c = used sb blk c) : Rep sb full blk' cur' := by
  refine ⟨h.ledger.congr (fun k => ?_) (fun r hr => by rw [hu r hr.2]), fun b hb => ?_⟩
  · by_cases hk : Live sb cur k.1
    · rw [cell_live hk, cell_live ((hl _).2 hk), hs k.1 hk]
    · rw [cell_dead hk, cell_dead (fun hh => hk ((hl _).1 hh))]
  · have := sb.nmeta_le
    rw [hu b (by omega)]; exact h.metadata b hb

theorem bit_index_lt (b : Nat) : b % BPB / 8 < BSIZE := by
  have : b % BPB < BPB := Nat.mod_lt _ (by decide)
  have e : BPB = BSIZE * 8 := rfl
  omega

/-- Only the indirect block decides what the slots are. -/
theorem slot_congr (h : d.addrs NDIRECT ≠ 0 → blk' (d.addrs NDIRECT) = blk (d.addrs NDIRECT)) (t : Nat) :
    slot blk' d t = slot blk d t := by
  unfold slot
  split
  · rfl
  · split
    · rfl
    · rename_i h0
      rw [h h0]

theorem slot_direct (d : Dinode) (ht : t ≤ NDIRECT) : slot blk d t = d.addrs t := if_pos ht

theorem slot_ndirect (blk : Nat → Block) :
    slot blk d NDIRECT = d.addrs NDIRECT := slot_direct d (Nat.le_refl _)

theorem slot_entry (h : d.addrs NDIRECT ≠ 0) (j : Nat) :
    slot blk d (NDIRECT + 1 + j) = ((blk (d.addrs NDIRECT)).word j).toNat := by
  unfold slot
  rw [if_neg (by omega), if_neg h, Nat.add_sub_cancel_left]

theorem slot_no_entry (h : d.addrs NDIRECT = 0) (j : Nat) : slot blk d (NDIRECT + 1 + j) = 0 := by
  unfold slot
  rw [if_neg (by omega), if_pos h]

theorem dataSlot_direct (h : bn < NDIRECT) : dataSlot bn = bn := if_pos h

theorem dataSlot_indirect (h : ¬bn < NDIRECT) : dataSlot bn = NDIRECT + 1 + (bn - NDIRECT) := by
  rw [dataSlot, if_neg h]
  omega

theorem dataSlot_ne (bn : Nat) : dataSlot bn ≠ NDIRECT := by
  unfold dataSlot
  split <;> omega

theorem dataSlot_inj {a : Nat} (h : dataSlot a = dataSlot b) : a = b := by
  unfold dataSlot at h
  split at h <;> split at h <;> omega

/-- There are no slots past the last entry of the indirect block. -/
theorem slot_past (h : NDIRECT + 1 + NINDIRECT ≤ t) : slot blk d t = 0 := by
  obtain ⟨j, rfl⟩ := Nat.exists_eq_add_of_le (Nat.le_trans (Nat.le_add_right _ NINDIRECT) h)
  by_cases h0 : d.addrs NDIRECT = 0
  · exact slot_no_entry h0 j
  have e : NINDIRECT = 256 := rfl
  have hz : (blk (d.addrs NDIRECT)).word j = (Bytes.zero : Block).word j := by
    refine congrArg UInt32.ofNat (Bytes.getLE_congr (fun i h1 h2 => ?_))
    rw [Bytes.get_of_ge _ (show BSIZE ≤ i by have : BSIZE = 1024 := rfl; omega), Bytes.get_zero]
  rw [slot_entry h0, hz, Bytes.word_zero]; rfl

/-! ## The bitmap -/

/-- The state after `balloc` has taken `b`. -/
def taken (sb : Superblock) (s : St) (b : Nat) : St :=
  { s with blk := update (update s.blk (sb.bblock b) ((s.blk (sb.bblock b)).setBit (b % BPB))) b Bytes.zero }

theorem freeBit_some {r : Nat} (h : freeBit sb data b passes bi = some r) :
    bi ≤ r ∧ r < bi + passes ∧ b + r < sb.size ∧ data.bit r = false := by
  induction passes generalizing bi with
  | zero => cases h
  | succ passes ih =>
    unfold freeBit at h
    split at h
    · rename_i hlt
      split at h
      · obtain ⟨h1, h2, h3⟩ := ih h
        exact ⟨by omega, by omega, h3⟩
      · rename_i hbit
        cases h
        exact ⟨Nat.le_refl _, by omega, hlt, by simpa using hbit⟩
    · cases h

theorem freeBit_none (h : freeBit sb data b passes bi = none) (x : Nat)
    (h1 : bi ≤ x) (h2 : x < bi + passes) (h3 : b + x < sb.size) : data.bit x = true := by
  induction passes generalizing bi with
  | zero => omega
  | succ passes ih =>
    unfold freeBit at h
    rw [if_pos (by omega)] at h
    split at h
    · rename_i hbit
      by_cases e : x = bi
      · rw [e]; exact hbit
      · exact ih h (by omega) (by omega)
    · cases h

theorem ballocFrom_spec (s : St) (passes b : Nat) (hb : b % BPB = 0) (hp : sb.size ≤ b + passes * BPB) :
    Wp (ballocFrom sb passes b) s
      (fun r s' => (r = 0 ∧ s' = s ∧ ∀ c, b ≤ c → c < sb.size → used sb s.blk c = true) ∨
        (r < sb.size ∧ used sb s.blk r = false ∧ s' = taken sb s r)) (fun _ => False) := by
  induction passes generalizing b with
  | zero =>
    unfold ballocFrom
    rw [wp_pure]
    exact .inl ⟨rfl, rfl, fun c h1 h2 => by omega⟩
  | succ passes ih =>
    have hpos : 0 < BPB := by decide
    unfold ballocFrom
    rw [wp_ite]
    refine ⟨fun hlt => ?_, fun hge => (wp_pure _).2 (.inl ⟨rfl, rfl, fun c h1 h2 => by omega⟩)⟩
    rw [wp_bind, wp_bread]
    -- a block of this part of the map is b + x
    have hdiv : ∀ x, x < BPB → (b + x) % BPB = x ∧ sb.bblock (b + x) = sb.bblock b := by
      intro x hx
      obtain ⟨q, hq⟩ := Nat.dvd_of_mod_eq_zero hb
      have h1 : (b + x) % BPB = x := by
        rw [hq, Nat.mul_add_mod, Nat.mod_eq_of_lt hx]
      have h2 : (b + x) / BPB = b / BPB := by
        rw [hq, Nat.mul_add_div hpos, Nat.mul_div_cancel_left _ hpos, Nat.div_eq_of_lt hx, Nat.add_zero]
      exact ⟨h1, by rw [Superblock.bblock, Superblock.bblock, h2]⟩
    cases hf : freeBit sb (s.blk (sb.bblock b)) b BPB 0 with
    | some r =>
      obtain ⟨-, h2, h3, h4⟩ := freeBit_some hf
      obtain ⟨e1, e2⟩ := hdiv r (by omega)
      simp only [wp_bind, wp_bstore, bzero, wp_pure]
      refine .inr ⟨h3, ?_, ?_⟩
      · rw [used, e1, e2]; exact h4
      · rw [taken, e1, e2]
    | none =>
      have hnext : (b + BPB) % BPB = 0 := by rw [Nat.add_mod_right]; exact hb
      have hpass : sb.size ≤ b + BPB + passes * BPB := by rw [Nat.succ_mul] at hp; omega
      refine (ih (b + BPB) hnext hpass).post fun r s' h => ?_
      rcases h with ⟨h1, h2, h3⟩ | h
      · refine .inl ⟨h1, h2, fun c hc1 hc2 => ?_⟩
        by_cases hlt' : c < b + BPB
        · obtain ⟨e1, e2⟩ := hdiv (c - b) (by omega)
          rw [show b + (c - b) = c by omega] at e1 e2
          rw [used, e1, e2]
          exact freeBit_none hf (c - b) (by omega) (by omega) (by omega)
        · exact h3 c (by omega) hc2
      · exact .inr h

/-- `balloc` takes a free data block, or there is none. -/
theorem balloc_spec (hm : ∀ b, b < sb.nmeta → used sb s.blk b = true) :
    Wp (balloc sb) s
      (fun b s' => (b = 0 ∧ s' = s ∧ ∀ c, c < sb.size → used sb s.blk c = true) ∨
        (b ≠ 0 ∧ InData sb b ∧ used sb s.blk b = false ∧ s' = taken sb s b)) (fun _ => False) := by
  have hcover : sb.size ≤ 0 + sb.nbitmap * BPB := by
    have h1 := Nat.div_add_mod sb.size BPB
    have h2 : sb.size % BPB < BPB := Nat.mod_lt _ (by decide)
    rw [Superblock.nbitmap, Nat.succ_mul, Nat.mul_comm]
    omega
  refine (ballocFrom_spec s sb.nbitmap 0 rfl hcover).post fun b s' h => ?_
  rcases h with ⟨h1, h2, h3⟩ | ⟨h1, h2, h3⟩
  · exact .inl ⟨h1, h2, fun c => h3 c (Nat.zero_le _)⟩
  · have hdata : sb.nmeta ≤ b := by
      by_contra hlt
      rw [hm b (by omega)] at h2; cases h2
    have := sb.nmeta_pos
    exact .inr ⟨by omega, ⟨hdata, h1⟩, h2, h3⟩

section Taken
variable {s : St} {b : Nat}

theorem taken_self : (taken sb s b).blk b = Bytes.zero := update_self ..

variable {c : Nat}

theorem taken_other (hb : InData sb b) (hc : sb.nmeta ≤ c) (hne : c ≠ b) :
    (taken sb s b).blk c = s.blk c := by
  have := sb.bblock_lt hb.2
  rw [taken]
  simp only [update_of_ne hne, update_of_ne (show c ≠ sb.bblock b by omega)]

theorem used_taken (hb : InData sb b) (hc : c < sb.size) :
    used sb (taken sb s b).blk c = (decide (b = c) || used sb s.blk c) := by
  have hlt := sb.bblock_lt hc
  have hne : sb.bblock c ≠ b := by have := hb.1; omega
  unfold used taken
  simp only [update_of_ne hne]
  by_cases e : sb.bblock c = sb.bblock b
  · rw [e, update_self, Bytes.bit_setBit _ (bit_index_lt b)]
    simp [sb.bblock_inj e.symm]
  · have hbc : ¬b = c := fun h => e (by rw [h])
    simp [e, hbc]

end Taken

/-- The number of free blocks. -/
def nfree (sb : Superblock) (blk : Nat → Block) : Nat :=
  ((Finset.range sb.size).filter fun b => used sb blk b = false).card

theorem nfree_take (hb : b < sb.size) (hfree : used sb blk b = false)
    (hu : ∀ c, c < sb.size → used sb blk' c = (decide (b = c) || used sb blk c)) :
    nfree sb blk' + 1 = nfree sb blk := by
  have hmem : b ∈ (Finset.range sb.size).filter fun b => used sb blk b = false :=
    Finset.mem_filter.2 ⟨Finset.mem_range.2 hb, hfree⟩
  have herase : ((Finset.range sb.size).filter fun b => used sb blk' b = false) =
      ((Finset.range sb.size).filter fun b => used sb blk b = false).erase b := by
    ext c
    by_cases hc : c < sb.size
    · simp [hc, hu c hc, eq_comm (a := b)]
    · simp [hc]
  rw [nfree, nfree, herase, Finset.card_erase_add_one hmem]

theorem nfree_zero (h : ∀ c, c < sb.size → used sb blk c = true) : nfree sb blk = 0 := by
  rw [nfree, Finset.card_eq_zero, Finset.filter_eq_empty_iff]
  exact fun c hc => by simp [h c (Finset.mem_range.1 hc)]

/-- The state after `bfree` has given `b` back. -/
def released (sb : Superblock) (s : St) (b : Nat) : St :=
  { s with blk := update s.blk (sb.bblock b) ((s.blk (sb.bblock b)).clearBit (b % BPB)) }

theorem released_other (hb : b < sb.size) (hc : sb.nmeta ≤ c) :
    (released sb s b).blk c = s.blk c := by
  have := sb.bblock_lt hb
  exact update_of_ne (by omega) ..

theorem used_released :
    used sb (released sb s b).blk c = (!decide (b = c) && used sb s.blk c) := by
  unfold used released
  by_cases e : sb.bblock c = sb.bblock b
  · rw [e]
    simp [Bytes.bit_clearBit _ (bit_index_lt b), sb.bblock_inj e.symm]
  · have hbc : ¬b = c := fun h => e (by rw [h])
    simp [update_of_ne e, hbc]

theorem bfree_spec (hb : used sb s.blk b = true) :
    Wp (bfree sb b) s (fun _ s' => s' = released sb s b) (fun _ => False) := by
  unfold used at hb
  unfold bfree
  rw [wp_bind, wp_bread, if_pos hb, wp_bstore]
  exact rfl

/-! ## Files -/

/-- The inodes, the one cached in `ip` as it is in memory. -/
def view (s : St) (ip : Fin NINODE) : Nat → Dinode := update s.dinode (s.inode ip).inum (s.inode ip).d

theorem view_self (s : St) (ip : Fin NINODE) : view s ip (s.inode ip).inum = (s.inode ip).d := update_self ..

theorem view_other (h : j ≠ (s.inode ip).inum) : view s ip j = s.dinode j :=
  update_of_ne h ..

/-- Block `bn` of a file. -/
def file (blk : Nat → Block) (d : Dinode) (bn : Nat) : Option Block :=
  if slot blk d (dataSlot bn) = 0 then none else some (blk (slot blk d (dataSlot bn)))

theorem file_congr {d' : Dinode} (hs : slot blk' d' (dataSlot bn) = slot blk d (dataSlot bn))
    (hb : slot blk d (dataSlot bn) ≠ 0 → blk' (slot blk d (dataSlot bn)) = blk (slot blk d (dataSlot bn))) :
    file blk' d' bn = file blk d bn := by
  unfold file
  rw [hs]
  split
  · rfl
  · rename_i h
    rw [hb h]

/-- Only the addresses in the copy of the inode in `ip` change. -/
structure Readdress (ip : Fin NINODE) (s s' : St) : Prop where
  dinode : s'.dinode = s.dinode
  gen : s'.gen = s.gen
  inode : ∀ k, k ≠ ip → s'.inode k = s.inode k
  self : ∃ f, s'.inode ip = { s.inode ip with d := { (s.inode ip).d with addrs := f } }

theorem Readdress.refl (ip : Fin NINODE) (s : St) : Readdress ip s s := ⟨rfl, rfl, fun _ _ => rfl, _, rfl⟩

theorem Readdress.trans {t u : St} (h : Readdress ip s t) (h' : Readdress ip t u) :
    Readdress ip s u := by
  obtain ⟨f, hf⟩ := h.self
  obtain ⟨g, hg⟩ := h'.self
  refine ⟨h'.dinode.trans h.dinode, h'.gen.trans h.gen,
    fun k hk => (h'.inode k hk).trans (h.inode k hk), g, ?_⟩
  rw [hg, hf]

theorem Readdress.inum (h : Readdress ip s s') :
    (s'.inode ip).inum = (s.inode ip).inum := by
  obtain ⟨f, hf⟩ := h.self
  rw [hf]

theorem Readdress.live (h : Readdress ip s s') (j : Nat) :
    Live sb (view s' ip) j ↔ Live sb (view s ip) j := by
  have htype : (view s' ip j).type = (view s ip j).type := by
    obtain ⟨f, hf⟩ := h.self
    by_cases e : j = (s.inode ip).inum
    · rw [e, view_self, ← h.inum, view_self, hf]
    · rw [view_other e, view_other (by rw [h.inum]; exact e), h.dinode]
  unfold Live
  rw [htype]

/-- The slots of the other inodes. -/
theorem Readdress.other (h : Readdress ip s s')
    (hj : j ≠ (s.inode ip).inum) : view s' ip j = view s ip j := by
  rw [view_other hj, view_other (by rw [h.inum]; exact hj), h.dinode]

theorem Readdress.cell_other {l : Nat × Nat} (h : Readdress ip s s') (hne : l.1 ≠ (s.inode ip).inum)
    (hs : Live sb (view s ip) l.1 → slot s'.blk (view s ip l.1) l.2 = slot s.blk (view s ip l.1) l.2) :
    cell sb s'.blk (view s' ip) l = cell sb s.blk (view s ip) l := by
  by_cases hl : Live sb (view s ip) l.1
  · rw [cell_live hl, cell_live ((h.live _).2 hl), h.other hne, hs hl]
  · rw [cell_dead hl, cell_dead (mt (h.live _).1 hl)]

theorem Readdress.cell_self (h : Readdress ip s s') (hi : Live sb (view s ip) (s.inode ip).inum) (t : Nat) :
    cell sb s'.blk (view s' ip) ((s.inode ip).inum, t) =
      if slot s'.blk (s'.inode ip).d t = 0 then none else some (slot s'.blk (s'.inode ip).d t) := by
  rw [cell_live ((h.live _).2 hi)]
  rw [← h.inum, view_self]

/-- Slot `t` of the inode in `ip`, empty before, holds the new block `r`. -/
structure Alloc (sb : Superblock) (ip : Fin NINODE) (t r : Nat) (s s' : St) :
    Prop extends Readdress ip s s' where
  data : InData sb r
  fresh : used sb s.blk r = false
  empty : slot s.blk (s.inode ip).d t = 0
  slots : ∀ u, slot s'.blk (s'.inode ip).d u = if u = t then r else slot s.blk (s.inode ip).d u
  used : ∀ c, c < sb.size → Fs.used sb s'.blk c = (decide (r = c) || Fs.used sb s.blk c)
  zero : s'.blk r = Bytes.zero
  /-- the indirect block is written if that is where the slot is -/
  blk : ∀ c, sb.nmeta ≤ c → c ≠ r → (t ≤ NDIRECT ∨ c ≠ (s.inode ip).d.addrs NDIRECT) → s'.blk c = s.blk c

namespace Alloc
variable {ip : Fin NINODE} {t r : Nat} {s s' : St}

theorem ne_zero (h : Alloc sb ip t r s s') : r ≠ 0 := by
  have := sb.nmeta_pos
  have := h.data.1
  omega

variable {j u : Nat}

section
variable (h : Alloc sb ip t r s s')
include h

section
variable (hrep : Rep sb full s.blk (view s ip))
include hrep

/-- No slot of an allocated inode held the new block. -/
theorem unheld
    (hj : Live sb (view s ip) j) (hu : slot s.blk (view s ip j) u ≠ 0) : slot s.blk (view s ip j) u ≠ r := by
  intro e
  have := hrep.ledger.in_use _ _ (cell_of_slot hj hu)
  rw [e, h.fresh] at this; cases this

/-- A block that an allocated inode holds is left alone, unless it is the
indirect block of this one. -/
theorem blk_held
    (hi : Live sb (view s ip) (s.inode ip).inum) (hj : Live sb (view s ip) j)
    (hu : slot s.blk (view s ip j) u ≠ 0) (hne : j ≠ (s.inode ip).inum ∨ u ≠ NDIRECT) :
    s'.blk (slot s.blk (view s ip j) u) = s.blk (slot s.blk (view s ip j) u) := by
  have hcell := cell_of_slot hj hu
  refine h.blk _ (hrep.ledger.in_pool _ _ hcell).1 (h.unheld hrep hj hu) (.inr fun e => ?_)
  have hind : cell sb s.blk (view s ip) ((s.inode ip).inum, NDIRECT) = some (slot s.blk (view s ip j) u) := by
    refine cell_some.2 ⟨hi, ?_, hu⟩
    rw [view_self, slot_ndirect, e]
  obtain ⟨rfl, rfl⟩ := Prod.mk.inj (hrep.ledger.inj _ _ _ hcell hind)
  exact hne.elim (fun h => h rfl) fun h => h rfl

theorem slots_other
    (hi : Live sb (view s ip) (s.inode ip).inum) (hj : Live sb (view s ip) j)
    (hne : j ≠ (s.inode ip).inum) (u : Nat) :
    slot s'.blk (view s' ip j) u = slot s.blk (view s ip j) u := by
  rw [h.toReaddress.other hne]
  refine slot_congr (fun h0 => ?_) u
  rw [← slot_ndirect s.blk] at h0 ⊢
  exact h.blk_held hrep hi hj h0 (.inl hne)

theorem rep
    (hi : Live sb (view s ip) (s.inode ip).inum) : Rep sb full s'.blk (view s' ip) := by
  refine ⟨hrep.ledger.take (k := ((s.inode ip).inum, t)) (r := r) ?_ h.data ?_ (fun l => ?_) (fun x hx => ?_),
    fun b hb => ?_⟩
  · cases hc : cell sb s.blk (view s ip) ((s.inode ip).inum, t) with
    | none => rfl
    | some b =>
      obtain ⟨-, h1, h2⟩ := cell_some.1 hc
      rw [view_self, h.empty] at h1
      exact absurd h1.symm h2
  · rw [h.fresh]; simp
  · by_cases hl : l.1 = (s.inode ip).inum
    · obtain ⟨_, u⟩ := l
      obtain rfl := hl
      rw [h.toReaddress.cell_self hi, h.slots, (Readdress.refl ip s).cell_self hi]
      by_cases e : u = t <;> simp [e, h.ne_zero]
    · rw [if_neg fun e => hl (by rw [e]), h.toReaddress.cell_other hl fun hj => ?_]
      rw [← h.slots_other hrep hi hj hl, h.toReaddress.other hl]
  · rw [h.used x hx.2, Bool.or_eq_true, decide_eq_true_eq, eq_comm]
  · have := sb.nmeta_le
    rw [h.used b (by omega), hrep.metadata b hb, Bool.or_true]

theorem file_other
    (hi : Live sb (view s ip) (s.inode ip).inum) (hj : Live sb (view s ip) j)
    (hne : j ≠ (s.inode ip).inum) (bn : Nat) : file s'.blk (view s' ip j) bn = file s.blk (view s ip j) bn :=
  file_congr (h.slots_other hrep hi hj hne _) (fun h0 => h.blk_held hrep hi hj h0 (.inl hne))

theorem file_self
    (hi : Live sb (view s ip) (s.inode ip).inum) (bn : Nat) :
    file s'.blk (s'.inode ip).d bn = if dataSlot bn =
    t then some Bytes.zero else file s.blk (s.inode ip).d bn := by
  by_cases e : dataSlot bn = t
  · rw [if_pos e, file, h.slots, if_pos e, if_neg h.ne_zero, h.zero]
  · rw [if_neg e]
    refine file_congr (by rw [h.slots, if_neg e]) (fun h0 => ?_)
    have := h.blk_held hrep hi (j := (s.inode ip).inum) (u := dataSlot bn) hi
    rw [view_self] at this
    exact this h0 (.inr (dataSlot_ne bn))

end

theorem nfree : Fs.nfree sb s'.blk + 1 = Fs.nfree sb s.blk :=
  nfree_take h.data.2 h.fresh h.used

end

end Alloc

/-! ## bmap -/

section Bmap
variable {ip : Fin NINODE} {s : St}

/-- The indirect block of an allocated inode is a data block in use. -/
theorem Rep.indirect (hrep : Rep sb full s.blk (view s ip)) (hi : Live sb (view s ip) (s.inode ip).inum)
    (h0 : (s.inode ip).d.addrs NDIRECT ≠ 0) :
    InData sb ((s.inode ip).d.addrs NDIRECT) ∧ used sb s.blk ((s.inode ip).d.addrs NDIRECT) = true := by
  have hcell : cell sb s.blk (view s ip) ((s.inode ip).inum, NDIRECT) = some ((s.inode ip).d.addrs NDIRECT) :=
    cell_some.2 ⟨hi, by rw [view_self, slot_ndirect], h0⟩
  exact ⟨hrep.ledger.in_pool _ _ hcell, hrep.ledger.in_use _ _ hcell⟩

variable {k b bn a : Nat} {s' : St}

section
variable (hrep : Rep sb full s.blk (view s ip))
include hrep

section
variable (hi : Live sb (view s ip) (s.inode ip).inum)
include hi

/-- A new block for `addrs[k]`. -/
theorem alloc_addr
    (hk : k ≤ NDIRECT) (h0 : (s.inode ip).d.addrs k = 0) (hb : InData sb b)
    (hfree : used sb s.blk b = false) :
    Alloc sb ip k b s { taken sb s b with inode := update s.inode ip { s.inode ip with
      d := { (s.inode ip).d with addrs := update (s.inode ip).d.addrs k b } } } := by
  refine ⟨⟨rfl, rfl, fun j hj => update_of_ne hj .., _, update_self ..⟩, hb, hfree, ?_, fun u => ?_,
    fun c hc => used_taken hb hc, taken_self, fun c hc hne _ => taken_other hb hc hne⟩
  · rw [slot_direct _ hk]; exact h0
  · dsimp only
    rw [update_self]
    by_cases hu : u ≤ NDIRECT
    · rw [slot_direct _ hu, slot_direct _ hu]
      exact Function.update_apply ..
    · rw [if_neg (by omega)]
      by_cases e : k = NDIRECT
      · -- the new indirect block has no entries
        subst e
        simp [slot, hu, h0, taken_self, Bytes.word_zero]
      · by_cases hind : (s.inode ip).d.addrs NDIRECT = 0
        · simp [slot, hu, hind, Ne.symm e]
        · obtain ⟨h1, h2⟩ := hrep.indirect hi hind
          have h3 : (s.inode ip).d.addrs NDIRECT ≠ b := by intro e'; rw [e', hfree] at h2; cases h2
          simp [slot, hu, Ne.symm e, taken_other hb h1.1 h3]

/-- A new block for an entry of the indirect block. -/
theorem alloc_entry
    (hj : j < NINDIRECT) (hind : (s.inode ip).d.addrs NDIRECT ≠ 0)
    (h0 : (s.blk ((s.inode ip).d.addrs NDIRECT)).word j = 0) (hb : InData sb b)
    (hfree : used sb s.blk b = false) : Alloc sb ip (NDIRECT + 1 + j) b s { taken sb s b with
      blk := update (taken sb s b).blk ((s.inode ip).d.addrs NDIRECT)
        (((taken sb s b).blk ((s.inode ip).d.addrs NDIRECT)).setWord j (UInt32.ofNat b)) } := by
  obtain ⟨h1, h2⟩ := hrep.indirect hi hind
  have h3 : (s.inode ip).d.addrs NDIRECT ≠ b := by intro e'; rw [e', hfree] at h2; cases h2
  have hold := taken_other (s := s) hb h1.1 h3
  rw [hold]
  generalize hx : (s.inode ip).d.addrs NDIRECT = x at *
  have hlen : BSIZE = 4 * NINDIRECT := by decide
  have hnat : (UInt32.ofNat b).toNat = b := by
    have h4 := hb.2
    have h5 := sb.size_lt
    rw [UInt32.toNat_ofNat', Nat.mod_eq_of_lt (by omega)]
  refine ⟨⟨rfl, rfl, fun _ _ => rfl, _, rfl⟩, hb, hfree, ?_, fun u => ?_, fun c hc => ?_, ?_,
    fun c hc hne hor => ?_⟩
  · rw [slot_entry (by rw [hx]; exact hind), hx, h0]; rfl
  · by_cases hu : u ≤ NDIRECT
    · rw [slot_direct _ hu, slot_direct _ hu, if_neg (by omega)]; rfl
    · obtain ⟨i, rfl⟩ := Nat.exists_eq_add_of_lt (Nat.lt_of_not_le hu)
      rw [show NDIRECT + i + 1 = NDIRECT + 1 + i by omega]
      by_cases e : i = j
      · simp [slot_entry, taken, hx, hind, e, hnat, Bytes.word_setWord _ _ (show 4 * j + 4 ≤ BSIZE by omega)]
      · simp [slot_entry, taken, hx, hind, e, Bytes.word_setWord_ne _ _ (Ne.symm e)]
  · rw [← used_taken hb hc]
    have := sb.bblock_lt hc
    unfold used
    show (update (taken sb s b).blk x _ (sb.bblock c)).bit _ = _
    rw [update_of_ne (by have := h1.1; omega)]
  · show update (taken sb s b).blk x _ b = _
    rw [update_of_ne (Ne.symm h3)]; exact taken_self
  · show update (taken sb s b).blk x _ c = _
    have hcx : c ≠ x := by rw [← hx]; exact hor.resolve_left (by omega)
    rw [update_of_ne hcx]; exact taken_other hb hc hne

theorem addrOrAlloc_spec
    (hk : k ≤ NDIRECT) :
    Wp (addrOrAlloc sb ip k) s
      (fun r s' => (r ≠ 0 ∧ (s.inode ip).d.addrs k = r ∧ s' = s) ∨
        ((s.inode ip).d.addrs k = 0 ∧ Alloc sb ip k r s s') ∨
        (r = 0 ∧ (s.inode ip).d.addrs k = 0 ∧ s' = s ∧ nfree sb s.blk = 0)) (fun _ => False) := by
  unfold addrOrAlloc
  rw [wp_bind, wp_getInode, wp_ite]
  refine ⟨fun hne => (wp_pure _).2 (.inl ⟨hne, rfl, rfl⟩), fun h0 => ?_⟩
  have h0 : (s.inode ip).d.addrs k = 0 := not_not.1 h0
  refine (balloc_spec hrep.metadata).bind (fun b s' hb => ?_)
  rcases hb with ⟨e1, e2, e3⟩ | ⟨hne, hdata, hfree, e⟩
  · rw [if_pos e1, e2, wp_pure]
    exact .inr (.inr ⟨rfl, h0, rfl, nfree_zero e3⟩)
  · rw [if_neg hne, e, wp_bind, setAddr, wp_setInode, wp_pure]
    exact .inr (.inl ⟨h0, alloc_addr hrep hi hk h0 hdata hfree⟩)

end

end

/-- The blocks that `bmap` has to allocate for block `bn`. -/
def cost (blk : Nat → Block) (d : Dinode) (bn : Nat) : Nat :=
  (if slot blk d (dataSlot bn) = 0 then 1 else 0) + (if NDIRECT ≤ bn ∧ d.addrs NDIRECT = 0 then 1 else 0)

/-- The files after `bmap(ip, bn)` has returned `a`. -/
structure Mapped (sb : Superblock) (full : Prop) (ip : Fin NINODE) (bn a : Nat) (s s' : St) : Prop
    extends Readdress ip s s' where
  rep : Rep sb full s'.blk (view s' ip)
  file_other : ∀ j, Live sb (view s ip) j → j ≠ (s.inode ip).inum →
    ∀ m, file s'.blk (view s' ip j) m = file s.blk (view s ip j) m
  file_self : ∀ m, file s'.blk (s'.inode ip).d m =
    if m = bn ∧ a ≠ 0 then some ((file s.blk (s.inode ip).d bn).getD Bytes.zero)
    else file s.blk (s.inode ip).d m
  addr : a ≠ 0 → slot s'.blk (s'.inode ip).d (dataSlot bn) = a
  kept : ∀ u, slot s.blk (s.inode ip).d u ≠ 0 → slot s'.blk (s'.inode ip).d u = slot s.blk (s.inode ip).d u
  found : a ≠ 0 → nfree sb s'.blk + cost s.blk (s.inode ip).d bn = nfree sb s.blk
  failed : a = 0 → nfree sb s.blk < cost s.blk (s.inode ip).d bn

theorem Readdress.live_self (h : Readdress ip s s') (hi : Live sb (view s ip) (s.inode ip).inum) :
    Live sb (view s' ip) (s'.inode ip).inum := by
  rw [h.inum]; exact (h.live _).2 hi

theorem cost_mapped (h : slot blk d (dataSlot bn) ≠ 0) : cost blk d bn = 0 := by
  unfold cost
  rw [if_neg h, if_neg]
  intro ⟨hbn, h0⟩
  rw [dataSlot_indirect (by omega), slot_no_entry h0] at h
  exact h rfl

theorem mapped_same (hrep : Rep sb full s.blk (view s ip)) (ha : a ≠ 0)
    (h : slot s.blk (s.inode ip).d (dataSlot bn) = a) : Mapped sb full ip bn a s s where
  toReaddress := Readdress.refl ip s
  rep := hrep
  file_other _ _ _ _ := rfl
  file_self m := by
    by_cases e : m = bn
    · simp [e, ha, file, h]
    · simp [e]
  addr _ := h
  kept _ _ := rfl
  found _ := by rw [cost_mapped (by rw [h]; exact ha)]; rfl
  failed h0 := absurd h0 ha

theorem mapped_none (hrep : Rep sb full s.blk (view s ip))
    (h0 : nfree sb s.blk < cost s.blk (s.inode ip).d bn) : Mapped sb full ip bn 0 s s where
  toReaddress := Readdress.refl ip s
  rep := hrep
  file_other _ _ _ _ := rfl
  file_self m := by rw [if_neg (fun hh => hh.2 rfl)]
  addr h := absurd rfl h
  kept _ _ := rfl
  found h := absurd rfl h
  failed _ := h0

/-- One allocation, into the slot of block `bn`. -/
theorem Alloc.mapped (h : Alloc sb ip (dataSlot bn) b s s') (hrep : Rep sb full s.blk (view s ip))
    (hi : Live sb (view s ip) (s.inode ip).inum) (hind : bn < NDIRECT ∨ (s.inode ip).d.addrs NDIRECT ≠ 0) :
    Mapped sb full ip bn b s s' where
  toReaddress := h.toReaddress
  rep := h.rep hrep hi
  file_other _ hj hne m := h.file_other hrep hi hj hne m
  file_self m := by
    rw [h.file_self hrep hi]
    by_cases e : m = bn
    · simp [e, h.ne_zero, file, h.empty]
    · rw [if_neg (fun hh => e (dataSlot_inj hh)), if_neg (fun hh => e hh.1)]
  addr _ := by rw [h.slots, if_pos rfl]
  kept u hu := by
    rw [h.slots]
    by_cases e : u = dataSlot bn
    · rw [e, h.empty] at hu; exact absurd rfl hu
    · rw [if_neg e]
  found _ := by
    unfold cost
    rw [if_pos h.empty, if_neg (by rcases hind with h1 | h1 <;> [omega; exact fun hh => h1 hh.2]), ← h.nfree]
  failed h0 := absurd h0 h.ne_zero

/-- One allocation, of the indirect block. -/
theorem Alloc.indirect (h : Alloc sb ip NDIRECT b s s') (hrep : Rep sb full s.blk (view s ip))
    (hi : Live sb (view s ip) (s.inode ip).inum) (m : Nat) :
    file s'.blk (s'.inode ip).d m = file s.blk (s.inode ip).d m := by
  rw [h.file_self hrep hi, if_neg (dataSlot_ne m)]

theorem Alloc.then_mapped {s1 : St} (h : Alloc sb ip NDIRECT b s s1)
    (hrep : Rep sb full s.blk (view s ip)) (hi : Live sb (view s ip) (s.inode ip).inum) (hbn : NDIRECT ≤ bn)
    (h0 : (s.inode ip).d.addrs NDIRECT = 0) (m : Mapped sb full ip bn a s1 s') :
    Mapped sb full ip bn a s s' := by
  have hslot : slot s.blk (s.inode ip).d (dataSlot bn) = 0 := by
    rw [dataSlot_indirect (by omega), slot_no_entry h0]
  have hslot1 : slot s1.blk (s1.inode ip).d (dataSlot bn) = 0 := by
    rw [h.slots, if_neg (dataSlot_ne bn)]; exact hslot
  have hind1 : (s1.inode ip).d.addrs NDIRECT ≠ 0 := by
    rw [← slot_ndirect s1.blk, h.slots, if_pos rfl]; exact h.ne_zero
  have hcost : cost s.blk (s.inode ip).d bn = 2 := by simp [cost, hslot, hbn, h0]
  have hcost1 : cost s1.blk (s1.inode ip).d bn = 1 := by simp [cost, hslot1, hind1]
  have hfree := h.nfree
  refine ⟨h.toReaddress.trans m.toReaddress, m.rep, fun j hj hne k => ?_, fun k => ?_, m.addr, fun u hu => ?_,
    fun ha => ?_, fun ha => ?_⟩
  · rw [m.file_other j ((h.toReaddress.live j).2 hj) (by rw [h.toReaddress.inum]; exact hne),
      h.file_other hrep hi hj hne]
  · rw [m.file_self k, h.indirect hrep hi, h.indirect hrep hi]
  · have hne : u ≠ NDIRECT := by
      rintro rfl
      exact hu ((slot_ndirect _).trans h0)
    have hsame : slot s1.blk (s1.inode ip).d u = slot s.blk (s.inode ip).d u := by rw [h.slots, if_neg hne]
    rw [m.kept u (by rw [hsame]; exact hu), hsame]
  · have := m.found ha
    omega
  · have := m.failed ha
    omega

section
variable (hrep : Rep sb full s.blk (view s ip)) (hi : Live sb (view s ip) (s.inode ip).inum)
include hrep hi

theorem bmapEntry_spec
    (h1 : NDIRECT ≤ bn) (h2 : bn - NDIRECT < NINDIRECT) (hind : (s.inode ip).d.addrs NDIRECT ≠ 0) :
    Wp (bmapEntry sb ((s.inode ip).d.addrs NDIRECT) (bn - NDIRECT)) s
      (fun a s' => Mapped sb full ip bn a s s') (fun _ => False) := by
  have hds := dataSlot_indirect (Nat.not_lt_of_le h1)
  have hslot : slot s.blk (s.inode ip).d (dataSlot bn) =
      ((s.blk ((s.inode ip).d.addrs NDIRECT)).word (bn - NDIRECT)).toNat := by rw [hds, slot_entry hind]
  have hnat : ∀ w : UInt32, w ≠ 0 ↔ w.toNat ≠ 0 := by
    intro w
    rw [Ne, ← UInt32.toNat_inj]; rfl
  unfold bmapEntry
  rw [wp_bind, wp_bread, wp_ite]
  refine ⟨fun hne => (wp_pure _).2 (mapped_same hrep ((hnat _).1 hne) hslot), fun h0 => ?_⟩
  have h0 := not_not.1 h0
  have hempty : slot s.blk (s.inode ip).d (dataSlot bn) = 0 := by rw [hslot, h0]; rfl
  refine (balloc_spec hrep.metadata).bind (fun b s' hb => ?_)
  rcases hb with ⟨e1, e2, e3⟩ | ⟨hne, hdata, hfree, e⟩
  · rw [if_pos e1, e2, wp_pure]
    exact mapped_none hrep (by simp [nfree_zero e3, cost, hempty])
  · rw [if_neg hne, e, wp_bind, wp_bread, wp_bind, wp_bstore, wp_pure]
    have halloc := alloc_entry hrep hi h2 hind h0 hdata hfree
    rw [← hds] at halloc
    exact halloc.mapped hrep hi (.inr hind)

theorem bmap_spec
    (hbn : bn < MAXFILE) :
    Wp (bmap sb ip bn) s (fun a s' => Mapped sb full ip bn a s s') (fun _ => False) := by
  unfold bmap
  rw [wp_ite]
  refine ⟨fun hdir => ?_, fun hdir => ?_⟩
  · have hds := dataSlot_direct hdir
    have hslot : slot s.blk (s.inode ip).d (dataSlot bn) = (s.inode ip).d.addrs bn := by
      rw [hds]; exact slot_direct _ (Nat.le_of_lt hdir)
    refine (addrOrAlloc_spec hrep hi (Nat.le_of_lt hdir)).post fun a s' h => ?_
    rcases h with ⟨ha, e, e'⟩ | ⟨h0, halloc⟩ | ⟨ha, h0, e, hfree⟩
    · rw [e']; exact mapped_same hrep ha (hslot.trans e)
    · rw [← hds] at halloc
      exact halloc.mapped hrep hi (.inl hdir)
    · rw [e, ha]
      exact mapped_none hrep (by simp [hfree, cost, hslot.trans h0])
  · have hlt : bn - NDIRECT < NINDIRECT := by
      have : MAXFILE = NDIRECT + NINDIRECT := rfl
      omega
    rw [if_pos hlt]
    refine (addrOrAlloc_spec hrep hi (Nat.le_refl _)).bind (fun ind s1 h => ?_)
    rcases h with ⟨ha, e, e'⟩ | ⟨h0, halloc⟩ | ⟨ha, h0, e, hfree⟩
    · rw [if_neg ha, e', ← e]
      rw [← e] at ha
      exact bmapEntry_spec hrep hi (by omega) hlt ha
    · rw [if_neg halloc.ne_zero]
      have hind : (s1.inode ip).d.addrs NDIRECT = ind := by
        rw [← slot_ndirect s1.blk, halloc.slots, if_pos rfl]
      have hspec := bmapEntry_spec (halloc.rep hrep hi) (halloc.toReaddress.live_self hi)
        (Nat.le_of_not_lt hdir) hlt (by rw [hind]; exact halloc.ne_zero)
      rw [hind] at hspec
      exact hspec.post fun a s' m => halloc.then_mapped hrep hi (by omega) h0 m
    · rw [if_pos ha, e, wp_pure]
      exact mapped_none hrep (by simp [hfree, cost, h0, Nat.le_of_not_lt hdir])

end

/-- A mapped block is found without any change. -/
theorem bmap_mapped {R : Panic → Prop} (h : slot s.blk (s.inode ip).d (dataSlot bn) ≠ 0) :
    Wp (bmap sb ip bn) s (fun a s' => a = slot s.blk (s.inode ip).d (dataSlot bn) ∧ s' = s) R := by
  have haddr : ∀ k, (s.inode ip).d.addrs k ≠ 0 →
      Wp (addrOrAlloc sb ip k) s (fun a s' => a = (s.inode ip).d.addrs k ∧ s' = s) R := by
    intro k hk
    unfold addrOrAlloc
    rw [wp_bind, wp_getInode, if_pos hk, wp_pure]
    exact ⟨rfl, rfl⟩
  unfold bmap
  by_cases hdir : bn < NDIRECT
  · rw [dataSlot_direct hdir, slot_direct _ (Nat.le_of_lt hdir)] at h ⊢
    rw [if_pos hdir]
    exact haddr bn h
  · rw [dataSlot_indirect hdir] at h ⊢
    have hlt : bn - NDIRECT < NINDIRECT := by
      by_contra hge
      exact h (slot_past (by omega))
    have hind : (s.inode ip).d.addrs NDIRECT ≠ 0 := fun h0 => h (slot_no_entry h0 _)
    rw [slot_entry hind] at h ⊢
    have hword : (s.blk ((s.inode ip).d.addrs NDIRECT)).word (bn - NDIRECT) ≠ 0 := by
      intro h0
      rw [h0] at h; exact h rfl
    rw [if_neg hdir, if_pos hlt]
    refine (haddr NDIRECT hind).bind (fun ind s1 e => ?_)
    obtain ⟨e1, e2⟩ := e
    rw [e1, e2, if_neg hind, bmapEntry, wp_bind, wp_bread, if_pos hword, wp_pure]
    exact ⟨rfl, rfl⟩

/-! ## Writing a block -/

/-- The blocks after block `bn` of the inode in `ip` has got the content `x`. -/
theorem store_spec (hrep : Rep sb full s.blk (view s ip)) (hi : Live sb (view s ip) (s.inode ip).inum)
    (ha : a ≠ 0) (hslot : slot s.blk (s.inode ip).d (dataSlot bn) = a) (x : Block) :
    Rep sb full (update s.blk a x) (view s ip) ∧
    (∀ c, c < sb.size → used sb (update s.blk a x) c = used sb s.blk c) ∧
    (∀ j, Live sb (view s ip) j → ∀ u, slot (update s.blk a x) (view s ip j) u = slot s.blk (view s ip j) u) ∧
    (∀ j, Live sb (view s ip) j → j ≠ (s.inode ip).inum →
      ∀ m, file (update s.blk a x) (view s ip j) m = file s.blk (view s ip j) m) ∧
    ∀ m, file (update s.blk a x) (s.inode ip).d m = if m =
    bn then some x else file s.blk (s.inode ip).d m := by
  have hcell : cell sb s.blk (view s ip) ((s.inode ip).inum, dataSlot bn) = some a :=
    cell_some.2 ⟨hi, by rw [view_self]; exact hslot, ha⟩
  have hdata := hrep.ledger.in_pool _ _ hcell
  -- nobody else holds a
  have hheld : ∀ j u, Live sb (view s ip) j → slot s.blk (view s ip j) u ≠ 0 →
      slot s.blk (view s ip j) u = a → j = (s.inode ip).inum ∧ u = dataSlot bn := by
    intro j u hj h0 e
    have h1 := cell_of_slot hj h0
    rw [e] at h1
    exact Prod.mk.inj (hrep.ledger.inj _ _ _ h1 hcell)
  have hslots : ∀ j, Live sb (view s ip) j → ∀ u,
      slot (update s.blk a x) (view s ip j) u = slot s.blk (view s ip j) u := by
    intro j hj u
    refine slot_congr (fun h0 => update_of_ne (fun e => ?_) ..) u
    exact dataSlot_ne bn (hheld j NDIRECT hj (by rw [slot_ndirect]; exact h0)
      (by rw [slot_ndirect]; exact e)).2.symm
  have hused : ∀ c, c < sb.size → used sb (update s.blk a x) c = used sb s.blk c := by
    intro c hc
    have h1 := sb.bblock_lt hc
    have h2 := hdata.1
    unfold used
    rw [update_of_ne (show sb.bblock c ≠ a by omega)]
  refine ⟨hrep.congr (fun _ => Iff.rfl) hslots hused, hused, hslots, fun j hj hne m => ?_, fun m => ?_⟩
  · refine file_congr (hslots j hj _) (fun h0 => update_of_ne (fun e => ?_) ..)
    exact hne (hheld j _ hj h0 e).1
  · have hs : ∀ u, slot (update s.blk a x) (s.inode ip).d u = slot s.blk (s.inode ip).d u := by
      intro u
      have := hslots _ hi u
      rwa [view_self] at this
    by_cases e : m = bn
    · rw [if_pos e, e, file, hs, hslot, if_neg ha, update_self]
    · rw [if_neg e]
      refine file_congr (hs _) (fun h0 => update_of_ne (fun e' => ?_) ..)
      have := hheld (s.inode ip).inum (dataSlot m) hi
      rw [view_self] at this
      exact e (dataSlot_inj (this h0 e').2)

theorem nfree_congr (h : ∀ c, c < sb.size → used sb blk' c = used sb blk c) :
    nfree sb blk' = nfree sb blk := by
  unfold nfree
  congr 1
  refine Finset.filter_congr (fun c hc => ?_)
  rw [h c (Finset.mem_range.1 hc)]

end Bmap

end Xv6.Fs
