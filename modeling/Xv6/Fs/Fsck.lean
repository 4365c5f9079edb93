import Xv6.Fs.Hold

/-!
# A consistency check that runs

`Inv` is about all inodes and all blocks. `Fsck` checks it for a file system
without indirect blocks and with nothing cached, by finitely many
comparisons: `owner b` is the inode and the slot that block `b` should
belong to.

* `Fsck.calm`: a file system that passes is consistent.
-/
namespace Xv6.Fs

variable {sb : Superblock} {s : St} {owner : Nat → Nat × Nat}

/-- The addresses of an inode: direct ones only, each of a data block that is its own and marked as used. -/
def AddrsOk (sb : Superblock) (s : St) (owner : Nat → Nat × Nat) (i : Nat) : Prop :=
  (s.dinode i).addrs NDIRECT = 0 ∧ ∀ t, t < NDIRECT → (s.dinode i).addrs t ≠ 0 →
    sb.nmeta ≤ (s.dinode i).addrs t ∧ (s.dinode i).addrs t < sb.size ∧
    used sb s.blk ((s.dinode i).addrs t) = true ∧
      owner ((s.dinode i).addrs t) = (i, t)

/-- A block that is marked as used has its owner. -/
def BlockOk (sb : Superblock) (s : St) (owner : Nat → Nat × Nat) (b : Nat) : Prop :=
  if b < sb.nmeta then used sb s.blk b = true
  else used sb s.blk b = true → b ≠ 0 ∧ Live sb s.dinode (owner b).1 ∧ (owner b).2 < NDIRECT ∧
    (s.dinode (owner b).1).addrs (owner b).2 = b

/-- A directory consists of entries and has no hole. -/
def DirOk (d : Dinode) : Prop :=
  d.type = .dir → d.size ≤ NDIRECT * BSIZE ∧ d.size % DESIZE = 0 ∧ ∀ bn, bn < NDIRECT →
    bn * BSIZE < d.size → d.addrs bn ≠ 0

/-- An entry of the inode table: nothing is cached or locked. -/
def EntryOk (sb : Superblock) (s : St) (k : Fin NINODE) : Prop :=
  0 ≤ (s.inode k).ref ∧ (s.inode k).locked = false ∧ (s.inode k).valid = false ∧
    (0 < (s.inode k).ref → Live sb s.dinode (s.inode k).inum ∧
      ∀ l, 0 < (s.inode l).ref → (s.inode k).inum = (s.inode l).inum → k = l)

structure Fsck (sb : Superblock) (s : St) (owner : Nat → Nat × Nat) : Prop where
  addrs : ∀ i, i < sb.ninodes → Live sb s.dinode i → AddrsOk sb s owner i
  blocks : ∀ b, b < sb.size → BlockOk sb s owner b
  dirs : ∀ i, i < sb.ninodes → Live sb s.dinode i → DirOk (s.dinode i)
  table : ∀ k, EntryOk sb s k

instance (i : Nat) : Decidable (AddrsOk sb s owner i) := by unfold AddrsOk; infer_instance
instance (b : Nat) : Decidable (BlockOk sb s owner b) := by unfold BlockOk; infer_instance
instance (d : Dinode) : Decidable (DirOk d) := by unfold DirOk; infer_instance
instance (k : Fin NINODE) : Decidable (EntryOk sb s k) := by unfold EntryOk; infer_instance

namespace Fsck
variable (h : Fsck sb s owner)
include h

theorem cell_eq {c : Nat × Nat} {b : Nat} (hc : cell sb s.blk s.dinode c = some b) :
    Live sb s.dinode c.1 ∧ c.2 < NDIRECT ∧ (s.dinode c.1).addrs c.2 = b ∧ b ≠ 0 := by
  obtain ⟨hl, hs, h0⟩ := cell_some.1 hc
  have hind := (h.addrs c.1 hl.2.1 hl).1
  by_cases hle : c.2 ≤ NDIRECT
  · rw [slot_direct _ hle] at hs
    refine ⟨hl, Nat.lt_of_le_of_ne hle fun e => ?_, hs, h0⟩
    rw [e, hind] at hs
    exact h0 hs.symm
  · unfold slot at hs
    rw [if_neg hle, if_pos hind] at hs
    exact absurd hs.symm h0

theorem owned {c : Nat × Nat} {b : Nat} (hc : cell sb s.blk s.dinode c = some b) :
    sb.nmeta ≤ b ∧ b < sb.size ∧ used sb s.blk b = true ∧ owner b = c := by
  obtain ⟨hl, ht, hs, h0⟩ := h.cell_eq hc
  have := (h.addrs c.1 hl.2.1 hl).2 c.2 ht (by rw [hs]; exact h0)
  rwa [hs] at this

theorem rep : Rep sb True s.blk s.dinode := by
  refine ⟨⟨fun c b hc => ⟨(h.owned hc).1, (h.owned hc).2.1⟩, fun c b hc => (h.owned hc).2.2.1,
    fun c c' b hc hc' => ?_, fun _ b hb hu => ?_⟩, fun b hb => ?_⟩
  · rw [← (h.owned hc).2.2.2, ← (h.owned hc').2.2.2]
  · have hok := h.blocks b hb.2
    have hnot : ¬b < sb.nmeta := Nat.not_lt.2 hb.1
    unfold BlockOk at hok
    rw [if_neg hnot] at hok
    obtain ⟨h0, hl, ht, hs⟩ := hok hu
    refine ⟨owner b, cell_some.2 ⟨hl, ?_, h0⟩⟩
    rw [slot_direct _ (Nat.le_of_lt ht), hs]
  · have hok := h.blocks b (Nat.lt_of_lt_of_le hb sb.nmeta_le)
    unfold BlockOk at hok
    rwa [if_pos hb] at hok

theorem noHole {i : Nat} (hl : Live sb s.dinode i) (hd : (s.dinode i).type = .dir) :
    NoHole s.blk (s.dinode i) := by
  obtain ⟨hsize, -, hmap⟩ := h.dirs i hl.2.1 hl hd
  intro bn hbn
  have hlt : bn < NDIRECT := by
    exact Nat.lt_of_mul_lt_mul_right (Nat.lt_of_lt_of_le hbn hsize)
  rw [Ne, file_none, dataSlot, if_pos hlt, slot_direct _ (Nat.le_of_lt hlt)]
  exact hmap bn hlt hbn

theorem calm : Calm sb s := by
  refine ⟨⟨h.rep, fun k _ hv => ?_, fun k l hk hl e => ((h.table k).2.2.2 hk).2 l hl e, fun i => h.noHole⟩,
    fun k => (h.table k).1, fun k hk => ?_, fun k => (h.table k).2.1⟩
  · rw [(h.table k).2.2.1] at hv
    cases hv
  · have hl := ((h.table k).2.2.2 hk).1
    exact ⟨hl.1, hl.2.1⟩

end Fsck

/-! ## A small disk -/

/-- A disk of 40 blocks with 64 inodes; its data blocks start at 10. -/
def small : Superblock where
  size := 40
  ninodes := 64
  nlog := 2
  fits := by decide
  size_lt := by decide
  ninodes_gt := by decide
  ninodes_le := by decide

/-- The directory block with these entries. -/
def direntBlock (es : List Dirent) : Block := fun i => (es.getD (i.1 / DESIZE) ⟨0, []⟩).encode (i.1 % DESIZE)

/-- The bitmap block that marks the first `n` blocks. -/
def firstUsed (n : Nat) : Block := (List.range n).foldl Bytes.setBit Bytes.zero

end Xv6.Fs
