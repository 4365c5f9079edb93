import Xv6.Core.LTS
import Xv6.Fs.Entries

/-!
# Every block is free, metadata or in one place

The file system as its callers see it: one label for each call of a function
of `fs.c` on an inode, in any order and on any inodes, under the rules that
`fs.c` gives its callers (`writei`, `dirlink`, `itrunc` and `iupdate` with
the inode locked, `iput` for a reference one has).

* `block_ownership`: if the bitmap is right at the start, and no directory
  has a hole, it is right in every state reached; `balloc` then returns only
  blocks that nothing refers to, and `bfree` never panics.
* `bitmap_wrong`: what goes wrong from other starts. A directory with a hole
  loses a block: `dirlink` allocates it while it reads, in memory only, and
  when it fails nothing writes the inode back.
-/
namespace Xv6.Fs
open Function (update update_self update_of_ne)

variable {sb : Superblock}

/-! ## The calls -/

inductive Op where
  | iget (inum : Nat)
  | idup (ip : Fin NINODE)
  | ilock (ip : Fin NINODE)
  | iunlock (ip : Fin NINODE)
  | ialloc (type : Ty)
  | writei (ip : Fin NINODE) (src : Nat → UInt8) (room : Option Nat) (off n : UInt32)
  | dirlink (dp : Fin NINODE) (name : List UInt8) (inum : Nat)
  | itrunc (ip : Fin NINODE)
  | iput (ip : Fin NINODE)
  /-- the assignments to `major`, `minor` and `nlink` before an `iupdate` -/
  | iupdate (ip : Fin NINODE) (major minor : Int16) (nlink : Int)

def Op.run (sb : Superblock) : Op → M Unit
  | iget inum => do let _ ← Fs.iget inum
  | idup ip => do let _ ← Fs.idup ip
  | ilock ip => Fs.ilock ip
  | iunlock ip => Fs.iunlock ip
  | ialloc type => do let _ ← Fs.ialloc sb type
  | writei ip src room off n => do let _ ← Fs.writei sb ip src room off n
  | dirlink dp name inum => do let _ ← Fs.dirlink sb dp name inum
  | itrunc ip => Fs.itrunc sb ip
  | iput ip => Fs.iput sb ip
  | iupdate ip major minor nlink => do
    setInode ip fun i => { i with d := { i.d with major := major, minor := minor, nlink := nlink } }
    Fs.iupdate ip

/-- What the callers see to. -/
def Op.allowed (sb : Superblock) (s : St) : Op → Bool
  | iget inum => 1 ≤ inum ∧ inum < sb.ninodes
  | idup ip => 0 < (s.inode ip).ref
  | ilock _ => true
  | iunlock _ => true
  | ialloc type => type ≠ .free
  | writei ip _ _ _ _ => (s.inode ip).locked
  | dirlink dp _ _ => (s.inode dp).locked
  | itrunc ip => (s.inode ip).locked
  | iput ip => 0 < (s.inode ip).ref ∧ ((s.inode ip).locked → 1 < (s.inode ip).ref)
  | iupdate ip _ _ _ => (s.inode ip).locked

def step (sb : Superblock) (s : St) (op : Op) : Option St :=
  if op.allowed sb s then (op.run sb s).toOption.map Prod.snd else none

/-! ## The bitmap -/

/-- The inodes as the kernel sees them: the copy in memory of one that is
cached, else the one on disk. -/
def current (s : St) (i : Nat) : Dinode :=
  match (List.finRange NINODE).find? fun k =>
      decide (0 < (s.inode k).ref ∧ (s.inode k).valid = true ∧ (s.inode k).inum = i) with
  | some k => (s.inode k).d
  | none => s.dinode i

/-- A bit is set for the metadata, and for the blocks that one address of one
allocated inode is. -/
def BitmapOk (sb : Superblock) (s : St) : Prop :=
  ∀ b, b < sb.size → (used sb s.blk b = true ↔ b < sb.nmeta ∨ ∃! c, cell sb s.blk (current s) c = some b)

/-- No block has two owners. -/
def Once (sb : Superblock) (s : St) : Prop :=
  ∀ c c' b, cell sb s.blk (current s) c = some b → cell sb s.blk (current s) c' = some b → c = c'

/-- Only data blocks have owners. -/
def Inside (sb : Superblock) (s : St) : Prop := ∀ c b, cell sb s.blk (current s) c = some b → InData sb b

/-- The inode table is right: the inodes cached are those on disk. -/
structure Synced (sb : Superblock) (s : St) : Prop where
  cached : ∀ k, 0 < (s.inode k).ref → (s.inode k).valid = true →
    (s.inode k).d = s.dinode (s.inode k).inum ∧ (s.inode k).d.type ≠ .free
  uniq : ∀ k l, 0 < (s.inode k).ref → 0 < (s.inode l).ref → (s.inode k).inum = (s.inode l).inum → k = l
  range : ∀ k, 0 < (s.inode k).ref → 1 ≤ (s.inode k).inum ∧ (s.inode k).inum < sb.ninodes
  locked : ∀ k, (s.inode k).locked = true → Held s k

/-- No directory has a hole. -/
def DirsWhole (sb : Superblock) (s : St) : Prop :=
  ∀ i, Live sb s.dinode i → (s.dinode i).type = .dir → NoHole s.blk (s.dinode i)

structure Start (sb : Superblock) (s : St) : Prop where
  bitmap : BitmapOk sb s
  once : Once sb s
  inside : Inside sb s
  synced : Synced sb s
  whole : DirsWhole sb s

/-- The calls, from a file system that `start` allows. -/
def blockLts (sb : Superblock) (start : St → Prop) : LTS St Op where
  init := start
  step s op s' := step sb s op = some s'

/-- The invariant: `Inv` and what the callers rely on. -/
structure BlockInv (sb : Superblock) (s : St) : Prop where
  inv : Inv sb s
  range : ∀ k, 0 < (s.inode k).ref → 1 ≤ (s.inode k).inum ∧ (s.inode k).inum < sb.ninodes
  locked : ∀ k, (s.inode k).locked = true → Held s k

variable {s : St} {c : Nat × Nat} {b : Nat} {d : Dinode}

theorem current_eq (h : ∀ k, 0 < (s.inode k).ref → (s.inode k).valid = true →
    (s.inode k).d = s.dinode (s.inode k).inum) : current s = s.dinode := by
  funext i
  unfold current
  split
  · rename_i k hk
    have := List.find?_some hk
    simp only [decide_eq_true_eq] at this
    obtain ⟨h1, h2, h3⟩ := this
    rw [h k h1 h2, h3]
  · rfl

theorem Start.inv (h : Start sb s) : BlockInv sb s := by
  have hcur : current s = s.dinode := current_eq (fun k h1 h2 => (h.synced.cached k h1 h2).1)
  have hbit := h.bitmap
  have honce := h.once
  have hin := h.inside
  unfold BitmapOk at hbit
  unfold Once at honce
  unfold Inside at hin
  rw [hcur] at hbit honce hin
  have hle := sb.nmeta_le
  refine ⟨⟨⟨⟨hin, fun c b hc => ?_, honce, fun _ b hb hu => ?_⟩, fun b hb => ?_⟩, fun k h1 h2 => ?_,
    h.synced.uniq, h.whole⟩, h.synced.range, h.synced.locked⟩
  · exact (hbit b (hin c b hc).2).2 (.inr ⟨c, hc, fun c' hc' => honce c' c b hc' hc⟩)
  · rcases (hbit b hb.2).1 hu with hlt | ⟨c, hc, -⟩
    · have := hb.1; omega
    · exact ⟨c, hc⟩
  · exact (hbit b (by omega)).2 (.inl hb)
  · obtain ⟨h3, h4⟩ := h.synced.cached k h1 h2
    obtain ⟨h5, h6⟩ := h.synced.range k h1
    exact ⟨h3, h5, h6, by rw [← h3]; exact h4⟩

theorem BlockInv.bitmap (h : BlockInv sb s) : BitmapOk sb s := by
  have hcur : current s = s.dinode := current_eq (fun k h1 h2 => (h.inv.cached k h1 h2).1)
  intro b hb
  rw [hcur]
  by_cases hm : b < sb.nmeta
  · exact iff_of_true (h.inv.rep.metadata b hm) (.inl hm)
  · rw [h.inv.rep.ledger.used_iff trivial ⟨by omega, hb⟩, or_iff_right hm]
    exact Iff.rfl

/-! ## Steps -/

section Step
variable {s s' : St}

/-- References, locks and numbers of the entries are as before. -/
def SameTags (s s' : St) : Prop :=
  ∀ k, (s'.inode k).inum = (s.inode k).inum ∧ (s'.inode k).ref = (s.inode k).ref ∧
    (s'.inode k).locked = (s.inode k).locked ∧ (s'.inode k).valid = (s.inode k).valid

theorem SameTags.blockInv (ht : SameTags s s') (h : BlockInv sb s) (hinv : Inv sb s') : BlockInv sb s' := by
  refine ⟨hinv, fun k hk => ?_, fun k hk => ?_⟩
  · rw [(ht k).2.1] at hk
    rw [(ht k).1]; exact h.range k hk
  · rw [(ht k).2.2.1] at hk
    unfold Held
    rw [(ht k).2.1, (ht k).2.2.2]; exact h.locked k hk

variable {ip : Fin NINODE} {inum : Nat}

theorem sameTags_of_d (hother : ∀ k, k ≠ ip → s'.inode k = s.inode k) {d : Dinode}
    (hself : s'.inode ip = { s.inode ip with d := d }) : SameTags s s' := by
  intro k
  by_cases e : k = ip
  · rw [e, hself]; exact ⟨rfl, rfl, rfl, rfl⟩
  · rw [hother k e]; exact ⟨rfl, rfl, rfl, rfl⟩

theorem Got.blockInv (hg : Got inum ip s s')
    (hrange : ∀ k, 0 < (s.inode k).ref → 1 ≤ (s.inode k).inum ∧ (s.inode k).inum < sb.ninodes)
    (hlocked : ∀ k, (s.inode k).locked = true → Held s k) (h1 : 1 ≤ inum) (h2 : inum < sb.ninodes)
    (hinv : Inv sb s') : BlockInv sb s' := by
  refine ⟨hinv, fun k hk => ?_, fun k hk => ?_⟩
  · by_cases e : k = ip
    · rw [e, hg.inum_eq]; exact ⟨h1, h2⟩
    · rw [hg.other k e] at hk ⊢; exact hrange k hk
  · by_cases e : k = ip
    · rw [e] at hk ⊢
      rcases hg.self with ⟨g1, _, g⟩ | ⟨g1, _, g⟩
      · rw [g] at hk
        have hv := (hlocked ip hk).2
        unfold Held
        rw [g]
        exact ⟨by show 0 < (s.inode ip).ref + 1; omega, hv⟩
      · rw [g] at hk
        have := (hlocked ip hk).1
        omega
    · unfold Held
      rw [hg.other k e] at hk ⊢; exact hlocked k hk

theorem Linked.blockInv {dp : Fin NINODE} {name : List UInt8} {r : Int} (hl : Linked sb dp name inum s s' r)
    (h : BlockInv sb s) (hinv : Inv sb s') : BlockInv sb s' := by
  cases hl with
  | taken e _ _ _ hkept htags =>
    refine ⟨hinv, fun k hk => ?_, fun k hk => ?_⟩
    · rw [(htags k).1] at hk
      rw [hkept k hk]; exact h.range k hk
    · rw [(htags k).2] at hk
      have := h.locked k hk
      unfold Held
      rw [hkept k this.1]; exact this
  | full hu =>
    obtain ⟨f, hf⟩ := hu.self
    exact (sameTags_of_d hu.other hf).blockInv h hinv
  | added e hst =>
    obtain ⟨f, hf⟩ := hst.self
    exact (sameTags_of_d hst.other hf).blockInv h hinv

theorem iput_blockInv (h : BlockInv sb s) (hlast : (s.inode ip).locked = true → 1 < (s.inode ip).ref) :
    Wp (iput sb ip) s (fun _ s' => BlockInv sb s') Benign := by
  refine (iput_spec h.inv).post fun _ s' hp => ?_
  obtain ⟨hinv', ⟨-, hother, hself, -⟩ | hf⟩ := hp
  · refine ⟨hinv', fun k hk => ?_, fun k hk => ?_⟩
    · by_cases e : k = ip
      · rw [e, hself] at hk ⊢
        exact h.range ip (by have : 0 < (s.inode ip).ref - 1 := hk; omega)
      · rw [hother k e] at hk ⊢; exact h.range k hk
    · unfold Held
      by_cases e : k = ip
      · rw [e, hself] at hk ⊢
        have h1 := hlast hk
        exact ⟨by show 0 < (s.inode ip).ref - 1; omega, (h.locked ip hk).2⟩
      · rw [hother k e] at hk ⊢; exact h.locked k hk
  · refine ⟨hinv', fun k hk => ?_, fun k hk => ?_⟩
    · by_cases e : k = ip
      · rw [e, hf.ref] at hk; omega
      · rw [hf.other k e] at hk ⊢; exact h.range k hk
    · by_cases e : k = ip
      · rw [e, hf.unlocked] at hk; cases hk
      · unfold Held
        rw [hf.other k e] at hk ⊢; exact h.locked k hk

/-- Every call keeps the invariant, and none panics in `bfree`. -/
theorem op_blockInv (op : Op) (h : BlockInv sb s) (hop : op.allowed sb s = true) :
    Wp (op.run sb) s (fun _ s' => BlockInv sb s') (fun e => e ≠ .freeingFreeBlock) := by
  have hbenign : ∀ e, Benign e → e ≠ .freeingFreeBlock := fun _ he => he.1
  cases op with
  | iget inum =>
    simp only [Op.allowed, decide_eq_true_eq] at hop
    refine ((iget_spec s inum).panics fun _ he => he.benign.1).bind (fun ip s' hg => ?_)
    rw [wp_pure]
    exact hg.blockInv h.range h.locked hop.1 hop.2 (hg.inv h.inv)
  | idup ip =>
    simp only [Op.allowed, decide_eq_true_eq] at hop
    refine ((idup_spec s ip).never).bind (fun r s' hd => ?_)
    obtain ⟨-, hd, hother, hself⟩ := hd
    rw [wp_pure]
    have hg : Got (s.inode ip).inum ip s s' := ⟨hd, hother, .inl ⟨hop, rfl, hself⟩⟩
    have hr := h.range ip hop
    exact hg.blockInv h.range h.locked hr.1 hr.2 (hg.inv h.inv)
  | ilock ip =>
    refine (ilock_spec h.inv (h.range ip)).mono (fun _ s' hl => ?_) (fun _ he => he.1)
    refine ⟨hl.inv h.inv, fun k hk => ?_, fun k hk => ?_⟩
    · by_cases e : k = ip
      · rw [e, hl.self]; exact h.range ip hl.ref
      · rw [hl.other k e] at hk ⊢; exact h.range k hk
    · by_cases e : k = ip
      · rw [e]; exact hl.held
      · unfold Held
        rw [hl.other k e] at hk ⊢; exact h.locked k hk
  | iunlock ip =>
    refine (iunlock_spec s ip).mono (fun _ s' hu => ?_) hbenign
    obtain ⟨hd, hother, href, hself⟩ := hu
    refine ⟨h.inv.retag hd hother (r := (s.inode ip).ref) (l := false) hself (fun _ => href), fun k hk => ?_,
      fun k hk => ?_⟩
    · by_cases e : k = ip
      · rw [e, hself]; exact h.range ip href
      · rw [hother k e] at hk ⊢; exact h.range k hk
    · by_cases e : k = ip
      · rw [e, hself] at hk; cases hk
      · unfold Held
        rw [hother k e] at hk ⊢; exact h.locked k hk
  | ialloc type =>
    refine ((ialloc_spec s type).mono (fun _ _ => id) hbenign).bind (fun r s' ha => ?_)
    rw [wp_pure]
    rcases ha with ⟨-, hs⟩ | ⟨ip, i, -, ha⟩
    · rw [hs]; exact h
    · exact ha.got.blockInv h.range h.locked ha.pos ha.lt (ha.inv h.inv)
  | writei ip src room off n =>
    have hh := h.locked ip hop
    refine ((writei_inv src room off n h.inv hh).never).bind (fun r s' hw => ?_)
    rw [wp_pure]
    obtain ⟨hinv', ⟨-, hs, -⟩ | ⟨k, -, -, w⟩⟩ := hw
    · rw [hs]; exact h
    · obtain ⟨f, hf⟩ := w.self
      exact (sameTags_of_d w.other hf).blockInv h hinv'
  | dirlink dp name inum =>
    have hh := h.locked dp hop
    by_cases ht : (s.inode dp).d.type = .dir
    · refine ((dirlink_spec ⟨h.inv, hh, ht⟩ name inum).panics fun _ he => he.benign.1).bind
        (fun r s' hl => ?_)
      rw [wp_pure]
      exact hl.2.blockInv h hl.1
    · simp only [Op.run, Fs.dirlink, dirlookup, wp_bind, wp_getInode]
      rw [if_pos ht, wp_panic]
      simp
  | itrunc ip =>
    have hh := h.locked ip hop
    refine (itrunc_inv h.inv hh).mono (fun _ s' ht => ?_) (fun _ => False.elim)
    obtain ⟨f, -, hf⟩ := ht.self
    exact (sameTags_of_d ht.inode hf).blockInv h (ht.inv h.inv hh)
  | iput ip =>
    simp only [Op.allowed, decide_eq_true_eq] at hop
    exact (iput_blockInv h hop.2).mono (fun _ _ => id) hbenign
  | iupdate ip major minor nlink =>
    have hh := h.locked ip hop
    simp only [Op.run, Fs.iupdate, wp_bind, wp_setInode, wp_modify, update_self]
    have hput := put_inv (d := { (s.inode ip).d with major := major, minor := minor, nlink := nlink })
      h.inv hh rfl rfl rfl
    exact (sameTags_of_d (fun k hk => update_of_ne hk ..) put_self).blockInv h hput

theorem step_some {op : Op} (h : step sb s op = some s') :
    op.allowed sb s = true ∧ ∃ r, op.run sb s = .ok (r, s') := by
  unfold step at h
  split at h
  · rename_i hop
    cases hrun : op.run sb s with
    | ok r =>
      rw [hrun] at h
      cases h
      exact ⟨hop, r.1, rfl⟩
    | error e =>
      rw [hrun] at h
      cases h
  · cases h

theorem blockInv_reachable (h : (blockLts sb (Start sb)).Reachable s) : BlockInv sb s := by
  refine LTS.Inductive.reachable (M := blockLts sb (Start sb))
    ⟨fun _ h0 => h0.inv, fun s op s' hs hstep => ?_⟩ h
  obtain ⟨hop, r, hrun⟩ := step_some hstep
  exact (op_blockInv op hs hop).of_ok hrun

end Step

/-! ## The whole run -/

/-- From a file system with a right bitmap, no block with two owners and no
directory with a hole, the bitmap stays right. -/
theorem block_ownership {s : St} (h : (blockLts sb (Start sb)).Reachable s) :
    BitmapOk sb s ∧
    (∀ b s', balloc sb s = .ok (b, s') → b = 0 ∨ (InData sb b ∧ ∀ c, cell sb s.blk (current s) c ≠ some b)) ∧
    ∀ op : Op, op.allowed sb s = true → op.run sb s ≠ .error .freeingFreeBlock := by
  have hinv := blockInv_reachable h
  have hcur : current s = s.dinode := current_eq (fun k h1 h2 => (hinv.inv.cached k h1 h2).1)
  refine ⟨hinv.bitmap, fun b s' hb => ?_, fun op hop herr => ?_⟩
  · rcases (balloc_spec hinv.inv.rep.metadata).of_ok hb with h0 | ⟨_, h1, h2, _⟩
    · exact .inl h0.1
    · refine .inr ⟨h1, fun c hc => ?_⟩
      rw [hcur] at hc
      have := hinv.inv.rep.ledger.in_use c b hc
      rw [h2] at this; cases this
  · exact (op_blockInv op hinv hop).of_error herr rfl

/-! ## A disk with one inode -/

/-- The disk of `tiny` with the first byte of the bitmap, inode 1 and the
first data block given; nothing is cached. -/
def tinyWith (bits : UInt8) (d : Dinode) (x : Block) : St where
  blk b := if b = 4 then (Bytes.zero : Block).splice 0 1 fun _ => bits else if b = 5 then x else Bytes.zero
  dinode i := if i = 1 then d else fresh .free
  inode _ := { inum := 0, ref := 0, locked := false, valid := false, d := fresh .free }
  gen _ := 0

def unused : Dinode := { fresh .file with nlink := 1 }

theorem cell_tiny (href : ∀ k, (s.inode k).ref = 0)
    (hind : (s.dinode 1).addrs NDIRECT = 0) (hc : cell tiny s.blk (current s) c = some b) :
    c.1 = 1 ∧ c.2 < NDIRECT ∧ (s.dinode 1).addrs c.2 = b ∧ b ≠ 0 := by
  rw [current_eq (fun k hk => absurd (href k) (by omega))] at hc
  obtain ⟨⟨h1, h2, -⟩, hs, h0⟩ := cell_some.1 hc
  have e : c.1 = 1 := by
    have : tiny.ninodes = 2 := rfl
    omega
  rw [e] at hs
  by_cases hle : c.2 ≤ NDIRECT
  · rw [slot_direct _ hle] at hs
    refine ⟨e, Nat.lt_of_le_of_ne hle (fun he => ?_), hs, h0⟩
    rw [he, hind] at hs
    exact h0 hs.symm
  · unfold slot at hs
    rw [if_neg hle, if_pos hind] at hs
    exact absurd hs.symm h0

theorem cell_tinyWith {bits : UInt8} {x : Block} {t : Nat} (ht : t < NDIRECT) (hd : d.type ≠ .free)
    (h0 : d.addrs t ≠ 0) :
    cell tiny (tinyWith bits d x).blk (current (tinyWith bits d x)) (1, t) = some (d.addrs t) := by
  rw [current_eq (fun k hk => absurd hk (Int.lt_irrefl 0))]
  exact cell_some.2 ⟨⟨Nat.le_refl 1, Nat.lt_succ_self 1, hd⟩, slot_direct _ (Nat.le_of_lt ht), h0⟩

theorem synced_tinyWith (bits : UInt8) (d : Dinode) (x : Block) : Synced tiny (tinyWith bits d x) :=
  ⟨fun _ h => absurd h (Int.lt_irrefl 0), fun _ _ h => absurd h (Int.lt_irrefl 0),
    fun _ h => absurd h (Int.lt_irrefl 0), fun _ h => by cases h⟩

theorem dirsWhole_tinyWith (bits : UInt8) (x : Block) (hd : d.type = .file) :
    DirsWhole tiny (tinyWith bits d x) := by
  intro i hl hdir
  have e : i = 1 := by
    have h1 := hl.1
    have h2 : i < 2 := hl.2.1
    omega
  rw [e] at hdir
  have : d.type = .dir := hdir
  rw [hd] at this; cases this

/-- A file of two blocks is written and closed. -/
def writeAndClose : List Op := [.iget 1, .ilock 0, .writei 0 (fun _ => 7) none 0 2000, .iunlock 0, .iput 0]

def emptyFile : St := tinyWith 0x1f unused Bytes.zero

def afterWrite : St := (writeAndClose.foldlM (step tiny) emptyFile).getD emptyFile

theorem emptyFile_start : Start tiny emptyFile := by
  have hnone : ∀ c b, cell tiny emptyFile.blk (current emptyFile) c ≠ some b := by
    intro c b hc
    obtain ⟨-, -, h1, h2⟩ := cell_tiny (fun _ => rfl) rfl hc
    exact h2 h1.symm
  refine ⟨fun b hb => ?_, fun c _ b hc => absurd hc (hnone c b), fun c b hc => absurd hc (hnone c b),
    synced_tinyWith _ _ _, dirsWhole_tinyWith _ _ rfl⟩
  have hbits : ∀ b, b < tiny.size → (used tiny emptyFile.blk b = true ↔ b < tiny.nmeta) := by decide
  rw [hbits b hb]
  exact ⟨.inl, fun h => h.elim id (fun ⟨c, hc, _⟩ => absurd hc (hnone c b))⟩

theorem run_of_some {ops : List Op} (h : (ops.foldlM (step sb) s).isSome = true) :
    (blockLts sb (Start sb)).Run s ops ((ops.foldlM (step sb) s).getD s) := by
  obtain ⟨t, ht⟩ := Option.isSome_iff_exists.1 h
  refine .of_foldlM (fun _ _ _ => id) ?_
  rw [ht]; rfl

/-- After that run the file has the blocks 5 and 6, and the bitmap says so. -/
theorem block_ownership_writeAndClose : (blockLts tiny (Start tiny)).Reachable afterWrite ∧
    (afterWrite.dinode 1).addrs 0 = 5 ∧ (afterWrite.dinode 1).addrs 1 = 6 ∧ BitmapOk tiny afterWrite := by
  have hreach : (blockLts tiny (Start tiny)).Reachable afterWrite :=
    ⟨emptyFile, writeAndClose, emptyFile_start, run_of_some (by decide +kernel)⟩
  exact ⟨hreach, by decide +kernel, by decide +kernel, (block_ownership hreach).1⟩

/-! ## Other starts -/

/-- A directory of 65 entries. The block of the first 64 has never been
allocated; the last one is called "x". -/
def holeDir : St :=
  tinyWith 0x3f { fresh .dir with nlink := 1, size := 1040, addrs := fun t => if t = 1 then 5 else 0 }
  ((Bytes.zero : Block).splice 0 DESIZE (Dirent.encode ⟨1, [120]⟩))

def failedLink : List Op := [.iget 1, .ilock 0, .dirlink 0 [120] 1, .iunlock 0, .iput 0]

def afterFailed : St := (failedLink.foldlM (step tiny) holeDir).getD holeDir

/-- A file that has block 7 twice; the bit of 7 is clear, as the bitmap
should have it for a block that is not owned once. -/
def twice : St := tinyWith 0x1f { unused with addrs := fun t => if t < 2 then 7 else 0 } Bytes.zero

/-- A file that has the super block. -/
def ownsSuper : St := tinyWith 0x1f { unused with addrs := fun t => if t = 0 then 1 else 0 } Bytes.zero

def openFile : List Op := [.iget 1, .ilock 0]

def opened : St := (openFile.foldlM (step tiny) twice).getD twice

def truncFile : List Op := [.iget 1, .ilock 0, .itrunc 0]

def truncated : St := (truncFile.foldlM (step tiny) ownsSuper).getD ownsSuper

theorem holeDir_cell :
    cell tiny holeDir.blk (current holeDir) c = some b ↔ c = (1, 1) ∧ b = 5 := by
  constructor
  · intro hc
    obtain ⟨h1, -, h2, h3⟩ := cell_tiny (fun _ => rfl) rfl hc
    have h2 : (if c.2 = 1 then 5 else 0) = b := h2
    split at h2
    · exact ⟨Prod.ext h1 ‹_›, h2.symm⟩
    · exact absurd h2.symm h3
  · intro ⟨h1, h2⟩
    rw [h1, h2]
    exact cell_tinyWith (by decide) (by decide) (by decide)

theorem twice_cell :
    cell tiny twice.blk (current twice) c = some b ↔ c.1 = 1 ∧ c.2 < 2 ∧ b = 7 := by
  constructor
  · intro hc
    obtain ⟨h1, -, h2, h3⟩ := cell_tiny (fun _ => rfl) rfl hc
    have h2 : (if c.2 < 2 then 7 else 0) = b := h2
    split at h2
    · exact ⟨h1, ‹_›, h2.symm⟩
    · exact absurd h2.symm h3
  · intro ⟨h1, h2, h3⟩
    have e : c = (1, c.2) := Prod.ext h1 rfl
    have h7 : ∀ t, t < 2 → (if t < 2 then 7 else 0) ≠ 0 := by decide
    rw [e, h3]
    refine (cell_tinyWith (d := { unused with addrs := fun t => if t < 2 then 7 else 0 })
      (Nat.lt_trans h2 (by decide)) (by decide) (h7 c.2 h2)).trans ?_
    exact congrArg some (if_pos h2)

theorem holeDir_bitmap : BitmapOk tiny holeDir := by
  intro b hb
  have hbits : ∀ b, b < tiny.size → (used tiny holeDir.blk b = true ↔ b < tiny.nmeta ∨ b = 5) := by decide
  rw [hbits b hb]
  refine or_congr_right
    ⟨fun h => ⟨(1, 1), holeDir_cell.2 ⟨rfl, h⟩, fun c hc => (holeDir_cell.1 hc).1⟩, fun h => ?_⟩
  obtain ⟨c, hc, -⟩ := h
  exact (holeDir_cell.1 hc).2

theorem twice_bitmap : BitmapOk tiny twice := by
  intro b hb
  have hbits : ∀ b, b < tiny.size → (used tiny twice.blk b = true ↔ b < tiny.nmeta) := by decide
  rw [hbits b hb]
  refine ⟨.inl, fun h => h.elim id (fun ⟨c, hc, huniq⟩ => ?_)⟩
  have h7 := (twice_cell.1 hc).2.2
  have e0 : (1, 0) = c := huniq (1, 0) (twice_cell.2 ⟨rfl, by decide, h7⟩)
  have e1 : (1, 1) = c := huniq (1, 1) (twice_cell.2 ⟨rfl, by decide, h7⟩)
  cases e0.trans e1.symm

theorem ownsSuper_cell :
    cell tiny ownsSuper.blk (current ownsSuper) c = some b ↔ c = (1, 0) ∧ b = 1 := by
  constructor
  · intro hc
    obtain ⟨h1, -, h2, h3⟩ := cell_tiny (fun _ => rfl) rfl hc
    have h2 : (if c.2 = 0 then 1 else 0) = b := h2
    split at h2
    · exact ⟨Prod.ext h1 ‹_›, h2.symm⟩
    · exact absurd h2.symm h3
  · intro ⟨h1, h2⟩
    rw [h1, h2]
    exact cell_tinyWith (by decide) (by decide) (by decide)

theorem ownsSuper_bitmap : BitmapOk tiny ownsSuper := by
  intro b hb
  have hbits : ∀ b, b < tiny.size → (used tiny ownsSuper.blk b = true ↔ b < tiny.nmeta) := by decide
  rw [hbits b hb]
  refine ⟨.inl, fun h => h.elim id (fun ⟨c, hc, _⟩ => ?_)⟩
  rw [(ownsSuper_cell.1 hc).2]; decide

/-- `itrunc` gives back block 7, which is free. -/
theorem twice_panics : (Op.itrunc 0).run tiny opened = .error .freeingFreeBlock :=
  Prog.eq_error (by decide +kernel)

/-- Starts with a right bitmap from which it gets wrong, or `bfree` panics:
a directory with a hole, a block with two owners, and a metadata block with
an owner. -/
theorem bitmap_wrong :
    (BitmapOk tiny holeDir ∧ Once tiny holeDir ∧ Inside tiny holeDir ∧ Synced tiny holeDir ∧
      (blockLts tiny (Start tiny)).Run holeDir failedLink afterFailed ∧ ¬BitmapOk tiny afterFailed) ∧
    (BitmapOk tiny twice ∧ Inside tiny twice ∧ Synced tiny twice ∧ DirsWhole tiny twice ∧
      (blockLts tiny (Start tiny)).Run twice openFile opened ∧ (Op.itrunc 0).allowed tiny opened = true ∧
      (Op.itrunc 0).run tiny opened = .error .freeingFreeBlock) ∧
    (BitmapOk tiny ownsSuper ∧ Once tiny ownsSuper ∧ Synced tiny ownsSuper ∧ DirsWhole tiny ownsSuper ∧
      (blockLts tiny (Start tiny)).Run ownsSuper truncFile truncated ∧ ¬BitmapOk tiny truncated) := by
  refine ⟨⟨holeDir_bitmap, fun c c' b h1 h2 => ?_, fun c b hc => ?_, synced_tinyWith _ _ _,
    run_of_some (by decide +kernel), fun hbit => ?_⟩, ⟨twice_bitmap, fun c b hc => ?_, synced_tinyWith _ _ _,
    dirsWhole_tinyWith _ _ rfl, run_of_some (by decide +kernel), by decide +kernel, twice_panics⟩,
    ⟨ownsSuper_bitmap, fun c c' b h1 h2 => ?_, synced_tinyWith _ _ _, dirsWhole_tinyWith _ _ rfl,
    run_of_some (by decide +kernel), fun hbit => ?_⟩⟩
  · rw [(holeDir_cell.1 h1).1, (holeDir_cell.1 h2).1]
  · rw [(holeDir_cell.1 hc).2]
    exact ⟨by decide, by decide⟩
  · -- block 6 is marked used, but the inode on disk does not have it
    obtain ⟨h1, h2⟩ : used tiny afterFailed.blk 6 = true ∧ ∀ t, t < NDIRECT + 1 →
        (afterFailed.dinode 1).addrs t ≠ 6 ∧
        (t = NDIRECT → (afterFailed.dinode 1).addrs t = 0) := by decide +kernel
    have href : ∀ k, (afterFailed.inode k).ref = 0 := by decide +kernel
    rcases (hbit 6 (by decide)).1 h1 with hlt | ⟨c, hc, -⟩
    · exact absurd hlt (by decide)
    · obtain ⟨-, h3, h4, -⟩ := cell_tiny href ((h2 NDIRECT (by decide)).2 rfl) hc
      exact (h2 c.2 (Nat.lt_succ_of_lt h3)).1 h4
  · rw [(twice_cell.1 hc).2.2]
    exact ⟨by decide, by decide⟩
  · rw [(ownsSuper_cell.1 h1).1, (ownsSuper_cell.1 h2).1]
  · have h1 : used tiny truncated.blk 1 = false := by decide +kernel
    have h2 := (hbit 1 (by decide)).2 (.inl (by decide))
    rw [h1] at h2; cases h2

end Xv6.Fs
