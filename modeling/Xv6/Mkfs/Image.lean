import Xv6.Fs.Whole
import Xv6.Mkfs.Refine

/-!
# The image between two calls of `mkfs` (`mkfs/mkfs.c:220-294`)

* `Ok`: every inode below `freeinode` is in use and has exactly the blocks its
  size needs, and the layout is the one that `Xv6.Fs` asks for.
* `iappend_spec`: `iappend` keeps `Ok`, adds its bytes to the end of one inode
  and changes no other.
* `ialloc_spec`: `ialloc` keeps `Ok` and gives the next inode, empty.
-/
namespace Xv6.Mkfs
open Function (update update_self update_of_ne)
open Fs (Dinode Rep Live NoHole view NDIRECT NINDIRECT MAXFILE IPB NINODE ROOTINO DIRSIZ DESIZE)

/-- The blocks of an inode are those below its size, and the rest of the last one is zero. -/
structure Fine (blk : Nat → Block) (d : Dinode) : Prop where
  whole : NoHole blk d
  tight : ∀ bn, d.size ≤ bn * BSIZE → Fs.file blk d bn = none
  indirect : d.addrs NDIRECT ≠ 0 ↔ NDIRECT * BSIZE < d.size
  tail : ∀ k, d.size ≤ k → Fs.byteAt blk d k = 0

variable {blk : Nat → Block} {d : Dinode} {m m' : Mk} {inum i off : Nat} {R : Fail → Prop} {p : List UInt8}

theorem Fine.congr {blk' : Nat → Block} (h : Fine blk d) (hf : ∀ bn, Fs.file blk' d bn = Fs.file blk d bn) :
    Fine blk' d := by
  refine ⟨fun bn hbn => ?_, fun bn hbn => ?_, h.indirect, fun k hk => ?_⟩
  · rw [hf]
    exact h.whole bn hbn
  · rw [hf]
    exact h.tight bn hbn
  · rw [Fs.byteAt_congr (hf _)]
    exact h.tail k hk

theorem Fine.snug (h : Fine blk d) : Snug blk d d.size :=
  ⟨fun bn => ⟨fun hne => by_contra fun hlt => hne (h.tight bn (by omega)), h.whole bn⟩, h.indirect⟩

/-- The image between two appends. -/
structure Ok (m : Mk) : Prop where
  good : Good m
  rep : Rep sb True (blocks m) (inodes m.img)
  count : 1 ≤ m.freeinode ∧ m.freeinode ≤ NINODES
  live : ∀ i, 1 ≤ i → i < NINODES → ((inodes m.img i).type ≠ .free ↔ i < m.freeinode)
  fine : ∀ i, Live sb (inodes m.img) i → Fine (blocks m) (inodes m.img i)

/-- Inode `inum` is new or has changed. -/
theorem Ok.change (h : Ok m) (hgood : Good m')
    (himg : inodes m'.img = update (inodes m.img) inum d)
    (hrep : Rep sb True (blocks m') (update (inodes m.img) inum d))
    (hcount : m'.freeinode ≤ NINODES) (hpos : 1 ≤ m'.freeinode)
    (hlive : ∀ i, 1 ≤ i → i < NINODES → ((update (inodes m.img) inum d i).type ≠ .free ↔ i < m'.freeinode))
    (hfile : ∀ j, Live sb (inodes m.img) j → j ≠ inum →
      ∀ bn, Fs.file (blocks m') (inodes m.img j) bn = Fs.file (blocks m) (inodes m.img j) bn)
    (hfine : Fine (blocks m') d) : Ok m' := by
  refine ⟨hgood, by rw [himg]; exact hrep, ⟨hpos, hcount⟩, by rw [himg]; exact hlive, fun i hl => ?_⟩
  rw [himg] at hl ⊢
  by_cases e : i = inum
  · rw [e, update_self]
    exact hfine
  · unfold Live at hl
    rw [update_of_ne e] at hl ⊢
    exact (h.fine i hl).congr (hfile i hl e)

theorem Ok.isLive (h : Ok m) (h1 : 1 ≤ i) (h2 : i < m.freeinode) : Live sb (inodes m.img) i := by
  have hlt : i < NINODES := Nat.lt_of_lt_of_le h2 h.count.2
  exact ⟨h1, hlt, (h.live i h1 hlt).2 h2⟩

/-- `p` has been appended to inode `inum`. -/
structure Appended (inum : Nat) (p : List UInt8) (m m' : Mk) : Prop where
  freeinode : m'.freeinode = m.freeinode
  low : ∀ b, b < inodestart → m'.img b = m.img b
  taken : m'.freeblock + nblocks (inodes m.img inum).size = m.freeblock +
    nblocks ((inodes m.img inum).size + p.length)
  other : ∀ j, j ≠ inum → inodes m'.img j = inodes m.img j
  file : ∀ j, Live sb (inodes m.img) j → j ≠ inum →
    ∀ bn, Fs.file (blocks m') (inodes m.img j) bn = Fs.file (blocks m) (inodes m.img j) bn
  self : ∃ f, inodes m'.img inum =
    { inodes m.img inum with size := (inodes m.img inum).size + p.length, addrs := f }
  contents : Fs.contents (blocks m') (inodes m'.img inum) = Fs.contents (blocks m) (inodes m.img inum) ++ p

namespace Appended
variable {inum : Nat} {p q : List UInt8} {m m' m'' : Mk}

theorem refl (inum : Nat) (m : Mk) : Appended inum [] m m :=
  ⟨rfl, fun _ _ => rfl, rfl, fun _ _ => rfl, fun _ _ _ _ => rfl, ⟨_, rfl⟩, (List.append_nil _).symm⟩

section
variable (h : Appended inum p m m')
include h

theorem size : (inodes m'.img inum).size = (inodes m.img inum).size + p.length := by
  obtain ⟨f, hf⟩ := h.self
  rw [hf]

theorem type (j : Nat) : (inodes m'.img j).type = (inodes m.img j).type := by
  by_cases e : j = inum
  · obtain ⟨f, hf⟩ := h.self
    rw [e, hf]
  · rw [h.other j e]

theorem nlink (j : Nat) : (inodes m'.img j).nlink = (inodes m.img j).nlink := by
  by_cases e : j = inum
  · obtain ⟨f, hf⟩ := h.self
    rw [e, hf]
  · rw [h.other j e]

theorem live (j : Nat) : Live sb (inodes m'.img) j ↔ Live sb (inodes m.img) j := by
  unfold Live
  rw [h.type]

theorem contents_other {j : Nat} (hj : Live sb (inodes m.img) j) (hne : j ≠ inum) :
    Fs.contents (blocks m') (inodes m'.img j) = Fs.contents (blocks m) (inodes m.img j) := by
  rw [h.other j hne]
  exact Fs.contents_congr rfl (h.file j hj hne)

theorem trans (h' : Appended inum q m' m'') : Appended inum (p ++ q) m m'' := by
  obtain ⟨f, hf⟩ := h.self
  obtain ⟨g, hg⟩ := h'.self
  refine ⟨h'.freeinode.trans h.freeinode, fun b hb => (h'.low b hb).trans (h.low b hb), ?_,
    fun j hj => (h'.other j hj).trans (h.other j hj), fun j hj hne bn => ?_, ⟨g, ?_⟩, ?_⟩
  · have h1 := h.taken
    have h2 := h'.taken
    rw [h.size] at h2
    rw [List.length_append, ← Nat.add_assoc]
    omega
  · have := h'.file j ((h.live j).2 hj) hne bn
    rw [h.other j hne] at this
    rw [this, h.file j hj hne]
  · rw [hg, hf, List.length_append, Nat.add_assoc]
  · rw [h'.contents, h.contents, List.append_assoc]

end

end Appended

theorem inodes_put (img : Nat → Block) (hi : i < NINODES) (hd : Canon d) :
    inodes (putInode img i d) = update (inodes img) i d := by
  funext j
  unfold inodes
  rw [dinodeAt_put img i hd]
  by_cases e : j = i
  · rw [e, if_pos hi, update_self, update_self]
  · rw [update_of_ne e, update_of_ne e]

theorem iblock_lt (hi : i < NINODES) : inodestart ≤ iblock i ∧ iblock i < sb.bmapstart := by
  have hi : i < 200 := hi
  show 32 ≤ i / 16 + 32 ∧ i / 16 + 32 < 45
  omega

/-- An inode is written; the data blocks are as before. -/
theorem blocks_put (m : Mk) (hi : i < NINODES) (d : Dinode) :
    blocks { m with img := putInode m.img i d } = blocks m := by
  have hn : sb.nmeta = sb.bmapstart + 1 := rfl
  have hlt := (iblock_lt hi).2
  funext b
  unfold blocks
  split
  · rfl
  · split
    · rfl
    · exact update_of_ne (by omega) ..

theorem Good.put (h : Good m) (hi : i < NINODES) (d : Dinode) :
    Good { m with img := putInode m.img i d } := by
  have hn : sb.nmeta = sb.bmapstart + 1 := rfl
  have hlt := (iblock_lt hi).2
  have hlow := h.low
  refine ⟨h.low, h.fits, fun b hb => ?_⟩
  have hb : m.freeblock ≤ b := hb
  show update m.img (iblock i) _ b = _
  rw [update_of_ne (by omega)]
  exact h.clear b hb

theorem wp_rinode (hi : i < NINODES) {Q : Dinode → Mk → Prop} :
    Wp (rinode i) m Q R ↔ Q (inodes m.img i) m := by
  have hlt := (iblock_lt hi).2
  have hb : sb.bmapstart < FSSIZE := by decide
  unfold rinode rsect
  simp only [wp_bind, wp_get]
  rw [if_pos (by omega), wp_pure, wp_pure]
  unfold inodes dinodeAt
  rw [if_pos hi]

theorem wp_winode (hi : i < NINODES) (d : Dinode) {Q : Unit → Mk → Prop} :
    Wp (winode i d) m Q R ↔ Q () { m with img := putInode m.img i d } := by
  have hlt := (iblock_lt hi).2
  have hb : sb.bmapstart < FSSIZE := by decide
  unfold winode rsect wsect
  simp only [wp_bind, wp_get]
  rw [if_pos (by omega), wp_pure, wp_modify]
  rfl

/-- An inode that has just been read. -/
theorem view_open (m : Mk) (inum : Nat) : view (asKernel m inum (inodes m.img inum)) 0 = inodes m.img := by
  rw [view_asKernel]
  exact Function.update_eq_self ..

/-- What the kernel's `writei` is known to do, for an append. -/
theorem Append.written {din : Dinode} {r : Dinode × Nat}
    (h : Append inum off 0 (p.getD · 0) p p.length din m r m')
    (hrep : Rep sb True (blocks m) (view (asKernel m inum din) 0))
    (hi : Live sb (view (asKernel m inum din) 0) inum) (hoff : off ≤ MAXFILE * BSIZE) :
    Fs.Written sb True 0 (p.getD · 0) none off 0 p.length p.length (asKernel m inum din)
    (asKernel m' inum r.1) := by
  have hi0 : Live sb (view (asKernel m inum din) 0) ((asKernel m inum din).inode 0).inum := by
    rw [asKernel_inode]
    exact hi
  have hmax : off + p.length ≤ MAXFILE * BSIZE := by
    by_cases hp : p = []
    · rw [hp]
      exact hoff
    · exact h.fits hp
  obtain ⟨n, hn, hw⟩ := (Fs.writeLoop_spec _ hrep hi0 (Nat.le_refl _) hmax).of_ok h.kernel
  simp only [Prod.mk.injEq, Nat.add_right_inj] at hn
  rw [← hn.1] at hw
  exact hw

/-- An append to `inum`, with its inode written back. -/
theorem Append.finish {din1 : Dinode} {m1 : Mk} (h : Ok m)
    (hlive : Live sb (inodes m.img) inum)
    (ha : Append inum (inodes m.img inum).size 0 (p.getD · 0) p p.length (inodes m.img inum) m (din1,
    off) m1) : Ok { m1 with img := putInode m1.img inum { din1 with size := off } } ∧
      Appended inum p m { m1 with img := putInode m1.img inum { din1 with size := off } } := by
  have hlt : inum < NINODES := hlive.2.1
  have hsize := (h.fine inum hlive).whole.size_le
  have hview := view_open m inum
  have hw := ha.written (by rw [hview]; exact h.rep) (by rw [hview]; exact hlive) hsize
  have hoff : off = (inodes m.img inum).size + p.length := ha.off_eq
  have hinodes : inodes m1.img = inodes m.img := inodes_congr ha.img
  have hview1 : view (asKernel m1 inum din1) 0 =
      update (inodes m.img) inum din1 := by rw [view_asKernel, hinodes]
  -- the inode that is written back
  obtain ⟨f, hf⟩ := hw.self
  have hdin1 : din1 = { inodes m.img inum with addrs := f } := by
    rw [asKernel_inode, asKernel_inode] at hf
    exact (Fs.Inode.mk.inj hf).2.2.2.2
  generalize hd2 : ({ din1 with size := off } : Dinode) = d2
  have htype : d2.type = (inodes m.img inum).type := by rw [← hd2, hdin1]
  have haddrs : d2.addrs = din1.addrs := by rw [← hd2]
  have hsize2 : d2.size = (inodes m.img inum).size + p.length := by rw [← hd2, ← hoff]
  have hself : d2 = { inodes m.img inum with size := (inodes m.img inum).size + p.length, addrs := f } := by
    rw [← hd2, hoff, hdin1]
  have hlive1 : Live sb (view (asKernel m1 inum din1) 0) inum := by
    rw [hview1]
    refine ⟨hlive.1, hlt, ?_⟩
    rw [update_self, hdin1]
    exact hlive.2.2
  have hmax : (inodes m.img inum).size + p.length ≤ MAXFILE * BSIZE := by
    by_cases hp : p = []
    · rw [hp]
      exact hsize
    · exact ha.fits hp
  have hcanon0 : Canon (inodes m.img inum) := by
    unfold inodes
    rw [if_pos hlt]
    exact canon_dinodeAt _ _
  have hcanon : Canon d2 := by
    refine ⟨by rw [hself]; exact hcanon0.nlink, ?_, fun t => ?_, fun t ht => ?_⟩
    · rw [hsize2]
      exact Nat.lt_of_le_of_lt hmax (by decide)
    · rw [haddrs]
      by_cases h0 : din1.addrs t = 0
      · rw [h0]
        decide
      by_cases ht : t ≤ NDIRECT
      · have hs : Fs.slot (blocks m1) din1 t = din1.addrs t := Fs.slot_direct _ ht
        have hplace := slot_place ha.good hw.rep hlive1 (by rw [hs]; exact h0)
        have hfits := ha.good.fits
        rw [hs] at hplace
        have hFS : FSSIZE = 2000 := rfl
        omega
      · rw [ha.past t (by omega)]
        exact hcanon0.addrs t
    · rw [haddrs, ha.past t ht]
      exact hcanon0.past t ht
  have himg : inodes (putInode m1.img inum d2) =
      update (inodes m.img) inum d2 := by rw [inodes_put _ hlt hcanon, hinodes]
  have hblocks : blocks { m1 with img := putInode m1.img inum d2 } = blocks m1 := blocks_put m1 hlt d2
  have hfile2 : ∀ bn, Fs.file (blocks m1) d2 bn = Fs.file (blocks m1) din1 bn := by
    intro bn
    unfold Fs.file Fs.slot
    rw [haddrs]
  have hfile : ∀ j, Live sb (inodes m.img) j → j ≠ inum →
      ∀ bn, Fs.file (blocks m1) (inodes m.img j) bn = Fs.file (blocks m) (inodes m.img j) bn := by
    intro j hj hne bn
    have := hw.file_other j (by rw [hview]; exact hj) (by rw [asKernel_inode]; exact hne) bn
    rwa [hview, hview1, update_of_ne hne] at this
  have hbyte : ∀ k, Fs.byteAt (blocks m1) d2 k =
      if (inodes m.img inum).size ≤ k ∧
      k < (inodes m.img inum).size + p.length then p.getD (k - (inodes m.img inum).size) 0
      else Fs.byteAt (blocks m) (inodes m.img inum) k := by
    intro k
    have hnew := hw.new k
    have hold := hw.old k
    rw [asKernel_inode] at hnew hold
    rw [Fs.byteAt_congr (hfile2 _)]
    split
    · rename_i hk
      rw [← Nat.zero_add (k - _)]
      exact hnew hk.1 hk.2
    · rw [asKernel_inode] at hold
      exact hold (by omega)
  have hnohole : NoHole (blocks m1) d2 := by
    intro bn hbn
    rw [hsize2] at hbn
    rw [hfile2]
    exact (ha.snug.mapped bn).2 hbn
  constructor
  · refine h.change (ha.good.put hlt d2) himg ?_ (by rw [ha.freeinode]; exact h.count.2)
      (by rw [ha.freeinode]; exact h.count.1) (fun i h1 h2 => ?_) (by rw [hblocks]; exact hfile) ?_
    · rw [hblocks]
      refine hw.rep.congr (fun i => ?_) (fun i _ t => ?_) fun _ _ => rfl
      · rw [hview1]
        unfold Live
        by_cases e : i = inum
        · rw [e, update_self, update_self, htype, hdin1]
        · rw [update_of_ne e, update_of_ne e]
      · rw [hview1]
        by_cases e : i = inum
        · rw [e, update_self, update_self]
          unfold Fs.slot
          rw [haddrs]
          rfl
        · rw [update_of_ne e, update_of_ne e]
          rfl
    · show _ ↔ i < m1.freeinode
      rw [ha.freeinode]
      by_cases e : i = inum
      · rw [e, update_self, htype]
        exact h.live inum hlive.1 hlt
      · rw [update_of_ne e]
        exact h.live i h1 h2
    · rw [hblocks]
      refine ⟨hnohole, fun bn hbn => ?_, ?_, fun k hk => ?_⟩
      · rw [hsize2] at hbn
        rw [hfile2]
        exact by_contra fun hne => Nat.not_lt.2 hbn ((ha.snug.mapped bn).1 hne)
      · rw [hsize2, haddrs]
        exact ha.snug.indirect
      · rw [hsize2] at hk
        rw [hbyte, if_neg (by omega)]
        exact (h.fine inum hlive).tail k (by omega)
  · refine ⟨ha.freeinode, fun b hb => ?_, ha.taken, fun j hj => ?_, fun j hj hne bn => ?_, ⟨f, ?_⟩, ?_⟩
    · have hn : inodestart < sb.nmeta := by decide
      have := (iblock_lt hlt).1
      show update m1.img (iblock inum) _ b = _
      rw [update_of_ne (by omega)]
      exact ha.img b (by omega)
    · rw [himg]
      exact update_of_ne hj ..
    · rw [hblocks]
      exact hfile j hj hne bn
    · rw [himg, update_self]
      exact hself
    · rw [hblocks, himg, update_self]
      apply List.ext_getElem
      · simp [Fs.contents, hsize2]
      · intro k h1 h2
        simp only [Fs.contents, List.getElem_map, List.getElem_range, hbyte,
          List.getElem_append, List.length_map, List.length_range]
        have hk : k < (inodes m.img inum).size + p.length := by
          simpa [Fs.contents, hsize2] using h1
        by_cases hlt : k < (inodes m.img inum).size
        · rw [if_neg (by omega), dif_pos hlt]
        · rw [if_pos (by omega), dif_neg hlt, List.getD_eq_getElem _ _ (by omega)]

theorem iappend_spec (h : Ok m) (h1 : 1 ≤ inum) (h2 : inum < m.freeinode) (p : List UInt8) :
    Wp (iappend inum p) m (fun _ m' => Ok m' ∧ Appended inum p m m')
      fun _ => FSSIZE + nblocks (inodes m.img inum).size <
      m.freeblock + nblocks ((inodes m.img inum).size + p.length) ∨
        MAXFILE * BSIZE < (inodes m.img inum).size + p.length := by
  have hlive := h.isLive h1 h2
  have hview := view_open m inum
  unfold iappend
  rw [wp_bind, wp_rinode hlive.2.1]
  refine (writeLoop_appendLoop inum (p.getD · 0) p.length h.good (by rw [hview]; exact h.rep)
    (by rw [hview]; exact hlive) (h.fine inum hlive).snug (Nat.le_refl _)
    fun i _ => by rw [Nat.zero_add]).bind fun r m1 ha => ?_
  rw [wp_winode hlive.2.1]
  exact ha.finish h hlive

/-! ## Inodes and contents -/

/-- The inode that `ialloc` writes. -/
def made (type : Fs.Ty) : Dinode :=
  { type := type, major := 0, minor := 0, nlink := 1, size := 0, addrs := fun _ => 0 }

theorem canon_made (type : Fs.Ty) : Canon (made type) :=
  ⟨by show -2 ^ 15 ≤ (1 : Int) ∧ (1 : Int) < 2 ^ 15; decide, by show 0 < _; decide,
    fun _ => by show 0 < _; decide, fun _ _ => rfl⟩

/-- `ialloc` has made inode `m.freeinode`. -/
structure Made (type : Fs.Ty) (m m' : Mk) : Prop where
  freeinode : m'.freeinode = m.freeinode + 1
  freeblock : m'.freeblock = m.freeblock
  low : ∀ b, b < inodestart → m'.img b = m.img b
  blocks : Mkfs.blocks m' = Mkfs.blocks m
  inodes : Mkfs.inodes m'.img = update (Mkfs.inodes m.img) m.freeinode (made type)

theorem Made.contents {type : Fs.Ty} (h : Made type m m') {j : Nat} (hj : j ≠ m.freeinode) :
    Fs.contents (Mkfs.blocks m') (Mkfs.inodes m'.img j) =
    Fs.contents (Mkfs.blocks m) (Mkfs.inodes m.img j) := by
  rw [h.blocks, h.inodes, update_of_ne hj]

theorem ialloc_spec (h : Ok m) (hroom : m.freeinode < NINODES) (type : Fs.Ty) (ht : type ≠ .free) :
    Wp (ialloc type) m (fun i m' => i = m.freeinode ∧ Ok m' ∧ Made type m m') fun _ => False := by
  unfold ialloc
  simp only [wp_bind, wp_get, wp_modify]
  rw [wp_winode hroom, wp_pure]
  show _ ∧ Ok { m with freeinode := m.freeinode + 1, img := putInode m.img m.freeinode (made type) } ∧ _
  have himg : inodes (putInode m.img m.freeinode (made type)) =
      update (inodes m.img) m.freeinode (made type) :=
    inodes_put _ hroom (canon_made type)
  have hblocks : blocks { m with
      freeinode := m.freeinode + 1, img := putInode m.img m.freeinode (made type) } = blocks m :=
    blocks_put { m with freeinode := m.freeinode + 1 } hroom (made type)
  have hgood : Good { m with freeinode := m.freeinode + 1 } := ⟨h.good.low, h.good.fits, h.good.clear⟩
  have hfree : (inodes m.img m.freeinode).type = .free := by
    by_contra hne
    exact Nat.lt_irrefl _ ((h.live _ h.count.1 hroom).1 hne)
  refine ⟨rfl, h.change (hgood.put hroom (made type)) himg ?_ hroom (Nat.succ_pos _)
    (fun i h1 h2 => ?_) (fun _ _ _ _ => ?_)
    ⟨fun bn hbn => ?_, fun bn _ => ?_, ?_, fun k _ => ?_⟩, ⟨rfl, rfl, fun b hb => ?_, hblocks, himg⟩⟩
  · rw [hblocks]
    refine h.rep.blank (fun j hj => update_of_ne hj ..)
      (fun t => Fs.cell_dead fun hl => hl.2.2 hfree) (Fs.slot_blank fun t _ => ?_)
    rw [update_self]
    rfl
  · show _ ↔ i < m.freeinode + 1
    by_cases e : i = m.freeinode
    · rw [e, update_self]
      exact iff_of_true ht (Nat.lt_succ_self _)
    · rw [update_of_ne e, h.live i h1 h2]
      omega
  · rw [hblocks]
  · exact absurd hbn (Nat.not_lt_zero _)
  · exact Fs.file_none.2 (Fs.slot_blank (fun _ _ => rfl) _)
  · exact iff_of_false (fun hne => hne rfl) (Nat.not_lt_zero _)
  · unfold Fs.byteAt
    rw [Fs.file_none.2 (Fs.slot_blank (fun _ _ => rfl) _)]
    exact Bytes.get_zero _
  · have := (iblock_lt hroom).1
    exact update_of_ne (by omega) ..

end Xv6.Mkfs
