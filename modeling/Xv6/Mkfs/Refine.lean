import Xv6.Fs.Table
import Xv6.Mkfs.Basic

/-!
# `iappend` is the kernel's `writei`

`asKernel` is an image under construction as the kernel would see it: the
blocks below `freeblock` marked used in the bitmap, which `mkfs` writes only
at the end, and the inode that `mkfs` is working on locked in memory. On it,
`freeblock++` is `balloc` and the two block maps agree.

* `balloc_newBlock`, `bmap_blockOf`: one block.
* `writeLoop_appendLoop`: a whole append, with the same result on both sides.
* `dinodeAt_put`: what `winode` writes is what the kernel reads.
-/
namespace Xv6.Mkfs
open Function (update update_self update_of_ne)
open Fs (Dinode Rep Live view NDIRECT NINDIRECT MAXFILE IPB NINODE)

/-! ## Inodes on disk -/

/-- The values that fit the fields of a `struct dinode`. -/
structure Canon (d : Dinode) : Prop where
  nlink : -2 ^ 15 ≤ d.nlink ∧ d.nlink < 2 ^ 15
  size : d.size < 2 ^ 32
  addrs : ∀ t, d.addrs t < 2 ^ 32
  past : ∀ t, NDIRECT < t → d.addrs t = 0

theorem canon_dinodeAt (img : Nat → Block) (i : Nat) : Canon (dinodeAt img i) := by
  have h2 := Bytes.getLE_lt (img (iblock i)) (DISIZE * (i % IPB) + 6) 2
  refine ⟨?_, Bytes.getLE_lt _ _ 4, fun t => ?_, fun t ht => if_neg (Nat.not_le.2 ht)⟩
  · show -2 ^ 15 ≤ short _ ∧ short _ < 2 ^ 15
    unfold short
    split <;> omega
  · show (if t ≤ NDIRECT then _ else 0) < _
    split
    · exact Bytes.getLE_lt _ _ 4
    · decide

theorem tyOf_tyCode (t : Fs.Ty) : tyOf (tyCode t) = t := by cases t <;> rfl

theorem ofBitVec_toNat (x : Int16) : Int16.ofBitVec (BitVec.ofNat 16 (x.toBitVec.toNat % 256 ^ 2)) = x := by
  have hlt : x.toBitVec.toNat < 256 ^ 2 := x.toBitVec.isLt
  rw [Nat.mod_eq_of_lt hlt, BitVec.ofNat_toNat, BitVec.setWidth_eq]
  rfl

theorem short_mod {n : Int} (h1 : -2 ^ 15 ≤ n) (h2 : n < 2 ^ 15) :
    short ((n % 2 ^ 16).toNat % 256 ^ 2) = n := by
  unfold short
  split <;> omega

variable {n j b off t fbn n1 inum : Nat} {d din : Dinode} {m : Mk}

/-- A field of an inode that has just been stored. -/
theorem getLE_encode (b : Block) (off i k v : Nat) (hin : off + i + k ≤ BSIZE) (hi : i + k ≤ DISIZE)
    (h : ∀ j, j < k → encode d (i + j) = Bytes.leByte v j) :
    (b.splice off DISIZE (encode d)).getLE (off + i) k = v % 256 ^ k := by
  rw [← Bytes.readLE_leByte v (off + i) k]
  apply Bytes.readLE_congr
  intro j hj
  rw [Bytes.get_splice_in _ _ (by omega) (by omega) (by omega),
    show off + i + j - off = i + j by omega, h j hj]
  congr 1
  omega

theorem encode_type (d : Dinode) (h : j < 2) : encode d (0 + j) = Bytes.leByte (tyCode d.type) j := by
  unfold encode
  rw [if_pos (by omega), Nat.zero_add]

theorem encode_major (d : Dinode) (h : j < 2) : encode d (2 + j) = Bytes.leByte d.major.toBitVec.toNat j := by
  unfold encode
  rw [if_neg (by omega), if_pos (by omega), Nat.add_sub_cancel_left]

theorem encode_minor (d : Dinode) (h : j < 2) : encode d (4 + j) = Bytes.leByte d.minor.toBitVec.toNat j := by
  unfold encode
  rw [if_neg (by omega), if_neg (by omega), if_pos (by omega), Nat.add_sub_cancel_left]

theorem encode_nlink (d : Dinode) (h : j < 2) :
    encode d (6 + j) = Bytes.leByte (d.nlink % 2 ^ 16).toNat j := by
  unfold encode
  rw [if_neg (by omega), if_neg (by omega), if_neg (by omega), if_pos (by omega), Nat.add_sub_cancel_left]

theorem encode_size (d : Dinode) (h : j < 4) : encode d (8 + j) = Bytes.leByte d.size j := by
  unfold encode
  rw [if_neg (by omega), if_neg (by omega), if_neg (by omega), if_neg (by omega), if_pos (by omega),
    Nat.add_sub_cancel_left]

theorem encode_addrs (d : Dinode) (t : Nat) (h : j < 4) :
    encode d (12 + 4 * t + j) = Bytes.leByte (d.addrs t) j := by
  unfold encode
  rw [if_neg (by omega), if_neg (by omega), if_neg (by omega), if_neg (by omega), if_neg (by omega),
    show (12 + 4 * t + j - 12) / 4 = t by omega, show (12 + 4 * t + j - 12) % 4 = j by omega]

/-- An inode that has been stored is read back. -/
theorem decode_encode {b : Block} (hd : Canon d) (hin : off + DISIZE ≤ BSIZE) :
    decode (b.splice off DISIZE (encode d)) off = d := by
  have hD : DISIZE = 64 := rfl
  have htype := getLE_encode b off 0 2 (tyCode d.type) (by omega) (by omega) fun j => encode_type d
  have hmajor := getLE_encode b off 2 2 _ (by omega) (by omega) fun j => encode_major d
  have hminor := getLE_encode b off 4 2 _ (by omega) (by omega) fun j => encode_minor d
  have hnlink := getLE_encode b off 6 2 _ (by omega) (by omega) fun j => encode_nlink d
  have hsize := getLE_encode b off 8 4 d.size (by omega) (by omega) fun j => encode_size d
  have haddrs : ∀ t, t ≤ NDIRECT →
      (b.splice off DISIZE (encode d)).getLE (off + 12 + 4 * t) 4 = d.addrs t % 256 ^ 4 := by
    intro t ht
    have hN : NDIRECT = 12 := rfl
    have := getLE_encode b off (12 + 4 * t) 4 (d.addrs t) (by omega) (by omega) fun j => encode_addrs d t
    rwa [← Nat.add_assoc] at this
  have hcode : tyCode d.type % 256 ^ 2 = tyCode d.type := by cases d.type <;> rfl
  have hlt := hd.size
  obtain ⟨hn1, hn2⟩ := hd.nlink
  cases d with
  | mk type major minor nlink size addrs =>
    simp only [decode, Dinode.mk.injEq]
    refine ⟨?_, ?_, ?_, ?_, ?_, ?_⟩
    · rw [Nat.add_zero] at htype
      rw [htype, hcode, tyOf_tyCode]
    · rw [hmajor, ofBitVec_toNat]
    · rw [hminor, ofBitVec_toNat]
    · rw [hnlink, short_mod hn1 hn2]
    · rw [hsize]
      exact Nat.mod_eq_of_lt hlt
    · funext t
      split
      · rename_i ht
        rw [haddrs t ht]
        exact Nat.mod_eq_of_lt (hd.addrs t)
      · rename_i ht
        exact (hd.past t (Nat.not_le.1 ht)).symm

/-- `winode` of inode `i`. -/
def putInode (img : Nat → Block) (i : Nat) (d : Dinode) : Nat → Block :=
  update img (iblock i) ((img (iblock i)).splice (DISIZE * (i % IPB)) DISIZE (encode d))

/-- The inodes are those before, but for the one stored. -/
theorem dinodeAt_put (img : Nat → Block) (i : Nat) (hd : Canon d) :
    dinodeAt (putInode img i d) = update (dinodeAt img) i d := by
  have hplace : ∀ k, DISIZE * (k % IPB) = 64 * (k % 16) := fun _ => rfl
  have hD : DISIZE = 64 := rfl
  funext j
  by_cases hj : j = i
  · rw [hj, update_self, dinodeAt, putInode, update_self]
    refine decode_encode hd ?_
    rw [hplace]
    show 64 * (i % 16) + 64 ≤ 1024
    omega
  · rw [update_of_ne hj, dinodeAt, putInode]
    by_cases hb : iblock j = iblock i
    · -- the same block, another place in it
      rw [hb, update_self, dinodeAt, hb]
      have hne : j % 16 ≠ i % 16 := by
        have hb : j / 16 + inodestart = i / 16 + inodestart := hb
        omega
      have hget : ∀ o k, o + k ≤ DISIZE →
        ((img (iblock i)).splice (DISIZE * (i % IPB)) DISIZE (encode d)).getLE
          (DISIZE * (j % IPB) + o) k = (img (iblock i)).getLE (DISIZE * (j % IPB) + o) k :=
        fun o k ho => Bytes.getLE_splice_disjoint _ _ (by rw [hplace, hplace]; omega)
      unfold decode
      simp only [Dinode.mk.injEq]
      refine ⟨?_, ?_, ?_, ?_, ?_, ?_⟩
      · rw [show DISIZE * (j % IPB) = DISIZE * (j % IPB) + 0 from rfl, hget 0 2 (by omega)]
      · rw [hget 2 2 (by omega)]
      · rw [hget 4 2 (by omega)]
      · rw [hget 6 2 (by omega)]
      · rw [hget 8 4 (by omega)]
      · funext t
        split
        · rename_i ht
          have ht : t ≤ 12 := ht
          rw [Nat.add_assoc, hget (12 + 4 * t) 4 (by omega)]
        · rfl
    · rw [update_of_ne hb]
      rfl

/-! ## The bitmap -/

theorem firstBits_succ (n : Nat) : firstBits (n + 1) = (firstBits n).setBit n := by
  unfold firstBits
  rw [List.range_succ, List.foldl_append]
  rfl

theorem bit_firstBits (hn : n ≤ BSIZE * 8) (j : Nat) : (firstBits n).bit j = decide (j < n) := by
  induction n with
  | zero => simp [firstBits, Bytes.bit]
  | succ n ih =>
    have hlt : n / 8 < BSIZE := by omega
    rw [firstBits_succ, Bytes.bit_setBit _ hlt, ih (by omega), ← Bool.decide_or]
    exact decide_eq_decide.2 (by omega)

/-- The bitmap as it will be, and the data blocks. -/
def blocks (m : Mk) (b : Nat) : Block :=
  if b = sb.bmapstart then firstBits m.freeblock else if b < sb.nmeta then Bytes.zero else m.img b

theorem blocks_data (h : sb.nmeta ≤ b) : blocks m b = m.img b := by
  have hn : sb.nmeta = 46 := rfl
  have hb : sb.bmapstart = 45 := rfl
  unfold blocks
  rw [if_neg (by omega), if_neg (by omega)]

/-- Nothing has been written past `freeblock`. -/
structure Good (m : Mk) : Prop where
  low : sb.nmeta ≤ m.freeblock
  fits : m.freeblock ≤ FSSIZE
  clear : ∀ b, m.freeblock ≤ b → m.img b = Bytes.zero

theorem used_blocks (h : Good m) (hb : b < sb.size) : Fs.used sb (blocks m) b = decide (b < m.freeblock) := by
  have hsize : sb.size = 2000 := rfl
  have hfits : m.freeblock ≤ 2000 := h.fits
  have hblock : sb.bblock b = sb.bmapstart := by
    show b / 8192 + sb.bmapstart = sb.bmapstart
    omega
  unfold Fs.used
  rw [hblock, Nat.mod_eq_of_lt (show b < Fs.BPB by show b < 8192; omega)]
  unfold blocks
  rw [if_pos rfl]
  exact bit_firstBits (by show _ ≤ 8192; omega) b

/-! ## One block -/

/-- The inodes of an image; the inode blocks have room for `NINODES`. -/
def inodes (img : Nat → Block) (i : Nat) : Dinode := if i < NINODES then dinodeAt img i else Fs.fresh .free

/-- The image, with inode `inum` open and locked. -/
def asKernel (m : Mk) (inum : Nat) (din : Dinode) : Fs.St where
  blk := blocks m
  dinode := inodes m.img
  inode := update (fun _ => { inum := 0, ref := 0, locked := false, valid := false, d := Fs.fresh .free }) 0
    { inum := inum, ref := 1, locked := true, valid := true, d := din }
  gen _ := 0

@[simp] theorem asKernel_inode (m : Mk) (inum : Nat) (din : Dinode) :
    (asKernel m inum din).inode 0 = { inum := inum, ref := 1, locked := true, valid := true, d := din } := by
  simp only [asKernel, update_self]

@[simp] theorem asKernel_blk (m : Mk) (inum : Nat) (din : Dinode) :
    (asKernel m inum din).blk = blocks m := rfl

/-- Another value of the inode in memory. -/
theorem asKernel_setInode (m : Mk) (inum : Nat) (din din' : Dinode) :
    { asKernel m inum din with
      inode := update (asKernel m inum din).inode 0
        ({ inum := inum, ref := 1, locked := true, valid := true, d := din' } : Fs.Inode) } =
        asKernel m inum din' := by
  unfold asKernel
  rw [Function.update_idem]

/-- The first bit that is clear is found. -/
theorem freeBit_first {data : Block} {r : Nat} (hr : b + r < sb.size)
    (hclear : data.bit r = false) (passes : Nat) :
    ∀ {bi : Nat}, bi ≤ r → r < bi + passes → (∀ x, bi ≤ x → x < r → data.bit x = true) →
    Fs.freeBit sb data b passes bi = some r := by
  induction passes with
  | zero => intro bi h1 h2 _; omega
  | succ passes ih =>
    intro bi h1 h2 hset
    unfold Fs.freeBit
    rw [if_pos (by omega)]
    by_cases e : bi = r
    · rw [e, hclear]
      rfl
    · rw [hset bi (Nat.le_refl _) (by omega), if_pos rfl]
      exact ih (by omega) (by omega) fun x h3 h4 => hset x (by omega) h4

/-- `freeblock++` is `balloc`. -/
theorem balloc_newBlock (h : Good m) (hroom : m.freeblock < FSSIZE) (inum : Nat) (din : Dinode) :
    Fs.balloc sb (asKernel m inum din) =
    .ok (m.freeblock, asKernel { m with freeblock := m.freeblock + 1 } inum din) := by
  have hroom : m.freeblock < 2000 := hroom
  have hlow := h.low
  have hbit := bit_firstBits (show m.freeblock ≤ BSIZE * 8 by show _ ≤ 8192; omega)
  have hfind : Fs.freeBit sb (firstBits m.freeblock) 0 Fs.BPB 0 = some m.freeblock := by
    refine freeBit_first (by show 0 + _ < 2000; omega) ?_ _ (Nat.zero_le _)
      (by show _ < 0 + 8192; omega) fun x _ hx => ?_
    · rw [hbit]
      simp
    · rw [hbit]
      simpa using hx
  have hblk : update (update (blocks m) sb.bmapstart ((firstBits m.freeblock).setBit m.freeblock))
        m.freeblock Bytes.zero =
      blocks { m with freeblock := m.freeblock + 1 } := by
    funext b
    by_cases e1 : b = m.freeblock
    · rw [e1, update_self, blocks_data hlow]
      exact (h.clear _ (Nat.le_refl _)).symm
    · rw [update_of_ne e1]
      by_cases e2 : b = sb.bmapstart
      · rw [e2, update_self, blocks, if_pos rfl, firstBits_succ]
      · rw [update_of_ne e2]
        unfold blocks
        rw [if_neg e2, if_neg e2]
  have hdata : (asKernel m inum din).blk (sb.bblock 0) = firstBits m.freeblock := by
    show blocks m sb.bmapstart = _
    rw [blocks, if_pos rfl]
  apply Wp.eq_ok
  unfold Fs.balloc
  rw [show sb.nbitmap = 0 + 1 from rfl]
  unfold Fs.ballocFrom
  rw [if_pos (show 0 < sb.size by decide), wp_bind, Fs.wp_bread, hdata, hfind]
  simp only [wp_bind, Fs.wp_bstore, Fs.bzero, wp_pure, Nat.zero_add, true_and]
  unfold asKernel
  rw [← hblk]
  rfl

/-- What an append leaves alone. -/
structure Frame (din din' : Dinode) (m m' : Mk) : Prop where
  freeinode : m'.freeinode = m.freeinode
  img : ∀ b, b < sb.nmeta → m'.img b = m.img b
  past : ∀ t, NDIRECT < t → din'.addrs t = din.addrs t

theorem Frame.refl (din : Dinode) (m : Mk) : Frame din din m m := ⟨rfl, fun _ _ => rfl, fun _ _ => rfl⟩

theorem Frame.trans {d' d'' : Dinode} {m' m'' : Mk} (h : Frame d d' m m') (h' : Frame d' d'' m' m'') :
    Frame d d'' m m'' :=
  ⟨h'.freeinode.trans h.freeinode, fun b hb => (h'.img b hb).trans (h.img b hb),
    fun t ht => (h'.past t ht).trans (h.past t ht)⟩

/-- An address that `mkfs` has found or allocated. -/
structure Addressed (inum t : Nat) (din din' : Dinode) (m m' : Mk) : Prop extends Frame din din' m m' where
  good : Good m'
  ne_zero : din'.addrs t ≠ 0
  place : din'.addrs t = din.addrs t ∨ sb.nmeta ≤ din'.addrs t ∧ din'.addrs t < m'.freeblock
  mono : m.freeblock ≤ m'.freeblock
  same : m'.img = m.img
  rest : ∀ u, u ≠ t → din'.addrs u = din.addrs u
  kernel : Fs.addrOrAlloc sb 0 t (asKernel m inum din) = .ok (din'.addrs t, asKernel m' inum din')

theorem addrOf_spec (h : Good m) (inum : Nat) (din : Dinode) (ht : t ≤ NDIRECT) :
    Wp (addrOf din t) m (fun din' m' => m'.freeblock = m.freeblock + (if din.addrs t = 0 then 1 else 0) ∧
      (din.addrs t ≠ 0 ∧ din'.addrs t = din.addrs t ∨ din.addrs t = 0 ∧ din'.addrs t = m.freeblock) ∧
      (din'.addrs t < FSSIZE → Addressed inum t din din' m m')) fun _ => False := by
  have hn : sb.nmeta = 46 := rfl
  have hlow := h.low
  unfold addrOf
  rw [wp_ite]
  refine ⟨fun h0 => ?_, fun h0 => ?_⟩
  · simp only [newBlock, wp_bind, wp_get, wp_modify, wp_pure]
    have hself : update din.addrs t m.freeblock t = m.freeblock := update_self ..
    refine ⟨by rw [if_pos h0], .inr ⟨h0, hself⟩, fun hlt => ?_⟩
    have hlt : m.freeblock < FSSIZE := hself ▸ hlt
    refine ⟨⟨rfl, fun _ _ => rfl, fun u hu => update_of_ne (by omega) ..⟩,
      ⟨Nat.le_succ_of_le hlow, hlt, fun b hb => h.clear b (Nat.le_of_succ_le hb)⟩, ?_,
      .inr ?_, Nat.le_succ _, rfl, fun u hu => update_of_ne hu .., Wp.eq_ok ?_⟩
    · show update din.addrs t m.freeblock t ≠ 0
      omega
    · show sb.nmeta ≤ update din.addrs t m.freeblock t ∧ update din.addrs t m.freeblock t < m.freeblock + 1
      omega
    · unfold Fs.addrOrAlloc
      rw [wp_bind, Fs.wp_getInode, asKernel_inode, if_neg (not_not.2 h0), wp_bind,
        wp_ok (balloc_newBlock h hlt inum din),
        if_neg (by omega), wp_bind, Fs.setAddr, Fs.wp_setInode, wp_pure, asKernel_inode, asKernel_setInode]
      exact ⟨hself.symm, rfl⟩
  · rw [wp_pure, if_neg h0]
    refine ⟨rfl, .inl ⟨h0, rfl⟩,
      fun _ => ⟨.refl din m, h, h0, .inl rfl, Nat.le_refl _, rfl, fun _ _ => rfl, Wp.eq_ok ?_⟩⟩
    unfold Fs.addrOrAlloc
    rw [wp_bind, Fs.wp_getInode, asKernel_inode, if_pos h0, wp_pure]
    exact ⟨rfl, rfl⟩

/-- The number of blocks to allocate before block `fbn` can be written. -/
def missing (blk : Nat → Block) (d : Dinode) (fbn : Nat) : Nat :=
  (if Fs.slot blk d (Fs.dataSlot fbn) = 0 then 1 else 0) + if NDIRECT ≤ fbn ∧
    d.addrs NDIRECT = 0 then 1 else 0

theorem missing_direct (blk : Nat → Block) (d : Dinode) (h : fbn < NDIRECT) :
    missing blk d fbn = if d.addrs fbn = 0 then 1 else 0 := by
  have hno : ¬(NDIRECT ≤ fbn ∧ d.addrs NDIRECT = 0) := fun e => Nat.not_le.2 h e.1
  unfold missing
  rw [show Fs.dataSlot fbn = fbn from if_pos h, Fs.slot_direct _ (Nat.le_of_lt h), if_neg hno, Nat.add_zero]

/-- Without the indirect block its entries are missing as well. -/
theorem missing_both (blk : Nat → Block) (h : NDIRECT ≤ fbn) (h0 : d.addrs NDIRECT = 0) :
    missing blk d fbn = 2 := by
  have hslot : Fs.slot blk d (Fs.dataSlot fbn) = 0 := by
    rw [show Fs.dataSlot fbn = fbn + 1 from if_neg (by omega), Fs.slot, if_neg (by omega), if_pos h0]
  unfold missing
  rw [if_pos hslot, if_pos ⟨h, h0⟩]

theorem missing_entry (blk : Nat → Block) (h : NDIRECT ≤ fbn) (h0 : d.addrs NDIRECT ≠ 0) :
    missing blk d fbn = if (blk (d.addrs NDIRECT)).word (fbn - NDIRECT) = 0 then 1 else 0 := by
  have hslot : Fs.slot blk d (Fs.dataSlot fbn) = ((blk (d.addrs NDIRECT)).word (fbn - NDIRECT)).toNat := by
    rw [show Fs.dataSlot fbn = fbn + 1 from if_neg (by omega), Fs.slot, if_neg (by omega), if_neg h0,
      show fbn + 1 - (NDIRECT + 1) = fbn - NDIRECT by omega]
  have hno : ¬(NDIRECT ≤ fbn ∧ d.addrs NDIRECT = 0) := fun e => h0 e.2
  unfold missing
  rw [hslot, if_neg hno, Nat.add_zero]
  by_cases e : (blk (d.addrs NDIRECT)).word (fbn - NDIRECT) = 0
  · rw [if_pos e, e]
    rfl
  · have hne : ((blk (d.addrs NDIRECT)).word (fbn - NDIRECT)).toNat ≠ 0 := fun e' => e (UInt32.toNat_inj.1 e')
    rw [if_neg e, if_neg hne]

/-- The sector of a block, found or allocated. -/
structure Sector (inum fbn x : Nat) (din din' : Dinode) (m m' : Mk) : Prop extends Frame din din' m m' where
  good : Good m'
  ne_zero : x ≠ 0
  indirect : din'.addrs NDIRECT ≠ 0 ↔ din.addrs NDIRECT ≠ 0 ∨ NDIRECT ≤ fbn
  kernel : Fs.bmap sb 0 fbn (asKernel m inum din) = .ok (x, asKernel m' inum din')

/-- A write to a data block below `freeblock`. -/
theorem Good.store (h : Good m) (h1 : sb.nmeta ≤ b) (h2 : b < m.freeblock) (x : Block) :
    Good { m with img := update m.img b x } ∧
    blocks { m with img := update m.img b x } = update (blocks m) b x := by
  refine ⟨⟨h.low, h.fits, fun c hc => ?_⟩, ?_⟩
  · show update m.img b x c = _
    have hc : m.freeblock ≤ c := hc
    rw [update_of_ne (by omega)]
    exact h.clear c hc
  · funext c
    by_cases e : c = b
    · rw [e, update_self, blocks_data h1]
      exact update_self ..
    · rw [update_of_ne e]
      unfold blocks
      split
      · rfl
      · split
        · rfl
        · exact update_of_ne e ..

theorem inodes_congr {img img' : Nat → Block} (h : ∀ b, b < sb.nmeta → img' b = img b) :
    inodes img' = inodes img := by
  funext i
  unfold inodes
  split
  · rename_i hi
    have hlt : iblock i < sb.nmeta := by
      have hi : i < 200 := hi
      show i / 16 + 32 < 46
      omega
    unfold dinodeAt
    rw [h _ hlt]
  · rfl

/-- A store to a data block, on both sides. -/
theorem asKernel_store (h : Good m) (h1 : sb.nmeta ≤ b) (h2 : b < m.freeblock) (x : Block) (inum : Nat)
    (din : Dinode) : { asKernel m inum din with blk := update (blocks m) b x } =
      asKernel { m with img := update m.img b x } inum din := by
  have hinodes : inodes (update m.img b x) = inodes m.img :=
    inodes_congr fun c hc => update_of_ne (by omega) ..
  unfold asKernel
  rw [(h.store h1 h2 x).2, hinodes]

theorem blockOf_spec (h : Good m) (inum : Nat) (din : Dinode) (hfbn : fbn < MAXFILE)
    (hind : din.addrs NDIRECT ≠ 0 → sb.nmeta ≤ din.addrs NDIRECT ∧ din.addrs NDIRECT < m.freeblock) :
    Wp (blockOf din fbn) m (fun r m' => m'.freeblock = m.freeblock + missing (blocks m) din fbn ∧
      (r.1 < m'.freeblock ∨ Fs.slot (blocks m) din (Fs.dataSlot fbn) = r.1) ∧
      (r.1 < FSSIZE → Sector inum fbn r.1 din r.2 m m')) fun _ => FSSIZE <
      m.freeblock + missing (blocks m) din fbn := by
  unfold blockOf
  rw [wp_ite]
  refine ⟨fun hdir => ?_, fun hdir => ?_⟩
  · refine ((addrOf_spec h inum din (Nat.le_of_lt hdir)).never).bind fun din' m' ha => ?_
    rw [wp_pure, missing_direct _ _ hdir]
    have hds : Fs.slot (blocks m) din (Fs.dataSlot fbn) = din.addrs fbn := by
      rw [show Fs.dataSlot fbn = fbn from if_pos hdir]
      exact Fs.slot_direct _ (Nat.le_of_lt hdir)
    refine ⟨ha.1, ?_, fun hlt => ?_⟩
    · rcases ha.2.1 with ⟨-, e⟩ | ⟨h0, e⟩
      · exact .inr (hds.trans e.symm)
      · rw [ha.1, if_pos h0]
        exact .inl (Nat.lt_succ_of_le (Nat.le_of_eq e))
    have ha := ha.2.2 hlt
    refine ⟨ha.toFrame, ha.good, ha.ne_zero, ?_, ?_⟩
    · rw [ha.rest NDIRECT (by omega)]
      exact ⟨.inl, fun e => e.resolve_right (by omega)⟩
    unfold Fs.bmap
    rw [if_pos hdir]
    exact ha.kernel
  · have hge : NDIRECT ≤ fbn := Nat.le_of_not_lt hdir
    refine ((addrOf_spec h inum din (Nat.le_refl NDIRECT)).never).bind fun din1 m1 ha => ?_
    have hlt1 : fbn - NDIRECT < NINDIRECT := by
      have : MAXFILE = NDIRECT + NINDIRECT := rfl
      omega
    obtain ⟨hfree, hcase, ha⟩ := ha
    simp only [rsect, wp_bind, wp_get]
    rw [wp_ite]
    refine ⟨fun hlt => ?_, fun hbig => ?_⟩
    · have ha := ha hlt
      have hplace : sb.nmeta ≤ din1.addrs NDIRECT ∧ din1.addrs NDIRECT < m1.freeblock := by
        rcases ha.place with e | e
        · obtain ⟨h1, h2⟩ := hind (by rw [← e]; exact ha.ne_zero)
          rw [e]
          exact ⟨h1, Nat.lt_of_lt_of_le h2 ha.mono⟩
        · exact e
      have hread : (asKernel m1 inum din1).blk (din1.addrs NDIRECT) = m1.img (din1.addrs NDIRECT) :=
        blocks_data hplace.1
      have hrest : ∀ r s,
          Fs.bmapEntry sb (din1.addrs NDIRECT) (fbn - NDIRECT) (asKernel m1 inum din1) = .ok (r, s) →
          Fs.bmap sb 0 fbn (asKernel m inum din) = .ok (r, s) := by
        intro r s hr
        unfold Fs.bmap
        rw [if_neg hdir, if_pos hlt1, bind_ok ha.kernel, if_neg ha.ne_zero]
        exact hr
      -- an indirect block that has just been allocated has no entries
      have hcount : missing (blocks m) din fbn = (if din.addrs NDIRECT = 0 then 1 else 0) +
          if (m1.img (din1.addrs NDIRECT)).word (fbn - NDIRECT) = 0 then 1 else 0 := by
        rcases hcase with ⟨h0, e⟩ | ⟨h0, e⟩
        · rw [missing_entry _ hge h0, if_neg h0, Nat.zero_add, ← e, blocks_data hplace.1, ha.same]
        · rw [missing_both _ hge h0, if_pos h0, e, ha.same, h.clear _ (Nat.le_refl _),
            Bytes.word_zero, if_pos rfl]
      have hthere : din1.addrs NDIRECT ≠ 0 ↔ din.addrs NDIRECT ≠ 0 ∨ NDIRECT ≤ fbn :=
        iff_of_true ha.ne_zero (.inr hge)
      rw [wp_pure, wp_ite]
      refine ⟨fun h0 => ?_, fun h0 => ?_⟩
      · -- a new entry of the indirect block
        simp only [newBlock, wsect, wp_bind, wp_get, wp_modify, wp_pure]
        rw [if_pos h0] at hcount
        refine ⟨by show m1.freeblock + 1 = _; omega, .inl (Nat.lt_succ_self _), fun hlt2 => ?_⟩
        have hnew : Good { m1 with freeblock := m1.freeblock + 1 } :=
          ⟨Nat.le_succ_of_le ha.good.low, hlt2, fun b hb => ha.good.clear b (Nat.le_of_succ_le hb)⟩
        have hin : din1.addrs NDIRECT < m1.freeblock + 1 := Nat.lt_succ_of_lt hplace.2
        refine ⟨ha.toFrame.trans ⟨rfl, fun b hb => update_of_ne (by omega) .., fun _ _ => rfl⟩,
          (hnew.store hplace.1 hin _).1, ?_, hthere, hrest _ _ (Wp.eq_ok ?_)⟩
        · show m1.freeblock ≠ 0
          omega
        · have hread' : blocks { m1 with freeblock := m1.freeblock + 1 } (din1.addrs NDIRECT) =
            m1.img (din1.addrs NDIRECT) := blocks_data hplace.1
          have hne : m1.freeblock ≠ 0 := by
            omega
          unfold Fs.bmapEntry
          rw [wp_bind, Fs.wp_bread, hread, if_neg (not_not.2 h0), wp_bind,
            wp_ok (balloc_newBlock ha.good hlt2 inum din1),
            if_neg hne, wp_bind, Fs.wp_bread, wp_bind, Fs.wp_bstore, wp_pure, asKernel_blk, hread',
            asKernel_store hnew hplace.1 hin]
          exact ⟨rfl, rfl⟩
      · rw [wp_pure]
        rw [if_neg h0] at hcount
        refine ⟨by omega, .inr ?_,
          fun _ => ⟨ha.toFrame, ha.good, fun e => h0 ?_, hthere, hrest _ _ (Wp.eq_ok ?_)⟩⟩
        · have hold : din.addrs NDIRECT ≠ 0 ∧ din1.addrs NDIRECT = din.addrs NDIRECT := by
            rcases hcase with e | ⟨-, e⟩
            · exact e
            · rw [e, ha.same, h.clear _ (Nat.le_refl _), Bytes.word_zero] at h0
              exact absurd rfl h0
          rw [show Fs.dataSlot fbn = fbn + 1 from if_neg hdir, Fs.slot, if_neg (by omega), if_neg hold.1,
            ← hold.2, blocks_data hplace.1, ha.same, show fbn + 1 - (NDIRECT + 1) = fbn - NDIRECT by omega]
        · exact UInt32.toNat_inj.1 e
        · unfold Fs.bmapEntry
          rw [wp_bind, Fs.wp_bread, hread, if_pos h0, wp_pure]
          exact ⟨rfl, rfl⟩
    · rw [wp_panic]
      rcases hcase with ⟨h0, e⟩ | ⟨h0, e⟩
      · omega
      · rw [missing_both _ hge h0]
        omega

/-! ## A whole append -/

/-- The number of blocks of a file of `n` bytes: its data, and the indirect block. -/
def nblocks (n : Nat) : Nat := (n + BSIZE - 1) / BSIZE + if NDIRECT * BSIZE < n then 1 else 0

theorem nblocks_mono {n' : Nat} (h : n ≤ n') : nblocks n ≤ nblocks n' := by
  unfold nblocks
  split_ifs <;> simp only [BSIZE, NDIRECT] at * <;> omega

/-- The blocks of `d` are those of its first `n` bytes. -/
structure Snug (blk : Nat → Block) (d : Dinode) (n : Nat) : Prop where
  mapped : ∀ bn, Fs.file blk d bn ≠ none ↔ bn * BSIZE < n
  indirect : d.addrs NDIRECT ≠ 0 ↔ NDIRECT * BSIZE < n

/-- What is missing for the next `n1` bytes, all in one block. -/
theorem Snug.missing {blk : Nat → Block} (h : Snug blk d off) (hpos : 0 < n1)
    (hn1 : off % BSIZE + n1 ≤ BSIZE) : nblocks off + missing blk d (off / BSIZE) = nblocks (off + n1) := by
  have hdata : Fs.slot blk d (Fs.dataSlot (off / BSIZE)) = 0 ↔ ¬off / BSIZE * BSIZE < off := by
    rw [← Fs.file_none, ← h.mapped, not_not]
  have hind : d.addrs NDIRECT = 0 ↔ ¬NDIRECT * BSIZE < off := by rw [← h.indirect, not_not]
  unfold Mkfs.missing nblocks
  split_ifs <;> simp only [BSIZE, NDIRECT] at * <;> omega

/-- An append, as `writei` does it. -/
structure Append (inum off tot : Nat) (src : Nat → UInt8) (p : List UInt8) (passes : Nat)
    (din : Dinode) (m : Mk) (r : Dinode × Nat) (m' : Mk) : Prop extends Frame din r.1 m m' where
  good : Good m'
  off_eq : r.2 = off + p.length
  fits : p ≠ [] → off + p.length ≤ MAXFILE * BSIZE
  taken : m'.freeblock + nblocks off = m.freeblock + nblocks (off + p.length)
  snug : Snug (blocks m') r.1 (off + p.length)
  kernel : Fs.writeLoop sb 0 src none passes off tot p.length (asKernel m inum din) =
    .ok ((tot + p.length, off + p.length), asKernel m' inum r.1)

theorem view_asKernel (m : Mk) (inum : Nat) (din : Dinode) :
    view (asKernel m inum din) 0 = update (inodes m.img) inum din := by
  unfold view
  rw [asKernel_inode]
  rfl

/-- The blocks of the inode in memory are data blocks that have been allocated. -/
theorem slot_place (h : Good m) (hrep : Rep sb True (blocks m) (view (asKernel m inum din) 0))
    (hi : Live sb (view (asKernel m inum din) 0) inum) (h0 : Fs.slot (blocks m) din t ≠ 0) :
    sb.nmeta ≤ Fs.slot (blocks m) din t ∧ Fs.slot (blocks m) din t < m.freeblock := by
  have hself : view (asKernel m inum din) 0 inum = din := by rw [view_asKernel, update_self]
  have hcell : Fs.cell sb (blocks m) (view (asKernel m inum din) 0) (inum, t) =
      some (Fs.slot (blocks m) din t) :=
    Fs.cell_some.2 ⟨hi, by rw [hself], h0⟩
  have hdata := hrep.ledger.in_pool _ _ hcell
  have hused := hrep.ledger.in_use _ _ hcell
  rw [used_blocks h hdata.2] at hused
  exact ⟨hdata.1, of_decide_eq_true hused⟩

/-- The image with `n1` bytes written to sector `x`. -/
def stored (m : Mk) (x o n1 : Nat) (src : Nat → UInt8) : Mk :=
  { m with img := update m.img x ((m.img x).splice o n1 src) }

/-- One pass, once the sector is known. -/
structure Pass (inum off tot n1 passes left : Nat) (src : Nat → UInt8) (din din' : Dinode) (m m' : Mk) : Prop
    extends Frame din din' m m' where
  good : Good m'
  rep : Rep sb True (blocks m') (view (asKernel m' inum din') 0)
  live : Live sb (view (asKernel m' inum din') 0) inum
  snug : Snug (blocks m) din off → Snug (blocks m') din' (off + n1)
  kernel : Fs.writeLoop sb 0 src none (passes + 1) off tot left (asKernel m inum din) =
    Fs.writeLoop sb 0 src none passes (off + n1) (tot + n1) (left - n1) (asKernel m' inum din')

theorem Sector.pass {left x : Nat} {din1 : Dinode} {m1 : Mk} (src : Nat → UInt8) (tot passes : Nat)
    (h : Sector inum (off / BSIZE) x din din1 m m1)
    (hrep : Rep sb True (blocks m) (view (asKernel m inum din) 0))
    (hi : Live sb (view (asKernel m inum din) 0) inum) (hbn : off / BSIZE < MAXFILE) (hleft : 0 < left)
    (hn1 : min left (BSIZE - off % BSIZE) = n1) :
    Pass inum off tot n1 passes left src din din1 m
      (stored m1 x (off % BSIZE) n1 fun i => src (tot + i)) := by
  have hmod : off % BSIZE < BSIZE := Nat.mod_lt _ (by decide)
  have hi0 : Live sb (view (asKernel m inum din) 0) ((asKernel m inum din).inode 0).inum := by
    rw [asKernel_inode]
    exact hi
  have hmap := (Fs.bmap_spec hrep hi0 hbn).of_ok h.kernel
  have hpass := hmap.pass tot hi0 h.ne_zero (show off % BSIZE + n1 ≤ BSIZE by omega) src
  have hi1 := hmap.toReaddress.live_self hi0
  have haddr := hmap.addr h.ne_zero
  rw [asKernel_inode, asKernel_blk] at haddr
  rw [asKernel_inode] at hi1
  have hplace := slot_place h.good hmap.rep hi1 (by rw [haddr]; exact h.ne_zero)
  rw [haddr] at hplace
  have hstore := h.good.store hplace.1 hplace.2 ((m1.img x).splice (off % BSIZE) n1 fun i => src (tot + i))
  have hkernel := asKernel_store h.good hplace.1 hplace.2
    ((m1.img x).splice (off % BSIZE) n1 fun i => src (tot + i)) inum din1
  rw [asKernel_blk, blocks_data hplace.1, hkernel] at hpass
  have hi2 := hpass.toReaddress.live_self hi0
  rw [asKernel_inode] at hi2
  have hunmapped := hpass.unmapped
  have hmapped := hpass.mapped
  rw [asKernel_inode, asKernel_inode] at hunmapped
  rw [asKernel_inode] at hmapped
  refine ⟨h.toFrame.trans ⟨rfl, fun b hb => update_of_ne (by omega) .., fun _ _ => rfl⟩,
    hstore.1, hpass.rep, hi2, fun hsnug => ⟨fun bn => ?_, ?_⟩, ?_⟩
  · by_cases e : bn = off / BSIZE
    · rw [e]
      refine iff_of_true (fun hnone => hmapped (Fs.file_none.1 hnone)) ?_
      have := Nat.div_mul_le_self off BSIZE
      omega
    · have hsame := (not_congr (hunmapped bn e)).trans (hsnug.mapped bn)
      refine hsame.trans ?_
      simp only [BSIZE] at *
      omega
  · rw [h.indirect, hsnug.indirect]
    simp only [BSIZE, NDIRECT] at *
    omega
  rw [Fs.writeLoop, if_neg (by omega), bind_ok h.kernel, if_neg h.ne_zero,
    bind_ok (b := blocks m1 x) rfl, hn1, blocks_data hplace.1]
  show Fs.writeLoop sb 0 src none passes (off + n1) (tot + n1) (left - n1) { asKernel m1 inum din1 with
    blk := update (blocks m1) x ((m1.img x).splice (off % BSIZE) n1 fun i => src (tot + i)) } = _
  rw [hkernel]
  rfl

theorem writeLoop_appendLoop (inum : Nat) (src : Nat → UInt8) (passes : Nat) :
    ∀ {m : Mk} {din : Dinode} {off tot : Nat} {p : List UInt8}, Good m →
    Rep sb True (blocks m) (view (asKernel m inum din) 0) → Live sb (view (asKernel m inum din) 0) inum →
    Snug (blocks m) din off → p.length ≤ passes → (∀ i, i < p.length → p.getD i 0 = src (tot + i)) →
    Wp (appendLoop passes din off p) m (fun r m' => Append inum off tot src p passes din m r m')
      fun _ => FSSIZE + nblocks off < m.freeblock + nblocks (off + p.length) ∨
      MAXFILE * BSIZE < off + p.length := by
  induction passes with
  | zero =>
    intro m din off tot p hgood hrep hi hsnug hp hsrc
    have h0 : p = [] := List.eq_nil_of_length_eq_zero (by omega)
    unfold appendLoop
    rw [wp_pure, h0]
    exact ⟨.refl din m, hgood, rfl, fun h => absurd rfl h, rfl, hsnug, rfl⟩
  | succ passes ih =>
    intro m din off tot p hgood hrep hi hsnug hp hsrc
    unfold appendLoop
    rw [wp_ite]
    refine ⟨fun h0 => ?_, fun h0 => ?_⟩
    · rw [wp_pure, h0]
      exact ⟨.refl din m, hgood, rfl, fun h => absurd rfl h, rfl, hsnug, rfl⟩
    have hpos : 0 < p.length := List.length_pos_iff.2 h0
    rw [wp_ite]
    refine ⟨fun hbig => ?_, fun hfbn => ?_⟩
    · rw [wp_panic]
      right
      have := Nat.mul_le_mul_right BSIZE hbig
      have := Nat.div_mul_le_self off BSIZE
      omega
    have hslot0 : Fs.slot (blocks m) din NDIRECT = din.addrs NDIRECT := Fs.slot_direct _ (Nat.le_refl _)
    have hind : din.addrs NDIRECT ≠ 0 → sb.nmeta ≤ din.addrs NDIRECT ∧ din.addrs NDIRECT < m.freeblock := by
      intro h1
      rw [← hslot0] at h1 ⊢
      exact slot_place hgood hrep hi h1
    have hmod : off % BSIZE < BSIZE := Nat.mod_lt _ (by decide)
    have hdiv : off / BSIZE * BSIZE + off % BSIZE = off := Nat.div_add_mod' off BSIZE
    have hn1 : (off / BSIZE + 1) * BSIZE - off = BSIZE - off % BSIZE := by
      rw [Nat.add_mul]
      omega
    have hoff : off - off / BSIZE * BSIZE = off % BSIZE := by omega
    rw [hn1, hoff]
    generalize hm : min p.length (BSIZE - off % BSIZE) = n1
    have hcost := hsnug.missing (show 0 < n1 by omega) (by omega)
    have hmono : nblocks (off + n1) ≤ nblocks (off + p.length) := nblocks_mono (by omega)
    refine ((blockOf_spec hgood inum din (by omega) hind).panics fun _ he => .inl (by omega)).bind
      fun r m1 hr => ?_
    obtain ⟨x, din1⟩ := r
    obtain ⟨hfree, hwhere, hsec⟩ := hr
    simp only [rsect, wsect, wp_bind, wp_get]
    rw [wp_ite]
    refine ⟨fun hx => ?_, fun hx => ?_⟩
    · have hbn : (off / BSIZE + 1) * BSIZE ≤ MAXFILE * BSIZE := Nat.mul_le_mul_right _ (by omega)
      rw [Nat.add_mul] at hbn
      rw [wp_pure, wp_modify]
      have hlen : (p.drop n1).length = p.length - n1 := List.length_drop ..
      have hend : off + n1 + (p.length - n1) = off + p.length := by omega
      have hpass := (hsec hx).pass src tot passes hrep hi (by omega) hpos hm
      have hstored : stored m1 x (off % BSIZE) n1 (fun i => p.getD i 0) = stored m1 x (off % BSIZE) n1
          fun i => src (tot + i) := by
        unfold stored
        rw [Bytes.splice_congr _ fun i hin => hsrc i (by omega)]
      show Wp (appendLoop passes din1 (off + n1) (p.drop n1))
        (stored m1 x (off % BSIZE) n1 fun i => p.getD i 0) _ _
      rw [hstored]
      have hfb : (stored m1 x (off % BSIZE) n1 fun i => src (tot + i)).freeblock = m1.freeblock := rfl
      generalize stored m1 x (off % BSIZE) n1 (fun i => src (tot + i)) = m2 at *
      have hrest : ∀ i, i < (p.drop n1).length → (p.drop n1).getD i 0 = src (tot + n1 + i) := by
        intro i hlt
        rw [Nat.add_assoc, ← hsrc (n1 + i) (by omega), List.getD_eq_getElem?_getD, List.getD_eq_getElem?_getD,
          List.getElem?_drop]
      refine (ih hpass.good hpass.rep hpass.live (hpass.snug hsnug) (by omega) hrest).mono
        (fun r m' ha => ?_) fun e he => ?_
      · have hoff' := ha.off_eq
        have hblocks := ha.taken
        have hsnug' := ha.snug
        have hkernel := ha.kernel
        rw [hlen, hend] at hoff' hblocks hsnug' hkernel
        refine ⟨hpass.toFrame.trans ha.toFrame, ha.good, hoff', fun _ => ?_, by omega, hsnug', ?_⟩
        · by_cases hnil : p.drop n1 = []
          · rw [hnil, List.length_nil] at hlen
            omega
          · have := ha.fits hnil
            omega
        · rw [hpass.kernel, hkernel, show tot + n1 + (p.length - n1) = tot + p.length by omega]
      · rw [hlen, hend] at he
        omega
    · rw [wp_panic]
      left
      rcases hwhere with hnew | hold
      · omega
      · -- a block that was there before
        have hFS : FSSIZE = 2000 := rfl
        have := slot_place hgood hrep hi (t := Fs.dataSlot (off / BSIZE)) (by omega)
        omega

end Xv6.Mkfs
