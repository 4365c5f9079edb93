import Mathlib.Logic.Function.Basic
import Xv6.Core.Prog
import Xv6.Param

/-!
# Blocks, inodes and their contents (`kernel/fs.c`)

The state is what the file system reads and writes: the blocks as `bread`
returns them, the inodes on disk and the inode table. A change to a buffer is
seen by every later `bread` (`Xv6.Bio.Blocks`); that `log_write` makes it
reach the disk is the subject of `Xv6.Log`. The inode blocks are kept decoded,
as the array of `struct dinode` that every access to them goes through, and
`nlink` is read as an unbounded integer; the free bitmap and the indirect
blocks are the raw bytes. There is one device, so `dev` is left out.

Functions that copy from or to user memory take the number of bytes that can
be copied before an access faults (`none` if the whole range is mapped).

A process holds `ip->lock` or not; `acquiresleep` on a lock that is held
never returns while calls run one at a time, which is `Panic.deadlock`.
-/
namespace Xv6.Fs
open Function (update)

/-! ## Constants (kernel/fs.h, kernel/param.h) -/

def NDIRECT : Nat := 12
def NINDIRECT : Nat := BSIZE / 4
def MAXFILE : Nat := NDIRECT + NINDIRECT

/-- Inodes per block. -/
def IPB : Nat := BSIZE / 64

/-- Bitmap bits per block. -/
def BPB : Nat := BSIZE * 8

def NINODE : Nat := 50

instance : NeZero NINODE := ⟨by decide⟩

theorem NINODE_pos : 0 < NINODE := by decide

def ROOTINO : Nat := 1

/-- What the kernel uses of `struct superblock`, for a disk laid out by
`mkfs`: boot block, super block, log, inodes, bitmap, data.
mirrors kernel/fs.h:14-23, mkfs/mkfs.c:23-24, 93-103 -/
structure Superblock where
  size : Nat
  ninodes : Nat
  nlog : Nat
  fits : 2 + nlog + (ninodes / IPB + 1) + (size / BPB + 1) ≤ size
  size_lt : size < 2 ^ 31
  ninodes_gt : ROOTINO < ninodes
  ninodes_le : ninodes ≤ 2 ^ 16

namespace Superblock

def bmapstart (sb : Superblock) : Nat := 2 + sb.nlog + (sb.ninodes / IPB + 1)
def nbitmap (sb : Superblock) : Nat := sb.size / BPB + 1

/-- The blocks before this one hold no file data. -/
def nmeta (sb : Superblock) : Nat := sb.bmapstart + sb.nbitmap

/-- `BBLOCK(b, sb)` -/
def bblock (sb : Superblock) (b : Nat) : Nat := b / BPB + sb.bmapstart

end Superblock

/-! ## State -/

/-- `T_DIR`, `T_FILE` and `T_DEVICE` of kernel/stat.h; 0 marks a free inode. -/
inductive Ty where
  | free | dir | file | device
  deriving DecidableEq, Repr

/-- `struct dinode`; `addrs` has `NDIRECT + 1` entries.
mirrors kernel/fs.h:32-39 -/
structure Dinode where
  type : Ty
  major : Int16
  minor : Int16
  nlink : Int
  size : Nat
  addrs : Nat → Nat

/-- `struct inode`, with the copy of the disk inode as one field.
mirrors kernel/file.h:17-30 -/
structure Inode where
  inum : Nat
  ref : Int
  locked : Bool
  valid : Bool
  d : Dinode

structure St where
  blk : Nat → Block
  dinode : Nat → Dinode
  /-- `itable.inode` -/
  inode : Fin NINODE → Inode
  /-- ghost: how often each inode has been freed -/
  gen : Nat → Nat

inductive Panic where
  | freeingFreeBlock
  | igetNoInodes
  | ilock
  | ilockNoType
  | iunlock
  | bmapOutOfRange
  | dirlookupNotDir
  | dirlookupRead
  | dirlinkRead
  | isdiremptyReadi
  | unlinkNlink
  | unlinkWritei
  | fileclose
  | filedup
  | initExiting
  | deadlock
  deriving DecidableEq, Repr

abbrev M := Prog Panic St

def bread (b : Nat) : M Block := fun s => .ok (s.blk b, s)

/-- A new content of the buffer of `b`. -/
def bstore (b : Nat) (x : Block) : M Unit := Prog.modify fun s => { s with blk := update s.blk b x }

/-- `*ip` -/
def getInode (ip : Fin NINODE) : M Inode := fun s => .ok (s.inode ip, s)

def setInode (ip : Fin NINODE) (f : Inode → Inode) : M Unit :=
  Prog.modify fun s => { s with inode := update s.inode ip (f (s.inode ip)) }

section Rules
variable {s : St} {R : Panic → Prop}

@[simp] theorem wp_bread (b : Nat) {Q : Block → St → Prop} : Wp (bread b) s Q R ↔ Q (s.blk b) s := wp_ok rfl

@[simp] theorem wp_bstore (b : Nat) (x : Block) {Q : Unit → St → Prop} :
    Wp (bstore b x) s Q R ↔ Q () { s with blk := update s.blk b x } := wp_ok rfl

@[simp] theorem wp_getInode (ip : Fin NINODE) {Q : Inode → St → Prop} :
    Wp (getInode ip) s Q R ↔ Q (s.inode ip) s := wp_ok rfl

@[simp] theorem wp_setInode (ip : Fin NINODE) (f : Inode → Inode) {Q : Unit → St → Prop} :
    Wp (setInode ip f) s Q R ↔ Q () { s with inode := update s.inode ip (f (s.inode ip)) } := wp_ok rfl

end Rules

/-! ## Blocks -/

/-- mirrors kernel/fs.c:50-59 -/
def bzero (b : Nat) : M Unit := bstore b Bytes.zero

/-- The inner loop of `balloc`: the first free block at `b + bi` or after it
in this bitmap block.
mirrors kernel/fs.c:74-76 -/
def freeBit (sb : Superblock) (data : Block) (b : Nat) : Nat → Nat → Option Nat
  | 0, _ => none
  | passes + 1, bi =>
    if b + bi < sb.size then
      if data.bit bi then freeBit sb data b passes (bi + 1) else some bi
    else none

/-- mirrors kernel/fs.c:72-87 -/
def ballocFrom (sb : Superblock) : Nat → Nat → M Nat
  | 0, _ => pure 0
  | passes + 1, b =>
    if b < sb.size then do
      let data ← bread (sb.bblock b)
      match freeBit sb data b BPB 0 with
      | some bi => do
        bstore (sb.bblock b) (data.setBit bi)
        bzero (b + bi)
        pure (b + bi)
      | none => ballocFrom sb passes (b + BPB)
    else pure 0

/-- Allocate a zeroed disk block; 0 if out of disk space.
mirrors kernel/fs.c:65-88 -/
def balloc (sb : Superblock) : M Nat := ballocFrom sb sb.nbitmap 0

/-- mirrors kernel/fs.c:91-105 -/
def bfree (sb : Superblock) (b : Nat) : M Unit := do
  let data ← bread (sb.bblock b)
  if data.bit (b % BPB) then bstore (sb.bblock b) (data.clearBit (b % BPB))
  else Prog.panic .freeingFreeBlock

/-! ## Inodes -/

/-- mirrors kernel/fs.c:225-241 -/
def iupdate (ip : Fin NINODE) : M Unit :=
  Prog.modify fun s => { s with dinode := update s.dinode (s.inode ip).inum (s.inode ip).d }

/-- The table entry that `iget` finds for `inum`: the one that holds it, or
else the first free one.
mirrors kernel/fs.c:253-263 -/
def findInode (s : St) (inum : Nat) : Option (Fin NINODE) :=
  (List.finRange NINODE).find? fun k => decide (0 < (s.inode k).ref ∧ (s.inode k).inum = inum)

def findEmpty (s : St) : Option (Fin NINODE) :=
  (List.finRange NINODE).find? fun k => decide ((s.inode k).ref = 0)

/-- mirrors kernel/fs.c:246-277 -/
def iget (inum : Nat) : M (Fin NINODE) := do
  let s ← Prog.get
  match findInode s inum, findEmpty s with
  | some ip, _ => do
    setInode ip fun i => { i with ref := i.ref + 1 }
    pure ip
  | none, some ip => do
    setInode ip fun i => { i with inum := inum, ref := 1, valid := false }
    pure ip
  | none, none => Prog.panic .igetNoInodes

/-- The first free inode from `inum` on.
mirrors kernel/fs.c:205-208 -/
def findFree (s : St) : Nat → Nat → Option Nat
  | 0, _ => none
  | passes + 1, inum => if (s.dinode inum).type = .free then some inum else findFree s passes (inum + 1)

/-- mirrors kernel/fs.c:198-219 -/
def ialloc (sb : Superblock) (type : Ty) : M (Option (Fin NINODE)) := do
  let s ← Prog.get
  match findFree s (sb.ninodes - 1) 1 with
  | some inum => do
    Prog.modify fun s => { s with
      dinode := update s.dinode inum
        { type := type, major := 0, minor := 0, nlink := 0, size := 0, addrs := fun _ => 0 } }
    let ip ← iget inum
    pure (some ip)
  | none => pure none

/-- mirrors kernel/fs.c:281-288 -/
def idup (ip : Fin NINODE) : M (Fin NINODE) := do
  setInode ip fun i => { i with ref := i.ref + 1 }
  pure ip

/-- mirrors kernel/fs.c:292-317 -/
def ilock (ip : Fin NINODE) : M Unit := do
  let i ← getInode ip
  if i.ref < 1 then Prog.panic .ilock
  else if i.locked then Prog.panic .deadlock
  else if i.valid then setInode ip fun i => { i with locked := true }
  else do
    let s ← Prog.get
    setInode ip fun i => { i with locked := true, valid := true, d := s.dinode i.inum }
    if (s.dinode i.inum).type = .free then Prog.panic .ilockNoType else pure ()

/-- mirrors kernel/fs.c:320-327 -/
def iunlock (ip : Fin NINODE) : M Unit := do
  let i ← getInode ip
  if i.locked = false ∨ i.ref < 1 then Prog.panic .iunlock
  else setInode ip fun i => { i with locked := false }

/-! ## Inode contents -/

/-- `ip->addrs[k] = addr` -/
def setAddr (ip : Fin NINODE) (k addr : Nat) : M Unit :=
  setInode ip fun i => { i with d := { i.d with addrs := update i.d.addrs k addr } }

/-- `ip->addrs[k]`, allocating a block if there is none.
mirrors kernel/fs.c:389-395, 401-406 -/
def addrOrAlloc (sb : Superblock) (ip : Fin NINODE) (k : Nat) : M Nat := do
  let i ← getInode ip
  if i.d.addrs k ≠ 0 then pure (i.d.addrs k)
  else do
    let addr ← balloc sb
    if addr = 0 then pure 0
    else do
      setAddr ip k addr
      pure addr

/-- Entry `j` of the indirect block `ind`, allocating a block if there is none.
mirrors kernel/fs.c:407-417 -/
def bmapEntry (sb : Superblock) (ind j : Nat) : M Nat := do
  let a ← bread ind
  if a.word j ≠ 0 then pure (a.word j).toNat
  else do
    let addr ← balloc sb
    if addr = 0 then pure 0
    else do
      let a ← bread ind
      bstore ind (a.setWord j (UInt32.ofNat addr))
      pure addr

/-- The disk block of the `bn`th block of `ip`, allocated if there is none; 0
if out of disk space.
mirrors kernel/fs.c:382-421 -/
def bmap (sb : Superblock) (ip : Fin NINODE) (bn : Nat) : M Nat :=
  if bn < NDIRECT then addrOrAlloc sb ip bn
  else if bn - NDIRECT < NINDIRECT then do
    let ind ← addrOrAlloc sb ip NDIRECT
    if ind = 0 then pure 0 else bmapEntry sb ind (bn - NDIRECT)
  else Prog.panic .bmapOutOfRange

/-- One pass of the first loop of `itrunc`.
mirrors kernel/fs.c:433-436 -/
def freeAddr (sb : Superblock) (ip : Fin NINODE) (k : Nat) : M Unit := do
  let i ← getInode ip
  if i.d.addrs k ≠ 0 then do
    bfree sb (i.d.addrs k)
    setAddr ip k 0
  else pure ()

def truncDirect (sb : Superblock) (ip : Fin NINODE) : Nat → Nat → M Unit
  | 0, _ => pure ()
  | passes + 1, k => do
    freeAddr sb ip k
    truncDirect sb ip passes (k + 1)

/-- One pass of the second loop of `itrunc`.
mirrors kernel/fs.c:443-444 -/
def freeEntry (sb : Superblock) (ind j : Nat) : M Unit := do
  let a ← bread ind
  if a.word j ≠ 0 then bfree sb (a.word j).toNat else pure ()

def truncEntries (sb : Superblock) (ind : Nat) : Nat → Nat → M Unit
  | 0, _ => pure ()
  | passes + 1, j => do
    freeEntry sb ind j
    truncEntries sb ind passes (j + 1)

/-- mirrors kernel/fs.c:439-448 -/
def truncIndirect (sb : Superblock) (ip : Fin NINODE) : M Unit := do
  let i ← getInode ip
  if i.d.addrs NDIRECT ≠ 0 then do
    truncEntries sb (i.d.addrs NDIRECT) NINDIRECT 0
    bfree sb (i.d.addrs NDIRECT)
    setAddr ip NDIRECT 0
  else pure ()

/-- Discard the contents.
mirrors kernel/fs.c:425-453 -/
def itrunc (sb : Superblock) (ip : Fin NINODE) : M Unit := do
  truncDirect sb ip NDIRECT 0
  truncIndirect sb ip
  setInode ip fun i => { i with d := { i.d with size := 0 } }
  iupdate ip

/-- Drop a reference; the last one to an inode without links frees it.
mirrors kernel/fs.c:336-362 -/
def iput (sb : Superblock) (ip : Fin NINODE) : M Unit := do
  let i ← getInode ip
  if i.ref = 1 ∧ i.valid ∧ i.d.nlink = 0 then
    if i.locked then Prog.panic .deadlock
    else do
      itrunc sb ip
      setInode ip fun i => { i with d := { i.d with type := .free } }
      iupdate ip
      Prog.modify fun s => { s with gen := update s.gen i.inum (s.gen i.inum + 1) }
      setInode ip fun i => { i with valid := false, ref := i.ref - 1 }
  else setInode ip fun i => { i with ref := i.ref - 1 }

/-- mirrors kernel/fs.c:365-370 -/
def iunlockput (sb : Superblock) (ip : Fin NINODE) : M Unit := do
  iunlock ip
  iput sb ip

/-- Can `n` bytes be copied? -/
def fits (room : Option Nat) (n : Nat) : Bool := room.all (n ≤ ·)

/-- The loop of `readi`: `left` bytes to go, the bytes in `out` already copied.
mirrors kernel/fs.c:482-494 -/
def readLoop (sb : Superblock) (ip : Fin NINODE) (room : Option Nat) :
    Nat → Nat → Nat → List UInt8 → M (Int × List UInt8)
  | 0, _, _, out => pure (out.length, out)
  | passes + 1, off, left, out =>
    if left = 0 then pure (out.length, out)
    else do
      let addr ← bmap sb ip (off / BSIZE)
      if addr = 0 then pure (out.length, out)
      else do
        let data ← bread addr
        let m := min left (BSIZE - off % BSIZE)
        let bytes := (List.range m).map fun i => data.get (off % BSIZE + i)
        if fits room (out.length + m) then readLoop sb ip room passes (off + m) (left - m) (out ++ bytes)
        else pure (-1, out ++ bytes.take (room.getD 0 - out.length))

/-- The return value of `readi`, and the bytes stored at `dst`.
mirrors kernel/fs.c:471-496 -/
def readi (sb : Superblock) (ip : Fin NINODE) (room : Option Nat) (off n : UInt32) :
    M (Int × List UInt8) := do
  let i ← getInode ip
  if i.d.size < off.toNat ∨ off + n < off then pure (0, [])
  else
    let n := if i.d.size < off.toNat + n.toNat then i.d.size - off.toNat else n.toNat
    readLoop sb ip room n off.toNat n []

/-- The loop of `writei`; the results are `tot` and `off`. A copy that faults
leaves its first bytes in the buffer.
mirrors kernel/fs.c:516-527 -/
def writeLoop (sb : Superblock) (ip : Fin NINODE) (src : Nat → UInt8) (room : Option Nat) :
    Nat → Nat → Nat → Nat → M (Nat × Nat)
  | 0, off, tot, _ => pure (tot, off)
  | passes + 1, off, tot, left =>
    if left = 0 then pure (tot, off)
    else do
      let addr ← bmap sb ip (off / BSIZE)
      if addr = 0 then pure (tot, off)
      else do
        let data ← bread addr
        let m := min left (BSIZE - off % BSIZE)
        if fits room (tot + m) then do
          bstore addr (data.splice (off % BSIZE) m fun i => src (tot + i))
          writeLoop sb ip src room passes (off + m) (tot + m) (left - m)
        else do
          bstore addr (data.splice (off % BSIZE) (room.getD 0 - tot) fun i => src (tot + i))
          pure (tot, off)

/-- mirrors kernel/fs.c:505-539 -/
def writei (sb : Superblock) (ip : Fin NINODE) (src : Nat → UInt8) (room : Option Nat)
    (off n : UInt32) : M Int := do
  let i ← getInode ip
  if i.d.size < off.toNat ∨ off + n < off then pure (-1)
  else if MAXFILE * BSIZE < off.toNat + n.toNat then pure (-1)
  else do
    let r ← writeLoop sb ip src room n.toNat off.toNat 0 n.toNat
    setInode ip fun i => { i with d := { i.d with size := max i.d.size r.2 } }
    iupdate ip
    pure r.1

end Xv6.Fs
