import Xv6.Fs.Dir

/-!
# Making a file system (`mkfs/mkfs.c`)

`mkfs` writes an image of `FSSIZE` sectors; reading past its end is an error
(`die`). The in-memory `struct dinode` is that of `Xv6.Fs`, because `mkfs`
and the kernel share `kernel/fs.h`; on the image it is 64 bytes of an inode
block. The host is little-endian, so `xshort` and `xint` do nothing, and a
file is read in pieces of `BSIZE` bytes. Files are given with their names as
on the command line.
-/
namespace Xv6.Mkfs
open Function (update)
open Fs (Dinode Ty Dirent NDIRECT NINDIRECT MAXFILE IPB DIRSIZ DESIZE ROOTINO)

def FSSIZE : Nat := 2000
def NINODES : Nat := 200
def FSMAGIC : Nat := 0x10203040

/-- The layout, as `main` computes it.
mirrors mkfs/mkfs.c:23-27, 93-103 -/
def sb : Fs.Superblock :=
  { size := FSSIZE, ninodes := NINODES, nlog := LOGSIZE, fits := by decide, size_lt := by decide,
    ninodes_gt := by decide, ninodes_le := by decide }

def inodestart : Nat := 2 + LOGSIZE

/-! ## `struct dinode` on disk -/

/-- mirrors kernel/stat.h:1-3 -/
def tyCode : Ty → Nat
  | .free => 0
  | .dir => 1
  | .file => 2
  | .device => 3

/-- The type for a `short`; there are no others. -/
def tyOf (n : Nat) : Ty := if n = 0 then .free else if n = 1 then .dir else if n = 2 then .file else .device

/-- A `short`. -/
def short (n : Nat) : Int := if n < 2 ^ 15 then n else n - 2 ^ 16

/-- `sizeof(struct dinode)` -/
def DISIZE : Nat := 64

/-- Byte `i` of a `struct dinode`.
mirrors kernel/fs.h:32-39 -/
def encode (d : Dinode) (i : Nat) : UInt8 :=
  if i < 2 then Bytes.leByte (tyCode d.type) i
  else if i < 4 then Bytes.leByte d.major.toBitVec.toNat (i - 2)
  else if i < 6 then Bytes.leByte d.minor.toBitVec.toNat (i - 4)
  else if i < 8 then Bytes.leByte (d.nlink % 2 ^ 16).toNat (i - 6)
  else if i < 12 then Bytes.leByte d.size (i - 8)
  else Bytes.leByte (d.addrs ((i - 12) / 4)) ((i - 12) % 4)

/-- The `struct dinode` at `off`. -/
def decode (b : Block) (off : Nat) : Dinode where
  type := tyOf (b.getLE off 2)
  major := Int16.ofBitVec (BitVec.ofNat 16 (b.getLE (off + 2) 2))
  minor := Int16.ofBitVec (BitVec.ofNat 16 (b.getLE (off + 4) 2))
  nlink := short (b.getLE (off + 6) 2)
  size := b.getLE (off + 8) 4
  addrs t := if t ≤ NDIRECT then b.getLE (off + 12 + 4 * t) 4 else 0

/-- `IBLOCK(i, sb)` -/
def iblock (inum : Nat) : Nat := inum / IPB + inodestart

/-- Inode `inum` of an image. -/
def dinodeAt (img : Nat → Block) (inum : Nat) : Dinode := decode (img (iblock inum)) (DISIZE * (inum % IPB))

/-! ## State -/

structure Mk where
  img : Nat → Block
  freeinode : Nat
  freeblock : Nat

/-- Failed assertions, and `die`. -/
inductive Fail where
  | rootino
  | slash
  | fbn
  | used
  | dieRead
  deriving DecidableEq, Repr

abbrev M := Prog Fail Mk

/-- mirrors mkfs/mkfs.c:175-182 -/
def wsect (sec : Nat) (buf : Block) : M Unit := Prog.modify fun m => { m with img := update m.img sec buf }

/-- mirrors mkfs/mkfs.c:211-218 -/
def rsect (sec : Nat) : M Block := do
  let m ← Prog.get
  if sec < FSSIZE then pure (m.img sec) else Prog.panic .dieRead

/-- mirrors mkfs/mkfs.c:184-196 -/
def winode (inum : Nat) (d : Dinode) : M Unit := do
  let buf ← rsect (iblock inum)
  wsect (iblock inum) (buf.splice (DISIZE * (inum % IPB)) DISIZE (encode d))

/-- mirrors mkfs/mkfs.c:198-209 -/
def rinode (inum : Nat) : M Dinode := do
  let buf ← rsect (iblock inum)
  pure (decode buf (DISIZE * (inum % IPB)))

/-- mirrors mkfs/mkfs.c:220-232 -/
def ialloc (type : Ty) : M Nat := do
  let m ← Prog.get
  Prog.modify fun m => { m with freeinode := m.freeinode + 1 }
  winode m.freeinode { type := type, major := 0, minor := 0, nlink := 1, size := 0, addrs := fun _ => 0 }
  pure m.freeinode

/-- The bitmap block with the first `used` bits set.
mirrors mkfs/mkfs.c:242-245 -/
def firstBits (used : Nat) : Block := (List.range used).foldl Bytes.setBit Bytes.zero

/-- mirrors mkfs/mkfs.c:234-248 -/
def balloc (used : Nat) : M Unit :=
  if used < BSIZE * 8 then wsect sb.bmapstart (firstBits used) else Prog.panic .used

/-! ## Appending -/

/-- `freeblock++` -/
def newBlock : M Nat := do
  let m ← Prog.get
  Prog.modify fun m => { m with freeblock := m.freeblock + 1 }
  pure m.freeblock

/-- `din.addrs[t]`, which gets the next block if it is 0.
mirrors mkfs/mkfs.c:269-271, 274-276 -/
def addrOf (din : Dinode) (t : Nat) : M Dinode :=
  if din.addrs t = 0 then do
    let b ← newBlock
    pure { din with addrs := update din.addrs t b }
  else pure din

/-- The sector `x` of block `fbn`.
mirrors mkfs/mkfs.c:268-283 -/
def blockOf (din : Dinode) (fbn : Nat) : M (Nat × Dinode) :=
  if fbn < NDIRECT then do
    let din ← addrOf din fbn
    pure (din.addrs fbn, din)
  else do
    let din ← addrOf din NDIRECT
    let indirect ← rsect (din.addrs NDIRECT)
    if indirect.word (fbn - NDIRECT) = 0 then do
      let b ← newBlock
      wsect (din.addrs NDIRECT) (indirect.setWord (fbn - NDIRECT) (UInt32.ofNat b))
      pure (b, din)
    else pure ((indirect.word (fbn - NDIRECT)).toNat, din)

/-- mirrors mkfs/mkfs.c:265-291 -/
def appendLoop : Nat → Dinode → Nat → List UInt8 → M (Dinode × Nat)
  | 0, din, off, _ => pure (din, off)
  | passes + 1, din, off, p =>
    if p = [] then pure (din, off)
    else if MAXFILE ≤ off / BSIZE then Prog.panic .fbn
    else do
      let (x, din) ← blockOf din (off / BSIZE)
      let n1 := min p.length ((off / BSIZE + 1) * BSIZE - off)
      let buf ← rsect x
      wsect x (buf.splice (off - off / BSIZE * BSIZE) n1 fun i => p.getD i 0)
      appendLoop passes din (off + n1) (p.drop n1)

/-- mirrors mkfs/mkfs.c:252-294 -/
def iappend (inum : Nat) (p : List UInt8) : M Unit := do
  let din ← rinode inum
  let (din, off) ← appendLoop p.length din din.size p
  winode inum { din with size := off }

def direntBytes (de : Dirent) : List UInt8 := (List.range DESIZE).map de.encode

/-! ## main -/

/-- A name without the leading "user/" and "_".
mirrors mkfs/mkfs.c:131-148 -/
def withoutUser (arg : List UInt8) : List UInt8 :=
  if Fs.strncmp 5 arg [117, 115, 101, 114, 47] = 0 then arg.drop 5 else arg

def withoutBar (name : List UInt8) : List UInt8 := if name.headD 0 = 95 then name.drop 1 else name

/-- `while((cc = read(fd, buf, sizeof(buf))) > 0) iappend(inum, buf, cc);`
mirrors mkfs/mkfs.c:157-158 -/
def appendFile (inum : Nat) : Nat → List UInt8 → M Unit
  | 0, _ => pure ()
  | passes + 1, data =>
    if data = [] then pure ()
    else do
      iappend inum (data.take BSIZE)
      appendFile inum passes (data.drop BSIZE)

/-- One file: its name on the command line, and its contents.
mirrors mkfs/mkfs.c:130-161 -/
def addFile (file : List UInt8 × List UInt8) : M Unit := do
  let shortname := withoutUser file.1
  if Fs.SLASH ∈ shortname then Prog.panic .slash
  else do
    let inum ← ialloc .file
    iappend ROOTINO (direntBytes ⟨inum, Fs.strncpy DIRSIZ (withoutBar shortname)⟩)
    appendFile inum file.2.length file.2

def addFiles : List (List UInt8 × List UInt8) → M Unit
  | [] => pure ()
  | file :: files => do
    addFile file
    addFiles files

/-- `struct superblock`, in a block of its own.
mirrors kernel/fs.h:14-23, mkfs/mkfs.c:96-103, 113-115 -/
def superblock : Block :=
  (((((((Bytes.zero : Block).setWord 0 (UInt32.ofNat FSMAGIC)).setWord 1 (UInt32.ofNat sb.size)).setWord 2
    (UInt32.ofNat (sb.size - sb.nmeta))).setWord 3 (UInt32.ofNat sb.ninodes)).setWord 4
    (UInt32.ofNat sb.nlog)).setWord 5
    2).setWord 6 (UInt32.ofNat inodestart) |>.setWord 7 (UInt32.ofNat sb.bmapstart)

/-- The image before the first inode: zeros and the super block. -/
def start : Mk where
  img := update (fun _ => Bytes.zero) 1 superblock
  freeinode := 1
  freeblock := sb.nmeta

/-- The root directory, with "." and "..".
mirrors mkfs/mkfs.c:117-128 -/
def makeRoot : M Unit := do
  let rootino ← ialloc .dir
  if rootino ≠ ROOTINO then Prog.panic .rootino
  else do
    iappend rootino (direntBytes ⟨rootino, Fs.strncpy DIRSIZ [46]⟩)
    iappend rootino (direntBytes ⟨rootino, Fs.strncpy DIRSIZ [46, 46]⟩)

/-- The size of the root directory is rounded up.
mirrors mkfs/mkfs.c:163-168 -/
def fixRoot : M Unit := do
  let din ← rinode ROOTINO
  winode ROOTINO { din with size := (din.size / BSIZE + 1) * BSIZE }

/-- mirrors mkfs/mkfs.c:108-173 -/
def main (files : List (List UInt8 × List UInt8)) : M Unit := do
  makeRoot
  addFiles files
  fixRoot
  let m ← Prog.get
  balloc m.freeblock

/-- The state of `mkfs` when it has finished. -/
def mkfs (files : List (List UInt8 × List UInt8)) : Except Fail Mk := (main files start).map Prod.snd

end Xv6.Mkfs
