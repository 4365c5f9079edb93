import Xv6.Core.Bytes

/-!
# Constants shared by the kernel and `mkfs`

mirrors kernel/param.h, kernel/fs.h, kernel/stat.h and kernel/riscv.h.
-/
namespace Xv6

/-- mirrors kernel/param.h:1 and kernel/param.h:7 -/
def NPROC : Nat := 64

theorem NPROC_pos : 0 < NPROC := by decide
def ROOTDEV : UInt32 := 1

/-- mirrors kernel/param.h:8 -/
def MAXARG : Nat := 32

/-- mirrors kernel/param.h:13 -/
def MAXPATH : Nat := 128

/-- mirrors kernel/param.h:9-11 -/
def MAXOPBLOCKS : Nat := 10
def LOGSIZE : Nat := MAXOPBLOCKS * 3

/-- mirrors kernel/fs.h:6 -/
def BSIZE : Nat := 1024

/-- The `data` of a `struct buf`, and one sector of the disk. -/
abbrev Block := Bytes BSIZE

end Xv6
