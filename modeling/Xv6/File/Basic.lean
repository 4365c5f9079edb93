import Xv6.Fs.Basic
import Xv6.Pipe.Basic

/-!
# Open files (`kernel/file.h`, `kernel/file.c`)
-/
namespace Xv6

/-- mirrors kernel/param.h:3-6 -/
def NOFILE : Nat := 16
def NFILE : Nat := 100
def NDEV : Nat := 10

/-- mirrors kernel/file.h:40 -/
def CONSOLE : Nat := 1

namespace File

/-- `FD_NONE`, `FD_PIPE`, `FD_INODE`, `FD_DEVICE` -/
inductive Kind where
  | none | pipe | inode | device
  deriving DecidableEq, Repr

end File

/-- `struct file`; the pipe is the address of its page.
mirrors kernel/file.h:1-10 -/
structure File where
  type : File.Kind
  ref : Int
  readable : Bool
  writable : Bool
  pipe : Nat
  ip : Fin Fs.NINODE
  off : UInt32
  major : Int16

end Xv6
