import Xv6.Fs.Dir

/-!
# The system calls on names (`kernel/sysfile.c`)

The parts of `sysfile.c` that read and write directories. A call runs for a
process whose current directory is `cwd`.
-/
namespace Xv6.Fs

/-- mirrors kernel/sysfile.c:179-185 -/
def isdiremptyLoop (sb : Superblock) (dp : Fin NINODE) : Nat → Nat → M Bool
  | 0, _ => pure true
  | passes + 1, off => do
    let i ← getInode dp
    if off < i.d.size then do
      let r ← readi sb dp none (UInt32.ofNat off) (UInt32.ofNat DESIZE)
      if r.1 ≠ DESIZE then Prog.panic .isdiremptyReadi
      else if (Dirent.decode r.2).inum ≠ 0 then pure false
      else isdiremptyLoop sb dp passes (off + DESIZE)
    else pure true

/-- Is the directory empty except for "." and ".."?
mirrors kernel/sysfile.c:172-186 -/
def isdirempty (sb : Superblock) (dp : Fin NINODE) : M Bool := do
  let i ← getInode dp
  isdiremptyLoop sb dp (i.d.size / DESIZE + 1) (2 * DESIZE)

/-- The entry at `off` is cleared.
mirrors kernel/sysfile.c:222-224 -/
def clearEntry (sb : Superblock) (dp : Fin NINODE) (off : Nat) : M Unit := do
  let r ← writei sb dp (fun _ => 0) none (UInt32.ofNat off) (UInt32.ofNat DESIZE)
  if r ≠ DESIZE then Prog.panic .unlinkWritei else pure ()

end Xv6.Fs
