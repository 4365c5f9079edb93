import Xv6.Core.LTS
import Xv6.File.Table
import Xv6.Image.Exec
import Xv6.Vm.Isolate

/-!
# The system calls that take and give back pages (`kernel/proc.c`, `kernel/sysfile.c`, `kernel/pipe.c`)

All of the kernel's memory at once: the processes of `Xv6.Image`, the file
table of `Xv6.File` and the pages of the pipes. The reference counts and the
descriptors are those of `Kernel`; a function of `Xv6.File` runs on the file
table that they make up (`Sys.table`).

`sleep`, `wakeup` and the scheduler only move a slot between `RUNNABLE`,
`RUNNING` and `SLEEPING`, which no function here tells apart; they are left
out, and so is what `iput` does to the disk. The bytes in a pipe are kept in
`pipe`, not in the page.
-/
namespace Xv6.Image
open Function (update)
open Xv6.Proc (PState)
open Xv6.Vm hiding growproc growproc_spec

/-- The `ref` of a `file` is in `kernel.fileRef`. The last four fields are
what the kernel has allocated for good: its page table, the stack of each
process, and the three pages of the disk's queue. -/
structure Sys where
  kernel : Kernel
  file : Fin NFILE → File
  pipe : Nat → Option Pipe
  initproc : Fin NPROC
  kpgtbl : Nat
  kstack : Fin NPROC → Nat
  disk : Fin 3 → Nat

inductive SysPanic where
  | image (e : Panic)
  | file (e : File.TablePanic)
  deriving DecidableEq, Repr

abbrev S := Prog SysPanic Sys

def slotOf : PState → File.Slot
  | .unused => .unused
  | .zombie => .zombie
  | _ => .live

/-- The file table; no page of a pipe has been freed yet. -/
def Sys.table (s : Sys) : File.Table where
  file f := { s.file f with ref := s.kernel.fileRef f }
  ofile x := (s.kernel.proc x.1).ofile x.2
  pipe := s.pipe
  proc p := slotOf (s.kernel.proc p).state
  kallocs a := (s.pipe a).isSome.toNat
  kfrees _ := 0

def Sys.setTable (t : File.Table) (s : Sys) : Sys :=
  { s with
    kernel := { s.kernel with
      proc := fun p => { s.kernel.proc p with ofile := fun i => t.ofile (p, i) }
      fileRef := fun f => (t.file f).ref }
    file := t.file
    pipe := t.pipe }

def onKernel {α : Type} (m : K α) : S α := Prog.within .image (·.kernel) (fun k s => { s with kernel := k }) m

def onTable {α : Type} (m : File.T α) : S α := Prog.within .file Sys.table Sys.setTable m

/-! ## kernel/proc.c -/

/-- The four bytes of an `int`. -/
def intBytes (n : Int) : List UInt8 := (List.range 4).map fun i => UInt8.ofNat ((n % 2 ^ 32).toNat / 256 ^ i)

/-- `none`: the caller goes to sleep.
mirrors kernel/proc.c:390-435 -/
def wait (p : Fin NPROC) (addr : Nat) : K (Option Int) := do
  let k ← Prog.get
  match (List.finRange NPROC).find? fun q => (k.proc q).parent = some p ∧ (k.proc q).state = .zombie with
  | some q => do
    let x ← getProc p
    let y ← getProc q
    let r ← if addr ≠ 0 then onPhys (copyout x.pagetable addr (intBytes y.xstate)) else pure ([], true)
    if r.2 = false then pure (some (-1))
    else do
      freeproc q
      pure (some y.pid)
  | none =>
    if (∀ q, (k.proc q).parent ≠ some p) ∨ (k.proc p).killed ≠ 0 then pure (some (-1)) else pure none

/-- mirrors kernel/proc.c:328-341 -/
def reparent (initproc p : Fin NPROC) : K Unit := Prog.modify fun k =>
  { k with proc := fun q =>
      if (k.proc q).parent = some p then { k.proc q with parent := some initproc } else k.proc q }

/-- `iput`, of which only the reference matters here -/
def iput (ip : Option (Fin Fs.NINODE)) : K Unit := Prog.modify fun k =>
  { k with inodeRef := fun i => if ip = some i then k.inodeRef i - 1 else k.inodeRef i }

/-! ## kernel/file.c and kernel/pipe.c -/

/-- `pipeclose` frees the page when it closes the second end.
mirrors kernel/file.c:59-83 and kernel/pipe.c:58-74 -/
def fileclose (f : Fin NFILE) : S Unit := do
  let s ← Prog.get
  let pi := (s.file f).pipe
  onTable (File.fileclose f)
  let s' ← Prog.get
  if (s.pipe pi).isSome ∧ s'.pipe pi = none then onKernel (onPhys (kfree pi)) else pure ()

/-- Both ends of the pipe in the page `pi`.
mirrors kernel/pipe.c:33-45 -/
def openEnds (f0 f1 : Fin NFILE) (pi : Nat) : File.T Unit := do
  Prog.modify fun s =>
    { s with pipe := update s.pipe pi (some File.newPipe), kallocs := update s.kallocs pi (s.kallocs pi + 1) }
  let s ← Prog.get
  File.setFile f0 { s.file f0 with type := .pipe, readable := true, writable := false, pipe := pi }
  let s ← Prog.get
  File.setFile f1 { s.file f1 with type := .pipe, readable := false, writable := true, pipe := pi }

/-- mirrors kernel/pipe.c:22-56 -/
def pipealloc : S (Option (Fin NFILE × Fin NFILE)) := do
  match ← onTable File.filealloc with
  | none => pure none
  | some f0 =>
    match ← onTable File.filealloc with
    | none => do
      fileclose f0
      pure none
    | some f1 => do
      let pi ← onKernel (onPhys kalloc)
      if pi = 0 then do
        fileclose f0
        fileclose f1
        pure none
      else do
        onTable (openEnds f0 f1 pi)
        pure (some (f0, f1))

/-! ## kernel/proc.c: exit -/

/-- mirrors kernel/proc.c:355-361 -/
def exitFiles (p : Fin NPROC) : List (Fin NOFILE) → S Unit
  | [] => pure ()
  | fd :: fds => do
    let s ← Prog.get
    match (s.kernel.proc p).ofile fd with
    | none => exitFiles p fds
    | some f => do
      fileclose f
      onTable (File.setSlot p fd none)
      exitFiles p fds

/-- mirrors kernel/proc.c:346-386 -/
def exit (p : Fin NPROC) (status : Int) : S Unit := do
  let s ← Prog.get
  if p = s.initproc then Prog.panic (.file .initExiting)
  else do
    exitFiles p (List.finRange NOFILE)
    let x ← onKernel (getProc p)
    onKernel (iput x.cwd)
    onKernel (setProc p fun x => { x with cwd := none })
    onKernel (reparent s.initproc p)
    onKernel (setProc p fun x => { x with xstate := status, state := .zombie })

/-! ## kernel/sysfile.c -/

/-- mirrors kernel/sysfile.c:97-108 -/
def sysClose (p : Fin NPROC) (fd : Int) : S Int := do
  match ← onTable (File.argfd p fd) with
  | none => pure (-1)
  | some (fd, f) => do
    onTable (File.setSlot p fd none)
    fileclose f
    pure 0

/-- The two descriptors go to `fdarray`.
mirrors kernel/sysfile.c:496-497 -/
def copyFds (p : Fin NPROC) (fdarray : Nat) (fd0 fd1 : Fin NOFILE) : K Bool := do
  let x ← getProc p
  let r0 ← onPhys (copyout x.pagetable fdarray (intBytes fd0))
  if r0.2 = false then pure false
  else do
    let r1 ← onPhys (copyout x.pagetable ((fdarray + 4) % 2 ^ 64) (intBytes fd1))
    pure r1.2

/-- mirrors kernel/sysfile.c:477-505 -/
def sysPipe (p : Fin NPROC) (fdarray : Nat) : S Int := do
  match ← pipealloc with
  | none => pure (-1)
  | some (rf, wf) =>
    match ← onTable (File.fdalloc p rf) with
    | none => do
      fileclose rf
      fileclose wf
      pure (-1)
    | some fd0 =>
      match ← onTable (File.fdalloc p wf) with
      | none => do
        onTable (File.setSlot p fd0 none)
        fileclose rf
        fileclose wf
        pure (-1)
      | some fd1 => do
        let ok ← onKernel (copyFds p fdarray fd0 fd1)
        if ok = false then do
          onTable (File.setSlot p fd0 none)
          onTable (File.setSlot p fd1 none)
          fileclose rf
          fileclose wf
          pure (-1)
        else pure 0

/-- mirrors kernel/syscall.c:10-20 -/
def fetchaddr (p : Fin NPROC) (addr : Nat) : K (Option Nat) := do
  let x ← getProc p
  if x.sz ≤ addr ∨ x.sz < (addr + 8) % 2 ^ 64 then pure none
  else do
    let r ← onPhys (copyin x.pagetable addr 8)
    if r.2 = false then pure none else pure (some (field r.1 0 8))

/-- What `copyinstr` stores, and the string if it has met the NUL.
mirrors kernel/syscall.c:22-31 -/
def fetchstr (p : Fin NPROC) (addr max : Nat) : K (List UInt8 × Option (List UInt8)) := do
  let x ← getProc p
  let r ← onPhys (copyinstr x.pagetable addr max)
  pure (r.dst, if r.ok then some (r.dst.takeWhile (· ≠ 0)) else none)

/-- The loop of `sys_exec` with `n` places of `argv` to go: the pages it has
taken, and the strings in them unless it goes to `bad`.
mirrors kernel/sysfile.c:446-463 -/
def fetchArgs (p : Fin NPROC) (uargv : Nat) : Nat → Nat → K (List Nat × Option (List (List UInt8)))
  | 0, _ => pure ([], none)
  | n + 1, i => do
    match ← fetchaddr p ((uargv + 8 * i) % 2 ^ 64) with
    | none => pure ([], none)
    | some uarg =>
      if uarg = 0 then pure ([], some [])
      else do
        let pa ← onPhys kalloc
        if pa = 0 then pure ([], none)
        else do
          let r ← fetchstr p uarg PGSIZE
          onPhys (storeBytes pa r.1)
          match r.2 with
          | none => pure ([pa], none)
          | some str => do
            let rest ← fetchArgs p uargv n (i + 1)
            pure (pa :: rest.1, rest.2.map (str :: ·))

/-- mirrors kernel/sysfile.c:467-468 and 473-474 -/
def kfreeAll : List Nat → K Unit
  | [] => pure ()
  | pa :: pas => do
    onPhys (kfree pa)
    kfreeAll pas

/-- `ip` is the file at the path that the process asks for, if there is one.
mirrors kernel/sysfile.c:434-475 -/
def sysExec (ld : Link) (p : Fin NPROC) (upath uargv : Nat) (ip : Option (List UInt8)) : K Int := do
  match ← fetchstr p upath MAXPATH with
  | (_, none) => pure (-1)
  | (_, some path) => do
    let args ← fetchArgs p uargv MAXARG 0
    match args.2 with
    | none => do
      kfreeAll args.1
      pure (-1)
    | some argv => do
      let ret ← exec ld p path ip argv
      kfreeAll args.1
      pure ret

/-! ## Runs -/

inductive Op where
  | fork (p : Fin NPROC)
  | exec (p : Fin NPROC) (upath uargv : Nat) (ip : Option (List UInt8))
  | sbrk (p : Fin NPROC) (n : Int32)
  | exit (p : Fin NPROC) (status : Int)
  | wait (p : Fin NPROC) (addr : Nat)
  | pipe (p : Fin NPROC) (fdarray : Nat)
  | close (p : Fin NPROC) (fd : Int)
  /-- an instruction in user mode -/
  | store (p : Fin NPROC) (va : Nat) (b : UInt8)

def Op.caller : Op → Fin NPROC
  | .fork p => p
  | .exec p _ _ _ => p
  | .sbrk p _ => p
  | .exit p _ => p
  | .wait p _ => p
  | .pipe p _ => p
  | .close p _ => p
  | .store p _ _ => p

def storeByte (p : Fin NPROC) (va : Nat) (b : UInt8) : K Unit :=
  Prog.modify fun k => { k with phys := userStore k.phys (k.proc p).pagetable va b }

def Op.run (ld : Link) : Op → S Unit
  | .fork p => do let _ ← onKernel (Image.fork ld p)
  | .exec p upath uargv ip => do let _ ← onKernel (sysExec ld p upath uargv ip)
  | .sbrk p n => do let _ ← onKernel (growproc p n.toInt)
  | .exit p status => Image.exit p status
  | .wait p addr => do let _ ← onKernel (Image.wait p addr)
  | .pipe p fdarray => do let _ ← sysPipe p fdarray
  | .close p fd => do let _ ← sysClose p fd
  | .store p va b => onKernel (storeByte p va b)

/-- The calls of `kalloc` that fail, from here on, besides those that find no
free page. -/
def Sys.withRefuse (s : Sys) (refuse : List Bool) : Sys :=
  { s with kernel := { s.kernel with phys := { s.kernel.phys with refuse := refuse } } }

end Xv6.Image
