import Xv6.Core.LTS
import Xv6.Core.Prog
import Xv6.File.Basic

/-!
# The file table (`kernel/file.c`, `kernel/sysfile.c`)

The file table, the descriptors of all processes, and the pages of the pipes.
A call is one step; what it gets from the rest of the kernel (an inode, a
page, a process slot, whether `copyout` succeeds) is part of its label, so
every failure path is taken by some label. Inodes are left out: `iput` in
`fileclose` and the locks around it change nothing here.
-/
namespace Xv6.File
open Function (update)

/-- mirrors kernel/fcntl.h:1-4 -/
def O_RDONLY : UInt32 := 0x000
def O_WRONLY : UInt32 := 0x001
def O_RDWR : UInt32 := 0x002
def O_CREATE : UInt32 := 0x200

/-- The states of a process slot that matter here. -/
inductive Slot where
  | unused | live | zombie
  deriving DecidableEq, Repr

/-- `pipe pa` is the pipe in the page at `pa`, if the page is used for one. Ghosts: how often the page has
been given to a pipe and how often it has been freed. -/
structure Table where
  file : Fin NFILE → File
  ofile : Fin NPROC × Fin NOFILE → Option (Fin NFILE)
  pipe : Nat → Option Pipe
  proc : Fin NPROC → Slot
  kallocs : Nat → Nat
  kfrees : Nat → Nat

inductive TablePanic where
  | filedup
  | fileclose
  /-- a page that is not a pipe is closed or freed as one -/
  | noPipe
  | initExiting
  deriving DecidableEq, Repr

abbrev T := Prog TablePanic Table

def setFile (f : Fin NFILE) (x : File) : T Unit := Prog.modify fun s => { s with file := update s.file f x }

def setSlot (p : Fin NPROC) (fd : Fin NOFILE) (x : Option (Fin NFILE)) : T Unit :=
  Prog.modify fun s => { s with ofile := update s.ofile (p, fd) x }

/-! ## `file.c` and `pipe.c` -/

/-- mirrors kernel/file.c:29-44 -/
def filealloc : T (Option (Fin NFILE)) := do
  let s ← Prog.get
  match (List.finRange NFILE).find? fun f => (s.file f).ref = 0 with
  | none => pure none
  | some f => do
    setFile f { s.file f with ref := 1 }
    pure (some f)

/-- mirrors kernel/file.c:47-56 -/
def filedup (f : Fin NFILE) : T (Fin NFILE) := do
  let s ← Prog.get
  if (s.file f).ref < 1 then Prog.panic .filedup
  else do
    setFile f { s.file f with ref := (s.file f).ref + 1 }
    pure f

/-- mirrors kernel/pipe.c:58-74 -/
def pipeclose (pa : Nat) (writable : Bool) : T Unit := do
  let s ← Prog.get
  match s.pipe pa with
  | none => Prog.panic .noPipe
  | some pi =>
    let pi' := pi.shut writable
    if pi'.readopen = false ∧ pi'.writeopen = false then
      Prog.modify fun s =>
        { s with pipe := update s.pipe pa none, kfrees := update s.kfrees pa (s.kfrees pa + 1) }
    else Prog.modify fun s => { s with pipe := update s.pipe pa (some pi') }

/-- mirrors kernel/file.c:59-83 -/
def fileclose (f : Fin NFILE) : T Unit := do
  let s ← Prog.get
  let ff := s.file f
  if ff.ref < 1 then Prog.panic .fileclose
  else if 0 < ff.ref - 1 then setFile f { ff with ref := ff.ref - 1 }
  else do
    setFile f { ff with ref := 0, type := .none }
    if ff.type = .pipe then pipeclose ff.pipe ff.writable else pure ()

/-- The pipe that `pipealloc` makes; `kalloc` has filled the page with fives. -/
def newPipe : Pipe where
  data _ := 5
  nread := 0
  nwrite := 0
  readopen := true
  writeopen := true

/-- `mem` is what `kalloc` returns.
mirrors kernel/pipe.c:22-56 -/
def pipealloc (mem : Option Nat) : T (Option (Fin NFILE × Fin NFILE)) := do
  match ← filealloc with
  | none => pure none
  | some f0 =>
    match ← filealloc with
    | none => do
      fileclose f0
      pure none
    | some f1 =>
      match mem with
      | none => do
        fileclose f0
        fileclose f1
        pure none
      | some pa => do
        Prog.modify fun s =>
          { s with
            pipe := update s.pipe pa (some newPipe)
            kallocs := update s.kallocs pa (s.kallocs pa + 1) }
        let s ← Prog.get
        setFile f0 { s.file f0 with type := .pipe, readable := true, writable := false, pipe := pa }
        let s ← Prog.get
        setFile f1 { s.file f1 with type := .pipe, readable := false, writable := true, pipe := pa }
        pure (some (f0, f1))

/-! ## `sysfile.c` -/

/-- mirrors kernel/sysfile.c:21-35 -/
def argfd (p : Fin NPROC) (fd : Int) : T (Option (Fin NOFILE × Fin NFILE)) := do
  let s ← Prog.get
  if h : 0 ≤ fd ∧ fd.toNat < NOFILE then
    match s.ofile (p, ⟨fd.toNat, h.2⟩) with
    | none => pure none
    | some f => pure (some (⟨fd.toNat, h.2⟩, f))
  else pure none

/-- mirrors kernel/sysfile.c:39-52 -/
def fdalloc (p : Fin NPROC) (f : Fin NFILE) : T (Option (Fin NOFILE)) := do
  let s ← Prog.get
  match (List.finRange NOFILE).find? fun fd => s.ofile (p, fd) = none with
  | none => pure none
  | some fd => do
    setSlot p fd (some f)
    pure (some fd)

/-- mirrors kernel/sysfile.c:54-66 -/
def sysDup (p : Fin NPROC) (fd : Int) : T Int := do
  match ← argfd p fd with
  | none => pure (-1)
  | some (_, f) =>
    match ← fdalloc p f with
    | none => pure (-1)
    | some fd' => do
      let _ ← filedup f
      pure fd'.val

/-- mirrors kernel/sysfile.c:97-108 -/
def sysClose (p : Fin NPROC) (fd : Int) : T Int := do
  match ← argfd p fd with
  | none => pure (-1)
  | some (fd', f) => do
    setSlot p fd' none
    fileclose f
    pure 0

/-- The inode that `create` or `namei` has found, locked. -/
structure Node where
  ip : Fin Fs.NINODE
  type : Fs.Ty
  major : Int16

/-- mirrors kernel/sysfile.c:354-363 -/
def opened (f : File) (omode : UInt32) (nd : Node) : File :=
  let f := if nd.type = .device then { f with type := .device, major := nd.major }
    else { f with type := .inode, off := 0 }
  { f with
    ip := nd.ip
    readable := omode &&& O_WRONLY = 0
    writable := omode &&& O_WRONLY ≠ 0 ∨ omode &&& O_RDWR ≠ 0 }

/-- `node` is what `create` (with `O_CREATE`) or `namei` returns.
mirrors kernel/sysfile.c:304-371 -/
def sysOpen (p : Fin NPROC) (omode : UInt32) (node : Option Node) : T Int := do
  match node with
  | none => pure (-1)
  | some nd =>
    if omode &&& O_CREATE = 0 ∧ nd.type = .dir ∧ omode ≠ O_RDONLY then pure (-1)
    else if nd.type = .device ∧ (nd.major.toInt < 0 ∨ (NDEV : Int) ≤ nd.major.toInt) then pure (-1)
    else
      match ← filealloc with
      | none => pure (-1)
      | some f =>
        match ← fdalloc p f with
        | none => do
          fileclose f
          pure (-1)
        | some fd => do
          let s ← Prog.get
          setFile f (opened (s.file f) omode nd)
          pure fd.val

/-- `copy0` and `copy1`: whether the two calls of `copyout` succeed.
mirrors kernel/sysfile.c:477-505 -/
def sysPipe (p : Fin NPROC) (mem : Option Nat) (copy0 copy1 : Bool) : T Int := do
  match ← pipealloc mem with
  | none => pure (-1)
  | some (rf, wf) =>
    match ← fdalloc p rf with
    | none => do
      fileclose rf
      fileclose wf
      pure (-1)
    | some fd0 =>
      match ← fdalloc p wf with
      | none => do
        setSlot p fd0 none
        fileclose rf
        fileclose wf
        pure (-1)
      | some fd1 =>
        if copy0 = false ∨ copy1 = false then do
          setSlot p fd0 none
          setSlot p fd1 none
          fileclose rf
          fileclose wf
          pure (-1)
        else pure 0

/-! ## `proc.c` -/

/-- mirrors kernel/proc.c:306-308 -/
def forkFiles (p np : Fin NPROC) : List (Fin NOFILE) → T Unit
  | [] => pure ()
  | i :: is => do
    let s ← Prog.get
    match s.ofile (p, i) with
    | none => forkFiles p np is
    | some f => do
      let f' ← filedup f
      setSlot np i (some f')
      forkFiles p np is

def setProc (p : Fin NPROC) (x : Slot) : T Unit := Prog.modify fun s => { s with proc := update s.proc p x }

/-- `np` is the slot that `allocproc` returns; `mem`: `uvmcopy` succeeds.
mirrors kernel/proc.c:279-326 -/
def fork (p : Fin NPROC) (np : Option (Fin NPROC)) (mem : Bool) : T Unit :=
  match np with
  | none => pure ()
  | some np => do
    setProc np .live
    if mem = false then setProc np .unused else forkFiles p np (List.finRange NOFILE)

/-- mirrors kernel/proc.c:355-361 -/
def exitFiles (p : Fin NPROC) : List (Fin NOFILE) → T Unit
  | [] => pure ()
  | fd :: fds => do
    let s ← Prog.get
    match s.ofile (p, fd) with
    | none => exitFiles p fds
    | some f => do
      fileclose f
      setSlot p fd none
      exitFiles p fds

/-- mirrors kernel/proc.c:346-386 -/
def exit (initproc p : Fin NPROC) : T Unit :=
  if p = initproc then Prog.panic .initExiting
  else do
    exitFiles p (List.finRange NOFILE)
    setProc p .zombie

/-! ## Runs -/

inductive Call where
  | open (p : Fin NPROC) (omode : UInt32) (node : Option Node)
  | dup (p : Fin NPROC) (fd : Int)
  | pipe (p : Fin NPROC) (mem : Option Nat) (copy0 copy1 : Bool)
  | close (p : Fin NPROC) (fd : Int)
  | fork (p : Fin NPROC) (np : Option (Fin NPROC)) (mem : Bool)
  | exit (p : Fin NPROC)
  /-- `wait` frees the slot of a child -/
  | reap (p : Fin NPROC)

/-- The caller is a live process, `kalloc` returns a page
that is not in use, and `allocproc` an unused slot. -/
def Call.Allowed (s : Table) : Call → Prop
  | .open p _ _ => s.proc p = .live
  | .dup p _ => s.proc p = .live
  | .pipe p mem _ _ => s.proc p = .live ∧ ∀ pa, mem = some pa → s.pipe pa = none
  | .close p _ => s.proc p = .live
  | .fork p np _ => s.proc p = .live ∧ ∀ q, np = some q → s.proc q = .unused
  | .exit p => s.proc p = .live
  | .reap p => s.proc p = .zombie

def Call.run (initproc : Fin NPROC) : Call → T Unit
  | .open p omode node => do let _ ← sysOpen p omode node
  | .dup p fd => do let _ ← sysDup p fd
  | .pipe p mem copy0 copy1 => do let _ ← sysPipe p mem copy0 copy1
  | .close p fd => do let _ ← sysClose p fd
  | .fork p np mem => File.fork p np mem
  | .exit p => File.exit initproc p
  | .reap p => setProc p .unused

/-- At boot: only `initproc`, no open files, no pipes. -/
structure Boot (initproc : Fin NPROC) (s : Table) : Prop where
  file : ∀ f, (s.file f).ref = 0 ∧ (s.file f).type = .none
  ofile : ∀ x, s.ofile x = none
  pipe : ∀ pa, s.pipe pa = none
  proc : ∀ p, s.proc p = if p = initproc then .live else .unused
  kallocs : ∀ pa, s.kallocs pa = 0
  kfrees : ∀ pa, s.kfrees pa = 0

def tableLts (initproc : Fin NPROC) : LTS Table Call where
  init := Boot initproc
  step s l s' := l.Allowed s ∧ l.run initproc s = .ok ((), s')

end Xv6.File
