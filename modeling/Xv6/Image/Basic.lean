import Xv6.File.Basic
import Xv6.Param
import Xv6.Proc.Wait
import Xv6.Vm.Dup

/-!
# Process images (`struct proc`, `allocproc`, `freeproc`, `fork`, `growproc` of `kernel/proc.c`)

The process table together with the memory its page tables and trapframes lie
in. A call runs to its end without another process in between, so the locks
are left out; which `kalloc` calls fail is part of the memory's state. The
trapframe is a page of memory, its registers are words in it.
-/
namespace Xv6.Image
open Function (update)
open Xv6.Proc (PState)
open Xv6.Vm (Phys PGSIZE)

/-- What the linker decides: the page of `trampoline` and the address of
`forkret`. -/
structure Link where
  trampoline : Nat
  forkret : Nat
  low : trampoline < 2 ^ 56

/-- mirrors kernel/proc.h:2-19 -/
structure Context where
  ra : Nat
  sp : Nat
  s : Fin 12 → Nat

/-- mirrors kernel/proc.h:85-107; the lock is left out -/
structure Proc where
  state : PState
  chan : Nat
  killed : Int
  xstate : Int
  pid : Int
  parent : Option (Fin NPROC)
  kstack : Nat
  sz : Nat
  pagetable : Nat
  trapframe : Nat
  context : Context
  ofile : Fin NOFILE → Option (Fin NFILE)
  cwd : Option (Fin Fs.NINODE)
  name : Bytes 16

/-- The process table, `nextpid`, the memory, and the reference counts of the
file table and of the inode table. -/
structure Kernel where
  phys : Phys
  proc : Fin NPROC → Proc
  nextpid : Int
  fileRef : Fin NFILE → Int
  inodeRef : Fin Fs.NINODE → Int

inductive Panic where
  | vm (e : Vm.Panic)
  | filedup
  deriving DecidableEq, Repr

abbrev K := Prog Panic Kernel

/-- A function of `vm.c` or `kalloc.c`. -/
def onPhys {α : Type} (m : Vm.M α) : K α := Prog.within .vm (·.phys) (fun t k => { k with phys := t }) m

def getProc (p : Fin NPROC) : K Proc := fun k => .ok (k.proc p, k)

def setProc (p : Fin NPROC) (f : Proc → Proc) : K Unit :=
  Prog.modify fun k => { k with proc := update k.proc p (f (k.proc p)) }

/-! ## kernel/string.c -/

def setByte (b : Bytes 16) (i : Nat) (c : UInt8) : Bytes 16 := b.splice i 1 fun _ => c

/-- The loop of `safestrcpy`, with `n` bytes to go besides the last. It copies
the NUL too, and writes one more after it.
mirrors kernel/string.c:92-94 -/
def safestrcpyLoop (t : Nat → UInt8) : Nat → Nat → Bytes 16 → Bytes 16
  | 0, i, s => setByte s i 0
  | n + 1, i, s =>
    if t i ≠ 0 then safestrcpyLoop t n (i + 1) (setByte s i (t i))
    else setByte (setByte s i 0) (i + 1) 0

/-- mirrors kernel/string.c:85-96, for `n = sizeof(p->name)` -/
def safestrcpy (s : Bytes 16) (t : Nat → UInt8) : Bytes 16 := safestrcpyLoop t 15 0 s

/-! ## kernel/proc.c -/

/-- mirrors kernel/proc.c:92-103 -/
def allocpid : K Int := fun k => .ok (k.nextpid, { k with nextpid := k.nextpid + 1 })

/-- `if(p) f(p)` for a pointer -/
def unlessNull (a : Nat) (m : Vm.M Unit) : K Unit := if a ≠ 0 then onPhys m else pure ()

/-- A slot after `freeproc`. -/
def Proc.cleared (x : Proc) : Proc :=
  { x with
    trapframe := 0
    pagetable := 0
    sz := 0
    pid := 0
    parent := none
    name := setByte x.name 0 0
    chan := 0
    killed := 0
    xstate := 0
    state := .unused }

/-- mirrors kernel/proc.c:152-172 -/
def freeproc (p : Fin NPROC) : K Unit := do
  let x ← getProc p
  unlessNull x.trapframe (Vm.kfree x.trapframe)
  unlessNull x.pagetable (Vm.procFreepagetable x.pagetable x.sz)
  setProc p Proc.cleared

/-- mirrors kernel/proc.c:105-150 -/
def allocproc (ld : Link) : K (Option (Fin NPROC)) := do
  let k ← Prog.get
  match (List.finRange NPROC).find? fun p => (k.proc p).state = .unused with
  | none => pure none
  | some p => do
    let pid ← allocpid
    setProc p fun x => { x with pid := pid, state := .used }
    let trapframe ← onPhys Vm.kalloc
    setProc p fun x => { x with trapframe := trapframe }
    if trapframe = 0 then do
      freeproc p
      pure none
    else do
      let pagetable ← onPhys (Vm.procPagetable ld.trampoline trapframe)
      setProc p fun x => { x with pagetable := pagetable }
      if pagetable = 0 then do
        freeproc p
        pure none
      else do
        setProc p fun x => { x with context := ⟨ld.forkret, x.kstack + PGSIZE, fun _ => 0⟩ }
        pure (some p)

/-- The registers of a trapframe: 36 words. -/
def TRAPFRAMESZ : Nat := 288

/-- The offset of `a0`. -/
def A0 : Nat := 112

/-- `*dst = *src` for trapframes -/
def copyTrapframe (dst src : Nat) : Vm.M Unit := Prog.modify fun s =>
  s.setPage dst ((s.mem (dst / PGSIZE)).splice (dst % PGSIZE) TRAPFRAMESZ
    fun i => (s.mem (src / PGSIZE)).get (src % PGSIZE + i))

/-- mirrors kernel/file.c:46-56 -/
def filedup (f : Fin NFILE) : K (Fin NFILE) := do
  let k ← Prog.get
  if k.fileRef f < 1 then Prog.panic .filedup
  else do
    Prog.modify fun k => { k with fileRef := update k.fileRef f (k.fileRef f + 1) }
    pure f

/-- mirrors kernel/proc.c:305-308; an entry without a file stays what it was -/
def dupFiles (p np : Fin NPROC) : List (Fin NOFILE) → K Unit
  | [] => pure ()
  | i :: rest => do
    let x ← getProc p
    match x.ofile i with
    | none => dupFiles p np rest
    | some f => do
      let f ← filedup f
      setProc np fun x => { x with ofile := update x.ofile i (some f) }
      dupFiles p np rest

/-- mirrors kernel/fs.c:279-288; every process that forks has a `cwd` -/
def idup (ip : Option (Fin Fs.NINODE)) : K (Option (Fin Fs.NINODE)) := fun k =>
  match ip with
  | none => .ok (none, k)
  | some i => .ok (some i, { k with inodeRef := update k.inodeRef i (k.inodeRef i + 1) })

/-- mirrors kernel/proc.c:277-326 -/
def fork (ld : Link) (p : Fin NPROC) : K Int := do
  match ← allocproc ld with
  | none => pure (-1)
  | some np => do
    let x ← getProc p
    let y ← getProc np
    let r ← onPhys (Vm.uvmcopy x.pagetable y.pagetable x.sz)
    if r < 0 then do
      freeproc np
      pure (-1)
    else do
      setProc np fun y => { y with sz := x.sz }
      onPhys (copyTrapframe y.trapframe x.trapframe)
      onPhys (Vm.store (y.trapframe + A0) 0)
      dupFiles p np (List.finRange NOFILE)
      let cwd ← idup x.cwd
      setProc np fun y => { y with cwd := cwd, name := safestrcpy y.name x.name.get }
      let y ← getProc np
      setProc np fun y => { y with parent := some p }
      setProc np fun y => { y with state := .runnable }
      pure y.pid

/-- mirrors kernel/proc.c:257-275 -/
def growproc (p : Fin NPROC) (n : Int) : K Int := do
  let x ← getProc p
  let r ← onPhys (Vm.growproc ⟨x.pagetable, x.sz⟩ n)
  setProc p fun x => { x with sz := r.2.sz }
  pure r.1

/-! ## Rules -/

section
variable {α : Type} {k : Kernel} {R : Panic → Prop}

variable {Q : α → Kernel → Prop} {m : Vm.M α}

@[simp] theorem wp_onPhys (m : Vm.M α) : Wp (onPhys m) k Q R ↔
    Wp m k.phys (fun a t => Q a { k with phys := t }) fun e => R (.vm e) := wp_within _ _ _ _

theorem onPhys_ok {a : α} {t : Phys} (h : m k.phys = .ok (a, t)) :
    onPhys m k = .ok (a, { k with phys := t }) := by
  unfold onPhys Prog.within
  rw [h]

@[simp] theorem wp_getProc (p : Fin NPROC) {Q : Proc → Kernel → Prop} :
    Wp (getProc p) k Q R ↔ Q (k.proc p) k := wp_ok rfl

@[simp] theorem wp_setProc (p : Fin NPROC) (f : Proc → Proc) {Q : Unit → Kernel → Prop} :
    Wp (setProc p f) k Q R ↔ Q () { k with proc := update k.proc p (f (k.proc p)) } := wp_ok rfl

@[simp] theorem wp_allocpid {Q : Int → Kernel → Prop} : Wp allocpid k Q R ↔
    Q k.nextpid { k with nextpid := k.nextpid + 1 } := wp_ok rfl

/-- A function of `vm.c` that returns, by its specification. -/
theorem Wp.phys {P : α → Phys → Prop} (h : Wp m k.phys P fun _ => False)
    (hQ : ∀ a t, P a t → Q a { k with phys := t }) : Wp (onPhys m) k Q R :=
  (wp_onPhys m).2 (h.mono hQ fun _ => False.elim)

end

end Xv6.Image
