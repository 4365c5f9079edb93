import Mathlib.Logic.Function.Basic
import Xv6.Core.LTS

/-!
# fork, exit, wait and kill (`kernel/proc.c`)

The process table has `n` slots (`NPROC` of them in the kernel), kept here as
one function for each field of `struct proc`. Every slot also has the place
its kernel thread is at (`pc`). One step is one section under `wait_lock` or
under one `p->lock`; a section of `exit` or `wait` that keeps `wait_lock`
over several `p->lock` sections is one step for each of these, so that other
processes move in between. Only the holder of `wait_lock` may take the steps
that need it, and a process takes steps of its own only while it is
`RUNNING`.

What the processes do besides is also there: they are scheduled and yield
(not while holding `wait_lock`, which keeps interrupts off), and sleep on
other channels. `allocproc` may pick any `UNUSED` slot, and may fail.

`gen`, `forker`, `nextgen` and `hist` are ghosts: a number for every process
ever made (slots and pids are reused), the number of the process that forked
it, and what `exit` and `wait` did, newest first.
-/
namespace Xv6.Proc

/-- `enum procstate` -/
inductive PState where
  | unused | used | sleeping | runnable | running | zombie
  deriving DecidableEq, Repr

/-- A sleep channel: a process's own address, or any other. -/
inductive Chan (n : Nat) where
  | proc (p : Fin n)
  | other (c : Nat)
  deriving DecidableEq, Repr

/-- Where a slot's kernel thread is. -/
inductive Pc (n : Nat) where
  /-- no thread -/
  | unused
  /-- made by `fork`, not yet runnable -/
  | embryo
  /-- in user code, or in the kernel outside the functions below -/
  | user
  /-- `fork`, before `acquire(&wait_lock)` -/
  | forkParent (np : Fin n)
  /-- `fork`, before the last `acquire(&np->lock)` -/
  | forkRunnable (np : Fin n)
  /-- `exit`, before `acquire(&wait_lock)` -/
  | exiting (status : Int32)
  /-- the loop of `reparent`, at `proc[i]` -/
  | reparent (status : Int32) (i : Nat)
  /-- `wakeup(initproc)` in `reparent`, at `proc[j]`; the loop goes on at `i` -/
  | reparentWake (status : Int32) (i j : Nat)
  /-- `wakeup(p->parent)` in `exit`, at `proc[j]` -/
  | wakeParent (status : Int32) (parent : Option (Fin n)) (j : Nat)
  /-- `exit`, before `acquire(&p->lock)` -/
  | zombify (status : Int32)
  | dead
  /-- `wait`, before `acquire(&wait_lock)` -/
  | waiting (addr : Nat)
  /-- the scan of `wait`, at `proc[i]` -/
  | scan (addr : Nat) (i : Nat) (havekids : Bool)
  /-- `wait`, before `sleep(p, &wait_lock)` -/
  | waitSleep (addr : Nat)
  /-- in that `sleep` -/
  | asleep (addr : Nat)
  /-- the loop of `kill`, at `proc[j]` -/
  | kill (pid : Int32) (j : Nat)
  deriving DecidableEq, Repr

inductive Event (n : Nat) where
  /-- process `g` called `exit(status)` -/
  | exited (g : Nat) (pid status : Int32)
  /-- `p`'s `wait(addr)` freed process `g` and returned `pid`, with `status`
  copied to `addr` if that is not null -/
  | reaped (p : Fin n) (addr g : Nat) (pid status : Int32)
  /-- `p`'s `wait` returned -1 because it has no children -/
  | noKids (p : Fin n)
  deriving DecidableEq, Repr

structure Sys (n : Nat) where
  state : Fin n → PState
  chan : Fin n → Option (Chan n)
  killed : Fin n → Bool
  xstate : Fin n → Int32
  pid : Fin n → Int32
  parent : Fin n → Option (Fin n)
  pc : Fin n → Pc n
  /-- `wait_lock`, with its holder -/
  waitLock : Option (Fin n)
  nextpid : Int32
  initproc : Fin n
  gen : Fin n → Nat
  forker : Fin n → Nat
  nextgen : Nat
  hist : List (Event n)

inductive Lbl (n : Nat) where
  /-- `fork` finds the slot `np` -/
  | fork (p np : Fin n)
  /-- `fork` fails: no slot, or no memory after it found one -/
  | forkFail (p : Fin n) (np : Option (Fin n))
  | exit (p : Fin n) (status : Int32)
  | wait (p : Fin n) (addr : Nat)
  | kill (p : Fin n) (pid : Int32)
  /-- the next section of the call `p` is in; `ok`: a `copyout` succeeds -/
  | go (p : Fin n) (ok : Bool)
  /-- the scheduler runs `p` -/
  | run (p : Fin n)
  | yield (p : Fin n)
  /-- `p` sleeps on a channel that is not a process -/
  | block (p : Fin n) (c : Nat)
  /-- and is woken -/
  | unblock (p : Fin n)
  | setkilled (p : Fin n)
  deriving DecidableEq, Repr

section
variable {n : Nat}
open Function (update)

/-- mirrors kernel/proc.c:155-172, without the memory -/
def freeproc (s : Sys n) (p : Fin n) : Sys n :=
  { s with
    state := update s.state p .unused
    chan := update s.chan p none
    killed := update s.killed p false
    xstate := update s.xstate p 0
    pid := update s.pid p 0
    parent := update s.parent p none
    pc := update s.pc p .unused }

/-- mirrors kernel/proc.c:109-150 up to fork's release of `np->lock`
(kernel/proc.c:284-315) -/
def fork (s : Sys n) (p np : Fin n) : Sys n :=
  { s with
    pid := update s.pid np s.nextpid
    state := update s.state np .used
    nextpid := s.nextpid + 1
    pc := update (update s.pc np .embryo) p (.forkParent np)
    gen := update s.gen np s.nextgen
    forker := update s.forker np (s.gen p)
    nextgen := s.nextgen + 1 }

/-- One pass of `wakeup(chan)` by `p`, at `q`.
mirrors kernel/proc.c:566-580 -/
def wakeOne (s : Sys n) (p q : Fin n) (chan : Option (Chan n)) : Sys n :=
  if q ≠ p ∧ s.state q = .sleeping ∧ s.chan q = chan then
    { s with state := update s.state q .runnable }
  else s

def goto (s : Sys n) (p : Fin n) (c : Pc n) : Sys n := { s with pc := update s.pc p c }

def unlock (s : Sys n) : Sys n := { s with waitLock := none }

def record (s : Sys n) (e : Event n) : Sys n := { s with hist := e :: s.hist }

/-- One pass of the loop of `reparent`, and what follows it.
mirrors kernel/proc.c:335-340, 371-374 -/
def reparentPass (s : Sys n) (p : Fin n) (status : Int32) (i : Nat) : Sys n :=
  if h : i < n then
    if s.parent ⟨i, h⟩ = some p then
      goto { s with parent := update s.parent ⟨i, h⟩ (some s.initproc) } p (.reparentWake status (i + 1) 0)
    else goto s p (.reparent status (i + 1))
  else goto s p (.wakeParent status (s.parent p) 0)

def reparentWakePass (s : Sys n) (p : Fin n) (status : Int32) (i j : Nat) : Sys n :=
  if h : j < n then goto (wakeOne s p ⟨j, h⟩ (some (.proc s.initproc))) p (.reparentWake status i (j + 1))
  else goto s p (.reparent status i)

def wakeParentPass (s : Sys n) (p : Fin n) (status : Int32) (parent : Option (Fin n)) (j : Nat) : Sys n :=
  if h : j < n then goto (wakeOne s p ⟨j, h⟩ (parent.map .proc)) p (.wakeParent status parent (j + 1))
  else goto s p (.zombify status)

/-- mirrors kernel/proc.c:376-384 -/
def zombify (s : Sys n) (p : Fin n) (status : Int32) : Sys n :=
  { s with
    xstate := update s.xstate p status
    state := update s.state p .zombie
    pc := update s.pc p .dead
    waitLock := none }

/-- One pass of the scan of `wait`, and what follows it.
mirrors kernel/proc.c:401-433 -/
def scanPass (s : Sys n) (p : Fin n) (addr i : Nat) (havekids ok : Bool) : Sys n :=
  if h : i < n then
    if s.parent ⟨i, h⟩ = some p then
      if s.state ⟨i, h⟩ = .zombie then
        if addr ≠ 0 ∧ ok = false then goto (unlock s) p .user
        else
          record (goto (unlock (freeproc s ⟨i, h⟩)) p .user)
            (.reaped p addr (s.gen ⟨i, h⟩) (s.pid ⟨i, h⟩) (s.xstate ⟨i, h⟩))
      else goto s p (.scan addr (i + 1) true)
    else goto s p (.scan addr (i + 1) havekids)
  else if havekids = false then record (goto (unlock s) p .user) (.noKids p)
  else if s.killed p then goto (unlock s) p .user
  else goto s p (.waitSleep addr)

/-- mirrors kernel/proc.c:535-554 -/
def waitSleep (s : Sys n) (p : Fin n) (addr : Nat) : Sys n :=
  { s with
    waitLock := none
    chan := update s.chan p (some (.proc p))
    state := update s.state p .sleeping
    pc := update s.pc p (.asleep addr) }

/-- One pass of the loop of `kill`.
mirrors kernel/proc.c:585-604 -/
def killPass (s : Sys n) (p : Fin n) (pid : Int32) (j : Nat) : Sys n :=
  if h : j < n then
    if s.pid ⟨j, h⟩ = pid then
      goto { s with
        killed := update s.killed ⟨j, h⟩ true
        state := if s.state ⟨j, h⟩ = .sleeping then update s.state ⟨j, h⟩ .runnable else s.state } p .user
    else goto s p (.kill pid (j + 1))
  else goto s p .user

/-- The next section of the call `p` is in. -/
def go (s : Sys n) (p : Fin n) (ok : Bool) : Option (Sys n) :=
  match s.pc p with
  | .forkParent np =>
    if s.waitLock = none then
      some (goto { s with parent := update s.parent np (some p) } p (.forkRunnable np))
    else none
  | .forkRunnable np =>
    some { s with
      state := update s.state np .runnable
      pc := update (update s.pc np .user) p .user }
  | .exiting status =>
    if s.waitLock = none then some (goto { s with waitLock := some p } p (.reparent status 0)) else none
  | .reparent status i => some (reparentPass s p status i)
  | .reparentWake status i j => some (reparentWakePass s p status i j)
  | .wakeParent status parent j => some (wakeParentPass s p status parent j)
  | .zombify status => some (zombify s p status)
  | .waiting addr =>
    if s.waitLock = none then some (goto { s with waitLock := some p } p (.scan addr 0 false)) else none
  | .scan addr i havekids => some (scanPass s p addr i havekids ok)
  | .waitSleep addr => some (waitSleep s p addr)
  | .kill pid j => some (killPass s p pid j)
  | .unused | .embryo | .user | .dead | .asleep _ => none

/-- Where a thread is once the scheduler has run it: a sleeper leaves
`sleep`. -/
def resume : Pc n → Pc n
  | .asleep addr => .waiting addr
  | c => c

/-- Where a process may sleep on other channels: in another part of the
kernel, or while `exit` closes its files. -/
def canBlock : Pc n → Bool
  | .user => true
  | .exiting _ => true
  | _ => false

/-- The section a label names, if it can run. `exit` by init panics; init
does not call it. -/
def step (s : Sys n) : Lbl n → Option (Sys n)
  | .fork p np =>
    if s.state p = .running ∧ s.pc p = .user ∧ s.state np = .unused then some (fork s p np) else none
  | .forkFail p none => if s.state p = .running ∧ s.pc p = .user then some s else none
  | .forkFail p (some np) =>
    if s.state p = .running ∧ s.pc p = .user ∧ s.state np = .unused then
      some (freeproc { s with nextpid := s.nextpid + 1 } np)
    else none
  | .exit p status =>
    if s.state p = .running ∧ s.pc p = .user ∧ p ≠ s.initproc then
      some (record (goto s p (.exiting status)) (.exited (s.gen p) (s.pid p) status))
    else none
  | .wait p addr => if s.state p = .running ∧ s.pc p = .user then some (goto s p (.waiting addr)) else none
  | .kill p pid => if s.state p = .running ∧ s.pc p = .user then some (goto s p (.kill pid 0)) else none
  | .go p ok => if s.state p = .running then go s p ok else none
  | .run p =>
    if s.state p = .runnable then
      some { s with
        state := update s.state p .running
        chan := update s.chan p none
        pc := update s.pc p (resume (s.pc p)) }
    else none
  | .yield p =>
    if s.state p = .running ∧ s.waitLock ≠ some p then some { s with state := update s.state p .runnable }
    else none
  | .block p c =>
    if s.state p = .running ∧ canBlock (s.pc p) then
      some { s with state := update s.state p .sleeping, chan := update s.chan p (some (.other c)) }
    else none
  | .unblock p =>
    match s.state p, s.chan p with
    | .sleeping, some (.other _) => some { s with state := update s.state p .runnable }
    | _, _ => none
  | .setkilled p =>
    if s.state p = .running ∧ s.pc p = .user then some { s with killed := update s.killed p true } else none

/-- After `userinit`. -/
structure Init (s : Sys n) : Prop where
  init : s.state s.initproc = .runnable ∧ s.pc s.initproc = .user ∧ s.parent s.initproc = none ∧
    s.chan s.initproc = none ∧ s.gen s.initproc = 0
  rest : ∀ p, p ≠ s.initproc → s.state p = .unused ∧ s.pc p = .unused ∧ s.parent p = none
  lock : s.waitLock = none
  gen : s.nextgen = 1
  hist : s.hist = []

def lts (n : Nat) : LTS (Sys n) (Lbl n) where
  init := Init
  step s l s' := step s l = some s'

end
end Xv6.Proc
