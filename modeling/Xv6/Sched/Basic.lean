import Xv6.Proc.Wait

/-!
# CPUs, spinlocks and the scheduler (`kernel/proc.c`, `kernel/spinlock.c`)

`m` CPUs and `n` processes. Every CPU executes one kernel thread at a time:
that of a process, or its own scheduler thread. A step of a CPU is at most
one `acquire` or `release`, one write to a `struct proc`, or one `swtch`;
`code` gives the next such action of a thread, and `exec` carries it out. A
thread that waits for a lock takes no step.

`Proc.Wait` models the process table without CPUs; here the point is who
holds `p->lock` while `swtch` goes from one stack to another.

Outside the functions modelled here (`Pc.run`) a process takes and releases
any other spinlocks and calls these functions; `fork`, `exit` and `wait` are
system calls, made with `noff` at 0. Wherever interrupts are enabled one may
come, in a process or in the scheduler. The thread then goes on in
`Pc.handler`, with the place it was at on its stack (`saved`), takes and
releases locks, calls `wakeup`, and before it returns it may `yield`.

`calls` is a ghost: it numbers the calls of `sleep` and `wakeup`.
-/
namespace Xv6.Sched
open Function (update)
open Proc (PState Chan)

/-- The spinlocks that are not a `p->lock`: `wait_lock`, and all others. -/
inductive Shared where
  | wait
  | other (i : Nat)
  deriving DecidableEq, Repr

inductive Lk (n : Nat) where
  | proc (p : Fin n)
  | shared (l : Shared)
  deriving DecidableEq, Repr

/-- mirrors kernel/proc.h:85-107, without the fields that the functions here do not read -/
structure PCB (n : Nat) where
  state : PState
  chan : Option (Chan n)
  killed : Bool
  pid : Int32
  parent : Option (Fin n)

/-- What a CPU may panic with here. -/
inductive Panic where
  | acquire | release | popOffInterruptible | popOff
  | schedLock | schedLocks | schedRunning | schedInterruptible
  | zombieExit | initExiting
  deriving DecidableEq, Repr

/-- mirrors kernel/proc.h:22-27. `intr` is the interrupt enable bit, and
`cur` tells whose kernel stack the CPU is on (`none`: the scheduler's). -/
structure Cpu (n : Nat) where
  proc : Option (Fin n)
  noff : Nat
  intena : Bool
  intr : Bool
  cur : Option (Fin n)
  panic : Option Panic

/-- Where a call of `sleep` or `wakeup` returns to. -/
inductive Ret where
  | run
  | handler
  | reparent (j : Nat)
  | exitLock
  | scan
  deriving DecidableEq, Repr

/-- A call `sleep(chan, lk)`. A `p->lock` is no `lk`: `acquire(&p->lock)` would panic. -/
structure SleepCall (n : Nat) where
  chan : Chan n
  lk : Shared
  ret : Ret
  id : Nat
  deriving DecidableEq, Repr

/-- Who called `sched`. -/
inductive Caller (n : Nat) where
  | yield
  | sleep (k : SleepCall n)
  | exit
  deriving DecidableEq, Repr

/-- Where a kernel thread is. `Have`: with the `p->lock` of the process that
is named, or with its own. -/
inductive Pc (n : Nat) where
  /-- the scheduler, before `proc[j]` -/
  | loop (j : Nat)
  | test (q : Fin n)
  /-- before `swtch(&c->context, &p->context)` -/
  | toSwtch (q : Fin n)
  | inSwtch (q : Fin n)
  /-- back from `swtch` -/
  | back (q : Fin n)
  | rel (q : Fin n)
  /-- in an interrupt handler -/
  | handler
  | run
  /-- made by `allocproc`: the context starts at `forkret` -/
  | born
  | forkret
  | yieldHave
  | sched (f : Caller n)
  /-- before `swtch(&p->context, &mycpu()->context)`, with the saved `intena` -/
  | swtch (f : Caller n) (intena : Bool)
  | away (f : Caller n) (intena : Bool)
  | resumed (f : Caller n) (intena : Bool)
  | after (f : Caller n)
  | sleepCall (k : SleepCall n)
  | sleepHave (k : SleepCall n)
  /-- `lk` is released, `p` is not yet `SLEEPING` -/
  | sleepSet (k : SleepCall n)
  | sleepTidy (k : SleepCall n)
  /-- before the last `acquire(lk)` -/
  | relock (k : SleepCall n)
  | wake (chan : Option (Chan n)) (j : Nat) (r : Ret) (id : Nat)
  | wakeHave (chan : Option (Chan n)) (q : Fin n) (r : Ret) (id : Nat)
  | wakeRel (chan : Option (Chan n)) (q : Fin n) (r : Ret) (id : Nat)
  | kill (pid : Int32) (j : Nat)
  | killHave (pid : Int32) (q : Fin n)
  | setHave
  /-- before the `release(&q->lock)` that ends a call -/
  | drop (q : Fin n)
  | alloc (j : Nat)
  | allocHave (q : Fin n)
  | forkNew (q : Fin n)
  | forkParent (q : Fin n)
  | forkSet (q : Fin n)
  | forkRelWait (q : Fin n)
  | forkLock (q : Fin n)
  | forkRun (q : Fin n)
  | exitCall
  | reparent (j : Nat)
  | reparentWake (j : Nat)
  | exitLock
  | exitSet
  | exitRel
  | waitCall
  | scan (j : Nat) (havekids : Bool)
  | scanHave (q : Fin n)
  | waitFreed (q : Fin n)
  | waitRel
  | waitKilled
  | waitSleep
  deriving DecidableEq, Repr

def Ret.pc {n : Nat} : Ret → Pc n
  | .run => .run
  | .handler => .handler
  | .reparent j => .reparent j
  | .exitLock => .exitLock
  | .scan => .scan 0 false

/-- The kernel threads: one scheduler for each CPU, and one for each process. -/
inductive Tid (m n : Nat) where
  | sched (c : Fin m)
  | proc (p : Fin n)
  deriving DecidableEq, Repr

structure Sys (m n : Nat) where
  /-- the CPU in `lk->cpu` of a lock that is held -/
  lock : Lk n → Option (Fin m)
  cpu : Fin m → Cpu n
  /-- where the threads are, and where they were interrupted -/
  pc : Tid m n → Pc n
  saved : Tid m n → List (Pc n)
  proc : Fin n → PCB n
  nextpid : Int32
  initproc : Fin n
  calls : Nat

/-- What a thread in `Pc.run`, or an interrupt handler, does next. -/
inductive Op (n : Nat) where
  | acquire (i : Nat)
  | release (i : Nat)
  | intr (b : Bool)
  | yield
  | sleep (chan : Chan n) (i : Nat)
  | wakeup (chan : Chan n)
  | kill (pid : Int32)
  | killed
  | setkilled
  | fork
  | exit
  | wait
  /-- an interrupt, and the return from it -/
  | irq
  | iret

inductive Act (n : Nat) where
  | acquire (l : Lk n) (next : Pc n)
  | release (l : Lk n) (next : Pc n)
  | goto (next : Pc n)
  /-- write the fields of `proc[q]` -/
  | set (q : Fin n) (d : PCB n) (next : Pc n)
  /-- take the slot `q`, which starts at `forkret` -/
  | create (q : Fin n) (d : PCB n) (next : Pc n)
  /-- `p->state = RUNNING; c->proc = p` -/
  | dispatch (q : Fin n) (next : Pc n)
  /-- `c->proc = 0` -/
  | undispatch (next : Pc n)
  | swtchIn (q : Fin n) (next : Pc n)
  | swtchOut (next : Pc n)
  | restore (intena : Bool) (next : Pc n)
  | intr (b : Bool) (next : Pc n)
  /-- start a call, which gets a number -/
  | call (next : Nat → Pc n)
  | irq
  | iret
  | panic (e : Panic)
  /-- nothing: the thread is not running, or the call is not one the kernel makes -/
  | stuck

section
variable {m n : Nat}

/-- mirrors kernel/proc.c:155-171 -/
def freeproc : PCB n := ⟨.unused, none, false, 0, none⟩

/-- `proc[j]`, in a loop over the table that ends with `last` -/
def visit (j : Nat) (f : Fin n → Act n) (last : Act n) : Act n :=
  if h : j < n then f ⟨j, h⟩ else last

/-- Calls that the kernel makes only with `noff` at 0. -/
def atBase (u : Cpu n) (a : Act n) : Act n := if u.noff = 0 then a else .stuck

/-- What a process that is in none of the functions does: it takes and
releases locks, or calls one of them. -/
def runOp (s : Sys m n) (c : Fin m) (p : Fin n) : Op n → Act n
  | .acquire i => .acquire (.shared (.other i)) .run
  | .release i => .release (.shared (.other i)) .run
  | .intr b => atBase (s.cpu c) (.intr b .run)
  | .sleep chan i => .call fun id => .sleepCall ⟨chan, .other i, .run, id⟩
  | .wakeup chan => .call fun id => .wake (some chan) 0 .run id
  | .kill pid => .goto (.kill pid 0)
  | .killed => .acquire (.proc p) (.drop p)
  | .setkilled => .acquire (.proc p) .setHave
  | .fork => atBase (s.cpu c) (.goto (.alloc 0))
  | .exit => atBase (s.cpu c) (if p = s.initproc then .panic .initExiting else .goto .exitCall)
  | .wait => atBase (s.cpu c) (.goto .waitCall)
  | _ => .stuck

/-- What an interrupt handler does; `me` is `myproc()`.
mirrors kernel/trap.c:134-170 -/
def handlerOp (s : Sys m n) (c : Fin m) (me : Option (Fin n)) : Op n → Act n
  | .acquire i => .acquire (.shared (.other i)) .handler
  | .release i => .release (.shared (.other i)) .handler
  | .wakeup chan => .call fun id => .wake (some chan) 0 .handler id
  | .yield =>
    match me with
    | none => .stuck
    | some p =>
      if (s.proc p).state = .running then atBase (s.cpu c) (.acquire (.proc p) .yieldHave) else .stuck
  | .iret => atBase (s.cpu c) .iret
  | _ => .stuck

/-- mirrors kernel/proc.c:444-471 -/
def schedulerCode (s : Sys m n) : Pc n → Act n
  | .loop j => visit j (fun q => .acquire (.proc q) (.test q)) (.intr true (.loop 0))
  | .test q =>
    if (s.proc q).state = .runnable then .dispatch q (.toSwtch q) else .release (.proc q) (.loop (q + 1))
  | .toSwtch q => .swtchIn q (.inSwtch q)
  | .back q => .undispatch (.rel q)
  | .rel q => .release (.proc q) (.loop (q + 1))
  | _ => .stuck

/-- mirrors kernel/proc.c:481-499, up to `swtch` -/
def schedCheck (s : Sys m n) (c : Fin m) (p : Fin n) (f : Caller n) : Act n :=
  if s.lock (.proc p) ≠ some c then .panic .schedLock
  else if (s.cpu c).noff ≠ 1 then .panic .schedLocks
  else if (s.proc p).state = .running then .panic .schedRunning
  else if (s.cpu c).intr then .panic .schedInterruptible
  else .goto (.swtch f (s.cpu c).intena)

/-- mirrors kernel/proc.c:566-580; `me` is `myproc()` -/
def wakeupCode (s : Sys m n) (me : Option (Fin n)) : Pc n → Act n
  | .wake chan j r id =>
    visit j (fun q => if some q = me then .goto (.wake chan (j + 1) r id)
      else .acquire (.proc q) (.wakeHave chan q r id)) (.goto r.pc)
  | .wakeHave chan q r id =>
    if (s.proc q).state = .sleeping ∧ (s.proc q).chan = chan then
      .set q { s.proc q with state := .runnable } (.wakeRel chan q r id)
    else .release (.proc q) (.wake chan (q + 1) r id)
  | .wakeRel chan q r id => .release (.proc q) (.wake chan (q + 1) r id)
  | _ => .stuck

/-- mirrors kernel/proc.c:481-561: `sched`, `yield`, `forkret` and `sleep` -/
def switchCode (s : Sys m n) (c : Fin m) (p : Fin n) : Pc n → Act n
  | .forkret => .release (.proc p) .run
  | .yieldHave => .set p { s.proc p with state := .runnable } (.sched .yield)
  | .sched f => schedCheck s c p f
  | .swtch f intena => .swtchOut (.away f intena)
  | .resumed f intena => .restore intena (.after f)
  | .after .yield => .release (.proc p) .handler
  | .after (.sleep k) => .set p { s.proc p with chan := none } (.sleepTidy k)
  | .after .exit => .panic .zombieExit
  | .sleepCall k => .acquire (.proc p) (.sleepHave k)
  | .sleepHave k => .release (.shared k.lk) (.sleepSet k)
  | .sleepSet k => .set p { s.proc p with chan := some k.chan, state := .sleeping } (.sched (.sleep k))
  | .sleepTidy k => .release (.proc p) (.relock k)
  | .relock k => .acquire (.shared k.lk) k.ret.pc
  | _ => .stuck

/-- mirrors kernel/proc.c:585-623 -/
def killCode (s : Sys m n) (p : Fin n) : Pc n → Act n
  | .kill pid j => visit j (fun q => .acquire (.proc q) (.killHave pid q)) (.goto .run)
  | .killHave pid q =>
    if (s.proc q).pid = pid then
      .set q { s.proc q with
        killed := true, state := if (s.proc q).state = .sleeping then .runnable
        else (s.proc q).state } (.drop q)
    else .release (.proc q) (.kill pid (q + 1))
  | .setHave => .set p { s.proc p with killed := true } (.drop p)
  | .drop q => .release (.proc q) .run
  | _ => .stuck

/-- mirrors kernel/proc.c:109-150 and kernel/proc.c:279-326; `ok`: no allocation fails -/
def forkCode (s : Sys m n) (p : Fin n) (ok : Bool) : Pc n → Act n
  | .alloc j => visit j (fun q => .acquire (.proc q) (.allocHave q)) (.goto .run)
  | .allocHave q =>
    if (s.proc q).state = .unused then
      .create q { s.proc q with state := .used, pid := s.nextpid } (.forkNew q)
    else .release (.proc q) (.alloc (q + 1))
  | .forkNew q => if ok then .release (.proc q) (.forkParent q) else .set q freeproc (.drop q)
  | .forkParent q => .acquire (.shared .wait) (.forkSet q)
  | .forkSet q => .set q { s.proc q with parent := some p } (.forkRelWait q)
  | .forkRelWait q => .release (.shared .wait) (.forkLock q)
  | .forkLock q => .acquire (.proc q) (.forkRun q)
  | .forkRun q => .set q { s.proc q with state := .runnable } (.drop q)
  | _ => .stuck

/-- mirrors kernel/proc.c:330-385, after the files are closed -/
def exitCode (s : Sys m n) (p : Fin n) : Pc n → Act n
  | .exitCall => .acquire (.shared .wait) (.reparent 0)
  | .reparent j =>
    visit j (fun q => if (s.proc q).parent = some p then
        .set q { s.proc q with parent := some s.initproc } (.reparentWake (j + 1))
      else .goto (.reparent (j + 1)))
      (.call fun id => .wake ((s.proc p).parent.map Chan.proc) 0 .exitLock id)
  | .reparentWake j => .call fun id => .wake (some (.proc s.initproc)) 0 (.reparent j) id
  | .exitLock => .acquire (.proc p) .exitSet
  | .exitSet => .set p { s.proc p with state := .zombie } .exitRel
  | .exitRel => .release (.shared .wait) (.sched .exit)
  | _ => .stuck

/-- mirrors kernel/proc.c:390-435; `ok`: `copyout` succeeds -/
def waitCode (s : Sys m n) (p : Fin n) (ok : Bool) : Pc n → Act n
  | .waitCall => .acquire (.shared .wait) (.scan 0 false)
  | .scan j havekids =>
    visit j (fun q => if (s.proc q).parent = some p then .acquire (.proc q) (.scanHave q)
      else .goto (.scan (j + 1) havekids))
      (if havekids then .acquire (.proc p) .waitKilled else .goto .waitRel)
  | .scanHave q =>
    if (s.proc q).state = .zombie then
      if ok then .set q freeproc (.waitFreed q) else .release (.proc q) .waitRel
    else .release (.proc q) (.scan (q + 1) true)
  | .waitFreed q => .release (.proc q) .waitRel
  | .waitKilled => if (s.proc p).killed then .release (.proc p) .waitRel else .release (.proc p) .waitSleep
  | .waitSleep => .call fun id => .sleepCall ⟨.proc p, .wait, .scan, id⟩
  | .waitRel => .release (.shared .wait) .run
  | _ => .stuck

/-- Which function a thread is in. -/
inductive Part where
  | scheduler | handler | wakeup | switch | kill | fork | exit | wait | run

def Pc.part : Pc n → Part
  | .loop _ | .test _ | .toSwtch _ | .inSwtch _ | .back _ | .rel _ => .scheduler
  | .handler => .handler
  | .wake .. | .wakeHave .. | .wakeRel .. => .wakeup
  | .born | .forkret | .yieldHave | .sched _ | .swtch .. | .away .. | .resumed .. | .after _ => .switch
  | .sleepCall _ | .sleepHave _ | .sleepSet _ | .sleepTidy _ | .relock _ => .switch
  | .kill .. | .killHave .. | .setHave | .drop _ => .kill
  | .alloc _ | .allocHave _ | .forkNew _ | .forkParent _ | .forkSet _ | .forkRelWait _ => .fork
  | .forkLock _ | .forkRun _ => .fork
  | .exitCall | .reparent _ | .reparentWake _ | .exitLock | .exitSet | .exitRel => .exit
  | .waitCall | .scan .. | .scanHave _ | .waitFreed _ | .waitRel | .waitKilled | .waitSleep => .wait
  | .run => .run

/-- The next action of a thread of CPU `c` that is at `k`; `myproc()` is
`c->proc`, and only a process calls the functions that need it. -/
def threadCode (s : Sys m n) (c : Fin m) (op : Op n) (ok : Bool) (k : Pc n) : Act n :=
  match k.part, (s.cpu c).proc with
  | .scheduler, _ => schedulerCode s k
  | .handler, me => handlerOp s c me op
  | .wakeup, me => wakeupCode s me k
  | .switch, some p => switchCode s c p k
  | .kill, some p => killCode s p k
  | .fork, some p => forkCode s p ok k
  | .exit, some p => exitCode s p k
  | .wait, some p => waitCode s p ok k
  | .run, some p => runOp s c p op
  | _, none => .stuck

/-- An interrupt may come before any action, if interrupts are enabled. -/
def code (s : Sys m n) (c : Fin m) (op : Op n) (ok : Bool) (k : Pc n) : Act n :=
  match op with
  | .irq => if (s.cpu c).intr then .irq else .stuck
  | op => threadCode s c op ok k

/-- The thread on CPU `c`. -/
def tid (s : Sys m n) (c : Fin m) : Tid m n :=
  match (s.cpu c).cur with
  | none => .sched c
  | some p => .proc p

/-- The thread on CPU `c` goes on at `next`. -/
def goto (s : Sys m n) (c : Fin m) (next : Pc n) : Sys m n := { s with pc := update s.pc (tid s c) next }

def setCpu (s : Sys m n) (c : Fin m) (u : Cpu n) : Sys m n := { s with cpu := update s.cpu c u }

/-- mirrors kernel/spinlock.c:88-97 -/
def pushOff (u : Cpu n) : Cpu n :=
  { u with intr := false, intena := if u.noff = 0 then u.intr else u.intena, noff := u.noff + 1 }

/-- mirrors kernel/spinlock.c:99-110 -/
def popOff (u : Cpu n) : Cpu n :=
  if u.intr then { u with panic := some .popOffInterruptible }
  else if u.noff < 1 then { u with panic := some .popOff }
  else { u with noff := u.noff - 1, intr := u.noff = 1 && u.intena }

/-- mirrors kernel/spinlock.c:22-43: the CPU waits while another holds the lock -/
def acquire (s : Sys m n) (c : Fin m) (l : Lk n) (next : Pc n) : Option (Sys m n) :=
  if s.lock l = some c then some (setCpu s c { s.cpu c with panic := some .acquire })
  else if s.lock l = none then
    some (goto (setCpu { s with lock := update s.lock l (some c) } c (pushOff (s.cpu c))) c next)
  else none

/-- mirrors kernel/spinlock.c:46-72 -/
def release (s : Sys m n) (c : Fin m) (l : Lk n) (next : Pc n) : Sys m n :=
  if s.lock l = some c then
    goto (setCpu { s with lock := update s.lock l none } c (popOff (s.cpu c))) c next
  else setCpu s c { s.cpu c with panic := some .release }

/-- Where a thread is when `swtch` returns in it. -/
def Pc.resume : Pc n → Pc n
  | .born => .forkret
  | .away f intena => .resumed f intena
  | .inSwtch q => .back q
  | k => k

def exec (s : Sys m n) (c : Fin m) : Act n → Option (Sys m n)
  | .acquire l next => acquire s c l next
  | .release l next => some (release s c l next)
  | .goto next => some (goto s c next)
  | .set q d next => some (goto { s with proc := update s.proc q d } c next)
  | .create q d next =>
    some (goto { s with
      proc := update s.proc q d, nextpid := s.nextpid + 1
      pc := update s.pc (.proc q) .born, saved := update s.saved (.proc q) [] } c next)
  | .dispatch q next =>
    some (goto (setCpu { s with proc := update s.proc q { s.proc q with state := .running } } c
      { s.cpu c with proc := some q }) c next)
  | .undispatch next => some (goto (setCpu s c { s.cpu c with proc := none }) c next)
  | .swtchIn q next =>
    some { s with
      pc := update (update s.pc (.sched c) next) (.proc q) (s.pc (.proc q)).resume
      cpu := update s.cpu c { s.cpu c with cur := some q } }
  | .swtchOut next =>
    match (s.cpu c).cur with
    | none => none
    | some p =>
      some { s with
        pc := update (update s.pc (.proc p) next) (.sched c) (s.pc (.sched c)).resume
        cpu := update s.cpu c { s.cpu c with cur := none } }
  | .restore intena next => some (goto (setCpu s c { s.cpu c with intena := intena }) c next)
  | .intr b next => some (goto (setCpu s c { s.cpu c with intr := b }) c next)
  | .call next => some (goto { s with calls := s.calls + 1 } c (next s.calls))
  | .irq =>
    some (goto { s with
      cpu := update s.cpu c { s.cpu c with intr := false }
      saved := update s.saved (tid s c) (s.pc (tid s c) :: s.saved (tid s c)) } c .handler)
  | .iret =>
    match s.saved (tid s c) with
    | [] => none
    | k :: ks =>
      some (goto { s with
        cpu := update s.cpu c { s.cpu c with intr := true }, saved := update s.saved (tid s c) ks } c k)
  | .panic e => some (setCpu s c { s.cpu c with panic := some e })
  | .stuck => none

/-- A step of CPU `cpu`. -/
structure Lbl (m n : Nat) where
  cpu : Fin m
  op : Op n
  ok : Bool

def step (s : Sys m n) (l : Lbl m n) : Option (Sys m n) :=
  if (s.cpu l.cpu).panic = none then exec s l.cpu (code s l.cpu l.op l.ok (s.pc (tid s l.cpu))) else none

/-- The CPUs enter `scheduler()` after `userinit`: one process is `RUNNABLE`.
mirrors kernel/main.c:11-44 -/
structure Init (s : Sys m n) : Prop where
  lock : ∀ l, s.lock l = none
  proc : ∀ c, (s.cpu c).proc = none
  noff : ∀ c, (s.cpu c).noff = 0
  cur : ∀ c, (s.cpu c).cur = none
  panic : ∀ c, (s.cpu c).panic = none
  intr : ∀ c, (s.cpu c).intr = false
  scheduler : ∀ c, s.pc (.sched c) = .loop n
  born : ∀ p, s.pc (.proc p) = .born
  saved : ∀ t, s.saved t = []
  state : ∀ p, (s.proc p).state = if p = s.initproc then .runnable else .unused

def lts (m n : Nat) : LTS (Sys m n) (Lbl m n) where
  init := Init
  step s l s' := step s l = some s'

end
end Xv6.Sched
