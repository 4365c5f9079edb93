import Xv6.Core.LTS
import Mathlib.Logic.Function.Basic

/-!
# Pipes (`kernel/pipe.c`)

One pipe and the `n` processes that call `pipewrite`, `piperead` and
`pipeclose` on it. A step is one iteration of a loop of these calls, one
process visited by a `wakeup`, or one half of `sleep`; `kill` may come
between any two of them, because it takes only the `p->lock` of its victim.
`pi->lock` is held from `Pc.writing` to the end of the call or to `sleep`.

Ghosts: `inserted` and `removed` are the bytes that have gone into and out of
`data[]`, each inserted byte with the number of the `pipewrite` call that
inserted it; `returned` has the calls of `pipewrite` that have returned.
-/
namespace Xv6
open Function (update)

/-- mirrors kernel/pipe.c:11 -/
def PIPESIZE : Nat := 512

/-- mirrors kernel/pipe.c:13-20; `lock` is in `Sys` -/
structure Pipe where
  data : Nat → UInt8
  nread : UInt32
  nwrite : UInt32
  readopen : Bool
  writeopen : Bool

namespace Pipe

/-- The test of kernel/pipe.c:88 -/
def full (pi : Pipe) : Prop := pi.nwrite = pi.nread + 512

/-- The test of kernel/pipe.c:113 and of kernel/pipe.c:121 -/
def empty (pi : Pipe) : Prop := pi.nread = pi.nwrite

instance (pi : Pipe) : Decidable pi.full := inferInstanceAs (Decidable (_ = _))
instance (pi : Pipe) : Decidable pi.empty := inferInstanceAs (Decidable (_ = _))

/-- mirrors kernel/pipe.c:95 -/
def put (pi : Pipe) (ch : UInt8) : Pipe :=
  { pi with data := update pi.data (pi.nwrite.toNat % PIPESIZE) ch, nwrite := pi.nwrite + 1 }

/-- The byte read by kernel/pipe.c:123 -/
def next (pi : Pipe) : UInt8 := pi.data (pi.nread.toNat % PIPESIZE)

/-- The bytes in the ring, in the order in which they will be read. -/
def held (pi : Pipe) : List UInt8 :=
  (List.range (pi.nwrite - pi.nread).toNat).map fun k => pi.data ((pi.nread.toNat + k) % PIPESIZE)

/-- mirrors kernel/pipe.c:58-67, up to the wakeup -/
def shut (pi : Pipe) (writable : Bool) : Pipe :=
  if writable then { pi with writeopen := false } else { pi with readopen := false }

/-- The channels of a pipe. -/
inductive Chan where
  | nread
  | nwrite
deriving DecidableEq, Repr

/-- A call `pipewrite(pi, addr, n)`. `buf i` is the byte that `copyin` reads at
`addr + i`, if it does not fail. `id` and `start` are ghosts: the number of
the call, and `i` when the call last acquired `pi->lock`. -/
structure Write where
  buf : Nat → Option UInt8
  n : Int32
  i : Nat
  id : Nat
  start : Nat

/-- A call `piperead(pi, addr, n)` -/
structure Read where
  n : Int32
  i : Nat

/-- Where a process is. -/
inductive Pc where
  | idle
  /-- before `acquire(&pi->lock)`, at the start or at the end of `sleep` -/
  | writeAcquire (w : Write)
  /-- at the head of the loop of `pipewrite` -/
  | writing (w : Write)
  /-- in the `wakeup` before `sleep`, at `proc[j]` -/
  | fullWakeup (w : Write) (j : Nat)
  | writeSleep (w : Write)
  /-- in `sleep`, with `p->lock` and without `pi->lock` -/
  | writeDoze (w : Write)
  | writeAsleep (w : Write)
  /-- in the last `wakeup` -/
  | writeWakeup (w : Write) (j : Nat)
  | readAcquire (r : Read)
  /-- at the head of the wait loop of `piperead` -/
  | readWait (r : Read)
  | readSleep (r : Read)
  | readDoze (r : Read)
  | readAsleep (r : Read)
  /-- at the head of the copy loop -/
  | reading (r : Read)
  | readWakeup (r : Read) (j : Nat)
  | closeAcquire (writable : Bool)
  | closeWakeup (writable : Bool) (j : Nat)

/-- The processes that hold their own `p->lock` in `sleep`. -/
def Pc.dozing : Pc → Bool
  | .writeDoze _ => true
  | .readDoze _ => true
  | _ => false

/-- A call of `pipewrite` that has returned `ret`. -/
structure Returned where
  id : Nat
  buf : Nat → Option UInt8
  ret : Int

structure Sys (n : Nat) where
  pipe : Pipe
  /-- `pi` has been given to `kfree` -/
  freed : Bool
  /-- who holds `pi->lock` -/
  lock : Option (Fin n)
  /-- the channel of a process that is `SLEEPING` on one of the pipe's -/
  asleep : Fin n → Option Chan
  killed : Fin n → Bool
  pc : Fin n → Pc
  inserted : List (Nat × UInt8)
  removed : List UInt8
  calls : Nat
  returned : List Returned

inductive Lbl (n : Nat) where
  | pipewrite (p : Fin n) (buf : Nat → Option UInt8) (len : Int32)
  | piperead (p : Fin n) (len : Int32)
  | pipeclose (p : Fin n) (writable : Bool)
  /-- the next step of `p`'s call; `ok`: `copyout` succeeds -/
  | go (p : Fin n) (ok : Bool)
  | kill (q : Fin n)
  /-- the slot of a process that is in none of the calls gets a new process -/
  | renew (p : Fin n)

section
variable {n : Nat}

def goto (s : Sys n) (p : Fin n) (c : Pc) : Sys n := { s with pc := update s.pc p c }

/-- `acquire(&pi->lock)`, which waits while the lock is held -/
def acquire (s : Sys n) (p : Fin n) (c : Pc) : Option (Sys n) :=
  if s.lock = none ∧ s.freed = false then some (goto { s with lock := some p } p c) else none

def release (s : Sys n) (p : Fin n) (c : Pc) : Sys n := goto { s with lock := none } p c

/-- One process of `wakeup(chan)`, called by `p`: `next` goes on, after the
last process `last` does. A process with its `p->lock` held is waited for.
mirrors kernel/proc.c:566-580 -/
def wakeupOne (s : Sys n) (p : Fin n) (chan : Chan) (j : Nat) (next : Pc) (last : Sys n) : Option (Sys n) :=
  if h : j < n then
    let q : Fin n := ⟨j, h⟩
    if q = p then some (goto s p next)
    else if (s.pc q).dozing then none
    else if s.asleep q = some chan then some (goto { s with asleep := update s.asleep q none } p next)
    else some (goto s p next)
  else some last

def ret (s : Sys n) (w : Write) (v : Int) : Sys n :=
  { s with returned := ⟨w.id, w.buf, v⟩ :: s.returned }

/-- One iteration of the loop of `pipewrite`.
mirrors kernel/pipe.c:83-98 -/
def writeLoop (s : Sys n) (p : Fin n) (w : Write) : Sys n :=
  if (w.i : Int) < w.n.toInt then
    if s.pipe.readopen = false ∨ s.killed p = true then release (ret s w (-1)) p .idle
    else if s.pipe.full then goto s p (.fullWakeup w 0)
    else
      match w.buf w.i with
      | none => goto s p (.writeWakeup w 0)
      | some ch =>
        goto { s with pipe := s.pipe.put ch, inserted := s.inserted ++ [(w.id, ch)] } p
          (.writing { w with i := w.i + 1 })
  else goto s p (.writeWakeup w 0)

/-- One iteration of the wait loop of `piperead`.
mirrors kernel/pipe.c:113-119 -/
def waitLoop (s : Sys n) (p : Fin n) (r : Read) : Sys n :=
  if s.pipe.empty ∧ s.pipe.writeopen = true then
    if s.killed p = true then release s p .idle else goto s p (.readSleep r)
  else goto s p (.reading { r with i := 0 })

/-- One iteration of the copy loop of `piperead`.
mirrors kernel/pipe.c:120-126 -/
def readLoop (s : Sys n) (p : Fin n) (r : Read) (ok : Bool) : Sys n :=
  if (r.i : Int) < r.n.toInt then
    if s.pipe.empty then goto s p (.readWakeup r 0)
    else
      let s := { s with
        pipe := { s.pipe with nread := s.pipe.nread + 1 }, removed := s.removed ++ [s.pipe.next] }
      if ok then goto s p (.reading { r with i := r.i + 1 }) else goto s p (.readWakeup r 0)
  else goto s p (.readWakeup r 0)

/-- The channel that `pipeclose` wakes. -/
def closeChan (writable : Bool) : Chan := if writable then .nread else .nwrite

/-- mirrors kernel/pipe.c:58-130 and kernel/proc.c:535-562 -/
def go (s : Sys n) (p : Fin n) (ok : Bool) : Option (Sys n) :=
  match s.pc p with
  | .idle => none
  | .writeAcquire w => acquire s p (.writing { w with start := w.i })
  | .writing w => some (writeLoop s p w)
  | .fullWakeup w j => wakeupOne s p .nread j (.fullWakeup w (j + 1)) (goto s p (.writeSleep w))
  | .writeSleep w => some (release s p (.writeDoze w))
  | .writeDoze w => some (goto { s with asleep := update s.asleep p (some .nwrite) } p (.writeAsleep w))
  | .writeAsleep w => if s.asleep p = none then some (goto s p (.writeAcquire w)) else none
  | .writeWakeup w j =>
    wakeupOne s p .nread j (.writeWakeup w (j + 1)) (release (ret s w w.i) p .idle)
  | .readAcquire r => acquire s p (.readWait r)
  | .readWait r => some (waitLoop s p r)
  | .readSleep r => some (release s p (.readDoze r))
  | .readDoze r => some (goto { s with asleep := update s.asleep p (some .nread) } p (.readAsleep r))
  | .readAsleep r => if s.asleep p = none then some (goto s p (.readAcquire r)) else none
  | .reading r => some (readLoop s p r ok)
  | .readWakeup r j => wakeupOne s p .nwrite j (.readWakeup r (j + 1)) (release s p .idle)
  | .closeAcquire b => acquire { s with pipe := s.pipe.shut b } p (.closeWakeup b 0)
  | .closeWakeup b j =>
    wakeupOne s p (closeChan b) j (.closeWakeup b (j + 1))
      (release { s with freed := !s.pipe.readopen && !s.pipe.writeopen } p .idle)

def idle (s : Sys n) (p : Fin n) : Bool :=
  match s.pc p with
  | .idle => true
  | _ => false

/-- mirrors kernel/proc.c:592-599 for the victim's slot -/
def kill (s : Sys n) (q : Fin n) : Option (Sys n) :=
  if (s.pc q).dozing then none
  else some { s with killed := update s.killed q true, asleep := update s.asleep q none }

def step (s : Sys n) : Lbl n → Option (Sys n)
  | .pipewrite p buf len =>
    if idle s p then
      some (goto { s with calls := s.calls + 1 } p (.writeAcquire ⟨buf, len, 0, s.calls, 0⟩))
    else none
  | .piperead p len => if idle s p then some (goto s p (.readAcquire ⟨len, 0⟩)) else none
  | .pipeclose p b => if idle s p then some (goto s p (.closeAcquire b)) else none
  | .go p ok => go s p ok
  | .kill q => kill s q
  | .renew p => if idle s p then some { s with killed := update s.killed p false } else none

/-- mirrors kernel/pipe.c:22-41: a new pipe, which nobody uses yet -/
structure Init (s : Sys n) : Prop where
  readopen : s.pipe.readopen = true
  writeopen : s.pipe.writeopen = true
  nwrite : s.pipe.nwrite = 0
  nread : s.pipe.nread = 0
  freed : s.freed = false
  lock : s.lock = none
  asleep : ∀ p, s.asleep p = none
  pc : ∀ p, s.pc p = .idle
  inserted : s.inserted = []
  removed : s.removed = []
  calls : s.calls = 0
  returned : s.returned = []

def lts (n : Nat) : LTS (Sys n) (Lbl n) where
  init := Init
  step s l s' := step s l = some s'

end
end Pipe
end Xv6
