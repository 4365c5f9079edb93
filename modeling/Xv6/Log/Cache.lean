import Xv6.Bio.Coherence
import Xv6.Log.Group

/-!
# The log over the buffer cache (`kernel/log.c`, `kernel/bio.c`)

`Log.Group` models the log with an abstract cache. Here its processes work on
the buffers of `Bio`: `log_write` pins a buffer, and `commit` runs step by step
with calls of `bread`, `bwrite`, `brelse` and `bunpin`, so that other
processes read blocks and recycle buffers while it is under way.

A process that calls `bread` in `commit` goes on with the buffer that the call
returns (`CommitPc.got`). `begin_op` waits by taking no step.

Ghosts: `last` has what the last operation that modified a block left in it,
`unlogged` tells that a buffer has been modified and not yet given to
`log_write`, and `installed` how many of the blocks in `lh` the commit under
way has installed and unpinned.
-/
namespace Xv6.LogCache
open Function (update)
open Log (InLog Panic)

/-- The loops of `write_log` and `install_trans`. -/
inductive Loop where
  | writeLog | install
  deriving DecidableEq

/-- Where a process is in `commit`; `lb` is the buffer of the log block, `hb` that of the home block. -/
inductive CommitPc (n : Nat) where
  | check
  /-- at the test of a loop, then in `bread` of the log block -/
  | log (loop : Loop) (tail : Nat)
  /-- in `bread` of the home block -/
  | home (loop : Loop) (tail : Nat) (lb : Fin n)
  | copy (loop : Loop) (tail : Nat) (lb hb : Fin n)
  | write (loop : Loop) (tail : Nat) (lb hb : Fin n)
  | unpin (tail : Nat) (lb hb : Fin n)
  /-- before the first and the second `brelse` -/
  | rel1 (loop : Loop) (tail : Nat) (lb hb : Fin n)
  | rel2 (loop : Loop) (tail : Nat) (b : Fin n)
  /-- `write_head`; `last`: the second time -/
  | head (last : Bool)
  | headPut (last : Bool) (b : Fin n)
  | headWrite (last : Bool) (b : Fin n)
  | headRel (last : Bool) (b : Fin n)
  | clear
  | finish
  deriving DecidableEq

/-- Where a process is: outside and inside an operation, or in `commit`. -/
inductive OpPc (n : Nat) where
  | out
  | op
  | commit (c : CommitPc n)
  deriving DecidableEq

structure Sys (m n : Nat) where
  cache : Bio.Sys m n Block
  start : Nat
  size : Nat
  outstanding : Int
  committing : Bool
  lh : List UInt32
  op : Fin m → OpPc n
  panic : Option Panic
  last : UInt32 → Block
  unlogged : Fin n → Bool
  installed : Nat

inductive Lbl (m n : Nat) where
  | bread (p : Fin m) (blockno : UInt32)
  /-- the next step of a call of `bread` or `brelse` -/
  | go (p : Fin m)
  | modify (p : Fin m) (b : Fin n) (d : Block)
  | brelse (p : Fin m) (b : Fin n)
  | beginOp (p : Fin m)
  | logWrite (p : Fin m) (b : Fin n)
  | endOp (p : Fin m)
  /-- the next step of `commit` -/
  | commit (p : Fin m)

/-- What `commit` does next. -/
inductive Act (m n : Nat) where
  | bread (blockno : UInt32)
  | cache (l : Bio.Lbl m n Block) (next : CommitPc n)
  | goto (next : CommitPc n)
  | clear
  | finish

section
variable {m n : Nat}

/-- `log.start + tail + 1` -/
def Sys.logBlock (s : Sys m n) (tail : Nat) : UInt32 := UInt32.ofNat (s.start + tail + 1)

/-- mirrors kernel/log.c:67-83, 99-114 and 177-203 -/
def Sys.code (s : Sys m n) (p : Fin m) : CommitPc n → Act m n
  | .check => .goto (if 0 < s.lh.length then .log .writeLog 0 else .finish)
  | .log loop tail =>
    if tail < s.lh.length then .bread (s.logBlock tail)
    else .goto (match loop with
      | .writeLog => .head false
      | .install => .clear)
  | .home _ tail _ => .bread (s.lh.getD tail 0)
  | .copy .writeLog tail lb hb => .cache (.modify p lb (s.cache.buf hb).data) (.write .writeLog tail lb hb)
  | .copy .install tail lb hb => .cache (.modify p hb (s.cache.buf lb).data) (.write .install tail lb hb)
  | .write .writeLog tail lb hb => .cache (.bwrite p lb) (.rel1 .writeLog tail lb hb)
  | .write .install tail lb hb => .cache (.bwrite p hb) (.unpin tail lb hb)
  | .unpin tail lb hb => .cache (.bunpin p hb) (.rel1 .install tail lb hb)
  | .rel1 .writeLog tail lb hb => .cache (.brelse p hb) (.rel2 .writeLog tail lb)
  | .rel1 .install tail lb hb => .cache (.brelse p lb) (.rel2 .install tail hb)
  | .rel2 loop tail b => .cache (.brelse p b) (.log loop (tail + 1))
  | .head _ => .bread (UInt32.ofNat s.start)
  | .headPut last b => .cache (.modify p b (Log.putHead s.lh (s.cache.buf b).data)) (.headWrite last b)
  | .headWrite last b => .cache (.bwrite p b) (.headRel last b)
  | .headRel last b => .cache (.brelse p b) (if last then .finish else .log .install 0)
  | .clear => .clear
  | .finish => .finish

/-- `bread` has returned `b`. -/
def CommitPc.got (b : Fin n) : CommitPc n → CommitPc n
  | .log loop tail => .home loop tail b
  | .home loop tail lb => .copy loop tail lb b
  | .head last => .headPut last b
  | c => c

/-- The place of a process whose call goes on from `pc`. -/
def OpPc.back (pc : Bio.Pc n) : OpPc n → OpPc n
  | .commit c =>
    match pc with
    | .fill b _ => .commit (c.got b)
    | _ => .commit c
  | o => o

def CommitPc.unpins : CommitPc n → Nat
  | .unpin .. => 1
  | _ => 0

/-- A step of `commit`. -/
def exec (s : Sys m n) (p : Fin m) (c : CommitPc n) : Option (Sys m n) :=
  match s.code p c with
  | .bread k => (Bio.step s.cache (.bread p k)).map fun cache => { s with cache := cache }
  | .cache l next =>
    (Bio.step s.cache l).map fun cache =>
      { s with cache := cache, op := update s.op p (.commit next), installed := s.installed + c.unpins }
  | .goto next => some { s with op := update s.op p (.commit next) }
  | .clear => some { s with lh := [], installed := 0, op := update s.op p (.commit (.head true)) }
  | .finish => some { s with committing := false, op := update s.op p .out }

/-- mirrors kernel/log.c:126-142 -/
def beginOp (s : Sys m n) (p : Fin m) : Option (Sys m n) :=
  if s.committing ∨ (s.lh.length : Int) + (s.outstanding + 1) * MAXOPBLOCKS > LOGSIZE then none
  else some { s with outstanding := s.outstanding + 1, op := update s.op p .op }

/-- mirrors kernel/log.c:214-235 -/
def logWrite (s : Sys m n) (p : Fin m) (b : Fin n) : Option (Sys m n) :=
  if LOGSIZE ≤ s.lh.length ∨ (s.size : Int) - 1 ≤ s.lh.length then some { s with panic := some .tooBig }
  else if s.outstanding < 1 then some { s with panic := some .outsideTrans }
  else if (s.cache.buf b).blockno ∈ s.lh then some { s with unlogged := update s.unlogged b false }
  else (Bio.step s.cache (.bpin p b)).map fun cache =>
    { s with
      cache := cache, lh := s.lh ++ [(s.cache.buf b).blockno]
      unlogged := update s.unlogged b false }

/-- mirrors kernel/log.c:146-169 -/
def endOp (s : Sys m n) (p : Fin m) : Sys m n :=
  if s.committing then { s with outstanding := s.outstanding - 1, panic := some .logCommitting }
  else if s.outstanding - 1 = 0 then
    { s with outstanding := s.outstanding - 1, committing := true, op := update s.op p (.commit .check) }
  else { s with outstanding := s.outstanding - 1, op := update s.op p .out }

def OpPc.inCommit : OpPc n → Bool
  | .commit _ => true
  | _ => false

def step (s : Sys m n) (l : Lbl m n) : Option (Sys m n) :=
  if s.panic = none ∧ s.cache.panic = none then
    match l with
    | .bread p k =>
      if (s.op p).inCommit then none
      else (Bio.step s.cache (.bread p k)).map fun cache => { s with cache := cache }
    | .go p =>
      (Bio.step s.cache (.go p)).map fun cache =>
        { s with cache := cache, op := update s.op p ((s.op p).back (s.cache.pc p)) }
    | .modify p b d =>
      if s.op p = .op then
        (Bio.step s.cache (.modify p b d)).map fun cache =>
          { s with
            cache := cache, last := update s.last (s.cache.buf b).blockno d
            unlogged := update s.unlogged b true }
      else none
    | .brelse p b =>
      if (s.op p).inCommit then none
      else (Bio.step s.cache (.brelse p b)).map fun cache => { s with cache := cache }
    | .beginOp p => if s.op p = .out ∧ s.cache.pc p = .idle then beginOp s p else none
    | .logWrite p b => if (s.op p).inCommit = false ∧ s.cache.pc p = .idle then logWrite s p b else none
    | .endOp p => if s.op p = .op ∧ s.cache.pc p = .idle then some (endOp s p) else none
    | .commit p =>
      if s.cache.pc p = .idle then
        match s.op p with
        | .commit c => exec s p c
        | _ => none
      else none
  else none

/-- After `initlog`: the log is empty, nobody is in an operation, and the cache is one that has been used
without pins and is used by nobody now. `log.start` and `log.size` are of type `int`. -/
structure Init (s : Sys m n) : Prop where
  cache : ((Bio.lts m n Block).only fun s l => Bio.Writes s l ∧ Bio.Counts s l).Reachable s.cache
  pins : ∀ b, s.cache.pins b = 0
  lock : ∀ b, (s.cache.buf b).lock = none
  pc : ∀ p, s.cache.pc p = .idle
  start : s.start < 2 ^ 31
  size : s.size < 2 ^ 31
  outstanding : s.outstanding = 0
  committing : s.committing = false
  lh : s.lh = []
  op : ∀ p, s.op p = .out
  last : s.last = s.cache.content
  unlogged : ∀ b, s.unlogged b = false
  installed : s.installed = 0

def lts (m n : Nat) : LTS (Sys m n) (Lbl m n) where
  init := Init
  step s l s' := step s l = some s'

/-- Every modification of a buffer is followed by `log_write` before `brelse`. -/
def Logged (s : Sys m n) : Lbl m n → Prop
  | .brelse p b => (s.cache.buf b).lock = some p → s.unlogged b = false
  | _ => True

/-- The caller of `log_write` has the buffer, and operations leave the blocks of the log alone. -/
def Proper (s : Sys m n) : Lbl m n → Prop
  | .modify _ b _ => ¬InLog s.start s.size (s.cache.buf b).blockno.toNat
  | .logWrite p b => (s.cache.buf b).lock = some p ∧ ¬InLog s.start s.size (s.cache.buf b).blockno.toNat
  | _ => True

end
end Xv6.LogCache
