import Xv6.Core.Links
import Xv6.Core.LTS
import Xv6.Param

/-!
# The buffer cache (`kernel/bio.c`)

`n` buffers and `m` processes. A call of `bread` or `brelse` runs in the
steps that its locks make of it: the section of `bget` under `bcache.lock`,
`acquiresleep`, and the rest of `bread` with the sleep-lock; `releasesleep`,
and the section of `brelse` under `bcache.lock`. A process that is in no call
(`Pc.idle`) may change the data of the buffers it has locked.

The disk is a map from block numbers to contents, read and written one block
at a time by `virtio_disk_rw`; the contents are of any type `D`.

Ghosts: `pins` counts `bpin` minus `bunpin`; `content` has what the holders of
buffers last left in each block; `freed` the time at which `brelse` last
brought a buffer's `refcnt` to 0, where 0 is never.
-/
namespace Xv6.Bio
open Function (update)

/-- mirrors kernel/buf.h:1-12 and kernel/sleeplock.h:1-10; `lock` is the process that has the sleep-lock -/
structure Buf (m : Nat) (D : Type) where
  valid : Bool
  dev : UInt32
  blockno : UInt32
  refcnt : UInt32
  lock : Option (Fin m)
  data : D

/-- Where a process is. -/
inductive Pc (n : Nat) where
  | idle
  /-- in `bget`, before `acquiresleep` -/
  | lock (b : Fin n) (blockno : UInt32)
  /-- in `bread`, back from `bget` -/
  | fill (b : Fin n) (blockno : UInt32)
  /-- in `brelse`, after `releasesleep` -/
  | drop (b : Fin n)
  deriving DecidableEq

inductive Panic where
  | noBuffers | bwrite | brelse
  deriving DecidableEq, Repr

structure Sys (m n : Nat) (D : Type) where
  buf : Fin n → Buf m D
  links : Links (Fin n)
  disk : UInt32 → D
  pc : Fin m → Pc n
  panic : Option Panic
  pins : Fin n → Nat
  content : UInt32 → D
  time : Nat
  freed : Fin n → Nat

inductive Lbl (m n : Nat) (D : Type) where
  | bread (p : Fin m) (blockno : UInt32)
  /-- the next step of a call -/
  | go (p : Fin m)
  | modify (p : Fin m) (b : Fin n) (d : D)
  | bwrite (p : Fin m) (b : Fin n)
  | brelse (p : Fin m) (b : Fin n)
  | bpin (p : Fin m) (b : Fin n)
  | bunpin (p : Fin m) (b : Fin n)

section
variable {m n : Nat} {D : Type}

/-- The links that `binit` makes.
mirrors kernel/bio.c:36-53 -/
def binit (s : Links (Fin n)) : Links (Fin n) := (List.finRange n).foldl Links.pushFront s.clear

/-- `b->dev == dev && b->blockno == blockno` -/
def Sys.holds (s : Sys m n D) (dev blockno : UInt32) (b : Fin n) : Bool :=
  (s.buf b).dev == dev && (s.buf b).blockno == blockno

/-- `b->refcnt == 0` -/
def Sys.unused (s : Sys m n D) (b : Fin n) : Bool := (s.buf b).refcnt == 0

/-- Up to `acquiresleep`.
mirrors kernel/bio.c:55-89 -/
def bget (s : Sys m n D) (p : Fin m) (dev blockno : UInt32) : Option (Sys m n D) :=
  match Links.walk s.links.next (s.holds dev blockno) n (s.links.next none) with
  | .found b =>
    some { s with
      buf := update s.buf b { s.buf b with refcnt := (s.buf b).refcnt + 1 }
      pc := update s.pc p (.lock b blockno) }
  | .done =>
    match Links.walk s.links.prev s.unused n (s.links.prev none) with
    | .found b =>
      some { s with
        buf := update s.buf b { s.buf b with dev := dev, blockno := blockno, valid := false, refcnt := 1 }
        pc := update s.pc p (.lock b blockno) }
    | .done => some { s with panic := some .noBuffers }
    | .stuck => none
  | .stuck => none

/-- The process has the sleep-lock, or waits. -/
def acquiresleep (s : Sys m n D) (p : Fin m) (b : Fin n) (blockno : UInt32) : Option (Sys m n D) :=
  if (s.buf b).lock = none then
    some { s with
      buf := update s.buf b { s.buf b with lock := some p }
      pc := update s.pc p (.fill b blockno) }
  else none

/-- The rest of `bread`.
mirrors kernel/bio.c:97-102 -/
def fill (s : Sys m n D) (p : Fin m) (b : Fin n) : Sys m n D :=
  { s with
    buf := if (s.buf b).valid then s.buf
      else update s.buf b { s.buf b with data := s.disk (s.buf b).blockno, valid := true }
    pc := update s.pc p .idle }

/-- The holder writes to `b->data`. -/
def modify (s : Sys m n D) (b : Fin n) (d : D) : Sys m n D :=
  { s with
    buf := update s.buf b { s.buf b with data := d }
    content := update s.content (s.buf b).blockno d }

/-- mirrors kernel/bio.c:105-112 -/
def bwrite (s : Sys m n D) (p : Fin m) (b : Fin n) : Sys m n D :=
  if (s.buf b).lock = some p then { s with disk := update s.disk (s.buf b).blockno (s.buf b).data }
  else { s with panic := some .bwrite }

/-- Up to `releasesleep`.
mirrors kernel/bio.c:114-122 -/
def brelse (s : Sys m n D) (p : Fin m) (b : Fin n) : Sys m n D :=
  if (s.buf b).lock = some p then
    { s with
      buf := update s.buf b { s.buf b with lock := none }
      pc := update s.pc p (.drop b) }
  else { s with panic := some .brelse }

/-- The rest of `brelse`.
mirrors kernel/bio.c:124-136 -/
def drop (s : Sys m n D) (p : Fin m) (b : Fin n) : Sys m n D :=
  let refcnt := (s.buf b).refcnt - 1
  let s := { s with
    buf := update s.buf b { s.buf b with refcnt := refcnt }
    pc := update s.pc p .idle }
  if refcnt = 0 then
    { s with
      links := (s.links.unlink b).pushFront b
      time := s.time + 1
      freed := update s.freed b (s.time + 1) }
  else s

/-- mirrors kernel/bio.c:139-144 -/
def bpin (s : Sys m n D) (b : Fin n) : Sys m n D :=
  { s with
    buf := update s.buf b { s.buf b with refcnt := (s.buf b).refcnt + 1 }
    pins := update s.pins b (s.pins b + 1) }

/-- mirrors kernel/bio.c:146-151 -/
def bunpin (s : Sys m n D) (b : Fin n) : Sys m n D :=
  { s with
    buf := update s.buf b { s.buf b with refcnt := (s.buf b).refcnt - 1 }
    pins := update s.pins b (s.pins b - 1) }

/-- The next step of the call that `p` is in. -/
def go (s : Sys m n D) (p : Fin m) : Option (Sys m n D) :=
  match s.pc p with
  | .idle => none
  | .lock b blockno => acquiresleep s p b blockno
  | .fill b _ => some (fill s p b)
  | .drop b => some (drop s p b)

def step (s : Sys m n D) (l : Lbl m n D) : Option (Sys m n D) :=
  if s.panic = none then
    match l with
    | .go p => go s p
    | .bread p blockno => if s.pc p = .idle then bget s p ROOTDEV blockno else none
    | .modify p b d => if s.pc p = .idle ∧ (s.buf b).lock = some p then some (modify s b d) else none
    | .bwrite p b => if s.pc p = .idle then some (bwrite s p b) else none
    | .brelse p b => if s.pc p = .idle then some (brelse s p b) else none
    | .bpin p b => if s.pc p = .idle then some (bpin s b) else none
    | .bunpin p b => if s.pc p = .idle then some (bunpin s b) else none
  else none

/-- After `binit`: the buffers are zero. -/
structure Init (s : Sys m n D) : Prop where
  links : ∃ links, s.links = binit links
  valid : ∀ b, (s.buf b).valid = false
  dev : ∀ b, (s.buf b).dev = 0
  refcnt : ∀ b, (s.buf b).refcnt = 0
  lock : ∀ b, (s.buf b).lock = none
  pc : ∀ p, s.pc p = .idle
  panic : s.panic = none
  pins : ∀ b, s.pins b = 0
  content : s.content = s.disk
  freed : ∀ b, s.freed b = 0

def lts (m n : Nat) (D : Type) : LTS (Sys m n D) (Lbl m n D) where
  init := Init
  step s l s' := step s l = some s'

end
end Xv6.Bio
