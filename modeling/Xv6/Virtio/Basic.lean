import Xv6.Core.LTS
import Xv6.Core.Prog
import Mathlib.Logic.Function.Basic

/-!
# The disk driver (`kernel/virtio_disk.c`)

`m` processes that call `virtio_disk_rw` on `n` buffers, the interrupt
handler, and the device. The driver runs under `disk.vdisk_lock`; the device
does not, so it may take a step between any two steps of the driver. The
steps of the driver end where memory is shared with the device: the entry of
the avail ring and `avail->idx` are written by two steps, and so are the
entry of the used ring and `used->idx` on the side of the device.

`virtio_disk_rw` is called by `bread` and `bwrite`, with the sleep-lock of the
buffer held (`held`). The addresses in the descriptors are symbolic (`Addr`).
The registers of the device are left out: the handler may run at any time.

Ghosts: the requests are numbered. `sent` has those that were given to the
device, `posted` the numbers in the order of the used ring, `seen` is how many
of the latter `virtio_disk_intr` has handled, and `stage` says how far a
request is.
-/
namespace Xv6.Virtio
open Function (update)

/-- mirrors kernel/virtio.h:50 and kernel/virtio.h:59-60 -/
def NUM : Nat := 8
def VRING_DESC_F_NEXT : UInt16 := 1
def VRING_DESC_F_WRITE : UInt16 := 2

/-- mirrors kernel/virtio.h:86-87 -/
def VIRTIO_BLK_T_IN : UInt32 := 0
def VIRTIO_BLK_T_OUT : UInt32 := 1

section
variable {m n : Nat} {D : Type}

/-- What a descriptor points to: `disk.ops[i]`, `b->data` or `disk.info[i].status`. -/
inductive Addr (n : Nat) where
  | null
  | ops (i : Nat)
  | data (b : Fin n)
  | status (i : Nat)
deriving DecidableEq, Repr

/-- mirrors kernel/virtio.h:53-58 -/
structure Desc (n : Nat) where
  addr : Addr n
  len : Nat
  flags : UInt16
  next : Nat
deriving DecidableEq, Repr

def Desc.zero : Desc n := ⟨.null, 0, 0, 0⟩

/-- mirrors kernel/virtio.h:92-96 -/
structure BlkReq where
  type : UInt32
  reserved : UInt32
  sector : UInt64
deriving DecidableEq, Repr

/-- mirrors kernel/virtio.h:63-68 and kernel/virtio.h:77-81;
`flags`, `unused` and the `len` of a used element are not used -/
structure Queue where
  idx : UInt16
  ring : Nat → Nat

/-- An element of `disk.info`. -/
structure Info (n : Nat) where
  b : Option (Fin n)
  status : UInt8
deriving DecidableEq, Repr

/-- mirrors kernel/virtio_disk.c:22-58 -/
structure Disk (n : Nat) where
  desc : Nat → Desc n
  avail : Queue
  used : Queue
  free : Nat → Bool
  /-- `used_idx` -/
  usedIdx : UInt16
  info : Nat → Info n
  ops : Nat → BlkReq

/-- mirrors kernel/buf.h:1-12, the fields that the driver uses -/
structure Buf (D : Type) where
  disk : Bool
  blockno : UInt32
  data : D

/-- mirrors kernel/virtio_disk.c:218 -/
def Buf.sector (b : Buf D) : UInt64 := (b.blockno * 2).toUInt64

inductive Chan (n : Nat) where
  /-- `&disk.free[0]` -/
  | free
  | buf (b : Fin n)
deriving DecidableEq, Repr

/-- A call `virtio_disk_rw(b, write)` that has its descriptors. -/
structure Call (n : Nat) where
  b : Fin n
  write : Bool
  idx0 : Nat
  idx1 : Nat
  idx2 : Nat
deriving DecidableEq, Repr

def Call.chain (c : Call n) : List Nat := [c.idx0, c.idx1, c.idx2]

/-- Where a process is. -/
inductive Pc (n : Nat) where
  | idle
  /-- before `acquire(&disk.vdisk_lock)`, at the start or at the end of the `sleep` for descriptors -/
  | acquire (b : Fin n) (write : Bool)
  /-- at the head of the allocation loop -/
  | alloc (b : Fin n) (write : Bool)
  /-- before the entry of the avail ring is written -/
  | ring (c : Call n)
  /-- before `avail->idx` is incremented -/
  | bump (c : Call n)
  /-- at the test of `b->disk`, with request number `k` sent -/
  | wait (c : Call n) (k : Nat)
  /-- in `sleep(b, &disk.vdisk_lock)` -/
  | resume (c : Call n) (k : Nat)
deriving DecidableEq, Repr

inductive Holder (m : Nat) where
  | proc (p : Fin m)
  | intr
deriving DecidableEq, Repr

/-- How far a request is: in the avail ring, taken by the device, done by the device, written to the used
ring, counted by `used->idx`, handled by `virtio_disk_intr`. -/
inductive Stage where
  | avail
  | taken
  | served
  | posting
  | used
  | handled
deriving DecidableEq, Repr

/-- The device: `next` is its place in the avail ring, `head k` what it has
read there for request `k`, `took` how many it has taken, and `posting` the
request whose entry of the used ring is written and not yet counted. -/
structure Device (D : Type) where
  next : UInt16
  head : Nat → Nat
  took : Nat
  posting : Option Nat
  platter : UInt64 → D

inductive Panic where
  | freeDesc1
  | freeDesc2
  | intrStatus
  /-- a null pointer in `info[id].b` -/
  | trap
  /-- more descriptors in a chain than there are -/
  | endless
  /-- the device finds something else than a request in the descriptors -/
  | device
deriving DecidableEq, Repr

structure Sys (m n : Nat) (D : Type) where
  disk : Disk n
  buf : Fin n → Buf D
  /-- `disk.vdisk_lock` -/
  lock : Option (Holder m)
  /-- the holders of the `b->lock` -/
  held : Fin n → Option (Fin m)
  asleep : Fin m → Option (Chan n)
  pc : Fin m → Pc n
  dev : Device D
  panic : Option Panic
  stage : Nat → Stage
  sent : List (Call n)
  posted : List Nat
  seen : Nat

abbrev M (m n : Nat) (D : Type) := Prog Panic (Sys m n D)

/-! ## The driver -/

def wakeup (chan : Chan n) : M m n D Unit :=
  Prog.modify fun s => { s with asleep := fun p => if s.asleep p = some chan then none else s.asleep p }

/-- Gives up `disk.vdisk_lock` and sleeps. -/
def sleep (p : Fin m) (chan : Chan n) (pc : Pc n) : M m n D Unit :=
  Prog.modify fun s =>
    { s with lock := none, asleep := update s.asleep p (some chan), pc := update s.pc p pc }

/-- mirrors kernel/virtio_disk.c:156-166 -/
def allocDesc : M m n D (Option Nat) := do
  let s ← Prog.get
  match (List.range NUM).find? s.disk.free with
  | none => pure none
  | some i => do
    Prog.modify fun s => { s with disk := { s.disk with free := update s.disk.free i false } }
    pure (some i)

/-- mirrors kernel/virtio_disk.c:169-182 -/
def freeDesc (i : Nat) : M m n D Unit := do
  let s ← Prog.get
  if NUM ≤ i then Prog.panic .freeDesc1
  else if s.disk.free i then Prog.panic .freeDesc2
  else do
    Prog.modify fun s =>
      { s with disk := { s.disk with desc := update s.disk.desc i .zero, free := update s.disk.free i true } }
    wakeup .free

/-- The loop of `free_chain`; there are no more than `NUM` passes, because
each of them makes a descriptor free.
mirrors kernel/virtio_disk.c:185-197 -/
def freeChain : Nat → Nat → M m n D Unit
  | 0, _ => Prog.panic .endless
  | passes + 1, i => do
    let s ← Prog.get
    let flag := (s.disk.desc i).flags
    let nxt := (s.disk.desc i).next
    freeDesc i
    if flag &&& VRING_DESC_F_NEXT ≠ 0 then freeChain passes nxt else pure ()

/-- mirrors kernel/virtio_disk.c:207-208 -/
def freeAll : List Nat → M m n D Unit
  | [] => pure ()
  | i :: is => do
    freeDesc i
    freeAll is

/-- One pass of the loop of `alloc3_desc`, with the descriptors `got` in the passes before.
mirrors kernel/virtio_disk.c:205-210 -/
def allocPass (got : List Nat) : M m n D (Option Nat) := do
  match ← allocDesc with
  | some i => pure (some i)
  | none => do
    freeAll got
    pure none

/-- mirrors kernel/virtio_disk.c:201-213 -/
def alloc3Desc : M m n D (Option (Nat × Nat × Nat)) := do
  match ← allocPass [] with
  | none => pure none
  | some i0 =>
    match ← allocPass [i0] with
    | none => pure none
    | some i1 =>
      match ← allocPass [i0, i1] with
      | none => pure none
      | some i2 => pure (some (i0, i1, i2))

/-- The command header of a call. -/
def header (s : Sys m n D) (c : Call n) : BlkReq :=
  ⟨if c.write then VIRTIO_BLK_T_OUT else VIRTIO_BLK_T_IN, 0, (s.buf c.b).sector⟩

/-- The three descriptors of a call. -/
def desc0 (c : Call n) : Desc n := ⟨.ops c.idx0, 16, VRING_DESC_F_NEXT, c.idx1⟩
def desc1 (c : Call n) : Desc n :=
  ⟨.data c.b, 1024, (if c.write then 0 else VRING_DESC_F_WRITE) ||| VRING_DESC_F_NEXT, c.idx2⟩
def desc2 (c : Call n) : Desc n := ⟨.status c.idx0, 1, VRING_DESC_F_WRITE, 0⟩

/-- Formats the three descriptors and records the buffer.
mirrors kernel/virtio_disk.c:238-269 -/
def format (c : Call n) : M m n D Unit :=
  Prog.modify fun s =>
    { s with
      disk := { s.disk with
        ops := update s.disk.ops c.idx0 (header s c)
        desc := update (update (update s.disk.desc c.idx0 (desc0 c)) c.idx1 (desc1 c)) c.idx2 (desc2 c)
        info := update s.disk.info c.idx0 ⟨some c.b, 0xff⟩ }
      buf := update s.buf c.b { s.buf c.b with disk := true } }

def goto (p : Fin m) (pc : Pc n) : M m n D Unit :=
  Prog.modify fun s => { s with pc := update s.pc p pc }

/-- One pass of the allocation loop.
mirrors kernel/virtio_disk.c:228-269 -/
def allocStep (p : Fin m) (b : Fin n) (write : Bool) : M m n D Unit := do
  match ← alloc3Desc with
  | none => sleep p .free (.acquire b write)
  | some (i0, i1, i2) => do
    format ⟨b, write, i0, i1, i2⟩
    goto p (.ring ⟨b, write, i0, i1, i2⟩)

/-- mirrors kernel/virtio_disk.c:272 -/
def ringStep (p : Fin m) (c : Call n) : M m n D Unit := do
  Prog.modify fun s =>
    { s with disk := { s.disk with
        avail := { s.disk.avail with
          ring := update s.disk.avail.ring (s.disk.avail.idx.toNat % NUM) c.idx0 } } }
  goto p (.bump c)

/-- mirrors kernel/virtio_disk.c:277 -/
def bumpStep (p : Fin m) (c : Call n) : M m n D Unit := do
  let s ← Prog.get
  Prog.modify fun s =>
    { s with
      disk := { s.disk with avail := { s.disk.avail with idx := s.disk.avail.idx + 1 } }
      sent := s.sent ++ [c] }
  goto p (.wait c s.sent.length)

/-- mirrors kernel/virtio_disk.c:284-291 -/
def waitStep (p : Fin m) (c : Call n) (k : Nat) : M m n D Unit := do
  let s ← Prog.get
  if (s.buf c.b).disk then sleep p (.buf c.b) (.resume c k)
  else do
    Prog.modify fun s =>
      { s with disk := { s.disk with
          info := update s.disk.info c.idx0 { s.disk.info c.idx0 with b := none } } }
    freeChain (NUM + 1) c.idx0
    Prog.modify fun s => { s with lock := none, pc := update s.pc p .idle }

/-- The `id` that the next pass of `virtio_disk_intr` reads.
mirrors kernel/virtio_disk.c:314 -/
def nextId (s : Sys m n D) : Nat := s.disk.used.ring (s.disk.usedIdx.toNat % NUM)

/-- One pass of the loop.
mirrors kernel/virtio_disk.c:312-324 -/
def intrPass : M m n D Unit := do
  let s ← Prog.get
  if (s.disk.info (nextId s)).status ≠ 0 then Prog.panic .intrStatus
  else
    match (s.disk.info (nextId s)).b with
    | none => Prog.panic .trap
    | some b => do
      Prog.modify fun s => { s with buf := update s.buf b { s.buf b with disk := false } }
      wakeup (.buf b)
      Prog.modify fun s =>
        { s with
          disk := { s.disk with usedIdx := s.disk.usedIdx + 1 }
          seen := s.seen + 1
          stage := fun k => if s.posted[s.seen]? = some k then .handled else s.stage k }

/-! ## The device -/

/-- What the device does for a chain. -/
structure Order (n : Nat) where
  op : BlkReq
  b : Fin n
  status : Nat
deriving DecidableEq, Repr

/-- The device follows the chain of a head: a header to read, a block to read (or to write, for a read of the
disk), and a status byte to write. -/
def fetch (d : Disk n) (head : Nat) : Option (Order n) :=
  let d0 := d.desc head
  let d1 := d.desc d0.next
  let d2 := d.desc d1.next
  match d0.addr, d1.addr, d2.addr with
  | .ops i, .data b, .status j =>
    let write := decide ((d.ops i).type = VIRTIO_BLK_T_OUT)
    if d0.len = 16 ∧ d0.flags = VRING_DESC_F_NEXT ∧ d1.len = 1024 ∧ d2.len = 1 ∧
      d2.flags = VRING_DESC_F_WRITE ∧
        d1.flags = (if write then 0 else VRING_DESC_F_WRITE) ||| VRING_DESC_F_NEXT then
      some ⟨d.ops i, b, j⟩
    else none
  | _, _, _ => none

/-- The transfer, and the status 0. -/
def serve (k : Nat) : M m n D Unit := do
  let s ← Prog.get
  match fetch s.disk (s.dev.head k) with
  | none => Prog.panic .device
  | some o => do
    if o.op.type = VIRTIO_BLK_T_OUT then
      Prog.modify fun s =>
        { s with dev := { s.dev with platter := update s.dev.platter o.op.sector (s.buf o.b).data } }
    else
      Prog.modify fun s =>
        { s with buf := update s.buf o.b { s.buf o.b with data := s.dev.platter o.op.sector } }
    Prog.modify fun s =>
      { s with
        disk := { s.disk with info := update s.disk.info o.status { s.disk.info o.status with status := 0 } }
        stage := update s.stage k .served }

/-- The device reads the next entry of the avail ring. -/
def take : M m n D Unit :=
  Prog.modify fun s =>
    { s with
      dev := { s.dev with
        next := s.dev.next + 1
        head := update s.dev.head s.dev.took (s.disk.avail.ring (s.dev.next.toNat % NUM))
        took := s.dev.took + 1 }
      stage := update s.stage s.dev.took .taken }

/-- The device writes an entry of the used ring. -/
def post (k : Nat) : M m n D Unit :=
  Prog.modify fun s =>
    { s with
      disk := { s.disk with
        used := { s.disk.used with
          ring := update s.disk.used.ring (s.disk.used.idx.toNat % NUM) (s.dev.head k) } }
      dev := { s.dev with posting := some k }
      stage := update s.stage k .posting }

/-- The device counts the entry. -/
def publish (k : Nat) : M m n D Unit :=
  Prog.modify fun s =>
    { s with
      disk := { s.disk with used := { s.disk.used with idx := s.disk.used.idx + 1 } }
      dev := { s.dev with posting := none }
      stage := update s.stage k .used
      posted := s.posted ++ [k] }

/-! ## The steps -/

inductive Lbl (m n : Nat) (D : Type) where
  /-- the caller gets and gives back the sleep-lock of a buffer, and changes its data in between -/
  | acquiresleep (p : Fin m) (b : Fin n)
  | releasesleep (p : Fin m) (b : Fin n)
  | modify (p : Fin m) (b : Fin n) (blockno : UInt32) (d : D)
  | rw (p : Fin m) (b : Fin n) (write : Bool)
  /-- the next step of `p`'s call -/
  | go (p : Fin m)
  | kill (p : Fin m)
  | intr
  /-- the next step of the handler -/
  | intrGo
  | take
  | serve (k : Nat)
  | post (k : Nat)
  | publish

def exec (f : M m n D Unit) (s : Sys m n D) : Sys m n D :=
  match f s with
  | .ok (_, s') => s'
  | .error e => { s with panic := some e }

/-- The step of a process that has to get `disk.vdisk_lock`, if it is not asleep. -/
def acquire (s : Sys m n D) (p : Fin m) (pc : Pc n) : Option (Sys m n D) :=
  if s.lock = none ∧ s.asleep p = none then
    some { s with lock := some (.proc p), pc := update s.pc p pc }
  else none

def go (s : Sys m n D) (p : Fin m) : Option (Sys m n D) :=
  match s.pc p with
  | .idle => none
  | .acquire b write => acquire s p (.alloc b write)
  | .alloc b write => some (exec (allocStep p b write) s)
  | .ring c => some (exec (ringStep p c) s)
  | .bump c => some (exec (bumpStep p c) s)
  | .wait c k => some (exec (waitStep p c k) s)
  | .resume c k => acquire s p (.wait c k)

/-- The end of the handler, or one pass of its loop. -/
def intrGo (s : Sys m n D) : Sys m n D :=
  if s.disk.usedIdx = s.disk.used.idx then { s with lock := none } else exec intrPass s

def step (s : Sys m n D) (l : Lbl m n D) : Option (Sys m n D) :=
  if s.panic = none then
    match l with
    | .acquiresleep p b =>
      if s.pc p = .idle ∧ s.held b = none then some { s with held := update s.held b (some p) } else none
    | .releasesleep p b =>
      if s.pc p = .idle ∧ s.held b = some p then some { s with held := update s.held b none } else none
    | .modify p b blockno d =>
      if s.pc p = .idle ∧ s.held b = some p then
        some { s with buf := update s.buf b { s.buf b with blockno := blockno, data := d } }
      else none
    | .rw p b write =>
      if s.pc p = .idle ∧ s.held b = some p then
        some { s with pc := update s.pc p (.acquire b write) }
      else none
    | .go p => go s p
    | .kill p => some { s with asleep := update s.asleep p none }
    | .intr => if s.lock = none then some { s with lock := some .intr } else none
    | .intrGo => if s.lock = some .intr then some (intrGo s) else none
    | .take => if s.dev.next ≠ s.disk.avail.idx then some (exec take s) else none
    | .serve k => if s.stage k = .taken then some (exec (serve k) s) else none
    | .post k => if s.stage k = .served ∧ s.dev.posting = none then some (exec (post k) s) else none
    | .publish =>
      match s.dev.posting with
      | none => none
      | some k => some (exec (publish k) s)
  else none

/-- After `virtio_disk_init`. -/
structure Init (s : Sys m n D) : Prop where
  free : ∀ i, i < NUM → s.disk.free i = true
  avail : s.disk.avail.idx = 0
  used : s.disk.used.idx = 0
  usedIdx : s.disk.usedIdx = 0
  lock : s.lock = none
  pc : ∀ p, s.pc p = .idle
  next : s.dev.next = 0
  took : s.dev.took = 0
  posting : s.dev.posting = none
  panic : s.panic = none
  stage : ∀ k, s.stage k = .avail
  sent : s.sent = []
  posted : s.posted = []
  seen : s.seen = 0

def lts (m n : Nat) (D : Type) : LTS (Sys m n D) (Lbl m n D) where
  init := Init
  step s l s' := step s l = some s'

end
end Xv6.Virtio
