import Xv6.Param

/-!
# The redo log (`kernel/log.c`)

The sequential half of the log: what `commit` and `recover_from_log` read
and write. The state holds the in-memory `struct log`, the disk and the
buffer cache. The cache is modelled by what its callers see of it: `bread`
returns the cached contents of a block, or reads the disk and caches it;
`bwrite` writes the buffer through. Which of the `NBUF` buffers holds a block
is the business of `kernel/bio.c` and decides nothing here; `Xv6.Bio.Blocks`
shows that the buffers behave so.

`log.lh` is the list of the first `n` entries of `block[]`; entries from `n`
on are never read. The on-disk header is a block whose word 0 is `n` and
whose word `i + 1` is `block[i]`; its words past `n` are whatever an earlier
transaction left there.

`writes` records the single-block writes in program order. A crash keeps a
prefix of them (`crashDisk`) and loses the rest of the state (`boot`).
-/
namespace Xv6.Log

/-- `struct log`, the disk, and the buffer cache. -/
structure St where
  start : Nat
  size : Nat
  outstanding : Int
  committing : Bool
  lh : List UInt32
  disk : Nat → Block
  cache : Nat → Option Block
  /-- references taken by `bpin` and not yet dropped by `bunpin` -/
  pins : Nat → Int
  /-- ghost: the disk writes issued so far -/
  writes : List (Nat × Block)

def upd {α : Type} (f : Nat → α) (b : Nat) (x : α) : Nat → α := fun c => if c = b then x else f c

/-- What a reader of block `b` sees: the buffer if there is one, else the disk. -/
def St.cached (s : St) (b : Nat) : Block := (s.cache b).getD (s.disk b)

/-- mirrors kernel/bio.c:90-103 -/
def bread (s : St) (b : Nat) : Block × St :=
  (s.cached b, { s with cache := upd s.cache b (some (s.cached b)) })

/-- Store `x` in the buffer of `b` and write it out.
mirrors kernel/bio.c:105-112 -/
def bwrite (s : St) (b : Nat) (x : Block) : St :=
  { s with
    cache := upd s.cache b (some x), disk := upd s.disk b x, writes := s.writes ++ [(b, x)] }

/-- mirrors kernel/bio.c:139-144 -/
def bpin (s : St) (b : Nat) : St := { s with pins := upd s.pins b (s.pins b + 1) }

/-- mirrors kernel/bio.c:146-151 -/
def bunpin (s : St) (b : Nat) : St := { s with pins := upd s.pins b (s.pins b - 1) }

/-- One pass of the loop of `install_trans`, for entry `tail`, block `b`. -/
def installPass (recovering : Bool) (tail : Nat) (b : UInt32) (s : St) : St :=
  let (lbuf, s) := bread s (s.start + tail + 1)
  let (_, s) := bread s b.toNat
  let s := bwrite s b.toNat lbuf
  if recovering then s else bunpin s b.toNat

/-- `for(; tail < log.lh.n; tail++)` over the entries from `tail` on: the
loop of `install_trans` and of `write_log`. -/
def passes (f : Nat → UInt32 → St → St) : Nat → List UInt32 → St → St
  | _, [], s => s
  | tail, b :: bs, s => passes f (tail + 1) bs (f tail b s)

/-- Copy committed blocks from the log to their home location.
mirrors kernel/log.c:67-83 -/
def installTrans (recovering : Bool) (s : St) : St := passes (installPass recovering) 0 s.lh s

/-- `lh->n` of a header block, a signed `int`. -/
def headN (x : Block) : Int := (x.word 0).toInt32.toInt

/-- The first `n` entries of `block[]` in a header block. -/
def headBlocks (x : Block) : List UInt32 := (List.range (headN x).toNat).map fun i => x.word (i + 1)

/-- mirrors kernel/log.c:85-97 -/
def readHead (s : St) : St :=
  let (buf, s) := bread s s.start
  { s with lh := headBlocks buf }

/-- `hb->block[i..]` from the in-memory header. -/
def putBlocks : Nat → List UInt32 → Block → Block
  | _, [], x => x
  | i, b :: bs, x => putBlocks (i + 1) bs (x.setWord (i + 1) b)

def putHead (lh : List UInt32) (x : Block) : Block :=
  putBlocks 0 lh (x.setWord 0 (UInt32.ofNat lh.length))

/-- Write the in-memory log header to disk: the point at which the current
transaction commits.
mirrors kernel/log.c:99-114 -/
def writeHead (s : St) : St :=
  let (buf, s) := bread s s.start
  bwrite s s.start (putHead s.lh buf)

/-- `log.lh.n = 0`. -/
def clearLh (s : St) : St := { s with lh := [] }

/-- mirrors kernel/log.c:116-123 -/
def recoverFromLog (s : St) : St :=
  let s := readHead s
  let s := installTrans true s
  let s := clearLh s
  writeHead s

/-- One pass of the loop of `write_log`, for entry `tail`, block `b`. -/
def writeLogPass (tail : Nat) (b : UInt32) (s : St) : St :=
  let (_, s) := bread s (s.start + tail + 1)
  let (from_, s) := bread s b.toNat
  bwrite s (s.start + tail + 1) from_

/-- Copy modified blocks from the cache to the log.
mirrors kernel/log.c:177-191 -/
def writeLog (s : St) : St := passes writeLogPass 0 s.lh s

/-- mirrors kernel/log.c:193-203 -/
def commit (s : St) : St :=
  if 0 < s.lh.length then
    let s := writeLog s
    let s := writeHead s
    let s := installTrans false s
    let s := clearLh s
    writeHead s
  else s

/-! ## Crashes -/

/-- The disk after the writes `ws`, in order. -/
def applyWrites (ws : List (Nat × Block)) (d : Nat → Block) : Nat → Block :=
  ws.foldl (fun d w => upd d w.1 w.2) d

/-- Memory after a reboot: empty cache, `log` zeroed by the loader and
`start`, `size` set from the superblock.
mirrors kernel/log.c:53-65 -/
def boot (start size : Nat) (d : Nat → Block) : St where
  start := start
  size := size
  outstanding := 0
  committing := false
  lh := []
  disk := d
  cache := fun _ => none
  pins := fun _ => 0
  writes := []

/-- The disk when the machine stops after `k` of the writes that `f` issues
from `s`. -/
def crashDisk (f : St → St) (s : St) (k : Nat) : Nat → Block :=
  applyWrites (((f s).writes.drop s.writes.length).take k) s.disk

/-- A recovery cut off after `k` writes. -/
def cutRecovery (start size : Nat) (d : Nat → Block) (k : Nat) : Nat → Block :=
  crashDisk recoverFromLog (boot start size d) k

/-- Block `b` belongs to the log area. -/
def InLog (start size b : Nat) : Prop := start ≤ b ∧ b < start + size

instance (start size b : Nat) : Decidable (InLog start size b) := inferInstanceAs (Decidable (_ ∧ _))

end Xv6.Log
