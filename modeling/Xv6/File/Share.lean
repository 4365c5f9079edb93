import Xv6.Core.LTS
import Xv6.Core.Tiles
import Xv6.File.Basic
import Xv6.Fs.Content

/-!
# Processes that share an open file (`filewrite` and `fileread` on one inode)

`f->off` has no lock of its own: it is read and moved while the lock of the
inode is held. A step is what a call does between `ilock` and `iunlock`: one
chunk of a `filewrite`, or a whole `fileread`. Between two steps the rest of
the system may do anything that leaves the contents of this inode alone
(`Lbl.other`).

Ghosts: the calls are numbered; `log` has the transfers in the order in which
they were made, `done` the calls of `filewrite` that have returned, `off0` and
`old` the offset and the contents at the beginning.

* `inv_inductive`: the transfers tile the file from `off0` on.
* `shared_offset`: no update is lost.
-/
namespace Xv6.File
namespace Share
open Function (update update_self update_of_ne)

/-- mirrors kernel/file.c:155 -/
def maxChunk : Nat := ((MAXOPBLOCKS - 1 - 1 - 2) / 2) * BSIZE

/-- A call `filewrite(f, addr, n)` with `i` bytes written. `src k` is the byte at `addr + k`, and `room` how
many of them are mapped, if not all. -/
structure Write where
  src : Nat → UInt8
  room : Option Nat
  n : Int32
  i : Nat
  call : Nat

/-- `n1`, with `i < n`.
mirrors kernel/file.c:158-160 -/
def Write.n1 (w : Write) : Nat := min (w.n.toInt - w.i).toNat maxChunk

inductive Pc where
  | idle
  | writing (w : Write)

/-- A transfer of `bytes` at `start` by a call of a process. -/
structure Xfer (ι : Type) where
  proc : ι
  call : Nat
  write : Bool
  start : Nat
  bytes : List UInt8

/-- A call of `filewrite` that has returned `ret`. -/
structure Done where
  w : Write
  ret : Int

structure Sys (ι : Type) where
  fs : Fs.St
  f : File
  pc : ι → Pc
  calls : Nat
  log : List (Xfer ι)
  done : List Done
  off0 : Nat
  old : List UInt8

section
variable {ι : Type} [DecidableEq ι] (sb : Fs.Superblock)

/-- mirrors kernel/file.c:163-166 -/
def lockedWrite (f : File) (w : Write) : Fs.M Int := do
  Fs.ilock f.ip
  let r ← Fs.writei sb f.ip (fun k => w.src (w.i + k)) (w.room.map (· - w.i)) f.off (UInt32.ofNat w.n1)
  Fs.iunlock f.ip
  pure r

/-- mirrors kernel/file.c:121-124 -/
def lockedRead (f : File) (room : Option Nat) (n : Int32) : Fs.M (Int × List UInt8) := do
  Fs.ilock f.ip
  let r ← Fs.readi sb f.ip room f.off n.toUInt32
  Fs.iunlock f.ip
  pure r

/-- `if (r > 0) f->off += r`, with the transfer recorded. -/
def transfer (s : Sys ι) (p : ι) (call : Nat) (write : Bool) (r : Int) (bytes : List UInt8)
    (fs : Fs.St) : Sys ι :=
  if 0 < r then
    { s with
      fs := fs
      f := { s.f with off := s.f.off + UInt32.ofNat r.toNat }
      log := s.log ++ [⟨p, call, write, s.f.off.toNat, bytes⟩] }
  else { s with fs := fs }

def ret (s : Sys ι) (p : ι) (w : Write) (v : Int) : Sys ι :=
  { s with pc := update s.pc p .idle, done := s.done ++ [⟨w, v⟩] }

/-- One pass of the loop of `filewrite`.
mirrors kernel/file.c:157-174 -/
def chunk (s : Sys ι) (p : ι) (w : Write) : Option (Sys ι) :=
  match lockedWrite sb s.f w s.fs with
  | .error _ => none
  | .ok (r, fs) =>
    let s' := transfer s p w.call true r ((List.range r.toNat).map fun k => w.src (w.i + k)) fs
    if r ≠ w.n1 then some (ret s' p w (-1))
    else some { s' with pc := update s'.pc p (.writing { w with i := w.i + r.toNat }) }

/-- mirrors kernel/file.c:106-130, for an inode -/
def fileread (s : Sys ι) (p : ι) (room : Option Nat) (n : Int32) : Option (Sys ι) :=
  if s.f.readable = false then some s
  else
    match lockedRead sb s.f room n s.fs with
    | .error _ => none
    | .ok (r, fs) => some { transfer s p s.calls false r.1 r.2 fs with calls := s.calls + 1 }

inductive Lbl (ι : Type) where
  | filewrite (p : ι) (src : Nat → UInt8) (room : Option Nat) (n : Int32)
  /-- the next pass of `p`'s call, or its end -/
  | go (p : ι)
  | fileread (p : ι) (room : Option Nat) (n : Int32)
  /-- other calls, on other files and on the free blocks -/
  | other (fs : Fs.St)

/-- The start of a call: `if(f->writable == 0) return -1`.
mirrors kernel/file.c:134-140 -/
def filewrite (s : Sys ι) (p : ι) (src : Nat → UInt8) (room : Option Nat) (n : Int32) : Sys ι :=
  let w : Write := ⟨src, room, n, 0, s.calls⟩
  let s := { s with calls := s.calls + 1 }
  if s.f.writable = false then ret s p w (-1) else { s with pc := update s.pc p (.writing w) }

def exec (s : Sys ι) : Lbl ι → Option (Sys ι)
  | .filewrite p src room n =>
    match s.pc p with
    | .idle => some (filewrite s p src room n)
    | .writing _ => none
  | .go p =>
    match s.pc p with
    | .idle => none
    | .writing w =>
      if (w.i : Int) < w.n.toInt then chunk sb s p w
      else some (ret s p w (if (w.i : Int) = w.n.toInt then w.n.toInt else -1))
  | .fileread p room n =>
    match s.pc p with
    | .idle => fileread sb s p room n
    | .writing _ => none
  | .other _ => none

/-- The inode of an open file that nobody has locked. -/
structure Open (s : Fs.St) (ip : Fin Fs.NINODE) : Prop where
  ref : 1 ≤ (s.inode ip).ref
  unlocked : (s.inode ip).locked = false
  valid : (s.inode ip).valid = true
  ok : Fs.InodeOk sb s ip

/-- The contents of the file. -/
def contents (s : Sys ι) : List UInt8 := Fs.contents s.fs.blk (s.fs.inode s.f.ip).d

/-- Other calls do not write to the file or truncate it. -/
structure Other (s : Sys ι) (fs : Fs.St) : Prop where
  «open» : Open sb fs s.f.ip
  same : Fs.contents fs.blk (fs.inode s.f.ip).d = contents s

def step (s : Sys ι) (l : Lbl ι) (s' : Sys ι) : Prop :=
  match l with
  | .other fs => Other sb s fs ∧ s' = { s with fs := fs }
  | l => exec sb s l = some s'

/-- No call is in progress. -/
structure Start (s : Sys ι) : Prop where
  type : s.f.type = .inode
  «open» : Open sb s.fs s.f.ip
  pc : ∀ p, s.pc p = .idle
  log : s.log = []
  done : s.done = []
  off0 : s.off0 = s.f.off.toNat
  old : s.old = contents s

def lts (ι : Type) [DecidableEq ι] : LTS (Sys ι) (Lbl ι) where
  init := Start sb
  step := step sb

end

/-! ## One step -/

section Locked
variable {sb : Fs.Superblock} {fs : Fs.St} {ip : Fin Fs.NINODE}

theorem getElem?_contents (blk : Nat → Block) (d : Fs.Dinode) (t : Nat) :
    (Fs.contents blk d)[t]? = if t < d.size then some (Fs.byteAt blk d t) else none := by
  unfold Fs.contents
  by_cases ht : t < d.size
  · simp [ht]
  · simp [ht]

/-- `fs` with the lock of `ip` taken or free. -/
def relocked (fs : Fs.St) (ip : Fin Fs.NINODE) (b : Bool) : Fs.St :=
  { fs with inode := update fs.inode ip { fs.inode ip with locked := b } }

@[simp] theorem relocked_inode (fs : Fs.St) (ip : Fin Fs.NINODE) (b : Bool) :
    (relocked fs ip b).inode ip = { fs.inode ip with locked := b } := update_self _ _ _

@[simp] theorem relocked_blk (fs : Fs.St) (ip : Fin Fs.NINODE) (b : Bool) :
    (relocked fs ip b).blk = fs.blk := rfl

/-- The lock of the inode does not matter to its blocks. -/
theorem InodeOk.relock (h : Fs.InodeOk sb fs ip) (b : Bool) : Fs.InodeOk sb (relocked fs ip b) ip := by
  have hview : Fs.view (relocked fs ip b) ip = Fs.view fs ip := by
    unfold Fs.view
    rw [relocked_inode]
    rfl
  refine ⟨?_, ?_, ?_⟩
  · rw [hview, relocked_inode]
    exact h.live
  · rw [hview]
    exact h.rep
  · rw [relocked_inode]
    exact h.mapped

theorem ilock_open (h : Open sb fs ip) : Fs.ilock ip fs = .ok ((), relocked fs ip true) := by
  refine Wp.eq_ok ?_
  unfold Fs.ilock
  rw [wp_bind, Fs.wp_getInode, if_neg (by have := h.ref; omega),
    if_neg (by rw [h.unlocked]; decide), if_pos h.valid, Fs.wp_setInode]
  exact ⟨rfl, rfl⟩

theorem iunlock_held (hl : (fs.inode ip).locked = true) (hr : 1 ≤ (fs.inode ip).ref) :
    Fs.iunlock ip fs = .ok ((), relocked fs ip false) := by
  refine Wp.eq_ok ?_
  unfold Fs.iunlock
  rw [wp_bind, Fs.wp_getInode, if_neg ?_, Fs.wp_setInode]
  · exact ⟨rfl, rfl⟩
  · rw [hl]
    rintro (h | h)
    · cases h
    · omega

/-- What a chunk of `n` bytes of `src` at `off` leaves behind: `r` of them are in the file, and what was
before them is still there. -/
def Outcome (old new : List UInt8) (src : Nat → UInt8) (off n : Nat) (r : Int) : Prop :=
  r = -1 ∧ new = old ∨
    ∃ k : Nat, r = k ∧ k ≤ n ∧ off + k < 2 ^ 32 ∧ (∀ t, t < off → new[t]? = old[t]?) ∧
      (∀ t, t < k → new[off + t]? = some (src t)) ∧
      (k = n → new = Fs.overwrite old off ((List.range n).map src))

/-- A write that has gone part of the way. -/
theorem Written.outcome {src : Nat → UInt8} {room : Option Nat} {off n k : Nat} {s t : Fs.St}
    (h : Fs.InodeOk sb s ip)
    (w : Fs.Written sb False ip src room off 0 n k s t) (hoff : off ≤ (s.inode ip).d.size)
    (hmax : off + n ≤ Fs.MAXFILE * BSIZE) :
    Fs.InodeOk sb (Fs.closed t ip (off + k)) ip ∧
    Outcome (Fs.contents s.blk (s.inode ip).d)
      (Fs.contents (Fs.closed t ip (off + k)).blk ((Fs.closed t ip (off + k)).inode ip).d) src off n k := by
  obtain ⟨g, hg⟩ := w.self
  have hself : (Fs.closed t ip (off + k)).inode ip =
      { t.inode ip with d := { (t.inode ip).d with size := max (t.inode ip).d.size (off + k) } } :=
    Fs.closed_self
  have hsize : ((Fs.closed t ip (off + k)).inode ip).d.size = max (s.inode ip).d.size (off + k) := by
    rw [hself, hg]
  have hinum : ((Fs.closed t ip (off + k)).inode ip).inum = (s.inode ip).inum := by rw [hself, hg]
  have hbyte : ∀ j, Fs.byteAt (Fs.closed t ip (off + k)).blk ((Fs.closed t ip (off + k)).inode ip).d j =
      Fs.byteAt t.blk (t.inode ip).d j := fun j => by rw [hself]; rfl
  have hle := w.le
  have hlim : Fs.MAXFILE * BSIZE < 2 ^ 32 := by decide
  refine ⟨⟨?_, Fs.closed_rep w.rep, w.noHole h.mapped hoff⟩,
    .inr ⟨k, rfl, hle, by omega, fun j hj => ?_, fun j hj => ?_, fun hk => ?_⟩⟩
  · rw [hinum]
    exact (Fs.closed_live _).2 ((w.toReaddress.live _).2 h.live)
  · rw [getElem?_contents, getElem?_contents, hsize, if_pos (by omega), if_pos (by omega),
      hbyte, w.old j (.inl hj)]
  · rw [getElem?_contents, hsize, if_pos (by omega), hbyte, w.new (off + j) (by omega) (by omega)]
    simp
  · rw [hk] at w hsize hbyte ⊢
    exact Fs.contents_overwrite hoff hsize (fun j h1 h2 => by rw [hbyte, w.new j h1 h2, Nat.zero_add])
      fun j hj => by rw [hbyte, w.old j hj]

theorem toNat_n1 (w : Write) : (UInt32.ofNat w.n1).toNat = w.n1 := by
  have hle : w.n1 ≤ maxChunk := Nat.min_le_right _ _
  have hmax : maxChunk < 2 ^ 32 := by decide
  rw [UInt32.toNat_ofNat']
  omega

variable {f : File}

theorem lockedWrite_spec (h : Open sb fs f.ip) (w : Write) :
    Wp (lockedWrite sb f w) fs (fun r fs' => Open sb fs' f.ip ∧
      Outcome (Fs.contents fs.blk (fs.inode f.ip).d) (Fs.contents fs'.blk (fs'.inode f.ip).d)
      (fun k => w.src (w.i + k))
        f.off.toNat w.n1 r) fun _ => False := by
  have hok := InodeOk.relock h.ok true
  unfold lockedWrite
  rw [wp_bind, wp_ok (ilock_open h)]
  refine (Fs.writei_spec _ _ f.off _ hok.rep hok.live).bind fun r t ht => ?_
  rw [toNat_n1] at ht
  rcases ht with ⟨hr, ht, -⟩ | ⟨k, u, hr, hno, hw, ht⟩
  · -- the range is refused
    rw [ht, wp_bind, wp_ok (iunlock_held (by simp) (by simpa using h.ref)), wp_pure]
    refine ⟨⟨?_, ?_, ?_, InodeOk.relock hok false⟩, .inl ⟨hr, ?_⟩⟩
    · simpa using h.ref
    · simp
    · simpa using h.valid
    · simp
  · have hin : f.off.toNat ≤ (fs.inode f.ip).d.size ∧ f.off.toNat + w.n1 ≤ Fs.MAXFILE * BSIZE := by
      unfold Fs.Refused at hno
      rw [toNat_n1] at hno
      simp only [relocked_inode] at hno
      omega
    obtain ⟨hok', hout⟩ := Written.outcome hok hw (by simpa using hin.1) hin.2
    obtain ⟨g, hg⟩ := hw.self
    have hself : (Fs.closed u f.ip (f.off.toNat + k)).inode f.ip =
        { u.inode f.ip with
          d := { (u.inode f.ip).d with size := max (u.inode f.ip).d.size (f.off.toNat + k) } } :=
      Fs.closed_self
    have hlocked : (t.inode f.ip).locked = true := by rw [ht, hself, hg]; simp
    have href : 1 ≤ (t.inode f.ip).ref := by
      rw [ht, hself, hg]
      simpa using h.ref
    have hvalid : (t.inode f.ip).valid = true := by
      rw [ht, hself, hg]
      simpa using h.valid
    rw [← ht] at hok' hout
    rw [wp_bind, wp_ok (iunlock_held hlocked href), wp_pure]
    refine ⟨⟨?_, ?_, ?_, InodeOk.relock hok' false⟩, ?_⟩
    · simpa using href
    · simp
    · simpa using hvalid
    · rw [hr]
      simpa using hout

/-- A read that returns more than 0 returns the bytes at the offset. -/
theorem readi_bytes (h : Fs.NoHole fs.blk (fs.inode ip).d) (room : Option Nat) (off n : UInt32) :
    Wp (Fs.readi sb ip room off n) fs (fun r fs' => fs' = fs ∧ (0 < r.1 → r.1 = r.2.length ∧
      r.2 = ((Fs.contents fs.blk (fs.inode ip).d).drop off.toNat).take n.toNat ∧
      off.toNat + r.2.length < 2 ^ 32)) fun _ => False := by
  refine (Fs.readi_outcome h room off n).post fun r fs' hr => ⟨hr.1, fun hpos => ?_⟩
  have hr := hr.2
  split_ifs at hr with hin hfit
  · have hlen : (((Fs.contents fs.blk (fs.inode ip).d).drop off.toNat).take n.toNat).length =
        min n.toNat ((fs.inode ip).d.size - off.toNat) := by
      rw [Fs.contents_range, List.length_map, List.length_range]
    rw [hr, hlen]
    refine ⟨rfl, rfl, ?_⟩
    omega
  · rw [hr] at hpos
    exact absurd hpos (by decide)
  · rw [hr] at hpos
    exact absurd hpos (Int.lt_irrefl 0)

theorem lockedRead_spec (h : Open sb fs f.ip) (room : Option Nat) (n : Int32) :
    Wp (lockedRead sb f room n) fs (fun r fs' => Open sb fs' f.ip ∧
      Fs.contents fs'.blk (fs'.inode f.ip).d = Fs.contents fs.blk (fs.inode f.ip).d ∧
      (0 < r.1 → r.1 = r.2.length ∧ f.off.toNat + r.2.length < 2 ^ 32 ∧
        ∀ t, t < r.2.length → (Fs.contents fs.blk (fs.inode f.ip).d)[f.off.toNat + t]? =
        r.2[t]?)) fun _ => False := by
  have hok := InodeOk.relock h.ok true
  unfold lockedRead
  rw [wp_bind, wp_ok (ilock_open h)]
  refine (readi_bytes hok.mapped room f.off n.toUInt32).bind fun r t ht => ?_
  obtain ⟨rfl, hr⟩ := ht
  rw [wp_bind, wp_ok (iunlock_held (by simp) (by simpa using h.ref)), wp_pure]
  refine ⟨⟨?_, ?_, ?_, InodeOk.relock hok false⟩, ?_, fun hpos => ?_⟩
  · simpa using h.ref
  · simp
  · simpa using h.valid
  · simp
  · obtain ⟨hlen, hbytes, hlt⟩ := hr hpos
    refine ⟨hlen, hlt, fun j hj => ?_⟩
    simp only [relocked_blk, relocked_inode] at hbytes
    rw [hbytes] at hj ⊢
    rw [List.length_take] at hj
    rw [List.getElem?_take_of_lt (by omega), List.getElem?_drop]

end Locked

/-! ## Whole runs -/

section Runs
variable {ι : Type} {sb : Fs.Superblock} {s s' : Sys ι}

def ranges (log : List (Xfer ι)) : List (Nat × Nat) := log.map fun x => (x.start, x.bytes.length)

/-- The bytes transferred by a call. -/
def bytesOf (call : Nat) (log : List (Xfer ι)) : List UInt8 := (log.filter (·.call = call)).flatMap (·.bytes)

/-- The file after the writes in `log`. -/
def replay (c : List UInt8) (log : List (Xfer ι)) : List UInt8 :=
  log.foldl (fun c x => if x.write then Fs.overwrite c x.start x.bytes else c) c

theorem mem_snoc {α : Type} {x y : α} {xs : List α} : x ∈ xs ++ [y] ↔ x ∈ xs ∨ x = y := by simp

theorem bytesOf_append (call : Nat) (log : List (Xfer ι)) (x : Xfer ι) :
    bytesOf call (log ++ [x]) = bytesOf call log ++ if x.call = call then x.bytes else [] := by
  unfold bytesOf
  by_cases e : x.call = call <;> simp [e]

theorem replay_append (c : List UInt8) (log : List (Xfer ι)) (x : Xfer ι) :
    replay c (log ++ [x]) = if x.write then Fs.overwrite (replay c log) x.start x.bytes
    else replay c log := by
  simp [replay]

/-- Where the transfers are in the file. -/
structure Placed (s : Sys ι) : Prop where
  off : s.f.off.toNat = s.off0 + total (ranges s.log)
  tiles : Tiles s.off0 (ranges s.log)
  le : ∀ x ∈ s.log, x.write = true → x.bytes.length ≤ maxChunk
  kept : ∀ x ∈ s.log, ∀ t, t < x.bytes.length → (contents s)[x.start + t]? = x.bytes[t]?

theorem Placed.stop (h : Placed s) {x : Xfer ι} (hx : x ∈ s.log) :
    x.start + x.bytes.length ≤ s.f.off.toNat := by
  rw [h.off]
  exact h.tiles.stop (List.mem_map.2 ⟨x, hx, rfl⟩)

variable {fs : Fs.St}

/-- The file may change from the offset on. -/
theorem Placed.change (h : Placed s)
    (hc : ∀ t, t < s.f.off.toNat → (contents { s with fs := fs })[t]? = (contents s)[t]?) :
    Placed { s with fs := fs } := by
  refine { h with kept := fun x hx t ht => ?_ }
  have hstop := h.stop hx
  rw [hc (x.start + t) (by omega)]
  exact h.kept x hx t ht

/-- One more transfer, at the offset. -/
theorem Placed.append (h : Placed s) (p : ι) (call : Nat) (write : Bool) (bytes : List UInt8) {r : Int}
    (hr : r = bytes.length) (hlt : s.f.off.toNat + bytes.length < 2 ^ 32)
    (hle : write = true → bytes.length ≤ maxChunk)
    (hc : ∀ t, t < s.f.off.toNat → (contents { s with fs := fs })[t]? = (contents s)[t]?)
    (hnew : ∀ t, t < bytes.length → (contents { s with fs := fs })[s.f.off.toNat + t]? = bytes[t]?) :
    Placed { s with
      fs := fs
      f := { s.f with off := s.f.off + UInt32.ofNat r.toNat }
      log := s.log ++ [⟨p, call, write, s.f.off.toNat, bytes⟩] } := by
  have hoff : (s.f.off + UInt32.ofNat r.toNat).toNat = s.f.off.toNat + bytes.length := by
    rw [UInt32.toNat_add, UInt32.toNat_ofNat', hr, Int.toNat_natCast]
    omega
  have hranges : ranges (s.log ++ [⟨p, call, write, s.f.off.toNat, bytes⟩]) =
      ranges s.log ++ [(s.off0 + total (ranges s.log), bytes.length)] := by
    rw [← h.off]
    unfold ranges
    rw [List.map_append]
    rfl
  refine ⟨?_, ?_, fun x hx => ?_, fun x hx t ht => ?_⟩
  · show (s.f.off + UInt32.ofNat r.toNat).toNat = s.off0 + total (ranges (s.log ++ [_]))
    rw [hoff, hranges, total_append, h.off, total_cons, total_nil]
    omega
  · show Tiles s.off0 (ranges (s.log ++ [_]))
    rw [hranges]
    exact h.tiles.snoc
  · rcases mem_snoc.1 hx with hx | rfl
    · exact h.le x hx
    · exact hle
  · rcases mem_snoc.1 hx with hx | rfl
    · exact (h.change hc).kept x hx t ht
    · exact hnew t ht

section Calls
variable [DecidableEq ι]

/-- The transfers of a call that goes on, or has returned `n`, are the bytes of its source in their order, and
the calls of a process follow one another. -/
structure Ordered (s : Sys ι) : Prop where
  progress : ∀ p w, s.pc p = .writing w → bytesOf w.call s.log = (List.range w.i).map w.src
  complete : ∀ d ∈ s.done, d.ret ≠ -1 → bytesOf d.w.call s.log = (List.range d.w.n.toInt.toNat).map d.w.src
  order : ∀ p, ((s.log.filter (·.proc = p)).map (·.call)).Pairwise (· ≤ ·)

/-- The calls have different numbers. -/
structure Numbered (s : Sys ι) : Prop where
  log : ∀ x ∈ s.log, x.call < s.calls
  done : ∀ d ∈ s.done, d.w.call < s.calls
  pc : ∀ p w, s.pc p = .writing w → w.call < s.calls
  inj : ∀ p q w w', s.pc p = .writing w → s.pc q = .writing w' → w.call = w'.call → p = q
  fresh : ∀ p w, s.pc p = .writing w → ∀ d ∈ s.done, d.w.call ≠ w.call
  latest : ∀ p w, s.pc p = .writing w → ∀ x ∈ s.log, x.proc = p → x.call ≤ w.call

structure Core (sb : Fs.Superblock) (s : Sys ι) : Prop where
  «open» : Open sb s.fs s.f.ip
  placed : Placed s
  ordered : Ordered s
  numbered : Numbered s

/-- While no call has failed, the file is what the transfers have made of it. -/
structure Inv (sb : Fs.Superblock) (s : Sys ι) : Prop extends Core sb s where
  replay : (∀ d ∈ s.done, d.ret ≠ -1) → contents s = replay s.old s.log

variable {p : ι} {w : Write}

variable {w' : Write} {fs : Fs.St}

/-- Who is in a call after `p` has gone on with `v`. -/
theorem writing_cases {q : ι} {v : Write} (h : update s.pc p (.writing v) q = .writing w') :
    q = p ∧ w' = v ∨ q ≠ p ∧ s.pc q = .writing w' := by
  by_cases e : q = p
  · rw [e, update_self] at h
    cases h
    exact .inl ⟨e, rfl⟩
  · rw [update_of_ne e] at h
    exact .inr ⟨e, h⟩

/-- A call returns. -/
theorem Core.ret (h : Core sb s) (hpc : s.pc p = .writing w') (hw : w.call = w'.call) {v : Int}
    (hv : v ≠ -1 → w = w' ∧ w.i = w.n.toInt.toNat) : Core sb (ret s p w v) := by
  have hother : ∀ q y, update s.pc p .idle q = .writing y → q ≠ p ∧ s.pc q = .writing y := by
    intro q y hq
    have e : q ≠ p := by
      intro e
      rw [e, update_self] at hq
      cases hq
    rw [update_of_ne e] at hq
    exact ⟨e, hq⟩
  have hn := h.numbered
  refine ⟨h.open, { h.placed with }, ⟨fun q y hq => ?_, fun d hd hret => ?_, h.ordered.order⟩,
    ⟨hn.log, fun d hd => ?_, fun q y hq => ?_, fun q q' y y' hq hq' => ?_, fun q y hq d hd => ?_,
    fun q y hq => ?_⟩⟩
  · exact h.ordered.progress q y (hother q y hq).2
  · rcases mem_snoc.1 hd with hd | rfl
    · exact h.ordered.complete d hd hret
    · obtain ⟨rfl, hi⟩ := hv hret
      have hp := h.ordered.progress p w hpc
      rwa [hi] at hp
  · rcases mem_snoc.1 hd with hd | rfl
    · exact hn.done d hd
    · exact hw ▸ hn.pc p w' hpc
  · exact hn.pc q y (hother q y hq).2
  · exact hn.inj q q' y y' (hother q y hq).2 (hother q' y' hq').2
  · obtain ⟨hqp, hq⟩ := hother q y hq
    rcases mem_snoc.1 hd with hd | rfl
    · exact hn.fresh q y hq d hd
    · exact fun e => hqp (hn.inj p q w' y hpc hq (hw.symm.trans e)).symm
  · exact hn.latest q y (hother q y hq).2

/-- A call starts. -/
theorem Core.start (h : Core sb s) (src : Nat → UInt8) (room : Option Nat) (n : Int32) :
    Core sb { s with calls := s.calls + 1, pc := update s.pc p (.writing ⟨src, room, n, 0, s.calls⟩) } := by
  have hn := h.numbered
  refine ⟨h.open, { h.placed with }, ⟨fun q w' hq => ?_, h.ordered.complete,
    h.ordered.order⟩, ⟨fun x hx => ?_, fun d hd => ?_, fun q w' hq => ?_, fun q q' w' w'' hq hq' e => ?_,
    fun q w' hq d hd => ?_, fun q w' hq x hx hxq => ?_⟩⟩
  · rcases writing_cases hq with ⟨rfl, rfl⟩ | ⟨-, hq⟩
    · -- nothing has this number yet
      have hnil : s.log.filter (·.call = s.calls) = [] := by
        rw [List.filter_eq_nil_iff]
        intro x hx
        simpa using Nat.ne_of_lt (hn.log x hx)
      unfold bytesOf
      rw [hnil]
      rfl
    · exact h.ordered.progress q w' hq
  · exact Nat.lt_succ_of_lt (hn.log x hx)
  · exact Nat.lt_succ_of_lt (hn.done d hd)
  · rcases writing_cases hq with ⟨rfl, rfl⟩ | ⟨-, hq⟩
    · exact Nat.lt_succ_self _
    · exact Nat.lt_succ_of_lt (hn.pc q w' hq)
  · rcases writing_cases hq with ⟨h1, rfl⟩ | ⟨-, h1⟩ <;> rcases writing_cases hq' with ⟨h2, rfl⟩ | ⟨-, h2⟩
    · exact h1.trans h2.symm
    · exact absurd e (Nat.ne_of_gt (hn.pc q' w'' h2))
    · exact absurd e (Nat.ne_of_lt (hn.pc q w' h1))
    · exact hn.inj q q' w' w'' h1 h2 e
  · rcases writing_cases hq with ⟨rfl, rfl⟩ | ⟨-, hq⟩
    · exact Nat.ne_of_lt (hn.done d hd)
    · exact hn.fresh q w' hq d hd
  · rcases writing_cases hq with ⟨rfl, rfl⟩ | ⟨-, hq⟩
    · exact Nat.le_of_lt (hn.log x hx)
    · exact hn.latest q w' hq x hx hxq

/-- The order of the transfers of each process, with one more. -/
theorem order_append {log : List (Xfer ι)} {x : Xfer ι}
    (h : ∀ p, ((log.filter (·.proc = p)).map (·.call)).Pairwise (· ≤ ·))
    (hx : ∀ y ∈ log, y.proc = x.proc → y.call ≤ x.call) (p : ι) :
    (((log ++ [x]).filter (·.proc = p)).map (·.call)).Pairwise (· ≤ ·) := by
  rw [List.filter_append, List.map_append]
  by_cases e : x.proc = p
  · rw [List.filter_cons_of_pos (by simpa using e)]
    refine List.pairwise_append.2 ⟨h p, List.pairwise_singleton _ _, fun a ha b hb => ?_⟩
    obtain ⟨y, hy, rfl⟩ := List.mem_map.1 ha
    obtain ⟨hy, hyp⟩ := List.mem_filter.1 hy
    rw [List.mem_singleton.1 hb]
    exact hx y hy (by rw [e]; exact of_decide_eq_true hyp)
  · rw [List.filter_cons_of_neg (by simpa using e)]
    simpa using h p

section
variable (h : Core sb s)
include h

/-- The file may change from the offset on. -/
theorem Core.change (hopen : Open sb fs s.f.ip)
    (hc : ∀ t, t < s.f.off.toNat → (contents { s with fs := fs })[t]? = (contents s)[t]?) :
    Core sb { s with fs := fs } :=
  ⟨hopen, h.placed.change hc, ⟨h.ordered.progress, h.ordered.complete, h.ordered.order⟩,
    { h.numbered with }⟩

theorem Core.calls : Core sb { s with calls := s.calls + 1 } :=
  ⟨h.open, { h.placed with },
    ⟨h.ordered.progress, h.ordered.complete, h.ordered.order⟩,
    { h.numbered with
      log := fun x hx => Nat.lt_succ_of_lt (h.numbered.log x hx)
      done := fun d hd => Nat.lt_succ_of_lt (h.numbered.done d hd)
      pc := fun q w hq => Nat.lt_succ_of_lt (h.numbered.pc q w hq) }⟩

/-- `k` bytes of a call go to the file. -/
theorem Core.chunk (hpc : s.pc p = .writing w) {k : Nat} (hopen : Open sb fs s.f.ip)
    (hk : k ≤ w.n1) (hlt : s.f.off.toNat + k < 2 ^ 32)
    (hc : ∀ t, t < s.f.off.toNat → (contents { s with fs := fs })[t]? = (contents s)[t]?)
    (hnew : ∀ t, t < k → (contents { s with fs := fs })[s.f.off.toNat + t]? = some (w.src (w.i + t))) :
    Core sb { s with
      fs := fs
      f := { s.f with off := s.f.off + UInt32.ofNat k }
      log := s.log ++ [⟨p, w.call, true, s.f.off.toNat, (List.range k).map fun t => w.src (w.i + t)⟩]
      pc := update s.pc p (.writing { w with i := w.i + k }) } := by
  have hn := h.numbered
  have hplaced := h.placed.append (r := k) p w.call true
    ((List.range k).map fun t => w.src (w.i + t)) (by simp) (by simpa using hlt)
    (fun _ => by simpa using Nat.le_trans hk (Nat.min_le_right _ _)) hc (fun t ht => by
      simp only [List.length_map, List.length_range] at ht
      rw [hnew t ht]
      simp [ht])
  refine ⟨hopen, { hplaced with }, ⟨fun q w' hq => ?_, fun d hd hret => ?_,
    order_append h.ordered.order fun y hy e => hn.latest p w hpc y hy e⟩,
    ⟨fun x hx => ?_, hn.done, fun q w' hq => ?_,
    fun q q' w' w'' hq hq' e => ?_, fun q w' hq d hd => ?_, fun q w' hq x hx hxq => ?_⟩⟩
  · rw [bytesOf_append]
    rcases writing_cases hq with ⟨rfl, rfl⟩ | ⟨hqp, hq⟩
    · rw [if_pos rfl, h.ordered.progress q w hpc, List.range_add, List.map_append, List.map_map]
      rfl
    · rw [if_neg fun e => hqp (hn.inj p q w w' hpc hq e).symm, List.append_nil]
      exact h.ordered.progress q w' hq
  · rw [bytesOf_append, if_neg (Ne.symm (hn.fresh p w hpc d hd)), List.append_nil]
    exact h.ordered.complete d hd hret
  · rcases mem_snoc.1 hx with hx | rfl
    · exact hn.log x hx
    · exact hn.pc p w hpc
  · rcases writing_cases hq with ⟨rfl, rfl⟩ | ⟨-, hq⟩
    · exact hn.pc q w hpc
    · exact hn.pc q w' hq
  · rcases writing_cases hq with ⟨h1, rfl⟩ | ⟨-, h1⟩ <;> rcases writing_cases hq' with ⟨h2, rfl⟩ | ⟨-, h2⟩
    · exact h1.trans h2.symm
    · rw [h1]
      exact hn.inj p q' w w'' hpc h2 e
    · rw [h2]
      exact hn.inj q p w' w h1 hpc e
    · exact hn.inj q q' w' w'' h1 h2 e
  · rcases writing_cases hq with ⟨rfl, rfl⟩ | ⟨-, hq⟩
    · exact hn.fresh q w hpc d hd
    · exact hn.fresh q w' hq d hd
  · rcases writing_cases hq with ⟨hqp, rfl⟩ | ⟨hqp, hq⟩
    · rcases mem_snoc.1 hx with hx | rfl
      · exact hn.latest p w hpc x hx (hxq.trans hqp)
      · exact Nat.le_refl _
    · rcases mem_snoc.1 hx with hx | rfl
      · exact hn.latest q w' hq x hx hxq
      · exact absurd hxq.symm hqp

/-- Bytes are read at the offset. -/
theorem Core.read (hpc : s.pc p = .idle) {r : Int} {bytes : List UInt8}
    (hopen : Open sb fs s.f.ip) (hr : r = bytes.length) (hlt : s.f.off.toNat + bytes.length < 2 ^ 32)
    (hc : contents { s with fs := fs } = contents s)
    (hbytes : ∀ t, t < bytes.length → (contents s)[s.f.off.toNat + t]? = bytes[t]?) :
    Core sb { s with
      fs := fs
      f := { s.f with off := s.f.off + UInt32.ofNat r.toNat }
      log := s.log ++ [⟨p, s.calls, false, s.f.off.toNat, bytes⟩]
      calls := s.calls + 1 } := by
  have hn := h.numbered
  have hplaced := h.placed.append p s.calls false bytes hr hlt (fun e => by cases e)
    (fun t _ => by rw [hc]) fun t ht => by rw [hc]; exact hbytes t ht
  refine ⟨hopen, { hplaced with }, ⟨fun q w' hq => ?_, fun d hd hret => ?_,
    order_append h.ordered.order fun y hy _ => Nat.le_of_lt (hn.log y hy)⟩, ⟨fun x hx => ?_, fun d hd => ?_,
    fun q w' hq => ?_, hn.inj, hn.fresh, fun q w' hq x hx hxq => ?_⟩⟩
  · rw [bytesOf_append, if_neg (Nat.ne_of_gt (hn.pc q w' hq)), List.append_nil]
    exact h.ordered.progress q w' hq
  · rw [bytesOf_append, if_neg (Nat.ne_of_gt (hn.done d hd)), List.append_nil]
    exact h.ordered.complete d hd hret
  · rcases mem_snoc.1 hx with hx | rfl
    · exact Nat.lt_succ_of_lt (hn.log x hx)
    · exact Nat.lt_succ_self _
  · exact Nat.lt_succ_of_lt (hn.done d hd)
  · exact Nat.lt_succ_of_lt (hn.pc q w' hq)
  · rcases mem_snoc.1 hx with hx | rfl
    · exact hn.latest q w' hq x hx hxq
    · -- `q` is in a write, `p` is not
      rw [← show p = q from hxq, hpc] at hq
      cases hq

/-- A call fails. -/
theorem Core.fail (hpc : s.pc p = .writing w') (hw : w.call = w'.call) :
    Inv sb (Share.ret s p w (-1)) :=
  ⟨h.ret hpc hw fun e => absurd rfl e, fun hall => absurd rfl (hall ⟨w, -1⟩ (by simp [Share.ret]))⟩

end

theorem ret_update (pc : Pc) (v : Int) :
    Share.ret { s with pc := update s.pc p pc } p w v = Share.ret s p w v := by
  simp [Share.ret]

theorem Inv.chunk (h : Inv sb s) (hpc : s.pc p = .writing w) (hi : (w.i : Int) < w.n.toInt) :
    ∃ s', Share.chunk sb s p w = some s' ∧ Inv sb s' := by
  obtain ⟨r, fs, hrun, hopen, hout⟩ := (lockedWrite_spec h.open w).returns
  have hn1 : 1 ≤ w.n1 := Nat.le_min.2 ⟨by omega, by decide⟩
  unfold Share.chunk
  rw [hrun]
  dsimp only
  rcases hout with ⟨rfl, hsame⟩ | ⟨k, rfl, hk, hlt, hc, hnew, hfull⟩
  · -- `writei` refuses the range
    have hcore := h.toCore.change hopen fun t _ => congrArg (·[t]?) hsame
    rw [if_pos (by omega)]
    exact ⟨_, rfl, hcore.fail hpc rfl⟩
  have hcore := h.toCore.chunk hpc hopen hk hlt hc hnew
  rw [Int.toNat_natCast]
  by_cases hzero : k = 0
  · rw [if_pos (by omega), transfer, if_neg (by omega)]
    exact ⟨_, rfl, (h.toCore.change hopen hc).fail hpc rfl⟩
  have hmoved : transfer s p w.call true k ((List.range k).map fun t => w.src (w.i + t)) fs = { s with
      fs := fs
      f := { s.f with off := s.f.off + UInt32.ofNat k }
      log := s.log ++ [⟨p, w.call, true, s.f.off.toNat, (List.range k).map fun t => w.src (w.i + t)⟩] } := by
    rw [transfer, if_pos (by omega), Int.toNat_natCast]
  rw [hmoved]
  by_cases hall : k = w.n1
  · rw [if_neg (by omega)]
    refine ⟨_, rfl, hcore, fun hdone => ?_⟩
    have hold := h.replay hdone
    rw [replay_append, if_pos rfl, ← hold, hall]
    exact hfull hall
  · rw [if_pos (by omega)]
    refine ⟨_, rfl, ?_⟩
    rw [← ret_update (.writing { w with i := w.i + k })]
    exact hcore.fail (update_self _ _ _) rfl

theorem Inv.fileread (h : Inv sb s) (hpc : s.pc p = .idle) (room : Option Nat) (n : Int32) :
    ∃ s', Share.fileread sb s p room n = some s' ∧ Inv sb s' := by
  unfold Share.fileread
  split
  · exact ⟨s, rfl, h⟩
  obtain ⟨r, fs, hrun, hopen, hsame, hr⟩ := (lockedRead_spec h.open room n).returns
  rw [hrun]
  refine ⟨_, rfl, ?_⟩
  rw [transfer]
  split
  · rename_i hpos
    obtain ⟨hlen, hlt, hbytes⟩ := hr hpos
    refine ⟨h.toCore.read hpc hopen hlen hlt hsame hbytes, fun hdone => ?_⟩
    have hold := h.replay hdone
    rw [replay_append, if_neg Bool.false_ne_true, ← hold]
    exact hsame
  · have hcore := h.toCore.change hopen fun t _ => congrArg (·[t]?) hsame
    exact ⟨hcore.calls, fun hdone => hsame.trans (h.replay hdone)⟩

theorem Inv.filewrite (h : Inv sb s) (p : ι) (src : Nat → UInt8) (room : Option Nat) (n : Int32) :
    Inv sb (Share.filewrite s p src room n) := by
  have hcore := h.toCore.start (p := p) src room n
  unfold Share.filewrite
  dsimp only
  split
  · rw [← ret_update (.writing ⟨src, room, n, 0, s.calls⟩)]
    exact hcore.fail (update_self _ _ _) rfl
  · exact ⟨hcore, h.replay⟩

/-- The end of the loop: `ret = (i == n ? n : -1)`. -/
theorem Inv.finish (h : Inv sb s) (hpc : s.pc p = .writing w) :
    Inv sb (Share.ret s p w (if (w.i : Int) = w.n.toInt then w.n.toInt else -1)) := by
  split
  · rename_i hi
    refine ⟨h.toCore.ret hpc rfl fun _ => ⟨rfl, by omega⟩, fun hall => h.replay fun d hd => hall d ?_⟩
    exact List.mem_append_left _ hd
  · exact h.toCore.fail hpc rfl

theorem Start.inv (h : Start sb s) : Inv sb s := by
  have hpc : ∀ p w, s.pc p ≠ .writing w := fun p w e => by
    rw [h.pc p] at e
    cases e
  refine ⟨⟨h.open, ⟨?_, ?_, ?_, ?_⟩, ⟨fun p w e => absurd e (hpc p w), ?_, ?_⟩,
    ⟨?_, ?_, fun p w e => absurd e (hpc p w),
    fun p q w w' e => absurd e (hpc p w), fun p w e => absurd e (hpc p w),
    fun p w e => absurd e (hpc p w)⟩⟩, fun _ => ?_⟩
  · rw [h.log, h.off0]
    rfl
  · rw [h.log]
    trivial
  · simp [h.log]
  · simp [h.log]
  · simp [h.done]
  · simp [h.log]
  · simp [h.log]
  · simp [h.done]
  · rw [h.log, h.old]
    rfl

theorem Inv.exec (h : Inv sb s) {l : Lbl ι} (he : Share.exec sb s l = some s') : Inv sb s' := by
  cases l with
  | other fs => cases he
  | filewrite p src room n =>
    cases hpc : s.pc p with
    | writing w => simp [Share.exec, hpc] at he
    | idle =>
      simp only [Share.exec, hpc, Option.some.injEq] at he
      rw [← he]
      exact h.filewrite p src room n
  | go p =>
    cases hpc : s.pc p with
    | idle => simp [Share.exec, hpc] at he
    | writing w =>
      simp only [Share.exec, hpc] at he
      split at he
      · rename_i hi
        obtain ⟨t, ht, hinv⟩ := h.chunk hpc hi
        rw [ht, Option.some.injEq] at he
        exact he ▸ hinv
      · rw [Option.some.injEq] at he
        exact he ▸ h.finish hpc
  | fileread p room n =>
    cases hpc : s.pc p with
    | writing w => simp [Share.exec, hpc] at he
    | idle =>
      simp only [Share.exec, hpc] at he
      obtain ⟨t, ht, hinv⟩ := h.fileread hpc room n
      rw [ht, Option.some.injEq] at he
      exact he ▸ hinv

theorem inv_inductive : (lts sb ι).Inductive (Inv sb) where
  init _ h := h.inv
  step s l s' h hs := by
    cases l with
    | other fs =>
      obtain ⟨⟨hopen, hsame⟩, rfl⟩ := hs
      exact ⟨h.toCore.change hopen fun t _ => congrArg (·[t]?) hsame,
        fun hdone => hsame.trans (h.replay hdone)⟩
    | _ => exact h.exec hs

/-- No update is lost. -/
structure Kept (sb : Fs.Superblock) (s : Sys ι) : Prop where
  /-- the offset has moved by what was transferred -/
  off : s.f.off.toNat = s.off0 + total (ranges s.log)
  consecutive : ∀ (j : Nat) (x : Xfer ι), s.log[j]? = some x →
    x.start = s.off0 + total (ranges (s.log.take j))
  disjoint : ∀ (i j : Nat) (x y : Xfer ι), i < j → s.log[i]? = some x → s.log[j]? = some y →
    x.start + x.bytes.length ≤ y.start
  le : ∀ x ∈ s.log, x.write = true → x.bytes.length ≤ maxChunk
  /-- what was written is in the file, and what was read still is -/
  kept : ∀ x ∈ s.log, ∀ t, t < x.bytes.length → (contents s)[x.start + t]? = x.bytes[t]?
  /-- the chunks of a call are the bytes of its source, in their order -/
  progress : ∀ p w, s.pc p = .writing w → bytesOf w.call s.log = (List.range w.i).map w.src
  complete : ∀ d ∈ s.done, d.ret ≠ -1 → bytesOf d.w.call s.log = (List.range d.w.n.toInt.toNat).map d.w.src
  /-- the calls of a process follow one another -/
  order : ∀ p, ((s.log.filter (·.proc = p)).map (·.call)).Pairwise (· ≤ ·)
  /-- when no call has failed nothing else is in the file -/
  replay : (∀ d ∈ s.done, d.ret ≠ -1) → contents s = replay s.old s.log
  /-- no call runs into a `panic` -/
  runs : ∀ p, (∀ w, s.pc p = .writing w → (w.i : Int) < w.n.toInt → (Share.chunk sb s p w).isSome) ∧
    (s.pc p = .idle → ∀ room n, (Share.fileread sb s p room n).isSome)

/-- Whatever the order of the chunks and reads of the processes that share the file, each has its own range,
right after the one before. -/
theorem shared_offset (h : (lts sb ι).Reachable s) : Kept sb s := by
  have hi := inv_inductive.reachable h
  have hrange : ∀ (j : Nat) (x : Xfer ι), s.log[j]? = some x →
      (ranges s.log)[j]? = some (x.start, x.bytes.length) := fun j x hj => by
    unfold ranges
    rw [List.getElem?_map, hj]
    rfl
  refine ⟨hi.placed.off, fun j x hj => ?_, fun i j x y hlt hx hy => ?_, hi.placed.le, hi.placed.kept,
    hi.ordered.progress, hi.ordered.complete, hi.ordered.order, hi.replay,
    fun p => ⟨fun w hpc hlt => ?_, fun hpc room n => ?_⟩⟩
  · have hstart := hi.placed.tiles.start (hrange j x hj)
    unfold ranges at hstart ⊢
    rwa [← List.map_take] at hstart
  · exact hi.placed.tiles.disjoint (hrange i x hx) (hrange j y hy) hlt
  · obtain ⟨t, ht, -⟩ := hi.chunk hpc hlt
    rw [ht]
    rfl
  · obtain ⟨t, ht, -⟩ := hi.fileread hpc room n
    rw [ht]
    rfl

end Calls

end Runs

theorem exec_step {ι : Type} [DecidableEq ι] {sb : Fs.Superblock} {s s' : Sys ι} {l : Lbl ι}
    (h : exec sb s l = some s') : step sb s l s' := by
  cases l with
  | other fs => cases h
  | _ => exact h

/-- Two processes with a new file. -/
def emptyShared : Sys Bool where
  fs := relocked Fs.tinyFile 0 false
  f :=
    { type := .inode, ref := 2, readable := true, writable := true, pipe := 0, ip := 0, off := 0, major := 0 }
  pc _ := .idle
  calls := 0
  log := []
  done := []
  off0 := 0
  old := []

theorem emptyShared_start : Start Fs.tiny emptyShared :=
  ⟨rfl, ⟨by decide, rfl, rfl, InodeOk.relock Fs.tinyFile_ok false⟩, fun _ => rfl, rfl, rfl, rfl, rfl⟩

/-- Both write, and their chunks come the other way round. -/
theorem shared_offset_twoWriters :
    ∃ s, (lts Fs.tiny Bool).Reachable s ∧ s.log.map (fun x => (x.proc, x.start)) =
    [(true, 0), (false, 2)] ∧ s.f.off = 5 ∧ Kept Fs.tiny s := by
  have hrun : ((([.filewrite false (fun _ => 7) none 3, .filewrite true (fun _ => 9) none 2,
      .go true, .go false, .go true, .go false] : List (Lbl Bool)).foldlM (exec Fs.tiny) emptyShared).map
        fun s => (s.log.map (fun x => (x.proc, x.start)), s.f.off)) = some ([(true, 0), (false, 2)], 5) := by
    decide +kernel
  rw [Option.map_eq_some_iff] at hrun
  obtain ⟨s, hs, heq⟩ := hrun
  have hreach : (lts Fs.tiny Bool).Reachable s :=
    ⟨emptyShared, _, emptyShared_start, LTS.Run.of_foldlM (fun _ _ _ => exec_step) hs⟩
  exact ⟨s, hreach, congrArg Prod.fst heq, congrArg Prod.snd heq, shared_offset hreach⟩

end Share
end Xv6.File
