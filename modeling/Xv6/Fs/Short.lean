import Xv6.Fs.Content
import Xv6.Vm.Copy

/-!
# Short writes

`writei` once more, with the copies from user memory made by `copyin` and with
the calls of `log_write` written out, so that a buffer that is modified and
not logged can be seen (`Tracked.unlogged`).

* `bmap_logs`: `bmap` does what it does in `Xv6.Fs`, and logs what it modifies.
* `writeLoop_tracked`: the loop ends with all that it has modified logged, or
  has torn a block.
* `short_write`: a write changes and logs exactly what it reports if and only
  if no copy that it makes faults after its first byte.
* `torn_write`: a copy that faults in the middle of a block leaves bytes in
  the buffer that are neither reported nor logged.
-/
namespace Xv6.Fs
open Function (update update_self update_of_ne)

/-! ## The model -/

structure Tracked where
  st : St
  /-- the buffers that have been modified and not been given to `log_write` since -/
  unlogged : Nat → Bool

abbrev T := Prog Panic Tracked

/-- A part that modifies no buffer. -/
def quiet {α : Type} (m : M α) : T α := Prog.zoom Tracked.st (fun st t => { t with st := st }) m

def modifyBuf (b : Nat) (x : Block) : T Unit :=
  Prog.modify fun t =>
    { st := { t.st with blk := update t.st.blk b x }, unlogged := update t.unlogged b true }

def logWrite (b : Nat) : T Unit := Prog.modify fun t => { t with unlogged := update t.unlogged b false }

/-- `IBLOCK(i, sb)` -/
def Superblock.iblock (sb : Superblock) (i : Nat) : Nat := i / IPB + (2 + sb.nlog)

/-- What `copyin` moves, and whether it succeeds. -/
def copied (mem : Vm.Phys) (pt srcva len : Nat) : List UInt8 × Bool :=
  match Vm.copyin pt srcva len mem with
  | .ok (r, _) => r
  | .error _ => ([], false)

namespace Tracked

/-- mirrors kernel/fs.c:50-59 -/
def bzero (b : Nat) : T Unit := do
  modifyBuf b Bytes.zero
  logWrite b

/-- mirrors kernel/fs.c:72-87 -/
def ballocFrom (sb : Superblock) : Nat → Nat → T Nat
  | 0, _ => pure 0
  | passes + 1, b =>
    if b < sb.size then do
      let data ← quiet (bread (sb.bblock b))
      match freeBit sb data b BPB 0 with
      | some bi => do
        modifyBuf (sb.bblock b) (data.setBit bi)
        logWrite (sb.bblock b)
        bzero (b + bi)
        pure (b + bi)
      | none => ballocFrom sb passes (b + BPB)
    else pure 0

/-- mirrors kernel/fs.c:65-88 -/
def balloc (sb : Superblock) : T Nat := ballocFrom sb sb.nbitmap 0

/-- mirrors kernel/fs.c:389-395, 401-406 -/
def addrOrAlloc (sb : Superblock) (ip : Fin NINODE) (k : Nat) : T Nat := do
  let i ← quiet (getInode ip)
  if i.d.addrs k ≠ 0 then pure (i.d.addrs k)
  else do
    let addr ← balloc sb
    if addr = 0 then pure 0
    else do
      quiet (setAddr ip k addr)
      pure addr

/-- mirrors kernel/fs.c:407-417 -/
def bmapEntry (sb : Superblock) (ind j : Nat) : T Nat := do
  let a ← quiet (bread ind)
  if a.word j ≠ 0 then pure (a.word j).toNat
  else do
    let addr ← balloc sb
    if addr = 0 then pure 0
    else do
      let a ← quiet (bread ind)
      modifyBuf ind (a.setWord j (UInt32.ofNat addr))
      logWrite ind
      pure addr

/-- mirrors kernel/fs.c:382-421 -/
def bmap (sb : Superblock) (ip : Fin NINODE) (bn : Nat) : T Nat :=
  if bn < NDIRECT then addrOrAlloc sb ip bn
  else if bn - NDIRECT < NINDIRECT then do
    let ind ← addrOrAlloc sb ip NDIRECT
    if ind = 0 then pure 0 else bmapEntry sb ind (bn - NDIRECT)
  else Prog.panic .bmapOutOfRange

/-- mirrors kernel/fs.c:225-241 -/
def iupdate (sb : Superblock) (ip : Fin NINODE) : T Unit := do
  let i ← quiet (getInode ip)
  Prog.modify fun t =>
    { st := { t.st with dinode := update t.st.dinode (t.st.inode ip).inum (t.st.inode ip).d },
                         unlogged := update t.unlogged (sb.iblock i.inum) true }
  logWrite (sb.iblock i.inum)

/-- The loop of `writei` with `user_src`. `copyin` has put what it has moved
into the buffer, also when it fails.
mirrors kernel/fs.c:516-527 -/
def writeLoop (sb : Superblock) (ip : Fin NINODE) (mem : Vm.Phys) (pt : Nat) :
    Nat → Nat → Nat → Nat → Nat → T (Nat × Nat)
  | 0, _, off, tot, _ => pure (tot, off)
  | passes + 1, src, off, tot, left =>
    if left = 0 then pure (tot, off)
    else do
      let addr ← bmap sb ip (off / BSIZE)
      if addr = 0 then pure (tot, off)
      else do
        let data ← quiet (bread addr)
        let m := min left (BSIZE - off % BSIZE)
        let r := copied mem pt src m
        if r.1 = [] then pure ()
        else modifyBuf addr (data.splice (off % BSIZE) r.1.length fun i => r.1.getD i 0)
        if r.2 then do
          logWrite addr
          writeLoop sb ip mem pt passes ((src + m) % 2 ^ 64) (off + m) (tot + m) (left - m)
        else pure (tot, off)

/-- mirrors kernel/fs.c:505-539, with `user_src` -/
def writei (sb : Superblock) (ip : Fin NINODE) (mem : Vm.Phys) (pt src : Nat) (off n : UInt32) : T Int := do
  let i ← quiet (getInode ip)
  if i.d.size < off.toNat ∨ off + n < off then pure (-1)
  else if MAXFILE * BSIZE < off.toNat + n.toNat then pure (-1)
  else do
    let r ← writeLoop sb ip mem pt n.toNat src off.toNat 0 n.toNat
    quiet (setInode ip fun i => { i with d := { i.d with size := max i.d.size r.2 } })
    iupdate sb ip
    pure r.1

end Tracked

/-! ## The same program, logged -/

section Logs
variable {α β : Type}

/-- From `t`, `m` does what `n` does, and logs every buffer that it modifies. -/
def LogsAt (m : T α) (n : M α) (t : Tracked) : Prop :=
  (∃ e, n t.st = .error e ∧ m t = .error e) ∨
    ∃ a s u, n t.st = .ok (a, s) ∧ m t = .ok (a, ⟨s, u⟩) ∧ ∀ b, u b = true → t.unlogged b = true

def Logs (m : T α) (n : M α) : Prop := ∀ t, LogsAt m n t

theorem Logs.pure (a : α) : Logs (Pure.pure a) (Pure.pure a) :=
  fun t => .inr ⟨a, t.st, t.unlogged, rfl, rfl, fun _ => id⟩

theorem Logs.panic (e : Panic) : Logs (Prog.panic e : T α) (Prog.panic e) := fun _ => .inl ⟨e, rfl, rfl⟩

theorem Logs.quiet (m : M α) : Logs (Fs.quiet m) m := fun t => by
  unfold LogsAt Fs.quiet Prog.zoom
  cases h : m t.st with
  | error e => exact .inl ⟨e, rfl, rfl⟩
  | ok r => exact .inr ⟨r.1, r.2, t.unlogged, rfl, rfl, fun _ => id⟩

theorem Logs.bind {m : T α} {n : M α} {f : α → T β} {g : α → M β} (h : Logs m n)
    (hf : ∀ a, Logs (f a) (g a)) : Logs (m >>= f) (n >>= g) := fun t => by
  unfold LogsAt
  simp only [Bind.bind]
  rcases h t with ⟨e, h1, h2⟩ | ⟨a, s, u, h1, h2, hu⟩
  · rw [h1, h2]
    exact .inl ⟨e, rfl, rfl⟩
  · rw [h1, h2]
    rcases hf a ⟨s, u⟩ with ⟨e, k1, k2⟩ | ⟨a', s', u', k1, k2, hu'⟩
    · exact .inl ⟨e, k1, k2⟩
    · exact .inr ⟨a', s', u', k1, k2, fun b hb => hu b (hu' b hb)⟩

/-- A change to a buffer, with its `log_write`. -/
theorem Logs.store (b : Nat) (x : Block) : Logs (do modifyBuf b x; logWrite b) (bstore b x) := fun t => by
  refine .inr ⟨(), _, _, rfl, rfl, fun b' hb' => ?_⟩
  by_cases e : b' = b
  · subst e
    simp at hb'
  · simpa [e] using hb'

end Logs

section Erase
variable (sb : Superblock) (ip : Fin NINODE)

end Erase

/-! ## User memory as the source of a write -/

section Source
variable {mem : Vm.Phys} {pt : Nat}

end Source

/-! ## The loop -/

section Loop
variable {sb : Superblock} {full : Prop} {ip : Fin NINODE} {mem : Vm.Phys} {pt src : Nat}

/-- A loop that has copied up to byte `tot` of the buffer, to `off` in the file, has logged what it has
modified, and what it does not report is as before. If `room` is the first byte that is not mapped, it is the
first one of a copy or the loop would not get to it (it would get to `q`) if all were mapped. -/
structure Ends (ip : Fin NINODE) (room : Option Nat) (off₀ q tot off : Nat) (t t' : Tracked) : Prop where
  logged : ∀ b, t'.unlogged b = true → t.unlogged b = true
  rest : ∀ j, off ≤ j → byteAt t'.st.blk (t'.st.inode ip).d j = byteAt t.st.blk (t.st.inode ip).d j
  stop : ∀ k, room = some k → tot ≤ k ∧ (k = 0 ∨ (off₀ + k) % BSIZE = 0 ∨ q ≤ k)

/-- A loop that ends before it gets to a byte that is not mapped. -/
theorem Ends.early {room : Option Nat} {off₀ tot off : Nat} {t t' : Tracked}
    (h : ∀ k, room = some k → tot ≤ k) (hlog : ∀ b, t'.unlogged b = true → t.unlogged b = true)
    (hrest : ∀ j, byteAt t'.st.blk (t'.st.inode ip).d j = byteAt t.st.blk (t.st.inode ip).d j) :
    Ends ip room off₀ tot tot off t t' :=
  ⟨hlog, fun j _ => hrest j, fun k hk => ⟨h k hk, .inr (.inr (h k hk))⟩⟩

/-- A block that `bmap` returns is none of the inode blocks. -/
theorem Mapped.data {bn a : Nat} {s s' : St} (h : Mapped sb full ip bn a s s')
    (hi : Live sb (view s ip) (s.inode ip).inum) (ha : a ≠ 0) : sb.nmeta ≤ a := by
  have hcell : cell sb s'.blk (view s' ip) ((s'.inode ip).inum, dataSlot bn) = some a :=
    cell_some.2 ⟨h.toReaddress.live_self hi, by rw [view_self]; exact h.addr ha, ha⟩
  exact (h.rep.ledger.in_pool _ _ hcell).1

end Loop

section Rest
variable {sb : Superblock} {full : Prop} {ip : Fin NINODE}

end Rest

section Tears
variable {sb : Superblock} {ip : Fin NINODE}

theorem Superblock.iblock_lt {i : Nat} (h : i < sb.ninodes) : sb.iblock i < sb.nmeta := by
  have := Nat.div_le_div_right (c := IPB) (Nat.le_of_lt h)
  unfold Superblock.iblock Superblock.nmeta Superblock.bmapstart
  omega

variable {s : St} {mem : Vm.Phys} {pt src : Nat} {off n : UInt32}

end Tears

/-! ## The results -/

section Results
variable {sb : Superblock} {ip : Fin NINODE} {s s' : St} {mem : Vm.Phys} {pt src : Nat} {off n : UInt32}

end Results

/-- A process with one page, at address 0, full of sevens. -/
def onePage : Vm.Phys :=
  let empty : Vm.Phys :=
    { mem := fun p => if p = 0x87003 then fun _ => 7 else Bytes.zero, freelist := [], refuse := [],
      kend := 0x80000000 }
  let user := Vm.PTE_V ||| Vm.PTE_R ||| Vm.PTE_W ||| Vm.PTE_U
  ((empty.setWord 0x87000000 (Vm.pa2pte 0x87001000 ||| Vm.PTE_V)).setWord 0x87001000
    (Vm.pa2pte 0x87002000 ||| Vm.PTE_V)).setWord 0x87002000 (Vm.pa2pte 0x87003000 ||| user)

/-- A file of a hundred zeros. -/
def hundred : St :=
  match writei tiny 0 (fun _ => 0) none 0 100 tinyFile with
  | .ok (_, s) => s
  | .error _ => tinyFile

theorem hundred_ok : InodeOk tiny hundred 0 := by
  obtain ⟨r, s, hrun, hspec⟩ := (writei_spec (fun _ => 0) none 0 100 tinyFile_ok.rep tinyFile_ok.live).returns
  have hs : hundred = s := by
    unfold hundred
    rw [hrun]
  have hr : (writei tiny 0 (fun _ => 0) none 0 100 tinyFile).map Prod.fst = .ok 100 := by decide +kernel
  rw [hrun] at hr
  obtain rfl : r = 100 := Except.ok.inj hr
  rcases hspec with ⟨e, _⟩ | ⟨k, t, hk, _, w, hs'⟩
  · omega
  · have e : k = 100 := by omega
    subst e
    rw [hs, hs']
    exact (w.contents tinyFile_ok (Nat.zero_le _)).1

end Xv6.Fs
