import Xv6.File.Basic
import Xv6.Fs.Short
import Xv6.Vm.Translate

/-!
# Reading an open file (`fileread`, `piperead`, `consoleread`)

A call runs on the parts of the kernel that it reads and on the memory of the
process. Each back end returns, beside its value, the user addresses that it
has stored to. A call that sleeps is given what the rest of the system does
before it wakes up (`Wake`), which may be anything. When there is no more of
that, the call has not returned (`Stop.asleep`).

* `Next.store`: one `copyout`, as part of a run of stores to consecutive
  addresses; the loops of the three back ends are such runs.
* `readi_delivers`: what `readi` stores of a file without holes.
* `read_bounded`: `fileread` stores at most `n` bytes, at the addresses
  given, and returns -1 or their number, exactly if `n ≥ 0`, the file is a
  pipe or a device, or `readi` is not asked for anything it could deliver.
* `negative_read`: a negative `n` is a large unsigned number to `readi`, and
  the whole file is stored.
-/
namespace Xv6.File
open Function (update)

def INPUT_BUF_SIZE : Nat := 128

/-- mirrors kernel/console.c:44-53, without the edit index -/
structure Cons where
  buf : Nat → UInt8
  r : UInt32
  w : UInt32

structure Kern where
  fs : Fs.St
  mem : Vm.Phys
  cons : Cons
  pipes : Nat → Pipe

/-- Why a call does not return. -/
inductive Stop where
  | fs (p : Fs.Panic)
  | vm (p : Vm.Panic)
  /-- `panic("fileread")` -/
  | fileread
  | asleep
  deriving DecidableEq, Repr

abbrev K := Prog Stop Kern

/-- How a turn of a wait loop ends: the process has been killed, or sleeps and wakes up in what the rest of
the system has made of the state. -/
inductive Wake where
  | killed
  | resume (env : Kern → Kern)

/-- While the call sleeps, nothing is stored to memory. -/
def Quiet (ws : List Wake) : Prop := ∀ env, .resume env ∈ ws → ∀ k, (env k).mem = k.mem

section Lift
variable {α : Type}

def ofFs : Fs.M α → K α := Prog.within .fs Kern.fs fun s k => { k with fs := s }

def ofVm : Vm.M α → K α := Prog.within .vm Kern.mem fun s k => { k with mem := s }

end Lift

/-! ## Inodes -/

/-- The loop of `readi` with `user_dst`; a copy that fails makes the result -1.
mirrors kernel/fs.c:482-494 -/
def readLoop (sb : Fs.Superblock) (ip : Fin Fs.NINODE) (pt : Nat) :
    Nat → Nat → Nat → Nat → Nat → List Nat → K (Int × List Nat)
  | 0, _, _, _, tot, out => pure (tot, out)
  | passes + 1, dst, off, left, tot, out =>
    if left = 0 then pure (tot, out)
    else do
      let addr ← ofFs (Fs.bmap sb ip (off / BSIZE))
      if addr = 0 then pure (tot, out)
      else do
        let data ← ofFs (Fs.bread addr)
        let m := min left (BSIZE - off % BSIZE)
        let r ← ofVm (Vm.copyout pt dst ((List.range m).map fun i => data.get (off % BSIZE + i)))
        if r.2 then readLoop sb ip pt passes ((dst + m) % 2 ^ 64) (off + m) (left - m) (tot + m) (out ++ r.1)
        else pure (-1, out ++ r.1)

/-- mirrors kernel/fs.c:471-496, with `user_dst` -/
def readi (sb : Fs.Superblock) (ip : Fin Fs.NINODE) (pt dst : Nat) (off n : UInt32) : K (Int × List Nat) := do
  let i ← ofFs (Fs.getInode ip)
  if i.d.size < off.toNat ∨ off + n < off then pure (0, [])
  else
    let n := if i.d.size < off.toNat + n.toNat then i.d.size - off.toNat else n.toNat
    readLoop sb ip pt n dst off.toNat n 0 []

/-! ## Pipes -/

/-- `while(wait){ if(killed(myproc())) return -1; sleep(...); }`: what is left of `ws`, or `none` if the
process has been killed. -/
def sleepWhile (wait : Kern → Prop) [DecidablePred wait] : List Wake → K (Option (List Wake))
  | [] => do
    let k ← Prog.get
    if wait k then Prog.panic .asleep else pure (some [])
  | w :: ws => do
    let k ← Prog.get
    if wait k then
      match w with
      | .killed => pure none
      | .resume env => do
        Prog.modify env
        sleepWhile wait ws
    else pure (some (w :: ws))

/-- mirrors kernel/pipe.c:113-119 -/
def pipeWait (pi : Nat) : List Wake → K (Option (List Wake)) :=
  sleepWhile fun k => (k.pipes pi).empty ∧ (k.pipes pi).writeopen

/-- mirrors kernel/pipe.c:120-126 -/
def pipeCopy (pt pi addr : Nat) : Nat → Nat → List Nat → K (Int × List Nat)
  | 0, i, out => pure (i, out)
  | left + 1, i, out => do
    let k ← Prog.get
    if (k.pipes pi).empty then pure (i, out)
    else do
      Prog.modify fun k =>
        { k with pipes := update k.pipes pi { k.pipes pi with nread := (k.pipes pi).nread + 1 } }
      let r ← ofVm (Vm.copyout pt ((addr + i) % 2 ^ 64) [(k.pipes pi).next])
      if r.2 then pipeCopy pt pi addr left (i + 1) (out ++ r.1) else pure (i, out ++ r.1)

/-- mirrors kernel/pipe.c:105-130 -/
def piperead (pt pi addr : Nat) (n : Int32) (ws : List Wake) : K (Int × List Nat) := do
  match ← pipeWait pi ws with
  | none => pure (-1, [])
  | some _ => pipeCopy pt pi addr n.toInt.toNat 0 []

/-! ## The console -/

/-- mirrors kernel/console.c:91-97 -/
def consoleWait : List Wake → K (Option (List Wake)) := sleepWhile fun k => k.cons.r = k.cons.w

/-- The loop of `consoleread`, with `left` bytes to go out of `target`.
mirrors kernel/console.c:88-123 -/
def consoleLoop (pt target : Nat) : Nat → List Wake → Nat → List Nat → K (Int × List Nat)
  | 0, _, _, out => pure (target, out)
  | left + 1, ws, dst, out => do
    match ← consoleWait ws with
    | none => pure (-1, out)
    | some ws => do
      let k ← Prog.get
      let c := k.cons.buf (k.cons.r.toNat % INPUT_BUF_SIZE)
      -- ^D is left for the next call, if this one has something to return
      if c = 4 then do
        if left + 1 < target then pure ()
        else Prog.modify fun k => { k with cons := { k.cons with r := k.cons.r + 1 } }
        pure ((target - (left + 1) : Nat), out)
      else do
        Prog.modify fun k => { k with cons := { k.cons with r := k.cons.r + 1 } }
        let r ← ofVm (Vm.copyout pt dst [c])
        if r.2 then
          if c = 10 then pure ((target - left : Nat), out ++ r.1)
          else consoleLoop pt target left ws ((dst + 1) % 2 ^ 64) (out ++ r.1)
        else pure ((target - (left + 1) : Nat), out ++ r.1)

/-- With `n ≤ 0` there is no pass, and `target - n` is 0.
mirrors kernel/console.c:79-127 -/
def consoleread (pt dst : Nat) (n : Int32) (ws : List Wake) : K (Int × List Nat) :=
  consoleLoop pt n.toInt.toNat n.toInt.toNat ws dst []

/-! ## Files -/

/-- `devsw[major].read`, which only the console has.
mirrors kernel/console.c:189-192 -/
def devRead (major : Int16) : Option (Nat → Nat → Int32 → List Wake → K (Int × List Nat)) :=
  if major.toInt = CONSOLE then some consoleread else none

/-- The value returned, the addresses stored to, and the file.
mirrors kernel/file.c:104-130 -/
def fileread (sb : Fs.Superblock) (f : File) (pt addr : Nat) (n : Int32) (ws : List Wake) :
    K (Int × List Nat × File) :=
  if f.readable = false then pure (-1, [], f)
  else
    match f.type with
    | .pipe => do
      let r ← piperead pt f.pipe addr n ws
      pure (r.1, r.2, f)
    | .device =>
      if f.major.toInt < 0 ∨ NDEV ≤ f.major.toInt then pure (-1, [], f)
      else
        match devRead f.major with
        | none => pure (-1, [], f)
        | some read => do
          let r ← read pt addr n ws
          pure (r.1, r.2, f)
    | .inode => do
      ofFs (Fs.ilock f.ip)
      let r ← readi sb f.ip pt addr f.off n.toUInt32
      ofFs (Fs.iunlock f.ip)
      pure (r.1, r.2, if 0 < r.1 then { f with off := f.off + UInt32.ofNat r.1.toNat } else f)
    | .none => Prog.panic .fileread

/-! ## Running a part -/

section Rules
variable {α : Type} {k : Kern} {Q : α → Kern → Prop} {R : Stop → Prop}

theorem wp_ofFs (m : Fs.M α) :
    Wp (ofFs m) k Q R ↔ Wp m k.fs (fun a s => Q a { k with fs := s }) fun e => R (.fs e) := wp_within ..

theorem wp_ofVm (m : Vm.M α) :
    Wp (ofVm m) k Q R ↔ Wp m k.mem (fun a s => Q a { k with mem := s }) fun e => R (.vm e) := wp_within ..

end Rules

/-! ## What a read delivers -/

/-- Stores to consecutive addresses from `addr` on. -/
def Consecutive (addr : Nat) (out : List Nat) : Prop := out = (List.range out.length).map (addr + ·)

/-- Memory has changed since `m₀` by a store to each of these addresses, unless others have stored to it. -/
def Memory (pt addr : Nat) (ws : List Wake) (m₀ : Vm.Phys) (out : List Nat) (m : Vm.Phys) : Prop :=
  Quiet ws → Vm.UserTable m₀ pt →
    ∃ data : List UInt8, data.length = out.length ∧ Vm.Wrote m₀ m pt addr data out.length

variable {pt addr most dst len : Nat} {ws : List Wake} {m₀ m m' : Vm.Phys} {out : List Nat}
  {f : File} {n : Int32}

theorem Consecutive.append {new : List Nat} (h : Consecutive addr out)
    (h' : Consecutive (addr + out.length) new) : Consecutive addr (out ++ new) := by
  unfold Consecutive at *
  rw [List.length_append, List.range_add, List.map_append, List.map_map, ← h]
  congr 1
  rw [h']
  simp [Nat.add_assoc, Function.comp_def]

theorem Memory.append {new : List Nat} {src : List UInt8} (h : Memory pt addr ws m₀ out m)
    (h' : Vm.UserTable m pt → Vm.Wrote m m' pt (addr + out.length) src new.length) :
    Memory pt addr ws m₀ (out ++ new) m' := by
  intro hq hu
  obtain ⟨data, hlen, hw⟩ := h hq hu
  have hw' := h' (hw.walk.user hu)
  rw [← hlen] at hw hw'
  have hboth := (hw.append hw').take
  have hle := hw'.le
  rw [List.length_append, ← hlen]
  refine ⟨_, ?_, hboth⟩
  rw [List.length_take, List.length_append]
  omega

/-- At most `most` stores from `addr` on, and -1 or their number as the value. -/
structure Delivers (pt addr most : Nat) (ws : List Wake) (m₀ : Vm.Phys) (r : Int × List Nat)
    (m : Vm.Phys) : Prop where
  le : r.2.length ≤ most
  addrs : Consecutive addr r.2
  ret : r.1 = -1 ∨ r.1 = r.2.length
  mem : Memory pt addr ws m₀ r.2 m

/-- The next store is to `dst`: there is no overflow, because what has been stored lies in user memory. -/
structure Next (pt addr : Nat) (ws : List Wake) (m₀ : Vm.Phys) (dst : Nat) (out : List Nat)
    (m : Vm.Phys) : Prop where
  addrs : Consecutive addr out
  low : dst < 2 ^ 64
  dst : dst = addr + out.length
  mem : Memory pt addr ws m₀ out m

theorem Next.first (pt : Nat) (ws : List Wake) (m : Vm.Phys) (h : addr < 2 ^ 64) :
    Next pt addr ws m addr [] m :=
  ⟨rfl, h, rfl, fun _ _ => ⟨[], rfl, Vm.Wrote.nil _ _ _ (by simp)⟩⟩

/-- One `copyout`, whether it succeeds or not. -/
theorem Next.more {src : List UInt8} {r : List Nat × Bool} (h : Next pt addr ws m₀ dst out m)
    (hr : Vm.Stored dst len r ∧ (Vm.UserTable m pt → Vm.Wrote m m' pt dst src r.1.length)) :
    Consecutive addr (out ++ r.1) ∧ Memory pt addr ws m₀ (out ++ r.1) m' :=
  ⟨h.addrs.append (h.dst ▸ hr.1.eq), h.mem.append (h.dst ▸ hr.2)⟩

theorem Next.store {src : List UInt8} {r : List Nat × Bool} (h : Next pt addr ws m₀ dst out m)
    (hr : Vm.Stored dst len r ∧ (Vm.UserTable m pt → Vm.Wrote m m' pt dst src r.1.length))
    (hm : r.1.length = len) (hpos : 0 < len) : Next pt addr ws m₀ ((dst + len) % 2 ^ 64) (out ++ r.1) m' := by
  have hlow := hr.1.low (by omega)
  obtain ⟨haddrs, hmem⟩ := h.more hr
  refine ⟨haddrs, Nat.mod_lt _ (by decide), ?_, hmem⟩
  rw [List.length_append, hm, ← Nat.add_assoc, ← h.dst]
  omega

/-- A single byte, as the streams store it. -/
theorem Next.byte {b : UInt8} {r : List Nat × Bool} (h : Next pt addr ws m₀ dst out m)
    (hr : Vm.Stored dst [b].length r ∧ (Vm.UserTable m pt → Vm.Wrote m m' pt dst [b] r.1.length)) :
    (r.2 = true → Next pt addr ws m₀ ((dst + 1) % 2 ^ 64) (out ++ r.1) m' ∧
      (out ++ r.1).length = out.length + 1) ∧
    (¬r.2 = true → out.length ≤ most → Delivers pt addr most ws m₀ (out.length, out ++ r.1) m') := by
  have hle := hr.1.le
  have hok := hr.1.ok
  simp only [List.length_singleton] at hle hok
  refine ⟨fun ho => ⟨h.store hr (hok.1 ho) Nat.one_pos, by rw [List.length_append, hok.1 ho]⟩,
    fun ho hmost => ?_⟩
  have hnil : r.1 = [] := List.eq_nil_of_length_eq_zero (by
    have : r.1.length ≠ 1 := fun e => ho (hok.2 e)
    omega)
  have hmem := (h.more hr).2
  rw [hnil, List.append_nil] at hmem ⊢
  exact ⟨hmost, h.addrs, .inr rfl, hmem⟩

/-- A call that ends here. -/
theorem Next.ends {v : Int} (h : Next pt addr ws m₀ dst out m) (hle : out.length ≤ most)
    (hv : v = -1 ∨ v = out.length) : Delivers pt addr most ws m₀ (v, out) m := ⟨hle, h.addrs, hv, h.mem⟩

/-- If not even the first byte has been stored, its address is not the user's. -/
theorem Next.refused {src : List UInt8} {r : List Nat × Bool} (h : Next pt addr [] m₀ dst out m)
    (hu : Vm.UserTable m₀ pt) (hw : Vm.UserTable m pt → Vm.Wrote m m' pt dst src r.1.length)
    (hsrc : 0 < src.length) (hnil : (out ++ r.1).length = 0) : ¬Vm.Accessible m₀ pt addr := by
  rw [List.length_append] at hnil
  obtain ⟨data, -, hw₀⟩ := h.mem (fun _ he => absurd he List.not_mem_nil) hu
  have hstop := (hw (hw₀.walk.user hu)).stop (by omega)
  rwa [show r.1.length = 0 by omega, h.dst, show out.length = 0 by omega, hw₀.walk.accessible] at hstop

section Inode
variable {sb : Fs.Superblock} {ip : Fin Fs.NINODE}

/-- On an inode without holes the loop does not get to `balloc`. -/
theorem readLoop_delivers (hu : Vm.UserTable m₀ pt) (passes : Nat) :
    ∀ {k : Kern} {dst off left : Nat} (out : List Nat),
    left ≤ passes → out.length + left ≤ most → Next pt addr [] m₀ dst out k.mem →
    (∀ j, off ≤ j → j < off + left → Fs.slot k.fs.blk (k.fs.inode ip).d (Fs.dataSlot (j / BSIZE)) ≠ 0) →
    Wp (readLoop sb ip pt passes dst off left out.length out) k (fun r k' => k'.fs = k.fs ∧
      Delivers pt addr most [] m₀ r k'.mem ∧
      (0 < out.length + left → Vm.Accessible m₀ pt addr → 0 < r.2.length)) fun _ => False := by
  induction passes with
  | zero =>
    intro k dst off left out hp hle hn _
    exact (wp_pure _).2 ⟨rfl, hn.ends (by omega) (.inr rfl), fun h _ => by dsimp only; omega⟩
  | succ passes ih =>
    intro k dst off left out hp hle hn hmap
    unfold readLoop
    rw [wp_ite]
    refine ⟨fun _ => (wp_pure _).2 ⟨rfl, hn.ends (by omega) (.inr rfl), fun h _ => by dsimp only; omega⟩,
      fun hleft => ?_⟩
    have hslot := hmap off (Nat.le_refl _) (by omega)
    rw [wp_bind, wp_ofFs]
    refine (Fs.bmap_mapped hslot).post fun a s ha => ?_
    obtain ⟨rfl, rfl⟩ := ha
    rw [if_neg hslot, wp_bind, wp_ofFs, Fs.wp_bread, wp_bind, wp_ofVm]
    generalize hm : min left (BSIZE - off % BSIZE) = m
    have hmod : off % BSIZE < BSIZE := Nat.mod_lt _ (by decide)
    refine (Vm.copyout_spec _ pt dst _).post fun r s hr => ?_
    have hw := hr.2
    rw [List.length_map, List.length_range] at hr
    rw [wp_ite]
    refine ⟨fun ho => ?_, fun _ => ?_⟩
    · have hfull := hr.1.ok.1 ho
      have hnext := hn.store hr hfull (by omega)
      have hlen : (out ++ r.1).length = out.length + m := by rw [List.length_append, hfull]
      rw [← hlen]
      exact Wp.post (ih _ (by omega) (by omega) hnext fun j h1 h2 => hmap j (by omega) (by omega))
        fun q k' h => ⟨h.1, h.2.1, fun _ => h.2.2 (by omega)⟩
    · obtain ⟨haddrs, hmem⟩ := hn.more hr
      have hle' := hr.1.le
      refine (wp_pure _).2 ⟨rfl, ⟨by rw [List.length_append]; omega, haddrs, .inl rfl, hmem⟩, fun _ ha => ?_⟩
      exact Nat.pos_of_ne_zero fun hnil => hn.refused hu hw (by simp; omega) hnil ha

/-- `n` as `readi` takes it, cut off at the end of the file. -/
def asked (size : Nat) (off n : UInt32) : Nat :=
  if size < off.toNat ∨ off + n < off then 0
  else if size < off.toNat + n.toNat then size - off.toNat else n.toNat

theorem asked_size {size : Nat} {off n : UInt32} (h : 0 < asked size off n) :
    off.toNat + asked size off n ≤ size := by
  unfold asked at *
  split_ifs at * <;> omega

/-- What `readi` delivers of a file without holes. If there is something to read, something is stored unless
the first address is not the user's. -/
structure ReadOut (size pt addr : Nat) (off n : UInt32) (m₀ : Vm.Phys)
    (r : Int × List Nat) (m : Vm.Phys) : Prop extends Delivers pt addr (asked size off n) [] m₀ r m where
  max : 0 < r.1 → off.toNat + r.1.toNat ≤ Fs.MAXFILE * BSIZE
  first : 0 < asked size off n → (0 < r.2.length ↔ Vm.Accessible m₀ pt addr)

theorem Delivers.first {r : Int × List Nat} (h : Delivers pt addr most [] m₀ r m) (hu : Vm.UserTable m₀ pt)
    (hpos : 0 < r.2.length) : Vm.Accessible m₀ pt addr := by
  obtain ⟨data, -, hw⟩ := h.mem (fun _ he => absurd he List.not_mem_nil) hu
  exact hw.reach 0 hpos

theorem readi_delivers {k : Kern} (hu : Vm.UserTable k.mem pt) (hmap : Fs.NoHole k.fs.blk (k.fs.inode ip).d)
    (haddr : addr < 2 ^ 64) (off n : UInt32) : Wp (readi sb ip pt addr off n) k (fun r k' => k'.fs = k.fs ∧
      ReadOut (k.fs.inode ip).d.size pt addr off n k.mem r k'.mem) fun _ => False := by
  have hfirst := Next.first pt [] k.mem haddr
  unfold readi
  rw [wp_bind, wp_ofFs, Fs.wp_getInode, wp_ite]
  refine ⟨fun h => (wp_pure _).2 ⟨rfl, hfirst.ends (Nat.zero_le _) (.inr rfl),
    fun h0 => absurd h0 (Int.lt_irrefl 0),
    fun h0 => absurd h0 (by rw [asked, if_pos h]; exact Nat.lt_irrefl 0)⟩, fun h => ?_⟩
  have hask : asked (k.fs.inode ip).d.size off n = if (k.fs.inode ip).d.size < off.toNat + n.toNat then
    (k.fs.inode ip).d.size - off.toNat else n.toNat := if_neg h
  have hsize := @asked_size (k.fs.inode ip).d.size off n
  rw [← hask]
  refine (readLoop_delivers hu _ [] (Nat.le_refl _) (by simp) hfirst fun j _ hj => hmap.slot_ne ?_).post
    fun r k' h => ⟨h.1, h.2.1, fun h0 => ?_, fun h0 => ⟨h.2.1.first hu, h.2.2 (by simpa using h0)⟩⟩
  · show j < (k.fs.inode ip).d.size
    omega
  · have hle := h.2.1.le
    have hret := h.2.1.ret
    have hmax := hmap.size_le
    omega

end Inode

/-- A process in a wait loop goes on, is killed or stays asleep. -/
theorem sleepWhile_asleep (wait : Kern → Prop) [DecidablePred wait] (ws : List Wake) : ∀ k,
    Wp (sleepWhile wait ws) k (fun o k' => (∀ ws', o = some ws' → ws' ⊆ ws) ∧ (Quiet ws → k'.mem = k.mem))
      (· = .asleep) := by
  induction ws with
  | nil =>
    intro k
    unfold sleepWhile
    rw [wp_bind, wp_get, wp_ite]
    exact ⟨fun _ => (wp_panic _).2 rfl,
      fun _ => (wp_pure _).2 ⟨fun _ e => by cases e; exact fun _ => id, fun _ => rfl⟩⟩
  | cons w ws ih =>
    intro k
    unfold sleepWhile
    rw [wp_bind, wp_get, wp_ite]
    refine ⟨fun _ => ?_, fun _ => (wp_pure _).2 ⟨fun _ e => by cases e; exact fun _ => id, fun _ => rfl⟩⟩
    cases w with
    | killed => exact (wp_pure _).2 ⟨nofun, fun _ => rfl⟩
    | resume env =>
      rw [wp_bind, wp_modify]
      refine (ih (env k)).post fun o k' h =>
        ⟨fun ws' e => List.Subset.trans (h.1 ws' e) (List.subset_cons_self ..), fun hq => ?_⟩
      rw [h.2 fun e he => hq e (List.mem_cons_of_mem _ he), hq env (List.mem_cons_self ..)]

/-- What has been stored, when the process goes on. -/
theorem Next.woken {ws' : List Wake} (h : Next pt addr ws m₀ dst out m) (hsub : ws' ⊆ ws)
    (hm : Quiet ws' → m' = m) : Next pt addr ws m₀ dst out m' := by
  refine { h with mem := fun hq hu => ?_ }
  rw [hm fun env he => hq env (hsub he)]
  exact h.mem hq hu

theorem pipeCopy_delivers (pt pi addr most : Nat) (ws : List Wake) (m₀ : Vm.Phys) (left : Nat) :
    ∀ {k : Kern} (out : List Nat),
    out.length + left ≤ most → Next pt addr ws m₀ (addr + out.length) out k.mem →
    Wp (pipeCopy pt pi addr left out.length out) k
    (fun r k' => Delivers pt addr most ws m₀ r k'.mem) (· = .asleep) := by
  induction left with
  | zero =>
    intro k out hle hn
    exact (wp_pure _).2 (hn.ends hle (.inr rfl))
  | succ left ih =>
    intro k out hle hn
    unfold pipeCopy
    rw [wp_bind, wp_get, wp_ite]
    refine ⟨fun _ => (wp_pure _).2 (hn.ends (by omega) (.inr rfl)), fun _ => ?_⟩
    rw [wp_bind, wp_modify, wp_bind, Nat.mod_eq_of_lt hn.low, wp_ofVm]
    refine (Vm.copyout_spec _ pt _ _).mono (fun r s hr => ?_) fun _ => False.elim
    obtain ⟨hstored, hlost⟩ := hn.byte hr
    rw [wp_ite]
    refine ⟨fun hok => ?_, fun hok => ?_⟩
    · obtain ⟨hnext, hlen⟩ := hstored hok
      rw [hnext.dst] at hnext
      rw [← hlen]
      exact ih _ (by omega) hnext
    · exact (wp_pure _).2 (hlost hok (by omega))

theorem piperead_delivers (pt pi : Nat) {addr : Nat} (n : Int32) (ws : List Wake) (k : Kern)
    (haddr : addr < 2 ^ 64) :
    Wp (piperead pt pi addr n ws) k
    (fun r k' => Delivers pt addr n.toInt.toNat ws k.mem r k'.mem) (· = .asleep) := by
  unfold piperead pipeWait
  refine (sleepWhile_asleep _ ws k).bind fun o k' h => ?_
  have hn := (Next.first pt ws k.mem haddr).woken (fun _ => id) h.2
  cases o with
  | none => exact (wp_pure _).2 (hn.ends (Nat.zero_le _) (.inl rfl))
  | some u => exact pipeCopy_delivers pt pi addr _ ws k.mem n.toInt.toNat [] (by simp) hn

theorem consoleLoop_delivers (pt addr target : Nat) (ws₀ : List Wake) (m₀ : Vm.Phys) (left : Nat) :
    ∀ {k : Kern} {ws : List Wake} {dst : Nat} (out : List Nat), out.length + left = target → ws ⊆ ws₀ →
    Next pt addr ws₀ m₀ dst out k.mem →
    Wp (consoleLoop pt target left ws dst out) k
    (fun r k' => Delivers pt addr target ws₀ m₀ r k'.mem) (· = .asleep) := by
  induction left with
  | zero =>
    intro k ws dst out hle _ hn
    exact (wp_pure _).2 (hn.ends (by omega) (.inr (by omega)))
  | succ left ih =>
    intro k ws dst out hle hws hn
    unfold consoleLoop
    refine (sleepWhile_asleep _ ws k).bind fun o k' h => ?_
    have hn := hn.woken hws h.2
    cases o with
    | none => exact (wp_pure _).2 (hn.ends (by omega) (.inl rfl))
    | some ws' =>
      have hws := List.Subset.trans (h.1 ws' rfl) hws
      rw [wp_bind, wp_get, wp_ite]
      refine ⟨fun _ => ?_, fun _ => ?_⟩
      -- ^D
      · rw [wp_ite]
        refine ⟨fun _ => (wp_pure _).2 (hn.ends (by omega) (.inr (by omega))), fun _ => ?_⟩
        rw [wp_bind, wp_modify]
        exact (wp_pure _).2 (hn.ends (by omega) (.inr (by omega)))
      rw [wp_bind, wp_modify, wp_bind, wp_ofVm]
      refine (Vm.copyout_spec _ pt _ _).mono (fun r s hr => ?_) fun _ => False.elim
      obtain ⟨hstored, hlost⟩ := hn.byte hr
      rw [wp_ite]
      refine ⟨fun hok => ?_, fun hok => ?_⟩
      · obtain ⟨hnext, hlen⟩ := hstored hok
        rw [wp_ite]
        exact ⟨fun _ => (wp_pure _).2 (hnext.ends (by omega) (.inr (by omega))),
          fun _ => ih _ (by omega) hws hnext⟩
      · rw [wp_pure, show ((target - (left + 1) : Nat) : Int) = out.length by omega]
        exact hlost hok (by omega)

/-! ## `fileread` -/

/-- The inode as `ilock` leaves it. -/
def current (s : Fs.St) (ip : Fin Fs.NINODE) : Fs.Dinode :=
  if (s.inode ip).valid then (s.inode ip).d else s.dinode (s.inode ip).inum

theorem ilock_current (s : Fs.St) (ip : Fin Fs.NINODE) :
    Wp (Fs.ilock ip) s (fun _ s' => s'.blk = s.blk ∧ (s'.inode ip).d = current s ip ∧
      (s'.inode ip).locked = true ∧ 1 ≤ (s'.inode ip).ref)
      (fun _ => (s.inode ip).ref < 1 ∨ (s.inode ip).locked = true ∨
        (s.inode ip).valid = false ∧ (s.dinode (s.inode ip).inum).type = .free) := by
  unfold Fs.ilock current
  rw [wp_bind, Fs.wp_getInode, wp_ite]
  refine ⟨fun h => (wp_panic _).2 (.inl h), fun href => ?_⟩
  rw [wp_ite]
  refine ⟨fun h => (wp_panic _).2 (.inr (.inl h)), fun _ => ?_⟩
  rw [wp_ite]
  refine ⟨fun hv => ?_, fun hv => ?_⟩
  · rw [Fs.wp_setInode, if_pos hv]
    refine ⟨rfl, ?_⟩
    simp only [Function.update_self]
    exact ⟨trivial, trivial, by omega⟩
  · rw [wp_bind, wp_get, wp_bind, Fs.wp_setInode, wp_ite, if_neg hv]
    refine ⟨fun h => (wp_panic _).2 (.inr (.inr ⟨by simpa using hv, h⟩)), fun _ => (wp_pure _).2 ⟨rfl, ?_⟩⟩
    simp only [Function.update_self]
    exact ⟨trivial, trivial, by omega⟩

/-- An inode that can be locked and has no holes. -/
structure Ready (s : Fs.St) (ip : Fin Fs.NINODE) : Prop where
  ref : 1 ≤ (s.inode ip).ref
  unlocked : (s.inode ip).locked = false
  typed : (s.inode ip).valid = true ∨ (s.dinode (s.inode ip).inum).type ≠ .free
  mapped : Fs.NoHole s.blk (current s ip)

/-- `readi`, to which a negative `n` is a large number, does no harm if the offset is at the end of the file,
`off + n` wraps around or the first address is not the user's. -/
def InRange (k : Kern) (f : File) (pt addr : Nat) (n : Int32) : Prop :=
  f.type = .inode → f.readable = true → 0 ≤ n.toInt ∨ (current k.fs f.ip).size ≤ f.off.toNat ∨
    2 ^ 32 ≤ f.off.toNat + n.toUInt32.toNat ∨ ¬Vm.Accessible k.mem pt addr

theorem toInt_cond (n : Int32) : n.toInt =
    if 2 * n.toUInt32.toNat < 2 ^ 32 then (n.toUInt32.toNat : Int) else n.toUInt32.toNat - (2 ^ 32 : Nat) :=
  BitVec.toInt_eq_toNat_cond _

theorem asked_le {size : Nat} {off : UInt32}
    (h : 0 ≤ n.toInt ∨ size ≤ off.toNat ∨ 2 ^ 32 ≤ off.toNat + n.toUInt32.toNat) :
    asked size off n.toUInt32 ≤ n.toInt.toNat := by
  have hn := toInt_cond n
  unfold asked
  simp only [Fs.add_wraps]
  split_ifs at * <;> omega

theorem asked_pos {size : Nat} {off : UInt32}
    (h : ¬(0 ≤ n.toInt ∨ size ≤ off.toNat ∨ 2 ^ 32 ≤ off.toNat + n.toUInt32.toNat)) :
    0 < asked size off n.toUInt32 := by
  have hn := toInt_cond n
  unfold asked
  simp only [Fs.add_wraps]
  split_ifs at * <;> omega

/-- What `fileread` may do: at most `most` stores at the addresses given, -1 or their number as the value, and
the offset of an inode file moved by it. -/
structure Bounded (f : File) (pt addr most : Nat) (ws : List Wake) (m₀ : Vm.Phys) (r : Int × List Nat × File)
    (m : Vm.Phys) : Prop extends Delivers pt addr most ws m₀ (r.1, r.2.1) m where
  off : f.type = .inode → 0 ≤ r.1 → r.2.2.off.toNat = f.off.toNat + r.1.toNat

theorem Bounded.refused (f : File) (pt : Nat) {addr : Nat} (most : Nat) (ws : List Wake) (m : Vm.Phys)
    (h : addr < 2 ^ 64) : Bounded f pt addr most ws m (-1, [], f) m :=
  ⟨⟨Nat.zero_le _, rfl, .inl rfl, (Next.first pt ws m h).mem⟩,
    fun _ h0 => absurd h0 (show ¬(0 : Int) ≤ -1 by decide)⟩

theorem Ready.no_panic {s : Fs.St} {ip : Fin Fs.NINODE} (h : Ready s ip) : ¬((s.inode ip).ref < 1 ∨
    (s.inode ip).locked = true ∨ (s.inode ip).valid = false ∧ (s.dinode (s.inode ip).inum).type = .free) := by
  rintro (h1 | h1 | ⟨h1, h2⟩)
  · exact absurd h.ref (by omega)
  · exact absurd (h.unlocked.symm.trans h1) (by decide)
  · rcases h.typed with h3 | h3
    · exact absurd (h1.symm.trans h3) (by decide)
    · exact h3 h2

/-- An inode file that is readable. -/
theorem fileread_inode {sb : Fs.Superblock} {addr : UInt64} {k : Kern} (hu : Vm.UserTable k.mem pt)
    (hi : f.type = .inode) (h : Ready k.fs f.ip) (hr : f.readable = true) :
    Wp (fileread sb f pt addr.toNat n ws) k (fun r k' =>
      Bounded f pt addr.toNat (asked (current k.fs f.ip).size f.off n.toUInt32) ws k.mem r k'.mem ∧
      (0 < asked (current k.fs f.ip).size f.off n.toUInt32 →
        (0 < r.2.1.length ↔ Vm.Accessible k.mem pt addr.toNat)))
      fun _ => False := by
  unfold fileread
  rw [if_neg (by rw [hr]; decide), hi, wp_bind, wp_ofFs]
  refine (ilock_current k.fs f.ip).mono (fun _ s hs => ?_) fun _ => h.no_panic
  obtain ⟨hblk, hd, hlocked, href⟩ := hs
  have hmap : Fs.NoHole s.blk (s.inode f.ip).d := by
    rw [hblk, hd]
    exact h.mapped
  refine (readi_delivers (k := { k with fs := s }) hu hmap addr.toNat_lt f.off n.toUInt32).bind
    fun r k' hr => ?_
  obtain ⟨hk', hr⟩ := hr
  simp only [hd] at hr
  -- the lock is still held
  rw [wp_bind, wp_ofFs, Fs.iunlock, hk', wp_bind, Fs.wp_getInode, if_neg, Fs.wp_setInode, wp_pure]
  · refine ⟨⟨{ hr with mem := fun _ => hr.mem fun _ he => absurd he List.not_mem_nil }, fun _ h0 => ?_⟩,
      hr.first⟩
    dsimp only at h0 ⊢
    split
    · rename_i hpos
      have hmax := hr.max hpos
      rw [UInt32.toNat_add, UInt32.toNat_ofNat']
      simp only [Fs.MAXFILE, Fs.NDIRECT, Fs.NINDIRECT, BSIZE] at hmax
      omega
    · omega
  · rintro (h1 | h1)
    · exact absurd (hlocked.symm.trans h1) (by decide)
    · exact absurd (show (s.inode f.ip).ref < 1 from h1) (not_lt.2 href)

theorem fileread_stream (sb : Fs.Superblock) (f : File) (pt : Nat) (addr : UInt64) (n : Int32)
    (ws : List Wake) (k : Kern) (hf : f.type = .pipe ∨ f.type = .device) :
    Wp (fileread sb f pt addr.toNat n ws) k
    (fun r k' => Bounded f pt addr.toNat n.toInt.toNat ws k.mem r k'.mem)
      (· = .asleep) := by
  have hni : f.type ≠ .inode := by
    rcases hf with h | h <;> rw [h] <;> decide
  have hno := Bounded.refused f pt n.toInt.toNat ws k.mem addr.toNat_lt
  unfold fileread
  rw [wp_ite]
  refine ⟨fun _ => (wp_pure _).2 hno, fun _ => ?_⟩
  rcases hf with hp | hd
  · rw [hp]
    exact (piperead_delivers pt f.pipe n ws k addr.toNat_lt).bind fun r _ hr =>
      (wp_pure _).2 ⟨hr, fun hi => absurd hi hni⟩
  · rw [hd]
    rw [wp_ite]
    refine ⟨fun _ => (wp_pure _).2 hno, fun _ => ?_⟩
    unfold devRead
    by_cases hc : f.major.toInt = CONSOLE
    · rw [if_pos hc]
      exact (consoleLoop_delivers pt addr.toNat n.toInt.toNat ws k.mem n.toInt.toNat []
        (by simp) (fun _ => id)
        (Next.first pt ws k.mem addr.toNat_lt)).bind fun r _ hr => (wp_pure _).2 ⟨hr, fun hi => absurd hi hni⟩
    · rw [if_neg hc]
      exact (wp_pure _).2 hno

/-- What `fileread` returns, if it returns, is bounded by `n`. -/
def NeverMore (sb : Fs.Superblock) (f : File) (pt addr : Nat) (n : Int32)
    (ws : List Wake) (k : Kern) : Prop :=
  ∀ r k', fileread sb f pt addr n ws k = .ok (r, k') → Bounded f pt addr n.toInt.toNat ws k.mem r k'.mem

theorem fileread_unreadable (sb : Fs.Superblock) (pt addr : Nat) (n : Int32) (ws : List Wake) (k : Kern)
    (h : f.readable = false) : fileread sb f pt addr n ws k = .ok ((-1, [], f), k) := by
  unfold fileread
  rw [if_pos h]
  rfl

/-- An inode file delivers too much exactly when a negative `n` gets as far as the first store. -/
theorem neverMore_inode {sb : Fs.Superblock} {addr : UInt64} {k : Kern} (hu : Vm.UserTable k.mem pt)
    (hi : f.type = .inode) (h : Ready k.fs f.ip) (hr : f.readable = true) :
    NeverMore sb f pt addr.toNat n ws k ↔ InRange k f pt addr.toNat n := by
  have hspec : Wp (fileread sb f pt addr.toNat n ws) k _ _ := fileread_inode hu hi h hr
  obtain ⟨r, k', hrun, hb, hfirst⟩ := hspec.returns
  -- there is one run, so its bound is the bound
  have hone : NeverMore sb f pt addr.toNat n ws k ↔ r.2.1.length ≤ n.toInt.toNat := by
    refine ⟨fun hnever => (hnever r k' hrun).le, fun hle q k'' hq => ?_⟩
    rw [hrun] at hq
    cases hq
    exact { hb with le := hle }
  rw [hone]
  by_cases hsafe : 0 ≤ n.toInt ∨ (current k.fs f.ip).size ≤ f.off.toNat ∨
    2 ^ 32 ≤ f.off.toNat + n.toUInt32.toNat
  · exact iff_of_true (Nat.le_trans hb.le (asked_le hsafe)) fun _ _ => by tauto
  have hfirst := hfirst (asked_pos hsafe)
  rw [show n.toInt.toNat = 0 by omega, Nat.le_zero, ← not_iff_not, ← Ne, ← Nat.pos_iff_ne_zero, hfirst]
  refine ⟨fun ha hrange => ?_, fun hno => ?_⟩
  · have := hrange hi hr
    tauto
  · by_contra hna
    exact hno fun _ _ => .inr (.inr (.inr hna))

/-- What `fileread` returns is bounded by `n` if and only if a negative `n`
does not get as far as the first store. It does return from an inode that
can be read, and from a pipe or a device unless it sleeps for good. -/
theorem read_bounded (sb : Fs.Superblock) (f : File) (pt : Nat) (addr : UInt64) (n : Int32)
    (ws : List Wake) (k : Kern) (hu : Vm.UserTable k.mem pt) (hready : f.type = .inode → Ready k.fs f.ip) :
    (NeverMore sb f pt addr.toNat n ws k ↔ InRange k f pt addr.toNat n) ∧
      (f.type = .inode → ∃ r k', fileread sb f pt addr.toNat n ws k = .ok (r, k')) ∧
      (f.type = .pipe ∨ f.type = .device → (∃ r k', fileread sb f pt addr.toNat n ws k = .ok (r, k')) ∨
        fileread sb f pt addr.toNat n ws k = .error .asleep) := by
  refine ⟨?_, fun hi => ?_, fun hf => ?_⟩
  · by_cases hr : f.readable = true
    · cases hf : f.type with
      | inode => exact neverMore_inode hu hf (hready hf) hr
      | none =>
        refine iff_of_true (fun r k' hrun => ?_) fun hi => absurd (hf.symm.trans hi) (by decide)
        unfold fileread at hrun
        rw [if_neg (by rw [hr]; decide), hf] at hrun
        cases hrun
      | pipe =>
        exact iff_of_true (fun r k' hrun => (fileread_stream sb f pt addr n ws k (.inl hf)).of_ok hrun)
          fun hi => absurd (hf.symm.trans hi) (by decide)
      | device =>
        exact iff_of_true (fun r k' hrun => (fileread_stream sb f pt addr n ws k (.inr hf)).of_ok hrun)
          fun hi => absurd (hf.symm.trans hi) (by decide)
    · refine iff_of_true (fun r k' hrun => ?_) fun _ h' => absurd h' hr
      rw [fileread_unreadable sb pt _ n ws k (by simpa using hr)] at hrun
      cases hrun
      exact Bounded.refused f pt _ ws k.mem addr.toNat_lt
  · by_cases hr : f.readable = true
    · obtain ⟨r, k', hrun, _⟩ := (fileread_inode hu hi (hready hi) hr).returns
      exact ⟨r, k', hrun⟩
    · exact ⟨_, _, fileread_unreadable sb pt _ n ws k (by simpa using hr)⟩
  · cases hrun : fileread sb f pt addr.toNat n ws k with
    | ok r => exact .inl ⟨r.1, r.2, rfl⟩
    | error e => exact .inr (by rw [(fileread_stream sb f pt addr n ws k hf).of_error hrun])

/-- A file of a hundred bytes, in a system with one page of user memory. -/
def hundred : Kern where
  fs := { Fs.hundred with inode := fun k => { Fs.hundred.inode k with locked := false } }
  mem := Vm.onePage
  cons := { buf := fun _ => 0, r := 0, w := 0 }
  pipes _ := { data := fun _ => 0, nread := 0, nwrite := 0, readopen := false, writeopen := false }

def hundredFile : File :=
  { type := .inode, ref := 1, readable := true, writable := false, pipe := 0, ip := 0, off := 0, major := 0 }

theorem hundred_ready : Ready hundred.fs 0 := by
  refine ⟨by decide +kernel, rfl, .inl (by decide +kernel), ?_⟩
  have hd : current hundred.fs 0 = (Fs.hundred.inode 0).d := if_pos (by decide +kernel)
  rw [hd]
  exact Fs.hundred_ok.mapped

/-- The first forty bytes of the file. -/
theorem read_bounded_forty :
    ∃ r k, fileread Fs.tiny hundredFile 0x80010000 (0 : UInt64).toNat 40 [] hundred = .ok (r, k) ∧
    r.1 = 40 ∧ r.2.2.off.toNat = 40 ∧ ∃ data : List UInt8, data.length = 40 ∧
      Vm.Wrote Vm.onePage k.mem 0x80010000 (0 : UInt64).toNat data 40 := by
  obtain ⟨hiff, hret, -⟩ := read_bounded Fs.tiny hundredFile 0x80010000 0 40 [] hundred Vm.userTable_onePage
    fun _ => hundred_ready
  obtain ⟨r, k, hrun⟩ := hret rfl
  have hb := hiff.2 (fun _ _ => .inl (by decide)) r k hrun
  have hval : (fileread Fs.tiny hundredFile 0x80010000 (0 : UInt64).toNat 40 [] hundred).map
      (·.1.1) = .ok 40 := by
    decide +kernel
  rw [hrun] at hval
  have hval : r.1 = 40 := Except.ok.inj hval
  have hlen : r.2.1.length = 40 := by have := hb.ret; simp only at this; omega
  have hoff := hb.off rfl (by omega)
  rw [hval] at hoff
  obtain ⟨data, hd, hw⟩ := hb.mem (fun _ he => absurd he List.not_mem_nil) Vm.userTable_onePage
  simp only [hlen] at hd hw
  exact ⟨r, k, hrun, hval, hoff, data, hd, hw⟩

/-- `read(fd, 0, -1)` at the beginning of the file stores all of it. -/
theorem negative_read : Ready hundred.fs 0 ∧
    (fileread Fs.tiny hundredFile 0x80010000 0 (-1) [] hundred).map (fun x => (x.1.1, x.1.2.1, x.1.2.2.off)) =
      .ok (100, List.range 100, 100) := by
  refine ⟨hundred_ready, ?_⟩
  decide +kernel

end Xv6.File
