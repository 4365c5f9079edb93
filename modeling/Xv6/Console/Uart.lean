import Xv6.Core.LTS
import Xv6.Core.Ring
import Mathlib.Data.Fintype.Sum

/-!
# The transmit ring of the UART (`kernel/uart.c`)

The threads are `n` processes that call `uartputc` and the interrupt handlers
of `m` CPUs, each of which runs `uartintr`. A step is what a thread does between
two places where another may come in: one turn of a loop, one process passed by
`wakeup`, one half of `sleep`. Whether the transmitter is ready is up to each
step. A handler interrupts the process of its CPU, `myproc()`, which stands
still until the handler is done; that process has interrupts on then, so it holds no lock
and is not in `sleep`. The input half of `uartintr` and `uartputc_sync` touch neither the ring nor its lock.

* `Tx.Ok`: the ring holds what has been accepted and not yet taken, in order.
* `Inv.moves`: what a step of one thread has to keep; a sleeper has a full ring,
  or the holder of the lock has yet to pass it in `wakeup`.
* `uart_order`: the three facts, in every reachable state.
-/
namespace Xv6.Uart
open Function (update update_self update_of_ne)

def UART_TX_BUF_SIZE : Nat := 32

/-- The static variables of kernel/uart.c:43-46. Ghosts: what `uartputc` has
stored, what `uartstart` has read back, what it has written to THR. -/
structure Tx where
  buf : Nat → UInt8
  w : UInt64
  r : UInt64
  accepted : List UInt8
  taken : List UInt8
  sent : List UInt8

namespace Tx

/-- The test of kernel/uart.c:95 -/
def full (u : Tx) : Prop := u.w = u.r + 32

instance (u : Tx) : Decidable u.full := inferInstanceAs (Decidable (_ = _))

/-- mirrors kernel/uart.c:100-101 -/
def put (u : Tx) (c : UInt8) : Tx :=
  { u with
    buf := update u.buf (u.w.toNat % UART_TX_BUF_SIZE) c, w := u.w + 1, accepted := u.accepted ++ [c] }

/-- What is in the ring, oldest first. -/
def contents (u : Tx) : List UInt8 :=
  (List.range (u.w - u.r).toNat).map fun k => u.buf ((u.r.toNat + k) % UART_TX_BUF_SIZE)

/-- The character read by kernel/uart.c:149 -/
def next (u : Tx) : UInt8 := u.buf (u.r.toNat % UART_TX_BUF_SIZE)

/-- mirrors kernel/uart.c:149-150 -/
def take (u : Tx) : Tx := { u with r := u.r + 1, taken := u.taken ++ [u.next] }

/-- mirrors kernel/uart.c:155 -/
def send (u : Tx) (c : UInt8) : Tx := { u with sent := u.sent ++ [c] }

end Tx

/-- Where a thread is. -/
inductive Pc where
  | idle
  /-- in `uartputc(c)`, before `acquire` -/
  | enter (c : UInt8)
  /-- at the test of `panicked` -/
  | check (c : UInt8)
  /-- the empty loop after a panic -/
  | spin
  /-- at the test of the `while` loop -/
  | full (c : UInt8)
  /-- in `sleep`, with `p->lock` and without `uart_tx_lock` -/
  | doze (c : UInt8)
  | asleep (c : UInt8)
  /-- at the end of `sleep`, before `acquire(lk)` -/
  | relock (c : UInt8)
  /-- in `uartintr`, before `acquire` -/
  | intr
  /-- at the head of the loop of `uartstart` -/
  | start
  /-- in the `wakeup` of `uartstart`, at `proc[j]`; `c` is still to be written -/
  | wake (c : UInt8) (j : Nat)
deriving DecidableEq

/-- A process, or the handler of a CPU. -/
abbrev Thread (n m : Nat) := Fin n ⊕ Fin m

structure Sys (n m : Nat) where
  tx : Tx
  /-- who holds `uart_tx_lock` -/
  lock : Option (Thread n m)
  /-- `SLEEPING` on `&uart_tx_r` -/
  asleep : Thread n m → Bool
  panicked : Bool
  pc : Thread n m → Pc
  /-- the process that a handler has interrupted -/
  proc : Fin m → Option (Fin n)

inductive Lbl (n m : Nat) where
  | putc (p : Fin n) (c : UInt8)
  | intr (i : Fin m) (p : Option (Fin n))
  | go (t : Thread n m) (ready : Bool)
  | kill (p : Fin n)
  | panic

section
variable {n m : Nat}

def goto (s : Sys n m) (t : Thread n m) (k : Pc) : Sys n m := { s with pc := update s.pc t k }

/-- `acquire(&uart_tx_lock)`, which waits while the lock is held -/
def acquire (s : Sys n m) (t : Thread n m) (k : Pc) : Option (Sys n m) :=
  if s.lock = none then some (goto { s with lock := some t } t k) else none

def release (s : Sys n m) (t : Thread n m) (k : Pc) : Sys n m := goto { s with lock := none } t k

/-- `myproc()` of a thread -/
def myproc (s : Sys n m) : Thread n m → Option (Fin n)
  | .inl p => some p
  | .inr i => s.proc i

def Pc.dozing : Pc → Bool
  | .doze _ => true
  | _ => false

/-- One process of `wakeup(&uart_tx_r)`, or the write to THR after the last. A
process with its `p->lock` held is waited for.
mirrors kernel/proc.c:566-580 and kernel/uart.c:153-155 -/
def wakeupOne (s : Sys n m) (t : Thread n m) (c : UInt8) (j : Nat) : Option (Sys n m) :=
  if h : j < n then
    if myproc s t = some ⟨j, h⟩ then some (goto s t (.wake c (j + 1)))
    else if (s.pc (.inl ⟨j, h⟩)).dozing then none
    else some (goto { s with asleep := update s.asleep (.inl ⟨j, h⟩) false } t (.wake c (j + 1)))
  else some (goto { s with tx := s.tx.send c } t .start)

/-- mirrors kernel/uart.c:87-104, kernel/uart.c:133-157, kernel/uart.c:185-189 and kernel/proc.c:535-562 -/
def go (s : Sys n m) (t : Thread n m) (ready : Bool) : Option (Sys n m) :=
  match s.pc t with
  | .idle | .spin => none
  | .enter c => acquire s t (.check c)
  | .check c => some (goto s t (if s.panicked then .spin else .full c))
  | .full c =>
    if s.tx.full then some (release s t (.doze c)) else some (goto { s with tx := s.tx.put c } t .start)
  | .doze c => some (goto { s with asleep := update s.asleep t true } t (.asleep c))
  | .asleep c => if s.asleep t then none else some (goto s t (.relock c))
  | .relock c => acquire s t (.full c)
  | .intr => acquire s t .start
  | .start =>
    if s.tx.w = s.tx.r ∨ ready = false then some (release s t .idle)
    else some (goto { s with tx := s.tx.take } t (.wake s.tx.next 0))
  | .wake c j => wakeupOne s t c j

/-- The handler of some CPU has interrupted `t`. -/
def Frozen (s : Sys n m) (t : Thread n m) : Prop :=
  ∃ i, s.pc (.inr i) ≠ .idle ∧ ∃ p, s.proc i = some p ∧ t = .inl p

instance (s : Sys n m) (t : Thread n m) :
    Decidable (Frozen s t) := inferInstanceAs (Decidable (∃ _, _ ∧ ∃ _, _ ∧ _))

/-- Places at which a process has interrupts on. -/
def Pc.open : Pc → Bool
  | .idle | .enter _ | .relock _ => true
  | _ => false

def step (s : Sys n m) : Lbl n m → Option (Sys n m)
  | .putc p c => if s.pc (.inl p) = .idle ∧
    ¬Frozen s (.inl p) then some (goto s (.inl p) (.enter c)) else none
  | .intr i p =>
    if s.pc (.inr i) = .idle ∧ ∀ q ∈ p, (s.pc (.inl q)).open = true ∧ ¬Frozen s (.inl q) then
      some (goto { s with proc := update s.proc i p } (.inr i) .intr)
    else none
  | .go t ready => if Frozen s t then none else go s t ready
  | .kill p =>
    if (s.pc (.inl p)).dozing then none else some { s with asleep := update s.asleep (.inl p) false }
  | .panic => some { s with panicked := true }

/-- After `uartinit`. -/
structure Init (s : Sys n m) : Prop where
  w : s.tx.w = 0
  r : s.tx.r = 0
  accepted : s.tx.accepted = []
  taken : s.tx.taken = []
  sent : s.tx.sent = []
  lock : s.lock = none
  asleep : ∀ t, s.asleep t = false
  pc : ∀ t, s.pc t = .idle

def lts (n m : Nat) : LTS (Sys n m) (Lbl n m) where
  init := Init
  step s l s' := step s l = some s'

end

/-! ## The ring -/

/-- `fly` has been taken from the ring and is still to be written to THR. -/
structure Tx.Ok (u : Tx) (fly : List UInt8) : Prop where
  ring : Ring UART_TX_BUF_SIZE u.buf u.accepted u.taken.length
  order : u.taken <+: u.accepted
  w : u.w = .ofNat u.accepted.length
  r : u.r = .ofNat u.taken.length
  taken : u.taken = u.sent ++ fly

namespace Tx.Ok
variable {u : Tx} {fly : List UInt8}

/-- The counters wrap at a multiple of the size. -/
theorem index (k : Nat) : (UInt64.ofNat k).toNat % UART_TX_BUF_SIZE = k % UART_TX_BUF_SIZE := by
  rw [UInt64.toNat_ofNat', UART_TX_BUF_SIZE]; omega

theorem count (h : u.Ok fly) : (u.w - u.r).toNat = u.accepted.length - u.taken.length := by
  obtain ⟨hle, hroom⟩ := h.ring
  rw [UART_TX_BUF_SIZE] at hroom
  rw [h.w, h.r, UInt64.toNat_sub, UInt64.toNat_ofNat', UInt64.toNat_ofNat']
  omega

/-- Nothing is lost on the way: what has been accepted and not sent is in the
ring, or on its way to THR. -/
theorem accepted_eq (h : u.Ok fly) : u.accepted = u.sent ++ fly ++ u.contents := by
  have hrest : u.accepted.drop u.taken.length = u.contents := by
    rw [Tx.contents, h.count, h.ring.rest, h.r]
    refine List.map_congr_left fun k _ => ?_
    rw [Nat.add_mod u.taken.length, ← index u.taken.length, ← Nat.add_mod]
  rw [← h.taken, ← hrest]
  exact List.prefix_iff_eq_append.1 h.order |>.symm

theorem full_iff (h : u.Ok fly) : u.full ↔ u.accepted.length = u.taken.length + 32 := by
  obtain ⟨hle, hroom⟩ := h.ring
  rw [UART_TX_BUF_SIZE] at hroom
  rw [Tx.full, h.w, h.r, ← UInt64.toNat_inj, UInt64.toNat_add, UInt64.toNat_ofNat', UInt64.toNat_ofNat',
    show (32 : UInt64).toNat = 32 from rfl]
  omega

theorem put (h : u.Ok fly) (hf : ¬u.full) (c : UInt8) : (u.put c).Ok fly := by
  have hlt : u.accepted.length < u.taken.length + UART_TX_BUF_SIZE := by
    have := h.ring.room
    rw [h.full_iff] at hf
    rw [UART_TX_BUF_SIZE] at *
    omega
  refine ⟨?_, h.order.trans (List.prefix_append ..), ?_, h.r, h.taken⟩
  · simp only [Tx.put]
    rw [h.w, index]
    exact h.ring.push hlt c
  · simp [Tx.put, h.w]

theorem take (h : u.Ok []) (hne : u.w ≠ u.r) : u.take.Ok [u.next] := by
  have hlt : u.taken.length < u.accepted.length := by
    by_contra hge
    have : u.accepted.length = u.taken.length := Nat.le_antisymm (by omega) h.ring.le
    exact hne (by rw [h.w, h.r, this])
  have hcell : u.next = u.accepted[u.taken.length] := by
    rw [Tx.next, h.r, index]
    exact h.ring.cell _ hlt (Nat.le_refl _)
  refine ⟨?_, ?_, h.w, ?_, ?_⟩
  · simpa [Tx.take] using h.ring.pop hlt
  · rw [Tx.take, List.prefix_iff_eq_take]
    simp only [List.length_append, List.length_singleton]
    rw [List.take_add_one, List.getElem?_eq_getElem hlt, ← List.prefix_iff_eq_take.1 h.order, hcell]
    rfl
  · simp [Tx.take, h.r]
  · simp [Tx.take, h.taken]

theorem send {c : UInt8} (h : u.Ok [c]) : (u.send c).Ok [] :=
  { h with taken := by simpa [Tx.send] using h.taken }

end Tx.Ok

/-! ## The lock and the sleepers -/

section
variable {n m : Nat} {s s' : Sys n m} {t : Thread n m} {k : Pc}

/-- Places with `uart_tx_lock` held. -/
def Pc.inside : Pc → Bool
  | .check _ | .spin | .full _ | .start | .wake _ _ => true
  | _ => false

/-- The character that has been taken from the ring. -/
def Pc.fly : Pc → List UInt8
  | .wake c _ => [c]
  | _ => []

/-- Will pass `proc[q]` before it releases the lock. -/
def Pc.owes (q : Nat) : Pc → Prop
  | .wake _ j => j ≤ q
  | _ => False

/-- In `sleep`. -/
def Pc.away : Pc → Bool
  | .doze _ | .asleep _ => true
  | _ => false

theorem Pc.inside_of_owes {q : Nat} (h : k.owes q) : k.inside = true := by
  cases k <;> first | rfl | exact h.elim

theorem Pc.not_away_of_open (h : k.open = true) : k.away = false := by
  cases k <;> first | rfl | cases h

theorem Pc.away_of_dozing (h : k.dozing = true) : k.away = true := by
  cases k <;> first | rfl | cases h

/-- Sleeps, or is about to. -/
def Waits (s : Sys n m) (q : Fin n) : Prop := s.asleep (.inl q) = true ∨ (s.pc (.inl q)).dozing = true

structure Inv (s : Sys n m) : Prop where
  lock : ∀ t, (s.pc t).inside = true ↔ s.lock = some t
  free : s.lock = none → s.tx.Ok []
  held : ∀ t, s.lock = some t → s.tx.Ok (s.pc t).fly
  sleeps : ∀ t, s.asleep t = true → ∃ c, s.pc t = .asleep c
  /-- a handler has not interrupted a process that is in `sleep` -/
  frozen : ∀ t, Frozen s t → (s.pc t).away = false
  served : ∀ q, Waits s q → s.tx.full ∨ ∃ t, s.lock = some t ∧ (s.pc t).owes q

/-- What a step of `t` to `k` does to the lock, and then to the ring. -/
inductive LockStep (s s' : Sys n m) (t : Thread n m) (k : Pc) : Prop
  | out (was : (s.pc t).inside = false) (is : k.inside = false) (lock : s'.lock = s.lock) (tx : s'.tx = s.tx)
  | enter (free : s.lock = none) (is : k.inside = true) (lock : s'.lock = some t)
    (tx : s'.tx = s.tx) (fly : k.fly = [])
  | stay (was : (s.pc t).inside = true) (is : k.inside = true) (lock : s'.lock = s.lock)
      (tx : s.tx.Ok (s.pc t).fly → s'.tx.Ok k.fly)
  | leave (was : (s.pc t).inside = true) (is : k.inside = false) (lock : s'.lock = none) (tx : s'.tx = s.tx)
      (fly : (s.pc t).fly = [])

variable {u : Thread n m} {c : UInt8}

theorem Inv.alone (h : Inv s) (ht : (s.pc t).inside = true) (hne : u ≠ t) : (s.pc u).inside = false := by
  rw [Bool.eq_false_iff]
  intro hu
  have e := ((h.lock u).1 hu).symm.trans ((h.lock t).1 ht)
  exact hne (Option.some.inj e)

theorem Inv.awake (h : Inv s) (ht : ∀ c, s.pc t ≠ .asleep c) : s.asleep t = false := by
  rw [Bool.eq_false_iff]
  exact fun ha => (h.sleeps t ha).elim ht

/-- A step of one thread. -/
theorem Inv.moves (h : Inv s) (hL : LockStep s s' t k) (hpc : s'.pc = update s.pc t k)
    (hsleeps : ∀ u, s'.asleep u = true → u ≠ t ∧ s.asleep u = true ∨ u = t ∧ ∃ c, k = .asleep c)
    (hfrozen : ∀ u, Frozen s' u → u ≠ t ∧ (s.pc u).away = false ∨ u = t ∧ k.away = false)
    (hserved : ∀ q, Waits s' q → s'.tx.full ∨ Waits s q ∧
    (s.tx.full ∨ (s.pc t).owes q → s'.tx.full ∨ k.owes q)) : Inv s' := by
  have hself : s'.pc t = k := by rw [hpc, update_self]
  have hother : ∀ u, u ≠ t → s'.pc u = s.pc u := fun u hu => by rw [hpc, update_of_ne hu]
  have hlock : ∀ u, (s'.pc u).inside = true ↔ s'.lock = some u := by
    intro u
    by_cases hu : u = t
    · subst hu
      rw [hself]
      cases hL with
      | out was is lock | stay was is lock => rw [is, lock, ← h.lock, was]
      | enter free is lock => simp [is, lock]
      | leave was is lock => simp [is, lock]
    · rw [hother u hu]
      cases hL with
      | out _ _ lock | stay _ _ lock => rw [lock]; exact h.lock u
      | enter free is lock => simp [h.lock, free, lock, Ne.symm hu]
      | leave was is lock => simp [h.alone was hu, lock]
  refine ⟨hlock, ?_, ?_, ?_, ?_, ?_⟩
  · intro hn
    cases hL with
    | out was is lock tx => rw [tx]; exact h.free (lock ▸ hn)
    | enter free is lock => rw [lock] at hn; cases hn
    | stay was is lock => rw [lock, (h.lock t).1 was] at hn; cases hn
    | leave was is lock tx fly =>
      have := h.held t ((h.lock t).1 was)
      rwa [tx, ← fly]
  · intro u hu
    cases hL with
    | out was is lock tx =>
      have hne : u ≠ t := by
        rintro rfl
        rw [← hlock, hself, is] at hu
        cases hu
      rw [tx, hother u hne]
      exact h.held u (lock ▸ hu)
    | enter free is lock tx fly =>
      cases lock.symm.trans hu
      rw [hself, tx, fly]
      exact h.free free
    | stay was is lock tx =>
      cases ((h.lock t).1 was).symm.trans (lock.symm.trans hu)
      rw [hself]
      exact tx (h.held t ((h.lock t).1 was))
    | leave was is lock => rw [lock] at hu; cases hu
  · intro u hu
    rcases hsleeps u hu with ⟨hne, ha⟩ | ⟨rfl, hk⟩
    · rw [hother u hne]; exact h.sleeps u ha
    · rw [hself]; exact hk
  · intro u hu
    rcases hfrozen u hu with ⟨hne, ha⟩ | ⟨rfl, ha⟩
    · rw [hother u hne]; exact ha
    · rw [hself]; exact ha
  · intro q hq
    rcases hserved q hq with hf | ⟨hw, hkeep⟩
    · exact .inl hf
    have mine : s.tx.full ∨ (s.pc t).owes q →
        s'.tx.full ∨ ∃ u, s'.lock = some u ∧ (s'.pc u).owes q := fun hr =>
      (hkeep hr).imp id fun ho =>
        ⟨t, (hlock t).1 (by rw [hself]; exact Pc.inside_of_owes ho), by rw [hself]; exact ho⟩
    rcases h.served q hw with hf | ⟨u, hu, ho⟩
    · exact mine (.inl hf)
    · by_cases hne : u = t
      · exact mine (.inr (hne ▸ ho))
      · -- another thread holds the lock, so `t` leaves lock and ring alone
        have hin := Pc.inside_of_owes ho
        cases hL with
        | out was is lock => exact .inr ⟨u, lock.trans hu, by rw [hother u hne]; exact ho⟩
        | enter free => rw [free] at hu; cases hu
        | stay was | leave was => exact absurd hin (by simp [h.alone was hne])

theorem frozen_goto (hpc : s'.pc = update s.pc t k) (hproc : s'.proc = s.proc)
    (ht : s.pc t = .idle → ∃ p, t = .inl p) (h : Frozen s' u) : Frozen s u := by
  obtain ⟨i, hi, p, hp, rfl⟩ := h
  refine ⟨i, fun e => hi ?_, p, hproc ▸ hp, rfl⟩
  have hne : Sum.inr i ≠ t := by
    rintro rfl
    obtain ⟨q, hq⟩ := ht e
    cases hq
  rw [hpc, update_of_ne hne]; exact e

/-- A thread that is not interrupted may go where an interrupted one may not be. -/
theorem Inv.thawed (h : Inv s) (hf : ¬Frozen s t) (ht : s.pc t ≠ .idle) (hu : Frozen s' u)
    (hpc : s'.pc = update s.pc t k) (hproc : s'.proc = s.proc) : u ≠ t ∧ (s.pc u).away = false := by
  have hu := frozen_goto hpc hproc (absurd · ht) hu
  exact ⟨fun e => hf (e ▸ hu), h.frozen u hu⟩

theorem dozing_goto (hpc : s'.pc = update s.pc t k) (hk : k.away = false)
    (h : (s'.pc u).dozing = true) : (s.pc u).dozing = true := by
  by_cases e : u = t
  · rw [hpc, e, update_self] at h
    rw [Pc.away_of_dozing h] at hk; cases hk
  · rwa [hpc, update_of_ne e] at h

section
variable (h : Inv s)
include h

theorem Inv.not_waits {q : Fin n} (hq : (s.pc (.inl q)).away = false) : ¬Waits s q := by
  rintro (ha | hd)
  · obtain ⟨c, e⟩ := h.sleeps _ ha
    rw [e] at hq; cases hq
  · rw [Pc.away_of_dozing hd] at hq; cases hq

/-- A step that puts nobody to sleep. -/
theorem Inv.wakes (hL : LockStep s s' t k) (hpc : s'.pc = update s.pc t k) (hproc : s'.proc = s.proc)
    (ht : s.pc t = .idle → ∃ p, t = .inl p) (hsleep : ∀ u, s'.asleep u = true → s.asleep u = true)
    (hself : s.asleep t = false) (hk : k.away = false)
    (hserved : ∀ q, Waits s' q → s.tx.full ∨ (s.pc t).owes q → s'.tx.full ∨ k.owes q) : Inv s' := by
  refine h.moves hL hpc (fun u hu => .inl ⟨?_, hsleep u hu⟩) (fun u hu => ?_) fun q hq =>
    .inr ⟨hq.imp (hsleep _) (dozing_goto hpc hk), hserved q hq⟩
  · rintro rfl
    exact absurd (hsleep u hu) (by simp [hself])
  · by_cases e : u = t
    · exact .inr ⟨e, hk⟩
    · exact .inl ⟨e, h.frozen u (frozen_goto hpc hproc ht hu)⟩

theorem inv_wakeupOne {j : Nat} (hp : s.pc t = .wake c j) (hs : wakeupOne s t c j = some s') :
    Inv s' := by
  have hin : (s.pc t).inside = true := by rw [hp]; rfl
  have hawake : s.asleep t = false := h.awake (by simp [hp])
  have hbusy : s.pc t = .idle → ∃ p, t = .inl p := by simp [hp]
  have howes : ∀ q, (s.pc t).owes q ↔ j ≤ q := fun q => by rw [hp]; rfl
  have hfly : (s.pc t).fly = [c] := by rw [hp]; rfl
  -- the process that is passed does not wait any more
  have hpass : ∀ (hj : j < n) (asleep : Thread n m → Bool), (∀ u, asleep u = true → s.asleep u = true) →
      asleep (.inl ⟨j, hj⟩) = false → (s.pc (.inl ⟨j, hj⟩)).dozing = false →
      Inv (goto { s with asleep := asleep } t (.wake c (j + 1))) := by
    intro hj asleep hsleep hup hdoze
    refine h.wakes (.stay hin rfl rfl fun ok => ?_) rfl rfl hbusy hsleep hawake rfl fun q hq hr => ?_
    · rw [hfly] at ok; exact ok
    refine hr.imp id fun ho => Nat.lt_of_le_of_ne ((howes q).1 ho) fun e => ?_
    obtain rfl : q = ⟨j, hj⟩ := Fin.ext e.symm
    rcases hq with ha | hd
    · exact absurd ha (by simp [goto, hup])
    · exact absurd (dozing_goto rfl rfl hd) (by simp [hdoze])
  unfold wakeupOne at hs
  split_ifs at hs with hj hme hdoze
  · -- the process of this thread holds the lock itself, or the handler has interrupted it
    cases hs
    have haway : (s.pc (.inl ⟨j, hj⟩)).away = false := by
      cases t with
      | inl p => cases hme; rw [hp]; rfl
      | inr i => exact h.frozen _ ⟨i, by simp [hp], _, hme, rfl⟩
    obtain ⟨hup, hdoze⟩ := not_or.1 (h.not_waits haway)
    exact hpass hj s.asleep (fun _ => id) (Bool.eq_false_iff.2 hup) (Bool.eq_false_iff.2 hdoze)
  · cases hs
    refine hpass hj _ (fun u hu => ?_) (update_self ..) (Bool.eq_false_iff.2 hdoze)
    by_cases e : u = .inl ⟨j, hj⟩
    · subst e; simp at hu
    · simpa [e] using hu
  · cases hs
    refine h.wakes (.stay hin rfl rfl fun ok => ?_) rfl rfl hbusy (fun _ => id) hawake rfl fun q _ hr => ?_
    · exact (hfly ▸ ok).send
    · exact hr.imp id fun ho => by have := (howes q).1 ho; omega

theorem inv_acquire (hopen : (s.pc t).open = true ∨ s.pc t = .intr) (hidle : s.pc t ≠ .idle)
    (hk : k.inside = true) (hfly : k.fly = []) (hs : acquire s t k = some s') : Inv s' := by
  unfold acquire at hs
  split_ifs at hs with hfree
  cases hs
  have hawake : s.asleep t = false := h.awake fun c e => by simp [e, Pc.open] at hopen
  refine h.wakes (.enter hfree hk rfl rfl hfly) rfl rfl (absurd · hidle)
    (fun _ => id) hawake ?_ fun q _ hr => ?_
  · cases k <;> first | rfl | cases hk
  · refine .inl (hr.resolve_right fun ho => ?_)
    rw [(h.lock t).1 (Pc.inside_of_owes ho)] at hfree; cases hfree

/-- `sleep` lets the lock go while the ring is full. -/
theorem inv_doze (hf : ¬Frozen s t) (hp : s.pc t = .full c) (hfull : s.tx.full) :
    Inv (release s t (.doze c)) := by
  have hawake : s.asleep t = false := h.awake (by simp [hp])
  refine h.moves (.leave (by rw [hp]; rfl) rfl rfl rfl (by rw [hp]; rfl)) rfl (fun u hu => .inl ⟨?_, hu⟩)
    (fun u hu => .inl (h.thawed hf (by simp [hp]) hu rfl rfl)) fun _ _ => .inl hfull
  rintro rfl
  exact absurd hu (by simp [release, goto, hawake])

theorem inv_asleep (hf : ¬Frozen s t) (hp : s.pc t = .doze c) :
    Inv (goto { s with asleep := update s.asleep t true } t (.asleep c)) := by
  refine h.moves (.out (by rw [hp]; rfl) rfl rfl rfl) rfl (fun u hu => ?_)
    (fun u hu => .inl (h.thawed hf (by simp [hp]) hu rfl rfl)) fun q hq => .inr ⟨?_, ?_⟩
  · by_cases e : u = t
    · exact .inr ⟨e, c, rfl⟩
    · exact .inl ⟨e, by simpa [goto, e] using hu⟩
  · by_cases e : Sum.inl q = t
    · exact .inr (by rw [e, hp]; rfl)
    · simpa [Waits, goto, e] using hq
  · rw [hp]; exact fun hr => .inl (hr.resolve_right id)

theorem inv_go (hf : ¬Frozen s t) {ready : Bool} (hs : go s t ready = some s') : Inv s' := by
  unfold go at hs
  split at hs <;> rename_i hp
  · cases hs
  · cases hs
  · exact inv_acquire h (by simp [hp, Pc.open]) (by simp [hp]) rfl rfl hs
  · cases hs
    refine h.wakes (.stay (by rw [hp]; rfl) (by split <;> rfl) rfl fun ok => ?_) rfl rfl
      (by simp [hp]) (fun _ => id) (h.awake (by simp [hp])) (by split <;> rfl) fun q _ hr => ?_
    · rw [hp] at ok; split <;> exact ok
    · rw [hp] at hr; exact .inl (hr.resolve_right id)
  · split_ifs at hs with hfull <;> cases hs
    · exact inv_doze h hf hp hfull
    · refine h.wakes (.stay (by rw [hp]; rfl) rfl rfl fun ok => ?_) rfl rfl (by simp [hp]) (fun _ => id)
        (h.awake (by simp [hp])) rfl fun q _ hr => ?_
      · rw [hp] at ok; exact ok.put hfull _
      · rw [hp] at hr; exact absurd (hr.resolve_right id) hfull
  · cases hs; exact inv_asleep h hf hp
  · split_ifs at hs with ha
    cases hs
    refine h.wakes (.out (by rw [hp]; rfl) rfl rfl rfl) rfl rfl (by simp [hp])
      (fun _ => id) (Bool.eq_false_iff.2 ha) rfl fun q _ hr => ?_
    rw [hp] at hr; exact .inl (hr.resolve_right id)
  · exact inv_acquire h (by simp [hp, Pc.open]) (by simp [hp]) rfl rfl hs
  · exact inv_acquire h (.inr hp) (by simp [hp]) rfl rfl hs
  · split_ifs at hs with hstop <;> cases hs
    · refine h.wakes (.leave (by rw [hp]; rfl) rfl rfl rfl (by rw [hp]; rfl)) rfl rfl
        (by simp [hp]) (fun _ => id) (h.awake (by simp [hp])) rfl fun q _ hr => ?_
      rw [hp] at hr; exact .inl (hr.resolve_right id)
    · -- what is taken makes room, and every process is still to be passed
      refine h.wakes (.stay (by rw [hp]; rfl) rfl rfl fun ok => ?_) rfl rfl (by simp [hp]) (fun _ => id)
        (h.awake (by simp [hp])) rfl fun q _ _ => .inr (Nat.zero_le _)
      rw [hp] at ok; exact ok.take (not_or.1 hstop).1
  · exact inv_wakeupOne h hp hs

theorem inv_step {l : Lbl n m} (hs : step s l = some s') : Inv s' := by
  cases l with
  | putc p c =>
    simp only [step] at hs
    split_ifs at hs with hc
    cases hs
    refine h.wakes (.out (by rw [hc.1]; rfl) rfl rfl rfl) rfl rfl (fun _ => ⟨p, rfl⟩) (fun _ => id)
      (h.awake (by simp [hc.1])) rfl fun q _ hr => ?_
    rw [hc.1] at hr; exact .inl (hr.resolve_right id)
  | intr i p =>
    simp only [step] at hs
    split_ifs at hs with hc
    cases hs
    refine h.moves (.out (by rw [hc.1]; rfl) rfl rfl rfl) rfl (fun u hu => .inl ⟨?_, hu⟩)
      (fun u hu => ?_) fun q hq => .inr ⟨hq.imp id (dozing_goto rfl rfl), fun hr => ?_⟩
    · rintro rfl
      exact absurd hu (by simp [goto, h.awake (t := .inr i) (by simp [hc.1])])
    · obtain ⟨i', hi, q, hq, rfl⟩ := hu
      refine .inl ⟨by simp, ?_⟩
      by_cases e : i' = i
      · exact Pc.not_away_of_open (hc.2 q (by simpa [goto, e] using hq)).1
      · exact h.frozen _ ⟨i', by simpa [goto, e] using hi, q, by simpa [goto, e] using hq, rfl⟩
    · rw [hc.1] at hr; exact .inl (hr.resolve_right id)
  | go t ready =>
    simp only [step] at hs
    split_ifs at hs with hf
    exact inv_go h hf hs
  | kill p =>
    simp only [step] at hs
    split_ifs at hs
    cases hs
    have hless : ∀ u, update s.asleep (.inl p) false u = true → s.asleep u = true := by
      intro u hu
      by_cases e : u = .inl p
      · simp [e] at hu
      · simpa [e] using hu
    exact { h with
      sleeps := fun u hu => h.sleeps u (hless u hu)
      served := fun q hq => h.served q (hq.imp (hless _) id) }
  | panic => cases hs; exact { h with }

end

theorem inv_inductive : (lts n m).Inductive Inv where
  init s h := by
    have hpc := h.pc
    refine ⟨fun t => (by rw [hpc, h.lock]; exact ⟨nofun, nofun⟩),
      fun _ => ?_, by simp [h.lock], by simp [h.asleep], ?_, ?_⟩
    · refine ⟨?_, by simp [h.taken], by simp [h.w, h.accepted], by simp [h.r, h.taken],
        by simp [h.taken, h.sent]⟩
      rw [h.accepted, h.taken]; exact Ring.empty ..
    · exact fun t _ => by rw [hpc]; rfl
    · rintro q (hq | hq)
      · simp [h.asleep] at hq
      · rw [hpc] at hq; cases hq
  step _ _ _ hI hs := inv_step hI hs

theorem Pc.fly_length (k : Pc) : k.fly.length ≤ 1 := by cases k <;> simp [Pc.fly]

theorem Inv.ok (h : Inv s) : ∃ fly, s.tx.Ok fly ∧ fly.length ≤ 1 ∧ (s.lock = none → fly = []) := by
  cases e : s.lock with
  | none => exact ⟨_, h.free e, Nat.zero_le _, fun _ => rfl⟩
  | some t => exact ⟨_, h.held t e, (s.pc t).fly_length, nofun⟩

/-- In every reachable state: the count is within the ring; what `uartputc`
accepted is what THR got, then the character `uartstart` holds if it is at
work, then the ring; with the lock free a process sleeps only while the ring
is full. -/
theorem uart_order (n m : Nat) (s : Sys n m) (hs : (lts n m).Reachable s) :
    (s.tx.w - s.tx.r).toNat ≤ UART_TX_BUF_SIZE ∧ s.tx.sent <+: s.tx.accepted ∧
      (∃ fly, s.tx.accepted = s.tx.sent ++ fly ++ s.tx.contents ∧ fly.length ≤ 1 ∧
        (s.lock = none → fly = [])) ∧
      (s.lock = none → ∀ p, s.asleep (.inl p) = true → s.tx.w = s.tx.r + 32) := by
  have h := inv_inductive.reachable hs
  obtain ⟨fly, ok, hone, hfly⟩ := h.ok
  refine ⟨?_, ?_, ⟨fly, ok.accepted_eq, hone, hfly⟩, fun hfree p hp => ?_⟩
  · have := ok.ring.room
    rw [ok.count]; omega
  · rw [ok.accepted_eq, List.append_assoc]; exact List.prefix_append ..
  · rcases h.served p (.inl hp) with hfull | ⟨t, ht, _⟩
    · exact hfull
    · rw [hfree] at ht; cases ht

end

def boot (n m : Nat) : Sys n m :=
  ⟨⟨fun _ => 0, 0, 0, [], [], []⟩, none, fun _ => false, false, fun _ => .idle, fun _ => none⟩

/-- With the transmitter busy, process 0 fills the ring and sleeps. -/
def overrun : List (Lbl 2 1) :=
  (List.replicate 32 (Lbl.putc 0 65 :: List.replicate 4 (.go (.inl 0) false))).flatten ++
    .putc 0 66 :: List.replicate 4 (.go (.inl 0) false)

/-- An interrupt finds the transmitter ready once: it sends one character and
wakes process 0. -/
def drained : List (Lbl 2 1) :=
  overrun ++ .intr 0 none :: List.replicate 5 (.go (.inr 0) true) ++ [.go (.inr 0) false]

theorem reachable_boot {ls : List (Lbl 2 1)} {s : Sys 2 1} (h : ls.foldlM step (boot 2 1) = some s) :
    (lts 2 1).Reachable s :=
  ⟨boot 2 1, ls, ⟨rfl, rfl, rfl, rfl, rfl, rfl, fun _ => rfl, fun _ => rfl⟩,
    LTS.Run.of_foldlM (fun _ _ _ h => h) h⟩

/-- The sleeper has a full ring; later one character is out and the 31 others
are in the ring. -/
theorem uart_order_overrun :
    (∃ s, overrun.foldlM step (boot 2 1) = some s ∧ s.asleep (.inl 0) = true ∧ s.tx.w = s.tx.r + 32) ∧
    ∃ s, drained.foldlM step (boot 2 1) = some s ∧ s.asleep (.inl 0) = false ∧ s.tx.sent = [65] ∧
      (s.tx.w - s.tx.r).toNat ≤ UART_TX_BUF_SIZE ∧ List.replicate 32 65 = [65] ++ s.tx.contents := by
  constructor
  · have hrun : (overrun.foldlM step (boot 2 1)).map (fun s => (s.lock, s.asleep (.inl 0))) =
        some (none, true) := by decide +kernel
    obtain ⟨s, hs, e⟩ := Option.map_eq_some_iff.1 hrun
    simp only [Prod.mk.injEq] at e
    exact ⟨s, hs, e.2, (uart_order 2 1 s (reachable_boot hs)).2.2.2 e.1 0 e.2⟩
  · have hrun : (drained.foldlM step (boot 2 1)).map
        (fun s => (s.lock, s.asleep (.inl 0), s.tx.sent, s.tx.accepted)) =
        some (none, false, [65], List.replicate 32 65) := by decide +kernel
    obtain ⟨s, hs, e⟩ := Option.map_eq_some_iff.1 hrun
    simp only [Prod.mk.injEq] at e
    obtain ⟨hfree, hawake, hsent, hacc⟩ := e
    obtain ⟨hcount, -, ⟨fly, hall, -, hfly⟩, -⟩ := uart_order 2 1 s (reachable_boot hs)
    rw [hacc, hsent, hfly hfree] at hall
    exact ⟨s, hs, hawake, hsent, hcount, hall⟩

end Xv6.Uart
