import Xv6.Core.LTS
import Mathlib.Logic.Function.Basic

/-!
# `push_off` and `pop_off` (`kernel/spinlock.c`) across `swtch`

`noff` and `intena` are fields of a CPU, but count and remember for the kernel
thread that runs on it. Here any threads on any CPUs call `push_off`,
`pop_off`, `acquire` and `release` in any order, as long as each thread's
calls are balanced; they are interrupted wherever interrupts are on, and
`sched` and `scheduler` switch with `noff` at 1. `Sched.Basic` models what
the kernel's own code does with them.

`push_off` takes two steps: an interrupt, and with it a move to another CPU,
may come after `intr_get()` and before `intr_off()`.

`depth` and `entry` are ghosts: the balance of the thread's calls, and what
`intr_get()` returned in the `push_off` that took it from 0.

* `inv_inductive`: the CPU's fields are those of its thread.
* `nesting_restored`: interrupts are off while `noff` is positive, `pop_off`
  does not panic, and a process that is back at 0 has interrupts as it had
  them, wherever it is.
-/
namespace Xv6.Nesting
open Function (update update_self update_of_ne)

/-- mirrors kernel/proc.h:22-27. `noff`, an `int` there, is never negative:
`pop_off` panics first. `intr` is the interrupt enable bit, and `cur` tells
whose kernel stack the CPU is on (`none`: the scheduler's). -/
structure Cpu (P : Type) where
  noff : Nat
  intena : Bool
  intr : Bool
  cur : Option P

inductive Panic where
  | acquire | release | popOffInterruptible | popOff
  deriving DecidableEq

/-- Where a kernel thread is. -/
inductive Pos (L : Type) where
  /-- outside the functions here -/
  | run
  /-- in `push_off`, called by `acquire(lk)` or alone, after `intr_get()` -/
  | read (old : Bool) (lk : Option L)
  /-- in the loop of `acquire(lk)` -/
  | spin (lk : L)
  /-- in `sched`, in `swtch` -/
  | away (intena : Bool)
  /-- in `sched`, back from `swtch` -/
  | resumed (intena : Bool)
  /-- made by `allocproc`: the context starts at `forkret` -/
  | born
  deriving DecidableEq

structure Thread (L : Type) where
  pos : Pos L
  /-- where it was interrupted -/
  saved : List (Pos L)
  /-- ghost: calls of `push_off` less calls of `pop_off` -/
  depth : Nat
  /-- ghost: whether interrupts were enabled at the outermost `push_off`, if the thread made it -/
  entry : Option Bool

structure Sys (C P L : Type) where
  cpu : C → Cpu P
  sched : C → Thread L
  proc : P → Thread L
  lock : L → Option C
  panic : Option Panic

/-- A step of the thread on the CPU `c`, or the making of a process. -/
inductive Label (C P L : Type) where
  /-- `push_off`, or `acquire(lk)`, up to `intr_get()` -/
  | read (c : C) (lk : Option L)
  /-- the rest of `push_off` -/
  | push (c : C)
  /-- `acquire` gets the lock -/
  | take (c : C)
  | pop (c : C)
  | release (c : C) (lk : L)
  /-- an interrupt, and the return from it -/
  | trap (c : C)
  | sret (c : C)
  /-- `intr_on()`, `intr_off()` -/
  | intr (c : C) (on : Bool)
  /-- `swtch` in `scheduler` -/
  | switchIn (c : C) (p : P)
  /-- `swtch` in `sched` -/
  | switchOut (c : C)
  | restore (c : C)
  | create (p : P)

section Code
variable {C P L : Type} [DecidableEq C] [DecidableEq P] [DecidableEq L]

/-- mirrors kernel/spinlock.c:93-96, with `old` from line 91 -/
def pushOff (u : Cpu P) (old : Bool) : Cpu P :=
  { u with intr := false, intena := if u.noff = 0 then old else u.intena, noff := u.noff + 1 }

/-- mirrors kernel/spinlock.c:99-110 -/
def popOff (u : Cpu P) : Except Panic (Cpu P) :=
  if u.intr then .error .popOffInterruptible
  else if u.noff < 1 then .error .popOff
  else .ok { u with noff := u.noff - 1, intr := u.noff = 1 && u.intena }

/-- The thread on the CPU `c`. -/
def thread (s : Sys C P L) (c : C) : Thread L :=
  match (s.cpu c).cur with
  | none => s.sched c
  | some p => s.proc p

/-- The CPU `c` and its thread change. -/
def put (s : Sys C P L) (c : C) (u : Cpu P) (t : Thread L) : Sys C P L :=
  match (s.cpu c).cur with
  | none => { s with cpu := update s.cpu c u, sched := update s.sched c t }
  | some p => { s with cpu := update s.cpu c u, proc := update s.proc p t }

/-- `pop_off()`, with the lock already released if it is the end of `release`. -/
def pop (s : Sys C P L) (c : C) : Sys C P L :=
  match popOff (s.cpu c) with
  | .ok u => put s c u { thread s c with depth := (thread s c).depth - 1 }
  | .error e => { s with panic := some e }

/-- The step with this label, if it is possible. `pop_off` and `release` are called only by a thread that has
called `push_off` or `acquire`, and `swtch` with `noff` at 1. -/
def exec (s : Sys C P L) : Label C P L → Option (Sys C P L)
  | .read c lk =>
    let t := thread s c
    if t.pos = .run then some (put s c (s.cpu c) { t with pos := .read (s.cpu c).intr lk }) else none
  | .push c =>
    let t := thread s c
    match t.pos with
    | .read old lk =>
      let t := { t with depth := t.depth + 1, entry := if t.depth = 0 then some old else t.entry }
      match lk with
      | none => some (put s c (pushOff (s.cpu c) old) { t with pos := .run })
      | some l =>
        -- kernel/spinlock.c:25
        if s.lock l = some c then
          some { put s c (pushOff (s.cpu c) old) { t with pos := .spin l } with panic := some .acquire }
        else some (put s c (pushOff (s.cpu c) old) { t with pos := .spin l })
    | _ => none
  | .take c =>
    let t := thread s c
    match t.pos with
    | .spin l =>
      if s.lock l = none then
        some (put { s with lock := update s.lock l (some c) } c (s.cpu c) { t with pos := .run })
      else none
    | _ => none
  | .pop c => if (thread s c).pos = .run ∧ 0 < (thread s c).depth then some (pop s c) else none
  | .release c l =>
    if (thread s c).pos = .run ∧ 0 < (thread s c).depth then
      if s.lock l = some c then some (pop { s with lock := update s.lock l none } c)
      else some { s with panic := some .release }
    else none
  | .trap c =>
    let t := thread s c
    if (s.cpu c).intr then some (put s c { s.cpu c with intr := false }
      { t with pos := .run, saved := t.pos :: t.saved })
    else none
  | .sret c =>
    let t := thread s c
    match t.saved with
    | [] => none
    | k :: saved =>
      if t.pos = .run ∧ t.depth = 0 then
        some (put s c { s.cpu c with intr := true } { t with pos := k, saved })
      else none
  | .intr c on =>
    let t := thread s c
    if t.pos = .run ∧ t.depth = 0 ∧ t.saved = [] then some (put s c { s.cpu c with intr := on } t) else none
  | .switchIn c p =>
    let t := s.sched c
    if (s.cpu c).cur = none ∧ (s.cpu c).noff = 1 ∧ t.pos = .run ∧ t.saved = [] then
      match (s.proc p).pos with
      | .away intena => some { s with
          cpu := update s.cpu c { s.cpu c with cur := some p }
          proc := update s.proc p { s.proc p with pos := .resumed intena } }
      | .born => some { s with
          cpu := update s.cpu c { s.cpu c with cur := some p }
          proc := update s.proc p { s.proc p with pos := .run } }
      | _ => none
    else none
  | .switchOut c =>
    match (s.cpu c).cur with
    | none => none
    | some p =>
      if (s.cpu c).noff = 1 ∧ (s.proc p).pos = .run then
        some { s with
          cpu := update s.cpu c { s.cpu c with cur := none }
          proc := update s.proc p { s.proc p with pos := .away (s.cpu c).intena } }
      else none
  | .restore c =>
    let t := thread s c
    match t.pos with
    | .resumed intena => some (put s c { s.cpu c with intena } { t with pos := .run })
    | _ => none
  | .create p =>
    match (s.proc p).pos with
    | .away _ | .born => some { s with proc := update s.proc p ⟨.born, [], 1, none⟩ }
    | _ => none

/-- The CPUs are in `scheduler`, and there is no process yet. -/
def start (s : Sys C P L) : Prop :=
  (∀ c, (s.cpu c).cur = none ∧ (s.cpu c).noff = 0 ∧ s.sched c = ⟨.run, [], 0, none⟩) ∧
    (∀ p, s.proc p = ⟨.born, [], 1, none⟩) ∧ (∀ l, s.lock l = none) ∧ s.panic = none

def system : LTS (Sys C P L) (Label C P L) where
  init := start
  step s l s' := s.panic = none ∧ exec s l = some s'

end Code

/-! ## The invariant -/

section
variable {C P L : Type}

/-- A position where an interrupt may come. -/
def Pos.Open (k : Pos L) : Prop := k = .run ∨ ∃ old lk, k = .read old lk

/-- The thread `t` runs on the CPU `u`. -/
structure Running (u : Cpu P) (t : Thread L) : Prop where
  noff : u.noff = t.depth
  off : 0 < t.depth → u.intr = false
  saved : ∀ k ∈ t.saved, k.Open
  here : t.pos.Open ∨ (∃ l, t.pos = .spin l ∧ 0 < t.depth) ∨ ∃ i, t.pos = .resumed i ∧ t.depth = 1
  intena : u.cur ≠ none → 0 < t.depth → ∀ b, t.entry = some b →
    (∃ i, t.pos = .resumed i ∧ i = b) ∨ ((∀ i, t.pos ≠ .resumed i) ∧ u.intena = b)

/-- The thread of a process that is on no CPU. -/
structure Parked (t : Thread L) : Prop where
  depth : t.depth = 1
  saved : ∀ k ∈ t.saved, k.Open
  here : (∃ i, t.pos = .away i ∧ ∀ b, t.entry = some b → i = b) ∨ t.pos = .born ∧ t.entry = none

structure Inv (s : Sys C P L) : Prop where
  panic : s.panic ≠ some .popOffInterruptible ∧ s.panic ≠ some .popOff
  running : ∀ c, Running (s.cpu c) (thread s c)
  waiting : ∀ c, (s.cpu c).cur ≠ none → s.sched c = { s.sched c with pos := .run, saved := [], depth := 1 }
  parked : ∀ p, (∃ c, (s.cpu c).cur = some p) ∨ Parked (s.proc p)
  uniq : ∀ c c' p, (s.cpu c).cur = some p → (s.cpu c').cur = some p → c = c'

section Put
variable [DecidableEq C] [DecidableEq P] {s : Sys C P L} {c : C} {u : Cpu P} {t : Thread L}

theorem cpu_put : (put s c u t).cpu = update s.cpu c u := by
  unfold put
  split <;> rfl

theorem panic_put : (put s c u t).panic = s.panic := by
  unfold put
  split <;> rfl

theorem thread_put (hcur : u.cur = (s.cpu c).cur) : thread (put s c u t) c = t := by
  unfold thread
  rw [cpu_put, update_self, hcur]
  unfold put
  cases (s.cpu c).cur with
  | none | some => exact update_self ..

/-- The other CPUs keep their threads. -/
theorem thread_put_of_ne (h : Inv s) {c' : C} (hne : c' ≠ c) : thread (put s c u t) c' = thread s c' := by
  unfold thread
  rw [cpu_put, update_of_ne hne]
  unfold put
  cases hc' : (s.cpu c').cur with
  | none =>
    cases (s.cpu c).cur with
    | none => exact update_of_ne hne ..
    | some p => rfl
  | some p =>
    cases hc : (s.cpu c).cur with
    | none => rfl
    | some q =>
      refine update_of_ne (fun e => hne (h.uniq c' c p hc' ?_)) ..
      rw [hc, e]

/-- A step of the thread on `c`. -/
theorem Inv.put (h : Inv s) (hcur : u.cur = (s.cpu c).cur) (hrun : Running u t) : Inv (put s c u t) := by
  have hsame : ∀ c', ((Nesting.put s c u t).cpu c').cur = (s.cpu c').cur := by
    intro c'
    rw [cpu_put]
    by_cases e : c' = c
    · rw [e, update_self, hcur]
    · rw [update_of_ne e]
  refine ⟨by rw [panic_put]; exact h.panic, fun c' => ?_, fun c' hc' => ?_, fun p => ?_,
    fun c1 c2 p h1 h2 => ?_⟩
  · by_cases e : c' = c
    · rw [e, thread_put hcur, cpu_put, update_self]
      exact hrun
    · rw [thread_put_of_ne h e, cpu_put, update_of_ne e]
      exact h.running c'
  · rw [hsame] at hc'
    have hw := h.waiting c' hc'
    unfold Nesting.put
    cases hc : (s.cpu c).cur with
    | none =>
      have hne : c' ≠ c := fun e => hc' (e ▸ hc)
      simp only [update_of_ne hne]
      exact hw
    | some q => exact hw
  · simp only [hsame]
    by_cases hc : (s.cpu c).cur = some p
    · exact .inl ⟨c, hc⟩
    · refine (h.parked p).imp_right fun hp => ?_
      unfold Nesting.put
      split
      · exact hp
      · next q hq =>
        have hne : p ≠ q := fun e => hc (e ▸ hq)
        simp only [update_of_ne hne]
        exact hp
  · rw [hsame] at h1 h2
    exact h.uniq c1 c2 p h1 h2

end Put

/-! ## The steps of a thread -/

namespace Running
variable {u : Cpu P} {t : Thread L}

section
variable (h : Running u t)
include h

/-- At a position with interrupts open, `intena` is the thread's. -/
theorem intena_open (ho : t.pos.Open) (hc : u.cur ≠ none) (hd : 0 < t.depth) {b : Bool}
    (hb : t.entry = some b) : u.intena = b := by
  rcases h.intena hc hd b hb with ⟨i, hi, -⟩ | h
  · rw [hi] at ho
    rcases ho with e | ⟨_, _, e⟩ <;> cases e
  · exact h.2

theorem depth_of_on (hi : u.intr = true) : t.depth = 0 := by
  by_contra hne
  have := h.off (Nat.pos_of_ne_zero hne)
  rw [hi] at this
  cases this

/-- With interrupts on, the thread is where one may come. -/
theorem open_of_on (hi : u.intr = true) : t.pos.Open := by
  have hd := h.depth_of_on hi
  rcases h.here with ho | ⟨_, _, hpos⟩ | ⟨_, _, hone⟩
  · exact ho
  · omega
  · omega

/-- The thread goes on, with its CPU as it is. -/
theorem move (ho : t.pos.Open) {k : Pos L} (hk : k.Open) : Running u { t with pos := k } := by
  refine ⟨h.noff, h.off, h.saved, .inl hk, fun hc hd b hb => .inr ⟨fun i e => ?_, h.intena_open ho hc hd hb⟩⟩
  have e : k = .resumed i := e
  rw [e] at hk
  rcases hk with e | ⟨_, _, e⟩ <;> cases e

theorem push (ho : t.pos.Open) (old : Bool) {k : Pos L} (hk : k = .run ∨ ∃ l, k = .spin l) :
    Running (pushOff u old)
      { t with pos := k, depth := t.depth + 1, entry := if t.depth = 0 then some old else t.entry } := by
  refine ⟨by simp [pushOff, h.noff], fun _ => rfl, h.saved, ?_, fun hc _ b hb => .inr ⟨fun i e => ?_, ?_⟩⟩
  · rcases hk with rfl | ⟨l, rfl⟩
    · exact .inl (.inl rfl)
    · exact .inr (.inl ⟨l, rfl, Nat.succ_pos _⟩)
  · have e : k = .resumed i := e
    rcases hk with rfl | ⟨l, rfl⟩ <;> cases e
  · have hb : (if t.depth = 0 then some old else t.entry) = some b := hb
    show (if u.noff = 0 then old else u.intena) = b
    rw [h.noff]
    split at hb
    · next h0 => rw [if_pos h0, Option.some.inj hb]
    · next h0 =>
      rw [if_neg h0]
      exact h.intena_open ho hc (Nat.pos_of_ne_zero h0) hb

theorem take {l : L} (hl : t.pos = .spin l) : Running u { t with pos := .run } := by
  refine ⟨h.noff, h.off, h.saved, .inl (.inl rfl), fun hc hd b hb => .inr ⟨fun i e => (by cases e), ?_⟩⟩
  rcases h.intena hc hd b hb with ⟨i, hi, -⟩ | h
  · rw [hl] at hi
    cases hi
  · exact h.2

/-- `pop_off` does not panic in a thread that has called `push_off`. -/
theorem popOff_ok (hd : 0 < t.depth) :
    popOff u = .ok { u with noff := u.noff - 1, intr := u.noff = 1 && u.intena } := by
  have hn := h.noff
  unfold popOff
  rw [h.off hd, if_neg Bool.false_ne_true, if_neg (by omega)]

theorem pop (hp : t.pos = .run) (hd : 0 < t.depth) :
    Running { u with noff := u.noff - 1, intr := u.noff = 1 && u.intena }
      { t with depth := t.depth - 1 } := by
  have hn := h.noff
  refine ⟨by simp only [hn], fun hlt => ?_, h.saved, .inl (.inl hp),
    fun hc hlt b hb => .inr ⟨fun i e => ?_, ?_⟩⟩
  · have : u.noff ≠ 1 := by
      simp only at hlt
      omega
    simp [this]
  · rw [hp] at e
    cases e
  · exact h.intena_open (.inl hp) hc hd hb

theorem trap (hi : u.intr = true) :
    Running { u with intr := false } { t with pos := .run, saved := t.pos :: t.saved } := by
  have hd := h.depth_of_on hi
  refine ⟨h.noff, fun _ => rfl, List.forall_mem_cons.2 ⟨h.open_of_on hi, h.saved⟩,
    .inl (.inl rfl), fun _ hlt => ?_⟩
  simp only at hlt
  omega

theorem sret (hd : t.depth = 0) {k : Pos L} {saved : List (Pos L)} (hs : t.saved = k :: saved) :
    Running { u with intr := true } { t with pos := k, saved } := by
  have hsaved := h.saved
  rw [hs] at hsaved
  obtain ⟨hk, hrest⟩ := List.forall_mem_cons.1 hsaved
  refine ⟨h.noff, fun hlt => ?_, hrest, .inl hk, fun _ hlt => ?_⟩ <;>
  · simp only at hlt
    omega

theorem intr (hp : t.pos = .run) (hd : t.depth = 0) (on : Bool) : Running { u with intr := on } t :=
  ⟨h.noff, fun hlt => by omega, h.saved, .inl (.inl hp), fun _ hlt => by omega⟩

theorem restore {i : Bool} (hp : t.pos = .resumed i) :
    Running { u with intena := i } { t with pos := .run } := by
  refine ⟨h.noff, h.off, h.saved, .inl (.inl rfl), fun hc hd b hb => .inr ⟨fun j e => (by cases e), ?_⟩⟩
  rcases h.intena hc hd b hb with ⟨j, hj, rfl⟩ | h
  · rw [hp] at hj
    cases hj
    rfl
  · exact absurd hp (h.1 i)

end

end Running

/-! ## Switches -/

section Switch
variable {s : Sys C P L} {c : C} {p : P}

section
variable (h : Inv s)
include h

theorem Inv.lock (lock : L → Option C) : Inv { s with lock } :=
  { h with }

theorem Inv.halt {e : Panic} (h1 : e ≠ .popOffInterruptible) (h2 : e ≠ .popOff) :
    Inv { s with panic := some e } :=
  { h with panic := ⟨fun e' => h1 (Option.some.inj e'), fun e' => h2 (Option.some.inj e')⟩ }

theorem Inv.running_proc (hc : (s.cpu c).cur = some p) : Running (s.cpu c) (s.proc p) := by
  have := h.running c
  unfold thread at this
  rwa [hc] at this

theorem Inv.running_sched (hc : (s.cpu c).cur = none) : Running (s.cpu c) (s.sched c) := by
  have := h.running c
  unfold thread at this
  rwa [hc] at this

/-- A CPU whose thread is not involved. -/
theorem Inv.running_congr {s' : Sys C P L} (hcpu : s'.cpu c = s.cpu c) (hsched : s'.sched = s.sched)
    (hproc : ∀ q, (s.cpu c).cur = some q → s'.proc q = s.proc q) : Running (s'.cpu c) (thread s' c) := by
  unfold thread
  rw [hcpu]
  cases hc : (s.cpu c).cur with
  | none =>
    simp only [hsched]
    exact h.running_sched hc
  | some q =>
    simp only [hproc q hc]
    exact h.running_proc hc

/-- A thread that waits to be switched to is on no CPU. -/
theorem Inv.off_cpu (hp : (∃ i, (s.proc p).pos = .away i) ∨ (s.proc p).pos = .born) :
    (∀ c, (s.cpu c).cur ≠ some p) ∧ Parked (s.proc p) := by
  have hoff : ∀ c, (s.cpu c).cur ≠ some p := by
    intro c hc
    have hh := (h.running_proc hc).here
    rcases hp with ⟨i, e⟩ | e <;> rw [e] at hh <;>
      rcases hh with (e | ⟨_, _, e⟩) | ⟨_, e, _⟩ | ⟨_, e, _⟩ <;> cases e
  refine ⟨hoff, (h.parked p).resolve_left ?_⟩
  rintro ⟨c, hc⟩
  exact hoff c hc

/-- The thread of a process that is on no CPU changes. -/
theorem Inv.park [DecidableEq P] (hoff : ∀ c, (s.cpu c).cur ≠ some p) {t : Thread L} (ht : Parked t) :
    Inv { s with proc := update s.proc p t } := by
  refine ⟨h.panic, fun c => ?_, h.waiting, fun q => ?_, h.uniq⟩
  · exact h.running_congr rfl rfl fun q hq => update_of_ne (fun e : q = p => hoff c (e ▸ hq)) ..
  · by_cases e : q = p
    · refine .inr ?_
      simp only [e, update_self]
      exact ht
    · simp only [update_of_ne e]
      exact h.parked q

end

variable [DecidableEq C] [DecidableEq P]

/-- CPU `c` switches between the scheduler and `p`. -/
theorem Inv.switch (h : Inv s) {o : Option P} {t : Thread L} (hold : ∀ q, (s.cpu c).cur = some q → q = p)
    (hnew : ∀ q, o = some q → q = p) (hother : ∀ c', c' ≠ c → (s.cpu c').cur ≠ some p)
    (hsched : o = none → Running { s.cpu c with cur := o } (s.sched c))
    (hproc : o = some p → Running { s.cpu c with cur := o } t)
    (hwait : o ≠ none → s.sched c = { s.sched c with pos := .run, saved := [], depth := 1 })
    (hpark : o = some p ∨ Parked t) :
    Inv { s with cpu := update s.cpu c { s.cpu c with cur := o }, proc := update s.proc p t } := by
  have hcur : ∀ c', c' ≠ c → update s.cpu c { s.cpu c with cur := o } c' = s.cpu c' :=
    fun c' e => update_of_ne e ..
  refine ⟨h.panic, fun c' => ?_, fun c' hc' => ?_, fun q => ?_, fun c1 c2 q h1 h2 => ?_⟩
  · by_cases e : c' = c
    · subst e
      unfold thread
      simp only [update_self]
      cases o with
      | none => exact hsched rfl
      | some q =>
        obtain rfl := hnew q rfl
        simpa only [update_self] using hproc rfl
    · exact h.running_congr (hcur c' e) rfl fun q hq => update_of_ne
        (fun e' : q = p => hother c' e (e' ▸ hq)) ..
  · by_cases e : c' = c
    · subst e
      exact hwait (by simpa using hc')
    · simp only [hcur c' e] at hc' ⊢
      exact h.waiting c' hc'
  · by_cases e : q = p
    · subst e
      exact hpark.imp (fun ho => ⟨c, by simp [ho]⟩) fun ht => by simpa using ht
    · simp only [update_of_ne e]
      refine (h.parked q).imp_left fun ⟨c', hc'⟩ => ⟨c', ?_⟩
      rw [hcur c' fun e' => e (hold q (e' ▸ hc'))]
      exact hc'
  · by_cases e1 : c1 = c <;> by_cases e2 : c2 = c
    · rw [e1, e2]
    · simp only [e1, update_self] at h1
      simp only [hcur c2 e2] at h2
      exact absurd (hnew q h1 ▸ h2) (hother c2 e2)
    · simp only [e2, update_self] at h2
      simp only [hcur c1 e1] at h1
      exact absurd (hnew q h2 ▸ h1) (hother c1 e1)
    · simp only [hcur c1 e1] at h1
      simp only [hcur c2 e2] at h2
      exact h.uniq c1 c2 q h1 h2

/-- `scheduler` switches to `p`. -/
theorem Inv.switchIn (h : Inv s) (hc : (s.cpu c).cur = none) (hn : (s.cpu c).noff = 1)
    (hrun : (s.sched c).pos = .run)
    (hs : (s.sched c).saved = []) (hoff : ∀ c, (s.cpu c).cur ≠ some p) (hp : Parked (s.proc p)) {k : Pos L}
    (hk : (∃ i, (s.proc p).pos = .away i ∧ k = .resumed i) ∨ (s.proc p).pos = .born ∧ k = .run) :
    Inv { s with
      cpu := update s.cpu c { s.cpu c with cur := some p }
      proc := update s.proc p { s.proc p with pos := k } } := by
  have hsched := h.running_sched hc
  have hd : (s.sched c).depth = 1 := hsched.noff.symm.trans hn
  refine h.switch (fun q e => by cases hc.symm.trans e) (fun q e => (Option.some.inj e).symm)
    (fun c' _ => hoff c') nofun
    (fun _ => ⟨by simp only [hn, hp.depth], fun _ => hsched.off (by omega), hp.saved, ?_, fun _ _ b hb => ?_⟩)
    (fun _ => by rw [← hrun, ← hs, ← hd]) (.inl rfl)
  · rcases hk with ⟨i, -, rfl⟩ | ⟨-, rfl⟩
    · exact .inr (.inr ⟨i, rfl, hp.depth⟩)
    · exact .inl (.inl rfl)
  · rcases hp.here with ⟨j, hj, hjb⟩ | ⟨-, hnone⟩
    · rcases hk with ⟨i, hi, rfl⟩ | ⟨hi, -⟩
      · cases hj.symm.trans hi
        exact .inl ⟨j, rfl, hjb b hb⟩
      · cases hj.symm.trans hi
    · cases hnone.symm.trans hb

/-- `sched` switches to the scheduler. -/
theorem Inv.switchOut (h : Inv s) (hc : (s.cpu c).cur = some p) (hn : (s.cpu c).noff = 1)
    (hrun : (s.proc p).pos = .run) : Inv { s with
      cpu := update s.cpu c { s.cpu c with cur := none }
      proc := update s.proc p { s.proc p with pos := .away (s.cpu c).intena } } := by
  have hproc := h.running_proc hc
  have hd : (s.proc p).depth = 1 := hproc.noff.symm.trans hn
  have hon : (s.cpu c).cur ≠ none := by rw [hc]; exact Option.some_ne_none p
  refine h.switch (fun q e => Option.some.inj (e.symm.trans hc)) nofun
    (fun c' e hc' => e (h.uniq c' c p hc' hc))
    (fun _ => ?_) nofun (fun e => absurd rfl e) (.inr ⟨hd, hproc.saved, .inl ⟨_, rfl, fun b hb => ?_⟩⟩)
  · rw [h.waiting c hon]
    exact ⟨hn, fun _ => hproc.off (by omega), fun k hk => (by cases hk), .inl (.inl rfl),
      fun e => absurd rfl e⟩
  · exact hproc.intena_open (.inl hrun) hon (by omega) hb

end Switch

/-! ## Runs -/

section Run
variable [DecidableEq C] [DecidableEq P] {s s' : Sys C P L}

theorem Inv.pop (h : Inv s) {c : C} (hp : (thread s c).pos = .run) (hd : 0 < (thread s c).depth) :
    Inv (pop s c) := by
  have hr := h.running c
  unfold Nesting.pop
  rw [hr.popOff_ok hd]
  exact h.put rfl (hr.pop hp hd)

/-- The `pop_off` that ends a process's outermost `push_off`. -/
theorem Inv.pop_last (h : Inv s) {c : C} {p : P} {b : Bool} (hc : (s.cpu c).cur = some p)
    (hb : (s.proc p).entry = some b)
    (hp : (s.proc p).pos = .run) (hd : 0 < (s.proc p).depth) (hlast : ((Nesting.pop s c).proc p).depth = 0) :
    ((Nesting.pop s c).cpu c).intr = b := by
  have hr := h.running_proc hc
  have ht : thread s c = s.proc p := by
    unfold thread
    rw [hc]
  have hres : Nesting.pop s c = Nesting.put s c
      { s.cpu c with noff := (s.cpu c).noff - 1, intr := (s.cpu c).noff = 1 && (s.cpu c).intena }
      { s.proc p with depth := (s.proc p).depth - 1 } := by
    unfold Nesting.pop
    rw [hr.popOff_ok hd, ht]
  have hone : (s.cpu c).noff = 1 := by
    have : (Nesting.pop s c).proc p = { s.proc p with depth := (s.proc p).depth - 1 } := by
      rw [hres]
      unfold Nesting.put
      simp only [hc, update_self]
    rw [this] at hlast
    have hn := hr.noff
    simp only at hlast
    omega
  rw [hres, cpu_put, update_self]
  simp only [hone, decide_true, Bool.true_and]
  exact hr.intena_open (.inl hp) (by rw [hc]; exact Option.some_ne_none p) hd hb

variable [DecidableEq L]

theorem inv_exec (h : Inv s) {l : Label C P L} (he : exec s l = some s') : Inv s' := by
  cases l <;> simp only [exec] at he
  case read c lk =>
    split at he
    · next hp =>
      cases he
      exact h.put rfl ((h.running c).move (.inl hp) (.inr ⟨_, _, rfl⟩))
    · cases he
  case push c =>
    split at he
    · next old lk hp =>
      have ho : (thread s c).pos.Open := .inr ⟨old, lk, hp⟩
      split at he
      · cases he
        exact h.put rfl ((h.running c).push ho old (.inl rfl))
      · next l =>
        have hcur : (pushOff (s.cpu c) old).cur = (s.cpu c).cur := rfl
        have hput := h.put hcur ((h.running c).push ho old (.inr ⟨l, rfl⟩))
        split at he
        · cases he
          exact hput.halt (by decide) (by decide)
        · cases he
          exact hput
    · cases he
  case take c =>
    split at he
    · next l hp =>
      split at he
      · cases he
        exact (h.lock _).put rfl ((h.running c).take hp)
      · cases he
    · cases he
  case pop c =>
    split at he
    · next hc =>
      cases he
      exact h.pop hc.1 hc.2
    · cases he
  case release c l =>
    split at he
    · next hc =>
      split at he
      · cases he
        exact (h.lock _).pop hc.1 hc.2
      · cases he
        exact h.halt (by decide) (by decide)
    · cases he
  case trap c =>
    split at he
    · next hi =>
      cases he
      exact h.put rfl ((h.running c).trap hi)
    · cases he
  case sret c =>
    split at he
    · cases he
    · next k saved hs =>
      split at he
      · next hc =>
        cases he
        exact h.put rfl ((h.running c).sret hc.2 hs)
      · cases he
  case intr c on =>
    split at he
    · next hc =>
      cases he
      exact h.put rfl ((h.running c).intr hc.1 hc.2.1 on)
    · cases he
  case switchIn c p =>
    split at he
    · next hc =>
      obtain ⟨hnone, hn, hrun, hs⟩ := hc
      split at he
      · next i hp =>
        cases he
        obtain ⟨hoff, hpark⟩ := h.off_cpu (.inl ⟨i, hp⟩)
        exact h.switchIn hnone hn hrun hs hoff hpark (.inl ⟨i, hp, rfl⟩)
      · next hp =>
        cases he
        obtain ⟨hoff, hpark⟩ := h.off_cpu (.inr hp)
        exact h.switchIn hnone hn hrun hs hoff hpark (.inr ⟨hp, rfl⟩)
      · cases he
    · cases he
  case switchOut c =>
    split at he
    · cases he
    · next p hp =>
      split at he
      · next hc =>
        cases he
        exact h.switchOut hp hc.1 hc.2
      · cases he
  case restore c =>
    split at he
    · next i hp =>
      cases he
      exact h.put rfl ((h.running c).restore hp)
    · cases he
  case create p =>
    have hnew : Parked (⟨.born, [], 1, none⟩ : Thread L) := ⟨rfl, fun k hk => (by cases hk), .inr ⟨rfl, rfl⟩⟩
    split at he
    · next i hp =>
      cases he
      exact h.park (h.off_cpu (.inl ⟨i, hp⟩)).1 hnew
    · next hp =>
      cases he
      exact h.park (h.off_cpu (.inr hp)).1 hnew
    · cases he

theorem inv_inductive : (system : LTS (Sys C P L) (Label C P L)).Inductive Inv := by
  refine ⟨fun s h => ?_, fun s l s' h hs => inv_exec h hs.2⟩
  obtain ⟨hcpu, hproc, -, hpanic⟩ := h
  refine ⟨by simp [hpanic], fun c => ?_, fun c hc => absurd (hcpu c).1 hc,
    fun p => .inr ?_, fun c c' p hc => ?_⟩
  · obtain ⟨h1, h2, h3⟩ := hcpu c
    unfold thread
    rw [h1]
    simp only [h3]
    exact ⟨h2, fun hlt => absurd hlt (Nat.lt_irrefl 0), fun k hk => (by cases hk), .inl (.inl rfl),
      fun hc => absurd h1 hc⟩
  · rw [hproc p]
    exact ⟨rfl, fun k hk => (by cases hk), .inr ⟨rfl, rfl⟩⟩
  · rw [(hcpu c).1] at hc
    cases hc

/-- Interrupts are off while `noff` is positive; `pop_off` does not panic; and when the calls of a process
that itself made the outermost `push_off` are back at 0, interrupts are as they were at that `push_off`, on
whichever CPU it is. -/
theorem nesting_restored (hr : (system : LTS (Sys C P L) (Label C P L)).Reachable s) :
    (∀ c, 0 < (s.cpu c).noff → (s.cpu c).intr = false) ∧
    (s.panic ≠ some .popOffInterruptible ∧ s.panic ≠ some .popOff) ∧
    ∀ c p b l, (s.cpu c).cur = some p → (s.proc p).entry = some b → (l = .pop c ∨ ∃ lk, l = .release c lk) →
      exec s l = some s' → (s'.proc p).depth = 0 → (s'.cpu c).intr = b := by
  have h := inv_inductive.reachable hr
  refine ⟨fun c hc => ?_, h.panic, fun c p b l hc hb hl he hd => ?_⟩
  · have hrun := h.running c
    exact hrun.off (hrun.noff ▸ hc)
  · have ht : thread s c = s.proc p := by
      unfold thread
      rw [hc]
    rcases hl with rfl | ⟨lk, rfl⟩
    · simp only [exec, ht] at he
      split at he
      · next hg =>
        cases he
        exact h.pop_last hc hb hg.1 hg.2 hd
      · cases he
    · simp only [exec, ht] at he
      split at he
      · next hg =>
        split at he
        · cases he
          exact (h.lock _).pop_last hc hb hg.1 hg.2 hd
        · cases he
          exact absurd hd (Nat.ne_of_gt hg.2)
      · cases he

/-- Two CPUs, one process, one lock: before the first step. -/
def boot : Sys Bool Unit Unit where
  cpu _ := ⟨0, false, true, none⟩
  sched _ := ⟨.run, [], 0, none⟩
  proc _ := ⟨.born, [], 1, none⟩
  lock _ := none
  panic := none

/-- The process starts on one CPU, calls `push_off` with
interrupts on, is switched away, and is resumed on the other. -/
def move : List (Label Bool Unit Unit) :=
  [.read false none, .push false, .switchIn false (), .pop false, .read false (some ()),
    .push false, .take false,
    .switchOut false, .pop false, .read true none, .push true, .switchIn true (), .restore true]

def stepOf (s : Sys Bool Unit Unit) (l : Label Bool Unit Unit) : Option (Sys Bool Unit Unit) :=
  if s.panic = none then exec s l else none

/-- Its last `pop_off`, on the other CPU, enables interrupts again. -/
theorem nesting_restored_move :
    ∃ s s', (system : LTS (Sys Bool Unit Unit) (Label Bool Unit Unit)).Reachable s ∧
    exec s (.pop true) = some s' ∧ (s'.proc ()).depth = 0 ∧ (s'.cpu true).intr = true := by
  have hrun : ((move.foldlM stepOf boot).bind fun s => (exec s (.pop true)).map fun s' =>
      ((s.cpu true).cur, (s.proc ()).entry, (s'.proc ()).depth)) = some (some (), some true, 0) := by decide
  obtain ⟨s, hs, hv⟩ := Option.bind_eq_some_iff.1 hrun
  obtain ⟨s', he, hv⟩ := Option.map_eq_some_iff.1 hv
  simp only [Prod.mk.injEq] at hv
  obtain ⟨hcur, hentry, hd⟩ := hv
  have hstep : ∀ s l s', stepOf s l = some s' → (system : LTS (Sys Bool Unit Unit) _).step s l s' := by
    intro s l s' h
    unfold stepOf at h
    split at h
    · next hp => exact ⟨hp, h⟩
    · cases h
  have hr : (system : LTS (Sys Bool Unit Unit) (Label Bool Unit Unit)).Reachable s :=
    ⟨boot, move, ⟨fun _ => ⟨rfl, rfl, rfl⟩, fun _ => rfl, fun _ => rfl, rfl⟩, .of_foldlM hstep hs⟩
  exact ⟨s, s', hr, he, hd, (nesting_restored hr).2.2 true () true (.pop true) hcur hentry (.inl rfl) he hd⟩

end Run
end
end Xv6.Nesting
