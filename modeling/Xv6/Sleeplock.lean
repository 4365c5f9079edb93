import Xv6.Core.LTS
import Mathlib.Logic.Function.Basic

/-!
# Sleep-locks (`kernel/sleeplock.c`)

One sleep-lock and the `n` processes that call `acquiresleep` on it and, as
`brelse` and `iunlock` do, `holdingsleep` and then `releasesleep`. A step is
one critical section of the spinlock `lk->lk`, one half of `sleep`, or one
process visited by the `wakeup` of `releasesleep`, which keeps `lk->lk`.
Nothing stops a process from asking for a lock that it holds, or from giving
back one that it does not hold.

* `sleeplock_mutex`: the two fields and the sleepers implement a mutex.
-/
namespace Xv6.Sleeplock
open Function (update update_apply Injective)

inductive Pc where
  | idle
  /-- in `acquiresleep` before `acquire(&lk->lk)`, at the start or at the end of `sleep` -/
  | acquire
  /-- in `sleep`, with `p->lock` and without `lk->lk` -/
  | doze
  | asleep
  /-- before `holdingsleep` in `brelse` or `iunlock` -/
  | check
  /-- before `releasesleep` -/
  | release
  | wakeup
  | panicked
deriving DecidableEq

/-- mirrors kernel/sleeplock.h:2-9 without the name, and the processes -/
structure Sys (n : Nat) where
  locked : Bool
  pid : Int32
  /-- who holds `lk->lk` between two steps, and the index that its `wakeup` has come to -/
  waker : Option (Fin n × Nat)
  /-- `SLEEPING` on the lock -/
  asleep : Fin n → Bool
  pc : Fin n → Pc

inductive Lbl (n : Nat) where
  | acquiresleep (p : Fin n)
  /-- `brelse` or `iunlock` -/
  | unlock (p : Fin n)
  /-- the next step of `p`'s call -/
  | go (p : Fin n)
  | kill (q : Fin n)

section
variable {n : Nat} (pids : Fin n → Int32)

/-- mirrors kernel/sleeplock.c:12-19 -/
def initsleeplock : Sys n := ⟨false, 0, none, fun _ => false, fun _ => .idle⟩

def goto (s : Sys n) (p : Fin n) (c : Pc) : Sys n := { s with pc := update s.pc p c }

/-- One round of the loop. mirrors kernel/sleeplock.c:24-30 -/
def acquiresleep (s : Sys n) (p : Fin n) : Sys n :=
  if s.locked then goto s p .doze else goto { s with locked := true, pid := pids p } p .idle

/-- mirrors kernel/sleeplock.c:43-52 -/
def holdingsleep (s : Sys n) (p : Fin n) : Bool := s.locked && s.pid == pids p

/-- `p` visits `proc[j]`, or releases `lk->lk` after the last. A process with its
`p->lock` held is waited for. mirrors kernel/proc.c:566-580 and kernel/sleeplock.c:39 -/
def wakeupOne (s : Sys n) (p : Fin n) (j : Nat) : Option (Sys n) :=
  if h : j < n then
    if ⟨j, h⟩ = p then some { s with waker := some (p, j + 1) }
    else if s.pc ⟨j, h⟩ = .doze then none
    else some { s with asleep := update s.asleep ⟨j, h⟩ false, waker := some (p, j + 1) }
  else some (goto { s with waker := none } p .idle)

/-- mirrors kernel/sleeplock.c:21-52, kernel/proc.c:535-562, kernel/bio.c:119-122
and kernel/fs.c:323-326 -/
def go (s : Sys n) (p : Fin n) : Option (Sys n) :=
  match s.pc p with
  | .idle => none
  | .acquire => if s.waker = none then some (acquiresleep pids s p) else none
  | .doze => some (goto { s with asleep := update s.asleep p true } p .asleep)
  | .asleep => if s.asleep p then none else some (goto s p .acquire)
  | .check =>
    if s.waker = none then some (goto s p (if holdingsleep pids s p then .release else .panicked)) else none
  | .release =>
    if s.waker = none then
      some (goto { s with locked := false, pid := 0, waker := some (p, 0) } p .wakeup)
    else none
  | .wakeup => s.waker.bind fun w => if w.1 = p then wakeupOne s p w.2 else none
  | .panicked => none

def step (s : Sys n) : Lbl n → Option (Sys n)
  | .acquiresleep p => if s.pc p = .idle then some (goto s p .acquire) else none
  | .unlock p => if s.pc p = .idle then some (goto s p .check) else none
  | .go p => go pids s p
  -- `kill` takes the `p->lock` of its victim
  | .kill q => if s.pc q = .doze then none else some { s with asleep := update s.asleep q false }

def lts : LTS (Sys n) (Lbl n) where
  init s := s = initsleeplock
  step s l s' := step pids s l = some s'

/-! ## The mutex -/

/-- The process that has the lock: the one whose pid it shows. -/
def holder (s : Sys n) : Option (Fin n) :=
  if s.locked then (List.finRange n).find? fun p => pids p == s.pid else none

/-- Asleep on the lock, or about to be. -/
def Waits (s : Sys n) (q : Fin n) : Prop := s.asleep q = true ∨ s.pc q = .doze

/-- `served`: while the lock is free, the `wakeup` of its last holder has yet to
visit every process that waits. -/
structure Inv (s : Sys n) : Prop where
  waker : ∀ p j, s.waker = some (p, j) → s.pc p = .wakeup
  own : s.locked = true → ∃ p, s.pid = pids p
  held : ∀ p, s.pc p = .release → s.locked = true ∧ s.pid = pids p
  rests : ∀ q, s.asleep q = true → s.pc q = .asleep
  served : ∀ q : Fin n, Waits s q → s.locked = true ∨ ∃ p j, s.waker = some (p, j) ∧ j ≤ q

variable {pids} {s t : Sys n} {p : Fin n} {l : Lbl n}

theorem holder_eq_some (hinj : Injective pids) :
    holder pids s = some p ↔ s.locked = true ∧ s.pid = pids p := by
  unfold holder
  split <;> rename_i hl
  · cases hf : (List.finRange n).find? fun q => pids q == s.pid with
    | none => exact ⟨nofun, fun h => absurd (by simp [h.2]) (List.find?_eq_none.1 hf p (List.mem_finRange p))⟩
    | some q =>
      have hq : pids q = s.pid := by simpa using List.find?_some hf
      simp [hl, ← hq, hinj.eq_iff]
  · simp [hl]

theorem Inv.go (h : Inv pids s) (hinj : Injective pids) (hs : go pids s p = some t) : Inv pids t := by
  obtain ⟨hw, ho, hh, hr, hv⟩ := h
  unfold Waits at hv
  unfold Sleeplock.go at hs
  split at hs <;> rename_i hp
  · cases hs
  · obtain ⟨-, ⟨⟩⟩ := Option.ite_none_right_eq_some.1 hs
    unfold acquiresleep
    split <;> constructor <;> simp only [Sleeplock.goto, Waits, update_apply] <;> grind -ring -linarith
  · cases hs
    constructor <;> simp only [Sleeplock.goto, Waits, update_apply] <;> grind -ring -linarith
  · obtain ⟨ha, ⟨⟩⟩ := Option.ite_none_left_eq_some.1 hs
    constructor <;> simp only [Sleeplock.goto, Waits, update_apply] <;> grind -ring -linarith
  · obtain ⟨-, ⟨⟩⟩ := Option.ite_none_right_eq_some.1 hs
    unfold holdingsleep
    constructor <;> simp only [Sleeplock.goto, Waits, update_apply] <;> grind -ring -linarith
  · -- another process about to release would have the same pid
    obtain ⟨-, ⟨⟩⟩ := Option.ite_none_right_eq_some.1 hs
    constructor <;> simp only [Sleeplock.goto, Waits, update_apply] <;> grind -ring -linarith
  · obtain ⟨⟨q, j⟩, hw, hs⟩ := Option.bind_eq_some_iff.1 hs
    obtain ⟨rfl, hs⟩ := Option.ite_none_right_eq_some.1 hs
    unfold wakeupOne at hs
    split at hs
    · split at hs
      · cases hs
        constructor <;> simp only [Waits] <;> grind -ring -linarith
      · -- `proc[j]` does not wait any more
        obtain ⟨hd, ⟨⟩⟩ := Option.ite_none_left_eq_some.1 hs
        constructor <;> simp only [Waits, update_apply] <;> grind -ring -linarith
    · cases hs
      constructor <;> simp only [Sleeplock.goto, Waits, update_apply] <;> grind -ring -linarith
  · cases hs

theorem inv_inductive (hinj : Injective pids) : (lts pids).Inductive (Inv pids) where
  init s h := by
    cases h
    constructor <;> simp [initsleeplock, Waits]
  step s l t h hs := by
    cases l with
    | go p => exact h.go hinj hs
    | acquiresleep p | unlock p =>
      obtain ⟨hp, ⟨⟩⟩ := Option.ite_none_right_eq_some.1 hs
      obtain ⟨hw, ho, hh, hr, hv⟩ := h
      unfold Waits at hv
      constructor <;> simp only [goto, Waits, update_apply] <;> grind -ring -linarith
    | kill q =>
      obtain ⟨hp, ⟨⟩⟩ := Option.ite_none_left_eq_some.1 hs
      obtain ⟨hw, ho, hh, hr, hv⟩ := h
      unfold Waits at hv
      constructor <;> simp only [Waits, update_apply] <;> grind -ring -linarith

/-- The steps that write the two fields. -/
theorem step_lock (hs : step pids s l = some t) : t.locked = s.locked ∧ t.pid = s.pid ∨ ∃ p, l = .go p ∧
    (s.pc p = .acquire ∧ s.locked = false ∧ t.locked = true ∧ t.pid = pids p ∨ s.pc p = .release ∧
      t.locked = false) := by
  cases l with
  | go p =>
    simp only [step, go] at hs
    grind [goto, acquiresleep, wakeupOne, Option.bind_eq_some_iff]
  | acquiresleep | unlock | kill => grind [step, goto]

/-- In every reachable state `holdingsleep` returns true to the holder of the lock and to nobody else; nobody
waits for a lock that is free, unless a `wakeup` is under way; and the holder changes only when a process
acquires the lock from nobody or when the holder itself releases it. -/
theorem sleeplock_mutex (hinj : Injective pids) (hr : (lts pids).Reachable s) :
    (∀ p, holdingsleep pids s p = true ↔ holder pids s = some p) ∧
    (s.waker = none → holder pids s = none → ∀ q, ¬Waits s q) ∧
    ∀ l t, step pids s l = some t → holder pids t = holder pids s ∨ ∃ p, l = .go p ∧
      (s.pc p = .acquire ∧ holder pids s = none ∧ holder pids t = some p ∨
        s.pc p = .release ∧ holder pids s = some p ∧ holder pids t = none) := by
  have h := (inv_inductive hinj).reachable hr
  refine ⟨fun p => ?_, fun hw hn q hq => ?_, fun l t hs => ?_⟩
  · rw [holder_eq_some hinj]
    simp [holdingsleep]
  · rcases h.served q hq with hl | ⟨p, j, hp, -⟩
    · obtain ⟨p, hp⟩ := h.own hl
      cases hn.symm.trans ((holder_eq_some hinj).2 ⟨hl, hp⟩)
    · cases hw.symm.trans hp
  · rcases step_lock hs with ⟨e1, e2⟩ | ⟨p, rfl, ⟨hp, hl, e⟩ | ⟨hp, e⟩⟩
    · exact .inl (by unfold holder; rw [e1, e2])
    · exact .inr ⟨p, rfl, .inl ⟨hp, by simp [holder, hl], (holder_eq_some hinj).2 e⟩⟩
    · exact .inr ⟨p, rfl, .inr ⟨hp, (holder_eq_some hinj).2 (h.held p hp), by simp [holder, e]⟩⟩

/-- The pids of two processes. -/
def twoPids (p : Fin 2) : Int32 := .ofNat (p + 1)

/-- Process 0 has the lock when process 1 asks for it and falls asleep. -/
def contended : List (Lbl 2) := [.acquiresleep 0, .go 0, .acquiresleep 1, .go 1, .go 1]

theorem sleeplock_mutex_contended :
    ∃ s, (lts twoPids).Reachable s ∧ holder twoPids s = some 0 ∧ s.asleep 1 = true ∧
    holdingsleep twoPids s 0 = true := by
  have hrun : (contended.foldlM (step twoPids) initsleeplock).map (fun s => (holder twoPids s, s.asleep 1)) =
      some (some 0, true) := by decide
  obtain ⟨s, hs, e⟩ := Option.map_eq_some_iff.1 hrun
  simp only [Prod.mk.injEq] at e
  have hr : (lts twoPids).Reachable s := ⟨_, contended, rfl, LTS.Run.of_foldlM (fun _ _ _ h => h) hs⟩
  have hinj : ∀ p q, twoPids p = twoPids q → p = q := by decide
  exact ⟨s, hr, e.1, e.2, ((sleeplock_mutex hinj hr).1 0).2 e.1⟩

end
end Xv6.Sleeplock
