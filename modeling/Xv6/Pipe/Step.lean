import Xv6.Pipe.Basic
import Mathlib.Tactic.SplitIfs

/-!
# What a step of a pipe does

`Did` says once what a step of a process does to the lock, to the ring, to its
own call and to the processes that sleep; the invariants of the other modules
are derived from it. Most steps leave most of it alone, which is what the
fields default to.

* `go_did`: the steps inside a call.
* `step_did`: all steps.
-/
namespace Xv6.Pipe
open Function (update update_self update_of_ne)

/-- The places where a process holds `pi->lock`. -/
def Pc.inside : Pc → Bool
  | .writing _ | .fullWakeup .. | .writeSleep _ | .writeWakeup .. => true
  | .readWait _ | .readSleep _ | .reading _ | .readWakeup .. => true
  | .closeWakeup .. => true
  | _ => false

/-- What the holder of `pi->lock` knows of the pipe from the tests it made. -/
def Pc.knows (pi : Pipe) : Pc → Prop
  | .writing w => w.start ≤ w.i ∧ (w.start < w.i → pi.readopen = true)
  | .fullWakeup .. | .writeSleep _ => pi.full ∧ pi.readopen = true
  | .readSleep _ => pi.empty ∧ pi.writeopen = true
  | .reading r => r.i = 0 → pi.empty → pi.writeopen = false
  | _ => True

/-- The call of `pipewrite` that a process is in. -/
def Pc.call : Pc → Option Write
  | .writeAcquire w | .writing w | .fullWakeup w _ | .writeSleep w | .writeDoze w => some w
  | .writeAsleep w | .writeWakeup w _ => some w
  | _ => none

/-- Why a process may sleep on `ch`. -/
def Reason (pi : Pipe) : Chan → Prop
  | .nread => pi.empty ∧ pi.writeopen = true
  | .nwrite => pi.full ∧ pi.readopen = true

/-- The holder of the lock that is at `c` will pass
`proc[q]` in a `wakeup(ch)` before it releases the lock. -/
def Pc.owes (ch : Chan) (q : Nat) : Pc → Prop
  | .writing w => ch = .nread ∧ w.start < w.i
  | .fullWakeup _ j | .writeWakeup _ j => ch = .nread ∧ j ≤ q
  | .reading _ => ch = .nwrite
  | .readWakeup _ j => ch = .nwrite ∧ j ≤ q
  | .closeWakeup b j => ch = closeChan b ∧ j ≤ q
  | _ => False

/-- In `sleep(ch)`, before it is `SLEEPING`. -/
def Pc.dozesOn (ch : Chan) : Pc → Prop
  | .writeDoze _ => ch = .nwrite
  | .readDoze _ => ch = .nread
  | _ => False

def Pc.resting : Pc → Bool
  | .writeAsleep _ | .readAsleep _ => true
  | _ => false

theorem Pc.dozing_of_dozesOn {ch : Chan} {c : Pc} (h : c.dozesOn ch) : c.dozing = true := by
  cases c <;> first | rfl | exact h.elim

section
variable {n : Nat} {s s' t : Sys n} {p q : Fin n} {k c : Pc} {l : Lbl n}

def Waits (s : Sys n) (q : Fin n) (ch : Chan) : Prop := s.asleep q = some ch ∨ (s.pc q).dozesOn ch

/-- Killed with bytes that it inserted since it acquired the lock. -/
def Lost (s : Sys n) (p : Fin n) : Prop := ∃ w, s.pc p = .writing w ∧ w.start < w.i ∧ s.killed p = true

inductive LockStep (s s' : Sys n) (p : Fin n) (c : Pc) : Prop where
  | stay (was : (s.pc p).inside = true) (is : c.inside = true) (lock : s'.lock = s.lock)
  | leave (was : (s.pc p).inside = true) (is : c.inside = false) (lock : s'.lock = none)
  | enter (was : (s.pc p).inside = false) (is : c.inside = true) (free : s.lock = none)
    (lock : s'.lock = some p)
  | out (was : (s.pc p).inside = false) (is : c.inside = false) (lock : s'.lock = s.lock)
    (pipe : s'.pipe = s.pipe)

/-- The ring and the histories are as they were. -/
structure Quiet (s s' : Sys n) : Prop where
  data : s'.pipe.data = s.pipe.data
  nread : s'.pipe.nread = s.pipe.nread
  nwrite : s'.pipe.nwrite = s.pipe.nwrite
  inserted : s'.inserted = s.inserted
  removed : s'.removed = s.removed

/-- Two places in one call, after as many bytes. -/
def SameCall (c c' : Pc) : Prop :=
  c.call.map (fun w => (w.id, w.buf, w.i)) = c'.call.map fun w => (w.id, w.buf, w.i)

inductive Effect (s s' : Sys n) (p : Fin n) (c : Pc) : Prop where
  | same (quiet : Quiet s s') (call : SameCall c (s.pc p)) (calls : s'.calls = s.calls)
      (returned : s'.returned = s.returned)
  | called (w : Write) (quiet : Quiet s s') (call : c.call = some w) (id : w.id = s.calls) (i : w.i = 0)
      (calls : s'.calls = s.calls + 1) (returned : s'.returned = s.returned)
  | put (w : Write) (ch : UInt8) (was : (s.pc p).call = some w) (call : c.call = some { w with i := w.i + 1 })
      (room : ¬s.pipe.full) (byte : w.buf w.i = some ch) (pipe : s'.pipe = s.pipe.put ch)
      (inserted : s'.inserted = s.inserted ++ [(w.id, ch)]) (removed : s'.removed = s.removed)
      (calls : s'.calls = s.calls) (returned : s'.returned = s.returned)
  | take (data : ¬s.pipe.empty) (call : SameCall c (s.pc p))
      (pipe : s'.pipe = { s.pipe with nread := s.pipe.nread + 1 }) (inserted : s'.inserted = s.inserted)
      (removed : s'.removed = s.removed ++ [s.pipe.next]) (calls : s'.calls = s.calls)
      (returned : s'.returned = s.returned)
  | ret (w : Write) (v : Int) (quiet : Quiet s s') (was : (s.pc p).call = some w) (call : c.call = none)
      (val : v ≠ -1 → v = w.i) (calls : s'.calls = s.calls)
        (returned : s'.returned = ⟨w.id, w.buf, v⟩ :: s.returned)

/-- A step of `p` from `k` to `c`. -/
structure Did (s t : Sys n) (p : Fin n) (k c : Pc) : Prop where
  was : s.pc p = k
  lock : LockStep s t p c
  effect : Effect s t p c
  pc : t.pc = update s.pc p c
  knows : k.knows s.pipe → c.knows t.pipe
  killed : t.killed = s.killed
  asleep : ∀ q ch, t.asleep q = some ch → s.asleep q = some ch ∨ q = p ∧ k.dozesOn ch ∧ c.resting = true
  awake : k.resting = true → s.asleep p = none
  fresh : ∀ w, c = .writing w → w.start < w.i → s.killed p = false
  /-- who starts to wait has a reason -/
  dozes : ∀ ch, c.dozesOn ch → k.knows s.pipe → Reason t.pipe ch
  /-- who has lost its reason, or was owed a wakeup, is owed one; `p` itself does not wait inside -/
  owes : ∀ (q : Fin n) ch, Waits t q ch → (k.inside = true → q ≠ p) → k.knows s.pipe →
    Reason s.pipe ch ∨ k.owes ch q →
      Reason t.pipe ch ∨ c.owes ch q ∨ ch = .nread ∧ Lost s p

/-! ## The steps of a call -/

theorem LockStep.stays (hp : s.pc p = k) (h : (k.inside, c.inside, t.lock) = (true, true, s.lock)) :
    LockStep s t p c := by
  simp only [Prod.mk.injEq] at h
  exact .stay (hp ▸ h.1) h.2.1 h.2.2

theorem LockStep.leaves (hp : s.pc p = k) (h : (k.inside, c.inside, t.lock) = (true, false, none)) :
    LockStep s t p c := by
  simp only [Prod.mk.injEq] at h
  exact .leave (hp ▸ h.1) h.2.1 h.2.2

theorem LockStep.outs (hp : s.pc p = k)
    (h : (k.inside, c.inside, t.lock, t.pipe) = (false, false, s.lock, s.pipe)) : LockStep s t p c := by
  simp only [Prod.mk.injEq] at h
  exact .out (hp ▸ h.1) h.2.1 h.2.2.1 h.2.2.2

theorem Quiet.of (h : (t.pipe.data, t.pipe.nread, t.pipe.nwrite, t.inserted, t.removed) =
    (s.pipe.data, s.pipe.nread, s.pipe.nwrite, s.inserted, s.removed)) : Quiet s t := by
  simp only [Prod.mk.injEq] at h
  exact ⟨h.1, h.2.1, h.2.2.1, h.2.2.2.1, h.2.2.2.2⟩

theorem Effect.plain (hp : s.pc p = k) (call : SameCall c k)
    (h : ((t.pipe.data, t.pipe.nread, t.pipe.nwrite, t.inserted, t.removed), t.calls, t.returned) =
      ((s.pipe.data, s.pipe.nread, s.pipe.nwrite, s.inserted, s.removed), s.calls, s.returned)) :
      Effect s t p c :=
  .same (.of (congrArg Prod.fst h)) (hp ▸ call) (congrArg (·.2.1) h) (congrArg (·.2.2) h)

/-- `p` goes on, and nobody falls asleep. -/
theorem Did.of (hp : s.pc p = k) (lock : LockStep s t p c) (effect : Effect s t p c)
    (h : (t.pc, t.killed, t.asleep, k.resting) = (update s.pc p c, s.killed, s.asleep, false))
    (fresh : ∀ w, c = .writing w → w.start < w.i → s.killed p = false)
    (dozes : ∀ ch, c.dozesOn ch → k.knows s.pipe → Reason t.pipe ch) (knows : k.knows s.pipe → c.knows t.pipe)
    (owes : ∀ (q : Fin n) ch, k.knows s.pipe → Reason s.pipe ch ∨ k.owes ch q →
      Reason t.pipe ch ∨ c.owes ch q ∨ ch = .nread ∧ Lost s p) : Did s t p k c := by
  simp only [Prod.mk.injEq] at h
  obtain ⟨hpc, hk, ha, hr⟩ := h
  exact ⟨hp, lock, effect, hpc, knows, hk, fun q ch hq => .inl (ha ▸ hq), by simp [hr], fresh, dozes,
    fun q ch _ _ => owes q ch⟩

/-- `acquire`, with a change of the pipe that the ring does not see. -/
theorem acquire_did (pi : Pipe) (h : acquire { s with pipe := pi } p c = some t) (hp : s.pc p = k)
    (quiet : Quiet s { s with pipe := pi }) (knows : c.knows pi)
    (fresh : ∀ w, c = .writing w → ¬w.start < w.i)
    (owes : ∀ (q : Fin n) ch, Reason s.pipe ch → Reason pi ch ∨ c.owes ch q) (call : SameCall c k)
    (h' : (k.inside, c.inside, k.resting) = (false, true, false)) : Did s t p k c := by
  simp only [Prod.mk.injEq] at h'
  obtain ⟨was, is, awake⟩ := h'
  have hout : ∀ ch q, ¬k.owes ch q := fun ch q ho => by cases k <;> first | exact ho | cases was
  have hdoze : ∀ ch, ¬c.dozesOn ch := fun ch hd => by cases c <;> first | exact hd | cases is
  simp only [acquire, Option.ite_none_right_eq_some, Option.some.injEq] at h
  obtain ⟨⟨hfree, -⟩, rfl⟩ := h
  exact .of hp (.enter (hp ▸ was) is hfree rfl)
    (.same ⟨quiet.data, quiet.nread, quiet.nwrite, rfl, rfl⟩ (hp ▸ call) rfl rfl) (by rw [awake]; rfl)
    (fun w e hlt => absurd hlt (fresh w e)) (fun ch hd => absurd hd (hdoze ch)) (fun _ => knows)
    fun q ch _ hr => (owes q ch (hr.resolve_right (hout ch q))).imp id .inl

/-- A `wakeup(chan)` that has come to `proc[j]`. -/
theorem wakeupOne_did {chan : Chan} {j : Nat} {last : Sys n}
    (h : wakeupOne s p chan j c last = some t) (hp : s.pc p = k)
    (owed : ∀ ch q, k.owes ch q → ch = chan ∧ j ≤ q) (owes : ∀ q, j + 1 ≤ q → c.owes chan q)
    (hlast : n ≤ j → ∃ c, Did s last p k c) (knows : k.knows s.pipe → c.knows s.pipe) (call : SameCall c k)
    (h' : (k.inside, c.inside, k.resting) = (true, true, false)) (fresh : ∀ w, c ≠ .writing w) :
    ∃ c, Did s t p k c := by
  simp only [Prod.mk.injEq] at h'
  obtain ⟨was, is, awake⟩ := h'
  have hdoze : ∀ ch, ¬c.dozesOn ch := fun ch hd => by cases c <;> first | exact hd | cases is
  -- the process passed in this step does not wait on `chan` any more
  have hpass : ∀ (hj : j < n) (asleep : Fin n → Option Chan),
    (∀ q ch, asleep q = some ch → s.asleep q = some ch) →
      (⟨j, hj⟩ = p ∨ asleep ⟨j, hj⟩ ≠ some chan ∧ ¬(s.pc ⟨j, hj⟩).dozesOn chan) →
      Did s (goto { s with asleep := asleep } p c) p k c := fun hj asleep hsleep hnot => {
    was := hp, lock := .stay (hp ▸ was) is rfl, effect := .plain hp call rfl, pc :=
    rfl, knows := knows, killed := rfl
    asleep := fun q ch hq => .inl (hsleep q ch hq)
    awake := by simp [awake]
    fresh := fun w e => absurd e (fresh w)
    dozes := fun ch hd => absurd hd (hdoze ch)
    owes := fun q ch hw hne _ hr => hr.imp id fun ho => by
      obtain ⟨rfl, hle⟩ := owed ch q ho
      refine .inl (owes q (Nat.lt_of_le_of_ne hle fun e => ?_))
      obtain rfl : q = ⟨j, hj⟩ := Fin.ext e.symm
      obtain ⟨h1, h2⟩ := hnot.resolve_left (hne was)
      rcases hw with hw | hw
      · exact h1 hw
      · exact h2 (by simpa [goto, hne was] using hw) }
  simp only [wakeupOne] at h
  split_ifs at h with hj hq hd hs <;> cases h
  · exact ⟨c, hpass hj s.asleep (fun _ _ => id) (.inl hq)⟩
  · refine ⟨c, hpass hj _ (fun q ch hq => ?_) (.inr ⟨by simp, mt Pc.dozing_of_dozesOn hd⟩)⟩
    by_cases e : q = ⟨j, hj⟩
    · simp [e] at hq
    · simpa [e] using hq
  · exact ⟨c, hpass hj s.asleep (fun _ _ => id) (.inr ⟨hs, mt Pc.dozing_of_dozesOn hd⟩)⟩
  · exact hlast (Nat.le_of_not_lt hj)

theorem writeLoop_did {w : Write} (hp : s.pc p = .writing w) :
    ∃ c, Did s (writeLoop s p w) p (.writing w) c := by
  have hcall : (s.pc p).call = some w := by rw [hp]; rfl
  -- the wakeup that is owed is made
  have hwakes : ∀ c : Pc, (∀ q, c.owes .nread q) → ∀ (q : Fin n) ch, Reason s.pipe ch ∨
    (Pc.writing w).owes ch q →
      Reason s.pipe ch ∨ c.owes ch q ∨ ch = .nread ∧ Lost s p := fun c ho q ch hr =>
    hr.imp id fun h => .inl (by rw [h.1]; exact ho q)
  have hend : Did s (goto s p (.writeWakeup w 0)) p (.writing w) (.writeWakeup w 0) :=
    .of hp (.stays hp rfl) (.plain hp rfl rfl) rfl nofun nofun (fun _ => trivial)
      fun q ch _ => hwakes (.writeWakeup w 0) (fun q => ⟨rfl, Nat.zero_le _⟩) q ch
  unfold writeLoop
  split_ifs with hlt hexit hfull
  · -- the return of -1 wakes nobody
    refine ⟨.idle, .of hp (.leaves hp rfl)
      (.ret w (-1) (.of rfl) hcall rfl (absurd rfl) rfl rfl) rfl nofun nofun
      (fun _ => trivial) fun q ch hk hr => hr.imp id fun ho => .inr ⟨ho.1, w, hp, ho.2, ?_⟩⟩
    exact hexit.resolve_left (by simp [hk.2 ho.2])
  · have hopen : s.pipe.readopen = true := by simpa using (not_or.1 hexit).1
    exact ⟨.fullWakeup w 0, .of hp (.stays hp rfl) (.plain hp rfl rfl) rfl nofun nofun
      (fun _ => ⟨hfull, hopen⟩) fun q ch _ => hwakes (.fullWakeup w 0) (fun q => ⟨rfl, Nat.zero_le _⟩) q ch⟩
  · obtain ⟨hopen, hk⟩ : s.pipe.readopen = true ∧ s.killed p = false := by simpa using hexit
    split
    · exact ⟨_, hend⟩
    · rename_i ch hch
      refine ⟨.writing { w with i := w.i + 1 }, .of hp (.stays hp rfl)
        (.put w ch hcall rfl hfull hch rfl rfl rfl rfl rfl) rfl (fun _ _ _ => hk) nofun
        (fun h => ⟨Nat.le_succ_of_le h.1, fun _ => hopen⟩) fun q ch hk hr => .inr (.inl ?_)⟩
      have hlt : w.start < w.i + 1 := Nat.lt_succ_of_le hk.1
      cases ch with
      | nread => exact ⟨rfl, hlt⟩
      | nwrite => exact ⟨hr.elim (fun hr => absurd hr.1 hfull) And.left, hlt⟩
  · exact ⟨_, hend⟩

theorem waitLoop_did {r : Read} (hp : s.pc p = .readWait r) :
    ∃ c, Did s (waitLoop s p r) p (.readWait r) c := by
  unfold waitLoop
  split_ifs with hwait hk
  · exact ⟨.idle, .of hp (.leaves hp rfl) (.plain hp rfl rfl) rfl nofun nofun (fun _ => trivial)
      fun _ _ _ h => .inl (h.resolve_right id)⟩
  · exact ⟨.readSleep r, .of hp (.stays hp rfl) (.plain hp rfl rfl) rfl nofun nofun (fun _ => hwait)
      fun _ _ _ h => .inl (h.resolve_right id)⟩
  · refine ⟨.reading { r with i := 0 }, .of hp (.stays hp rfl) (.plain hp rfl rfl) rfl nofun nofun
      (fun _ _ he => ?_) fun _ _ _ h => .inl (h.resolve_right id)⟩
    show s.pipe.writeopen = false
    simpa using mt (And.intro he) hwait

theorem readLoop_did {r : Read} (hp : s.pc p = .reading r) (ok : Bool) :
    ∃ c, Did s (readLoop s p r ok) p (.reading r) c := by
  have hsame : ∀ c : Pc, c.call = none → SameCall c (s.pc p) := fun c h => by rw [SameCall, h, hp]; rfl
  have hend : Did s (goto s p (.readWakeup r 0)) p (.reading r) (.readWakeup r 0) :=
    .of hp (.stays hp rfl) (.plain hp rfl rfl) rfl nofun nofun (fun _ => trivial)
      fun q ch _ hr => hr.imp id fun h => .inl ⟨h, Nat.zero_le _⟩
  unfold readLoop
  -- after a byte is taken all writers are owed, and no reader has a reason
  have hw : ¬s.pipe.empty → ∀ ch, Reason s.pipe ch ∨ ch = .nwrite → ch = .nwrite := fun hdata ch hr => by
    cases ch with
    | nread => exact hr.elim (fun h => absurd h.1 hdata) id
    | nwrite => rfl
  split_ifs with hlt hempty hok
  · exact ⟨_, hend⟩
  · exact ⟨.reading { r with i := r.i + 1 }, .of hp (.stays hp rfl)
      (.take hempty (hsame _ rfl) rfl rfl rfl rfl rfl) rfl nofun nofun
      (fun _ h => absurd h (Nat.succ_ne_zero _)) fun q ch _ hr => .inr (.inl (hw hempty ch hr))⟩
  · exact ⟨.readWakeup r 0,
      .of hp (.stays hp rfl) (.take hempty (hsame _ rfl) rfl rfl rfl rfl rfl) rfl nofun nofun
      (fun _ => trivial) fun q ch _ hr => .inr (.inl ⟨hw hempty ch hr, Nat.zero_le _⟩)⟩
  · exact ⟨_, hend⟩

/-- A process falls asleep. -/
theorem fall_did {ch : Chan} (c : Pc) (hp : s.pc p = k) (hk : k.dozesOn ch) (hc : c.resting = true)
    (call : SameCall c k) : Did s (goto { s with asleep := update s.asleep p (some ch) } p c) p k c := by
  have hin : k.inside = false ∧ k.resting = false ∧ ∀ ch q, ¬k.owes ch q := by
    cases k <;> first | exact hk.elim | exact ⟨rfl, rfl, fun _ _ => id⟩
  have hout : c.inside = false ∧ c.knows s.pipe ∧ (∀ ch, ¬c.dozesOn ch) ∧ ∀ w, c ≠ .writing w := by
    cases c <;> first | exact ⟨rfl, trivial, fun _ => id, by rintro _ ⟨⟩⟩ | cases hc
  refine {
    was := hp, lock := .out (hp ▸ hin.1) hout.1 rfl rfl, effect := .plain hp call rfl
    pc := rfl, killed := rfl, knows := fun _ => hout.2.1
    asleep := fun q ch hq => ?_
    awake := by simp [hin.2.1]
    fresh := fun w e => absurd e (hout.2.2.2 w)
    dozes := fun ch hd => absurd hd (hout.2.2.1 ch)
    owes := fun q ch _ _ _ hr => .inl (hr.resolve_right (hin.2.2 ch q)) }
  by_cases e : q = p
  · obtain rfl : _ = ch := by simpa [goto, e] using hq
    exact .inr ⟨e, hk, hc⟩
  · exact .inl (by simpa [goto, e] using hq)

theorem go_did {ok : Bool} (h : go s p ok = some t) : ∃ k c, Did s t p k c := by
  -- a wakeup that is over has passed all whom it owed
  have hover : ∀ {j : Nat} {pi : Pipe} {ch chan : Chan} {q : Fin n} {P : Prop}, n ≤ j →
      Reason pi ch ∨ ch = chan ∧ j ≤ q → Reason pi ch ∨ P := fun hj hr => hr.imp id fun ho => by
    have := ho.2; omega
  unfold go at h
  split at h <;> rename_i hp
  · cases h
  · exact ⟨_, _, acquire_did s.pipe h hp (.of rfl) ⟨Nat.le_refl _, fun h => absurd h (Nat.lt_irrefl _)⟩
      (by rintro _ ⟨⟩; exact Nat.lt_irrefl _) (fun _ _ => .inl) rfl rfl⟩
  · cases h; exact ⟨_, writeLoop_did hp⟩
  · exact ⟨_, wakeupOne_did h hp (fun _ _ => id) (fun _ => .intro rfl)
      (fun hj => ⟨.writeSleep _, .of hp (.stays hp rfl) (.plain hp rfl rfl) rfl nofun nofun id
        fun q ch _ => hover hj⟩)
      id rfl rfl nofun⟩
  · cases h
    exact ⟨_, .writeDoze _, .of hp (.leaves hp rfl) (.plain hp rfl rfl) rfl nofun (fun ch e hk => e ▸ hk)
      (fun _ => trivial) fun _ _ _ h => .inl (h.resolve_right id)⟩
  · cases h; exact ⟨_, _, fall_did (.writeAsleep _) hp rfl rfl rfl⟩
  · simp only [Option.ite_none_right_eq_some, Option.some.injEq] at h
    obtain ⟨ha, rfl⟩ := h
    exact ⟨_, .writeAcquire _, hp, .outs hp rfl, .plain hp rfl rfl, rfl, fun _ => trivial,
      rfl, fun _ _ => .inl, fun _ => ha, nofun, nofun, fun _ _ _ _ _ h => .inl (h.resolve_right id)⟩
  · exact ⟨_, wakeupOne_did h hp (fun _ _ => id) (fun _ => .intro rfl)
      (fun hj => ⟨.idle, .of hp (.leaves hp rfl)
      (.ret _ _ (.of rfl) (by rw [hp]; rfl) rfl (fun _ => rfl) rfl rfl) rfl nofun nofun (fun _ => trivial)
      fun q ch _ => hover hj⟩) (fun _ => trivial) rfl rfl nofun⟩
  · exact ⟨_, _, acquire_did s.pipe h hp (.of rfl) trivial (by rintro _ ⟨⟩) (fun _ _ => .inl) rfl rfl⟩
  · cases h; exact ⟨_, waitLoop_did hp⟩
  · cases h
    exact ⟨_, .readDoze _, .of hp (.leaves hp rfl) (.plain hp rfl rfl) rfl nofun (fun ch e hk => e ▸ hk)
      (fun _ => trivial) fun _ _ _ h => .inl (h.resolve_right id)⟩
  · cases h; exact ⟨_, _, fall_did (.readAsleep _) hp rfl rfl rfl⟩
  · simp only [Option.ite_none_right_eq_some, Option.some.injEq] at h
    obtain ⟨ha, rfl⟩ := h
    exact ⟨_, .readAcquire _, hp, .outs hp rfl, .plain hp rfl rfl, rfl, fun _ => trivial,
      rfl, fun _ _ => .inl, fun _ => ha, nofun, nofun, fun _ _ _ _ _ h => .inl (h.resolve_right id)⟩
  · cases h; exact ⟨_, readLoop_did hp ok⟩
  · exact ⟨_, wakeupOne_did h hp (fun _ _ => id) (fun _ => .intro rfl)
      (fun hj => ⟨.idle, .of hp (.leaves hp rfl)
      (.plain hp rfl rfl) rfl nofun nofun (fun _ => trivial) fun q ch _ => hover hj⟩)
      (fun _ => trivial) rfl rfl nofun⟩
  · -- `pipeclose` takes the reason of those whom it then owes a wakeup
    rename_i b
    refine ⟨_, _, acquire_did (s.pipe.shut b) h hp ?_ trivial (by rintro _ ⟨⟩) (fun q ch hr => ?_) rfl rfl⟩
    · cases b <;> exact ⟨rfl, rfl, rfl, rfl, rfl⟩
    · cases b <;> cases ch <;> first | exact .inl hr | exact .inr ⟨rfl, Nat.zero_le _⟩
  · exact ⟨_, wakeupOne_did h hp (fun _ _ => id) (fun _ => .intro rfl)
      (fun hj => ⟨.idle, .of hp (.leaves hp rfl)
      (.plain hp rfl rfl) rfl nofun nofun (fun _ => trivial) fun q ch _ => hover hj⟩)
      (fun _ => trivial) rfl rfl nofun⟩

theorem idle_iff : idle s p = true ↔ s.pc p = .idle := by
  unfold idle
  cases s.pc p <;> simp

/-- Steps that no process of the pipe makes: `kill` and the renewal of a slot. -/
structure Aside (s s' : Sys n) : Prop where
  pc : s'.pc = s.pc
  lock : s'.lock = s.lock
  pipe : s'.pipe = s.pipe
  inserted : s'.inserted = s.inserted
  removed : s'.removed = s.removed
  calls : s'.calls = s.calls
  returned : s'.returned = s.returned

theorem step_did (h : step s l = some t) : (∃ p k c, Did s t p k c) ∨ Aside s t ∧
    (∀ q ch, t.asleep q = some ch → s.asleep q = some ch) ∧
    ((∃ q, l = .kill q ∧ t.killed = update s.killed q true) ∨ ∃ p, s.pc p = .idle ∧
      t.killed = update s.killed p false) := by
  cases l with
  | go p ok => exact .inl ⟨p, go_did h⟩
  | kill q =>
    simp only [step, kill, Option.ite_none_left_eq_some, Option.some.injEq] at h
    obtain ⟨-, rfl⟩ := h
    refine .inr ⟨⟨rfl, rfl, rfl, rfl, rfl, rfl, rfl⟩, fun q' ch hq => ?_, .inl ⟨q, rfl, rfl⟩⟩
    by_cases e : q' = q
    · simp [e] at hq
    · simpa [e] using hq
  | _ =>
    simp only [step, Option.ite_none_right_eq_some, Option.some.injEq, idle_iff] at h
    obtain ⟨hi, rfl⟩ := h
    first
    | exact .inl ⟨_, _, .writeAcquire _, .of hi (.outs hi rfl) (.called _ (.of rfl) rfl rfl rfl rfl rfl) rfl
        nofun nofun (fun _ => trivial) fun _ _ _ h => .inl (h.resolve_right id)⟩
    | exact .inl ⟨_, _, .readAcquire _, .of hi (.outs hi rfl) (.plain hi rfl rfl) rfl
        nofun nofun (fun _ => trivial) fun _ _ _ h => .inl (h.resolve_right id)⟩
    | exact .inl ⟨_, _, .closeAcquire _, .of hi (.outs hi rfl) (.plain hi rfl rfl) rfl
        nofun nofun (fun _ => trivial) fun _ _ _ h => .inl (h.resolve_right id)⟩
    | exact .inr ⟨⟨rfl, rfl, rfl, rfl, rfl, rfl, rfl⟩, fun _ _ => id, .inr ⟨_, hi, rfl⟩⟩

end
end Xv6.Pipe
