import Xv6.Sched.Basic

/-!
# What the code of a thread does, place by place

For every place of a thread: which `p->lock` it holds there (`Pc.held`), what
state its process is in (`Pc.state`), whether it belongs to the scheduler, to
an interrupt handler or to a process (`Pc.kind`), and which slot a `fork` is
filling (`Pc.child`). `Act.Ok` says how an action changes these, and
`code_ok` checks it for the whole code. The invariants of `Sched.Inv` are
then proved for actions, not for places.
-/
namespace Xv6.Sched
open Function (update)
open Proc (PState Chan)

section
variable {m n : Nat}

/-- The `p->lock` that a thread holds. -/
inductive Held (n : Nat) where
  | nothing
  | own
  | of (q : Fin n)

/-- With `myproc()` as `me`, the lock is that of `q`. -/
def Held.is (me : Option (Fin n)) (q : Fin n) : Held n → Prop
  | .nothing => False
  | .own => me = some q
  | .of q' => q' = q

def Pc.held : Pc n → Held n
  | .test q | .toSwtch q | .back q | .rel q => .of q
  | .wakeHave _ q _ _ | .wakeRel _ q _ _ | .killHave _ q | .drop q => .of q
  | .allocHave q | .forkNew q | .forkRun q | .scanHave q | .waitFreed q => .of q
  | .forkret | .yieldHave | .sched _ | .swtch .. | .resumed .. | .after _ => .own
  | .sleepHave _ | .sleepSet _ | .sleepTidy _ | .setHave | .exitSet | .exitRel | .waitKilled => .own
  | _ => .nothing

def Caller.state : Caller n → PState
  | .yield => .runnable
  | .sleep _ => .sleeping
  | .exit => .zombie

def Pc.state : Pc n → PState
  | .sched f | .swtch f _ => f.state
  | .exitRel => .zombie
  | _ => .running

inductive Kind where
  | scheduler
  | handler
  | process
  deriving DecidableEq

def Ret.kind : Ret → Kind
  | .handler => .handler
  | _ => .process

def Caller.kind : Caller n → Kind
  | .yield => .handler
  | .sleep k => k.ret.kind
  | .exit => .process

def Pc.kind : Pc n → Kind
  | .loop _ | .test _ | .toSwtch _ | .inSwtch _ | .back _ | .rel _ => .scheduler
  | .handler | .yieldHave => .handler
  | .sched f | .swtch f _ | .away f _ | .resumed f _ | .after f => f.kind
  | .wake _ _ r _ | .wakeHave _ _ r _ | .wakeRel _ _ r _ => r.kind
  | .sleepCall k | .sleepHave k | .sleepSet k | .sleepTidy k | .relock k => k.ret.kind
  | _ => .process

def Pc.child : Pc n → Option (Fin n)
  | .forkNew q | .forkParent q | .forkSet q | .forkRelWait q | .forkLock q | .forkRun q => some q
  | _ => none

/-- Places other than those of `swtch`. -/
def Pc.plain : Pc n → Bool
  | .toSwtch _ | .inSwtch _ | .back _ | .away .. | .born => false
  | _ => true

/-- In `sleep` or in `sched`, before `swtch`. -/
def Pc.leaving : Pc n → Bool
  | .sleepCall _ | .sleepHave _ | .sleepSet _ | .sched _ | .swtch .. => true
  | _ => false

@[simp] theorem Ret.pc_leaving (r : Ret) : (r.pc : Pc n).leaving = false := by cases r <;> rfl
@[simp] theorem Ret.pc_plain (r : Ret) : (r.pc : Pc n).plain = true := by cases r <;> rfl
@[simp] theorem Ret.pc_held (r : Ret) : (r.pc : Pc n).held = .nothing := by cases r <;> rfl
@[simp] theorem Ret.pc_state (r : Ret) : (r.pc : Pc n).state = .running := by cases r <;> rfl
@[simp] theorem Ret.pc_kind (r : Ret) : (r.pc : Pc n).kind = r.kind := by cases r <;> rfl
@[simp] theorem Ret.pc_child (r : Ret) : (r.pc : Pc n).child = none := by cases r <;> rfl

/-- A thread is one of a process that is in use. -/
theorem Pc.state_live (k : Pc n) : k.state ≠ .unused ∧ k.state ≠ .used := by
  cases k with
  | sched f | swtch f => cases f <;> simp [Pc.state, Caller.state]
  | _ => simp [Pc.state]

/-- A thread in another state than `RUNNING` holds its own lock. -/
theorem Pc.held_of_state {k : Pc n} (h : k.state ≠ .running) : k.held = .own := by
  cases k <;> first | rfl | exact absurd rfl h

/-- From `k` to `next` without a `swtch`. -/
structure Goes (k next : Pc n) : Prop where
  kind : next.kind = k.kind
  plain : k.plain = true
  plainNext : next.plain = true
  swtch : ∀ f intena, next = .swtch f intena → k = .sched f
  sleep : ∀ call, next = .sched (.sleep call) → k = .sleepSet call
  sleepSet : ∀ call, next = .sleepSet call → k = .sleepHave call
  sleepHave : ∀ call, next = .sleepHave call → k = .sleepCall call
  sleepCall : ∀ call, next = .sleepCall call → k = .run ∨ call.ret ≠ .run

theorem Goes.of {k next : Pc n}
    (h : (next.kind, k.plain, next.plain, next.leaving) = (k.kind, true, true, false)) : Goes k next := by
  simp only [Prod.mk.injEq] at h
  obtain ⟨hk, hp, hn, hl⟩ := h
  refine ⟨hk, hp, hn, ?_, ?_, ?_, ?_, ?_⟩ <;> intros <;> subst next <;> cases hl

theorem goes_yield : Goes (.yieldHave : Pc n) (.sched .yield) := by constructor <;> first | rfl | simp

theorem goes_exit : Goes (.exitRel : Pc n) (.sched .exit) := by constructor <;> first | rfl | simp

theorem goes_swtch (f : Caller n) (intena : Bool) : Goes (.sched f) (.swtch f intena) := by
  constructor <;> first | rfl | simp

theorem goes_sched (call : SleepCall n) : Goes (.sleepSet call) (.sched (.sleep call)) := by
  constructor <;> first | rfl | simp

theorem goes_sleepSet (call : SleepCall n) : Goes (.sleepHave call) (.sleepSet call) := by
  constructor <;> first | rfl | simp

theorem goes_sleepHave (call : SleepCall n) : Goes (.sleepCall call) (.sleepHave call) := by
  constructor <;> first | rfl | simp

theorem goes_sleepCall {k : Pc n} {call : SleepCall n} (hk : call.ret.kind = k.kind) (hp : k.plain = true)
    (h : k = .run ∨ call.ret ≠ .run) : Goes k (.sleepCall call) :=
  ⟨hk, hp, rfl, by simp, by simp, by simp, by simp, by simpa using h⟩

/-- The same lock is held, with the same child. -/
structure Along (me : Option (Fin n)) (k next : Pc n) : Prop extends Goes k next where
  held : ∀ q, next.held.is me q ↔ k.held.is me q
  child : next.child = k.child
  state : next.state = k.state

/-- What a running process writes to `proc[q]`. -/
inductive SetOk (s : Sys m n) (me : Option (Fin n)) (k : Pc n) (q : Fin n) (d : PCB n)
    (next : Pc n) : Prop where
  /-- it changes its own state -/
  | own (self : me = some q) (held : k.held.is me q) (state : d.state = next.state)
      (chan : ∀ call, next = .sched (.sleep call) → d.chan = some call.chan) (child : next.child = k.child)
  | keep (state : d.state = (s.proc q).state) (chan : d.chan = (s.proc q).chan ∨ me = some q)
      (child : next.child = k.child) (run : next.state = .running)
  | wake (held : k.held.is me q) (was : (s.proc q).state = .sleeping) (state : d.state = .runnable)
      (child : next.child = k.child) (run : next.state = .running)
  | reap (held : k.held.is me q) (was : (s.proc q).state = .zombie) (state : d.state = .unused)
      (child : next.child = k.child) (run : next.state = .running)
  | abort (held : k.held.is me q) (was : k.child = some q) (state : d.state = .unused)
    (child : next.child = none)
      (run : next.state = .running)
  | ready (held : k.held.is me q) (was : k.child = some q) (state : d.state = .runnable)
    (child : next.child = none)
      (run : next.state = .running)
  | made (held : k.held.is me q) (was : (s.proc q).state = .unused) (born : s.pc (.proc q) = .born)
      (state : d.state = .used) (none : k.child = none) (child : next.child = some q)
        (run : next.state = .running)

def Act.Ok (s : Sys m n) (me : Option (Fin n)) (k : Pc n) : Act n → Prop
  | .acquire (.proc q) next =>
    Goes k next ∧ k.held = .nothing ∧ (∀ q', next.held.is me q' ↔ q' = q) ∧ next.child = k.child ∧
      next.state = .running
  | .acquire (.shared _) next => Along me k next
  | .release (.proc q) next =>
    Goes k next ∧ (∀ q', k.held.is me q' ↔ q' = q) ∧ next.held = .nothing ∧ next.child = k.child ∧
      k.state = .running ∧ next.state = .running
  | .release (.shared _) next => Along me k next
  | .goto next => Along me k next
  | .set q d next =>
    Goes k next ∧ (∀ q', next.held.is me q' ↔ k.held.is me q') ∧ k.state = .running ∧ SetOk s me k q d next
  | .create q d next =>
    Goes k next ∧ (∀ q', next.held.is me q' ↔ k.held.is me q') ∧ k.held.is me q ∧ (s.proc q).state = .unused ∧
      d.state = .used ∧ k.child = none ∧ next.child = some q ∧ k.kind = .process ∧ next.state = .running ∧
      k.state = .running
  | .dispatch q next => k = .test q ∧ next = .toSwtch q ∧ (s.proc q).state = .runnable
  | .undispatch next => ∃ q, k = .back q ∧ next = .rel q
  | .swtchIn q next => k = .toSwtch q ∧ next = .inSwtch q
  | .swtchOut next => ∃ f intena, k = .swtch f intena ∧ next = .away f intena
  | .restore _ next => Along me k next
  | .intr _ next => Along me k next
  | .call next => ∀ id, Along me k (next id)
  | .irq => True
  | .iret => k = .handler
  | .panic _ => True
  | .stuck => True

variable {s : Sys m n} {c : Fin m} {p : Fin n} {me : Option (Fin n)} {k : Pc n}

theorem visit_of {P : Act n → Prop} {j : Nat} {f : Fin n → Act n} {last : Act n}
    (hf : ∀ h : j < n, P (f ⟨j, h⟩)) (hl : P last) : P (visit j f last) := by
  unfold visit
  split
  · exact hf _
  · exact hl

theorem atBase_of {P : Act n → Prop} {u : Cpu n} {a : Act n} (hstuck : P .stuck) (h : u.noff = 0 → P a) :
    P (atBase u a) := by
  unfold atBase
  split
  · exact h ‹_›
  · exact hstuck

theorem Along.free {k next : Pc n} (hg : Goes k next)
    (h : (k.held, next.held, next.child, next.state) = (.nothing, .nothing, k.child, k.state)) :
    Along me k next := by
  simp only [Prod.mk.injEq] at h
  exact ⟨hg, fun q => by rw [h.1, h.2.1], h.2.2.1, h.2.2.2⟩

theorem Along.ret {k : Pc n} (r : Ret)
    (h : (k.kind, k.plain, k.held, k.child, k.state) = (r.kind, true, .nothing, none, .running)) :
    Along me k r.pc := by
  simp only [Prod.mk.injEq] at h
  exact .free (.of (by simp [h])) (by simp [h])

theorem schedulerCode_ok : (schedulerCode s k).Ok s me k := by
  unfold schedulerCode
  split
  · refine visit_of (fun q => ?_) (.free (.of rfl) rfl)
    exact ⟨.of rfl, rfl, fun q' => eq_comm, rfl, rfl⟩
  · split
    · exact ⟨rfl, rfl, by assumption⟩
    · exact ⟨.of rfl, fun q' => eq_comm, rfl, rfl, rfl, rfl⟩
  · exact ⟨rfl, rfl⟩
  · exact ⟨_, rfl, rfl⟩
  · exact ⟨.of rfl, fun q' => eq_comm, rfl, rfl, rfl, rfl⟩
  · trivial

theorem own_is (p q : Fin n) : Held.own.is (some p) q ↔ q = p := by
  simp [Held.is, eq_comm]

theorem handlerOp_ok (op : Op n) : (handlerOp s c me op).Ok s me .handler := by
  cases op with
  | acquire | release => exact .free (.of rfl) rfl
  | wakeup chan => exact fun _ => .free (.of rfl) rfl
  | yield =>
    cases me with
    | none => trivial
    | some p =>
      show Act.Ok s (some p) .handler (if _ then _ else _)
      split
      · exact atBase_of trivial fun _ => ⟨.of rfl, rfl, own_is p, rfl, rfl⟩
      · trivial
  | iret => exact atBase_of trivial fun _ => rfl
  | _ => trivial

theorem wakeupCode_ok : (wakeupCode s me k).Ok s me k := by
  unfold wakeupCode
  split
  · refine visit_of (fun q => ?_) (.ret _ rfl)
    split
    · exact .free (.of rfl) rfl
    · exact ⟨.of rfl, rfl, fun q' => eq_comm, rfl, rfl⟩
  · split
    · rename_i h
      exact ⟨.of rfl, fun _ => Iff.rfl, rfl, .wake rfl h.1 rfl rfl rfl⟩
    · exact ⟨.of rfl, fun q' => eq_comm, rfl, rfl, rfl, rfl⟩
  · exact ⟨.of rfl, fun q' => eq_comm, rfl, rfl, rfl, rfl⟩
  · trivial

theorem schedCheck_ok (f : Caller n) : (schedCheck s c p f).Ok s (some p) (.sched f) := by
  unfold schedCheck
  split
  · trivial
  · split
    · trivial
    · split
      · trivial
      · split
        · trivial
        · exact ⟨goes_swtch _ _, fun _ => Iff.rfl, rfl, rfl⟩

theorem switchCode_ok : (switchCode s c p k).Ok s (some p) k := by
  unfold switchCode
  split
  · exact ⟨.of rfl, own_is p, rfl, rfl, rfl, rfl⟩
  · exact ⟨goes_yield, fun _ => Iff.rfl, rfl,
      .own rfl rfl rfl (by rintro _ ⟨⟩) rfl⟩
  · exact schedCheck_ok _
  · exact ⟨_, _, rfl, rfl⟩
  · exact ⟨.of rfl, fun _ => Iff.rfl, rfl, rfl⟩
  · exact ⟨.of rfl, own_is p, rfl, rfl, rfl, rfl⟩
  · exact ⟨.of rfl, fun _ => Iff.rfl, rfl, .keep rfl (.inr rfl) rfl rfl⟩
  · trivial
  · exact ⟨goes_sleepHave _, rfl, own_is p, rfl, rfl⟩
  · exact ⟨goes_sleepSet _, fun _ => Iff.rfl, rfl, rfl⟩
  · exact ⟨goes_sched _, fun _ => Iff.rfl, rfl,
      .own rfl rfl rfl (fun _ e => by cases e; rfl) rfl⟩
  · exact ⟨.of rfl, own_is p, rfl, rfl, rfl, rfl⟩
  · exact .ret _ rfl
  · trivial

theorem killCode_ok : (killCode s p k).Ok s (some p) k := by
  unfold killCode
  split
  · refine visit_of (fun q => ?_) (.free (.of rfl) rfl)
    exact ⟨.of rfl, rfl, fun q' => eq_comm, rfl, rfl⟩
  · split
    · refine ⟨.of rfl, fun _ => Iff.rfl, rfl, ?_⟩
      by_cases h : (s.proc ‹Fin n›).state = .sleeping
      · exact .wake rfl h (if_pos h) rfl rfl
      · exact .keep (if_neg h) (.inl rfl) rfl rfl
    · exact ⟨.of rfl, fun q' => eq_comm, rfl, rfl, rfl, rfl⟩
  · exact ⟨.of rfl, fun q' => (own_is p q').trans eq_comm |>.symm, rfl, .keep rfl (.inl rfl) rfl rfl⟩
  · exact ⟨.of rfl, fun q' => eq_comm, rfl, rfl, rfl, rfl⟩
  · trivial

theorem forkCode_ok {ok : Bool} : (forkCode s p ok k).Ok s (some p) k := by
  unfold forkCode
  split
  · refine visit_of (fun q => ?_) (.free (.of rfl) rfl)
    exact ⟨.of rfl, rfl, fun q' => eq_comm, rfl, rfl⟩
  · split
    · rename_i h
      exact ⟨.of rfl, fun _ => Iff.rfl, rfl, h, rfl, rfl, rfl, rfl, rfl, rfl⟩
    · exact ⟨.of rfl, fun q' => eq_comm, rfl, rfl, rfl, rfl⟩
  · split
    · exact ⟨.of rfl, fun q' => eq_comm, rfl, rfl, rfl, rfl⟩
    · exact ⟨.of rfl, fun _ => Iff.rfl, rfl, .abort rfl rfl rfl rfl rfl⟩
  · exact .free (.of rfl) rfl
  · exact ⟨.of rfl, fun _ => Iff.rfl, rfl, .keep rfl (.inl rfl) rfl rfl⟩
  · exact .free (.of rfl) rfl
  · exact ⟨.of rfl, rfl, fun q' => eq_comm, rfl, rfl⟩
  · exact ⟨.of rfl, fun _ => Iff.rfl, rfl, .ready rfl rfl rfl rfl rfl⟩
  · trivial

theorem exitCode_ok : (exitCode s p k).Ok s (some p) k := by
  unfold exitCode
  split
  · exact .free (.of rfl) rfl
  · refine visit_of (fun q => ?_) fun _ => .free (.of rfl) rfl
    split
    · exact ⟨.of rfl, fun _ => Iff.rfl, rfl, .keep rfl (.inl rfl) rfl rfl⟩
    · exact .free (.of rfl) rfl
  · exact fun _ => .free (.of rfl) rfl
  · exact ⟨.of rfl, rfl, own_is p, rfl, rfl⟩
  · exact ⟨.of rfl, fun _ => Iff.rfl, rfl, .own rfl rfl rfl (by intro _ h; cases h) rfl⟩
  · exact ⟨goes_exit, fun _ => Iff.rfl, rfl, rfl⟩
  · trivial

theorem waitCode_ok {ok : Bool} : (waitCode s p ok k).Ok s (some p) k := by
  unfold waitCode
  split
  · exact .free (.of rfl) rfl
  · refine visit_of (fun q => ?_) ?_
    · split
      · exact ⟨.of rfl, rfl, fun q' => eq_comm, rfl, rfl⟩
      · exact .free (.of rfl) rfl
    · split
      · exact ⟨.of rfl, rfl, own_is p, rfl, rfl⟩
      · exact .free (.of rfl) rfl
  · split
    · rename_i h
      split
      · exact ⟨.of rfl, fun _ => Iff.rfl, rfl, .reap rfl h rfl rfl rfl⟩
      · exact ⟨.of rfl, fun q' => eq_comm, rfl, rfl, rfl, rfl⟩
    · exact ⟨.of rfl, fun q' => eq_comm, rfl, rfl, rfl, rfl⟩
  · exact ⟨.of rfl, fun q' => eq_comm, rfl, rfl, rfl, rfl⟩
  · split
    · exact ⟨.of rfl, own_is p, rfl, rfl, rfl, rfl⟩
    · exact ⟨.of rfl, own_is p, rfl, rfl, rfl, rfl⟩
  · exact fun _ => .free (goes_sleepCall rfl rfl (.inr (by simp))) rfl
  · exact .free (.of rfl) rfl
  · trivial

theorem runOp_ok (op : Op n) : (runOp s c p op).Ok s (some p) .run := by
  cases op with
  | acquire | release | kill => exact .free (.of rfl) rfl
  | intr | fork | wait => exact atBase_of trivial fun _ => .free (.of rfl) rfl
  | sleep chan i => exact fun _ => .free (goes_sleepCall rfl rfl (.inl rfl)) rfl
  | wakeup chan => exact fun _ => .free (.of rfl) rfl
  | killed => exact ⟨.of rfl, rfl, fun q' => eq_comm, rfl, rfl⟩
  | setkilled => exact ⟨.of rfl, rfl, own_is p, rfl, rfl⟩
  | exit =>
    refine atBase_of trivial fun _ => ?_
    split
    · trivial
    · exact .free (.of rfl) rfl
  | _ => trivial

theorem part_handler (h : k.part = .handler) : k = .handler := by
  cases k <;> first | rfl | cases h

theorem part_run (h : k.part = .run) : k = .run := by
  cases k <;> first | rfl | cases h

theorem threadCode_ok (op : Op n) (ok : Bool) : (threadCode s c op ok k).Ok s (s.cpu c).proc k := by
  unfold threadCode
  generalize (s.cpu c).proc = me
  split
  · exact schedulerCode_ok
  · rw [part_handler (k := k) ‹_›]; exact handlerOp_ok op
  · exact wakeupCode_ok
  · exact switchCode_ok
  · exact killCode_ok
  · exact forkCode_ok
  · exact exitCode_ok
  · exact waitCode_ok
  · rw [part_run (k := k) ‹_›]; exact runOp_ok op
  · trivial

theorem code_ok (op : Op n) (ok : Bool) : (code s c op ok k).Ok s (s.cpu c).proc k := by
  unfold code
  split
  · split <;> trivial
  · exact threadCode_ok _ ok

end
end Xv6.Sched
