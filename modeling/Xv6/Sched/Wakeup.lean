import Xv6.Sched.Cpu

/-!
# No lost wakeup (`sleep` and `wakeup`, `kernel/proc.c`)

A call of `sleep` goes through four phases (`Pc.sleep`): before it releases
`lk`, from there to `swtch`, off the CPU, and woken. Calls have numbers, so a
call that is past a phase never comes back to it.

`wakeup` goes through the table in the order of the slots and takes each
`p->lock`. A sleeper that has released `lk` holds its own lock until it is
`SLEEPING` and off the CPU. So when `wakeup` comes to its slot, it is asleep on
its channel and is woken, or it is already past that (`past_of_lock`).

* `no_lost_wakeup`: if a process has released `lk` in a call of `sleep(chan, lk)`
  when a thread calls `wakeup(chan)`, then once that `wakeup` has returned the
  process is not `SLEEPING` in the same call any more; and `sleep` returns
  with `lk`.
-/
namespace Xv6.Sched
open Function (update update_self update_of_ne)
open Proc (PState Chan)

section
variable {m n : Nat}

/-! ## The phases of a call -/

/-- How far a call of `sleep` is. -/
inductive Phase where
  | early
  | going
  | away
  | woken
  deriving DecidableEq

def Phase.toNat : Phase → Nat
  | .early => 0
  | .going => 1
  | .away => 2
  | .woken => 3

/-- The call of `sleep` that a place is in. -/
def Pc.sleep : Pc n → Option (SleepCall n × Phase)
  | .sleepCall k | .sleepHave k => some (k, .early)
  | .sleepSet k | .sched (.sleep k) | .swtch (.sleep k) _ => some (k, .going)
  | .away (.sleep k) _ => some (k, .away)
  | .resumed (.sleep k) _ | .after (.sleep k) | .sleepTidy k | .relock k => some (k, .woken)
  | _ => none

/-- The call of `wakeup` that a place is in: its channel,
the number of slots it is done with, and its number. -/
def Pc.wakeup : Pc n → Option (Option (Chan n) × Nat × Nat)
  | .wake chan j _ id => some (chan, j, id)
  | .wakeHave chan q _ id => some (chan, q, id)
  | .wakeRel chan q _ id => some (chan, q + 1, id)
  | _ => none

@[simp] theorem Ret.pc_sleep (r : Ret) : (r.pc : Pc n).sleep = none := by cases r <;> rfl
@[simp] theorem Ret.pc_wakeup (r : Ret) : (r.pc : Pc n).wakeup = none := by cases r <;> rfl

/-- Where a thread is, and where it was interrupted. -/
def places (s : Sys m n) (t : Tid m n) : List (Pc n) := s.pc t :: s.saved t

/-- From `k` to `next` no call starts, and a call of `sleep` does not go back. -/
structure Link (k next : Pc n) : Prop where
  sleep : ∀ call f', next.sleep = some (call, f') →
    ∃ f, k.sleep = some (call, f) ∧ f.toNat ≤ f'.toNat ∧ f ≠ .away
  wakeup : ∀ chan j' id, next.wakeup = some (chan, j', id) → ∃ j, k.wakeup = some (chan, j, id)

variable {next y x : Pc n} {f : Phase} {chan : Option (Chan n)} {j j' id id' : Nat}
  {ks : List (Pc n)} {t : Tid m n} {a : Act n} {me : Option (Fin n)}

theorem Link.of (hs : next.sleep = none) (hw : next.wakeup = none) : Link k next where
  sleep call f' e := by rw [hs] at e; cases e
  wakeup chan j' id e := by rw [hw] at e; cases e

theorem Link.within {f' : Phase} (hn : next.sleep = some (call, f'))
    (hk : k.sleep = some (call, f)) (hf : f.toNat ≤ f'.toNat) (ha : f ≠ .away) (hw : next.wakeup = none) :
    Link k next where
  sleep call' f'' e := by
    rw [hn] at e
    cases e
    exact ⟨f, hk, hf, ha⟩
  wakeup chan j' id e := by rw [hw] at e; cases e

theorem Link.waking (hs : next.sleep = none)
    (hn : next.wakeup = some (chan, j', id)) (hk : k.wakeup = some (chan, j, id)) : Link k next where
  sleep call f' e := by rw [hs] at e; cases e
  wakeup chan j' id e := by
    rw [hn] at e
    cases e
    exact ⟨j, hk⟩

def Act.Linked (k : Pc n) : Act n → Prop
  | .call next => ∀ id,
      (∀ call f, (next id).sleep = some (call, f) → f = .early ∧ call.id = id ∧ call.ret.kind = .process) ∧
      ∀ chan j id', (next id).wakeup = some (chan, j, id') → id' = id
  | a => ∀ next, a.next 0 = some next → Link k next

section table
variable {s : Sys m n} {c : Fin m} {p : Fin n} {me : Option (Fin n)} {k : Pc n}

variable {a : Act n} {ok : Bool}

/-- A step to a place outside `sleep` and `wakeup`. -/
theorem linked_of (h : ∀ id, (a.next id).all (fun next => next.sleep.isNone && next.wakeup.isNone) = true) :
    a.Linked k := by
  have hnone : ∀ id next, a.next id = some next → next.sleep = none ∧ next.wakeup = none :=
    fun id next e => by
    simpa [e] using h id
  cases a with
  | call next =>
    refine fun id => ⟨fun call f e => ?_, fun chan j id' e => ?_⟩
    · rw [(hnone id _ rfl).1] at e; cases e
    · rw [(hnone id _ rfl).2] at e; cases e
  | _ => exact fun next e => .of (hnone 0 _ e).1 (hnone 0 _ e).2

theorem schedulerCode_linked : (schedulerCode s k).Linked k := by
  unfold schedulerCode
  split
  · exact visit_of (fun _ => linked_of fun _ => rfl) (linked_of fun _ => rfl)
  · split <;> exact linked_of fun _ => rfl
  all_goals exact linked_of fun _ => rfl

theorem call_wake (chan : Option (Chan n)) (r : Ret) : (Act.call fun id => .wake chan 0 r id).Linked k :=
  fun id => ⟨fun call f e => by simp [Pc.sleep] at e,
    fun chan j id' e => by simp [Pc.wakeup] at e; exact e.2.2.symm⟩

theorem call_sleep {chan : Chan n} {lk : Shared} {r : Ret} (hr : r.kind = .process) :
    (Act.call fun id => .sleepCall ⟨chan, lk, r, id⟩).Linked k := by
  refine fun id => ⟨fun call f e => ?_, fun chan j id' e => by simp [Pc.wakeup] at e⟩
  obtain ⟨rfl, rfl⟩ := e
  exact ⟨rfl, rfl, hr⟩

theorem handlerOp_linked (op : Op n) : (handlerOp s c me op).Linked k := by
  cases op with
  | wakeup chan => exact call_wake _ _
  | yield =>
    unfold handlerOp
    simp only
    split
    · exact linked_of fun _ => rfl
    · split
      · exact atBase_of (linked_of fun _ => rfl) fun _ => linked_of fun _ => rfl
      · exact linked_of fun _ => rfl
  | iret => exact atBase_of (linked_of fun _ => rfl) fun _ => linked_of fun _ => rfl
  | _ => exact linked_of (by simp [handlerOp, Act.next, Pc.sleep, Pc.wakeup])

theorem wakeupCode_linked : (wakeupCode s me k).Linked k := by
  unfold wakeupCode
  split
  · refine visit_of (fun _ => ?_) (linked_of (by simp [Act.next]))
    split <;> rintro _ ⟨⟩ <;> exact .waking rfl rfl rfl
  · split <;> rintro _ ⟨⟩ <;> exact .waking rfl rfl rfl
  · rintro _ ⟨⟩; exact .waking rfl rfl rfl
  · exact linked_of fun _ => rfl

theorem schedCheck_linked (f : Caller n) : (schedCheck s c p f).Linked (.sched f) := by
  unfold schedCheck
  repeat' split
  iterate 4 exact linked_of fun _ => rfl
  · rintro _ ⟨⟩
    cases f with
    | sleep k => exact .within rfl rfl (Nat.le_refl _) (by simp) rfl
    | yield | exit => exact .of rfl rfl

theorem switchCode_linked : (switchCode s c p k).Linked k := by
  unfold switchCode
  split
  · exact linked_of fun _ => rfl
  · exact linked_of fun _ => rfl
  · exact schedCheck_linked _
  · rename_i f intena
    rintro _ ⟨⟩
    cases f with
    | sleep k => exact .within rfl rfl (by decide) (by simp) rfl
    | yield | exit => exact .of rfl rfl
  · rename_i f intena
    rintro _ ⟨⟩
    cases f with
    | sleep k => exact .within rfl rfl (Nat.le_refl _) (by simp) rfl
    | yield | exit => exact .of rfl rfl
  · exact linked_of fun _ => rfl
  · rintro _ ⟨⟩; exact .within rfl rfl (Nat.le_refl _) (by simp) rfl
  · exact linked_of fun _ => rfl
  · rintro _ ⟨⟩; exact .within rfl rfl (Nat.le_refl _) (by simp) rfl
  · rintro _ ⟨⟩; exact .within rfl rfl (by decide) (by simp) rfl
  · rintro _ ⟨⟩; exact .within rfl rfl (Nat.le_refl _) (by simp) rfl
  · rintro _ ⟨⟩; exact .within rfl rfl (Nat.le_refl _) (by simp) rfl
  · exact linked_of (by simp [Act.next])
  · exact linked_of fun _ => rfl

theorem killCode_linked : (killCode s p k).Linked k := by
  unfold killCode
  split
  · exact visit_of (fun _ => linked_of fun _ => rfl) (linked_of fun _ => rfl)
  · split <;> exact linked_of fun _ => rfl
  all_goals exact linked_of fun _ => rfl

theorem forkCode_linked : (forkCode s p ok k).Linked k := by
  unfold forkCode
  split
  · exact visit_of (fun _ => linked_of fun _ => rfl) (linked_of fun _ => rfl)
  · split <;> exact linked_of fun _ => rfl
  · split <;> exact linked_of fun _ => rfl
  all_goals exact linked_of fun _ => rfl

theorem exitCode_linked : (exitCode s p k).Linked k := by
  unfold exitCode
  split
  · exact linked_of fun _ => rfl
  · refine visit_of (fun _ => ?_) (call_wake _ _)
    split <;> exact linked_of fun _ => rfl
  · exact call_wake _ _
  all_goals exact linked_of fun _ => rfl

theorem waitCode_linked : (waitCode s p ok k).Linked k := by
  unfold waitCode
  split
  · exact linked_of fun _ => rfl
  · refine visit_of (fun _ => ?_) ?_ <;> split <;> exact linked_of fun _ => rfl
  · repeat' split
    all_goals exact linked_of fun _ => rfl
  · exact linked_of fun _ => rfl
  · split <;> exact linked_of fun _ => rfl
  · exact call_sleep rfl
  all_goals exact linked_of fun _ => rfl

theorem runOp_linked (op : Op n) : (runOp s c p op).Linked k := by
  cases op with
  | sleep chan i => exact call_sleep rfl
  | wakeup chan => exact call_wake _ _
  | intr | fork | wait => exact atBase_of (linked_of fun _ => rfl) fun _ => linked_of fun _ => rfl
  | exit =>
    refine atBase_of (linked_of fun _ => rfl) fun _ => ?_
    split <;> exact linked_of fun _ => rfl
  | _ => exact linked_of (by simp [runOp, Act.next, Pc.sleep, Pc.wakeup])

theorem code_linked (op : Op n) (ok : Bool) : (code s c op ok k).Linked k := by
  have hthread : (threadCode s c op ok k).Linked k := by
    unfold threadCode
    split
    · exact schedulerCode_linked
    · exact handlerOp_linked op
    · exact wakeupCode_linked
    · exact switchCode_linked
    · exact killCode_linked
    · exact forkCode_linked
    · exact exitCode_linked
    · exact waitCode_linked
    · exact runOp_linked op
    · exact linked_of fun _ => rfl
  unfold code
  split
  · split <;> exact linked_of fun _ => rfl
  · exact hthread

end table

variable {s s' : Sys m n} {c : Fin m} {p : Fin n} {k : Pc n} {l : Lbl m n} {call : SleepCall n}

/-! ## The places of a thread after a step -/

/-- Every place of a thread was one before, or it is where the action leads. -/
inductive From (s s' : Sys m n) (c : Fin m) (a : Act n) (t : Tid m n) (y : Pc n) : Prop where
  | same (mem : y ∈ places s t)
  | here (tid : t = tid s c) (next : a.next s.calls = some y) (pc : s'.pc t = y)
  | resume (x : Pc n) (mem : x ∈ places s t) (eq : y = x.resume)
  | fresh (eq : y = .born ∨ y = .handler)

/-- A thread that goes to `next` is there, where it was, or at a place that it had interrupted. -/
theorem Went.places (w : Went s s' c next ks) (hy : y ∈ places s' t) :
    (t = tid s c ∧ ((y = next ∧ s'.pc t = y) ∨ y ∈ ks)) ∨ y ∈ places s t := by
  rw [Sched.places, w.pc, w.saved] at hy
  by_cases e : t = tid s c
  · subst e
    rw [update_self, update_self, List.mem_cons] at hy
    exact .inl ⟨rfl, hy.imp_left fun e => ⟨e, by rw [w.pc, update_self, e]⟩⟩
  · exact .inr (by simpa [e, Sched.places] using hy)

theorem exec_places (h : SchedInv Pc.depth s)
    (hok : a.Ok s (s.cpu c).proc (s.pc (tid s c))) (he : exec s c a = some s') (hy : y ∈ places s' t) :
    From s s' c a t y := by
  cases exec_does he with
  | panics u eq _ => subst eq; exact .same hy
  | goes leads _ went =>
    rcases went.places hy with ⟨rfl, ⟨rfl, hpc⟩ | hm⟩ | hm
    · exact .here rfl leads hpc
    · exact .same (List.mem_cons_of_mem _ hm)
    · exact .same hm
  | @create q d next _ _ pc saved =>
    rw [places, pc, saved] at hy
    by_cases e1 : t = tid s c
    · rcases List.mem_cons.1 hy with e | hm
      · exact .here e1 (by simp [Act.next, e, e1]) (by rw [pc, e])
      · refine .same (List.mem_cons_of_mem _ ?_)
        by_cases e2 : t = .proc q
        · simp [e2] at hm
        · simpa [e2] using hm
    by_cases e2 : t = .proc q
    · rw [update_of_ne e1] at hy
      exact .fresh (.inl (by simpa [e2] using hy))
    · exact .same (by simpa [e1, e2, places] using hy)
  | @swtchIn q next eq =>
    have hc := h.of_scheduler (by rw [hok.1]; rfl)
    subst eq
    rcases List.mem_cons.1 hy with e | hm
    · by_cases e1 : t = .proc q
      · exact .resume _ List.mem_cons_self (by simpa [e1] using e)
      by_cases e2 : t = .sched c
      · exact .here (e2.trans (tid_off hc).symm) (by simp [Act.next, e, e2]) e.symm
      · exact .same (by simp [places, e, e1, e2])
    · exact .same (List.mem_cons_of_mem _ hm)
  | @swtchOut q next hc eq =>
    subst eq
    rcases List.mem_cons.1 hy with e | hm
    · by_cases e1 : t = .sched c
      · exact .resume _ List.mem_cons_self (by simpa [e1] using e)
      by_cases e2 : t = .proc q
      · exact .here (e2.trans (tid_on hc).symm) (by simp [Act.next, e, e2]) e.symm
      · exact .same (by simp [places, e, e1, e2])
    · exact .same (List.mem_cons_of_mem _ hm)
  | irq went =>
    rcases went.places hy with ⟨rfl, ⟨e, _⟩ | hm⟩ | hm
    · exact .fresh (.inr e)
    · exact .same hm
    · exact .same hm
  | iret old _ went =>
    rcases went.places hy with ⟨rfl, ⟨rfl, _⟩ | hm⟩ | hm
    · exact .same (by simp [places, old])
    · exact .same (by simp [places, old, hm])
    · exact .same hm

theorem calls_mono (he : exec s c a = some s') :
    s.calls ≤ s'.calls ∧ ∀ next, a = .call next → s'.calls = s.calls + 1 := by
  cases a with
  | acquire l next => rcases acquire_cases he with ⟨_, rfl⟩ | ⟨_, rfl⟩ <;> exact ⟨Nat.le_refl _, by simp⟩
  | release l next =>
    cases he
    unfold release
    split <;> exact ⟨Nat.le_refl _, by simp⟩
  | swtchOut next =>
    cases hc : (s.cpu c).cur with
    | none => simp only [exec, hc] at he; cases he
    | some q =>
      simp only [exec, hc, Option.some.injEq] at he
      subst he
      exact ⟨Nat.le_refl _, by simp⟩
  | call next => cases he; exact ⟨Nat.le_succ _, fun _ _ => rfl⟩
  | iret =>
    unfold exec at he
    simp only at he
    split at he
    · cases he
    · cases he; exact ⟨Nat.le_refl _, by simp⟩
  | stuck => cases he
  | _ => cases he; exact ⟨Nat.le_refl _, by simp⟩

theorem Pc.resume_sleep (h : x.resume.sleep = some (call, f)) :
    ∃ f', x.sleep = some (call, f') ∧ f'.toNat ≤ f.toNat := by
  cases x with
  | away g intena =>
    cases g with
    | sleep k =>
      obtain ⟨rfl, rfl⟩ := h
      exact ⟨.away, rfl, by decide⟩
    | yield | exit => cases h
  | _ => exact ⟨f, h, Nat.le_refl _⟩

theorem Pc.resume_wakeup (x : Pc n) : x.resume.wakeup = x.wakeup := by cases x <;> rfl

theorem Act.Linked.sleep (h : a.Linked k) (hn : a.next id = some y)
    (hy : y.sleep = some (call, f)) :
    (∃ f', k.sleep = some (call, f') ∧ f'.toNat ≤ f.toNat ∧ f' ≠ .away) ∨
      call.id = id ∧ call.ret.kind = .process ∧ ∃ next, a = .call next := by
  cases a with
  | call next =>
    cases hn
    obtain ⟨_, hid, hr⟩ := (h id).1 call f hy
    exact .inr ⟨hid, hr, next, rfl⟩
  | _ => exact .inl ((h y hn).sleep call f hy)

theorem Act.Linked.wakeup (h : a.Linked k)
    (hn : a.next id = some y) (hy : y.wakeup = some (chan, j, id')) :
    (∃ j', k.wakeup = some (chan, j', id')) ∨ id' = id ∧ ∃ next, a = .call next := by
  cases a with
  | call next =>
    cases hn
    exact .inr ⟨(h id).2 chan j id' hy, next, rfl⟩
  | _ => exact .inl ((h y hn).wakeup chan j id' hy)

/-- The action of a step. -/
abbrev act (s : Sys m n) (l : Lbl m n) : Act n := code s l.cpu l.op l.ok (s.pc (tid s l.cpu))

theorem step_places (h : SchedInv Pc.depth s) (hs : step s l = some s')
    (hy : y ∈ places s' t) : From s s' l.cpu (act s l) t y :=
  exec_places h (code_ok l.op l.ok) (step_exec hs) hy

/-! ## Numbers of calls -/

/-- The number of a call is below `calls`, and `sleep` is not called in a handler. -/
structure NumberInv (s : Sys m n) : Prop where
  sleep : ∀ t, ∀ x ∈ places s t, ∀ call f, x.sleep = some (call, f) → call.id < s.calls ∧
    call.ret.kind = .process
  wakeup : ∀ t, ∀ x ∈ places s t, ∀ chan j id, x.wakeup = some (chan, j, id) → id < s.calls

theorem numberInv_step (h : SchedInv Pc.depth s) (hn : NumberInv s)
    (hs : step s l = some s') : NumberInv s' := by
  obtain ⟨hle, hcall⟩ := calls_mono (step_exec hs)
  have hlink : (act s l).Linked (s.pc (tid s l.cpu)) := code_linked l.op l.ok
  refine ⟨fun t y hy call f e => ?_, fun t y hy chan j id e => ?_⟩
  · have hold : ∀ x ∈ places s t, ∀ f, x.sleep = some (call, f) → call.id < s'.calls ∧
        call.ret.kind = .process :=
      fun x hx f e => (hn.sleep t x hx call f e).imp_left fun hlt => Nat.lt_of_lt_of_le hlt hle
    rcases step_places h hs hy with hm | ⟨rfl, hnext, _⟩ | ⟨x, hx, rfl⟩ | rfl | rfl
    · exact hold y hm f e
    · rcases hlink.sleep hnext e with ⟨f', e', _⟩ | ⟨hid, hr, next, ha⟩
      · exact hold _ List.mem_cons_self f' e'
      · rw [hcall next ha, hid]
        exact ⟨Nat.lt_succ_self _, hr⟩
    · obtain ⟨f', e', _⟩ := Pc.resume_sleep e
      exact hold x hx f' e'
    · cases e
    · cases e
  · have hold : ∀ x ∈ places s t, ∀ j, x.wakeup = some (chan, j, id) → id < s'.calls :=
      fun x hx j e => Nat.lt_of_lt_of_le (hn.wakeup t x hx chan j id e) hle
    rcases step_places h hs hy with hm | ⟨rfl, hnext, _⟩ | ⟨x, hx, rfl⟩ | rfl | rfl
    · exact hold y hm j e
    · rcases hlink.wakeup hnext e with ⟨j', e'⟩ | ⟨hid, next, ha⟩
      · exact hold _ List.mem_cons_self j' e'
      · rw [hcall next ha, hid]
        exact Nat.lt_succ_self _
    · rw [Pc.resume_wakeup] at e
      exact hold x hx j e
    · cases e
    · cases e

theorem Init.numberInv (h : Init s) : NumberInv s := by
  have hpl : ∀ t, ∀ x ∈ places s t, x = .loop n ∨ x = .born := by
    intro t x hx
    rw [places, h.saved, List.mem_singleton] at hx
    cases t with
    | sched c => exact .inl (hx.trans (h.scheduler c))
    | proc p => exact .inr (hx.trans (h.born p))
  refine ⟨fun t x hx call f e => ?_, fun t x hx chan j id e => ?_⟩
  · rcases hpl t x hx with rfl | rfl <;> cases e
  · rcases hpl t x hx with rfl | rfl <;> cases e

theorem numberInv_inductive : (lts m n).Inductive fun s => SchedInv Pc.depth s ∧ NumberInv s :=
  ⟨fun _ h => ⟨h.schedInv, h.numberInv⟩, fun _ _ _ h hs => ⟨schedInv_step h.1 hs, numberInv_step h.1 h.2 hs⟩⟩

/-! ## A call of `sleep` goes forward -/

/-- The call has a number, and if `p` is in it, then at least in phase `b`. -/
structure AtLeast (b : Nat) (s : Sys m n) (p : Fin n) (call : SleepCall n) : Prop where
  calls : call.id < s.calls
  phase : ∀ x ∈ places s (.proc p), ∀ f, x.sleep = some (call, f) → b ≤ f.toNat

theorem AtLeast.step {b : Nat} (h : SchedInv Pc.depth s) (ha : AtLeast b s p call) (hs : step s l = some s') :
    AtLeast b s' p call := by
  refine ⟨Nat.lt_of_lt_of_le ha.calls (calls_mono (step_exec hs)).1, fun y hy f e => ?_⟩
  rcases step_places h hs hy with hm | ⟨ht, hnext, _⟩ | ⟨x, hx, rfl⟩ | rfl | rfl
  · exact ha.phase y hm f e
  · rcases (code_linked l.op l.ok : (act s l).Linked _).sleep hnext e with ⟨f', e', hf, _⟩ | ⟨hid, _⟩
    · exact Nat.le_trans (ha.phase _ (by rw [ht]; exact List.mem_cons_self) f' e') hf
    · exact absurd ha.calls (by rw [hid]; exact Nat.lt_irrefl _)
  · obtain ⟨f', e', hf⟩ := Pc.resume_sleep e
    exact Nat.le_trans (ha.phase x hx f' e') hf
  · cases e
  · cases e

theorem Stack.saved {b : Kind} (h : Stack b me k ks)
    (hx : x ∈ ks) : x.plain = true ∧ ∀ q, ¬x.held.is me q := by
  induction ks generalizing k with
  | nil => cases hx
  | cons k' ks ih =>
    obtain ⟨_, hp, hh, hst⟩ := h
    rcases List.mem_cons.1 hx with rfl | hx
    · exact ⟨hp, hh⟩
    · exact ih hst hx

/-- Only one place of a process is not in a handler. -/
theorem Stack.unique (h : Stack .process me k ks)
    (hx : x ∈ k :: ks) (hy : y ∈ k :: ks) (kx : x.kind = .process) (ky : y.kind = .process) : x = y := by
  induction ks generalizing k with
  | nil => exact (List.mem_singleton.1 hx).trans (List.mem_singleton.1 hy).symm
  | cons k' ks ih =>
    obtain ⟨hk, _, _, hst⟩ := h
    have htail : ∀ z ∈ k :: k' :: ks, z.kind = .process → z ∈ k' :: ks := fun z hz kz => by
      rcases List.mem_cons.1 hz with rfl | hz
      · rw [hk] at kz; cases kz
      · exact hz
    exact ih hst (htail x hx kx) (htail y hy ky)

theorem Pc.part_of_sleep (h : x.sleep = some (call, f)) : x.part = .switch := by
  unfold Pc.sleep at h
  split at h <;> cases h <;> rfl

theorem Pc.kind_of_sleep (h : x.sleep = some (call, f)) : x.kind = call.ret.kind := by
  unfold Pc.sleep at h
  split at h <;> cases h <;> rfl

theorem SchedInv.parked_not_plain (h : SchedInv Pc.depth s) (hoff : ∀ c, (s.cpu c).cur ≠ some p) :
    (s.pc (.proc p)).plain = false := by
  have hp := h.off p hoff
  unfold Parked at hp
  split at hp
  · rcases hp with e | ⟨_, e⟩ <;> rw [e] <;> rfl
  · rw [hp]; rfl
  · rcases hp with e | ⟨_, _, e, _⟩ <;> rw [e] <;> rfl
  · rcases hp with e | ⟨_, _, e, _⟩ <;> rw [e] <;> rfl
  · obtain ⟨_, _, e, _⟩ := hp; rw [e]; rfl
  · obtain ⟨_, e⟩ := hp; rw [e]; rfl

/-- A place off the CPU is not one of a process that is on a CPU. -/
theorem SchedInv.away_off (h : SchedInv Pc.depth s) (hx : x ∈ places s (.proc p)) (hp : x.plain = false) :
    x = s.pc (.proc p) ∧ ∀ c, (s.cpu c).cur ≠ some p := by
  rcases List.mem_cons.1 hx with e | hx
  · refine ⟨e, fun c hc => ?_⟩
    rw [e, (h.onCpu c p hc).2.2] at hp
    cases hp
  · rw [((h.stack p).saved hx).1] at hp
    cases hp

theorem Pc.of_away (h : x.sleep = some (call, .away)) : ∃ intena, x = .away (.sleep call) intena := by
  unfold Pc.sleep at h
  split at h <;> cases h
  exact ⟨_, rfl⟩

theorem Pc.of_going (h : x.sleep = some (call, .going)) : x.held = .own ∧ x.plain = true := by
  unfold Pc.sleep at h
  split at h <;> cases h <;> exact ⟨rfl, rfl⟩

section
variable (h : SchedInv Pc.depth s)
include h

/-- If the thread of `p` is not between the release of `lk` and `swtch`, then no place of it is. -/
theorem AtLeast.gone (ha : AtLeast 1 s p call)
    (hpc : (s.pc (.proc p)).sleep ≠ some (call, .going)) : AtLeast 2 s p call := by
  refine ⟨ha.calls, fun x hx f e => ?_⟩
  have hb := ha.phase x hx f e
  cases f with
  | early => cases hb
  | going =>
    rcases List.mem_cons.1 hx with rfl | hx
    · exact absurd e hpc
    · refine absurd ?_ (((h.stack p).saved hx).2 p)
      rw [(Pc.of_going e).1]
      rfl
  | away | woken => decide

/-- On a CPU there is nothing between `swtch` and waking up. -/
theorem AtLeast.on (ha : AtLeast 2 s p call) (hc : (s.cpu c).cur = some p) :
    AtLeast 3 s p call := by
  refine ⟨ha.calls, fun x hx f e => ?_⟩
  have hb := ha.phase x hx f e
  cases f with
  | early => cases hb
  | going => exact absurd hb (by decide)
  | away =>
    obtain ⟨_, rfl⟩ := Pc.of_away e
    exact absurd hc ((h.away_off hx rfl).2 c)
  | woken => decide

/-- `p` is past the sleep of this call: it is not `SLEEPING`, or it is woken. -/
structure Past (s : Sys m n) (p : Fin n) (call : SleepCall n) : Prop where
  gone : AtLeast 2 s p call
  woken : (s.proc p).state = .sleeping → AtLeast 3 s p call

/-- Only the process itself makes it `SLEEPING`. -/
theorem sleeping_step (hs : step s l = some s') (hp : (s'.proc p).state = .sleeping) :
    (s.proc p).state = .sleeping ∨ (s'.cpu l.cpu).cur = some p := by
  rcases exec_proc (code_ok l.op l.ok) (step_exec hs) p with e | ⟨hk, _, hcur, hset⟩ | ⟨_, hst⟩ | ⟨_, hst⟩
  · exact .inl (by rw [← e, hp])
  · cases hset with
    | own self => exact .inr (hcur.trans (h.me hk self))
    | keep state => exact .inl (state.symm.trans hp)
    | wake held was state => exact .inl was
    | reap _ _ state | abort _ _ state | ready _ _ state | made _ _ _ state => rw [hp] at state; cases state
  · rw [hp] at hst; cases hst
  · rw [hp] at hst; cases hst

theorem Past.step (hp : Past s p call) (hs : Sched.step s l = some s') : Past s' p call := by
  have hgone := hp.gone.step h hs
  refine ⟨hgone, fun hsleep => ?_⟩
  rcases sleeping_step h hs hsleep with hs' | hc
  · exact (hp.woken hs').step h hs
  · exact hgone.on (schedInv_step h hs) hc

end

/-! ## `wakeup` goes through the table -/

/-- How `wakeup` gets past the slot `p`: it is its own, or
the lock is held and `p` is woken, or not to be woken. -/
inductive Passes (s : Sys m n) (me : Option (Fin n)) (k : Pc n) (chan : Option (Chan n))
    (p : Fin n) (a : Act n) : Prop where
  | self (me : me = some p)
  | woken (held : k.held = .of p) {d : PCB n} {next : Pc n} (act : a = .set p d next)
    (state : d.state = .runnable)
  | other (held : k.held = .of p) (no : ¬((s.proc p).state = .sleeping ∧ (s.proc p).chan = chan))

theorem wakeupCode_passes {chan' : Option (Chan n)} {id0 : Nat}
    (hk : k.wakeup = some (chan, j, id)) (hn : (wakeupCode s me k).next id0 = some y)
    (hy : y.wakeup = some (chan', j', id')) (hj : ¬p < j) (hj' : p < j') :
    Passes s me k chan p (wakeupCode s me k) := by
  cases k with
  | wake ch i r id1 =>
    simp only [Pc.wakeup, Option.some.injEq, Prod.mk.injEq] at hk
    obtain ⟨rfl, rfl, rfl⟩ := hk
    unfold wakeupCode visit at hn
    simp only at hn
    split at hn
    · rename_i hlt
      split at hn
      · rename_i hme
        cases hn
        cases hy
        have : p = ⟨i, hlt⟩ := Fin.ext (show (p : Nat) = i by omega)
        exact .self (this ▸ hme.symm)
      · cases hn
        cases hy
        exact absurd hj' hj
    · cases hn
      simp at hy
  | wakeHave ch q r id1 =>
    obtain ⟨rfl, rfl, rfl⟩ := hk
    unfold wakeupCode at hn ⊢
    simp only at hn ⊢
    split at hn
    · cases hn
      cases hy
      have : p = q := Fin.ext (by omega)
      subst this
      rw [if_pos ‹_›]
      exact .woken rfl rfl rfl
    · cases hn
      cases hy
      have : p = q := Fin.ext (by omega)
      subst this
      exact .other rfl ‹_›
  | wakeRel ch q r id1 =>
    obtain ⟨rfl, rfl, rfl⟩ := hk
    cases hn
    cases hy
    exact absurd hj' hj
  | _ => cases hk

section
variable (h : SchedInv Pc.depth s) (ha : AtLeast 1 s p call)
include h ha

/-- With `p->lock` held elsewhere, a sleeper that has released `lk` has gone through `swtch`. -/
theorem AtLeast.of_lock (hk : (s.pc (tid s c)).held = .of p) :
    AtLeast 2 s p call := by
  refine ha.gone h fun e => ?_
  obtain ⟨hheld, hplain⟩ := Pc.of_going e
  by_cases hoff : ∀ c, (s.cpu c).cur ≠ some p
  · rw [h.parked_not_plain hoff] at hplain
    cases hplain
  · simp only [not_forall, not_not] at hoff
    obtain ⟨c', hc'⟩ := hoff
    have h1 : (s.pc (tid s c')).held.is (s.cpu c').proc p := by
      rw [tid_on hc', hheld]
      exact (h.onCpu c' p hc').1
    have h2 : (s.pc (tid s c)).held.is (s.cpu c).proc p := by rw [hk]; rfl
    have := h.lock_uniq h1 h2
    subst this
    rw [tid_on hc', hheld] at hk
    cases hk

theorem past_of_lock (hk : (s.pc (tid s c)).held = .of p)
    (hno : ¬((s.proc p).state = .sleeping ∧ (s.proc p).chan = some call.chan)) : Past s p call := by
  have hgone := ha.of_lock h hk
  refine ⟨hgone, fun hsleep => ⟨ha.calls, fun x hx f e => ?_⟩⟩
  have hb := hgone.phase x hx f e
  cases f with
  | early => cases hb
  | going => exact absurd hb (by decide)
  | away =>
    obtain ⟨_, rfl⟩ := Pc.of_away e
    obtain ⟨hpc, hoff⟩ := h.away_off hx rfl
    have hpark := h.off p hoff
    unfold Parked at hpark
    rw [hsleep] at hpark
    obtain ⟨call', _, hpc', hchan⟩ := hpark
    rw [← hpc] at hpc'
    cases hpc'
    exact absurd ⟨hsleep, hchan⟩ hno
  | woken => decide

theorem past_of_self (hc : (s.cpu c).cur = some p)
    (hk : (s.pc (tid s c)).sleep = none) (hrun : (s.pc (tid s c)).state = .running) : Past s p call := by
  rw [tid_on hc] at hk hrun
  refine ⟨ha.gone h (by rw [hk]; simp), fun hsleep => ?_⟩
  rw [h.on c p hc, hrun] at hsleep
  cases hsleep

end

/-- The call `id` of `wakeup` is one for the channel of this sleeper, and has no effect on it in vain. -/
structure Wakes (s : Sys m n) (p : Fin n) (call : SleepCall n) (id : Nat) : Prop where
  calls : id < s.calls
  released : AtLeast 1 s p call
  done : ∀ t, ∀ x ∈ places s t, ∀ chan j, x.wakeup = some (chan, j, id) →
    chan = some call.chan ∧ (p < j → Past s p call)

theorem Pc.of_wakeup {w : Option (Chan n) × Nat × Nat} (h : x.wakeup = some w) :
    x.part = .wakeup ∧ x.sleep = none ∧ x.state = .running ∧ x.plain = true := by
  cases x <;> first | exact ⟨rfl, rfl, rfl, rfl⟩ | cases h

theorem Wakes.step {id : Nat} (h : SchedInv Pc.depth s) (hw : Wakes s p call id)
    (hs : Sched.step s l = some s') : Wakes s' p call id := by
  have hpast := fun hp : Past s p call => hp.step h hs
  have hrel := hw.released.step h hs
  refine ⟨Nat.lt_of_lt_of_le hw.calls (calls_mono (step_exec hs)).1, hrel, fun t y hy chan j' e => ?_⟩
  rcases step_places h hs hy with hm | ⟨rfl, hnext, _⟩ | ⟨x, hx, rfl⟩ | rfl | rfl
  · exact (hw.done t y hm chan j' e).imp_right fun hd hlt => hpast (hd hlt)
  · rcases (code_linked l.op l.ok : (act s l).Linked _).wakeup hnext e with ⟨j, ek⟩ | ⟨hid, _⟩
    · obtain ⟨hchan, hd⟩ := hw.done _ _ List.mem_cons_self chan j ek
      refine ⟨hchan, fun hlt => ?_⟩
      by_cases hj : p < j
      · exact hpast (hd hj)
      · -- this step gets past the slot of `p`
        obtain ⟨hpart, hsl, hrun, hplain⟩ := Pc.of_wakeup ek
        have hact : act s l = wakeupCode s (s.cpu l.cpu).proc (s.pc (tid s l.cpu)) := by
          unfold act code at hnext ⊢
          split
          · rename_i hop
            rw [hop] at hnext
            simp only at hnext
            split at hnext <;> cases hnext
          · simp only [threadCode, hpart]
        rw [hact] at hnext
        rcases wakeupCode_passes ek hnext e hj hlt with hme | ⟨hheld, ha, hst⟩ | ⟨hheld, hno⟩
        · exact hpast (past_of_self h hw.released (h.me hplain hme) hsl hrun)
        · refine ⟨(hw.released.of_lock h hheld).step h hs, fun hsleep => ?_⟩
          have he := step_exec hs
          rw [show code s l.cpu l.op l.ok (s.pc (tid s l.cpu)) = _ from hact.trans ha] at he
          cases he
          have hsleep : (update s.proc p _ p).state = .sleeping := hsleep
          rw [update_self, hst] at hsleep
          cases hsleep
        · exact hpast (past_of_lock h hw.released hheld (hchan ▸ hno))
    · exact absurd hw.calls (by rw [hid]; exact Nat.lt_irrefl _)
  · rw [Pc.resume_wakeup] at e
    exact (hw.done t x hx chan j' e).imp_right fun hd hlt => hpast (hd hlt)
  · cases e
  · cases e

/-! ## The results -/

/-- `p` is in this call of `sleep`. -/
def InSleep (s : Sys m n) (p : Fin n) (call : SleepCall n) : Prop :=
  ∃ x ∈ places s (.proc p), ∃ f, x.sleep = some (call, f)

/-- `p` has released `lk` in this call. -/
def Released (s : Sys m n) (p : Fin n) (call : SleepCall n) : Prop :=
  ∃ x ∈ places s (.proc p), ∃ f, x.sleep = some (call, f) ∧ f ≠ .early

section
variable (h : SchedInv Pc.depth s) (hn : NumberInv s)
include h hn

theorem Released.atLeast (hr : Released s p call) :
    AtLeast 1 s p call := by
  obtain ⟨x, hx, f, e, hf⟩ := hr
  obtain ⟨hid, hkind⟩ := hn.sleep _ x hx call f e
  refine ⟨hid, fun y hy f' e' => ?_⟩
  have := (h.stack p).unique hx hy ((Pc.kind_of_sleep e).trans hkind) ((Pc.kind_of_sleep e').trans hkind)
  subst this
  rw [e] at e'
  cases e'
  cases f with
  | early => exact absurd rfl hf
  | going | away | woken => decide

/-- The step in which a thread calls `wakeup(chan)`; the call gets the number `id`. -/
structure WakeupCall (s : Sys m n) (l : Lbl m n) (s' : Sys m n) (chan : Chan n) (id : Nat) : Prop where
  step : (lts m n).step s l s'
  number : id = s.calls
  pc : ∃ r, s'.pc (tid s l.cpu) = .wake (some chan) 0 r id

/-- The step in which the call `id` returns. -/
structure WakeupReturn (s : Sys m n) (l : Lbl m n) (s' : Sys m n) (id : Nat) : Prop where
  step : (lts m n).step s l s'
  pc : ∃ chan j r, s.pc (tid s l.cpu) = .wake chan j r id ∧ n ≤ j ∧ s'.pc (tid s l.cpu) = r.pc

theorem WakeupCall.wakes
    (hw : WakeupCall s l s' call.chan id) (hr : Released s p call) : Wakes s' p call id := by
  have hs := hw.step
  refine ⟨?_, (hr.atLeast h hn).step h hs, fun t y hy chan j e => ?_⟩
  · obtain ⟨r, hpc⟩ := hw.pc
    exact (numberInv_step h hn hs).wakeup _ _ List.mem_cons_self _ _ _ (by rw [hpc]; rfl)
  · -- before this step no place had the number
    have hold : ∀ x ∈ places s t, ∀ j, x.wakeup ≠ some (chan, j, id) := fun x hx j e =>
      absurd (hn.wakeup t x hx chan j id e) (by rw [hw.number]; exact Nat.lt_irrefl _)
    rcases step_places h hs hy with hm | ⟨rfl, hnext, hpc⟩ | ⟨x, hx, rfl⟩ | rfl | rfl
    · exact absurd e (hold y hm j)
    · obtain ⟨r, hwake⟩ := hw.pc
      rw [← hpc, hwake] at e
      cases e
      exact ⟨rfl, fun hlt => absurd hlt (Nat.not_lt_zero _)⟩
    · rw [Pc.resume_wakeup] at e
      exact absurd e (hold x hx j)
    · cases e
    · cases e

/-- A process that is past the sleep of a call is not `SLEEPING` in it. -/
theorem Past.awake (hp : Past s p call) :
    ¬((s.proc p).state = .sleeping ∧ InSleep s p call) := by
  rintro ⟨hsleep, x, hx, f, e⟩
  have hb := (hp.woken hsleep).phase x hx f e
  have hkind := (hn.sleep _ x hx call f e).2
  -- the place where it sleeps is the only one in a call of `sleep`
  have hpc : ∃ call' f', (s.pc (.proc p)).sleep = some (call', f') ∧ f'.toNat < 3 := by
    by_cases hoff : ∀ c, (s.cpu c).cur ≠ some p
    · have hpark := h.off p hoff
      unfold Parked at hpark
      rw [hsleep] at hpark
      obtain ⟨call', _, hpc, _⟩ := hpark
      exact ⟨call', .away, by rw [hpc]; rfl, by decide⟩
    · simp only [not_forall, not_not] at hoff
      obtain ⟨c, hc⟩ := hoff
      rw [h.on c p hc] at hsleep
      revert hsleep
      cases s.pc (.proc p) with
      | sched f | swtch f => cases f <;> simp [Pc.state, Caller.state, Pc.sleep, Phase.toNat]
      | _ => simp [Pc.state]
  obtain ⟨call', f', e', hf'⟩ := hpc
  have hkind' := (hn.sleep _ _ List.mem_cons_self call' f' e').2
  have := (h.stack p).unique hx List.mem_cons_self ((Pc.kind_of_sleep e).trans hkind)
    ((Pc.kind_of_sleep e').trans hkind')
  subst this
  rw [e] at e'
  cases e'
  omega

end

/-- What is interrupted stays so, or the thread is back there. -/
theorem exec_saved (h : SchedInv Pc.depth s) (hok : a.Ok s (s.cpu c).proc (s.pc (tid s c)))
    (he : exec s c a = some s') (hc : (s.cpu c).cur = some p) (hx : x ∈ s.saved (.proc p)) :
    x ∈ places s' (.proc p) := by
  cases exec_does he with
  | panics _ eq _ | swtchIn eq | swtchOut _ eq => subst eq; exact List.mem_cons_of_mem _ hx
  | goes _ _ went => rw [places, went.saved, Function.update_eq_self]; exact List.mem_cons_of_mem _ hx
  | @create q d next _ _ _ saved =>
    have hne : p ≠ q := fun e => h.off_of_unused hok.2.2.2.1 c (e ▸ hc)
    simp [places, saved, hne, hx]
  | irq went => simp [places, went.saved, tid_on hc, hx]
  | iret old _ went =>
    rw [tid_on hc] at old
    simpa [places, went.pc, went.saved, tid_on hc, old] using hx

/-- The action stays in the call, or takes its lock. -/
def Act.StaysIn (call : SleepCall n) : Act n → Prop
  | .acquire l next => (∃ f, next.sleep = some (call, f)) ∨ l = .shared call.lk
  | .release _ next | .goto next | .set _ _ next | .swtchOut next | .restore _ next =>
    ∃ f, next.sleep = some (call, f)
  | .panic _ | .stuck => True
  | _ => False

theorem schedCheck_staysIn : (schedCheck s c p (.sleep call)).StaysIn call := by
  unfold schedCheck
  repeat' split
  iterate 4 trivial
  exact ⟨_, rfl⟩

theorem switchCode_staysIn (h : k.sleep = some (call, f)) : (switchCode s c p k).StaysIn call := by
  unfold Pc.sleep at h
  split at h
  · cases h; exact .inl ⟨_, rfl⟩
  · cases h; exact ⟨_, rfl⟩
  · cases h; exact ⟨_, rfl⟩
  · cases h; exact schedCheck_staysIn
  · cases h; exact ⟨_, rfl⟩
  · trivial
  · cases h; exact ⟨_, rfl⟩
  · cases h; exact ⟨_, rfl⟩
  · cases h; exact ⟨_, rfl⟩
  · cases h; exact .inr rfl
  · cases h

theorem exec_staysIn (ha : a.StaysIn call) (he : exec s c a = some s') (hc : (s.cpu c).cur = some p)
    (hin : ∃ f, (s.pc (.proc p)).sleep = some (call, f)) :
    (∃ f, (s'.pc (.proc p)).sleep = some (call, f)) ∨ s'.lock (.shared call.lk) = some c := by
  have hgo : ∀ {next : Pc n} {ks : List (Pc n)}, Went s s' c next ks → (∃ f, next.sleep = some (call, f)) →
      ∃ f, (s'.pc (.proc p)).sleep = some (call, f) := fun w hn => by
    rw [(w.here (w.cur.trans hc)).2]
    exact hn
  cases exec_does he with
  | panics u eq _ => subst eq; exact .inl hin
  | goes leads out went =>
    cases a with
    | acquire l next =>
      cases leads
      rcases ha with hnext | rfl
      · exact .inl (hgo went hnext)
      · rcases acquire_cases he with ⟨_, rfl⟩ | ⟨_, rfl⟩
        · exact .inl hin
        · exact .inr (update_self _ _ _)
    | release | goto | set | restore => cases leads; exact .inl (hgo went ha)
    | swtchOut next => exact absurd rfl (out next)
    | panic | stuck => cases leads
    | _ => exact ha.elim
  | swtchOut cur eq =>
    cases cur.symm.trans hc
    subst eq
    exact .inl (by simpa [Act.StaysIn] using ha)
  | _ => exact ha.elim

/-- `sleep` returns with the lock that it was called with. -/
theorem sleep_returns (h : SchedInv Pc.depth s) (hc : (s.cpu l.cpu).cur = some p) (hs : step s l = some s')
    (hin : InSleep s p call) (hout : ¬InSleep s' p call) : s'.lock (.shared call.lk) = some l.cpu := by
  obtain ⟨x, hx, f, e⟩ := hin
  have he := step_exec hs
  rcases List.mem_cons.1 hx with rfl | hx
  · rw [tid_on hc] at he
    unfold code at he
    split at he
    · -- an interrupt: the place is saved
      split at he
      · cases he
        refine absurd ⟨s.pc (.proc p), List.mem_cons_of_mem _ ?_, f, e⟩ hout
        show _ ∈ update s.saved (tid s l.cpu) (s.pc (tid s l.cpu) :: s.saved (tid s l.cpu)) (.proc p)
        rw [tid_on hc, update_self]
        exact List.mem_cons_self
      · cases he
    · simp only [threadCode, Pc.part_of_sleep e, (h.onCpu _ p hc).1] at he
      rcases exec_staysIn (switchCode_staysIn e) he hc ⟨f, e⟩ with ⟨f', e'⟩ | hl
      · exact absurd ⟨_, List.mem_cons_self, f', e'⟩ hout
      · exact hl
  · exact absurd ⟨x, exec_saved h (code_ok l.op l.ok) he hc hx, f, e⟩ hout

/-- `p` has released `lk` in a call of `sleep` when a thread, with or without `lk`, calls `wakeup` for its
channel: from the return of `wakeup` on, `p` is not `SLEEPING` in that call. And a step in which a process
leaves `sleep` gives its CPU the lock `lk`. -/
theorem no_lost_wakeup (m n : Nat) :
    (∀ (s1 s2 s3 s4 s5 : Sys m n) l ls l' ls' p call id, (lts m n).Reachable s1 → Released s1 p call →
      WakeupCall s1 l s2 call.chan id → (lts m n).Run s2 ls s3 → WakeupReturn s3 l' s4 id →
      (lts m n).Run s4 ls' s5 → ¬((s5.proc p).state = .sleeping ∧ InSleep s5 p call)) ∧
    ∀ (s s' : Sys m n) l p call, (lts m n).Reachable s → (s.cpu l.cpu).cur = some p → (lts m n).step s l s' →
      InSleep s p call → ¬InSleep s' p call → s'.lock (.shared call.lk) = some l.cpu := by
  refine ⟨fun s1 s2 s3 s4 s5 l ls l' ls' p call id hr hrel hcall hrun hret hrun' => ?_,
    fun s s' l p call hr hc hs => ?_⟩
  · obtain ⟨h1, hn1⟩ := numberInv_inductive.reachable hr
    have hI2 := numberInv_inductive.step _ _ _ ⟨h1, hn1⟩ hcall.step
    obtain ⟨⟨h3, hn3⟩, hw3⟩ :=
      hrun.keeps (I := fun s => (SchedInv Pc.depth s ∧ NumberInv s) ∧ Wakes s p call id)
      (fun s l s' hI hs => ⟨numberInv_inductive.step _ _ _ hI.1 hs, hI.2.step hI.1.1 hs⟩)
      ⟨hI2, hcall.wakes h1 hn1 hrel⟩
    obtain ⟨chan, j, r, hpc, hj, _⟩ := hret.pc
    have hp3 : Past s3 p call := by
      refine (hw3.done (tid s3 l'.cpu) _ List.mem_cons_self chan j ?_).2 (Nat.lt_of_lt_of_le p.2 hj)
      rw [hpc]
      rfl
    obtain ⟨⟨h5, hn5⟩, hp5⟩ := hrun'.keeps (I := fun s => (SchedInv Pc.depth s ∧ NumberInv s) ∧ Past s p call)
      (fun s l s' hI hs => ⟨numberInv_inductive.step _ _ _ hI.1 hs, hI.2.step hI.1.1 hs⟩)
      ⟨numberInv_inductive.step _ _ _ ⟨h3, hn3⟩ hret.step, hp3.step h3 hret.step⟩
    exact hp5.awake h5 hn5
  · exact sleep_returns (schedInv_inductive.reachable hr) hc hs

/-- `k` steps of CPU `c`; a process that is in none of the functions does `op`. -/
def turn (c : Fin 2) (op : Op 2) (k : Nat) : List (Lbl 2 2) := List.replicate k ⟨c, op, true⟩

/-- `sleep(5, 7)`, the first call of a run. -/
def firstSleep : SleepCall 2 := ⟨.other 5, .other 7, .run, 0⟩

/-- `initproc` forks; its child releases lock 7 in `sleep`, and `initproc` takes it. -/
def asleepSoon : List (Lbl 2 2) :=
  turn 0 .fork 17 ++ turn 1 (.acquire 7) 8 ++ turn 1 (.sleep (.other 5) 7) 3 ++ turn 0 (.acquire 7) 1

theorem no_lost_wakeup_fork : ∃ s1 s2 s3 s4 : Sys 2 2, (lts 2 2).Reachable s1 ∧ Released s1 1 firstSleep ∧
    WakeupCall s1 ⟨0, .wakeup (.other 5), true⟩ s2 (.other 5) 1 ∧
    (lts 2 2).Run s2 (turn 0 .wait 1 ++ turn 1 .wait 5 ++ turn 0 .wait 3) s3 ∧
    WakeupReturn s3 ⟨0, .wait, true⟩ s4 1 ∧ ¬((s4.proc 1).state = .sleeping ∧ InSleep s4 1 firstSleep) := by
  have hrun : ((asleepSoon.foldlM step (boot 2 1)).bind fun s1 =>
      (step s1 ⟨0, .wakeup (.other 5), true⟩).bind fun s2 =>
      ((turn 0 .wait 1 ++ turn 1 .wait 5 ++ turn 0 .wait 3).foldlM step s2).bind fun s3 =>
      (step s3 ⟨0, .wait, true⟩).map fun s4 =>
        (s1.pc (.proc 1), s1.calls, s2.pc (tid s1 0), s3.pc (tid s3 0), s4.pc (tid s3 0))) =
      some (.sleepSet firstSleep, 1, .wake (some (.other 5)) 0 .run 1,
        .wake (some (.other 5)) 2 .run 1, .run) := by
    decide +kernel
  obtain ⟨s1, h1, hrun⟩ := Option.bind_eq_some_iff.1 hrun
  obtain ⟨s2, h2, hrun⟩ := Option.bind_eq_some_iff.1 hrun
  obtain ⟨s3, h3, hrun⟩ := Option.bind_eq_some_iff.1 hrun
  obtain ⟨s4, h4, e⟩ := Option.map_eq_some_iff.1 hrun
  simp only [Prod.mk.injEq] at e
  obtain ⟨e1, e2, e3, e4, e5⟩ := e
  have hr := reachable_of_foldlM h1
  have hrel : Released s1 1 firstSleep := ⟨_, List.mem_cons_self, .going, by rw [e1]; rfl, by simp⟩
  have hcall : WakeupCall s1 ⟨0, .wakeup (.other 5), true⟩ s2 (.other 5) 1 := ⟨h2, e2.symm, .run, e3⟩
  have hrun : (lts 2 2).Run s2 _ s3 := LTS.Run.of_foldlM (fun _ _ _ h => h) h3
  have hret : WakeupReturn s3 ⟨0, .wait, true⟩ s4 1 := ⟨h4, _, _, .run, e4, Nat.le_refl _, e5⟩
  exact ⟨s1, s2, s3, s4, hr, hrel, hcall, hrun, hret,
    (no_lost_wakeup 2 2).1 _ _ _ _ _ _ _ _ _ _ _ _ hr hrel hcall hrun hret (.nil s4)⟩

end
end Xv6.Sched
