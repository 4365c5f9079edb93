import Xv6.Sched.Step

/-!
# `noff`, and the reachable states of the scheduler

`Pc.depth` tells `noff` wherever the code determines it: in the scheduler, in
the system calls, and in a `sleep` that one of them makes. A process in
`Pc.run` may call `sleep` with any locks.

* `schedInv_inductive`: `SchedInv` holds initially and every step keeps it.
-/
namespace Xv6.Sched
open Function (update update_self update_of_ne)
open Proc (PState Chan)

section
variable {m n : Nat}

/-! ## `noff` -/

/-- `noff` after a call with this return. -/
def Ret.depth : Ret → Option Nat
  | .run | .handler => none
  | .reparent _ | .exitLock | .scan => some 1

/-- `noff` in a `sleep` that is not called from `Pc.run`. -/
def SleepCall.depth (k : SleepCall n) (d : Nat) : Option Nat := if k.ret = .run then none else some d

def Pc.depth : Pc n → Option Nat
  | .loop _ | .alloc _ | .forkParent _ | .forkLock _ | .exitCall | .waitCall | .relock _ => some 0
  | .test _ | .toSwtch _ | .back _ | .rel _ | .swtch .. | .resumed .. | .after _ | .forkret | .yieldHave =>
    some 1
  | .sched (.sleep k) | .sleepCall k | .sleepSet k => k.depth 1
  | .sched _ => some 1
  | .sleepHave k => k.depth 2
  | .sleepTidy _ | .allocHave _ | .forkNew _ | .forkSet _ | .forkRelWait _ | .forkRun _ => some 1
  | .wake _ _ r _ => r.depth
  | .wakeHave _ _ r _ | .wakeRel _ _ r _ => r.depth.map (· + 1)
  | .reparent _ | .reparentWake _ | .exitLock | .scan .. | .waitRel | .waitSleep => some 1
  | .exitSet | .exitRel | .scanHave _ | .waitFreed _ | .waitKilled => some 2
  | _ => none

variable {s s' : Sys m n} {c c' : Fin m} {p q : Fin n} {k : Pc n} {me : Option (Fin n)}

theorem depth_ok : DepthOk (Pc.depth : Pc n → Option Nat) :=
  ⟨rfl, fun _ e => (Option.some.inj e).symm, fun _ _ _ e => (Option.some.inj e).symm,
    fun _ _ e => (Option.some.inj e).symm⟩

@[simp] theorem Ret.pc_depth (r : Ret) : (r.pc : Pc n).depth = r.depth := by cases r <;> rfl

def At (u : Cpu n) (k : Pc n) : Prop := ∀ d, k.depth = some d → u.noff = d

variable {D : Pc n → Option Nat} {u : Cpu n} {ok : Bool}

theorem schedulerCode_depth (hk : At (s.cpu c) k) :
    (schedulerCode s k).Depth Pc.depth (s.cpu c) := by
  unfold schedulerCode
  split
  · have h0 := hk 0 rfl
    refine visit_of (fun q d e => ?_) ⟨fun _ => h0, fun d e => ?_⟩
    · cases e; rw [h0]
    · cases e; exact h0
  · have h1 := hk 1 rfl
    split
    · intro d e; cases e; exact h1
    · intro d e; cases e; exact h1
  · exact hk 1 rfl
  · intro d e; cases e; exact hk 1 rfl
  · intro d e; cases e; exact hk 1 rfl
  · trivial

theorem handlerOp_depth (op : Op n) : (handlerOp s c me op).Depth Pc.depth (s.cpu c) := by
  cases op with
  | acquire | release => intro d e; cases e
  | wakeup chan => intro _ d e; cases e
  | yield =>
    cases me with
    | none => trivial
    | some p =>
      show Act.Depth _ _ (if _ then _ else _)
      split
      · refine atBase_of trivial fun h0 d e => ?_
        cases e
        rw [h0]
      · trivial
  | iret => exact atBase_of trivial id
  | _ => trivial

theorem wakeupCode_depth (hk : At (s.cpu c) k) :
    (wakeupCode s me k).Depth Pc.depth (s.cpu c) := by
  unfold wakeupCode
  split
  · refine visit_of (fun q => ?_) fun d e => ?_
    · split
      · exact fun d e => hk d e
      · intro d e
        obtain ⟨d', e', rfl⟩ := Option.map_eq_some_iff.1 e
        rw [hk d' e']
    · rw [Ret.pc_depth] at e
      exact hk d e
  · split
    · exact fun d e => hk d e
    · intro d e
      exact hk (d + 1) (Option.map_eq_some_iff.2 ⟨d, e, rfl⟩)
  · intro d e
    exact hk (d + 1) (Option.map_eq_some_iff.2 ⟨d, e, rfl⟩)
  · trivial

theorem SleepCall.depth_eq {k : SleepCall n} {a b : Nat} (h : k.depth a = some b) :
    a = b ∧ ∀ d, k.depth d = some d := by
  unfold SleepCall.depth at h ⊢
  split at h
  · cases h
  · rename_i hs
    exact ⟨Option.some.inj h, fun d => if_neg hs⟩

theorem schedCheck_depth (f : Caller n) : (schedCheck s c p f).Depth Pc.depth (s.cpu c) := by
  unfold schedCheck
  split
  · trivial
  · split
    · trivial
    · rename_i hn
      split
      · trivial
      · split
        · trivial
        · intro d e
          cases e
          exact not_not.1 hn

theorem switchCode_depth (hk : At (s.cpu c) k) :
    (switchCode s c p k).Depth Pc.depth (s.cpu c) := by
  unfold switchCode
  split
  · intro d e; cases e
  · intro d e; cases e; exact hk 1 rfl
  · exact schedCheck_depth _
  · exact hk 1 rfl
  · intro d e; cases e; exact hk 1 rfl
  · intro d e; cases e
  · intro d e; cases e; exact hk 1 rfl
  · trivial
  · intro d e
    obtain ⟨rfl, h⟩ := SleepCall.depth_eq e
    rw [hk 1 (h 1)]
  · intro d e
    obtain ⟨rfl, h⟩ := SleepCall.depth_eq e
    exact hk 2 (h 2)
  · intro d e
    obtain ⟨rfl, h⟩ := SleepCall.depth_eq e
    exact hk 1 (h 1)
  · intro d e; cases e; exact hk 1 rfl
  · rename_i call
    intro d e
    have h0 := hk 0 rfl
    rw [Ret.pc_depth] at e
    cases hr : call.ret <;> rw [hr] at e <;> cases e <;> rw [h0]
  · trivial

theorem killCode_depth : (killCode s p k).Depth Pc.depth (s.cpu c) := by
  unfold killCode
  split
  · exact visit_of (fun q d e => by cases e) fun d e => by cases e
  · split <;> intro d e <;> cases e
  · intro d e; cases e
  · intro d e; cases e
  · trivial

theorem forkCode_depth (hk : At (s.cpu c) k) :
    (forkCode s p ok k).Depth Pc.depth (s.cpu c) := by
  unfold forkCode
  split
  · refine visit_of (fun q d e => ?_) fun d e => by cases e
    cases e
    rw [hk 0 rfl]
  · have h1 := hk 1 rfl
    split <;> intro d e <;> cases e <;> exact h1
  · have h1 := hk 1 rfl
    split <;> intro d e <;> cases e
    exact h1
  · intro d e; cases e; rw [hk 0 rfl]
  · intro d e; cases e; exact hk 1 rfl
  · intro d e; cases e; exact hk 1 rfl
  · intro d e; cases e; rw [hk 0 rfl]
  · intro d e; cases e
  · trivial

theorem exitCode_depth (hk : At (s.cpu c) k) : (exitCode s p k).Depth Pc.depth (s.cpu c) := by
  unfold exitCode
  split
  · intro d e; cases e; rw [hk 0 rfl]
  · have h1 := hk 1 rfl
    refine visit_of (fun q => ?_) fun _ d e => by cases e; exact h1
    split <;> intro d e <;> cases e <;> exact h1
  · intro _ d e; cases e; exact hk 1 rfl
  · intro d e; cases e; rw [hk 1 rfl]
  · intro d e; cases e; exact hk 2 rfl
  · intro d e; cases e; exact hk 2 rfl
  · trivial

theorem waitCode_depth (hk : At (s.cpu c) k) :
    (waitCode s p ok k).Depth Pc.depth (s.cpu c) := by
  unfold waitCode
  split
  · intro d e; cases e; rw [hk 0 rfl]
  · have h1 := hk 1 rfl
    refine visit_of (fun q => ?_) ?_
    · split <;> intro d e <;> cases e
      · rw [h1]
      · exact h1
    · split <;> intro d e <;> cases e
      · rw [h1]
      · exact h1
  · have h2 := hk 2 rfl
    split
    · split <;> intro d e <;> cases e <;> exact h2
    · intro d e; cases e; exact h2
  · intro d e; cases e; exact hk 2 rfl
  · have h2 := hk 2 rfl
    split <;> intro d e <;> cases e <;> exact h2
  · intro _ d e
    obtain ⟨rfl, _⟩ := SleepCall.depth_eq e
    exact hk 1 rfl
  · intro d e; cases e
  · trivial

theorem runOp_depth (op : Op n) : (runOp s c p op).Depth Pc.depth (s.cpu c) := by
  cases op with
  | acquire | release | kill | killed | setkilled => intro d e; cases e
  | intr b => exact atBase_of trivial fun h0 => ⟨fun _ => h0, fun d e => by cases e⟩
  | sleep | wakeup => intro _ d e; cases e
  | fork | wait => exact atBase_of trivial fun h0 d e => by cases e; exact h0
  | exit =>
    refine atBase_of trivial fun h0 => ?_
    split
    · trivial
    · intro d e; cases e; exact h0
  | _ => trivial

theorem threadCode_depth (hk : At (s.cpu c) k) (op : Op n) (ok : Bool) :
    (threadCode s c op ok k).Depth Pc.depth (s.cpu c) := by
  unfold threadCode
  split
  · exact schedulerCode_depth hk
  · exact handlerOp_depth op
  · exact wakeupCode_depth hk
  · exact switchCode_depth hk
  · exact killCode_depth
  · exact forkCode_depth hk
  · exact exitCode_depth hk
  · exact waitCode_depth hk
  · exact runOp_depth op
  · trivial

theorem code_depth (hk : At (s.cpu c) k) (op : Op n) (ok : Bool) :
    (code s c op ok k).Depth Pc.depth (s.cpu c) := by
  unfold code
  split
  · split
    · assumption
    · trivial
  · exact threadCode_depth hk _ ok

/-! ## Reachable states -/

theorem schedInv_step {l : Lbl m n} (h : SchedInv Pc.depth s) (hs : step s l = some s') :
    SchedInv Pc.depth s' := by
  unfold step at hs
  split at hs
  · exact exec_schedInv depth_ok h (code_ok l.op l.ok) (code_depth (h.depth.now l.cpu) l.op l.ok) hs
  · cases hs

theorem Init.schedInv (h : Init s) : SchedInv Pc.depth s := by
  have ht : ∀ c, tid s c = .sched c := fun c => tid_off (h.cur c)
  have howns : ∀ p q, ¬Owns s p q := by
    rintro p q ⟨x, hx, hxq⟩
    rw [h.born, h.saved, List.mem_singleton] at hx
    rw [hx] at hxq
    cases hxq
  exact {
    holds := fun c q => by rw [h.lock, ht, h.scheduler]; simp [Pc.held, Held.is]
    uniq := fun c c' p hc => by rw [h.cur] at hc; cases hc
    onCpu := fun c p hc => by rw [h.cur] at hc; cases hc
    offCpu := fun c _ => by rw [h.proc, h.scheduler]; exact ⟨rfl, .inl rfl⟩
    stack := fun p => by rw [h.born, h.saved]; rfl
    sstack := fun c => by rw [h.scheduler, h.saved]; rfl
    on := fun c p hc => by rw [h.cur] at hc; cases hc
    chan := fun c p call hc => by rw [h.cur] at hc; cases hc
    off := fun p _ => by
      rw [h.born]
      unfold Parked
      rw [h.state]
      by_cases e : p = s.initproc
      · rw [if_pos e]; exact .inl rfl
      · rw [if_neg e]; exact .inl rfl
    dispatched := fun c q _ hq => by rw [h.scheduler] at hq; cases hq
    switching := fun c q _ hq => by rw [h.scheduler] at hq; cases hq
    running := fun q hq => by rw [h.state] at hq; split at hq <;> cases hq
    child := fun p q ho => absurd ho (howns p q)
    owner := fun p p' q ho => absurd ho (howns p q)
    locks := ⟨fun c => ⟨∅, fun l => by simp [h.lock], by simp [h.noff]⟩,
      fun c hi => by rw [h.intr] at hi; cases hi⟩
    depth := ⟨fun c d hd => by rw [ht, h.scheduler] at hd; cases hd; exact h.noff c,
      fun t k d hk => by rw [h.saved] at hk; cases hk⟩ }

theorem schedInv_inductive : (lts m n).Inductive (SchedInv Pc.depth) :=
  ⟨fun _ h => h.schedInv, fun _ _ _ h hs => schedInv_step h hs⟩

end
end Xv6.Sched
