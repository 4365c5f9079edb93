import Xv6.Proc.Family

/-!
# One step of the process table

The sections of `Xv6.Proc.Family` and the quiet ones, collected: `inv_step`
is the invariant of `Xv6.Proc.WaitInv` over a step with any label, and
`inv_reachable` over every interleaving.
-/
namespace Xv6.Proc
open Function (update)

section
variable {n : Nat}

/-! ## The quiet sections -/

variable {s s' : Sys n} {y : PState} {x : Option (Chan n)} {c : Pc n} {k : Fin n → Bool} {p : Fin n}

/-- One slot moves between quiet places, and does not fall asleep in
`wait`. -/
theorem quiet_one (h : Inv s) (p : Fin n)
    (hpc : c = s.pc p ∨ (Quiet (s.pc p) = true ∧ Quiet c = true)) (hok : PcOk p y x c)
    (hex : InExit c = true → p ≠ s.initproc) (hsl : y = .sleeping → x = some (.proc p) → Sleeping s p) :
    QuietStep s { s with
      state := update s.state p y, chan := update s.chan p x, pc := update s.pc p c, killed := k } := by
  refine ⟨rfl, rfl, rfl, fun q => ?_, fun q => ?_, ?_, fun r hr => ?_⟩
  · by_cases e : q = p
    · subst e
      simpa using hpc
    · simp [e]
  · by_cases e : q = p
    · subst e
      simpa using hok
    · simpa [e] using h.ok q
  · by_cases e : s.initproc = p
    · simpa [e] using hex
    · simpa [e] using h.init.1
  · by_cases e : r = p
    · subst e
      exact hsl (by simpa using hr.1) (by simpa using hr.2)
    · simpa [Sleeping, e] using hr

/-- A call, or the next pass of `kill`. -/
theorem quiet_goto (h : Inv s) (hq : Quiet (s.pc p) = true) (hc : Quiet c = true)
    (hok : PcOk p (s.state p) (s.chan p) c) (hex : InExit c = true → p ≠ s.initproc) :
    QuietStep s (goto s p c) := by
  simpa [goto] using quiet_one h p (k := s.killed) (.inr ⟨hq, hc⟩) hok hex fun h1 h2 => ⟨h1, h2⟩

/-- `p->state` and `p->chan` change, the thread stays where it is. -/
theorem quiet_state (h : Inv s) (p : Fin n)
    (hok : PcOk p y x (s.pc p)) (hsl : y = .sleeping → x = some (.proc p) → Sleeping s p) :
    QuietStep s { s with state := update s.state p y, chan := update s.chan p x, killed := k } := by
  simpa using quiet_one h p (k := k) (.inl rfl) hok h.init_ne hsl

/-- `forkFail` frees a slot that was free. -/
theorem quiet_freeproc (h : Inv s) {np : Fin n} (hnp : s.state np = .unused) (k : Int32) :
    QuietStep s (freeproc { s with nextpid := k } np) := by
  obtain ⟨hpc, hpar⟩ := h.of_unused hnp
  have hq := quiet_state (y := .unused) (x := none) (k := update s.killed np false) h np
    (by simp [hpc, PcOk]) nofun
  have hsame : ∀ q, (freeproc { s with nextpid := k } np).pc q = s.pc q := by
    intro q
    by_cases e : q = np <;> simp [freeproc, e, hpc]
  refine ⟨rfl, by simp [freeproc, ← hpar], rfl, fun q => .inl (hsame q), fun q => ?_, ?_, hq.sleeping⟩
  · rw [hsame]
    exact hq.ok q
  · rw [hsame]
    exact h.init.1

theorem inExit_resume (c : Pc n) : InExit (resume c) = InExit c := by cases c <;> rfl

theorem quiet_run (h : Inv s) (hp : s.state p = .runnable) :
    QuietStep s { s with
      state := update s.state p .running
      chan := update s.chan p none
      pc := update s.pc p (resume (s.pc p)) } := by
  have hok := h.ok p
  rw [hp] at hok
  refine quiet_one h p ?_ ?_ (inExit_resume (s.pc p) ▸ h.init_ne) nofun
  · cases s.pc p with
    | asleep a => exact .inr ⟨rfl, rfl⟩
    | _ => exact .inl rfl
  · cases hc : s.pc p with
    | unused | embryo | dead => rw [hc] at hok; cases hok
    | reparent | reparentWake | wakeParent | zombify | scan | waitSleep => exact rfl
    | _ => exact .inl rfl

theorem quiet_yield (h : Inv s) (hp : s.state p = .running) (hl : s.waitLock ≠ some p) :
    QuietStep s { s with state := update s.state p .runnable } := by
  have hok := h.ok p
  have hh : ¬Holds (s.pc p) = true := fun hc => hl ((h.lock p).2 hc)
  rw [hp] at hok
  have hq := quiet_state (y := .runnable) (x := s.chan p) (k := s.killed) h p ?_ nofun
  · simpa using hq
  cases hc : s.pc p with
  | unused | embryo | dead => rw [hc] at hok; cases hok
  | reparent | reparentWake | wakeParent | zombify | scan | waitSleep => exact absurd (by rw [hc]; rfl) hh
  | user | exiting => exact .inr (.inl rfl)
  | asleep a => exact .inl rfl
  | _ => exact .inr rfl

theorem quiet_block (h : Inv s) (c : Nat) (hc : canBlock (s.pc p) = true) :
    QuietStep s { s with
      state := update s.state p .sleeping
      chan := update s.chan p (some (.other c)) } := by
  refine quiet_state h p ?_ nofun
  cases hpc : s.pc p with
  | user | exiting => exact .inr (.inr ⟨rfl, c, rfl⟩)
  | _ => rw [hpc] at hc; cases hc

/-- A sleeper is made runnable. -/
theorem quiet_wake (h : Inv s) (hp : s.state p = .sleeping) (k : Fin n → Bool) :
    QuietStep s { s with state := update s.state p .runnable, killed := k } := by
  have hok := h.ok p
  rw [hp] at hok
  have hq := quiet_state (y := .runnable) (x := s.chan p) (k := k) h p ?_ nofun
  · simpa using hq
  cases hc : s.pc p with
  | user | exiting => exact .inr (.inl rfl)
  | asleep a => exact .inl rfl
  | forkParent | forkRunnable | waiting | kill => exact .inr rfl
  | _ => rw [hc] at hok; cases hok

theorem inv_killPass (h : Inv s) {pid : Int32} {j : Nat} (hr : s.state p = .running)
    (hp : s.pc p = .kill pid j) : Inv (killPass s p pid j) := by
  have hquiet : Quiet (s.pc p) = true := by rw [hp]; rfl
  unfold killPass
  by_cases hj : j < n
  · rw [dif_pos hj]
    by_cases hpid : s.pid ⟨j, hj⟩ = pid
    · rw [if_pos hpid]
      have hvictim : QuietStep s { s with
          killed := update s.killed ⟨j, hj⟩ true
          state := if s.state ⟨j, hj⟩ = .sleeping then update s.state ⟨j, hj⟩ .runnable else s.state } := by
        by_cases hs : s.state ⟨j, hj⟩ = .sleeping
        · rw [if_pos hs]
          exact quiet_wake h hs _
        · rw [if_neg hs]
          exact ⟨rfl, rfl, rfl, fun _ => .inl rfl, h.ok, h.init.1, fun _ => id⟩
      have h1 := inv_quiet h hvictim
      refine inv_quiet h1 (quiet_goto h1 hquiet rfl ?_ (fun e => by cases e))
      have hok := h1.ok p
      rw [hp] at hok
      rcases hok with e | e
      · exact .inl e
      · exact .inr (.inl e)
    · rw [if_neg hpid]
      exact inv_quiet h (quiet_goto h hquiet rfl (.inl hr) (fun e => by cases e))
  · rw [dif_neg hj]
    exact inv_quiet h (quiet_goto h hquiet rfl (.inl hr) (fun e => by cases e))

/-! ## One step -/

theorem inv_go (h : Inv s) {ok : Bool} (hr : s.state p = .running)
    (hs : go s p ok = some s') : Inv s' := by
  unfold go at hs
  split at hs <;> rename_i hp
  · obtain ⟨hl, ⟨⟩⟩ := Option.ite_none_right_eq_some.1 hs
    exact inv_forkParent h hr hp hl
  · cases hs
    exact inv_forkRunnable h hr hp
  · obtain ⟨hl, ⟨⟩⟩ := Option.ite_none_right_eq_some.1 hs
    exact inv_goto_plain h (.inl hl) (by simp [hp, Alive]) rfl rfl (fun _ => h.init_ne (by simp [hp, InExit]))
      (fun _ => id) (by simp [hp]) hr fun _ hq => absurd hq (Nat.not_lt_zero _)
  · cases hs
    exact inv_reparentPass h hp
  · cases hs
    exact inv_reparentWakePass h hp
  · cases hs
    exact inv_wakeParentPass h hp
  · cases hs
    exact inv_zombify h hp
  · obtain ⟨hl, ⟨⟩⟩ := Option.ite_none_right_eq_some.1 hs
    exact inv_goto_plain h (.inl hl) (by simp [hp, Alive]) rfl rfl (by rintro ⟨⟩)
      (fun _ => id) (by simp [hp]) hr fun _ hq => absurd hq (Nat.not_lt_zero _)
  · cases hs
    exact inv_scanPass h ok hp
  · cases hs
    exact inv_waitSleep h hp
  · cases hs
    exact inv_killPass h hr hp
  all_goals cases hs

theorem inv_step {l : Lbl n} (h : Inv s) (hs : step s l = some s') : Inv s' := by
  unfold step at hs
  split at hs
  · obtain ⟨⟨hr, hp, hnp⟩, ⟨⟩⟩ := Option.ite_none_right_eq_some.1 hs
    exact inv_fork h hr hp hnp
  · obtain ⟨-, ⟨⟩⟩ := Option.ite_none_right_eq_some.1 hs
    exact h
  · obtain ⟨⟨-, -, hnp⟩, ⟨⟩⟩ := Option.ite_none_right_eq_some.1 hs
    exact inv_quiet h (quiet_freeproc h hnp _)
  · obtain ⟨⟨hr, hp, hi⟩, ⟨⟩⟩ := Option.ite_none_right_eq_some.1 hs
    exact inv_record
      (inv_quiet h (quiet_goto h (c := .exiting _) (by simp [hp, Quiet]) rfl (.inl hr) fun _ => hi)) _
  · obtain ⟨⟨hr, hp⟩, ⟨⟩⟩ := Option.ite_none_right_eq_some.1 hs
    exact inv_quiet h (quiet_goto h (by simp [hp, Quiet]) rfl (.inl hr) nofun)
  · obtain ⟨⟨hr, hp⟩, ⟨⟩⟩ := Option.ite_none_right_eq_some.1 hs
    exact inv_quiet h (quiet_goto h (by simp [hp, Quiet]) rfl (.inl hr) nofun)
  · obtain ⟨hr, hs⟩ := Option.ite_none_right_eq_some.1 hs
    exact inv_go h hr hs
  · obtain ⟨hr, ⟨⟩⟩ := Option.ite_none_right_eq_some.1 hs
    exact inv_quiet h (quiet_run h hr)
  · obtain ⟨⟨hr, hl⟩, ⟨⟩⟩ := Option.ite_none_right_eq_some.1 hs
    exact inv_quiet h (quiet_yield h hr hl)
  · obtain ⟨⟨-, hc⟩, ⟨⟩⟩ := Option.ite_none_right_eq_some.1 hs
    exact inv_quiet h (quiet_block h _ hc)
  · split at hs
    · rename_i hst _
      cases hs
      exact inv_quiet h (quiet_wake h hst _)
    · cases hs
  · obtain ⟨-, ⟨⟩⟩ := Option.ite_none_right_eq_some.1 hs
    exact inv_quiet h ⟨rfl, rfl, rfl, fun _ => .inl rfl, h.ok, h.init.1, fun _ => id⟩

theorem inv_init (hs : Init s) : Inv s := by
  obtain ⟨i1, i2, i3, i4, -⟩ := hs.init
  have hpc : ∀ q, s.pc q = .user ∨ s.pc q = .unused := by
    intro q
    by_cases e : q = s.initproc
    · rw [e]; exact .inl i2
    · exact .inr (hs.rest q e).2.1
  have hpar : ∀ q, s.parent q = none := by
    intro q
    by_cases e : q = s.initproc
    · rw [e]; exact i3
    · exact (hs.rest q e).2.2
  refine ⟨fun q => ?_, fun q => ?_, ?_, fun q p e => ?_, fun q _ => ?_, fun p q np e _ => ?_, fun p => ?_,
    fun r q _ e _ => ?_⟩
  · by_cases e : q = s.initproc
    · rw [e, i1, i2]; exact .inr (.inl rfl)
    · obtain ⟨e1, e2, -⟩ := hs.rest q e
      rw [e1, e2]; exact rfl
  · rw [hs.lock]
    rcases hpc q with e | e <;> rw [e] <;> simp [Holds]
  · rw [i2]; exact ⟨rfl, rfl⟩
  · rw [hpar q] at e; cases e
  · by_cases e : q = s.initproc
    · exact .inr (.inr e)
    · exact .inl (hs.rest q e).2.1
  · rcases hpc p with e' | e' <;> rw [e'] at e <;> cases e
  · rcases hpc p with e | e <;> rw [e] <;> trivial
  · rw [hpar q] at e; cases e

theorem inv_reachable (h : (lts n).Reachable s) : Inv s :=
  LTS.Inductive.reachable ⟨fun _ => inv_init, fun _ _ _ => inv_step⟩ h

end
end Xv6.Proc
