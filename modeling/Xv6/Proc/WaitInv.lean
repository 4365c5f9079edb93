import Xv6.Proc.Wait

/-!
# The invariant of the process table

`Local` annotates the places of `fork`, `exit` and `wait` with what the
thread there knows: a forked child is an embryo of its own, an exiting
process has given away the children it has passed and, once it has woken its
parent, that parent is not asleep in `wait`, a scan has missed no zombie.
`Inv` adds the family relations: every process has a living parent (`par`,
`nopar`), and a process asleep in `wait` has no zombie child unless the
holder of `wait_lock` is on its way to wake it (`wake`).

An annotation holds after a step of its own thread by the code and after a
step of another by `Local.stable`: the other does not hold `wait_lock` while
this thread does. Most sections touch no family relation at all
(`inv_quiet`: the calls, the scheduler, `kill`, sleeping elsewhere).
-/
namespace Xv6.Proc
open Function (update)

section
variable {n : Nat}

/-- The places between acquiring and releasing `wait_lock`. -/
def Holds : Pc n → Bool
  | .reparent _ _ | .reparentWake _ _ _ | .wakeParent _ _ _ | .zombify _ | .scan _ _ _ | .waitSleep _ => true
  | _ => false

def Alive : Pc n → Bool
  | .unused | .embryo | .dead => false
  | _ => true

def InExit : Pc n → Bool
  | .exiting _ | .reparent _ _ | .reparentWake _ _ _ | .wakeParent _ _ _ | .zombify _ | .dead => true
  | _ => false

/-- The places that no other process's invariant speaks of. -/
def Quiet : Pc n → Bool
  | .user | .exiting _ | .waiting _ | .asleep _ | .kill _ _ => true
  | _ => false

/-- `p->state` and `p->chan` at each place. -/
def PcOk (q : Fin n) (st : PState) (ch : Option (Chan n)) : Pc n → Prop
  | .unused => st = .unused
  | .embryo => st = .used
  | .dead => st = .zombie
  | .user | .exiting _ => st = .running ∨ st = .runnable ∨ (st = .sleeping ∧ ∃ c, ch = some (.other c))
  | .asleep _ => st = .runnable ∨ (st = .sleeping ∧ ch = some (.proc q))
  | .forkParent _ | .forkRunnable _ | .waiting _ | .kill _ _ => st = .running ∨ st = .runnable
  | .reparent _ _ | .reparentWake _ _ _ | .wakeParent _ _ _ | .zombify _ | .scan _ _ _ | .waitSleep _ =>
    st = .running

/-- Blocked in `wait`: sleeping on its own address. -/
def Sleeping (s : Sys n) (r : Fin n) : Prop := s.state r = .sleeping ∧ s.chan r = some (.proc r)

/-- What the thread of `p` knows at each place. -/
def Local (s : Sys n) (p : Fin n) : Pc n → Prop
  | .forkParent np => s.pc np = .embryo ∧ s.parent np = none
  | .forkRunnable np => s.pc np = .embryo ∧ s.parent np = some p
  | .reparent _ i => ∀ q : Fin n, q.1 < i → s.parent q ≠ some p
  | .reparentWake _ i _ => ∀ q : Fin n, q.1 < i → s.parent q ≠ some p
  | .wakeParent _ c j => c = s.parent p ∧ (∀ q, s.parent q ≠ some p) ∧
    ∀ r, s.parent p = some r → Sleeping s r → j ≤ r.1
  | .zombify _ => (∀ q, s.parent q ≠ some p) ∧ ∀ r, s.parent p = some r → ¬Sleeping s r
  | .scan _ i k => ∀ q : Fin n, q.1 < i → s.parent q = some p → s.pc q ≠ .dead ∧ k = true
  | .waitSleep _ => ∀ q, s.parent q = some p → s.pc q ≠ .dead
  | _ => True

structure Inv (s : Sys n) : Prop where
  ok : ∀ q, PcOk q (s.state q) (s.chan q) (s.pc q)
  lock : ∀ q, s.waitLock = some q ↔ Holds (s.pc q) = true
  init : InExit (s.pc s.initproc) = false ∧ Alive (s.pc s.initproc) = true
  par : ∀ q p, s.parent q = some p → Alive (s.pc p) = true ∧ s.pc q ≠ .unused ∧ q ≠ p ∧ q ≠ s.initproc
  nopar : ∀ q, s.parent q = none → s.pc q = .unused ∨ s.pc q = .embryo ∨ q = s.initproc
  uniq : ∀ p q np, s.pc p = .forkParent np → s.pc q = .forkParent np → p = q
  thread : ∀ p, Local s p (s.pc p)
  wake : ∀ r q, Sleeping s r → s.parent q = some r → s.pc q = .dead →
    r = s.initproc ∧ ∃ h st i j, s.pc h = .reparentWake st i j ∧ j ≤ r.1

variable {c : Pc n} {s s' : Sys n} {q p : Fin n}

theorem holds_quiet (h : Quiet c = true) : Holds c = false := by
  cases c <;> first | rfl | cases h

theorem alive_quiet (h : Quiet c = true) : Alive c = true := by
  cases c <;> first | rfl | cases h

/-! ## Reading the invariant -/

theorem Inv.of_unused (h : Inv s) (hq : s.state q = .unused) :
    s.pc q = .unused ∧ s.parent q = none := by
  have hpc : s.pc q = .unused := by
    have := h.ok q
    cases hc : s.pc q <;> simp_all [PcOk]
  refine ⟨hpc, ?_⟩
  cases hp : s.parent q with
  | none => rfl
  | some p => exact absurd hpc (h.par q p hp).2.1

theorem Inv.zombie_iff (h : Inv s) (q : Fin n) : s.state q = .zombie ↔ s.pc q = .dead := by
  have := h.ok q
  cases hc : s.pc q <;> simp_all [PcOk] <;> grind

/-- The holder is the only one. -/
theorem Inv.holder (h : Inv s) (hp : Holds (s.pc p) = true) (hq : Holds (s.pc q) = true) :
    q = p := by
  have h1 := (h.lock p).2 hp
  have h2 := (h.lock q).2 hq
  rw [h1] at h2
  exact (Option.some.inj h2).symm

theorem Inv.unlocked (h : Inv s) (hl : s.waitLock = none) (q : Fin n) : Holds (s.pc q) = false := by
  have := h.lock q
  rw [hl] at this
  simpa using this

/-! ## Interference -/

/-- The child a `fork` is making. -/
def Makes : Pc n → Fin n → Prop
  | .forkParent np, q => q = np
  | .forkRunnable np, q => q = np
  | _, _ => False

theorem Inv.makes (h : Inv s) (hq : Makes (s.pc p) q) : s.pc q = .embryo := by
  have hl := h.thread p
  cases hc : s.pc p with
  | forkParent | forkRunnable => rw [hc] at hq hl; cases hq; exact hl.1
  | _ => rw [hc] at hq; exact hq.elim

/-- A step of another process keeps what the thread of `p` knows, if it
leaves alone the child that `p` is making and, while `p` holds `wait_lock`,
gives it no child, kills none and puts nobody to sleep in `wait`. -/
theorem Local.stable (h : Local s p c)
    (hmake : ∀ q, Makes c q → s'.pc q = s.pc q ∧ s'.parent q = s.parent q)
    (hhold : Holds c = true → (∀ q, s'.parent q = some p → s.parent q = some p) ∧ s'.parent p = s.parent p ∧
      (∀ q, s'.pc q = .dead → s.pc q = .dead) ∧ ∀ r, Sleeping s' r → Sleeping s r) :
    Local s' p c := by
  cases c with
  | forkParent np | forkRunnable np =>
    obtain ⟨h1, h2⟩ := hmake np rfl
    exact ⟨h1.trans h.1, h2.trans h.2⟩
  | reparent | reparentWake =>
    obtain ⟨h1, -, -, -⟩ := hhold rfl
    exact fun q hq e => h q hq (h1 q e)
  | wakeParent st c j =>
    obtain ⟨h1, h2, -, h4⟩ := hhold rfl
    obtain ⟨g1, g2, g3⟩ := h
    refine ⟨g1.trans h2.symm, fun q e => g2 q (h1 q e), fun r hr hs => ?_⟩
    rw [h2] at hr
    exact g3 r hr (h4 r hs)
  | zombify st =>
    obtain ⟨h1, h2, -, h4⟩ := hhold rfl
    obtain ⟨g1, g2⟩ := h
    refine ⟨fun q e => g1 q (h1 q e), fun r hr hs => ?_⟩
    rw [h2] at hr
    exact g2 r hr (h4 r hs)
  | scan a i k =>
    obtain ⟨h1, -, h3, -⟩ := hhold rfl
    intro q hq e
    obtain ⟨g1, g2⟩ := h q hq (h1 q e)
    exact ⟨fun hd => g1 (h3 q hd), g2⟩
  | waitSleep a =>
    obtain ⟨h1, -, h3, -⟩ := hhold rfl
    exact fun q e hd => h q (h1 q e) (h3 q hd)
  | _ => trivial

/-! ## Sections that change no family relation -/

/-- What the calls, the scheduler, `kill` and other sleeps do: threads move
between quiet places, and nobody falls asleep in `wait`. -/
structure QuietStep (s s' : Sys n) : Prop where
  initproc : s'.initproc = s.initproc
  parent : s'.parent = s.parent
  waitLock : s'.waitLock = s.waitLock
  pc : ∀ q, s'.pc q = s.pc q ∨ (Quiet (s.pc q) = true ∧ Quiet (s'.pc q) = true)
  ok : ∀ q, PcOk q (s'.state q) (s'.chan q) (s'.pc q)
  init : InExit (s'.pc s'.initproc) = false
  sleeping : ∀ r, Sleeping s' r → Sleeping s r

theorem QuietStep.same (m : QuietStep s s') (q : Fin n) (hc : Quiet c = false) :
    s'.pc q = c ↔ s.pc q = c := by
  rcases m.pc q with e | ⟨e1, e2⟩
  · rw [e]
  · constructor
    · intro e; rw [e, hc] at e2; cases e2
    · intro e; rw [e, hc] at e1; cases e1

theorem local_quiet (s : Sys n) (p : Fin n) (h : Quiet c = true) : Local s p c := by
  cases c <;> trivial

theorem inv_quiet (h : Inv s) (m : QuietStep s s') : Inv s' := by
  have hholds : ∀ q, Holds (s'.pc q) = Holds (s.pc q) := by
    intro q
    rcases m.pc q with e | ⟨e1, e2⟩
    · rw [e]
    · rw [holds_quiet e1, holds_quiet e2]
  have halive : ∀ q, Alive (s'.pc q) = Alive (s.pc q) := by
    intro q
    rcases m.pc q with e | ⟨e1, e2⟩
    · rw [e]
    · rw [alive_quiet e1, alive_quiet e2]
  refine ⟨m.ok, ?_, ⟨m.init, ?_⟩, ?_, ?_, ?_, ?_, ?_⟩
  · intro q; rw [m.waitLock, hholds]; exact h.lock q
  · rw [halive, m.initproc]; exact h.init.2
  · intro q p hq
    rw [m.parent] at hq
    rw [halive, m.initproc, Ne, m.same q rfl]
    exact h.par q p hq
  · intro q hq
    rw [m.parent] at hq
    rw [m.initproc, m.same q rfl, m.same q rfl]
    exact h.nopar q hq
  · intro p q np hp hq
    exact h.uniq p q np ((m.same p rfl).1 hp) ((m.same q rfl).1 hq)
  · intro p
    rcases m.pc p with e | ⟨-, e2⟩
    · have hl := h.thread p
      rw [← e] at hl
      refine hl.stable (fun q hq => ⟨?_, by rw [m.parent]⟩) (fun _ =>
        ⟨fun q hq => by rw [m.parent] at hq; exact hq, by rw [m.parent],
          fun q hq => (m.same q rfl).1 hq, m.sleeping⟩)
      -- the child is an embryo, which is no quiet place
      rw [e] at hq
      have hemb := h.makes hq
      rw [hemb]; exact (m.same q rfl).2 hemb
    · exact local_quiet s' p e2
  · intro r q hr hq hd
    rw [m.parent] at hq
    obtain ⟨h1, g, st, i, j, h2, h3⟩ := h.wake r q (m.sleeping r hr) hq ((m.same q rfl).1 hd)
    rw [m.initproc]
    exact ⟨h1, g, st, i, j, (m.same g rfl).2 h2, h3⟩

/-! ## Sections of the holder of `wait_lock` -/

/-- `q` gets the parent `r`, and nobody but `p` is making it. -/
structure Adopted (s : Sys n) (p q r : Fin n) : Prop where
  alive : Alive (s.pc r) = true
  used : s.pc q ≠ .unused
  other : q ≠ r
  init : q ≠ s.initproc
  maker : ∀ y, y ≠ p → ¬Makes (s.pc y) q

/-- `p` moves to the place `c`, acquiring, keeping or releasing `wait_lock`. -/
structure Moves (s s' : Sys n) (p : Fin n) (c : Pc n) : Prop where
  mine : s.waitLock = none ∨ s.waitLock = some p
  was : Alive (s.pc p) = true
  alive : Alive c = true ∨ c = .dead ∧ ∀ q, s'.parent q ≠ some p
  exit : InExit c = true → p ≠ s.initproc
  fresh : ∀ np, c ≠ .forkParent np
  initproc : s'.initproc = s.initproc
  parent : ∀ q, s'.parent q = s.parent q ∨ ∃ r, Adopted s p q r ∧ s'.parent q = some r
  state : ∀ q, q ≠ p → s'.state q = s.state q
  chan : ∀ q, q ≠ p → s'.chan q = s.chan q
  pc : s'.pc = update s.pc p c
  waitLock : s'.waitLock = if Holds c = true then some p else none

section
variable (h : Inv s)
include h

theorem Inv.not_holding (hmine : s.waitLock = none ∨ s.waitLock = some p)
    (hq : q ≠ p) : Holds (s.pc q) = false := by
  have := h.lock q
  rcases hmine with e | e
  · simpa [e] using this
  · simpa [e, Ne.symm hq] using this

theorem inv_goto (m : Moves s s' p c)
    (hok : PcOk p (s'.state p) (s'.chan p) c) (hloc : Local s' p c)
    (hwake : ∀ r q, Sleeping s' r → s'.parent q = some r → s'.pc q = .dead →
      r = s.initproc ∧ ∃ h st i j, s'.pc h = .reparentWake st i j ∧ j ≤ r.1) :
    Inv s' := by
  have hself : s'.pc p = c := by simp [m.pc]
  have hne : ∀ q, q ≠ p → s'.pc q = s.pc q := fun q hq => by simp [m.pc, hq]
  have hlive : ∀ q, Alive (s.pc q) = true → Alive (s'.pc q) = true ∨ q = p ∧ c = .dead ∧
      ∀ x, s'.parent x ≠ some p := by
    intro q hq
    by_cases e : q = p
    · subst e
      exact m.alive.imp (hself ▸ ·) fun hd => ⟨rfl, hd⟩
    · exact .inl (hne q e ▸ hq)
  refine ⟨fun q => ?_, fun q => ?_, ?_, fun q r hq => ?_, fun q hq => ?_,
    fun q r np hq hr => ?_, fun q => ?_, ?_⟩
  · by_cases e : q = p
    · subst e
      rwa [hself]
    · rw [hne q e, m.state q e, m.chan q e]
      exact h.ok q
  · rw [m.waitLock]
    by_cases e : q = p
    · subst e
      rw [hself]
      split <;> simp_all
    · rw [hne q e, h.not_holding m.mine e]
      split <;> simp [Ne.symm e]
  · rw [m.initproc]
    by_cases e : s.initproc = p
    · have hx : InExit c = false := by simpa [e] using m.exit
      rw [e, hself]
      refine ⟨hx, m.alive.resolve_right fun hd => ?_⟩
      rw [hd.1] at hx
      cases hx
    · rw [hne _ e]
      exact h.init
  · have hused : s.pc q ≠ .unused → s'.pc q ≠ .unused := by
      by_cases e : q = p
      · subst e
        rw [hself]
        rintro - rfl
        exact m.alive.elim nofun nofun
      · rw [hne q e]
        exact id
    rw [m.initproc]
    have hq' : Alive (s.pc r) = true ∧ s.pc q ≠ .unused ∧ q ≠ r ∧ q ≠ s.initproc := by
      rcases m.parent q with e | ⟨t, ha, e⟩
      · exact h.par q r (e ▸ hq)
      · cases e.symm.trans hq
        exact ⟨ha.alive, ha.used, ha.other, ha.init⟩
    refine ⟨(hlive r hq'.1).resolve_right fun hd => ?_, hused hq'.2.1, hq'.2.2⟩
    exact hd.2.2 q (hd.1 ▸ hq)
  · rw [m.initproc]
    have hq' : s.parent q = none := by
      rcases m.parent q with e | ⟨t, -, e⟩
      · exact e.symm.trans hq
      · cases e.symm.trans hq
    by_cases e : q = p
    · subst e
      have hn := h.nopar q hq'
      refine .inr (.inr (hn.elim (fun e => ?_) fun hn => hn.elim (fun e => ?_) id)) <;>
        · have := m.was
          rw [e] at this
          cases this
    · rw [hne q e]
      exact h.nopar q hq'
  · have hold : ∀ x, s'.pc x = .forkParent np → s.pc x = .forkParent np := by
      intro x hx
      rwa [hne x (by rintro rfl; exact m.fresh np (hself.symm.trans hx))] at hx
    exact h.uniq q r np (hold q hq) (hold r hr)
  · by_cases e : q = p
    · subst e
      rwa [hself]
    · rw [hne q e]
      refine (h.thread q).stable (fun x hx => ⟨hne x ?_, ?_⟩)
        (fun hh => by rw [h.not_holding m.mine e] at hh; cases hh)
      · rintro rfl
        have := m.was
        rw [h.makes hx] at this
        cases this
      · exact (m.parent x).resolve_right fun ⟨r, ha, _⟩ => ha.maker q e hx
  · rw [m.initproc]
    exact hwake

/-- With no `wakeup(initproc)` of `reparent` going on, nobody asleep in
`wait` has a zombie child. -/
theorem Inv.no_pending (hw : ∀ p st i j, s.pc p ≠ .reparentWake st i j) {r : Fin n}
    (hr : Sleeping s r) (hq : s.parent q = some r) (hd : s.pc q = .dead) : False := by
  obtain ⟨-, p, st, i, j, hp, -⟩ := h.wake r q hr hq hd
  exact hw p st i j hp

/-- In particular while somebody else holds `wait_lock`, or nobody. -/
theorem Inv.no_waker (hmine : s.waitLock = none ∨ s.waitLock = some p)
    (hp : ∀ st i j, s.pc p ≠ .reparentWake st i j) : ∀ q st i j, s.pc q ≠ .reparentWake st i j := by
  intro q st i j hq
  have hh : s.waitLock = some q := (h.lock q).2 (by rw [hq]; rfl)
  rcases hmine with e | e
  · cases e.symm.trans hh
  · cases e.symm.trans hh
    exact hp st i j hq

/-- A move that starts and ends outside the wakeups of `reparent`. -/
theorem inv_goto_plain {w : Option (Fin n)}
    (hmine : s.waitLock = none ∨ s.waitLock = some p) (hwas : Alive (s.pc p) = true) (hc : Alive c = true)
    (hw : w = if Holds c = true then some p else none) (hex : InExit c = true → p ≠ s.initproc)
    (hmk : ∀ q, ¬Makes c q) (hno : ∀ st i j, s.pc p ≠ .reparentWake st i j)
    (hok : PcOk p (s.state p) (s.chan p) c) (hloc : Local s p c) :
    Inv { s with pc := update s.pc p c, waitLock := w } := by
  have hdead : ∀ q, update s.pc p c q = .dead → s.pc q = .dead := by
    intro q hq
    by_cases e : q = p
    · rw [e, Function.update_self] at hq
      rw [hq] at hc
      cases hc
    · simpa [e] using hq
  refine inv_goto h ⟨hmine, hwas, .inl hc, hex, ?_, rfl, fun _ => .inl rfl, fun _ _ => rfl,
    fun _ _ => rfl, rfl, hw⟩ hok
    (hloc.stable (fun x hx => absurd hx (hmk x)) fun _ => ⟨fun _ => id, rfl, hdead, fun _ => id⟩)
    fun r q hr hq hd => ?_
  · rintro np rfl
    exact hmk np rfl
  · exact (h.no_pending (h.no_waker hmine hno) hr hq (hdead q hd)).elim

theorem inv_record (e : Event n) : Inv (record s e) :=
  inv_quiet h ⟨rfl, rfl, rfl, fun _ => .inl rfl, h.ok, h.init.1, fun _ => id⟩

/-- A pass of `wakeup` only makes sleepers runnable. -/
theorem quiet_wakeOne (p q : Fin n) (ch : Option (Chan n)) :
    QuietStep s (wakeOne s p q ch) := by
  unfold wakeOne
  split
  · rename_i hq
    refine ⟨rfl, rfl, rfl, fun _ => .inl rfl, ?_, h.init.1, ?_⟩
    · intro x
      by_cases e : x = q
      · have hx := h.ok q
        rw [hq.2.1] at hx
        rw [e]
        cases hc : s.pc q <;> rw [hc] at hx <;> simp_all [PcOk]
      · simp only [Function.update_of_ne e]; exact h.ok x
    · intro r hr
      unfold Sleeping at hr ⊢
      by_cases e : r = q
      · rw [e] at hr; simp only [Function.update_self] at hr; cases hr.1
      · simpa only [Function.update_of_ne e] using hr
  · exact ⟨rfl, rfl, rfl, fun _ => .inl rfl, h.ok, h.init.1, fun _ => id⟩

end

/-- The pass at `q` wakes `q` if it sleeps on the channel. -/
theorem wakeOne_awake (hne : q ≠ p) : ¬Sleeping (wakeOne s p q (some (.proc q))) q := by
  unfold wakeOne Sleeping
  split
  · simp
  · rename_i hn
    intro hq
    exact hn ⟨hne, hq.1, hq.2⟩

end
end Xv6.Proc
