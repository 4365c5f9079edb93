import Xv6.Proc.WaitInv

/-!
# The sections that change the family of processes

`fork` makes a child in three sections, `reparent` gives a child away,
`exit` makes a zombie, `wait` frees one or goes to sleep. Each keeps the
invariant of the process table; with `inv_quiet` and `inv_goto` for the other
sections this gives `inv_step`.
-/
namespace Xv6.Proc
open Function (update update_of_ne update_self)

section
variable {n : Nat}

variable {s : Sys n} {p q x np : Fin n} {st : Int32} {a i j : Nat} {k : Bool} {c : Pc n}

theorem Inv.init_ne (h : Inv s) (hp : InExit (s.pc p) = true) : p ≠ s.initproc := by
  rintro rfl
  cases h.init.1.symm.trans hp

theorem Inv.ne_init (h : Inv s) (hq : Alive (s.pc q) = false) : s.initproc ≠ q := by
  rintro rfl
  cases h.init.2.symm.trans hq

/-- The only living process without a parent is init. -/
theorem Inv.orphan (h : Inv s) (hq : Alive (s.pc q) = true) (hp : s.parent q = none) :
    q = s.initproc := by
  rcases h.nopar q hp with e | e | e
  · rw [e] at hq; cases hq
  · rw [e] at hq; cases hq
  · exact e

/-- What a process knows that holds `wait_lock` at the place `c`. -/
theorem Inv.holding (h : Inv s) (hp : s.pc p = c) (hc : Holds c = true) :
    PcOk p (s.state p) (s.chan p) c ∧ Local s p c ∧ s.waitLock = some p := by
  subst hp
  exact ⟨h.ok p, h.thread p, (h.lock p).2 hc⟩

/-! ## Steps on two slots -/

/-- A step of `p` that also changes the slot `x`. -/
structure Pair (s s' : Sys n) (p x : Fin n) : Prop where
  pc : ∀ q, q ≠ p → q ≠ x → s'.pc q = s.pc q
  state : ∀ q, q ≠ x → s'.state q = s.state q
  chan : ∀ q, q ≠ x → s'.chan q = s.chan q
  parent : ∀ q, q ≠ x → s'.parent q = s.parent q
  initproc : s'.initproc = s.initproc

/-- `p` makes, starts or frees the slot `x`, where no process lives yet or
any more, and holds `wait_lock` at most until then. -/
theorem inv_pair {s' : Sys n} {c d e f : Pc n} (h : Inv s) (m : Pair s s' p x)
    (hpc : s.pc p = c ∧ s'.pc p = d)
    (hxc : s.pc x = e ∧ s'.pc x = f) (hp : Alive c = true) (hp' : Alive d = true) (hx : Alive e = false)
    (hnw : ∀ st i j, c ≠ .reparentWake st i j) (hex : InExit d = false)
    (hokp : PcOk p (s.state p) (s.chan p) d) (hokx : PcOk x (s'.state x) (s'.chan x) f)
    (hhp : Holds d = false) (hhx : Holds f = false)
    (hlk : (s'.waitLock = none ∧ s.waitLock = some p) ∨ (s'.waitLock = s.waitLock ∧ Holds c = false))
    (hparx : s'.parent x = none ∧ (f = .unused ∨ f = .embryo) ∨
      s'.parent x = s.parent x ∧ s'.parent x ≠ none ∧ f ≠ .unused)
    (hdx : f ≠ .dead) (hsx : s'.state x ≠ .sleeping) (hfork : ∀ np, d = .forkParent np → s.pc np ≠ .embryo)
    (hforkx : ∀ np, f ≠ .forkParent np) (hmk : ∀ q, q ≠ p → ¬Makes (s.pc q) x) (hlocp : Local s' p d)
    (hlocx : Local s' x f) : Inv s' := by
  obtain ⟨⟨rfl, rfl⟩, rfl, rfl⟩ := And.intro hpc hxc
  have hix := h.ne_init hx
  have hpar : ∀ q r, s'.parent q = some r → s.parent q = some r := by
    intro q r hq
    by_cases e : q = x
    · subst e
      rcases hparx with ⟨e, -⟩ | ⟨e, -⟩
      · cases e.symm.trans hq
      · exact e.symm.trans hq
    · exact (m.parent q e).symm.trans hq
  have hdead : ∀ q, s'.pc q = .dead → s.pc q = .dead := by
    intro q hq
    have hqp : q ≠ p := by rintro rfl; rw [hq] at hp'; cases hp'
    have hqx : q ≠ x := by rintro rfl; exact hdx hq
    exact (m.pc q hqp hqx).symm.trans hq
  have hsl : ∀ r, Sleeping s' r → Sleeping s r := by
    intro r hr
    have hrx : r ≠ x := by rintro rfl; exact hsx hr.1
    exact ⟨(m.state r hrx).symm.trans hr.1, (m.chan r hrx).symm.trans hr.2⟩
  have halive : ∀ q, Alive (s.pc q) = true → Alive (s'.pc q) = true := by
    intro q hq
    by_cases e : q = p
    · exact e ▸ hp'
    · rwa [m.pc q e (by rintro rfl; cases hx.symm.trans hq)]
  refine ⟨fun q => ?_, fun q => ?_, ⟨?_, ?_⟩, fun q r hq => ?_, fun q hq => ?_,
    fun q r np hq hr => ?_, fun q => ?_, fun r q hr hq hd => ?_⟩
  · by_cases e1 : q = x
    · exact e1 ▸ hokx
    rw [m.state q e1, m.chan q e1]
    by_cases e2 : q = p
    · exact e2 ▸ hokp
    · rw [m.pc q e2 e1]; exact h.ok q
  · by_cases e1 : q = p
    · subst e1
      rcases hlk with ⟨e, -⟩ | ⟨e, e'⟩
      · simp [e, hhp]
      · rw [e, h.lock, e', hhp]
    by_cases e2 : q = x
    · subst e2
      have : Holds (s.pc q) = false := by cases hc : s.pc q <;> first | rfl | (rw [hc] at hx; cases hx)
      rcases hlk with ⟨e, -⟩ | ⟨e, -⟩
      · simp [e, hhx]
      · rw [e, h.lock, this, hhx]
    rw [m.pc q e1 e2]
    rcases hlk with ⟨e, e'⟩ | ⟨e, -⟩
    · simp [e, h.not_holding (.inr e') e1]
    · rw [e]; exact h.lock q
  · rw [m.initproc]
    by_cases e : s.initproc = p
    · rw [e]; exact hex
    · rw [m.pc _ e hix]; exact h.init.1
  · rw [m.initproc]; exact halive _ h.init.2
  · rw [m.initproc]
    obtain ⟨h1, h2, h3⟩ := h.par q r (hpar q r hq)
    refine ⟨halive r h1, fun e => ?_, h3⟩
    by_cases e1 : q = p
    · rw [← e1, e] at hp'; cases hp'
    by_cases e2 : q = x
    · subst e2
      rcases hparx with ⟨e', -⟩ | ⟨-, -, e'⟩
      · cases e'.symm.trans hq
      · exact e' e
    exact h2 ((m.pc q e1 e2).symm.trans e)
  · rw [m.initproc]
    by_cases e2 : q = x
    · subst e2
      rcases hparx with ⟨-, e | e⟩ | ⟨-, e, -⟩
      · exact .inl e
      · exact .inr (.inl e)
      · exact absurd hq e
    rw [m.parent q e2] at hq
    by_cases e1 : q = p
    · exact .inr (.inr (h.orphan (e1 ▸ hp) hq))
    · rw [m.pc q e1 e2]; exact h.nopar q hq
  · -- a child that p has just taken had no maker
    have hold : ∀ y, s'.pc y = .forkParent np → s.pc y = .forkParent np ∨ (y = p ∧ s.pc np ≠ .embryo) := by
      intro y hy
      by_cases e1 : y = p
      · exact .inr ⟨e1, hfork np (e1 ▸ hy)⟩
      by_cases e2 : y = x
      · exact absurd (e2 ▸ hy) (hforkx np)
      exact .inl ((m.pc y e1 e2).symm.trans hy)
    rcases hold q hq with h1 | ⟨h1, h2⟩ <;> rcases hold r hr with h3 | ⟨h3, h4⟩
    · exact h.uniq q r np h1 h3
    · exact absurd (h.makes (by rw [h1]; exact rfl)) h4
    · exact absurd (h.makes (by rw [h3]; exact rfl)) h2
    · exact h1.trans h3.symm
  · by_cases e1 : q = p
    · exact e1 ▸ hlocp
    by_cases e2 : q = x
    · exact e2 ▸ hlocx
    rw [m.pc q e1 e2]
    refine (h.thread q).stable (fun y hy => ?_) (fun _ => ⟨fun y => hpar y q, m.parent q e2, hdead, hsl⟩)
    have hyx : y ≠ x := by rintro rfl; exact hmk q e1 hy
    have hyp : y ≠ p := by rintro rfl; rw [h.makes hy] at hp; cases hp
    exact ⟨m.pc y hyp hyx, m.parent y hyx⟩
  · obtain ⟨h1, g, st, i, j, h2, h3⟩ := h.wake r q (hsl r hr) (hpar q r hq) (hdead q hd)
    rw [m.initproc]
    refine ⟨h1, g, st, i, j, ?_, h3⟩
    rw [m.pc g (by rintro rfl; exact hnw st i j h2) (by rintro rfl; rw [h2] at hx; cases hx)]
    exact h2

/-! ## fork -/

theorem inv_fork (h : Inv s) (hr : s.state p = .running) (hp : s.pc p = .user)
    (hnp : s.state np = .unused) : Inv (fork s p np) := by
  obtain ⟨hpc, hpar⟩ := h.of_unused hnp
  have hne : np ≠ p := by rintro rfl; cases hpc.symm.trans hp
  refine inv_pair (d := .forkParent np) (f := .embryo) h
    ⟨fun q h1 h2 => by simp [fork, h1, h2], fun q hq => by simp [fork, hq],
      fun _ _ => rfl, fun _ _ => rfl, rfl⟩
    ⟨hp, by simp [fork]⟩ ⟨hpc, by simp [fork, hne]⟩ rfl rfl rfl nofun rfl (.inl hr)
      (by simp [fork, PcOk]) rfl rfl
    (.inr ⟨rfl, rfl⟩) (.inl ⟨hpar, .inr rfl⟩) nofun (by simp [fork]) (fun m e => ?_) nofun (fun q _ hm => ?_)
    ⟨by simp [fork, hne], hpar⟩ trivial
  · cases e
    simp [hpc]
  · -- nobody is making np: it was unused
    cases hpc.symm.trans (h.makes hm)

theorem Adopted.update {r : Fin n} (h : Adopted s p x r) (q : Fin n) :
    update s.parent x (some r) q = s.parent q ∨ ∃ t, Adopted s p q t ∧
    update s.parent x (some r) q = some t := by
  by_cases e : q = x
  · subst e
    exact .inr ⟨r, h, update_self ..⟩
  · exact .inl (update_of_ne e ..)

section
variable (h : Inv s)
include h

/-- `np->parent = p`, under `wait_lock`. -/
theorem inv_forkParent (hr : s.state p = .running)
    (hp : s.pc p = .forkParent np) (hl : s.waitLock = none) :
    Inv (goto { s with parent := update s.parent np (some p) } p (.forkRunnable np)) := by
  have hloc := h.thread p
  rw [hp] at hloc
  obtain ⟨hemb, hnone⟩ := hloc
  have hne : np ≠ p := by rintro rfl; cases hp.symm.trans hemb
  have hmaker : ∀ q, q ≠ p → ¬Makes (s.pc q) np := by
    intro q hq hm
    have hl := h.thread q
    cases hc : s.pc q with
    | forkParent m =>
      rw [hc] at hm
      cases hm
      exact hq (h.uniq q p np hc hp)
    | forkRunnable m =>
      rw [hc] at hm hl
      cases hm
      cases hl.2.symm.trans hnone
    | _ => rwa [hc] at hm
  have ha : Adopted s p np p :=
    ⟨by simp [hp, Alive], by simp [hemb], hne, (h.ne_init (by simp [hemb, Alive])).symm, hmaker⟩
  refine inv_goto (c := .forkRunnable np) h
    ⟨.inl hl, ha.alive, .inl rfl, nofun, by simp, rfl, ha.update, fun _ _ => rfl, fun _ _ => rfl, rfl, hl⟩
    (.inl hr) ⟨by simpa [goto, hne] using hemb, update_self ..⟩ fun r q hs hq hd => ?_
  have hqp : q ≠ p := by rintro rfl; simp [goto] at hd
  have hqn : q ≠ np := by rintro rfl; simp [goto, hne, hemb] at hd
  simp only [goto, update_of_ne hqp, update_of_ne hqn] at hq hd
  exact (h.no_pending (h.no_waker (.inl hl) (p := p) (by simp [hp])) hs hq hd).elim

/-- Only the maker of an embryo with a parent is that parent. -/
theorem Inv.maker_parent (hx : s.parent x = some p)
    (hq : Makes (s.pc q) x) : q = p := by
  have hl := h.thread q
  cases hc : s.pc q with
  | forkParent m =>
    rw [hc] at hq hl; cases hq
    rw [hl.2] at hx; cases hx
  | forkRunnable m =>
    rw [hc] at hq hl; cases hq
    rw [hl.2] at hx
    exact Option.some.inj hx
  | _ => rw [hc] at hq; exact hq.elim

/-- The child becomes runnable. -/
theorem inv_forkRunnable (hr : s.state p = .running)
    (hp : s.pc p = .forkRunnable np) :
    Inv { s with state := update s.state np .runnable, pc := update (update s.pc np .user) p .user } := by
  obtain ⟨hemb, hpar⟩ : s.pc np = .embryo ∧ s.parent np = some p := by
    have := h.thread p
    rwa [hp] at this
  have hne : np ≠ p := by rintro rfl; cases hemb.symm.trans hp
  exact inv_pair (d := .user) (f := .user) h
    ⟨fun q h1 h2 => by simp [h1, h2], fun q hq => update_of_ne hq .., fun _ _ => rfl, fun _ _ => rfl, rfl⟩
    ⟨hp, update_self ..⟩ ⟨hemb, by simp [hne]⟩ rfl rfl rfl nofun rfl (.inl hr)
      (.inr (.inl (update_self ..))) rfl rfl
    (.inr ⟨rfl, rfl⟩) (.inr ⟨rfl, by simp [hpar], nofun⟩) nofun (by simp) nofun nofun
    (fun q hq hm => hq (h.maker_parent hpar hm)) trivial trivial

/-! ## exit -/

/-- `reparent` gives a child to init. -/
theorem inv_reparent (hp : s.pc p = .reparent st x.1)
    (hx : s.parent x = some p) :
    Inv (goto { s with parent := update s.parent x (some s.initproc) } p (.reparentWake st (x.1 + 1) 0)) := by
  obtain ⟨hok, hloc, hl⟩ := h.holding hp rfl
  obtain ⟨ha, hxu, -, hxi⟩ := h.par x p hx
  have hpi := h.init_ne (p := p) (by simp [hp, InExit])
  have hadopt : Adopted s p x s.initproc :=
    ⟨h.init.2, hxu, hxi, hxi, fun q hq hm => hq (h.maker_parent hx hm)⟩
  refine inv_goto (c := .reparentWake st (x.1 + 1) 0) h
    ⟨.inr hl, ha, .inl rfl, fun _ => hpi, by simp, rfl, hadopt.update, fun _ _ => rfl,
      fun _ _ => rfl, rfl, hl⟩
    hok (fun q hq e => ?_) fun r q hr hq hd => ?_
  · change update s.parent x _ q = _ at e
    by_cases hqx : q = x
    · subst hqx
      exact hpi (by simpa using e.symm)
    · exact hloc q (by omega) (by simpa [hqx] using e)
  · change update s.parent x _ q = _ at hq
    by_cases hqx : q = x
    · subst hqx
      exact ⟨by simpa using hq.symm, p, st, _, 0, update_self .., Nat.zero_le _⟩
    · have hqp : q ≠ p := by rintro rfl; simp [goto] at hd
      simp only [goto, update_of_ne hqp, update_of_ne hqx] at hq hd
      exact (h.no_pending (h.no_waker (.inr hl) (by simp [hp])) hr hq hd).elim

theorem inv_zombify (hp : s.pc p = .zombify st) :
    Inv (zombify s p st) := by
  obtain ⟨-, ⟨hkids, hawake⟩, hl⟩ := h.holding hp rfl
  refine inv_goto (c := .dead) h
    ⟨.inr hl, by simp [hp, Alive], .inr ⟨rfl, hkids⟩, fun _ => h.init_ne (by simp [hp, InExit]), by simp, rfl,
      fun _ => .inl rfl, fun q hq => update_of_ne hq .., fun _ _ => rfl, rfl, rfl⟩
    (update_self ..) trivial fun r q hr hq hd => ?_
  have hrp : r ≠ p := by rintro rfl; simp [Sleeping, zombify] at hr
  have hr' : Sleeping s r := by simpa [Sleeping, zombify, hrp] using hr
  by_cases e : q = p
  · subst e
    exact (hawake r hq hr').elim
  · exact (h.no_pending (h.no_waker (.inr hl) (by simp [hp])) hr' hq (by simpa [zombify, e] using hd)).elim

/-! ## wait -/

/-- The zombie `x` is freed. -/
theorem inv_reap (hp : s.pc p = .scan a i k)
    (hz : s.state x = .zombie) : Inv (goto (unlock (freeproc s x)) p .user) := by
  obtain ⟨hokp, -, hl⟩ := h.holding hp rfl
  have hxd := (h.zombie_iff x).1 hz
  have hne : x ≠ p := by rintro rfl; cases hxd.symm.trans hp
  have hsame : ∀ q, q ≠ x → (freeproc s x).state q = s.state q ∧ (freeproc s x).chan q = s.chan q ∧
      (freeproc s x).parent q = s.parent q := fun q hq => by simp [freeproc, hq]
  exact inv_pair (d := .user) (f := .unused) h
    ⟨fun q h1 h2 => by simp [goto, unlock, freeproc, h1, h2], fun q hq => (hsame q hq).1,
      fun q hq => (hsame q hq).2.1, fun q hq => (hsame q hq).2.2, rfl⟩
    ⟨hp, update_self ..⟩ ⟨hxd, by simp [goto, unlock, freeproc, hne]⟩ rfl rfl rfl nofun rfl
      (.inl hokp) (update_self ..)
    rfl rfl (.inl ⟨rfl, hl⟩) (.inl ⟨update_self .., .inl rfl⟩) nofun
      (by simp [goto, unlock, freeproc]) nofun nofun
    (fun q _ hm => by cases hxd.symm.trans (h.makes hm)) trivial trivial

/-- `sleep(p, &wait_lock)`. -/
theorem inv_waitSleep (hp : s.pc p = .waitSleep a) :
    Inv (waitSleep s p a) := by
  obtain ⟨-, hloc, hl⟩ := h.holding hp rfl
  refine inv_goto (c := .asleep a) h
    ⟨.inr hl, by simp [hp, Alive], .inl rfl, nofun, by simp, rfl, fun _ => .inl rfl,
      fun q hq => update_of_ne hq .., fun q hq => update_of_ne hq .., rfl, rfl⟩
    (.inr ⟨update_self .., update_self ..⟩) trivial fun r q hr hq hd => ?_
  have hqp : q ≠ p := by rintro rfl; simp [waitSleep] at hd
  have hd : s.pc q = .dead := by simpa [waitSleep, hqp] using hd
  by_cases e : r = p
  · exact (hloc q (e ▸ hq) hd).elim
  · have hr : Sleeping s r := by simpa [Sleeping, waitSleep, e] using hr
    exact (h.no_pending (h.no_waker (.inr hl) (by simp [hp])) hr hq hd).elim

/-! ## The passes of the loops -/

theorem Inv.holder_alive (hl : s.waitLock = some p) : Alive (s.pc p) = true := by
  have hh := (h.lock p).1 hl
  cases e : s.pc p <;> first | rfl | (rw [e] at hh; cases hh)

end

theorem alive_holds (h : Holds c = true) : Alive c = true := by
  cases c <;> first | rfl | cases h

section
variable (h : Inv s) (hl : s.waitLock = some p) (hc : Holds c = true) (hx : InExit c = true → p ≠ s.initproc)
include h hl hc hx

/-- A move of the holder of `wait_lock` that keeps it. -/
theorem moves_goto : Moves s (goto s p c) p c :=
  ⟨.inr hl, h.holder_alive hl, .inl (alive_holds hc), hx, (by rintro np rfl; cases hc),
    rfl, fun _ => .inl rfl, fun _ _ => rfl, fun _ _ => rfl, rfl, by simpa [goto, hc] using hl⟩

/-- The same, outside the wakeups of `reparent`. -/
theorem inv_keep (hno : ∀ st i j, s.pc p ≠ .reparentWake st i j)
    (hok : PcOk p (s.state p) (s.chan p) c) (hloc : Local s p c) : Inv (goto s p c) :=
  inv_goto_plain h (.inr hl) (h.holder_alive hl) (alive_holds hc) (by rw [if_pos hc]; exact hl) hx
    (fun q hq => by cases c <;> first | exact hq | cases hc) hno hok hloc

end

theorem dead_of_goto (hc : c ≠ .dead) (h : (goto s p c).pc q = .dead) :
    s.pc q = .dead := by
  by_cases e : q = p
  · simp [goto, e, hc] at h
  · simpa [goto, e] using h

theorem inv_reparentPass (h : Inv s) (hp : s.pc p = .reparent st i) :
    Inv (reparentPass s p st i) := by
  obtain ⟨hok, hloc, hl⟩ := h.holding hp rfl
  have hpi := h.init_ne (p := p) (by rw [hp]; rfl)
  have hnw : ∀ st' i' j, s.pc p ≠ .reparentWake st' i' j := by rw [hp]; simp
  unfold reparentPass
  by_cases hi : i < n
  · rw [dif_pos hi]
    by_cases hx : s.parent ⟨i, hi⟩ = some p
    · rw [if_pos hx]
      exact inv_reparent (x := ⟨i, hi⟩) h hp hx
    · rw [if_neg hx]
      refine inv_keep h hl rfl (fun _ => hpi) hnw hok fun q hq e => ?_
      by_cases hqi : q.1 = i
      · exact hx (by rw [show (⟨i, hi⟩ : Fin n) = q from Fin.ext hqi.symm]; exact e)
      · exact hloc q (by omega) e
  · rw [dif_neg hi]
    refine inv_keep h hl rfl (fun _ => hpi) hnw hok ⟨rfl, fun q e => ?_, fun _ _ _ => Nat.zero_le _⟩
    exact hloc q (by have := q.isLt; omega) e

theorem inv_reparentWakePass (h : Inv s)
    (hp : s.pc p = .reparentWake st i j) : Inv (reparentWakePass s p st i j) := by
  have hpi := h.init_ne (p := p) (by rw [hp]; rfl)
  -- the only waker is p, at j
  have honly : ∀ {t : Sys n}, Inv t → t.pc p = .reparentWake st i j → ∀ r q, Sleeping t r →
    t.parent q = some r →
      t.pc q = .dead → r = t.initproc ∧ j ≤ r.1 := by
    intro t ht hpt r q hr hq hd
    obtain ⟨h1, g, st', i', j', h2, h3⟩ := ht.wake r q hr hq hd
    have hg : g = p := ht.holder (by rw [hpt]; rfl) (by rw [h2]; rfl)
    rw [hg, hpt] at h2
    cases h2
    exact ⟨h1, h3⟩
  unfold reparentWakePass
  by_cases hj : j < n
  · rw [dif_pos hj]
    have hq := quiet_wakeOne h p ⟨j, hj⟩ (some (.proc s.initproc))
    have h1 := inv_quiet h hq
    have hp1 := (hq.same p rfl).2 hp
    have hawake : s.initproc.1 = j →
        ¬Sleeping (wakeOne s p ⟨j, hj⟩ (some (.proc s.initproc))) s.initproc := by
      intro e
      have hij : (⟨j, hj⟩ : Fin n) = s.initproc := Fin.ext e.symm
      rw [hij]
      exact wakeOne_awake (Ne.symm hpi)
    have hip := hq.initproc
    generalize wakeOne s p ⟨j, hj⟩ (some (.proc s.initproc)) = t at h1 hp1 hawake hip ⊢
    obtain ⟨hok, hloc, hl⟩ := h1.holding hp1 rfl
    refine inv_goto h1 (moves_goto h1 hl rfl fun _ => hip ▸ hpi) hok hloc fun r q hr hq hd => ?_
    obtain ⟨e, hjr⟩ := honly h1 hp1 r q hr hq (dead_of_goto (by simp) hd)
    refine ⟨e, p, st, i, j + 1, update_self .., ?_⟩
    have hne : r.1 ≠ j := by
      intro e'
      rw [e, hip] at e' hr
      exact hawake e' hr
    omega
  · rw [dif_neg hj]
    obtain ⟨hok, hloc, hl⟩ := h.holding hp rfl
    refine inv_goto h (moves_goto h hl rfl fun _ => hpi) hok hloc fun r q hr hq hd => ?_
    have := (honly h hp r q hr hq (dead_of_goto (by simp) hd)).2
    omega

theorem inv_wakeParentPass (h : Inv s) {c : Option (Fin n)}
    (hp : s.pc p = .wakeParent st c j) : Inv (wakeParentPass s p st c j) := by
  have hpi := h.init_ne (p := p) (by rw [hp]; rfl)
  unfold wakeParentPass
  by_cases hj : j < n
  · rw [dif_pos hj]
    have hq := quiet_wakeOne h p ⟨j, hj⟩ (c.map .proc)
    have h1 := inv_quiet h hq
    have hp1 := (hq.same p rfl).2 hp
    have hawake : ∀ r, c = some r → r ≠ p → r.1 = j → ¬Sleeping (wakeOne s p ⟨j, hj⟩ (c.map .proc)) r := by
      intro r hc hrp e
      have hrj : (⟨j, hj⟩ : Fin n) = r := Fin.ext e.symm
      rw [hrj, hc]
      exact wakeOne_awake hrp
    have hip := hq.initproc
    generalize wakeOne s p ⟨j, hj⟩ (c.map .proc) = t at h1 hp1 hawake hip ⊢
    obtain ⟨hok, ⟨g1, g2, g3⟩, hl⟩ := h1.holding hp1 rfl
    refine inv_keep h1 hl rfl (fun _ => hip ▸ hpi) (by simp [hp1]) hok ⟨g1, g2, fun r hr hs => ?_⟩
    have hle := g3 r hr hs
    have hrp : r ≠ p := by intro e; rw [e] at hr; exact g2 p hr
    have hne : r.1 ≠ j := fun e => hawake r (g1.trans hr) hrp e hs
    omega
  · rw [dif_neg hj]
    obtain ⟨hok, ⟨-, g2, g3⟩, hl⟩ := h.holding hp rfl
    refine inv_keep h hl rfl (fun _ => hpi) (by simp [hp]) hok ⟨g2, fun r hr hs => ?_⟩
    have := g3 r hr hs
    omega

theorem inv_scanPass (h : Inv s) (ok : Bool)
    (hp : s.pc p = .scan a i k) : Inv (scanPass s p a i k ok) := by
  obtain ⟨hok, hloc, hl⟩ := h.holding hp rfl
  have hnw : ∀ st i j, s.pc p ≠ .reparentWake st i j := by simp [hp]
  have hreturn : Inv (goto (unlock s) p .user) :=
    inv_goto_plain h (.inr hl) (h.holder_alive hl) rfl rfl nofun (fun _ => id) hnw (.inl hok) trivial
  unfold scanPass
  by_cases hi : i < n
  · rw [dif_pos hi]
    have hsplit : ∀ q : Fin n, q.1 < i + 1 → q.1 < i ∨ q = ⟨i, hi⟩ := by
      intro q hq
      by_cases e : q.1 = i
      · exact .inr (Fin.ext e)
      · exact .inl (by omega)
    by_cases hx : s.parent ⟨i, hi⟩ = some p
    · rw [if_pos hx]
      by_cases hz : s.state ⟨i, hi⟩ = .zombie
      · rw [if_pos hz]
        by_cases hc : a ≠ 0 ∧ ok = false
        · rw [if_pos hc]; exact hreturn
        · rw [if_neg hc]
          exact inv_record (inv_reap h hp hz) _
      · rw [if_neg hz]
        refine inv_keep h hl rfl nofun hnw hok fun q hq e => ⟨?_, rfl⟩
        rcases hsplit q hq with hlt | heq
        · exact (hloc q hlt e).1
        · rw [heq]; exact fun hd => hz ((h.zombie_iff _).2 hd)
    · rw [if_neg hx]
      refine inv_keep h hl rfl nofun hnw hok fun q hq e => ?_
      rcases hsplit q hq with hlt | heq
      · exact hloc q hlt e
      · rw [heq] at e; exact absurd e hx
  · rw [dif_neg hi]
    by_cases hk : k = false
    · rw [if_pos hk]
      exact inv_record hreturn _
    · rw [if_neg hk]
      by_cases hkl : s.killed p
      · rw [if_pos hkl]; exact hreturn
      · rw [if_neg hkl]
        refine inv_keep h hl rfl nofun hnw hok fun q e => ?_
        exact (hloc q (by have := q.isLt; omega) e).1

end
end Xv6.Proc
