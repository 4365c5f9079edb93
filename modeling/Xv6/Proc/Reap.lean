import Mathlib.Data.Fin.VecNotation
import Mathlib.Data.List.Nodup
import Mathlib.Logic.Relation
import Xv6.Proc.Step

/-!
# Exited children are reaped exactly once (`kernel/proc.c`)

`Effect` says what a step can do to the history of exits and reaps: nothing,
or make a process, start its exit, or reap it. `Ghost` ties that history to
the slots of the process table, and `children_reaped` reads the result off
the two invariants. `family_tree`: the parents of a process lead to init.
-/
namespace Xv6.Proc
open Function (update update_eq_self update_of_ne update_self)

section
variable {n : Nat}

/-! ## What a step does to the history -/

/-- The status given to `exit`: carried by the call, then in `p->xstate`. -/
def exitOf (x : Int32) : Pc n → Option Int32
  | .exiting st | .reparent st _ | .reparentWake st _ _ | .wakeParent st _ _ | .zombify st => some st
  | .dead => some x
  | _ => none

/-- The status a process passed to `exit`, once it has called it. -/
def exitStatus (s : Sys n) (q : Fin n) : Option Int32 := exitOf (s.xstate q) (s.pc q)

/-- A process in state `a` is as far in its life in state `b`. -/
def Lives (a b : PState) : Prop := (b = .unused ↔ a = .unused) ∧ (a = .zombie → b = .zombie)

theorem Lives.update {f : Fin n → PState} {c : PState} (h : Lives (f p) c) (q : Fin n) :
    Lives (f q) (update f p c q) := by
  by_cases e : q = p
  · subst e
    simpa using h
  · simp [e, Lives]

/-- A thread that was at `d` and is at `c` after a step is as far in its `exit`, and has begun neither a
`fork` nor, unless the step says so, a `kill`. -/
def Goes (l : Lbl n) (q : Fin n) (d c : Pc n) : Prop :=
  (∀ x, exitOf x c = exitOf x d) ∧ (∀ x, c = .forkParent x → d = .forkParent x) ∧
    ∀ pid j, c = .kill pid j → l = .kill q pid ∨ ∃ j', d = .kill pid j'

theorem Goes.refl (l : Lbl n) (q : Fin n) (c : Pc n) : Goes l q c c :=
  ⟨fun _ => rfl, fun _ => id, fun _ j e => .inr ⟨j, e⟩⟩

/-- The step marks `q` as killed. -/
def Hits (s : Sys n) (l : Lbl n) (q : Fin n) : Prop :=
  (l = .setkilled q ∧ s.state q ≠ .unused) ∨ ∃ p ok, l = .go p ok ∧ s.pc p = .kill (s.pid q) q.1

/-- The slot `q` holds the same process, as far in its life. An empty slot may have been cleared. -/
structure Kept (s : Sys n) (l : Lbl n) (s' : Sys n) (q : Fin n) : Prop where
  lives : Lives (s.state q) (s'.state q)
  status : exitStatus s' q = exitStatus s q
  making : ∀ x, s'.pc q = .forkParent x → s.pc q = .forkParent x
  calling : ∀ pid j, s'.pc q = .kill pid j → l = .kill q pid ∨ ∃ j', s.pc q = .kill pid j'
  pid : s'.pid q = s.pid q ∨ (s.state q = .unused ∧ s'.pid q = 0)
  killed : s'.killed q = s.killed q ∨ (s'.killed q = true ∧ Hits s l q) ∨
    (s.state q = .unused ∧ s'.killed q = false)

theorem Kept.pid_eq (h : Kept s l s' q) (hq : s.state q ≠ .unused) :
    s'.pid q = s.pid q := h.pid.resolve_right fun e => hq e.1

/-- No process is made or freed, and none calls `exit`. -/
structure Neutral (s : Sys n) (l : Lbl n) (s' : Sys n) : Prop where
  initproc : s'.initproc = s.initproc
  gen : s'.gen = s.gen
  forker : s'.forker = s.forker
  nextgen : s'.nextgen = s.nextgen
  slot : ∀ q, Kept s l s' q
  parent : ∀ q, s'.parent q = s.parent q ∨ s'.parent q = some s.initproc ∨
    ∃ p, s.pc p = .forkParent q ∧ s'.parent q = some p
  hist : s'.hist = s.hist ∨ ∃ p, s'.hist = .noKids p :: s.hist ∧ ∀ q, s.parent q ≠ some p

/-- What a step can do, besides. -/
inductive Effect (s : Sys n) (l : Lbl n) (s' : Sys n) : Prop where
  | neutral (h : Neutral s l s')
  | fork (p np : Fin n) (hp : s.pc p = .user) (hnp : s.state np = .unused) (hs : s' = fork s p np)
  | exit (p : Fin n) (st : Int32) (hr : s.state p = .running) (hp : s.pc p = .user)
      (hs : s' = record (goto s p (.exiting st)) (.exited (s.gen p) (s.pid p) st))
  | reap (p x : Fin n) (a i : Nat) (k ok : Bool) (hl : l = .go p ok) (hp : s.pc p = .scan a i k)
      (hx : s.parent x = some p) (hz : s.state x = .zombie)
      (hs : s' = record (goto (unlock (freeproc s x)) p .user) (.reaped p a (s.gen x) (s.pid x) (s.xstate x)))

variable {s s' : Sys n} {l : Lbl n} {p q r : Fin n} {c d : Pc n} {w : Option (Fin n)}
  {ch : Fin n → Option (Chan n)} {st : Fin n → PState} {kl : Fin n → Bool}

section
variable (hp : s.pc p = d) (hg : Goes l p d c)
include hp hg

/-- The thread of `p` goes from `d` to `c`, and the processes live on. -/
theorem Kept.moves (hl : ∀ q, Lives (s.state q) (st q))
    (hk : ∀ q, kl q = s.killed q ∨ kl q = true ∧ Hits s l q) {par : Fin n → Option (Fin n)}
    {hist : List (Event n)} (q : Fin n) :
    Kept s l { s with
      pc := update s.pc p c
      state := st, chan := ch, waitLock := w, killed := kl, parent := par, hist := hist } q := by
  have hgoes : Goes l q (s.pc q) (update s.pc p c q) := by
    by_cases e : q = p
    · subst e
      simpa [hp] using hg
    · simpa [e] using .refl ..
  exact ⟨hl q, hgoes.1 _, hgoes.2.1, hgoes.2.2, .inl rfl, (hk q).imp_right .inl⟩

/-- Only the thread of `p` goes on. -/
theorem Neutral.goes : Neutral s l { s with pc := update s.pc p c, waitLock := w } :=
  ⟨rfl, rfl, rfl, rfl, .moves hp hg (fun _ => ⟨Iff.rfl, id⟩) fun _ => .inl rfl, fun _ => .inl rfl, .inl rfl⟩

/-- A process changes its state besides. -/
theorem Neutral.turns (hl : ∀ q, Lives (s.state q) (st q)) :
    Neutral s l { s with pc := update s.pc p c, state := st, chan := ch, waitLock := w } :=
  ⟨rfl, rfl, rfl, rfl, .moves hp hg hl fun _ => .inl rfl, fun _ => .inl rfl, .inl rfl⟩

end

/-- The threads stay where they are. -/
theorem Neutral.stays (hl : ∀ q, Lives (s.state q) (st q))
    (hk : ∀ q, kl q = s.killed q ∨ kl q = true ∧ Hits s l q) :
    Neutral s l { s with state := st, chan := ch, killed := kl } :=
  ⟨rfl, rfl, rfl, rfl,
    fun q => ⟨hl q, rfl, fun _ => id, fun _ j e => .inr ⟨j, e⟩, .inl rfl, (hk q).imp_right .inl⟩,
    fun _ => .inl rfl, .inl rfl⟩

theorem neutral_wakePass {ch : Option (Chan n)} (hp : s.pc p = d) (hg : Goes l p d c) :
    Neutral s l (goto (wakeOne s p r ch) p c) := by
  unfold wakeOne
  split
  · rename_i h
    exact .turns hp hg (Lives.update (by simp [Lives, h.2.1]))
  · exact .goes hp hg

variable {ok k : Bool} {a i g : Nat} {np : Fin n} {h : List (Event n)}

theorem neutral_killPass {pid : Int32} {j : Nat} (hp : s.pc p = .kill pid j) :
    Neutral s (.go p ok) (killPass s p pid j) := by
  unfold killPass
  split
  · rename_i hj
    split
    · rename_i hpid
      refine ⟨rfl, rfl, rfl, rfl, .moves hp
        (by simp [Goes, exitOf]) (fun q => ?_) (fun q => ?_), fun _ => .inl rfl, .inl rfl⟩
      · by_cases hs : s.state ⟨j, hj⟩ = .sleeping
        · simpa [hs] using Lives.update (f := s.state) (p := ⟨j, hj⟩) (by simp [Lives, hs]) q
        · simp [hs, Lives]
      · by_cases e : q = ⟨j, hj⟩
        · subst e
          exact .inr ⟨update_self .., .inr ⟨p, ok, rfl, hpid ▸ hp⟩⟩
        · exact .inl (update_of_ne e ..)
    · exact .goes hp (by simp [Goes, exitOf])
  · exact .goes hp (by simp [Goes, exitOf])

theorem effect_scanPass (h : Inv s) (ok : Bool) (hp : s.pc p = .scan a i k) :
    Effect s (.go p ok) (scanPass s p a i k ok) := by
  have hreturn : Neutral s (.go p ok) (goto (unlock s) p .user) := .goes hp (by simp [Goes, exitOf])
  unfold scanPass
  split
  · rename_i hi
    split
    · rename_i hx
      split
      · rename_i hz
        split
        · exact .neutral hreturn
        · exact .reap p ⟨i, hi⟩ a i k ok rfl hp hx hz rfl
      · exact .neutral (.goes hp (by simp [Goes, exitOf]))
    · exact .neutral (.goes hp (by simp [Goes, exitOf]))
  · split
    · rename_i hk
      have hloc := h.thread p
      rw [hp] at hloc
      refine .neutral
        { hreturn with slot := fun q => { hreturn.slot q with }, hist := .inr ⟨p, rfl, fun q hq => ?_⟩ }
      simpa [hk] using (hloc q (by omega) hq).2
    · split
      · exact .neutral hreturn
      · exact .neutral (.goes hp (by simp [Goes, exitOf]))

/-- `fork` lets the child run: two threads move. -/
theorem neutral_forkRunnable (h : Inv s) (hp : s.pc p = .forkRunnable np) :
    Neutral s l { s with
      state := update s.state np .runnable
      pc := update (update s.pc np .user) p .user } := by
  have hloc := h.thread p
  have hok := h.ok np
  rw [hp] at hloc
  rw [hloc.1] at hok
  have hused : s.state np = .used := hok
  have hchild : Neutral s l { s with state := update s.state np .runnable, pc := update s.pc np .user } :=
    .turns hloc.1 (by simp [Goes, exitOf]) (Lives.update (by simp [Lives, hused]))
  refine ⟨rfl, rfl, rfl, rfl, fun q => ?_, fun _ => .inl rfl, .inl rfl⟩
  by_cases e : q = p
  · subst e
    exact ⟨(hchild.slot q).lives, by simp [exitStatus, hp, exitOf], by simp, by simp, .inl rfl, .inl rfl⟩
  · have hq := hchild.slot q
    exact ⟨hq.lives, by simpa [exitStatus, e] using hq.status, by simpa [e] using hq.making,
      by simpa [e] using hq.calling, .inl rfl, .inl rfl⟩

theorem neutral_zombify {x : Int32} (hr : s.state p = .running) (hp : s.pc p = .zombify x) :
    Neutral s l (zombify s p x) := by
  refine ⟨rfl, rfl, rfl, rfl, fun q => ?_, fun _ => .inl rfl, .inl rfl⟩
  by_cases e : q = p
  · subst e
    constructor <;> simp [zombify, exitStatus, exitOf, hr, hp, Lives]
  · constructor <;> simp [zombify, exitStatus, e, Lives]
    exact fun _ j e => .inr ⟨j, e⟩

theorem effect_go (h : Inv s) (hr : s.state p = .running) (hs : go s p ok = some s') :
    Effect s (.go p ok) s' := by
  unfold go at hs
  split at hs <;> rename_i hp
  · rename_i np
    obtain ⟨-, ⟨⟩⟩ := Option.ite_none_right_eq_some.1 hs
    refine .neutral ⟨rfl, rfl, rfl, rfl,
      .moves hp (by simp [Goes, exitOf]) (fun _ => ⟨Iff.rfl, id⟩) fun _ => .inl rfl, fun q => ?_, .inl rfl⟩
    by_cases e : q = np
    · subst e
      exact .inr (.inr ⟨p, hp, update_self ..⟩)
    · exact .inl (update_of_ne e ..)
  · cases hs
    exact .neutral (neutral_forkRunnable h hp)
  · obtain ⟨-, ⟨⟩⟩ := Option.ite_none_right_eq_some.1 hs
    exact .neutral (.goes hp (by simp [Goes, exitOf]))
  · cases hs
    unfold reparentPass
    split
    · rename_i i hi
      split
      · refine .neutral ⟨rfl, rfl, rfl, rfl, .moves hp
          (by simp [Goes, exitOf]) (fun _ => ⟨Iff.rfl, id⟩) fun _ => .inl rfl, fun q => ?_, .inl rfl⟩
        by_cases e : q = ⟨i, hi⟩
        · subst e
          exact .inr (.inl (update_self ..))
        · exact .inl (update_of_ne e ..)
      · exact .neutral (.goes hp (by simp [Goes, exitOf]))
    · exact .neutral (.goes hp (by simp [Goes, exitOf]))
  · cases hs
    unfold reparentWakePass
    split
    · exact .neutral (neutral_wakePass hp (by simp [Goes, exitOf]))
    · exact .neutral (.goes hp (by simp [Goes, exitOf]))
  · cases hs
    unfold wakeParentPass
    split
    · exact .neutral (neutral_wakePass hp (by simp [Goes, exitOf]))
    · exact .neutral (.goes hp (by simp [Goes, exitOf]))
  · cases hs
    exact .neutral (neutral_zombify hr hp)
  · obtain ⟨-, ⟨⟩⟩ := Option.ite_none_right_eq_some.1 hs
    exact .neutral (.goes hp (by simp [Goes, exitOf]))
  · cases hs
    exact effect_scanPass h ok hp
  · cases hs
    exact .neutral (.turns hp (by simp [Goes, exitOf]) (Lives.update (by simp [Lives, hr])))
  · cases hs
    exact .neutral (neutral_killPass hp)
  all_goals cases hs

theorem effect_step (h : Inv s) (hs : step s l = some s') : Effect s l s' := by
  unfold step at hs
  split at hs
  · obtain ⟨⟨-, hp, hnp⟩, ⟨⟩⟩ := Option.ite_none_right_eq_some.1 hs
    exact .fork _ _ hp hnp rfl
  · obtain ⟨-, ⟨⟩⟩ := Option.ite_none_right_eq_some.1 hs
    exact .neutral (.stays (fun _ => ⟨Iff.rfl, id⟩) fun _ => .inl rfl)
  · rename_i np
    obtain ⟨⟨-, -, hnp⟩, ⟨⟩⟩ := Option.ite_none_right_eq_some.1 hs
    obtain ⟨hpc, hpar⟩ := h.of_unused hnp
    have hpar' : update s.parent np none = s.parent := by rw [← hpar]; exact update_eq_self ..
    refine .neutral ⟨rfl, rfl, rfl, rfl, fun q => ?_, fun q => .inl (congrFun hpar' q), .inl rfl⟩
    by_cases e : q = np
    · subst e
      constructor <;> simp [freeproc, hnp, hpc, Lives, exitStatus, exitOf]
    · constructor <;> simp [freeproc, e, Lives, exitStatus]
      exact fun _ j e => ⟨j, e⟩
  · obtain ⟨⟨hr, hp, -⟩, ⟨⟩⟩ := Option.ite_none_right_eq_some.1 hs
    exact .exit _ _ hr hp rfl
  · obtain ⟨⟨-, hp⟩, ⟨⟩⟩ := Option.ite_none_right_eq_some.1 hs
    exact .neutral (.goes hp (by simp [Goes, exitOf]))
  · obtain ⟨⟨-, hp⟩, ⟨⟩⟩ := Option.ite_none_right_eq_some.1 hs
    exact .neutral (.goes hp (by simp [Goes, exitOf]))
  · obtain ⟨hr, hs⟩ := Option.ite_none_right_eq_some.1 hs
    exact effect_go h hr hs
  · rename_i p
    obtain ⟨hr, ⟨⟩⟩ := Option.ite_none_right_eq_some.1 hs
    refine .neutral (.turns rfl ?_ (Lives.update (by simp [Lives, hr])))
    cases s.pc p
    case asleep => simp [Goes, exitOf, resume]
    all_goals exact .refl ..
  · obtain ⟨⟨hr, -⟩, ⟨⟩⟩ := Option.ite_none_right_eq_some.1 hs
    exact .neutral (.stays (Lives.update (by simp [Lives, hr])) fun _ => .inl rfl)
  · obtain ⟨⟨hr, -⟩, ⟨⟩⟩ := Option.ite_none_right_eq_some.1 hs
    exact .neutral (.stays (Lives.update (by simp [Lives, hr])) fun _ => .inl rfl)
  · split at hs
    · rename_i hr _
      cases hs
      exact .neutral (.stays (Lives.update (by simp [Lives, hr])) fun _ => .inl rfl)
    · cases hs
  · rename_i p
    obtain ⟨⟨hr, -⟩, ⟨⟩⟩ := Option.ite_none_right_eq_some.1 hs
    refine .neutral (.stays (fun _ => ⟨Iff.rfl, id⟩) fun q => ?_)
    by_cases e : q = p
    · subst e
      exact .inr ⟨update_self .., .inl ⟨rfl, by simp [hr]⟩⟩
    · exact .inl (update_of_ne e ..)

/-! ## The history against the slots -/

/-- The processes that called `exit`, one entry for each call. -/
def exits (h : List (Event n)) : List Nat :=
  h.filterMap fun | .exited g _ _ => some g | _ => none

/-- The processes reaped, one entry for each `wait` that returned one. -/
def reaps (h : List (Event n)) : List Nat :=
  h.filterMap fun | .reaped _ _ g _ _ => some g | _ => none

theorem mem_exits : g ∈ exits h ↔ ∃ pid st, .exited g pid st ∈ h := by
  unfold exits
  rw [List.mem_filterMap]
  constructor
  · intro hg
    obtain ⟨e, he, heq⟩ := hg
    cases e with
    | exited g' pid st => cases heq; exact ⟨pid, st, he⟩
    | _ => cases heq
  · intro hg
    obtain ⟨pid, st, he⟩ := hg
    exact ⟨_, he, rfl⟩

theorem mem_reaps : g ∈ reaps h ↔ ∃ p a pid st, .reaped p a g pid st ∈ h := by
  unfold reaps
  rw [List.mem_filterMap]
  constructor
  · intro hg
    obtain ⟨e, he, heq⟩ := hg
    cases e with
    | reaped p a g' pid st => cases heq; exact ⟨p, a, pid, st, he⟩
    | _ => cases heq
  · intro hg
    obtain ⟨p, a, pid, st, he⟩ := hg
    exact ⟨_, he, rfl⟩

structure Ghost (s : Sys n) : Prop where
  fresh : ∀ q, s.state q ≠ .unused → s.gen q < s.nextgen
  inj : ∀ q r, s.state q ≠ .unused → s.state r ≠ .unused → s.gen q = s.gen r → q = r
  old : ∀ g ∈ exits s.hist, g < s.nextgen
  /-- a process in `exit`, or a zombie, has its exit in the history, not yet
  reaped -/
  exiting : ∀ q st, exitStatus s q = some st → .exited (s.gen q) (s.pid q) st ∈ s.hist ∧
    s.gen q ∉ reaps s.hist
  live : ∀ q, s.state q ≠ .unused → exitStatus s q = none → s.gen q ∉ exits s.hist
  /-- an exit is in the table until it is reaped -/
  kept : ∀ g pid st, .exited g pid st ∈ s.hist → (∃ p a, .reaped p a g pid st ∈ s.hist) ∨
    ∃ q, s.gen q = g ∧ s.pid q = pid ∧ exitStatus s q = some st
  reaped : ∀ p a g pid st, .reaped p a g pid st ∈ s.hist → .exited g pid st ∈ s.hist
  exitOnce : (exits s.hist).Nodup
  reapOnce : (reaps s.hist).Nodup
  forker : ∀ q p, s.parent q = some p → p = s.initproc ∨ s.gen p = s.forker q
  maker : ∀ p q, s.pc p = .forkParent q → s.gen p = s.forker q

theorem Inv.used_of_status (h : Inv s) {st : Int32} (hq : exitStatus s q = some st) :
    s.state q ≠ .unused := by
  intro e
  rw [exitStatus, (h.of_unused e).1] at hq; cases hq

theorem ghost_neutral (h : Inv s) (g : Ghost s) (m : Neutral s l s') : Ghost s' := by
  have hev : ∀ e, (∀ p, e ≠ .noKids p) → (e ∈ s'.hist ↔ e ∈ s.hist) := by
    intro e he
    rcases m.hist with hh | ⟨p, hh, -⟩
    · rw [hh]
    · rw [hh, List.mem_cons]
      exact ⟨fun hm => hm.resolve_left (he p), .inr⟩
  have hex : exits s'.hist = exits s.hist := by
    rcases m.hist with hh | ⟨p, hh, -⟩ <;> rw [hh]
    rfl
  have hre : reaps s'.hist = reaps s.hist := by
    rcases m.hist with hh | ⟨p, hh, -⟩ <;> rw [hh]
    rfl
  have hused : ∀ q, s'.state q ≠ .unused → s.state q ≠ .unused := fun q hq e => hq ((m.slot q).lives.1.2 e)
  constructor
  · intro q hq; rw [m.gen, m.nextgen]; exact g.fresh q (hused q hq)
  · intro q r hq hr; rw [m.gen]; exact g.inj q r (hused q hq) (hused r hr)
  · rw [hex, m.nextgen]; exact g.old
  · intro q st hq
    rw [(m.slot q).status] at hq
    rw [hev _ (by simp), hre, m.gen, (m.slot q).pid_eq (h.used_of_status hq)]
    exact g.exiting q st hq
  · intro q hq hn
    rw [(m.slot q).status] at hn
    rw [hex, m.gen]; exact g.live q (hused q hq) hn
  · intro k pid st he
    rw [hev _ (by simp)] at he
    rcases g.kept k pid st he with ⟨p, a, hr⟩ | ⟨q, h1, h2, h3⟩
    · exact .inl ⟨p, a, (hev _ (by simp)).2 hr⟩
    · exact .inr ⟨q, by rw [m.gen]; exact h1, by rw [(m.slot q).pid_eq (h.used_of_status h3)]; exact h2,
        by rw [(m.slot q).status]; exact h3⟩
  · intro p a k pid st he
    rw [hev _ (by simp)] at he ⊢
    exact g.reaped p a k pid st he
  · rw [hex]; exact g.exitOnce
  · rw [hre]; exact g.reapOnce
  · intro q p hq
    rw [m.initproc, m.gen, m.forker]
    rcases m.parent q with e | e | ⟨r, hr, e⟩
    · rw [e] at hq; exact g.forker q p hq
    · rw [e] at hq; cases hq; exact .inl rfl
    · rw [e] at hq; cases hq; exact .inr (g.maker p q hr)
  · intro p q hp
    rw [m.gen, m.forker]; exact g.maker p q ((m.slot p).making q hp)

theorem ghost_fork (h : Inv s) (g : Ghost s) (hp : s.pc p = .user)
    (hnp : s.state np = .unused) : Ghost (fork s p np) := by
  obtain ⟨hpc, hpar⟩ := h.of_unused hnp
  have hne : p ≠ np := by rintro rfl; cases hp.symm.trans hpc
  have hgen : ∀ {q}, q ≠ np → (fork s p np).gen q = s.gen q := fun e => update_of_ne e ..
  have hgnew : (fork s p np).gen np = s.nextgen := update_self ..
  have hused : ∀ {q}, q ≠ np → (fork s p np).state q ≠ .unused → s.state q ≠ .unused := fun {q} e hq => by
    simpa [fork, e] using hq
  have hstatus : ∀ q, exitStatus (fork s p np) q = exitStatus s q := by
    intro q
    by_cases e1 : q = p
    · simp [e1, exitStatus, fork, hp, exitOf]
    · by_cases e2 : q = np
      · simp [e2, exitStatus, fork, hpc, exitOf, hne.symm]
      · simp [exitStatus, fork, e1, e2]
  have hneN : ∀ {q st}, exitStatus s q = some st → q ≠ np := by
    rintro q st hq rfl
    rw [exitStatus, hpc] at hq; cases hq
  have hlt : ∀ {q}, q ≠ np → (fork s p np).state q ≠ .unused →
      (fork s p np).gen q < s.nextgen := fun {q} e hq => by
    rw [hgen e]
    exact g.fresh q (hused e hq)
  refine { g with
    fresh := fun q hq => ?_
    inj := fun q r hq hr he => ?_
    old := fun k hk => Nat.lt_succ_of_lt (g.old k hk)
    exiting := fun q st hq => ?_
    live := fun q hq hn => ?_
    kept := fun k pid st he => ?_
    forker := fun q r hq => ?_
    maker := fun r q hr => ?_ }
  · by_cases e : q = np
    · rw [e, hgnew]
      exact Nat.lt_succ_self _
    · exact Nat.lt_succ_of_lt (hlt e hq)
  · by_cases e1 : q = np <;> by_cases e2 : r = np
    · rw [e1, e2]
    · exact absurd (he ▸ e1 ▸ hgnew) (hlt e2 hr).ne
    · exact absurd (he.trans (e2 ▸ hgnew)) (hlt e1 hq).ne
    · rw [hgen e1, hgen e2] at he
      exact g.inj q r (hused e1 hq) (hused e2 hr) he
  · rw [hstatus] at hq
    have e := hneN hq
    rw [hgen e, show (fork s p np).pid q = s.pid q from update_of_ne e ..]
    exact g.exiting q st hq
  · rw [hstatus] at hn
    by_cases e : q = np
    · rw [e, hgnew]
      exact fun hm => Nat.lt_irrefl _ (g.old _ hm)
    · rw [hgen e]
      exact g.live q (hused e hq) hn
  · refine (g.kept k pid st he).imp_right ?_
    rintro ⟨q, h1, h2, h3⟩
    have e := hneN h3
    exact ⟨q, (hgen e).trans h1, (update_of_ne e ..).trans h2, (hstatus q).trans h3⟩
  · have h1 : r ≠ np := by
      rintro rfl
      have := (h.par q r hq).1
      rw [hpc] at this; cases this
    have h2 : q ≠ np := by rintro rfl; cases hpar.symm.trans hq
    simpa [fork, h1, h2] using g.forker q r hq
  · by_cases e : r = p
    · obtain rfl : np = q := by simpa [fork, e] using hr
      simp [fork, e, hne]
    · have e2 : r ≠ np := by rintro rfl; simp [fork, hne.symm] at hr
      have hr : s.pc r = .forkParent q := by simpa [fork, e, e2] using hr
      have hemb := h.makes (p := r) (q := q) (by rw [hr]; exact rfl)
      have h2 : q ≠ np := by rintro rfl; cases hpc.symm.trans hemb
      simpa [fork, e2, h2] using g.maker r q hr

theorem ghost_exit (g : Ghost s) {st : Int32} (hr : s.state p = .running)
    (hp : s.pc p = .user) : Ghost (record (goto s p (.exiting st)) (.exited (s.gen p) (s.pid p) st)) := by
  have hused : s.state p ≠ .unused := by rw [hr]; simp
  have hnew := g.live p hused (by rw [exitStatus, hp]; rfl)
  have hnot : s.gen p ∉ reaps s.hist := by
    intro hm
    obtain ⟨q, a, pid, st', hm⟩ := mem_reaps.1 hm
    exact hnew (mem_exits.2 ⟨pid, st', g.reaped q a _ pid st' hm⟩)
  generalize hs' : record (goto s p (.exiting st)) (.exited (s.gen p) (s.pid p) st) = s'
  have hstp : exitStatus s' p = some st := by simp [← hs', exitStatus, record, goto, exitOf]
  have hsto : ∀ {q}, q ≠ p → exitStatus s' q = exitStatus s q := fun e => by
    simp [← hs', exitStatus, record, goto, e]
  subst hs'
  refine { g with
    old := fun k hk => ?_
    exiting := fun q st' hq => ?_
    live := fun q hq hn => ?_
    kept := fun k pid st' he => ?_
    reaped := fun q a k pid st' he => ?_
    exitOnce := List.nodup_cons.2 ⟨hnew, g.exitOnce⟩
    maker := fun r q hr' => ?_ }
  · exact (List.mem_cons.1 hk).elim (fun e => e ▸ g.fresh p hused) (g.old k)
  · by_cases e : q = p
    · rw [e, hstp] at hq
      cases hq
      rw [e]
      exact ⟨List.mem_cons_self .., hnot⟩
    · rw [hsto e] at hq
      exact (g.exiting q st' hq).imp_left (List.mem_cons_of_mem _)
  · have e : q ≠ p := by rintro rfl; cases hstp.symm.trans hn
    rw [hsto e] at hn
    exact fun hm => (List.mem_cons.1 hm).elim (fun he => e (g.inj q p hq hused he)) (g.live q hq hn)
  · rcases List.mem_cons.1 he with he | he
    · cases he
      exact .inr ⟨p, rfl, rfl, hstp⟩
    · rcases g.kept k pid st' he with ⟨q, a, hr'⟩ | ⟨q, h1, h2, h3⟩
      · exact .inl ⟨q, a, List.mem_cons_of_mem _ hr'⟩
      · have e : q ≠ p := by rintro rfl; rw [exitStatus, hp] at h3; cases h3
        exact .inr ⟨q, h1, h2, (hsto e).trans h3⟩
  · exact List.mem_cons_of_mem _ (g.reaped q a k pid st' ((List.mem_cons.1 he).resolve_left (by simp)))
  · have e : r ≠ p := by rintro rfl; simp [record, goto] at hr'
    exact g.maker r q (by simpa [record, goto, e] using hr')

theorem ghost_reap (h : Inv s) (g : Ghost s) {x : Fin n}
    (hp : s.pc p = .scan a i k) (hz : s.state x = .zombie) :
    Ghost (record (goto (unlock (freeproc s x)) p .user) (.reaped p a (s.gen x) (s.pid x) (s.xstate x))) := by
  have hxd := (h.zombie_iff x).1 hz
  have hne : x ≠ p := by rintro rfl; cases hp.symm.trans hxd
  have hxs : exitStatus s x = some (s.xstate x) := by rw [exitStatus, hxd]; rfl
  have hused : s.state x ≠ .unused := by rw [hz]; simp
  obtain ⟨hin, hnot⟩ := g.exiting x _ hxs
  generalize hs' : record (goto (unlock (freeproc s x)) p .user)
    (.reaped p a (s.gen x) (s.pid x) (s.xstate x)) = s'
  have hpid : ∀ {q}, q ≠ x → s'.pid q = s.pid q := fun e => by rw [← hs']; exact update_of_ne e ..
  have hstat : ∀ {q}, q ≠ x → exitStatus s' q = exitStatus s q := by
    intro q e
    by_cases e1 : q = p
    · simp [← hs', exitStatus, record, goto, unlock, freeproc, e1, hp, exitOf]
    · simp [← hs', exitStatus, record, goto, unlock, freeproc, e1, e]
  have hnone : exitStatus s' x =
      none := by simp [← hs', exitStatus, record, goto, unlock, freeproc, hne, exitOf]
  have hlive : ∀ {q}, s'.state q ≠ .unused → q ≠ x ∧ s.state q ≠ .unused := by
    intro q hq
    by_cases e : q = x
    · simp [← hs', e, record, goto, unlock, freeproc] at hq
    · exact ⟨e, by simpa [← hs', record, goto, unlock, freeproc, e] using hq⟩
  subst hs'
  refine { g with
    fresh := fun q hq => g.fresh q (hlive hq).2
    inj := fun q r hq hr => g.inj q r (hlive hq).2 (hlive hr).2
    exiting := fun q st hq => ?_
    live := fun q hq hn => ?_
    kept := fun j pid st he => ?_
    reaped := fun q b j pid st he => ?_
    reapOnce := List.nodup_cons.2 ⟨hnot, g.reapOnce⟩
    forker := fun q r hq => ?_
    maker := fun r q hr => ?_ }
  · have e : q ≠ x := by rintro rfl; cases hnone.symm.trans hq
    rw [hstat e] at hq
    obtain ⟨h1, h2⟩ := g.exiting q st hq
    rw [hpid e]
    refine ⟨List.mem_cons_of_mem _ h1, fun hm => ?_⟩
    exact (List.mem_cons.1 hm).elim (fun he => e (g.inj q x (h.used_of_status hq) hused he)) h2
  · obtain ⟨e, hq⟩ := hlive hq
    exact g.live q hq ((hstat e).symm.trans hn)
  · have he : Event.exited j pid st ∈ s.hist := (List.mem_cons.1 he).resolve_left (by simp)
    rcases g.kept j pid st he with ⟨q, b, hr⟩ | ⟨q, h1, h2, h3⟩
    · exact .inl ⟨q, b, List.mem_cons_of_mem _ hr⟩
    · by_cases e : q = x
      · subst e
        cases hxs.symm.trans h3
        rw [← h1, ← h2]
        exact .inl ⟨p, a, List.mem_cons_self ..⟩
      · exact .inr ⟨q, h1, (hpid e).trans h2, (hstat e).trans h3⟩
  · refine List.mem_cons_of_mem _ ?_
    rcases List.mem_cons.1 he with he | he
    · cases he; exact hin
    · exact g.reaped q b j pid st he
  · have e : q ≠ x := by rintro rfl; simp [record, goto, unlock, freeproc] at hq
    exact g.forker q r (by simpa [record, goto, unlock, freeproc, e] using hq)
  · have h1 : r ≠ p := by rintro rfl; simp [record, goto] at hr
    have h2 : r ≠ x := by rintro rfl; simp [record, goto, unlock, freeproc, h1] at hr
    exact g.maker r q (by simpa [record, goto, unlock, freeproc, h1, h2] using hr)

theorem ghost_step (h : Inv s) (g : Ghost s) (hs : step s l = some s') : Ghost s' := by
  cases effect_step h hs with
  | neutral m => exact ghost_neutral h g m
  | fork p np hp hnp e => rw [e]; exact ghost_fork h g hp hnp
  | exit p st hr hp e => rw [e]; exact ghost_exit g hr hp
  | reap p x a i k ok _ hp _ hz e => rw [e]; exact ghost_reap h g hp hz

theorem ghost_init (hs : Init s) : Ghost s := by
  obtain ⟨i1, i2, i3, i4, i5⟩ := hs.init
  have honly : ∀ q, s.state q ≠ .unused → q = s.initproc := fun q hq =>
    by_contra fun e => hq (hs.rest q e).1
  have hslot : ∀ q, (s.pc q = .user ∨ s.pc q = .unused) ∧ s.parent q = none := by
    intro q
    by_cases e : q = s.initproc
    · rw [e]; exact ⟨.inl i2, i3⟩
    · exact ⟨.inr (hs.rest q e).2.1, (hs.rest q e).2.2⟩
  have hnone : ∀ q, exitStatus s q = none := by
    intro q
    rcases (hslot q).1 with e | e <;> rw [exitStatus, e] <;> rfl
  constructor
  · intro q hq
    rw [honly q hq, i5, hs.gen]; exact Nat.one_pos
  · intro q r hq hr _
    rw [honly q hq, honly r hr]
  · simp [hs.hist, exits]
  · simp [hnone]
  · simp [hs.hist, exits]
  · simp [hs.hist]
  · simp [hs.hist]
  · simp [hs.hist, exits]
  · simp [hs.hist, reaps]
  · simp [hslot]
  · intro p q hp
    rcases (hslot p).1 with e | e <;> rw [e] at hp <;> cases hp

theorem ghost_reachable (h : (lts n).Reachable s) : Ghost s := by
  have hboth : (lts n).Inductive fun s => Inv s ∧ Ghost s :=
    ⟨fun _ hs => ⟨inv_init hs, ghost_init hs⟩, fun _ _ _ hi hs => ⟨inv_step hi.1 hs, ghost_step hi.1 hi.2 hs⟩⟩
  exact (hboth.reachable h).2

/-! ## The family over every interleaving -/

/-- After a step from a state with the invariants, a zombie is still there,
with its pid and status and the parent it had or init, or the step was the
one in which its parent's `wait` returned its pid and status. -/
theorem zombie_step (h : Inv s) (g : Ghost s) (hs : step s l = some s')
    (hq : s.state q = .zombie) :
    (s'.state q = .zombie ∧ s'.gen q = s.gen q ∧ s'.pid q = s.pid q ∧ s'.xstate q = s.xstate q ∧
      (s'.parent q = s.parent q ∨ s'.parent q = some s.initproc) ∧ s'.gen q ∉ reaps s'.hist) ∨
    ∃ p a ok, l = .go p ok ∧ s.parent q = some p ∧ (p = s.initproc ∨ s.gen p = s.forker q) ∧
      s'.state q = .unused ∧ s'.hist = .reaped p a (s.gen q) (s.pid q) (s.xstate q) :: s.hist := by
  have h' := inv_step h hs
  have g' := ghost_step h g hs
  have hd := (h.zombie_iff q).1 hq
  have hnot : s'.state q = .zombie → s'.gen q ∉ reaps s'.hist := fun hz =>
    (g'.exiting q (s'.xstate q) (by rw [exitStatus, (h'.zombie_iff q).1 hz]; rfl)).2
  cases effect_step h hs with
  | neutral m =>
    have hz' := (m.slot q).lives.2 hq
    have hst := (m.slot q).status
    rw [exitStatus, exitStatus, hd, (h'.zombie_iff q).1 hz'] at hst
    refine .inl ⟨hz', by rw [m.gen], (m.slot q).pid_eq (by rw [hq]; simp), Option.some.inj hst, ?_, hnot hz'⟩
    rcases m.parent q with e | e | ⟨p, hp, -⟩
    · exact .inl e
    · exact .inr e
    · have hemb := h.makes (p := p) (q := q) (by rw [hp]; exact rfl)
      rw [hd] at hemb; cases hemb
  | fork p np hp hnp e =>
    have hne : q ≠ np := by rintro rfl; cases hnp.symm.trans hq
    subst e
    have hz' : (fork s p np).state q = .zombie := (update_of_ne hne ..).trans hq
    exact .inl ⟨hz', update_of_ne hne .., update_of_ne hne .., rfl, .inl rfl, hnot hz'⟩
  | exit p st hr hp e =>
    subst e
    exact .inl ⟨hq, rfl, rfl, rfl, .inl rfl, hnot hq⟩
  | reap p x a i k ok hl hp hx hz e =>
    subst e
    by_cases hqx : q = x
    · rw [hqx]
      exact .inr ⟨p, a, ok, hl, hx, g.forker x p hx, update_self .., rfl⟩
    · have hz' : (freeproc s x).state q = .zombie := (update_of_ne hqx ..).trans hq
      exact .inl ⟨hz', rfl, update_of_ne hqx .., update_of_ne hqx .., .inl (update_of_ne hqx ..), hnot hz'⟩

/-- `wait` gives up for want of children only if there are none. -/
theorem noKids_step (h : Inv s) (hs : step s l = some s')
    (hp : s'.hist = .noKids p :: s.hist) (q : Fin n) : s.parent q ≠ some p := by
  cases effect_step h hs with
  | neutral m =>
    rcases m.hist with hh | ⟨r, hh, hno⟩
    · rw [hh] at hp
      exact absurd hp (List.cons_ne_self _ _).symm
    · rw [hh] at hp
      cases hp
      exact hno q
  | fork r np _ _ e => rw [e] at hp; exact absurd hp (List.cons_ne_self _ _).symm
  | exit _ _ _ _ e | reap _ _ _ _ _ _ _ _ _ _ e => rw [e] at hp; cases hp

/-- Over every interleaving: every process out of `fork` has a living parent;
nobody blocked in `wait` has a zombie child while `wait_lock` is free; a
zombie stays until its parent's `wait` returns it, with the status it passed
to `exit`; exits and reaps match one to one; and `wait` gives up only without
children. -/
theorem children_reaped {s : Sys n} (hr : (lts n).Reachable s) :
    (∀ q, s.state q ≠ .unused → s.state q ≠ .used → q ≠ s.initproc →
      ∃ p, s.parent q = some p ∧ s.state p ≠ .unused ∧ s.state p ≠ .zombie) ∧
    (s.waitLock = none → ∀ p, s.state p = .sleeping → s.chan p = some (.proc p) →
      ∀ q, s.parent q = some p → s.state q ≠ .zombie) ∧
    (∀ q, s.state q = .zombie →
      .exited (s.gen q) (s.pid q) (s.xstate q) ∈ s.hist ∧ s.gen q ∉ reaps s.hist ∧
      ∀ l s', step s l = some s' →
        (s'.state q = .zombie ∧ s'.gen q = s.gen q ∧ s'.pid q = s.pid q ∧ s'.xstate q = s.xstate q ∧
          (s'.parent q = s.parent q ∨ s'.parent q = some s.initproc) ∧ s'.gen q ∉ reaps s'.hist) ∨
        ∃ p a ok, l = .go p ok ∧ s.parent q = some p ∧ (p = s.initproc ∨ s.gen p = s.forker q) ∧
          s'.state q = .unused ∧ s'.hist = .reaped p a (s.gen q) (s.pid q) (s.xstate q) :: s.hist) ∧
    ((exits s.hist).Nodup ∧ (reaps s.hist).Nodup ∧
      (∀ p a g pid st, .reaped p a g pid st ∈ s.hist → .exited g pid st ∈ s.hist) ∧
      ∀ g pid st, .exited g pid st ∈ s.hist → (∃ p a, .reaped p a g pid st ∈ s.hist) ∨
        ∃ q, s.gen q = g ∧ s.pid q = pid ∧ exitStatus s q = some st) ∧
    (∀ l s' p, step s l = some s' → s'.hist = .noKids p :: s.hist → ∀ q, s.parent q ≠ some p) := by
  have h := inv_reachable hr
  have g := ghost_reachable hr
  refine ⟨fun q h1 h2 h3 => ?_, fun hl p h1 h2 q hq hz => ?_, fun q hq => ?_,
    ⟨g.exitOnce, g.reapOnce, g.reaped, g.kept⟩, fun l s' p hs hp q => noKids_step h hs hp q⟩
  · have hok := h.ok q
    cases hp : s.parent q with
    | none =>
      rcases h.nopar q hp with e | e | e
      · rw [e] at hok; exact absurd hok h1
      · rw [e] at hok; exact absurd hok h2
      · exact absurd e h3
    | some p =>
      have ha := (h.par q p hp).1
      refine ⟨p, rfl, fun e => ?_, fun e => ?_⟩
      · rw [(h.of_unused e).1] at ha; cases ha
      · rw [(h.zombie_iff p).1 e] at ha; cases ha
  · have hw : ∀ x st i j, s.pc x ≠ .reparentWake st i j := by
      intro x st i j e
      have := h.unlocked hl x
      rw [e] at this; cases this
    exact h.no_pending hw ⟨h1, h2⟩ hq ((h.zombie_iff q).1 hz)
  · have hst : exitStatus s q = some (s.xstate q) := by rw [exitStatus, (h.zombie_iff q).1 hq]; rfl
    obtain ⟨h1, h2⟩ := g.exiting q _ hst
    exact ⟨h1, h2, fun l s' hs => zombie_step h g hs hq⟩

/-! ## The family is a tree -/

/-- A process is younger than the one that forked it. -/
def Younger (s : Sys n) : Prop := ∀ q, s.state q ≠ .unused → q = s.initproc ∨ s.forker q < s.gen q

theorem younger_step (h : Inv s) (g : Ghost s) (hy : Younger s) (hs : step s l = some s') : Younger s' := by
  intro q hq
  cases effect_step h hs with
  | neutral m =>
    rw [m.initproc, m.forker, m.gen]
    exact hy q fun e => hq ((m.slot q).lives.1.2 e)
  | fork p np hp hnp e =>
    subst e
    by_cases e : q = np
    · have hlive : s.state p ≠ .unused := fun hu => by cases hp.symm.trans (h.of_unused hu).1
      exact .inr (by simpa [fork, e] using g.fresh p hlive)
    · simpa [fork, e] using hy q (by simpa [fork, e] using hq)
  | exit p st _ _ e =>
    subst e
    exact hy q hq
  | reap p x a i k ok _ _ _ _ e =>
    subst e
    exact hy q fun hu => hq (by by_cases e : q = x <;> simp [record, goto, unlock, freeproc, e, hu])

theorem younger_reachable (hr : (lts n).Reachable s) : Younger s := by
  have hall : (lts n).Inductive fun s => Inv s ∧ Ghost s ∧ Younger s :=
    ⟨fun s hs => ⟨inv_init hs, ghost_init hs, fun q hq => .inl (by_contra fun e => hq (hs.rest q e).1)⟩,
      fun _ _ _ hi hs => ⟨inv_step hi.1 hs, ghost_step hi.1 hi.2.1 hs, younger_step hi.1 hi.2.1 hi.2.2 hs⟩⟩
  exact (hall.reachable hr).2.2

/-- In every reachable state the parents of a process that is out of `fork` lead to init, so that nobody is an
ancestor of its own. -/
theorem family_tree (hr : (lts n).Reachable s) (h1 : s.state q ≠ .unused) (h2 : s.state q ≠ .used) :
    Relation.ReflTransGen (fun a b => s.parent a = some b) q s.initproc := by
  have h := inv_reachable hr
  have hok := h.ok q
  have hpc : s.pc q ≠ .unused ∧ s.pc q ≠ .embryo :=
    ⟨fun e => h1 (by rwa [e] at hok), fun e => h2 (by rwa [e] at hok)⟩
  clear h1 h2 hok
  -- a parent that is not init is the one that forked, which is older
  induction hk : s.gen q using Nat.strong_induction_on generalizing q with
  | _ k ih =>
    by_cases e : q = s.initproc
    · rw [e]
    cases hp : s.parent q with
    | none => exact ((h.nopar q hp).elim hpc.1 fun e' => e'.elim hpc.2 e).elim
    | some p =>
      have ha : ∀ c, Alive c = false → s.pc p ≠ c := fun c hc e => by
        rw [← e, (h.par q p hp).1] at hc; cases hc
      rcases (ghost_reachable hr).forker q p hp with rfl | hg
      · exact .single hp
      · have hy := (younger_reachable hr q fun hu => hpc.1 (h.of_unused hu).1).resolve_left e
        exact .head hp (ih _ (by omega) ⟨ha _ rfl, ha _ rfl⟩ rfl)

end

/-- Init in slot 0 of a table with two slots. -/
def boot : Sys 2 where
  state := ![.runnable, .unused]
  chan _ := none
  killed _ := false
  xstate _ := 0
  pid := ![1, 0]
  parent _ := none
  pc := ![.user, .unused]
  waitLock := none
  nextpid := 2
  initproc := 0
  gen _ := 0
  forker _ := 0
  nextgen := 1
  hist := []

/-- Init forks and sleeps in `wait`; the child calls `exit(7)` and becomes a
zombie. -/
def childExits : List (Lbl 2) :=
  [.run 0, .fork 0 1, .go 0 true, .go 0 true, .wait 0 0, .go 0 true, .go 0 true, .go 0 true,
    .go 0 true, .go 0 true, .run 1, .exit 1 7] ++ List.replicate 8 (.go 1 true)

def afterExit : Sys 2 := (childExits.foldlM step boot).getD boot

theorem childExits_run : (lts 2).Run boot childExits afterExit := by
  have hsome : (childExits.foldlM step boot).isSome := by decide
  obtain ⟨t, ht⟩ := Option.isSome_iff_exists.1 hsome
  refine .of_foldlM (fun _ _ _ => id) ?_
  rw [afterExit, ht]; rfl

/-- The child of that run is a zombie with its exit in the history, and only
init, woken, can reap it. -/
theorem children_reaped_childExits : (lts 2).Reachable afterExit ∧ afterExit.state 1 = .zombie ∧
    .exited 1 2 7 ∈ afterExit.hist ∧ ∀ l s', step afterExit l = some s' → s'.state 1 = .zombie ∨
      ∃ a, s'.state 1 = .unused ∧ s'.hist = .reaped 0 a 1 2 7 :: afterExit.hist := by
  have hreach : (lts 2).Reachable afterExit :=
    ⟨boot, childExits, ⟨by decide, by decide, rfl, rfl, rfl⟩, childExits_run⟩
  have hz : afterExit.state 1 = .zombie := by decide
  have hslot : afterExit.gen 1 = 1 ∧ afterExit.pid 1 = 2 ∧ afterExit.xstate 1 = 7 ∧
      afterExit.parent 1 = some 0 := by
    decide
  obtain ⟨g1, g2, g3, g4⟩ := hslot
  obtain ⟨-, -, hzombie, -⟩ := children_reaped hreach
  obtain ⟨hex, -, hstep⟩ := hzombie 1 hz
  rw [g1, g2, g3] at hex
  refine ⟨hreach, hz, hex, fun l s' h => ?_⟩
  rcases hstep l s' h with h1 | ⟨p, a, ok, -, hp, -, h2, h3⟩
  · exact .inl h1.1
  · rw [g4] at hp
    rw [g1, g2, g3] at h3
    cases hp
    exact .inr ⟨a, h2, h3⟩

theorem family_tree_childExits : afterExit.state 1 = .zombie ∧
    Relation.ReflTransGen (fun a b => afterExit.parent a = some b) 1 afterExit.initproc :=
  ⟨by decide, family_tree ⟨boot, childExits, ⟨by decide, by decide, rfl, rfl, rfl⟩, childExits_run⟩
    (by decide) (by decide)⟩

end Xv6.Proc
