import Xv6.Sched.Depth

/-!
# A process runs on at most one CPU

`SleepInv` follows the locks of the processes that call `sleep(chan, lk)`
with no lock besides `lk`; for them `sched` takes none of its panics
(`calm_step`).

* `one_cpu`: while `p->lock` is free, `p` is `RUNNING` if and only if one CPU
  has it in `c->proc`, and no other CPU does; the lock is held across
  `swtch`; a `ZOMBIE` stays one until its slot is freed; and no CPU panics in
  `sched` if every caller of `sleep` holds only `lk`.
* `lock_order`: `noff` counts the locks of a CPU, and `p->lock` comes after
  `wait_lock` and never twice.
-/
namespace Xv6.Sched
open Function (update update_self update_of_ne)
open Proc (PState Chan)

section
variable {m n : Nat} {s s' : Sys m n} {c c' : Fin m} {p q : Fin n} {k : Pc n}

/-! ## What an action does -/

theorem acquire_cases {l : Lk n} {next : Pc n} (h : acquire s c l next = some s') :
    s.lock l = some c ∧ s' = setCpu s c { s.cpu c with panic := some .acquire } ∨
    s.lock l = none ∧
    s' = goto (setCpu { s with lock := update s.lock l (some c) } c (pushOff (s.cpu c))) c next := by
  unfold acquire at h
  split at h
  · exact .inl ⟨‹_›, (Option.some.inj h).symm⟩
  · split at h
    · exact .inr ⟨‹_›, (Option.some.inj h).symm⟩
    · cases h

theorem popOff_cur (u : Cpu n) : (popOff u).cur = u.cur := by
  unfold popOff
  repeat' split
  all_goals rfl

/-- Where the action leads, if the next call gets the number `id`. -/
def Act.next (id : Nat) : Act n → Option (Pc n)
  | .acquire _ next | .release _ next | .goto next | .set _ _ next | .create _ _ next | .dispatch _ next =>
    some next
  | .undispatch next | .swtchIn _ next | .swtchOut next | .restore _ next | .intr _ next => some next
  | .call next => some (next id)
  | _ => none

/-- The thread on CPU `c` goes to `next`, with `ks`
interrupted; another CPU keeps its thread and gets no lock. -/
structure Went (s s' : Sys m n) (c : Fin m) (next : Pc n) (ks : List (Pc n)) : Prop where
  cpu : ∀ c', c' ≠ c → s'.cpu c' = s.cpu c'
  cur : (s'.cpu c).cur = (s.cpu c).cur
  lock : ∀ c' l, c' ≠ c → s'.lock l = some c' → s.lock l = some c'
  pc : s'.pc = update s.pc (tid s c) next
  saved : s'.saved = update s.saved (tid s c) ks

/-- The action without its effects on `proc` and `calls`. -/
inductive Does (s s' : Sys m n) (c : Fin m) : Act n → Prop
  | panics {a : Act n} (u : Cpu n) (eq : s' = setCpu s c u) (cur : u.cur = (s.cpu c).cur) : Does s s' c a
  | goes {a : Act n} {next : Pc n} (leads : a.next s.calls = some next) (out : ∀ next, a ≠ .swtchOut next)
      (went : Went s s' c next (s.saved (tid s c))) : Does s s' c a
  | create {q : Fin n} {d : PCB n} {next : Pc n} (cpu : s'.cpu = s.cpu) (lock : s'.lock = s.lock)
      (pc : s'.pc = update (update s.pc (.proc q) .born) (tid s c) next)
      (saved : s'.saved = update s.saved (.proc q) []) : Does s s' c (.create q d next)
  | swtchIn {q : Fin n} {next : Pc n} (eq : s' = { s with
      pc := update (update s.pc (.sched c) next) (.proc q) (s.pc (.proc q)).resume
      cpu := update s.cpu c { s.cpu c with cur := some q } }) : Does s s' c (.swtchIn q next)
  | swtchOut {q : Fin n} {next : Pc n} (cur : (s.cpu c).cur = some q) (eq : s' = { s with
      pc := update (update s.pc (.proc q) next) (.sched c) (s.pc (.sched c)).resume
      cpu := update s.cpu c { s.cpu c with cur := none } }) : Does s s' c (.swtchOut next)
  | irq (went : Went s s' c .handler (s.pc (tid s c) :: s.saved (tid s c))) : Does s s' c .irq
  | iret {k : Pc n} {ks : List (Pc n)} (old : s.saved (tid s c) = k :: ks) (lock : s'.lock = s.lock)
      (went : Went s s' c k ks) : Does s s' c .iret

variable {ks : List (Pc n)} {a : Act n} {D : Pc n → Option Nat} {id : Nat} {op : Op n} {u : Cpu n} {e : Panic}

theorem goto_went {s1 : Sys m n} {next : Pc n} (hcpu : ∀ c', c' ≠ c → s1.cpu c' = s.cpu c')
    (hcur : (s1.cpu c).cur = (s.cpu c).cur) (hpc : s1.pc = s.pc)
    (hsaved : s1.saved = update s.saved (tid s c) ks)
    (hlock : ∀ c' l, c' ≠ c → s1.lock l = some c' → s.lock l = some c') : Went s (goto s1 c next) c next ks :=
  ⟨hcpu, hcur, hlock, by rw [← hpc, ← tid_congr hcur]; rfl, hsaved⟩

theorem exec_does (he : exec s c a = some s') : Does s s' c a := by
  have hupd : ∀ (u : Cpu n) c', c' ≠ c → update s.cpu c u c' = s.cpu c' := fun u c' e => update_of_ne e _ _
  have hself : ∀ {u : Cpu n}, u.cur = (s.cpu c).cur → (update s.cpu c u c).cur = (s.cpu c).cur := fun hu => by
    rw [update_self, hu]
  have hsaved := (Function.update_eq_self (tid s c) s.saved).symm
  cases a with
  | acquire l next =>
    rcases acquire_cases he with ⟨_, rfl⟩ | ⟨_, rfl⟩
    · exact .panics _ rfl rfl
    · refine .goes rfl (by simp) (goto_went (hupd _) (hself rfl) rfl hsaved fun c' l' e hl => ?_)
      have hl : update s.lock l (some c) l' = some c' := hl
      by_cases el : l' = l
      · exact absurd (by simpa [el] using hl.symm) e
      · simpa [el] using hl
  | release l next =>
    cases he
    unfold release
    split
    · refine .goes rfl (by simp) (goto_went (hupd _) (hself (popOff_cur _)) rfl hsaved fun c' l' _ hl => ?_)
      have hl : update s.lock l none l' = some c' := hl
      by_cases el : l' = l
      · simp [el] at hl
      · simpa [el] using hl
    · exact .panics _ rfl rfl
  | create q d next => cases he; exact .create rfl rfl rfl rfl
  | swtchIn q next => cases he; exact .swtchIn rfl
  | swtchOut next =>
    cases hc : (s.cpu c).cur with
    | none => simp only [exec, hc] at he; cases he
    | some q =>
      simp only [exec, hc, Option.some.injEq] at he
      exact .swtchOut hc he.symm
  | irq => cases he; exact .irq (goto_went (hupd _) (hself rfl) rfl rfl fun _ _ _ hl => hl)
  | iret =>
    unfold exec at he
    simp only at he
    split at he
    · cases he
    · cases he; exact .iret ‹_› rfl (goto_went (hupd _) (hself rfl) rfl rfl fun _ _ _ hl => hl)
  | panic e => cases he; exact .panics _ rfl rfl
  | stuck => cases he
  | goto | set | call =>
    cases he
    exact .goes rfl (by simp) (goto_went (fun _ _ => rfl) rfl rfl hsaved fun _ _ _ hl => hl)
  | _ => cases he; exact .goes rfl (by simp) (goto_went (hupd _) (hself rfl) rfl hsaved fun _ _ _ hl => hl)

/-- Another CPU keeps its thread and gets no lock. -/
structure Elsewhere (s s' : Sys m n) (c : Fin m) : Prop where
  cpu : ∀ c', c' ≠ c → s'.cpu c' = s.cpu c'
  lock : ∀ c' l, c' ≠ c → s'.lock l = some c' → s.lock l = some c'
  pc : ∀ c' p, c' ≠ c → (s.cpu c').cur = some p → s'.pc (.proc p) = s.pc (.proc p)

theorem exec_elsewhere (h : SchedInv D s)
    (hok : a.Ok s (s.cpu c).proc (s.pc (tid s c))) (he : exec s c a = some s') : Elsewhere s s' c := by
  have hupd : ∀ (u : Cpu n) c', c' ≠ c → update s.cpu c u c' = s.cpu c' := fun u c' e => update_of_ne e _ _
  have hother : ∀ {c' p}, c' ≠ c → (s.cpu c').cur = some p → (.proc p : Tid m n) ≠ tid s c := fun hne hc' e =>
    hne (h.uniq _ c _ hc' (tid_proc e.symm))
  have hwent : ∀ {next : Pc n} {ks : List (Pc n)}, Went s s' c next ks → Elsewhere s s' c := fun w =>
    ⟨w.cpu, w.lock, fun c' p hne hc' => by rw [w.pc, update_of_ne (hother hne hc')]⟩
  cases exec_does he with
  | panics u eq _ => rw [eq]; exact ⟨hupd u, fun _ _ _ hl => hl, fun _ _ _ _ => rfl⟩
  | goes _ _ went => exact hwent went
  | @create q _ _ cpu lock pc _ =>
    refine ⟨fun c' _ => by rw [cpu], fun c' l _ hl => by rwa [lock] at hl, fun c' p hne hc' => ?_⟩
    have hq : p ≠ q := fun e => h.off_of_unused hok.2.2.2.1 c' (e ▸ hc')
    rw [pc, update_of_ne (hother hne hc'), update_of_ne fun e => hq (Tid.proc.inj e)]
  | @swtchIn q _ eq =>
    obtain ⟨hk, rfl⟩ := hok
    have hc := h.of_scheduler (by rw [hk]; rfl)
    rw [tid_off hc] at hk
    refine ⟨fun c' e => by rw [eq]; exact hupd _ c' e, fun _ _ _ hl => by rwa [eq] at hl,
      fun c' p e hc' => ?_⟩
    have hne : p ≠ q := fun e => h.switching c q hc (by rw [hk]; rfl) c' (e ▸ hc')
    simp [eq, hne]
  | @swtchOut q _ hc eq =>
    refine ⟨fun c' e => by rw [eq]; exact hupd _ c' e, fun _ _ _ hl => by rwa [eq] at hl,
      fun c' p e hc' => ?_⟩
    have hne : p ≠ q := fun e' => e (h.uniq c' c q (e' ▸ hc') hc)
    simp [eq, hne]
  | irq went | iret _ _ went => exact hwent went

theorem Act.Ok.goes {me : Option (Fin n)} {next : Pc n} (hok : a.Ok s me k)
    (hn : a.next id = some next) (hout : ∀ next, a ≠ .swtchOut next) : Goes k next ∨ k.kind = .scheduler := by
  cases a with
  | acquire l | release l =>
    cases hn
    cases l with
    | proc q => exact .inl hok.1
    | shared l => exact .inl hok.toGoes
  | goto | restore | intr => cases hn; exact .inl hok.toGoes
  | call => cases hn; exact .inl (hok _).toGoes
  | set | create => cases hn; exact .inl hok.1
  | dispatch | swtchIn => exact .inr (by rw [hok.1]; rfl)
  | undispatch => obtain ⟨q, rfl, _⟩ := hok; exact .inr rfl
  | swtchOut next => exact absurd rfl (hout next)
  | _ => cases hn

/-- What a step of CPU `c` does to the process that is then on it. -/
inductive Here (s s' : Sys m n) (c : Fin m) (p : Fin n) : Prop where
  | panic (cur : (s.cpu c).cur = some p) (pc : s'.pc = s.pc) (lock : s'.lock = s.lock)
  | goes (cur : (s.cpu c).cur = some p) (goes : Goes (s.pc (.proc p)) (s'.pc (.proc p)))
  /-- an interrupt comes, or the thread is switched to -/
  | fresh (pc : (s'.pc (.proc p)).leaving = false)
  | iret (noff : (s.cpu c).noff = 0) (lock : s'.lock = s.lock)

theorem Went.here {next : Pc n} (w : Went s s' c next ks) (hc : (s'.cpu c).cur = some p) :
    (s.cpu c).cur = some p ∧ s'.pc (.proc p) = next := by
  have hc : (s.cpu c).cur = some p := w.cur.symm.trans hc
  exact ⟨hc, by rw [w.pc, tid_on hc, update_self]⟩

theorem exec_here (h : SchedInv D s)
    (hok : a.Ok s (s.cpu c).proc (s.pc (tid s c))) (hd : a.Depth D (s.cpu c)) (he : exec s c a = some s')
    (hc : (s'.cpu c).cur = some p) : Here s s' c p := by
  cases exec_does he with
  | panics u eq cur =>
    subst eq
    exact .panic (cur.symm.trans (by simpa [setCpu] using hc)) rfl rfl
  | goes leads out went =>
    obtain ⟨h1, h2⟩ := went.here hc
    rcases hok.goes leads out with hg | hk
    · rw [tid_on h1] at hg
      exact .goes h1 (by rw [h2]; exact hg)
    · cases (h.of_scheduler hk).symm.trans h1
  | create cpu lock pc saved =>
    have h1 : (s.cpu c).cur = some p := by rwa [cpu] at hc
    refine .goes h1 ?_
    rw [pc, tid_on h1, update_self, ← tid_on h1]
    exact hok.1
  | swtchIn eq =>
    obtain ⟨hk, rfl⟩ := hok
    have hnone := h.of_scheduler (by rw [hk]; rfl)
    rw [tid_off hnone] at hk
    obtain ⟨_, _, _, _, _, hform⟩ := (h.off _ (h.switching c _ hnone (by rw [hk]; rfl))).resume
      (h.dispatched c _ hnone hk)
    obtain rfl := by simpa [eq] using hc
    refine .fresh ?_
    rw [eq]
    rcases hform with hf | ⟨f, intena, hf⟩ <;> simp [hf, Pc.leaving]
  | swtchOut _ eq => simp [eq] at hc
  | irq went => exact .fresh (by rw [(went.here hc).2]; rfl)
  | iret old lock went => exact .iret hd lock

/-! ## The locks of a sleeper -/

/-- A process in `Pc.run` calls `sleep(chan, lk)` only with no lock other than `lk`. -/
def SleepsWithLk (s : Sys m n) (l : Lbl m n) : Prop :=
  ∀ chan i, l.op = .sleep chan i → s.pc (tid s l.cpu) = .run →
    ∀ lk, s.lock lk = some l.cpu → lk = .shared (.other i)

structure SleepInv (s : Sys m n) : Prop where
  call : ∀ c p k, (s.cpu c).cur = some p → s.pc (.proc p) = .sleepCall k → k.ret = .run →
    ∀ l, s.lock l = some c → l = .shared k.lk
  locked : ∀ c p k, (s.cpu c).cur = some p → s.pc (.proc p) = .sleepHave k → k.ret = .run →
    ∀ l, s.lock l = some c → l = .shared k.lk ∨ l = .proc p
  released : ∀ c p k, (s.cpu c).cur = some p → s.pc (.proc p) = .sleepSet k ∨
    s.pc (.proc p) = .sched (.sleep k) → k.ret = .run → ∀ l, s.lock l = some c → l = .proc p

variable {l : Lbl m n}

theorem step_exec (h : step s l = some s') :
    exec s l.cpu (code s l.cpu l.op l.ok (s.pc (tid s l.cpu))) = some s' := by
  unfold step at h
  split at h
  · exact h
  · cases h

/-- The thread takes the action of its code, or it is interrupted. -/
theorem step_thread (h : step s l = some s') (hc : (s.cpu l.cpu).cur = some p) :
    exec s l.cpu (threadCode s l.cpu l.op l.ok (s.pc (.proc p))) = some s' ∨ s'.pc (.proc p) = .handler := by
  have he := step_exec h
  rw [tid_on hc] at he
  unfold code at he
  split at he
  · split at he
    · refine .inr ?_
      cases he
      show update s.pc (tid _ l.cpu) _ (.proc p) = _
      rw [tid_congr (s := s) (by show (update s.cpu l.cpu _ l.cpu).cur = _; rw [update_self]),
        tid_on hc, update_self]
    · cases he
  · exact .inl he

/-- The action leads to no place in `sleep` or `sched`. -/
def Act.Settles : Act n → Prop
  | .acquire _ next | .release _ next | .goto next | .intr _ next => next.leaving = false
  | .call next => ∀ id, (next id).leaving = false
  | .panic _ | .stuck => True
  | _ => False

theorem runOp_settles (h : ∀ chan i, op ≠ .sleep chan i) : (runOp s c p op).Settles := by
  have hbase : ∀ {a : Act n}, a.Settles → (atBase (s.cpu c) a).Settles := fun ha => by
    unfold atBase
    split
    · exact ha
    · trivial
  cases op with
  | sleep chan i => exact absurd rfl (h chan i)
  | acquire | release => rfl
  | intr b => exact hbase rfl
  | wakeup chan => exact fun _ => rfl
  | kill | killed | setkilled => rfl
  | fork => exact hbase rfl
  | exit =>
    refine hbase ?_
    split
    · trivial
    · rfl
  | wait => exact hbase rfl
  | yield | irq | iret => trivial

theorem Act.Settles.next {next : Pc n} (ha : a.Settles) (hn : a.next id = some next) :
    next.leaving = false := by
  cases a <;> cases hn <;> first | exact ha | exact ha id | exact ha.elim

theorem exec_settles (ha : a.Settles) (he : exec s c a = some s') (hc : (s.cpu c).cur = some p)
    (hk : (s.pc (.proc p)).leaving = false) : (s'.pc (.proc p)).leaving = false := by
  cases exec_does he with
  | panics u eq _ => rw [eq]; exact hk
  | goes leads _ went =>
    rw [(went.here (went.cur.trans hc)).2]
    exact ha.next leads
  | _ => exact ha.elim

/-- A property of the locks of a process at a place in
`sleep` or `sched`: only the steps to such a place matter. -/
theorem held_step {Q : Fin n → Pc n → Lk n → Prop} (h : SchedInv Pc.depth s) (hs : step s l = some s')
    (hQ : ∀ p k lk, k.leaving = false → Q p k lk)
    (hI : ∀ c p, (s.cpu c).cur = some p → ∀ lk, s.lock lk = some c → Q p (s.pc (.proc p)) lk)
    (hgo : ∀ p, (s.cpu l.cpu).cur = some p → Goes (s.pc (.proc p)) (s'.pc (.proc p)) →
      exec s l.cpu (threadCode s l.cpu l.op l.ok (s.pc (.proc p))) = some s' →
      ∀ lk, s'.lock lk = some l.cpu → Q p (s'.pc (.proc p)) lk)
    (c : Fin m) (p : Fin n) (hc : (s'.cpu c).cur = some p) (lk : Lk n) (hl : s'.lock lk = some c) :
    Q p (s'.pc (.proc p)) lk := by
  have he := step_exec hs
  have hok := code_ok (s := s) (c := l.cpu) (k := s.pc (tid s l.cpu)) l.op l.ok
  by_cases e : c = l.cpu
  · subst e
    cases exec_here h hok (code_depth (h.depth.now l.cpu) l.op l.ok) he hc with
    | panic cur pc lock => rw [lock] at hl; rw [pc]; exact hI _ p cur lk hl
    | goes cur goes =>
      rcases step_thread hs cur with ht | ht
      · exact hgo p cur goes ht lk hl
      · exact hQ _ _ _ (by rw [ht]; rfl)
    | fresh pc => exact hQ _ _ _ pc
    | iret noff lock =>
      rw [lock] at hl
      have := (h.locks.off hl).1
      omega
  · have helse := exec_elsewhere h hok he
    rw [helse.cpu c e] at hc
    rw [helse.pc c p e hc]
    exact hI c p hc lk (helse.lock c lk e hl)

theorem sleepInv_step (h : SchedInv Pc.depth s) (hI : SleepInv s) (hP : SleepsWithLk s l)
    (hs : step s l = some s') : SleepInv s' := by
  have hcode : ∀ {p k}, (s.cpu l.cpu).cur = some p →
    exec s l.cpu (threadCode s l.cpu l.op l.ok (s.pc (.proc p))) = some s' →
      s.pc (.proc p) = k → k.part = .switch → exec s l.cpu (switchCode s l.cpu p k) = some s' := by
    rintro p k cur ht rfl hk
    simpa only [threadCode, hk, (h.onCpu _ p cur).1] using ht
  have hcall := held_step h hs (Q := fun _ pc lk => ∀ k, pc = .sleepCall k → k.ret = .run → lk = .shared k.lk)
    (by rintro p _ lk hk k rfl; cases hk) (fun c p hc lk hl k hp hr => hI.call c p k hc hp hr lk hl)
    fun p cur goes ht lk hl k hp hr => by
      have hrun := (goes.sleepCall k hp).resolve_right (not_not.2 hr)
      rw [hrun] at ht
      simp only [threadCode, Pc.part, (h.onCpu _ p cur).1] at ht
      by_cases hop : ∃ chan i, l.op = .sleep chan i
      · obtain ⟨chan, i, hop⟩ := hop
        have hP := hP chan i hop (by rw [tid_on cur, hrun])
        rw [hop] at ht
        cases ht
        have hp : update s.pc (tid s l.cpu) _ (.proc p) = .sleepCall k := hp
        rw [tid_on cur, update_self] at hp
        cases hp
        exact hP lk hl
      · have := exec_settles (runOp_settles fun chan i e => hop ⟨chan, i, e⟩) ht cur (by rw [hrun]; rfl)
        rw [hp] at this
        cases this
  have hlocked := held_step h hs
    (Q := fun p pc lk => ∀ k, pc = .sleepHave k → k.ret = .run → lk = .shared k.lk ∨ lk = .proc p)
    (by rintro p _ lk hk k rfl; cases hk) (fun c p hc lk hl k hp hr => hI.locked c p k hc hp hr lk hl)
    fun p cur goes ht lk hl k hp hr => by
      have hwas := goes.sleepHave k hp
      rcases acquire_cases (hcode cur ht hwas rfl) with ⟨_, rfl⟩ | ⟨_, rfl⟩
      · cases hwas.symm.trans hp
      · have hl : update s.lock (.proc p) (some l.cpu) lk = some l.cpu := hl
        by_cases el : lk = .proc p
        · exact .inr el
        · exact .inl (hI.call _ p k cur hwas hr lk (by simpa [el] using hl))
  have hreleased := held_step h hs
    (Q := fun p pc lk => ∀ k, pc = .sleepSet k ∨ pc = .sched (.sleep k) → k.ret = .run → lk = .proc p)
    (by rintro p _ lk hk k (rfl | rfl) <;> cases hk)
      (fun c p hc lk hl k hp hr => hI.released c p k hc hp hr lk hl)
    fun p cur goes ht lk hl k hp hr => by
      rcases hp with hp | hp
      · have hwas := goes.sleepSet k hp
        have ht : release s l.cpu (.shared k.lk) (.sleepSet k) = s' := Option.some.inj (hcode cur ht hwas rfl)
        unfold release at ht
        split at ht
        · subst ht
          have hl : update s.lock (.shared k.lk) none lk = some l.cpu := hl
          by_cases el : lk = .shared k.lk
          · simp [el] at hl
          · exact (hI.locked _ p k cur hwas hr lk (by simpa [el] using hl)).resolve_left el
        · subst ht
          cases hwas.symm.trans hp
      · have hwas := goes.sleep k hp
        cases hcode cur ht hwas rfl
        exact hI.released _ p k cur (.inl hwas) hr lk hl
  exact ⟨fun c p k hc hp hr lk hl => hcall c p hc lk hl k hp hr,
    fun c p k hc hp hr lk hl => hlocked c p hc lk hl k hp hr,
    fun c p k hc hp hr lk hl => hreleased c p hc lk hl k hp hr⟩

theorem Init.sleepInv (h : Init s) : SleepInv s :=
  ⟨fun c p k hc => absurd ((h.cur c).symm.trans hc) (by simp),
    fun c p k hc => absurd ((h.cur c).symm.trans hc) (by simp),
    fun c p k hc => absurd ((h.cur c).symm.trans hc) (by simp)⟩

/-! ## `sched` -/

/-- At `sched`, with only `p->lock`: none of its four checks fails. -/
theorem schedCheck_swtch {f : Caller n} (h : SchedInv Pc.depth s) (hI : SleepInv s)
    (hc : (s.cpu c).cur = some p)
    (hp : s.pc (.proc p) = .sched f) : schedCheck s c p f = .goto (.swtch f (s.cpu c).intena) := by
  have hlock : s.lock (.proc p) = some c := by
    rw [h.holds, tid_on hc, hp]
    exact (h.onCpu c p hc).1
  have hnoff : (s.cpu c).noff = 1 := by
    by_cases hr : ∃ k, f = .sleep k ∧ k.ret = .run
    · obtain ⟨k, rfl, hr⟩ := hr
      obtain ⟨F, hF, hcard⟩ := h.locks.count c
      have honly : F = {.proc p} := by
        ext l
        rw [hF, Finset.mem_singleton]
        exact ⟨hI.released c p k hc (.inr hp) hr l, fun e => e ▸ hlock⟩
      rw [hcard, honly, Finset.card_singleton]
    · refine h.depth.now c 1 ?_
      rw [tid_on hc, hp]
      cases f with
      | yield | exit => rfl
      | sleep k => exact if_neg fun e => hr ⟨k, rfl, e⟩
  have hstate : (s.proc p).state ≠ .running := by
    rw [h.on c p hc, hp]
    exact f.state_ne
  have hintr := (h.locks.off hlock).2
  unfold schedCheck
  rw [if_neg (not_not.2 hlock), if_neg (not_not.2 hnoff), if_neg hstate, if_neg (by simp [hintr])]

/-- The four panics of `sched`. -/
def Panic.ofSched : Panic → Bool
  | .schedLock | .schedLocks | .schedRunning | .schedInterruptible => true
  | _ => false

/-- The action is none of them. -/
def Act.Calm : Act n → Prop
  | .panic e => e.ofSched = false
  | _ => True

/-- No place but `sched` may take one of these panics. -/
theorem threadCode_calm (hk : ∀ p f, (s.cpu c).proc = some p → k = .sched f → (schedCheck s c p f).Calm)
    (op : Op n) (ok : Bool) : (threadCode s c op ok k).Calm := by
  unfold threadCode
  split
  · unfold schedulerCode
    split
    · exact visit_of (fun _ => trivial) trivial
    · split <;> trivial
    all_goals trivial
  · cases op with
    | yield =>
      unfold handlerOp
      simp only
      split
      · trivial
      · split
        · exact atBase_of trivial fun _ => trivial
        · trivial
    | iret => exact atBase_of trivial fun _ => trivial
    | _ => trivial
  · unfold wakeupCode
    split
    · refine visit_of (fun _ => ?_) trivial
      split <;> trivial
    · split <;> trivial
    all_goals trivial
  · unfold switchCode
    split
    · trivial
    · trivial
    · exact hk _ _ ‹_› rfl
    all_goals trivial
  · unfold killCode
    split
    · exact visit_of (fun _ => trivial) trivial
    · split <;> trivial
    all_goals trivial
  · unfold forkCode
    split
    · exact visit_of (fun _ => trivial) trivial
    · split <;> trivial
    · split <;> trivial
    all_goals trivial
  · unfold exitCode
    split
    · trivial
    · refine visit_of (fun _ => ?_) trivial
      split <;> trivial
    all_goals trivial
  · unfold waitCode
    split
    · trivial
    · refine visit_of (fun _ => ?_) ?_ <;> split <;> trivial
    · repeat' split
      all_goals trivial
    · trivial
    · split <;> trivial
    all_goals trivial
  · cases op with
    | intr | fork | wait => exact atBase_of trivial fun _ => trivial
    | exit =>
      refine atBase_of trivial fun _ => ?_
      split
      · rfl
      · trivial
    | _ => trivial
  · trivial

theorem popOff_calm (h : (popOff u).panic = some e) : u.panic = some e ∨ e.ofSched = false := by
  unfold popOff at h
  split at h
  · cases h; exact .inr rfl
  · split at h
    · cases h; exact .inr rfl
    · exact .inl h

theorem exec_calm (ha : a.Calm) (he : exec s c a = some s')
    (hp : (s'.cpu c').panic = some e) : (s.cpu c').panic = some e ∨ e.ofSched = false := by
  have hset : ∀ {u : Cpu n}, (update s.cpu c u c').panic = some e →
      (∀ e, u.panic = some e → (s.cpu c).panic = some e ∨ e.ofSched = false) →
      (s.cpu c').panic = some e ∨ e.ofSched = false := by
    intro u h hu
    by_cases hc : c' = c
    · subst hc
      rw [update_self] at h
      exact hu e h
    · rw [update_of_ne hc] at h
      exact .inl h
  cases a with
  | acquire l next =>
    rcases acquire_cases he with ⟨_, rfl⟩ | ⟨_, rfl⟩
    · exact hset hp fun e h => by cases h; exact .inr rfl
    · exact hset hp fun e h => .inl h
  | release l next =>
    cases he
    unfold release at hp
    split at hp
    · exact hset hp fun e h => popOff_calm h
    · exact hset hp fun e h => by cases h; exact .inr rfl
  | swtchOut next =>
    cases hc : (s.cpu c).cur with
    | none => simp only [exec, hc] at he; cases he
    | some q =>
      simp only [exec, hc, Option.some.injEq] at he
      subst he
      exact hset hp fun e h => .inl h
  | iret =>
    unfold exec at he
    simp only at he
    split at he
    · cases he
    · cases he; exact hset hp fun e h => .inl h
  | panic e => cases he; exact hset hp fun e h => by cases h; exact .inr ha
  | stuck => cases he
  | goto | set | create | call => cases he; exact .inl hp
  | _ => cases he; exact hset hp fun e h => .inl h

/-- With `SleepInv`, a step takes none of the panics of `sched`. -/
theorem calm_step (h : SchedInv Pc.depth s) (hI : SleepInv s) (hs : step s l = some s')
    (hp : (s'.cpu c').panic = some e) : (s.cpu c').panic = some e ∨ e.ofSched = false := by
  refine exec_calm ?_ (step_exec hs) hp
  unfold code
  split
  · split <;> trivial
  · refine threadCode_calm (fun p f hme hk => ?_) _ _
    have hc := h.me (by rw [hk]; rfl) hme
    rw [tid_on hc] at hk
    rw [schedCheck_swtch h hI hc hk]
    trivial

/-! ## Which CPU runs a process -/

/-- While `p->lock` is free, a CPU with `p` in `c->proc` is on the thread of `p`, which is `RUNNING`. -/
theorem SchedInv.cur_of_proc (h : SchedInv D s) (hfree : s.lock (.proc p) = none)
    (hp : (s.cpu c).proc = some p) : (s.cpu c).cur = some p ∧ (s.proc p).state = .running := by
  have hno : ∀ c, ¬(s.pc (tid s c)).held.is (s.cpu c).proc p := fun c hh => by
    rw [← h.holds, hfree] at hh
    cases hh
  cases hc : (s.cpu c).cur with
  | none =>
    -- then the scheduler is in `swtch`, with the lock
    rw [(h.offCpu c hc).1] at hp
    refine absurd ?_ (hno c)
    rw [tid_off hc]
    cases hk : s.pc (.sched c) with
    | toSwtch | back => rw [hk] at hp; exact Option.some.inj hp
    | _ => rw [hk] at hp; cases hp
  | some p' =>
    rw [(h.onCpu c p' hc).1] at hp
    cases hp
    exact ⟨rfl, Classical.byContradiction fun hs => hno c (h.own_lock hc hs)⟩

theorem SchedInv.running_iff (h : SchedInv D s) (hfree : s.lock (.proc p) = none) :
    (s.proc p).state = .running ↔ ∃! c, (s.cpu c).proc = some p := by
  constructor
  · intro hrun
    rcases h.running p hrun with ⟨c, hc⟩ | ⟨c, hc, hk⟩
    · exact ⟨c, (h.onCpu c p hc).1, fun c' hc' => h.uniq c' c p (h.cur_of_proc hfree hc').1 hc⟩
    · have hheld : s.lock (.proc p) = some c := by
        rw [h.holds, tid_off hc, hk]
        rfl
      rw [hfree] at hheld
      cases hheld
  · rintro ⟨c, hc, _⟩
    exact (h.cur_of_proc hfree hc).2

/-- CPU `c` is about to `swtch` to or from `p`, or has just done so. -/
def Switching (s : Sys m n) (c : Fin m) (p : Fin n) : Prop :=
  match (s.cpu c).cur with
  | none => s.pc (.sched c) = .toSwtch p ∨ s.pc (.sched c) = .back p
  | some p' => p' = p ∧ (s.pc (.proc p) = .forkret ∨
      ∃ f intena, s.pc (.proc p) = .swtch f intena ∨ s.pc (.proc p) = .resumed f intena)

theorem SchedInv.switching_lock (h : SchedInv D s) (hs : Switching s c p) :
    s.lock (.proc p) = some c := by
  rw [h.holds]
  unfold Switching at hs
  split at hs
  · rename_i hc
    rw [tid_off hc]
    rcases hs with hk | hk <;> rw [hk] <;> rfl
  · rename_i p' hc
    obtain ⟨rfl, hs⟩ := hs
    rw [tid_on hc]
    have hme := (h.onCpu c p' hc).1
    rcases hs with hk | ⟨f, intena, hk | hk⟩ <;> rw [hk] <;> exact hme

/-! ## A `ZOMBIE` -/

/-- What a step of CPU `c` does to `proc[p]`. -/
inductive Wrote (s s' : Sys m n) (c : Fin m) (p : Fin n) : Prop where
  | same (eq : s'.proc p = s.proc p)
  | set {next : Pc n} (plain : (s.pc (tid s c)).plain = true) (run : (s.pc (tid s c)).state = .running)
      (cur : (s'.cpu c).cur = (s.cpu c).cur) (ok : SetOk s (s.cpu c).proc (s.pc (tid s c)) p (s'.proc p) next)
  | create (was : (s.proc p).state = .unused) (state : (s'.proc p).state = .used)
  | dispatch (was : (s.proc p).state = .runnable) (state : (s'.proc p).state = .running)

theorem exec_proc (hok : a.Ok s (s.cpu c).proc (s.pc (tid s c))) (he : exec s c a = some s') (p : Fin n) :
    Wrote s s' c p := by
  -- only `proc[q]` is written
  have hupd : ∀ {q : Fin n} {d : PCB n}, s'.proc = update s.proc q d →
    (p = q → s'.proc p = d → Wrote s s' c p) →
      Wrote s s' c p := by
    intro q d e hq
    by_cases hpq : p = q
    · exact hq hpq (by rw [e, hpq, update_self])
    · exact .same (by rw [e, update_of_ne hpq])
  cases a with
  | acquire l next => rcases acquire_cases he with ⟨_, rfl⟩ | ⟨_, rfl⟩ <;> exact .same rfl
  | release l next =>
    cases he
    unfold release
    split <;> exact .same rfl
  | set q d next =>
    obtain ⟨hg, _, hrun, hset⟩ := hok
    cases he
    refine hupd rfl fun e e' => ?_
    subst e
    exact .set hg.plain hrun rfl (by rw [e']; exact hset)
  | create q d next =>
    cases he
    refine hupd rfl fun e e' => .create (e ▸ hok.2.2.2.1) ?_
    rw [e']
    exact hok.2.2.2.2.1
  | dispatch q next =>
    cases he
    refine hupd rfl fun e e' => .dispatch (e ▸ hok.2.2) ?_
    rw [e']
  | swtchOut next =>
    cases hc : (s.cpu c).cur with
    | none => simp only [exec, hc] at he; cases he
    | some q =>
      simp only [exec, hc, Option.some.injEq] at he
      subst he
      exact .same rfl
  | iret =>
    unfold exec at he
    simp only at he
    split at he
    · cases he
    · cases he; exact .same rfl
  | stuck => cases he
  | _ => cases he; exact .same rfl

theorem SchedInv.zombie_set {d : PCB n} {next : Pc n} (h : SchedInv D s)
    (hz : (s.proc p).state = .zombie) (hk : (s.pc (tid s c)).plain = true)
    (hrun : (s.pc (tid s c)).state = .running)
    (hset : SetOk s (s.cpu c).proc (s.pc (tid s c)) p d next) : d.state = .zombie ∨ d.state = .unused := by
  have hchild : (s.pc (tid s c)).child ≠ some p := fun e => by
    obtain ⟨_, p', _, ho⟩ := h.of_child e
    rw [h.child p' p ho] at hz
    cases hz
  cases hset with
  | own self =>
    have hc := h.me hk self
    rw [tid_on hc, ← h.on c p hc, hz] at hrun
    cases hrun
  | keep state => exact .inl (state.trans hz)
  | wake _ was | made _ was => rw [hz] at was; cases was
  | reap held was state => exact .inr state
  | abort _ was | ready _ was => exact absurd was hchild

theorem zombie_step (h : SchedInv Pc.depth s) (hs : step s l = some s') (hz : (s.proc p).state = .zombie) :
    (s'.proc p).state = .zombie ∨ (s'.proc p).state = .unused := by
  rcases exec_proc (code_ok l.op l.ok) (step_exec hs) p with e | ⟨hk, hrun, _, hset⟩ | ⟨was, _⟩ | ⟨was, _⟩
  · exact .inl (by rw [e, hz])
  · exact h.zombie_set hz hk hrun hset
  · rw [hz] at was; cases was
  · rw [hz] at was; cases was

/-- Along a run a `ZOMBIE` stays one, up to a state in which its slot is free. -/
theorem zombie_run {ls : List (Lbl m n)} (hrun : (lts m n).Run s ls s') (h : SchedInv Pc.depth s)
    (hz : (s.proc p).state = .zombie) :
    (s'.proc p).state = .zombie ∨
      ∃ l1 l2 t, ls = l1 ++ l2 ∧ (lts m n).Run s l1 t ∧ (lts m n).Run t l2 s' ∧
      (t.proc p).state = .unused := by
  induction hrun with
  | nil s => exact .inl hz
  | cons hs hrun ih =>
    rcases zombie_step h hs hz with hz' | hu
    · rcases ih (schedInv_step h hs) hz' with hz' | ⟨l1, l2, t, rfl, h1, h2, hu⟩
      · exact .inl hz'
      · exact .inr ⟨_ :: l1, l2, t, rfl, .cons hs h1, h2, hu⟩
    · exact .inr ⟨[_], _, _, rfl, .cons hs (.nil _), hrun, hu⟩

/-! ## The result -/

/-- No CPU has panicked in `sched`. -/
structure CalmInv (s : Sys m n) : Prop where
  sched : SchedInv Pc.depth s
  sleep : SleepInv s
  calm : ∀ c e, (s.cpu c).panic = some e → e.ofSched = false

theorem calmInv_inductive : ((lts m n).only SleepsWithLk).Inductive CalmInv where
  init s h := ⟨h.schedInv, h.sleepInv, fun c e he => by rw [h.panic] at he; cases he⟩
  step s l s' h hs :=
    ⟨schedInv_step h.sched hs.1, sleepInv_step h.sched h.sleep hs.2 hs.1, fun c e he =>
      (calm_step h.sched h.sleep hs.1 he).elim (h.calm c e) id⟩

/-- In every reachable state: which CPU runs a process whose lock is free, who holds the lock across `swtch`,
and what becomes of a `ZOMBIE`. If all callers of `sleep` hold only `lk`, then `sched` does not panic. -/
theorem one_cpu (m n : Nat) :
    (∀ s, (lts m n).Reachable s →
      (∀ p, s.lock (.proc p) = none →
        ((s.proc p).state = .running ↔ ∃! c, (s.cpu c).proc = some p) ∧
        ((s.proc p).state ≠ .running → ∀ c, (s.cpu c).proc ≠ some p)) ∧
      (∀ c p, Switching s c p → s.lock (.proc p) = some c) ∧
      ∀ p ls s', (s.proc p).state = .zombie → (lts m n).Run s ls s' → (s'.proc p).state = .zombie ∨
        ∃ l1 l2 t, ls = l1 ++ l2 ∧ (lts m n).Run s l1 t ∧ (lts m n).Run t l2 s' ∧
        (t.proc p).state = .unused) ∧
    ∀ s, ((lts m n).only SleepsWithLk).Reachable s → ∀ c e, (s.cpu c).panic = some e → e.ofSched = false := by
  refine ⟨fun s hs => ?_, fun s hs => (calmInv_inductive.reachable hs).calm⟩
  have h := schedInv_inductive.reachable hs
  refine ⟨fun p hfree => ⟨h.running_iff hfree, fun hne c hc => hne (h.cur_of_proc hfree hc).2⟩,
    fun c p => h.switching_lock, fun p ls s' hz hrun => zombie_run hrun h hz⟩

/-! ## The order of the locks -/

theorem code_acquire_shared {ok : Bool} {next : Pc n} {l : Shared}
    (h : code s c op ok k = .acquire (.shared l) next) : k.held = .nothing := by
  unfold code at h
  split at h
  · split at h <;> cases h
  · unfold threadCode at h
    generalize (s.cpu c).proc = me at h
    cases k <;> first | rfl | skip
    all_goals
      cases me <;> dsimp only [Pc.part, schedulerCode, wakeupCode, switchCode, killCode,
        forkCode, exitCode, waitCode, schedCheck] at h <;> (repeat' split at h) <;> contradiction

/-- In every reachable state `noff` of a CPU is the number of spinlocks it holds, and interrupts are off while
it holds any. A CPU holds at most one `p->lock`, takes neither `wait_lock` nor another `p->lock` while it
holds one, and releases a `p->lock` only if it holds it. -/
theorem lock_order (hr : (lts m n).Reachable s) (c : Fin m) :
    (∃ F : Finset (Lk n), (∀ l, l ∈ F ↔ s.lock l = some c) ∧ (s.cpu c).noff = F.card) ∧
    (∀ l, s.lock l = some c → (s.cpu c).intr = false) ∧
    (∀ q q', s.lock (.proc q) = some c → s.lock (.proc q') = some c → q = q') ∧
    ∀ op ok next,
      (∀ l, code s c op ok (s.pc (tid s c)) = .acquire l next → l = .shared .wait ∨ (∃ q, l = .proc q) →
        ∀ q, s.lock (.proc q) ≠ some c) ∧
      ∀ q, code s c op ok (s.pc (tid s c)) = .release (.proc q) next → s.lock (.proc q) = some c := by
  have h := schedInv_inductive.reachable hr
  obtain ⟨F, hF, hcard⟩ := h.locks.count c
  refine ⟨⟨F, hF, hcard⟩, fun l hl => ?_, fun q q' hq hq' => ?_,
    fun op ok next => ⟨fun l hl hlk q hq => ?_, fun q hl => ?_⟩⟩
  · by_contra hi
    have h0 := h.locks.intr c (by simpa using hi)
    rw [hcard, Finset.card_eq_zero] at h0
    simpa [h0] using (hF l).2 hl
  · rw [h.holds] at hq hq'
    cases hh : (s.pc (tid s c)).held with
    | nothing => rw [hh] at hq; exact hq.elim
    | own => rw [hh] at hq hq'; exact Option.some.inj (hq.symm.trans hq')
    | of r => rw [hh] at hq hq'; exact hq.symm.trans hq'
  · have hnone : (s.pc (tid s c)).held = .nothing := by
      rcases hlk with rfl | ⟨r, rfl⟩
      · exact code_acquire_shared hl
      · have hok := code_ok (s := s) (c := c) (k := s.pc (tid s c)) op ok
        rw [hl] at hok
        exact hok.2.1
    rw [h.holds, hnone] at hq
    exact hq
  · have hok := code_ok (s := s) (c := c) (k := s.pc (tid s c)) op ok
    rw [hl] at hok
    exact (h.holds c q).2 ((hok.2.1 q).2 rfl)

/-- The state in which the CPUs enter `scheduler()`, with `initproc` in `proc[0]`. -/
def boot (m n : Nat) : Sys m (n + 1) where
  lock _ := none
  cpu _ := ⟨none, 0, false, false, none, none⟩
  pc
    | .sched _ => .loop (n + 1)
    | .proc _ => .born
  saved _ := []
  proc p := if p = 0 then ⟨.runnable, none, false, 1, none⟩ else ⟨.unused, none, false, 0, none⟩
  nextpid := 2
  initproc := 0
  calls := 0

theorem boot_init (m n : Nat) : Init (boot m n) where
  lock _ := rfl
  proc _ := rfl
  noff _ := rfl
  cur _ := rfl
  panic _ := rfl
  intr _ := rfl
  scheduler _ := rfl
  born _ := rfl
  saved _ := rfl
  state p := by
    show (if p = 0 then _ else _ : PCB (n + 1)).state = if p = 0 then _ else _
    split <;> rfl

theorem reachable_of_foldlM {ls : List (Lbl m (n + 1))} {s : Sys m (n + 1)}
    (h : ls.foldlM step (boot m n) = some s) : (lts m (n + 1)).Reachable s :=
  ⟨boot m n, ls, boot_init m n, LTS.Run.of_foldlM (fun _ _ _ h => h) h⟩

/-- CPU 0 picks `initproc`, which goes to user space. -/
theorem one_cpu_boot : ∃ s, (lts 2 2).Reachable s ∧ s.lock (.proc 0) = none ∧ (s.proc 0).state = .running ∧
    ∃! c, (s.cpu c).proc = some 0 := by
  have hrun : ((List.replicate 5 ⟨0, .wait, true⟩).foldlM step (boot 2 1)).map
      (fun s => (s.lock (.proc 0), (s.proc 0).state)) = some (none, .running) := by decide +kernel
  obtain ⟨s, hs, e⟩ := Option.map_eq_some_iff.1 hrun
  simp only [Prod.mk.injEq] at e
  have hr := reachable_of_foldlM hs
  exact ⟨s, hr, e.1, e.2, (((one_cpu 2 2).1 s hr).1 0 e.1).1.1 e.2⟩

/-- CPU 0 has taken the lock of `initproc` to run it. -/
theorem lock_order_boot : ∃ s : Sys 2 2, (lts 2 2).Reachable s ∧ s.lock (.proc 0) = some 0 ∧
    (s.cpu 0).intr = false := by
  have hrun : ((List.replicate 2 ⟨0, .wait, true⟩).foldlM step (boot 2 1)).map (fun s => s.lock (.proc 0)) =
      some (some 0) := by decide +kernel
  obtain ⟨s, hs, e⟩ := Option.map_eq_some_iff.1 hrun
  have hr := reachable_of_foldlM hs
  exact ⟨s, hr, e, (lock_order hr 0).2.1 _ e⟩

end
end Xv6.Sched
