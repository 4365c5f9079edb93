import Xv6.Sched.Inv

/-!
# Every step keeps the invariant of the scheduler

One lemma for each kind of action, from `Act.Ok` and `Act.Depth`.

* `exec_schedInv`: an action that the code takes keeps `SchedInv`.
-/
namespace Xv6.Sched
open Function (update update_self update_of_ne)
open Proc (PState Chan)

section
variable {m n : Nat}

/-- The action leaves `noff` as `D` tells it, and an interrupt comes only if it may. -/
def Act.Depth (D : Pc n → Option Nat) (u : Cpu n) : Act n → Prop
  | .acquire _ next => ∀ d, D next = some d → u.noff + 1 = d
  | .release _ next => ∀ d, D next = some d → u.noff = d + 1
  | .goto next | .set _ _ next | .create _ _ next => ∀ d, D next = some d → u.noff = d
  | .dispatch _ next | .undispatch next | .restore _ next => ∀ d, D next = some d → u.noff = d
  | .intr b next => (b = true → u.noff = 0) ∧ ∀ d, D next = some d → u.noff = d
  | .call next => ∀ id d, D (next id) = some d → u.noff = d
  | .swtchIn _ _ | .swtchOut _ => u.noff = 1
  | .irq => u.intr = true
  | .iret => u.noff = 0
  | .panic _ | .stuck => True

/-- What `D` may say of a thread that starts or goes on after an interrupt or a `swtch`. -/
structure DepthOk (D : Pc n → Option Nat) : Prop where
  handler : D .handler = none
  forkret : ∀ d, D .forkret = some d → d = 1
  resumed : ∀ f intena d, D (.resumed f intena) = some d → d = 1
  back : ∀ q d, D (.back q) = some d → d = 1

variable {D : Pc n → Option Nat} {s s' : Sys m n} {c c' : Fin m} {p q : Fin n}
  {next : Pc n} {ks : List (Pc n)}

theorem update_cpu {u : Cpu n} {β : Type} (f : Cpu n → β) (hu : f u = f (s.cpu c)) (c' : Fin m) :
    f (update s.cpu c u c') = f (s.cpu c') := by
  by_cases e : c' = c <;> simp [e, hu]

/-- Only the thread's place, `noff` and the interrupts change on a CPU. -/
theorem goto_moves (s1 : Sys m n) (hpc : s1.pc = s.pc) (hcur : ∀ c', (s1.cpu c').cur = (s.cpu c').cur)
    (hproc : ∀ c', (s1.cpu c').proc = (s.cpu c').proc) (hsaved : s1.saved = update s.saved (tid s c) ks) :
    Moves s (goto s1 c next) c next ks := by
  refine ⟨?_, hsaved, hcur, hproc⟩
  show update s1.pc (tid s1 c) next = _
  rw [tid_congr (hcur c), hpc]

theorem Writes.along (hp : s'.proc = s.proc) (ha : Along (s.cpu c).proc (s.pc (tid s c)) next) :
    Writes s s' c next (s.saved (tid s c)) where
  proc q := .inl (by rw [hp])
  self p hc h := by rw [hp, h, ha.state]
  chan p call hc e := by
    have hs := ha.state
    rw [ha.sleep call e, e] at hs
    cases hs
  swtch p f intena _ e := ⟨ha.swtch f intena e, hp⟩
  child q x hx hxq := by
    rcases List.mem_cons.1 hx with rfl | hx
    · exact .inl ⟨_, List.mem_cons_self, by rw [← ha.child]; exact hxq⟩
    · exact .inl ⟨x, List.mem_cons_of_mem _ hx, hxq⟩

/-- A step at `RUNNING` that writes nothing to the table. -/
theorem Writes.run (hp : s'.proc = s.proc) (hg : Goes (s.pc (tid s c)) next)
    (hk : (s.pc (tid s c)).state = .running) (hn : next.state = .running)
    (hc : next.child = (s.pc (tid s c)).child) : Writes s s' c next (s.saved (tid s c)) where
  proc q := .inl (by rw [hp])
  self p _ h := by rw [hp, h, hk, hn]
  chan p call _ e := by rw [e] at hn; cases hn
  swtch p f intena _ e := ⟨hg.swtch f intena e, hp⟩
  child q x hx hxq := by
    rcases List.mem_cons.1 hx with rfl | hx
    · exact .inl ⟨_, List.mem_cons_self, by rw [← hc]; exact hxq⟩
    · exact .inl ⟨x, List.mem_cons_of_mem _ hx, hxq⟩

/-- The `p->lock`s are as they were. -/
theorem SchedInv.lock_along (h : SchedInv D s) (hl : ∀ q, s'.lock (.proc q) = s.lock (.proc q))
    (hh : ∀ q, next.held.is (s.cpu c).proc q ↔ (s.pc (tid s c)).held.is (s.cpu c).proc q)
    (q : Fin n) (c' : Fin m) :
    s'.lock (.proc q) = some c' ↔
      if c' = c then next.held.is (s.cpu c).proc q else s.lock (.proc q) = some c' := by
  rw [hl]
  by_cases e : c' = c
  · rw [if_pos e, e, hh, h.holds]
  · rw [if_neg e]

/-! ## Steps that concern one CPU and one process -/

/-- The step concerns the CPU `oc` and the process `oq`, which is on no other CPU. -/
structure Frame (s s' : Sys m n) (oc : Option (Fin m)) (oq : Option (Fin n)) : Prop where
  lock : s'.lock = s.lock
  ssaved : ∀ c, s'.saved (.sched c) = s.saved (.sched c)
  noff : ∀ c, (s'.cpu c).noff = (s.cpu c).noff ∧ (s'.cpu c).intr = (s.cpu c).intr
  state : ∀ q, (s'.proc q).state = (s.proc q).state ∨ (s.proc q).state = .runnable ∧
    (s'.proc q).state = .running
  owns : ∀ p q, Owns s' p q → Owns s p q
  cpu : ∀ c, oc ≠ some c → s'.pc (.sched c) = s.pc (.sched c) ∧ (s'.cpu c).cur = (s.cpu c).cur ∧
    (s'.cpu c).proc = (s.cpu c).proc
  proc : ∀ q, oq ≠ some q → s'.pc (.proc q) = s.pc (.proc q) ∧ s'.saved (.proc q) = s.saved (.proc q) ∧
    s'.proc q = s.proc q
  off : ∀ c q, oc ≠ some c → oq = some q → (s.cpu c).cur ≠ some q

/-- What is to show of the CPU. -/
structure CpuOk (D : Pc n → Option Nat) (s s' : Sys m n) (oq : Option (Fin n)) (c : Fin m) : Prop where
  holds : ∀ q, s'.lock (.proc q) = some c ↔ (s'.pc (tid s' c)).held.is (s'.cpu c).proc q
  on : ∀ p, (s'.cpu c).cur = some p → oq = some p ∧
    (s'.cpu c).proc = some p ∧ s'.pc (.sched c) = .inSwtch p ∧ (s'.pc (.proc p)).plain = true ∧
    (s'.proc p).state = .running ∧ (s'.pc (.proc p)).state = .running
  off : (s'.cpu c).cur = none →
    (s'.cpu c).proc = (s'.pc (.sched c)).runs ∧
    ((s'.pc (.sched c)).plain = true ∨ (s'.pc (.sched c)).runs ≠ none)
  sstack : (s'.pc (.sched c)).kind = (s.pc (.sched c)).kind
  dispatched : ∀ q, s'.pc (.sched c) = .toSwtch q → (s'.proc q).state = .running
  runs : ∀ q, (s'.cpu c).cur = none → (s'.pc (.sched c)).runs = some q → ∀ c', (s'.cpu c').cur ≠ some q
  left : ∀ q, (s.cpu c).cur = some q ∨ s.pc (.sched c) = .toSwtch q → oq = some q
  taken : ∀ c' q, c' ≠ c → (s.cpu c').cur = none → (s.pc (.sched c')).runs = some q → (s'.cpu c).cur ≠ some q
  now : ∀ d, D (s'.pc (tid s' c)) = some d → (s'.cpu c).noff = d

/-- What is to show of the process. -/
structure ProcOk (s s' : Sys m n) (q : Fin n) : Prop where
  stack : Stack .process (some q) (s'.pc (.proc q)) (s'.saved (.proc q))
  off : (∀ c, (s'.cpu c).cur ≠ some q) → Parked (s'.pc (.proc q)) (s'.proc q)
  running : (s'.proc q).state = .running →
    (∃ c, (s'.cpu c).cur = some q) ∨ ∃ c, (s'.cpu c).cur = none ∧ s'.pc (.sched c) = .toSwtch q
  saved : ∀ k ∈ s'.saved (.proc q), k ∈ s.saved (.proc q)

section frame
variable {oc : Option (Fin m)} {oq : Option (Fin n)}

/-- The process on another CPU is another one. -/
theorem Frame.on_other (hf : Frame s s' oc oq) (hc : oc ≠ some c) (hp : (s'.cpu c).cur = some p) :
    (s.cpu c).cur = some p ∧ s'.pc (.proc p) = s.pc (.proc p) ∧ s'.proc p = s.proc p := by
  rw [(hf.cpu c hc).2.1] at hp
  have := hf.proc p fun hq => hf.off c p hc hq hp
  exact ⟨hp, this.1, this.2.2⟩

theorem Frame.top_other (hf : Frame s s' oc oq) (hc : oc ≠ some c) : s'.pc (tid s' c) = s.pc (tid s c) := by
  obtain ⟨hs, hcur, -⟩ := hf.cpu c hc
  cases e : (s'.cpu c).cur with
  | none => rw [tid_off e, tid_off (hcur ▸ e), hs]
  | some p =>
    obtain ⟨e', hp, -⟩ := hf.on_other hc e
    rw [tid_on e, tid_on e', hp]

theorem SchedInv.frame (h : SchedInv D s) (hf : Frame s s' oc oq) (hC : ∀ c, oc = some c → CpuOk D s s' oq c)
    (hQ : ∀ q, oq = some q → ProcOk s s' q) : SchedInv D s' := by
  have hused : ∀ {q}, (s.proc q).state = .used → (s'.proc q).state = .used := fun {q} e =>
    ((hf.state q).resolve_right fun e' => by cases e.symm.trans e'.1).trans e
  constructor
  case holds =>
    intro c q
    by_cases hc : oc = some c
    · exact (hC c hc).holds q
    · rw [hf.top_other hc, hf.lock, (hf.cpu c hc).2.2]
      exact h.holds c q
  case uniq =>
    intro c c' p e e'
    by_cases hc : oc = some c <;> by_cases hc' : oc = some c'
    · exact Option.some.inj (hc.symm.trans hc')
    · exact absurd (hf.on_other hc' e').1 (hf.off c' p hc' ((hC c hc).on p e).1)
    · exact absurd (hf.on_other hc e).1 (hf.off c p hc ((hC c' hc').on p e').1)
    · exact h.uniq c c' p (hf.on_other hc e).1 (hf.on_other hc' e').1
  case onCpu =>
    intro c p e
    by_cases hc : oc = some c
    · obtain ⟨-, h1, h2, h3, -⟩ := (hC c hc).on p e
      exact ⟨h1, h2, h3⟩
    · obtain ⟨e, hp, -⟩ := hf.on_other hc e
      rw [(hf.cpu c hc).2.2, (hf.cpu c hc).1, hp]
      exact h.onCpu c p e
  case offCpu =>
    intro c e
    by_cases hc : oc = some c
    · exact (hC c hc).off e
    · obtain ⟨hs, hcur, hme⟩ := hf.cpu c hc
      rw [hs, hme]
      exact h.offCpu c (hcur ▸ e)
  case stack =>
    intro q
    by_cases hq : oq = some q
    · exact (hQ q hq).stack
    · rw [(hf.proc q hq).1, (hf.proc q hq).2.1]
      exact h.stack q
  case sstack =>
    intro c
    rw [hf.ssaved]
    by_cases hc : oc = some c
    · exact (h.sstack c).go (hC c hc).sstack
    · rw [(hf.cpu c hc).1]
      exact h.sstack c
  case on =>
    intro c p e
    by_cases hc : oc = some c
    · obtain ⟨-, -, -, -, h1, h2⟩ := (hC c hc).on p e
      rw [h1, h2]
    · obtain ⟨e, hp, hd⟩ := hf.on_other hc e
      rw [hp, hd]
      exact h.on c p e
  case chan =>
    intro c p call e hp
    by_cases hc : oc = some c
    · obtain ⟨-, -, -, -, -, hst⟩ := (hC c hc).on p e
      rcases hp with hp | ⟨_, hp⟩ <;> rw [hp] at hst <;> cases hst
    · obtain ⟨e, hpc, hd⟩ := hf.on_other hc e
      rw [hpc] at hp
      rw [hd]
      exact h.chan c p call e hp
  case off =>
    intro q hoff
    by_cases hq : oq = some q
    · exact (hQ q hq).off hoff
    · rw [(hf.proc q hq).1, (hf.proc q hq).2.2]
      refine h.off q fun c e => ?_
      by_cases hc : oc = some c
      · exact hq ((hC c hc).left q (.inl e))
      · exact hoff c ((hf.cpu c hc).2.1.trans e)
  case dispatched =>
    intro c q e hq
    by_cases hc : oc = some c
    · exact (hC c hc).dispatched q hq
    · obtain ⟨hs, hcur, -⟩ := hf.cpu c hc
      have hrun := h.dispatched c q (hcur ▸ e) (hs ▸ hq)
      exact (hf.state q).elim (fun e => e.trans hrun) And.right
  case switching =>
    intro c q e hr c' e'
    by_cases hc : oc = some c
    · exact (hC c hc).runs q e hr c' e'
    · obtain ⟨hs, hcur, -⟩ := hf.cpu c hc
      rw [hcur] at e
      rw [hs] at hr
      by_cases hc' : oc = some c'
      · exact (hC c' hc').taken c q (fun e => hc (e ▸ hc')) e hr e'
      · exact h.switching c q e hr c' (hf.on_other hc' e').1
  case running =>
    intro q hr
    by_cases hq : oq = some q
    · exact (hQ q hq).running hr
    · rw [(hf.proc q hq).2.2] at hr
      have hother : ∀ c, (s.cpu c).cur = some q ∨ s.pc (.sched c) = .toSwtch q → oc ≠ some c := fun c e hc =>
        hq ((hC c hc).left q e)
      refine (h.running q hr).imp (fun ⟨c, e⟩ => ⟨c, ?_⟩) fun ⟨c, e, ek⟩ => ⟨c, ?_⟩
      · rw [(hf.cpu c (hother c (.inl e))).2.1, e]
      · obtain ⟨hs, hcur, -⟩ := hf.cpu c (hother c (.inr ek))
        rw [hs, hcur]
        exact ⟨e, ek⟩
  case child => exact fun p q ho => hused (h.child p q (hf.owns p q ho))
  case owner => exact fun p p' q ho ho' => h.owner p p' q (hf.owns p q ho) (hf.owns p' q ho')
  case locks => exact h.locks.same hf.lock (fun c => (hf.noff c).1) fun c hi => .inl ((hf.noff c).2 ▸ hi)
  case depth =>
    refine ⟨fun c d hd => ?_, fun t k d hk => h.depth.saved t k d ?_⟩
    · by_cases hc : oc = some c
      · exact (hC c hc).now d hd
      · rw [hf.top_other hc] at hd
        exact (hf.noff c).1.trans (h.depth.now c d hd)
    · cases t with
      | sched c => exact hf.ssaved c ▸ hk
      | proc q =>
        by_cases hq : oq = some q
        · exact (hQ q hq).saved k hk
        · exact (hf.proc q hq).2.1 ▸ hk

end frame

/-- A CPU that panics does nothing else. -/
theorem SchedInv.panic (h : SchedInv D s) (e : Panic) :
    SchedInv D (setCpu s c { s.cpu c with panic := some e }) := by
  have hcpu : ∀ {β : Type} (f : Cpu n → β), f { s.cpu c with panic := some e } = f (s.cpu c) →
      ∀ c', f ((setCpu s c { s.cpu c with panic := some e }).cpu c') = f (s.cpu c') := update_cpu
  have hf : Frame s (setCpu s c { s.cpu c with panic := some e }) none none :=
    ⟨rfl, fun _ => rfl, fun c' => ⟨hcpu Cpu.noff rfl c', hcpu Cpu.intr rfl c'⟩,
      fun _ => .inl rfl, fun _ _ => id,
      fun c' _ => ⟨rfl, hcpu Cpu.cur rfl c', hcpu Cpu.proc rfl c'⟩, fun _ _ => ⟨rfl, rfl, rfl⟩, nofun⟩
  exact h.frame hf nofun nofun

/-! ## Steps of one thread -/

/-- A step that leaves the process table and the `p->lock`s alone. -/
theorem SchedInv.along (h : SchedInv D s) (s1 : Sys m n) (ha : Along (s.cpu c).proc (s.pc (tid s c)) next)
    (hpc : s1.pc = s.pc) (hsaved : s1.saved = s.saved) (hproc : s1.proc = s.proc)
    (hlock : ∀ q, s1.lock (.proc q) = s.lock (.proc q)) (hcur : ∀ c', (s1.cpu c').cur = (s.cpu c').cur)
    (hme : ∀ c', (s1.cpu c').proc = (s.cpu c').proc) (hlocks : LockInv s1)
    (hother : ∀ c', c' ≠ c → (s1.cpu c').noff = (s.cpu c').noff)
    (hnow : ∀ d, D next = some d → (s1.cpu c).noff = d) : SchedInv D (goto s1 c next) := by
  have hm : Moves s (goto s1 c next) c next (s.saved (tid s c)) :=
    goto_moves s1 hpc hcur hme (by rw [hsaved, Function.update_eq_self])
  exact h.move ha.plain hm (.along hproc ha) ha.plainNext (h.lock_along hlock ha.held)
    (fun b hs => hs.go ha.kind)
    ⟨hlocks.count, hlocks.intr⟩ (h.depth.move h hm hother hnow fun k hk => .inl hk)

variable {l : Lk n} {me : Option (Fin n)} {k : Pc n} {d : PCB n}

/-- A lock is taken or released. -/
theorem SchedInv.relock (h : SchedInv D s) {u : Cpu n} {v : Option (Fin m)}
    (hlocks : LockInv (setCpu { s with lock := update s.lock l v } c u)) (hcur : u.cur = (s.cpu c).cur)
    (hproc : u.proc = (s.cpu c).proc) (hd : ∀ d, D next = some d → u.noff = d)
    (hok : match l with
      | .shared _ => Along (s.cpu c).proc (s.pc (tid s c)) next
      | .proc q => Goes (s.pc (tid s c)) next ∧ (s.pc (tid s c)).state = .running ∧ next.state = .running ∧
        next.child = (s.pc (tid s c)).child ∧
        (∀ c', v = some c' ↔ if c' = c then next.held.is (s.cpu c).proc q else s.lock (.proc q) = some c') ∧
        ∀ q', q' ≠ q → (next.held.is (s.cpu c).proc q' ↔ (s.pc (tid s c)).held.is (s.cpu c).proc q')) :
    SchedInv D (goto (setCpu { s with lock := update s.lock l v } c u) c next) := by
  have hcur := update_cpu (s := s) Cpu.cur hcur
  have hme := update_cpu (s := s) Cpu.proc hproc
  have hother : ∀ c', c' ≠ c → (update s.cpu c u c').noff = (s.cpu c').noff :=
    fun c' e => by rw [update_of_ne e]
  have hnow : ∀ d, D next = some d → (update s.cpu c u c).noff = d := by rwa [update_self]
  cases l with
  | shared l => exact h.along _ hok rfl rfl rfl (fun q => by simp [setCpu]) hcur hme hlocks hother hnow
  | proc q =>
    obtain ⟨hg, hk, hrun, hchild, hself, hrest⟩ := hok
    have hm : Moves s (goto (setCpu { s with lock := update s.lock (.proc q) v } c u) c next) c next
        (s.saved (tid s c)) :=
      goto_moves _ rfl hcur hme (Function.update_eq_self ..).symm
    refine h.move hg.plain hm (.run rfl hg hk hrun hchild) hg.plainNext (fun q' c' => ?_)
      (fun b hs => hs.go hg.kind)
      ⟨hlocks.count, hlocks.intr⟩ (h.depth.move h hm hother hnow fun k hk => .inl hk)
    show update s.lock (.proc q) v (.proc q') = some c' ↔ _
    by_cases eq : q' = q
    · rw [eq, update_self]
      exact hself c'
    · rw [update_of_ne fun e => eq (Lk.proc.inj e)]
      by_cases e : c' = c
      · rw [if_pos e, e, h.holds, hrest q' eq]
      · rw [if_neg e]

theorem acquire_schedInv (h : SchedInv D s) (hok : (Act.acquire l next).Ok s (s.cpu c).proc (s.pc (tid s c)))
    (hd : (Act.acquire l next).Depth D (s.cpu c)) (he : acquire s c l next = some s') : SchedInv D s' := by
  unfold acquire at he
  split at he
  · cases he
    exact h.panic _
  · split at he
    · rename_i hfree
      cases he
      refine h.relock (h.locks.take hfree rfl (by simp [setCpu, pushOff]) (by simp [setCpu, pushOff])
        fun c' e => by simp [setCpu, update_of_ne e]) rfl rfl hd ?_
      cases l with
      | shared l => exact hok
      | proc q =>
        obtain ⟨hg, hnone, hheld, hchild, hrun⟩ := hok
        refine ⟨hg, ?_, hrun, hchild, fun c' => ?_, fun q' eq => ?_⟩
        · by_contra hk
          rw [Pc.held_of_state hk] at hnone
          cases hnone
        · rw [hheld, hfree]
          by_cases e : c' = c
          · simp [e]
          · simp [e, Ne.symm e]
        · rw [hheld, hnone]
          simp [Held.is, eq]
    · cases he

theorem release_schedInv (h : SchedInv D s) (hok : (Act.release l next).Ok s (s.cpu c).proc (s.pc (tid s c)))
    (hd : (Act.release l next).Depth D (s.cpu c)) : SchedInv D (release s c l next) := by
  unfold release
  split
  · rename_i hheld
    rw [h.locks.popOff hheld]
    generalize hu : ({ s.cpu c with
      noff := (s.cpu c).noff - 1, intr := (s.cpu c).noff = 1 && (s.cpu c).intena } : Cpu n) = u
    have hn : u.noff = (s.cpu c).noff - 1 := by rw [← hu]
    have hi : u.intr = true → u.noff = 0 := fun e => by
      rw [← hu] at e ⊢
      simp only [Bool.and_eq_true, decide_eq_true_eq] at e
      simp [e.1]
    refine h.relock (h.locks.drop hheld rfl (by simp [setCpu, hn]) (by simpa [setCpu] using hi)
      fun c' e => by simp [setCpu, update_of_ne e]) (by rw [← hu]) (by rw [← hu]) (fun d e => ?_) ?_
    · have := hd d e
      omega
    · cases l with
      | shared l => exact hok
      | proc q =>
        obtain ⟨hg, hhas, hnone, hchild, hk, hrun⟩ := hok
        refine ⟨hg, hk, hrun, hchild, fun c' => ?_, fun q' eq => ?_⟩ <;> rw [hnone]
        · rw [hheld]
          by_cases e : c' = c
          · simp [e, Held.is]
          · simp [e, Ne.symm e]
        · rw [hhas]
          simp [Held.is, eq]
  · exact h.panic _

theorem Caller.state_ne (f : Caller n) : f.state ≠ .running := by cases f <;> simp [Caller.state]

/-- Only a process that changes its own state goes on with another state than `RUNNING`. -/
theorem SetOk.next_state (hset : SetOk s me k q d next) :
    next.state = .running ∨
      me = some q ∧ d.state = next.state ∧ ∀ call, next = .sched (.sleep call) → d.chan = some call.chan := by
  cases hset with
  | own self held state chan => exact .inr ⟨self, state, chan⟩
  | _ => exact .inl (by assumption)

theorem SetOk.next_child (hset : SetOk s me k q d next) :
    next.child = k.child ∨ next.child = none ∨
      (s.proc q).state = .unused ∧ d.state = .used ∧ next.child = some q := by
  cases hset with
  | abort _ _ _ child | ready _ _ _ child => exact .inr (.inl child)
  | made held was born state none child => exact .inr (.inr ⟨was, state, child⟩)
  | _ => exact .inl (by assumption)

/-- A `RUNNING` process whose slot is written goes on with the state of the place. -/
theorem SetOk.state_running (hset : SetOk s me k q d next)
    (hst : (s.proc q).state = .running) (hused : k.child = some q → (s.proc q).state = .used) :
    d.state = next.state := by
  cases hset with
  | own self held state => exact state
  | keep state chan child run => rw [state, hst, run]
  | wake _ was | reap _ was | made _ was => rw [hst] at was; cases was
  | abort _ was | ready _ was => cases hst.symm.trans (hused was)

theorem Writes.set (h : SchedInv D s) (hg : Goes (s.pc (tid s c)) next)
    (hrun : (s.pc (tid s c)).state = .running) (hset : SetOk s (s.cpu c).proc (s.pc (tid s c)) q d next)
    (hp : s'.proc = update s.proc q d) : Writes s s' c next (s.saved (tid s c)) := by
  have hq : s'.proc q = d := by rw [hp, update_self]
  have hother : ∀ q', q' ≠ q → s'.proc q' = s.proc q' := fun q' e => by rw [hp, update_of_ne e]
  have hself : ∀ p, (s.cpu c).cur = some p → (s.cpu c).proc = some q → p = q := fun p hc e =>
    Option.some.inj ((h.onCpu c p hc).1.symm.trans e)
  refine ⟨fun q' => ?_, fun p hc hst => ?_, fun p call hc e => ?_, fun p f intena _ e => ?_,
    fun q' x hx hxq => ?_⟩
  · by_cases e : q' = q
    · subst e
      rw [hq]
      exact .inr ⟨hset, rfl⟩
    · exact .inl (hother q' e)
  · rw [hrun] at hst
    by_cases e : p = q
    · subst e
      rw [hq]
      refine hset.state_running hst fun e => ?_
      obtain ⟨_, p', _, ho⟩ := h.of_child e
      exact h.child p' p ho
    · rw [hother p e, hst]
      exact (hset.next_state.resolve_right fun h => e (hself p hc h.1)).symm
  · rcases hset.next_state with run | ⟨self, -, chan⟩
    · rw [e] at run; cases run
    · rw [hself p hc self, hq]; exact chan call e
  · rw [hg.swtch f intena e] at hrun
    exact absurd hrun f.state_ne
  · rcases List.mem_cons.1 hx with rfl | hx
    · rcases hset.next_child with child | child | ⟨was, state, child⟩ <;> rw [child] at hxq
      · exact .inl ⟨_, List.mem_cons_self, hxq⟩
      · cases hxq
      · cases hxq
        exact .inr ⟨was, hq ▸ state⟩
    · exact .inl ⟨x, List.mem_cons_of_mem _ hx, hxq⟩

theorem SchedInv.set (h : SchedInv D s) (s1 : Sys m n) (hg : Goes (s.pc (tid s c)) next)
    (hheld : ∀ q', next.held.is (s.cpu c).proc q' ↔ (s.pc (tid s c)).held.is (s.cpu c).proc q')
    (hrun : (s.pc (tid s c)).state = .running) (hset : SetOk s (s.cpu c).proc (s.pc (tid s c)) q d next)
    (hd : ∀ d, D next = some d → (s.cpu c).noff = d) (hp : s1.proc = update s.proc q d) (hpc : s1.pc = s.pc)
    (hsaved : s1.saved = s.saved) (hcpu : s1.cpu = s.cpu) (hlock : s1.lock = s.lock) :
    SchedInv D (goto s1 c next) := by
  have hm : Moves s (goto s1 c next) c next (s.saved (tid s c)) :=
    goto_moves s1 hpc (fun _ => by rw [hcpu]) (fun _ => by rw [hcpu])
    (by rw [hsaved, Function.update_eq_self])
  have hcpu' : (goto s1 c next).cpu = s.cpu := hcpu
  refine h.move hg.plain hm (.set h hg hrun hset hp) hg.plainNext
    (h.lock_along (fun q => by show s1.lock _ = _; rw [hlock]) hheld) (fun b hs => hs.go hg.kind)
    (h.locks.same hlock (fun c' => by rw [hcpu']) fun c' hi => .inl (by rw [← hcpu']; exact hi))
    (h.depth.move h hm (fun c' _ => by rw [hcpu']) (fun d e => by rw [hcpu']; exact hd d e)
      fun k hk => .inl hk)

/-- Interrupts are enabled only where no `p->lock` is held. -/
theorem SchedInv.interruptible (h : SchedInv D s) (hi : (s.cpu c).intr = true) :
    (s.pc (tid s c)).plain = true ∧ ∀ q, ¬(s.pc (tid s c)).held.is (s.cpu c).proc q := by
  have hfree : ∀ q, ¬(s.pc (tid s c)).held.is (s.cpu c).proc q := fun q hq => by
    have := (h.locks.off ((h.holds c q).2 hq)).2
    rw [hi] at this
    cases this
  refine ⟨?_, hfree⟩
  cases hc : (s.cpu c).cur with
  | none =>
    rw [tid_off hc] at hfree ⊢
    refine (h.offCpu c hc).2.resolve_right fun hne => ?_
    cases hk : s.pc (.sched c) with
    | toSwtch q | back q => rw [hk] at hfree; exact hfree q rfl
    | _ => rw [hk] at hne; exact hne rfl
  | some p => rw [tid_on hc]; exact (h.onCpu c p hc).2.2

/-- A thread without a `p->lock` is one of a `RUNNING` process. -/
theorem SchedInv.state_free (h : SchedInv D s) (hc : (s.cpu c).cur = some p)
    (hfree : ∀ q, ¬(s.pc (tid s c)).held.is (s.cpu c).proc q) : (s.pc (tid s c)).state = .running := by
  by_contra hst
  have := hfree p
  rw [Pc.held_of_state hst] at this
  exact this (h.onCpu c p hc).1

theorem irq_schedInv (hD : DepthOk D) (h : SchedInv D s) (hi : (s.cpu c).intr = true)
    (he : exec s c .irq = some s') : SchedInv D s' := by
  obtain ⟨hplain, hfree⟩ := h.interruptible hi
  have hnoff := h.locks.intr c hi
  cases he
  generalize hu : ({ s.cpu c with intr := false } : Cpu n) = u
  have hcpu : ∀ c', (update s.cpu c u c').noff = (s.cpu c').noff ∧
      ((update s.cpu c u c').intr = true → (s.cpu c').intr = true) := fun c' => by
    by_cases e : c' = c <;> simp [e, ← hu]
  have hm : Moves s (goto { s with
      cpu := update s.cpu c u
      saved := update s.saved (tid s c) (s.pc (tid s c) :: s.saved (tid s c)) } c .handler) c .handler
      (s.pc (tid s c) :: s.saved (tid s c)) :=
    goto_moves _ rfl (update_cpu Cpu.cur (by rw [← hu])) (update_cpu Cpu.proc (by rw [← hu])) rfl
  refine h.move hplain hm ⟨fun q => .inl rfl, fun p hc hst => ?_, by rintro _ _ _ ⟨⟩, by rintro _ _ _ _ ⟨⟩,
    fun q x hx hxq => ?_⟩ rfl (h.lock_along (fun _ => rfl) fun q => ?_) (fun b hs => ⟨rfl, hplain, hfree, hs⟩)
    (h.locks.same rfl (fun c' => (hcpu c').1) fun c' hi => .inl ((hcpu c').2 hi))
    (h.depth.move h hm (fun c' _ => (hcpu c').1) (fun d e => ?_) fun k hk => ?_)
  · exact hst.trans (h.state_free hc hfree)
  · rcases List.mem_cons.1 hx with rfl | hx
    · cases hxq
    · exact .inl ⟨x, hx, hxq⟩
  · exact ⟨False.elim, fun hq => absurd hq (hfree q)⟩
  · rw [hD.handler] at e; cases e
  · rcases List.mem_cons.1 hk with rfl | hk
    · exact .inr fun d e => (h.depth.now c d e).symm.trans hnoff
    · exact .inl hk

theorem iret_schedInv (h : SchedInv D s) (hok : s.pc (tid s c) = .handler) (hd : (s.cpu c).noff = 0)
    (he : exec s c .iret = some s') : SchedInv D s' := by
  unfold exec at he
  cases hs : s.saved (tid s c) with
  | nil => rw [hs] at he; cases he
  | cons k ks =>
    rw [hs] at he
    cases he
    generalize hu : ({ s.cpu c with intr := true } : Cpu n) = u
    have hcpu : ∀ c', (update s.cpu c u c').noff = (s.cpu c').noff ∧
        ((update s.cpu c u c').intr = true → (s.cpu c').intr = true ∨ (s.cpu c').noff = 0) := fun c' => by
      by_cases e : c' = c <;> simp +contextual [e, ← hu, hd]
    have hm : Moves s
        (goto { s with cpu := update s.cpu c u, saved := update s.saved (tid s c) ks } c k) c k ks :=
      goto_moves _ rfl (update_cpu Cpu.cur (by rw [← hu])) (update_cpu Cpu.proc (by rw [← hu])) rfl
    -- the place that was interrupted is an ordinary one, without a `p->lock`
    have hstack : ∃ b, Stack b (s.cpu c).proc (s.pc (tid s c)) (s.saved (tid s c)) := by
      cases hc : (s.cpu c).cur with
      | none =>
        rw [tid_off hc] at hok ⊢
        rw [(h.offCpu c hc).1, hok]
        exact ⟨_, hok ▸ h.sstack c⟩
      | some p =>
        rw [tid_on hc, (h.onCpu c p hc).1]
        exact ⟨_, h.stack p⟩
    rw [hs] at hstack
    obtain ⟨b, _, hplain, hfree, _⟩ := hstack
    have hrun : ∀ p, (s.cpu c).cur = some p → k.state = .running := fun p hc => by
      by_contra hst
      have := hfree p
      rw [Pc.held_of_state hst] at this
      exact this (h.onCpu c p hc).1
    refine h.move (by rw [hok]; rfl) hm ⟨fun q => .inl rfl, fun p hc hst => ?_, fun p call hc e => ?_,
      fun p f intena hc e => ?_, fun q x hx hxq => ?_⟩ hplain (h.lock_along (fun _ => rfl) fun q => ?_)
      (fun b hst => ?_)
      (h.locks.same rfl (fun c' => (hcpu c').1) fun c' hi => (hcpu c').2 hi)
      (h.depth.move h hm (fun c' _ => (hcpu c').1) (fun d e => ?_) fun k' hk' => ?_)
    · rw [hrun p hc]
      rw [hok] at hst
      exact hst
    · have := hrun p hc
      rw [e] at this
      cases this
    · have := hrun p hc
      rw [e] at this
      exact absurd this f.state_ne
    · exact .inl ⟨x, by rw [hs]; exact List.mem_cons_of_mem _ hx, hxq⟩
    · rw [hok]
      exact ⟨fun hq => absurd hq (hfree q), False.elim⟩
    · rw [hs] at hst
      exact hst.2.2.2
    · refine (hcpu c).1.trans (hd.trans ?_)
      exact (h.depth.saved _ k d (by rw [hs]; exact List.mem_cons_self) e).symm
    · exact .inl (by rw [hs]; exact List.mem_cons_of_mem _ hk')

/-! ## New slots and `swtch` -/

section
variable (h : SchedInv D s)
include h

theorem SchedInv.off_of_unused (hq : (s.proc q).state = .unused) (c : Fin m) :
    (s.cpu c).cur ≠ some q := fun hc => (Pc.state_live _).1 ((h.on c q hc).symm.trans hq)

/-- The thread of an `UNUSED` slot may be anywhere. -/
theorem SchedInv.reset (hq : (s.proc q).state = .unused) :
    SchedInv D { s with pc := update s.pc (.proc q) .born, saved := update s.saved (.proc q) [] } := by
  have hoff := h.off_of_unused hq
  have hother : ∀ t : Tid m n, t ≠ .proc q →
      update s.pc (.proc q) .born t = s.pc t ∧ update s.saved (.proc q) [] t = s.saved t := fun t e =>
    ⟨update_of_ne e .., update_of_ne e ..⟩
  have hproc := fun p (e : some q ≠ some p) => hother (.proc p)
    fun e' => e (congrArg some (Tid.proc.inj e').symm)
  have hf : Frame s { s with pc := update s.pc (.proc q) .born, saved := update s.saved (.proc q) [] } none
      (some q) := by
    refine ⟨rfl, fun c => (hother (.sched c) nofun).2, fun c => ⟨rfl, rfl⟩, fun p => .inl rfl,
      fun p q' ⟨x, hx, hxq⟩ => ?_,
      fun c _ => ⟨(hother (.sched c) nofun).1, rfl, rfl⟩, fun p e => ⟨(hproc p e).1, (hproc p e).2, rfl⟩,
      fun c p _ e => Option.some.inj e ▸ hoff c⟩
    by_cases e : q = p
    · subst e
      obtain rfl : x = .born := by simpa using hx
      cases hxq
    · obtain ⟨h1, h2⟩ := hproc p (by simpa using e)
      exact ⟨x, by simpa only [h1, h2] using hx, hxq⟩
  refine h.frame hf nofun fun p e => ?_
  obtain rfl := Option.some.inj e
  refine ⟨by simp only [update_self]; rfl, fun _ => ?_, fun e => (by cases hq.symm.trans e), by simp⟩
  simp [Parked, hq]

theorem create_schedInv
    (hok : (Act.create q d next).Ok s (s.cpu c).proc (s.pc (tid s c)))
    (hd : (Act.create q d next).Depth D (s.cpu c)) (he : exec s c (.create q d next) = some s') :
    SchedInv D s' := by
  obtain ⟨hg, hheld, hhas, hun, hst, hnone, hchild, _, hrun, hk⟩ := hok
  have h1 := h.reset hun
  have htid : tid s c ≠ .proc q := fun e => h.off_of_unused hun c (tid_proc e)
  generalize hs1 : ({ s with
    pc := update s.pc (.proc q) .born, saved := update s.saved (.proc q) [] } : Sys m n) = s1 at h1
  have hcpu : s1.cpu = s.cpu := by rw [← hs1]
  have hproc : s1.proc = s.proc := by rw [← hs1]
  have ht : tid s1 c = tid s c := tid_congr (by rw [hcpu])
  have hpc : s1.pc (tid s1 c) = s.pc (tid s c) := by rw [ht, ← hs1]; exact update_of_ne htid _ _
  have hset : SetOk s1 (s1.cpu c).proc (s1.pc (tid s1 c)) q d next := by
    rw [hpc, hcpu]
    exact .made hhas (by rw [hproc]; exact hun) (by rw [← hs1]; exact update_self ..) hst hnone hchild hrun
  cases he
  refine h1.set _ (by rw [hpc]; exact hg) (by rw [hpc, hcpu]; exact hheld) (by rw [hpc]; exact hk) hset
    (by rw [hcpu]; exact hd) ?_ ?_ ?_ ?_ ?_ <;> rw [← hs1]

/-- A scheduler thread, outside interrupt handlers. -/
theorem SchedInv.of_scheduler (hk : (s.pc (tid s c)).kind = .scheduler) :
    (s.cpu c).cur = none := by
  cases hc : (s.cpu c).cur with
  | none => rfl
  | some p =>
    rw [tid_on hc] at hk
    have hst := h.stack p
    cases hs : s.saved (.proc p) with
    | nil => rw [hs] at hst; exact absurd (hk.symm.trans hst) (by simp)
    | cons k ks => rw [hs] at hst; exact absurd (hk.symm.trans hst.1) (by simp)

/-- A scheduler thread goes from `k` to `next` and sets `c->proc`
for it; a process that it dispatches was `RUNNABLE`. -/
theorem SchedInv.turn (hc : (s.cpu c).cur = none) (hk : s.pc (.sched c) = k) {oq : Option (Fin n)}
    {table : Fin n → PCB n} (hkind : next.kind = k.kind)
    (hheld : ∀ q, next.held.is oq q ↔ k.held.is (s.cpu c).proc q)
    (hruns : next.runs = oq) (hplain : next.plain = true ∨ oq ≠ none) (hfrom : ∀ q, k ≠ .toSwtch q)
    (htable : ∀ q, oq ≠ some q → table q = s.proc q)
    (hready : ∀ q, oq = some q → (∀ c', (s.cpu c').cur ≠ some q) ∧ (s.proc q).state = .runnable ∧
      table q = { s.proc q with state := .running } ∧ next = .toSwtch q)
    (hd : ∀ d, D next = some d → (s.cpu c).noff = d) :
    SchedInv D (goto (setCpu { s with proc := table } c { s.cpu c with proc := oq }) c next) := by
  subst hk
  generalize hs' : goto (setCpu { s with proc := table } c { s.cpu c with proc := oq }) c next = s'
  have hcpu : ∀ c', (s'.cpu c').cur = (s.cpu c').cur ∧ ((s'.cpu c').noff = (s.cpu c').noff ∧
      (s'.cpu c').intr = (s.cpu c').intr) ∧
      (s'.cpu c').proc = if c' = c then oq else (s.cpu c').proc := fun c' => by
    rw [← hs']
    by_cases e : c' = c <;> simp [goto, setCpu, e]
  have hnone : (s'.cpu c).cur = none := (hcpu c).1.trans hc
  have hpc : s'.pc = update s.pc (.sched c) next := by
    rw [← hs']
    show update s.pc (tid _ c) next = _
    rw [tid_off (by simpa [setCpu] using hc)]
  have hsaved : s'.saved = s.saved := by rw [← hs']; rfl
  have hproc : s'.proc = table := by rw [← hs']; rfl
  have hlock : s'.lock = s.lock := by rw [← hs']; rfl
  have hp : ∀ p, s'.pc (.proc p) = s.pc (.proc p) := fun p => by rw [hpc]; exact update_of_ne (by simp) ..
  have hself : s'.pc (.sched c) = next := by rw [hpc, update_self]
  have hf : Frame s s' (some c) oq := by
    refine ⟨hlock, fun _ => by rw [hsaved], fun c' => (hcpu c').2.1, fun q => ?_, fun p q ho => ?_,
      fun c' e => ⟨?_, (hcpu c').1, ?_⟩, fun q e => ⟨hp q, by rw [hsaved], by rw [hproc, htable q e]⟩,
      fun c' q _ e => (hready q e).1 c'⟩
    · rw [hproc]
      by_cases e : oq = some q
      · rw [(hready q e).2.2.1]
        exact .inr ⟨(hready q e).2.1, rfl⟩
      · exact .inl (by rw [htable q e])
    · rwa [Owns, hp, hsaved] at ho
    · rw [hpc]
      exact update_of_ne (fun e' => e (congrArg some (Tid.sched.inj e').symm)) ..
    · rw [(hcpu c').2.2, if_neg fun e' => e (congrArg some e'.symm)]
  refine h.frame hf (fun c' e => ?_) fun q e => ?_
  · obtain rfl := Option.some.inj e
    have hme : (s'.cpu c).proc = oq := by rw [(hcpu c).2.2, if_pos rfl]
    refine ⟨fun q => ?_, fun p e => ?_, fun _ => ?_, by rw [hself, hkind], fun q e => ?_,
      fun q _ hr c' => ?_, fun q e => ?_, fun _ _ _ _ _ e => ?_, fun d e => ?_⟩
    · rw [hlock, h.holds, tid_off hc, tid_off hnone, hself, hme, hheld]
    · cases hnone.symm.trans e
    · rw [hme, hself, hruns]
      exact ⟨rfl, hplain⟩
    · have hq : oq = some q := by rw [← hruns, ← hself, e]; rfl
      rw [hproc, (hready q hq).2.2.1]
    · rw [hself, hruns] at hr
      rw [(hcpu c').1]
      exact (hready q hr).1 c'
    · exact absurd (e.resolve_left (by simp [hc])) (hfrom q)
    · cases hnone.symm.trans e
    · rw [tid_off hnone, hself] at e
      exact (hcpu c).2.1.1.trans (hd d e)
  · obtain ⟨hoff, hst, ht, hto⟩ := hready q e
    refine ⟨by rw [hp, hsaved]; exact h.stack q, fun _ => ?_,
      fun _ => .inr ⟨c, hnone, hself.trans hto⟩, by simp [hsaved]⟩
    rw [hp, hproc, ht]
    simpa only [Parked, hst] using h.off q hoff

theorem dispatch_schedInv (hok : (Act.dispatch q next).Ok s (s.cpu c).proc (s.pc (tid s c)))
    (hd : (Act.dispatch q next).Depth D (s.cpu c)) (he : exec s c (.dispatch q next) = some s') :
    SchedInv D s' := by
  obtain ⟨hk, rfl, hready⟩ := hok
  have hc := h.of_scheduler (by rw [hk]; rfl)
  have hheld : (s.pc (tid s c)).held.is (s.cpu c).proc q := by rw [hk]; rfl
  -- `q` is on no CPU: its lock is here
  have hoff : ∀ c', (s.cpu c').cur ≠ some q := fun c' hc' => by
    have e := h.lock_uniq (h.own_lock hc' (by rw [hready]; simp)) hheld
    rw [e, hc] at hc'
    cases hc'
  rw [tid_off hc] at hk
  cases he
  refine h.turn hc hk rfl (fun _ => Iff.rfl) rfl (.inr nofun) nofun (fun p e => ?_) (fun p e => ?_) hd
  · exact update_of_ne (fun e' => e (congrArg some e'.symm)) ..
  · obtain rfl := Option.some.inj e
    exact ⟨hoff, hready, update_self .., rfl⟩

theorem undispatch_schedInv (hok : (Act.undispatch next).Ok s (s.cpu c).proc (s.pc (tid s c)))
    (hd : (Act.undispatch next).Depth D (s.cpu c)) (he : exec s c (.undispatch next) = some s') :
    SchedInv D s' := by
  obtain ⟨q, hk, rfl⟩ := hok
  have hc := h.of_scheduler (by rw [hk]; rfl)
  rw [tid_off hc] at hk
  cases he
  exact h.turn hc hk rfl (fun _ => Iff.rfl) rfl (.inl rfl) nofun (fun _ _ => rfl) nofun hd

end

/-- A parked thread that `swtch` returns in. -/
theorem Parked.resume (h : Parked k d) (hr : d.state = .running) :
    k.resume.plain = true ∧ k.resume.held = .own ∧ k.resume.state = .running ∧ k.resume.kind = k.kind ∧
      k.resume.child = k.child ∧ (k.resume = .forkret ∨ ∃ f intena, k.resume = .resumed f intena) := by
  unfold Parked at h
  rw [hr] at h
  rcases h with rfl | ⟨f, intena, rfl, _⟩
  · exact ⟨rfl, rfl, rfl, rfl, rfl, .inl rfl⟩
  · exact ⟨rfl, rfl, rfl, rfl, rfl, .inr ⟨f, intena, rfl⟩⟩

/-- CPU `c` goes from the scheduler's thread to `q`'s, or back. -/
structure Swtch (s s' : Sys m n) (c : Fin m) (q : Fin n) (sk pk : Pc n) (cur : Option (Fin n)) : Prop where
  sched : s'.pc (.sched c) = sk
  proc : s'.pc (.proc q) = pk
  other : ∀ t, t ≠ .sched c → t ≠ .proc q → s'.pc t = s.pc t
  saved : s'.saved = s.saved
  lock : s'.lock = s.lock
  table : s'.proc = s.proc
  cpu : ∀ c', (s'.cpu c').cur = (if c' = c then cur else (s.cpu c').cur) ∧
    (s'.cpu c').proc = (s.cpu c').proc ∧
    (s'.cpu c').noff = (s.cpu c').noff ∧ (s'.cpu c').intr = (s.cpu c').intr

variable {sk pk : Pc n} {cur : Option (Fin n)}

theorem Swtch.cur_self (hw : Swtch s s' c q sk pk cur) :
    (s'.cpu c).cur = cur := by rw [(hw.cpu c).1, if_pos rfl]

theorem Swtch.frame (hw : Swtch s s' c q sk pk cur) (hchild : pk.child = (s.pc (.proc q)).child)
    (hoff : ∀ c', c' ≠ c → (s.cpu c').cur ≠ some q) : Frame s s' (some c) (some q) := by
  have hproc : ∀ p, some q ≠ some p → s'.pc (.proc p) = s.pc (.proc p) := fun p e =>
    hw.other _ (by simp) fun e' => e (congrArg some (Tid.proc.inj e').symm)
  refine ⟨hw.lock, fun _ => by rw [hw.saved], fun c' => (hw.cpu c').2.2, fun _ => .inl (by rw [hw.table]),
    fun p q' ho => ?_, fun c' e => ⟨?_, ?_, (hw.cpu c').2.1⟩,
    fun p e => ⟨hproc p e, by rw [hw.saved], by rw [hw.table]⟩, fun c' p e e' => ?_⟩
  · unfold Owns at ho ⊢
    rw [hw.saved] at ho
    by_cases e : q = p
    · subst e
      rw [hw.proc] at ho
      simpa [hchild] using ho
    · rwa [hproc p (by simpa using e)] at ho
  · exact hw.other _ (fun e' => e (congrArg some (Tid.sched.inj e').symm)) (by simp)
  · rw [(hw.cpu c').1, if_neg fun e' => e (congrArg some e'.symm)]
  · exact Option.some.inj e' ▸ hoff c' fun e' => e (congrArg some e'.symm)

theorem swtchIn_schedInv (hD : DepthOk D) (h : SchedInv D s)
    (hok : (Act.swtchIn q next).Ok s (s.cpu c).proc (s.pc (tid s c)))
    (hd : (Act.swtchIn q next).Depth D (s.cpu c)) (he : exec s c (.swtchIn q next) = some s') :
    SchedInv D s' := by
  obtain ⟨hk, rfl⟩ := hok
  have hc := h.of_scheduler (by rw [hk]; rfl)
  rw [tid_off hc] at hk
  have hoff := h.switching c q hc (by rw [hk]; rfl)
  have hrun := h.dispatched c q hc hk
  have hme : (s.cpu c).proc = some q := by rw [(h.offCpu c hc).1, hk]; rfl
  obtain ⟨hplain, hheld, hstate, hkind, hchild, hform⟩ := (h.off q hoff).resume hrun
  have hw : Swtch s s' c q (.inSwtch q) (s.pc (.proc q)).resume (some q) := by
    cases he
    refine ⟨?_, update_self .., fun t h1 h2 => (update_of_ne h2 _ _).trans (update_of_ne h1 _ _),
      rfl, rfl, rfl, fun c' => ?_⟩
    · show update (update s.pc (.sched c) (.inSwtch q)) (.proc q) (s.pc (.proc q)).resume (.sched c) = _
      rw [update_of_ne (by simp), update_self]
    · by_cases e : c' = c <;> simp [e]
  have hself := hw.cur_self
  refine h.frame (hw.frame hchild fun c' _ => hoff c') (fun c' e => ?_) fun p e => ?_
  · obtain rfl := Option.some.inj e
    refine ⟨fun q' => ?_, fun p e => ?_, fun e => ?_, by rw [hw.sched, hk]; rfl, fun q' e => ?_,
      fun _ e => ?_, fun q' e => ?_, fun c' q' hne e hr e' => ?_, fun d e => ?_⟩
    · rw [hw.lock, h.holds, (hw.cpu c).2.1, tid_on hself, hw.proc, hheld, hme, tid_off hc, hk]
      exact Option.some_inj.symm
    · obtain rfl := Option.some.inj (hself.symm.trans e)
      rw [(hw.cpu c).2.1, hw.sched, hw.proc, hw.table]
      exact ⟨rfl, hme, rfl, hplain, hrun, hstate⟩
    · cases hself.symm.trans e
    · cases hw.sched.symm.trans e
    · cases hself.symm.trans e
    · rw [hc, hk] at e
      cases e.resolve_left nofun
      rfl
    · -- the lock of `q` is here
      obtain rfl := Option.some.inj (hself.symm.trans e')
      have hheld' : (s.pc (tid s c')).held.is (s.cpu c').proc q := by
        rw [tid_off e]
        cases hk' : s.pc (.sched c') <;> rw [hk'] at hr <;> cases hr <;> rfl
      exact hne (h.lock_uniq hheld' (by rw [tid_off hc, hk]; rfl))
    · rw [tid_on hself, hw.proc] at e
      refine ((hw.cpu c).2.2.1.trans hd).trans ?_
      rcases hform with hf | ⟨f, intena, hf⟩ <;> rw [hf] at e
      · exact (hD.forkret d e).symm
      · exact (hD.resumed f intena d e).symm
  · obtain rfl := Option.some.inj e
    refine ⟨?_, fun e => absurd hself (e c), fun _ => .inl ⟨c, hself⟩, by simp [hw.saved]⟩
    rw [hw.saved, hw.proc]
    exact (h.stack q).go hkind

theorem swtchOut_schedInv (hD : DepthOk D) (h : SchedInv D s)
    (hok : (Act.swtchOut next).Ok s (s.cpu c).proc (s.pc (tid s c)))
    (hd : (Act.swtchOut next).Depth D (s.cpu c)) (he : exec s c (.swtchOut next) = some s') :
    SchedInv D s' := by
  obtain ⟨f, intena, hk, rfl⟩ := hok
  cases hc : (s.cpu c).cur with
  | none => simp only [exec, hc] at he; cases he
  | some q =>
    rw [tid_on hc] at hk
    obtain ⟨hme, hin, _⟩ := h.onCpu c q hc
    have hst := h.on c q hc
    rw [hk] at hst
    have hw : Swtch s s' c q (.back q) (.away f intena) none := by
      simp only [exec, hc, hin, Option.some.injEq] at he
      subst he
      refine ⟨update_self .., ?_, fun t h1 h2 => (update_of_ne h1 _ _).trans (update_of_ne h2 _ _),
        rfl, rfl, rfl, fun c' => ?_⟩
      · show update (update s.pc (.proc q) (.away f intena)) (.sched c) (.back q) (.proc q) = _
        rw [update_of_ne (by simp), update_self]
      · by_cases e : c' = c <;> simp [e]
    have hself := hw.cur_self
    have hoth : ∀ c', c' ≠ c → (s.cpu c').cur ≠ some q := fun c' e hc' => e (h.uniq c' c q hc' hc)
    refine h.frame (hw.frame (by rw [hk]; rfl) hoth) (fun c' e => ?_) fun p e => ?_
    · obtain rfl := Option.some.inj e
      refine ⟨fun q' => ?_, fun p e => ?_, fun _ => ?_, by rw [hw.sched, hin]; rfl, fun q' e => ?_,
        fun q' _ hr c' e => ?_, fun q' e => ?_, fun _ _ _ _ _ e => ?_, fun d e => ?_⟩
      · rw [hw.lock, h.holds, (hw.cpu c).2.1, tid_off hself, hw.sched, hme, tid_on hc, hk]
        exact Option.some_inj
      · cases hself.symm.trans e
      · rw [(hw.cpu c).2.1, hw.sched, hme]
        exact ⟨rfl, .inr nofun⟩
      · cases hw.sched.symm.trans e
      · rw [hw.sched] at hr
        cases hr
        rw [(hw.cpu c').1] at e
        split at e
        · cases e
        · exact hoth c' ‹_› e
      · rw [hin, hc] at e
        exact e.resolve_right nofun
      · cases hself.symm.trans e
      · rw [tid_off hself, hw.sched] at e
        exact ((hw.cpu c).2.2.1.trans hd).trans (hD.back q d e).symm
    · obtain rfl := Option.some.inj e
      refine ⟨?_, fun _ => ?_, fun e => ?_, by simp [hw.saved]⟩
      · rw [hw.saved, hw.proc]
        exact (h.stack q).go (by rw [hk]; rfl)
      · rw [hw.table, hw.proc, Parked, hst]
        cases f with
        | yield => exact .inr ⟨_, intena, rfl, by simp⟩
        | sleep call => exact ⟨call, intena, rfl, h.chan c q call hc (.inr ⟨intena, hk⟩)⟩
        | exit => exact ⟨intena, rfl⟩
      · rw [hw.table, hst] at e
        exact absurd e f.state_ne

/-! ## All actions -/

/-- A CPU alone changes, in a way that `noff` and the interrupts allow. -/
theorem SchedInv.goto_cpu (h : SchedInv D s) (u : Cpu n) (ha : Along (s.cpu c).proc (s.pc (tid s c)) next)
    (hcur : u.cur = (s.cpu c).cur) (hproc : u.proc = (s.cpu c).proc) (hnoff : u.noff = (s.cpu c).noff)
    (hintr : u.intr = true → (s.cpu c).intr = true ∨ (s.cpu c).noff = 0)
    (hd : ∀ d, D next = some d → (s.cpu c).noff = d) : SchedInv D (goto (setCpu s c u) c next) := by
  have hn : ∀ c', (update s.cpu c u c').noff = (s.cpu c').noff ∧
      ((update s.cpu c u c').intr = true → (s.cpu c').intr = true ∨ (s.cpu c').noff = 0) := fun c' => by
    by_cases e : c' = c
    · simpa [e] using ⟨hnoff, hintr⟩
    · simpa [e] using .inl
  exact h.along (setCpu s c u) ha rfl rfl rfl
    (fun _ => rfl) (update_cpu Cpu.cur hcur) (update_cpu Cpu.proc hproc)
    (h.locks.same rfl (fun c' => (hn c').1) fun c' => (hn c').2) (fun c' _ => (hn c').1)
    fun d e => (hn c).1.trans (hd d e)

theorem exec_schedInv (hD : DepthOk D) (h : SchedInv D s) {a : Act n}
    (hok : a.Ok s (s.cpu c).proc (s.pc (tid s c)))
    (hd : a.Depth D (s.cpu c)) (he : exec s c a = some s') : SchedInv D s' := by
  cases a with
  | acquire l next => exact acquire_schedInv h hok hd he
  | release l next => cases he; exact release_schedInv h hok hd
  | goto next =>
    cases he
    exact h.along s hok rfl rfl rfl (fun _ => rfl) (fun _ => rfl) (fun _ => rfl) h.locks (fun _ _ => rfl) hd
  | set q d next =>
    obtain ⟨hg, hheld, hrun, hset⟩ := hok
    cases he
    exact h.set _ hg hheld hrun hset hd rfl rfl rfl rfl rfl
  | create q d next => exact create_schedInv h hok hd he
  | dispatch q next => exact dispatch_schedInv h hok hd he
  | undispatch next => exact undispatch_schedInv h hok hd he
  | swtchIn q next => exact swtchIn_schedInv hD h hok hd he
  | swtchOut next => exact swtchOut_schedInv hD h hok hd he
  | restore intena next => cases he; exact h.goto_cpu _ hok rfl rfl rfl .inl hd
  | intr b next => cases he; exact h.goto_cpu _ hok rfl rfl rfl (fun e => .inr (hd.1 e)) hd.2
  | call next =>
    cases he
    exact h.along { s with calls := s.calls + 1 } (hok _) rfl rfl rfl (fun _ => rfl)
      (fun _ => rfl) (fun _ => rfl) ⟨h.locks.count, h.locks.intr⟩ (fun _ _ => rfl) (hd _)
  | irq => exact irq_schedInv hD h hd he
  | iret => exact iret_schedInv h hok hd he
  | panic e => cases he; exact h.panic e
  | stuck => cases he

end
end Xv6.Sched
