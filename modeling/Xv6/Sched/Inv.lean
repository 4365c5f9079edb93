import Xv6.Sched.Table
import Mathlib.Data.Finset.Card

/-!
# The invariant of the scheduler

`SchedInv` relates the CPUs, the threads and the process table: who holds a
`p->lock` is told by where the CPUs are, a process whose thread is on a CPU
has the state of its place, and one whose thread is not is `Parked`.

* `schedInv_step`: every step keeps it.
-/
namespace Xv6.Sched
open Function (update update_self update_of_ne)
open Proc (PState Chan)

section
variable {m n : Nat}

/-- The process that a scheduler thread in `swtch` has in `c->proc`. -/
def Pc.runs : Pc n → Option (Fin n)
  | .toSwtch q | .back q => some q
  | _ => none

variable {k : Pc n} {b : Kind} {l : Lk n}

theorem Pc.runs_of_plain (h : k.plain = true) : k.runs = none := by
  cases k <;> first | rfl | cases h

/-- A thread at `k` with the interrupted places `ks`: all but the last are in
handlers, the last is in code of kind `b`, and interrupted places hold no
`p->lock`. -/
def Stack (b : Kind) (me : Option (Fin n)) : Pc n → List (Pc n) → Prop
  | k, [] => k.kind = b
  | k, k' :: ks => k.kind = .handler ∧ k'.plain = true ∧ (∀ q, ¬k'.held.is me q) ∧ Stack b me k' ks

theorem Stack.go {me : Option (Fin n)} (h : Stack b me k ks)
    (hk : next.kind = k.kind) : Stack b me next ks := by
  cases ks with
  | nil => exact hk.trans h
  | cons k' ks => exact ⟨hk.trans h.1, h.2⟩

theorem Stack.alone {me : Option (Fin n)} (h : Stack b me k ks)
    (hk : k.kind ≠ .handler) : ks = [] := by
  cases ks with
  | nil => rfl
  | cons k' ks => exact absurd h.1 hk

/-- Where the thread of a process that is on no CPU is. -/
def Parked (k : Pc n) (d : PCB n) : Prop :=
  match d.state with
  | .unused => k = .born ∨ ∃ intena, k = .away .exit intena
  | .used => k = .born
  | .runnable | .running => k = .born ∨ ∃ f intena, k = .away f intena ∧ f ≠ .exit
  | .sleeping => ∃ call intena, k = .away (.sleep call) intena ∧ d.chan = some call.chan
  | .zombie => ∃ intena, k = .away .exit intena

/-- `p` is in a `fork` that fills the slot `q`. -/
def Owns (s : Sys m n) (p q : Fin n) : Prop := ∃ k ∈ s.pc (.proc p) :: s.saved (.proc p), k.child = some q

/-- `noff` is the number of locks held, and interrupts are off while there are any. -/
structure LockInv (s : Sys m n) : Prop where
  count : ∀ c, ∃ F : Finset (Lk n), (∀ l, l ∈ F ↔ s.lock l = some c) ∧ (s.cpu c).noff = F.card
  intr : ∀ c, (s.cpu c).intr = true → (s.cpu c).noff = 0

/-- `D` tells `noff` at some of the places. -/
structure DepthInv (D : Pc n → Option Nat) (s : Sys m n) : Prop where
  now : ∀ c d, D (s.pc (tid s c)) = some d → (s.cpu c).noff = d
  saved : ∀ t k d, k ∈ s.saved t → D k = some d → d = 0

structure SchedInv (D : Pc n → Option Nat) (s : Sys m n) : Prop where
  holds : ∀ c q, s.lock (.proc q) = some c ↔ (s.pc (tid s c)).held.is (s.cpu c).proc q
  uniq : ∀ c c' p, (s.cpu c).cur = some p → (s.cpu c').cur = some p → c = c'
  onCpu : ∀ c p, (s.cpu c).cur = some p →
    (s.cpu c).proc = some p ∧ s.pc (.sched c) = .inSwtch p ∧ (s.pc (.proc p)).plain = true
  offCpu : ∀ c, (s.cpu c).cur = none →
    (s.cpu c).proc = (s.pc (.sched c)).runs ∧ ((s.pc (.sched c)).plain = true ∨ (s.pc (.sched c)).runs ≠ none)
  stack : ∀ p, Stack .process (some p) (s.pc (.proc p)) (s.saved (.proc p))
  sstack : ∀ c, Stack .scheduler none (s.pc (.sched c)) (s.saved (.sched c))
  on : ∀ c p, (s.cpu c).cur = some p → (s.proc p).state = (s.pc (.proc p)).state
  chan : ∀ c p call, (s.cpu c).cur = some p →
    (s.pc (.proc p) = .sched (.sleep call) ∨ ∃ intena, s.pc (.proc p) = .swtch (.sleep call) intena) →
    (s.proc p).chan = some call.chan
  off : ∀ p, (∀ c, (s.cpu c).cur ≠ some p) → Parked (s.pc (.proc p)) (s.proc p)
  dispatched : ∀ c q, (s.cpu c).cur = none → s.pc (.sched c) = .toSwtch q → (s.proc q).state = .running
  switching : ∀ c q, (s.cpu c).cur = none → (s.pc (.sched c)).runs = some q → ∀ c', (s.cpu c').cur ≠ some q
  running : ∀ q, (s.proc q).state = .running →
    (∃ c, (s.cpu c).cur = some q) ∨ ∃ c, (s.cpu c).cur = none ∧ s.pc (.sched c) = .toSwtch q
  child : ∀ p q, Owns s p q → (s.proc q).state = .used
  owner : ∀ p p' q, Owns s p q → Owns s p' q → p = p'
  locks : LockInv s
  depth : DepthInv D s

variable {D : Pc n → Option Nat} {s s' : Sys m n} {c c' : Fin m} {p q : Fin n}
  {next : Pc n} {ks : List (Pc n)}

/-! ## The threads on the CPUs -/

theorem tid_on (h : (s.cpu c).cur = some p) : tid s c = .proc p := by
  unfold tid
  rw [h]

theorem tid_off (h : (s.cpu c).cur = none) : tid s c = .sched c := by
  unfold tid
  rw [h]

theorem tid_congr (h : (s'.cpu c).cur = (s.cpu c).cur) : tid s' c = tid s c := by
  unfold tid
  rw [h]

theorem tid_proc (h : tid s c = .proc p) : (s.cpu c).cur = some p := by
  cases hc : (s.cpu c).cur with
  | none => rw [tid_off hc] at h; cases h
  | some p' => rw [tid_on hc] at h; cases h; rfl

theorem tid_sched (h : tid s c = .sched c') : (s.cpu c).cur = none ∧ c = c' := by
  cases hc : (s.cpu c).cur with
  | none => rw [tid_off hc] at h; cases h; exact ⟨rfl, rfl⟩
  | some p' => rw [tid_on hc] at h; cases h

theorem SchedInv.tid_ne (h : SchedInv D s) (hne : c' ≠ c) : tid s c' ≠ tid s c := by
  intro e
  cases hc : (s.cpu c).cur with
  | none => rw [tid_off hc] at e; exact hne (tid_sched e).2
  | some p => rw [tid_on hc] at e; exact hne (h.uniq c' c p (tid_proc e) hc)

/-- Only the thread of a process has a `myproc()`, except in `swtch`. -/
theorem SchedInv.me (h : SchedInv D s) (hk : (s.pc (tid s c)).plain = true) (hp : (s.cpu c).proc = some p) :
    (s.cpu c).cur = some p := by
  cases hc : (s.cpu c).cur with
  | none =>
    rw [tid_off hc] at hk
    rw [(h.offCpu c hc).1, Pc.runs_of_plain hk] at hp
    cases hp
  | some p' =>
    rw [(h.onCpu c p' hc).1] at hp
    exact hp

/-- Nobody else holds the lock that CPU `c` holds. -/
theorem SchedInv.lock_uniq (h : SchedInv D s) (h1 : (s.pc (tid s c)).held.is (s.cpu c).proc q)
    (h2 : (s.pc (tid s c')).held.is (s.cpu c').proc q) : c = c' := by
  have e1 := (h.holds c q).2 h1
  have e2 := (h.holds c' q).2 h2
  rw [e1] at e2
  exact Option.some.inj e2

/-- A process on a CPU, but not in the state `RUNNING`, holds its own lock. -/
theorem SchedInv.own_lock (h : SchedInv D s) (hc : (s.cpu c).cur = some p)
    (hs : (s.proc p).state ≠ .running) : (s.pc (tid s c)).held.is (s.cpu c).proc p := by
  rw [h.on c p hc] at hs
  rw [tid_on hc, Pc.held_of_state hs]
  exact (h.onCpu c p hc).1

/-! ## Steps of one thread without `swtch` -/

/-- The thread on CPU `c` goes to `next`, with `ks` interrupted. -/
structure Moves (s s' : Sys m n) (c : Fin m) (next : Pc n) (ks : List (Pc n)) : Prop where
  pc : s'.pc = update s.pc (tid s c) next
  saved : s'.saved = update s.saved (tid s c) ks
  cur : ∀ c', (s'.cpu c').cur = (s.cpu c').cur
  proc : ∀ c', (s'.cpu c').proc = (s.cpu c').proc

section
variable (hm : Moves s s' c next ks)
include hm

theorem Moves.self : s'.pc (tid s c) = next ∧ s'.saved (tid s c) = ks := by
  rw [hm.pc, hm.saved, update_self, update_self]
  exact ⟨rfl, rfl⟩

theorem Moves.other {t : Tid m n} (ht : t ≠ tid s c) :
    s'.pc t = s.pc t ∧ s'.saved t = s.saved t := by
  rw [hm.pc, hm.saved, update_of_ne ht, update_of_ne ht]
  exact ⟨rfl, rfl⟩

/-- The thread of a process on another CPU, or on none. -/
theorem Moves.proc_other (hp : (s.cpu c).cur ≠ some p) :
    s'.pc (.proc p) = s.pc (.proc p) ∧ s'.saved (.proc p) = s.saved (.proc p) :=
  hm.other fun e => hp (tid_proc e.symm)

/-- The scheduler's thread of a CPU that runs a process, or of another one. -/
theorem Moves.sched_other (hc : ¬((s.cpu c).cur = none ∧ c = c')) :
    s'.pc (.sched c') = s.pc (.sched c') ∧ s'.saved (.sched c') = s.saved (.sched c') :=
  hm.other fun e => hc (tid_sched e.symm)

end

/-- What a step without `swtch` does to the table and to the slots that forks fill. -/
structure Writes (s s' : Sys m n) (c : Fin m) (next : Pc n) (ks : List (Pc n)) : Prop where
  proc : ∀ q, s'.proc q = s.proc q ∨
    SetOk s (s.cpu c).proc (s.pc (tid s c)) q (s'.proc q) next ∧ ks = s.saved (tid s c)
  self : ∀ p, (s.cpu c).cur = some p → (s.proc p).state = (s.pc (tid s c)).state →
    (s'.proc p).state = next.state
  chan : ∀ p call, (s.cpu c).cur = some p → next = .sched (.sleep call) → (s'.proc p).chan = some call.chan
  swtch : ∀ p f intena, (s.cpu c).cur = some p → next = .swtch f intena →
    s.pc (tid s c) = .sched f ∧ s'.proc = s.proc
  child : ∀ q, ∀ x ∈ next :: ks, x.child = some q →
    (∃ y ∈ s.pc (tid s c) :: s.saved (tid s c), y.child = some q) ∨
    (s.proc q).state = .unused ∧ (s'.proc q).state = .used

theorem Pc.kind_of_child (h : k.child = some q) : k.kind = .process := by
  cases k <;> first | rfl | cases h

/-- Only a process has a child, and then it is not interrupted. -/
theorem SchedInv.of_child (h : SchedInv D s) (hq : (s.pc (tid s c)).child = some q) :
    s.saved (tid s c) = [] ∧ ∃ p, (s.cpu c).cur = some p ∧ Owns s p q := by
  have hkind := Pc.kind_of_child hq
  cases hc : (s.cpu c).cur with
  | none =>
    rw [tid_off hc] at hkind
    have hst := h.sstack c
    cases hs : s.saved (.sched c) with
    | nil => rw [hs] at hst; exact absurd (hkind.symm.trans hst) (by simp)
    | cons k ks => rw [hs] at hst; exact absurd (hkind.symm.trans hst.1) (by simp)
  | some p =>
    rw [tid_on hc] at hkind hq ⊢
    exact ⟨(h.stack p).alone (by rw [hkind]; simp), p, rfl, _, List.mem_cons_self, hq⟩

section move
variable (h : SchedInv D s) (hk : (s.pc (tid s c)).plain = true)

variable {d : PCB n}

include h hk in
/-- A process on another CPU keeps its state. -/
theorem SchedInv.set_other (hset : SetOk s (s.cpu c).proc (s.pc (tid s c)) q d next)
    (hc : (s.cpu c').cur = some q) (hne : c' ≠ c) :
    d.state = (s.proc q).state ∧ d.chan = (s.proc q).chan := by
  have hme : (s.cpu c).proc ≠ some q := fun e => hne (h.uniq c' c q hc (h.me hk e))
  have hlock : ∀ P : Prop, (s.pc (tid s c)).held.is (s.cpu c).proc q → (s.proc q).state ≠ .running → P :=
    fun P h1 h2 => absurd (h.lock_uniq (h.own_lock hc h2) h1) hne
  have hused : (s.pc (tid s c)).child = some q → (s.proc q).state ≠ .running := fun e => by
    obtain ⟨_, p, _, ho⟩ := h.of_child e
    rw [h.child p q ho]
    simp
  cases hset with
  | own self => exact absurd self hme
  | keep state chan => exact ⟨state, chan.resolve_right hme⟩
  | wake held was | reap held was | made held was => exact hlock _ held (by rw [was]; simp)
  | abort held was | ready held was => exact hlock _ held (hused was)

include h hk in
/-- A process on no CPU stays parked. -/
theorem SchedInv.set_parked (hset : SetOk s (s.cpu c).proc (s.pc (tid s c)) q d next)
    (hoff : ∀ c, (s.cpu c).cur ≠ some q) : Parked (s.pc (.proc q)) d := by
  have hme : (s.cpu c).proc ≠ some q := fun e => hoff c (h.me hk e)
  have hp := h.off q hoff
  have hborn : (s.pc (tid s c)).child = some q → s.pc (.proc q) = .born := fun e => by
    obtain ⟨_, p, _, ho⟩ := h.of_child e
    unfold Parked at hp
    rw [h.child p q ho] at hp
    exact hp
  unfold Parked
  cases hset with
  | own self => exact absurd self hme
  | keep state chan =>
    unfold Parked at hp
    rw [state, chan.resolve_right hme]
    exact hp
  | wake held was state =>
    unfold Parked at hp
    rw [was] at hp
    rw [state]
    obtain ⟨call, intena, e, _⟩ := hp
    exact .inr ⟨_, intena, e, by simp⟩
  | reap held was state =>
    unfold Parked at hp
    rw [was] at hp
    rw [state]
    exact .inr hp
  | abort _ was state | ready _ was state => rw [state]; exact .inl (hborn was)
  | made held was born state => rw [state]; exact born

variable (hm : Moves s s' c next ks) (hw : Writes s s' c next ks)

include h hk hm hw in
theorem SchedInv.on_move (hc : (s.cpu c').cur = some p) : (s'.proc p).state = (s'.pc (.proc p)).state := by
  have hon := h.on c' p hc
  by_cases e : c' = c
  · subst e
    have ht := tid_on hc
    have hnext : s'.pc (.proc p) = next := ht ▸ hm.self.1
    rw [hnext]
    exact hw.self p hc (by rw [ht]; exact hon)
  · have hne : (s.cpu c).cur ≠ some p := fun e' => e (h.uniq c' c p hc e')
    rw [(hm.proc_other hne).1, ← hon]
    rcases hw.proc p with hsame | ⟨hset, _⟩
    · rw [hsame]
    · exact (h.set_other hk hset hc e).1

include h hk hm hw in
theorem SchedInv.chan_move {call : SleepCall n} (hc : (s.cpu c').cur = some p)
    (hp : s'.pc (.proc p) = .sched (.sleep call) ∨ ∃ intena, s'.pc (.proc p) = .swtch (.sleep call) intena) :
    (s'.proc p).chan = some call.chan := by
  by_cases e : c' = c
  · subst e
    have ht := tid_on hc
    have hnext : s'.pc (.proc p) = next := ht ▸ hm.self.1
    rw [hnext] at hp
    rcases hp with hp | ⟨intena, hp⟩
    · exact hw.chan p call hc hp
    · obtain ⟨hwas, hsame⟩ := hw.swtch p _ _ hc hp
      rw [ht] at hwas
      rw [hsame]
      exact h.chan c' p call hc (.inl hwas)
  · have hne : (s.cpu c).cur ≠ some p := fun e' => e (h.uniq c' c p hc e')
    rw [(hm.proc_other hne).1] at hp
    have hch := h.chan c' p call hc hp
    rcases hw.proc p with hsame | ⟨hset, _⟩
    · rw [hsame]; exact hch
    · rw [(h.set_other hk hset hc e).2]; exact hch

include h hk hm hw in
theorem SchedInv.off_move (hoff : ∀ c, (s.cpu c).cur ≠ some p) : Parked (s'.pc (.proc p)) (s'.proc p) := by
  rw [(hm.proc_other (hoff c)).1]
  rcases hw.proc p with hsame | ⟨hset, _⟩
  · rw [hsame]; exact h.off p hoff
  · exact h.set_parked hk hset hoff

include h hk hw in
/-- A process in `swtch` keeps its state, because another CPU has its lock. -/
theorem SchedInv.dispatched_move (hc : (s.cpu c').cur = none) (hq : s.pc (.sched c') = .toSwtch q) :
    (s'.proc q).state = .running := by
  have hrun := h.dispatched c' q hc hq
  have hoff := h.switching c' q hc (by rw [hq]; rfl)
  rcases hw.proc q with hsame | ⟨hset, _⟩
  · rw [hsame]; exact hrun
  · cases hset with
    | own self => exact absurd (h.me hk self) (hoff c)
    | keep state => rw [state]; exact hrun
    | wake _ was | reap _ was | made _ was => rw [hrun] at was; cases was
    | abort _ was | ready _ was =>
      obtain ⟨_, p, _, ho⟩ := h.of_child was
      rw [h.child p q ho] at hrun
      cases hrun

include h hk hw in
theorem SchedInv.running_move (hq : (s'.proc q).state = .running) :
    (∃ c, (s.cpu c).cur = some q) ∨ ∃ c, (s.cpu c).cur = none ∧ s.pc (.sched c) = .toSwtch q := by
  rcases hw.proc q with hsame | ⟨hset, _⟩
  · rw [hsame] at hq; exact h.running q hq
  · cases hset with
    | own self => exact .inl ⟨c, h.me hk self⟩
    | keep state => rw [state] at hq; exact h.running q hq
    | wake _ _ state | reap _ _ state | abort _ _ state | ready _ _ state | made _ _ _ state =>
      rw [state] at hq; cases hq

include hm hw in
/-- Who owns a slot owned it before, or has just taken it. -/
theorem owns_move (ho : Owns s' p q) :
    Owns s p q ∨ (s.cpu c).cur = some p ∧ (s.proc q).state = .unused ∧ (s'.proc q).state = .used := by
  obtain ⟨x, hx, hxq⟩ := ho
  by_cases hp : (s.cpu c).cur = some p
  · have ht := tid_on hp
    have hself := hm.self
    rw [ht] at hself
    rw [hself.1, hself.2] at hx
    rcases hw.child q x hx hxq with ⟨y, hy, hyq⟩ | hnew
    · rw [ht] at hy
      exact .inl ⟨y, hy, hyq⟩
    · exact .inr ⟨hp, hnew⟩
  · rw [(hm.proc_other hp).1, (hm.proc_other hp).2] at hx
    exact .inl ⟨x, hx, hxq⟩

include h hk hm hw in
theorem SchedInv.child_move (ho : Owns s' p q) : (s'.proc q).state = .used := by
  rcases owns_move hm hw ho with hold | ⟨_, _, hnew⟩
  · have hused := h.child p q hold
    rcases hw.proc q with hsame | ⟨hset, hks⟩
    · rw [hsame]; exact hused
    · -- the thread that gives up its child does not own it any more
      have hgone : (s.pc (tid s c)).child = some q → next.child = none → False := fun hc hn => by
        obtain ⟨hs, p', hp', ho'⟩ := h.of_child hc
        have hpp := h.owner p p' q hold ho'
        subst hpp
        obtain ⟨x, hx, hxq⟩ := ho
        have hself := hm.self
        rw [hks, hs, tid_on hp'] at hself
        rw [hself.1, hself.2, List.mem_singleton] at hx
        rw [hx, hn] at hxq
        cases hxq
      cases hset with
      | own self =>
        have hon := h.on c q (h.me hk self)
        exact absurd (hon.symm.trans hused) (Pc.state_live _).2
      | keep state => rw [state]; exact hused
      | wake _ was | reap _ was | made _ was => rw [hused] at was; cases was
      | abort _ was _ child | ready _ was _ child => exact (hgone was child).elim
  · exact hnew

include h hm hw in
theorem SchedInv.owner_move {p' : Fin n} (ho : Owns s' p q) (ho' : Owns s' p' q) : p = p' := by
  have hnew : ∀ p, Owns s p q → (s.proc q).state ≠ .unused := fun p ho => by rw [h.child p q ho]; simp
  rcases owns_move hm hw ho with hold | ⟨hc, hun, _⟩
  · rcases owns_move hm hw ho' with hold' | ⟨_, hun, _⟩
    · exact h.owner p p' q hold hold'
    · exact absurd hun (hnew p hold)
  · rcases owns_move hm hw ho' with hold' | ⟨hc', _⟩
    · exact absurd hun (hnew p' hold')
    · rw [hc] at hc'
      exact Option.some.inj hc'

include h hk hm hw in
theorem SchedInv.move (hnext : next.plain = true)
    (hlock : ∀ q c', s'.lock (.proc q) = some c' ↔
      if c' = c then next.held.is (s.cpu c).proc q else s.lock (.proc q) = some c')
    (hstack : ∀ b, Stack b (s.cpu c).proc (s.pc (tid s c)) (s.saved (tid s c)) →
    Stack b (s.cpu c).proc next ks) (hlocks : LockInv s') (hdepth : DepthInv D s') : SchedInv D s' where
  holds c' q := by
    rw [hlock, hm.proc, tid_congr (hm.cur c')]
    by_cases e : c' = c
    · rw [if_pos e, e, hm.self.1]
    · rw [if_neg e, (hm.other (h.tid_ne e)).1]
      exact h.holds c' q
  uniq c1 c2 p h1 h2 := by
    rw [hm.cur] at h1 h2
    exact h.uniq c1 c2 p h1 h2
  onCpu c' p hc := by
    rw [hm.cur] at hc
    obtain ⟨h1, h2, h3⟩ := h.onCpu c' p hc
    have hs : ¬((s.cpu c).cur = none ∧ c = c') := by
      rintro ⟨e, rfl⟩
      rw [hc] at e
      cases e
    refine ⟨by rw [hm.proc]; exact h1, by rw [(hm.sched_other hs).1]; exact h2, ?_⟩
    by_cases e : (s.cpu c).cur = some p
    · rw [← tid_on e, hm.self.1]; exact hnext
    · rw [(hm.proc_other e).1]; exact h3
  offCpu c' hc := by
    rw [hm.cur] at hc
    obtain ⟨h1, h2⟩ := h.offCpu c' hc
    rw [hm.proc]
    by_cases e : c' = c
    · subst e
      have ht := tid_off hc
      have hself : s'.pc (.sched c') = next := ht ▸ hm.self.1
      rw [ht] at hk
      rw [hself, h1, Pc.runs_of_plain hk, Pc.runs_of_plain hnext]
      exact ⟨rfl, .inl hnext⟩
    · rw [(hm.sched_other (fun h => e h.2.symm)).1]
      exact ⟨h1, h2⟩
  stack p := by
    by_cases e : (s.cpu c).cur = some p
    · have hs := hstack .process
      rw [(h.onCpu c p e).1, tid_on e] at hs
      have hself := hm.self
      rw [tid_on e] at hself
      rw [hself.1, hself.2]
      exact hs (h.stack p)
    · rw [(hm.proc_other e).1, (hm.proc_other e).2]
      exact h.stack p
  sstack c' := by
    by_cases e : (s.cpu c).cur = none ∧ c = c'
    · obtain ⟨hc, rfl⟩ := e
      have hs := hstack .scheduler
      have ht := tid_off hc
      rw [ht] at hk
      rw [(h.offCpu c hc).1, Pc.runs_of_plain hk, ht] at hs
      have hself := hm.self
      rw [ht] at hself
      rw [hself.1, hself.2]
      exact hs (h.sstack c)
    · rw [(hm.sched_other e).1, (hm.sched_other e).2]
      exact h.sstack c'
  on c' p hc := h.on_move hk hm hw (by rw [← hm.cur]; exact hc)
  chan c' p call hc hp := h.chan_move hk hm hw (by rw [← hm.cur]; exact hc) hp
  off p hoff := h.off_move hk hm hw fun c' => by rw [← hm.cur]; exact hoff c'
  dispatched c' q hc hq := by
    rw [hm.cur] at hc
    refine h.dispatched_move hk hw hc ?_
    by_cases e : (s.cpu c).cur = none ∧ c = c'
    · obtain ⟨hc, rfl⟩ := e
      rw [← tid_off hc, hm.self.1] at hq
      rw [hq] at hnext
      cases hnext
    · rw [(hm.sched_other e).1] at hq
      exact hq
  switching c' q hc hq c'' := by
    rw [hm.cur] at hc ⊢
    refine h.switching c' q hc ?_ c''
    by_cases e : (s.cpu c).cur = none ∧ c = c'
    · obtain ⟨hc, rfl⟩ := e
      rw [← tid_off hc, hm.self.1, Pc.runs_of_plain hnext] at hq
      cases hq
    · rw [(hm.sched_other e).1] at hq
      exact hq
  running q hq := by
    rcases h.running_move hk hw hq with ⟨c', hc⟩ | ⟨c', hc, hq⟩
    · exact .inl ⟨c', by rw [hm.cur]; exact hc⟩
    · refine .inr ⟨c', by rw [hm.cur]; exact hc, ?_⟩
      have e : ¬((s.cpu c).cur = none ∧ c = c') := by
        rintro ⟨e, rfl⟩
        rw [tid_off e, hq] at hk
        cases hk
      rw [(hm.sched_other e).1]
      exact hq
  child p q ho := h.child_move hk hm hw ho
  owner p p' q ho ho' := h.owner_move hm hw ho ho'
  locks := hlocks
  depth := hdepth

end move

/-! ## Locks and `noff` -/

section
variable (h : LockInv s)
include h

theorem LockInv.same (hl : s'.lock = s.lock) (hn : ∀ c, (s'.cpu c).noff = (s.cpu c).noff)
    (hi : ∀ c, (s'.cpu c).intr = true → (s.cpu c).intr = true ∨ (s.cpu c).noff = 0) : LockInv s' where
  count c := by
    rw [hl, hn]
    exact h.count c
  intr c hc := by
    rw [hn]
    exact (hi c hc).elim (h.intr c) id

theorem LockInv.take (hfree : s.lock l = none) (hl : s'.lock = update s.lock l (some c))
    (hn : (s'.cpu c).noff = (s.cpu c).noff + 1) (hi : (s'.cpu c).intr = false)
    (hother : ∀ c', c' ≠ c → s'.cpu c' = s.cpu c') : LockInv s' where
  count c' := by
    obtain ⟨F, hF, hcard⟩ := h.count c'
    rw [hl]
    by_cases e : c' = c
    · subst e
      have hnot : l ∉ F := fun hm => by rw [hF, hfree] at hm; cases hm
      refine ⟨insert l F, fun l' => ?_, by rw [hn, hcard, Finset.card_insert_of_notMem hnot]⟩
      rw [Finset.mem_insert, hF]
      by_cases el : l' = l
      · simp [el]
      · rw [update_of_ne el]
        simp [el]
    · refine ⟨F, fun l' => ?_, by rw [hother c' e]; exact hcard⟩
      rw [hF]
      by_cases el : l' = l
      · simp [el, hfree, Ne.symm e]
      · rw [update_of_ne el]
  intr c' hc := by
    by_cases e : c' = c
    · rw [e, hi] at hc; cases hc
    · rw [hother c' e] at hc ⊢
      exact h.intr c' hc

/-- A CPU that holds a lock has `noff` at least 1, and interrupts off. -/
theorem LockInv.off (hl : s.lock l = some c) :
    1 ≤ (s.cpu c).noff ∧ (s.cpu c).intr = false := by
  obtain ⟨F, hF, hcard⟩ := h.count c
  have hpos : 1 ≤ (s.cpu c).noff := by
    rw [hcard]
    exact Finset.card_pos.2 ⟨l, (hF l).2 hl⟩
  refine ⟨hpos, ?_⟩
  cases hi : (s.cpu c).intr with
  | false => rfl
  | true => have := h.intr c hi; omega

theorem LockInv.drop (hheld : s.lock l = some c) (hl : s'.lock = update s.lock l none)
    (hn : (s'.cpu c).noff = (s.cpu c).noff - 1) (hi : (s'.cpu c).intr = true → (s'.cpu c).noff = 0)
    (hother : ∀ c', c' ≠ c → s'.cpu c' = s.cpu c') : LockInv s' where
  count c' := by
    obtain ⟨F, hF, hcard⟩ := h.count c'
    rw [hl]
    by_cases e : c' = c
    · subst e
      have hin : l ∈ F := (hF l).2 hheld
      refine ⟨F.erase l, fun l' => ?_, by rw [hn, hcard, Finset.card_erase_of_mem hin]⟩
      rw [Finset.mem_erase, hF]
      by_cases el : l' = l
      · simp [el]
      · rw [update_of_ne el]
        simp [el]
    · refine ⟨F, fun l' => ?_, by rw [hother c' e]; exact hcard⟩
      rw [hF]
      by_cases el : l' = l
      · simp [el, hheld, Ne.symm e]
      · rw [update_of_ne el]
  intr c' hc := by
    by_cases e : c' = c
    · rw [e] at hc ⊢
      exact hi hc
    · rw [hother c' e] at hc ⊢
      exact h.intr c' hc

/-- `pop_off` does not panic in `release`. -/
theorem LockInv.popOff (hl : s.lock l = some c) : popOff (s.cpu c) =
    { s.cpu c with noff := (s.cpu c).noff - 1, intr := (s.cpu c).noff = 1 && (s.cpu c).intena } := by
  obtain ⟨h1, h2⟩ := h.off hl
  unfold Sched.popOff
  rw [h2, if_neg (by simp), if_neg (by omega)]

end

theorem DepthInv.move (hd : DepthInv D s) (h : SchedInv D s) (hm : Moves s s' c next ks)
    (hother : ∀ c', c' ≠ c → (s'.cpu c').noff = (s.cpu c').noff)
    (hnow : ∀ d, D next = some d → (s'.cpu c).noff = d)
    (hsaved : ∀ k ∈ ks, k ∈ s.saved (tid s c) ∨ ∀ d, D k = some d → d = 0) : DepthInv D s' where
  now c' d hc := by
    rw [tid_congr (hm.cur c')] at hc
    by_cases e : c' = c
    · rw [e, hm.self.1] at hc
      rw [e]
      exact hnow d hc
    · rw [(hm.other (h.tid_ne e)).1] at hc
      rw [hother c' e]
      exact hd.now c' d hc
  saved t k d hk hkd := by
    by_cases e : t = tid s c
    · rw [e, hm.self.2] at hk
      rcases hsaved k hk with hk | hk
      · exact hd.saved _ k d hk hkd
      · exact hk d hkd
    · rw [(hm.other e).2] at hk
      exact hd.saved t k d hk hkd

end
end Xv6.Sched
