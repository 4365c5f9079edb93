import Xv6.Proc.Reap

/-!
# kill and the killed flag (`kernel/proc.c`)

`allocproc` does not clear `killed`, so a new
process starts unkilled only if the flag of an `UNUSED` slot is always clear.
It is while nobody calls `kill(0)`: `UNUSED` slots have pid 0.

`marks` records which processes `kill` and `setkilled` have marked, by their
ghost numbers.

* `kill_live`: without `kill(0)`, `kill` marks only the live process it is
  given the pid of, and a live process is marked only by a `kill` with its
  pid or by `setkilled` since it was made.
* `kill_zero`: `kill(0)` returns 0 for an `UNUSED` slot, and the next process
  forked into it is born killed.
-/
namespace Xv6.Proc
open Function (update update_self update_of_ne update_apply)

section
variable {n : Nat}

/-! ## The call -/

/-- mirrors kernel/proc.c:593-597 -/
def killOne (s : Sys n) (q : Fin n) : Sys n :=
  { s with
    killed := update s.killed q true
    state := if s.state q = .sleeping then update s.state q .runnable else s.state }

/-- The return value of `kill(pid)` from `proc[j]` on, and the table after it,
if no other process runs in between.
mirrors kernel/proc.c:585-604 -/
def kill (s : Sys n) (pid : Int32) : Nat → Nat → Int32 × Sys n
  | 0, _ => (-1, s)
  | passes + 1, j =>
    if h : j < n then
      if s.pid ⟨j, h⟩ = pid then (0, killOne s ⟨j, h⟩) else kill s pid passes (j + 1)
    else (-1, s)

variable {p : Fin n} {pid : Int32} {j : Nat}

theorem killPass_hit (h : s.pid q = pid) :
    killPass s p pid q.1 = goto (killOne s q) p .user := by
  unfold killPass
  rw [dif_pos q.isLt, if_pos h]
  rfl

theorem killPass_miss (h : ∀ hj : j < n, s.pid ⟨j, hj⟩ ≠ pid) :
    ∃ c, killPass s p pid j = goto s p c := by
  unfold killPass
  split
  · rename_i hj
    rw [if_neg (h hj)]
    exact ⟨_, rfl⟩
  · exact ⟨_, rfl⟩

/-! ## Who has been marked -/

variable {s s' : Sys n} {l : Lbl n} {q : Fin n}

/-- `killed` is set for the process with this number. -/
inductive Mark where
  | kill (g : Nat) (pid : Int32)
  | setkilled (g : Nat)
  deriving DecidableEq, Repr

def Mark.proc : Mark → Nat
  | kill g _ => g
  | setkilled g => g

def marksOf (s : Sys n) : Lbl n → List Mark
  | .go p _ =>
    match s.pc p with
    | .kill pid j =>
      if h : j < n then
        if s.pid ⟨j, h⟩ = pid then [.kill (s.gen ⟨j, h⟩) pid] else []
      else []
    | _ => []
  | .setkilled p => [.setkilled (s.gen p)]
  | _ => []

/-- The process table and the marks so far, newest first. -/
structure Marked (n : Nat) where
  sys : Sys n
  marks : List Mark

/-- The table after `userinit`: the array of `struct proc` starts as zeros. -/
structure Booted (s : Sys n) : Prop extends Init s where
  unkilled : ∀ q, s.killed q = false
  pids : ∀ q, q ≠ s.initproc → s.pid q = 0

/-- Runs whose steps all have a label that `P` allows. -/
def killLts (n : Nat) (P : Lbl n → Prop) : LTS (Marked n) (Lbl n) where
  init m := Booted m.sys ∧ m.marks = []
  step m l m' := P l ∧ step m.sys l = some m'.sys ∧ m'.marks = marksOf m.sys l ++ m.marks

/-- Nobody calls `kill(0)`. -/
def NotKillZero (l : Lbl n) : Prop := ∀ p, l ≠ .kill p 0

structure KillInv (m : Marked n) : Prop where
  inv : Inv m.sys
  ghost : Ghost m.sys
  empty : ∀ q, m.sys.state q = .unused → m.sys.pid q = 0 ∧ m.sys.killed q = false
  calls : ∀ p pid j, m.sys.pc p = .kill pid j → pid ≠ 0
  old : ∀ k ∈ m.marks, k.proc < m.sys.nextgen
  marked : ∀ q, m.sys.state q ≠ .unused → m.sys.killed q = true →
    .kill (m.sys.gen q) (m.sys.pid q) ∈ m.marks ∨ .setkilled (m.sys.gen q) ∈ m.marks

theorem nextgen_le (h : Inv s) (hs : step s l = some s') : s.nextgen ≤ s'.nextgen := by
  cases effect_step h hs with
  | neutral hn => rw [hn.nextgen]
  | fork p np _ _ e => rw [e]; exact Nat.le_succ _
  | exit _ _ _ _ e | reap _ _ _ _ _ _ _ _ _ _ e => rw [e]; exact Nat.le_refl _

theorem marksOf_hit {ok : Bool} (hp : s.pc p = .kill (s.pid q) q.1) :
    marksOf s (.go p ok) = [.kill (s.gen q) (s.pid q)] := by
  simp only [marksOf, hp, dif_pos q.isLt, if_true]

/-- A live process is marked. -/
theorem KillInv.mark_live {m : Marked n} (h : KillInv m) (hs : step m.sys l = some s') {k : Mark}
    (hk : k ∈ marksOf m.sys l) : ∃ q, m.sys.state q ≠ .unused ∧ k.proc = m.sys.gen q := by
  cases l with
  | go p ok =>
    unfold marksOf at hk
    simp only at hk
    cases hp : m.sys.pc p with
    | kill pid j =>
      rw [hp] at hk
      simp only at hk
      split at hk
      · rename_i hj
        split at hk
        · rename_i hpid
          refine ⟨⟨j, hj⟩, fun hun => h.calls p pid j hp ?_, ?_⟩
          · rw [← hpid]; exact (h.empty _ hun).1
          · rw [List.mem_singleton.1 hk]; rfl
        · cases hk
      · cases hk
    | _ => rw [hp] at hk; cases hk
  | setkilled p =>
    simp only [step, Option.ite_none_right_eq_some, Option.some.injEq] at hs
    refine ⟨p, by rw [hs.1.1]; simp, ?_⟩
    rw [List.mem_singleton.1 hk]; rfl
  | _ => cases hk

theorem KillInv.not_hits {m : Marked n} (h : KillInv m) (hq : m.sys.state q = .unused) : ¬Hits m.sys l q := by
  rintro (⟨-, hu⟩ | ⟨p, ok, -, hp⟩)
  · exact hu hq
  · exact h.calls p _ _ hp (h.empty q hq).1

/-- A free slot has pid 0 and no mark. -/
theorem KillInv.empty_step {m : Marked n} (h : KillInv m) (hs : step m.sys l = some s')
    (hq : s'.state q = .unused) : s'.pid q = 0 ∧ s'.killed q = false := by
  cases effect_step h.inv hs with
  | neutral d =>
    have hq := (d.slot q).lives.1.1 hq
    obtain ⟨h1, h2⟩ := h.empty q hq
    constructor
    · rcases (d.slot q).pid with e | e
      · rw [e, h1]
      · exact e.2
    · rcases (d.slot q).killed with e | e | e
      · rw [e, h2]
      · exact absurd e.2 (h.not_hits hq)
      · exact e.2
  | fork p np _ _ e =>
    subst e
    by_cases e : q = np
    · simp [fork, e] at hq
    · simpa [fork, e] using h.empty q (by simpa [fork, e] using hq)
  | exit p st _ _ e =>
    subst e
    exact h.empty q hq
  | reap p x _ _ _ _ _ _ _ _ e =>
    subst e
    by_cases e : q = x
    · simp [record, goto, unlock, freeproc, e]
    · simpa [record, goto, unlock, freeproc, e] using h.empty q
        (by simpa [record, goto, unlock, freeproc, e] using hq)

/-- Nobody is in a `kill(0)`. -/
theorem KillInv.calls_step {m : Marked n} (h : KillInv m) (hl : NotKillZero l) (hs : step m.sys l = some s')
    (hp : s'.pc p = .kill pid j) : pid ≠ 0 := by
  cases effect_step h.inv hs with
  | neutral d =>
    rcases (d.slot p).calling pid j hp with rfl | ⟨j', hj⟩
    · rintro rfl
      exact hl p rfl
    · exact h.calls p pid j' hj
  | fork r np _ _ e | exit r st _ _ e | reap r x _ _ _ _ _ _ _ _ e =>
    refine h.calls p pid j ?_
    subst e
    simp only [fork, record, goto, unlock, freeproc, update_apply] at hp
    split_ifs at hp
    exact hp

/-- A marked process has been marked since it was made. -/
theorem KillInv.marked_step {m : Marked n} (h : KillInv m) (hs : step m.sys l = some s')
    (hq : s'.state q ≠ .unused) (hk : s'.killed q = true) :
    .kill (s'.gen q) (s'.pid q) ∈ marksOf m.sys l ++ m.marks ∨
    .setkilled (s'.gen q) ∈ marksOf m.sys l ++ m.marks := by
  have hold : m.sys.state q ≠ .unused → m.sys.killed q = true → s'.gen q = m.sys.gen q →
    s'.pid q = m.sys.pid q →
      .kill (s'.gen q) (s'.pid q) ∈ marksOf m.sys l ++ m.marks ∨
      .setkilled (s'.gen q) ∈ marksOf m.sys l ++ m.marks := by
    intro h1 h2 h3 h4
    rw [h3, h4]
    exact (h.marked q h1 h2).imp (List.mem_append_right _) (List.mem_append_right _)
  cases effect_step h.inv hs with
  | neutral d =>
    have hu : m.sys.state q ≠ .unused := fun e => hq ((d.slot q).lives.1.2 e)
    have hpid := (d.slot q).pid_eq hu
    rcases (d.slot q).killed with e | ⟨-, ⟨rfl, -⟩ | ⟨p, ok, rfl, hp⟩⟩ | ⟨e, -⟩
    · exact hold hu (e ▸ hk) (by rw [d.gen]) hpid
    · simp [marksOf, d.gen]
    · simp [marksOf_hit hp, d.gen, hpid]
    · exact absurd e hu
  | fork p np _ hnp e =>
    subst e
    by_cases e : q = np
    · subst e
      cases hk.symm.trans (h.empty q hnp).2
    · exact hold (by simpa [fork, e] using hq) hk (update_of_ne e ..) (update_of_ne e ..)
  | exit p st _ _ e =>
    subst e
    exact hold hq hk rfl rfl
  | reap p x _ _ _ _ _ _ _ _ e =>
    subst e
    by_cases e : q = x
    · simp [record, goto, unlock, freeproc, e] at hq
    · simp only [record, goto, unlock, freeproc, update_of_ne e] at hq hk
      exact hold hq hk rfl (update_of_ne e ..)

theorem killInv_step {m m' : Marked n} (h : KillInv m)
    (hs : (killLts n NotKillZero).step m l m') : KillInv m' := by
  obtain ⟨hl, hs, hm⟩ := hs
  refine ⟨inv_step h.inv hs, ghost_step h.inv h.ghost hs, fun q => h.empty_step hs,
    fun p pid j => h.calls_step hl hs, fun k hk => ?_, fun q hq hkilled => hm ▸ h.marked_step hs hq hkilled⟩
  have hmono := nextgen_le h.inv hs
  rw [hm] at hk
  rcases List.mem_append.1 hk with hk | hk
  · obtain ⟨q, h1, h2⟩ := h.mark_live hs hk
    have := h.ghost.fresh q h1
    omega
  · have := h.old k hk
    omega

theorem killInv_init {m : Marked n} (h : (killLts n NotKillZero).init m) : KillInv m := by
  obtain ⟨hb, hm⟩ := h
  refine ⟨inv_init hb.toInit, ghost_init hb.toInit, fun q hq => ⟨hb.pids q ?_, hb.unkilled q⟩,
    fun p pid j hp => ?_, fun k hk => ?_, fun q _ hk => ?_⟩
  · intro e
    have := hb.init.1
    rw [← e, hq] at this; cases this
  · by_cases e : p = m.sys.initproc
    · rw [e, hb.init.2.1] at hp; cases hp
    · rw [(hb.rest p e).2.1] at hp; cases hp
  · rw [hm] at hk; cases hk
  · rw [hb.unkilled q] at hk; cases hk

theorem killInv_reachable {m : Marked n} (h : (killLts n NotKillZero).Reachable m) : KillInv m :=
  LTS.Inductive.reachable (M := killLts n NotKillZero) ⟨fun _ => killInv_init, fun _ _ _ => killInv_step⟩ h

/-- An undisturbed `kill` from `proc[j]` on finds the first slot with the
pid, or there is none. -/
theorem kill_spec (s : Sys n) (pid : Int32) (passes : Nat) : ∀ j, n ≤ j + passes →
    ((kill s pid passes j).1 = 0 ∧ ∃ q, s.pid q = pid ∧ (kill s pid passes j).2 = killOne s q) ∨
    (kill s pid passes j = (-1, s) ∧ ∀ q : Fin n, j ≤ q.1 → s.pid q ≠ pid) := by
  induction passes with
  | zero =>
    intro j hj
    refine .inr ⟨rfl, fun q hq => ?_⟩
    omega
  | succ passes ih =>
    intro j hj
    unfold kill
    split
    · rename_i hlt
      by_cases hpid : s.pid ⟨j, hlt⟩ = pid
      · rw [if_pos hpid]
        exact .inl ⟨rfl, ⟨j, hlt⟩, hpid, rfl⟩
      · rw [if_neg hpid]
        rcases ih (j + 1) (by omega) with h | ⟨h1, h2⟩
        · exact .inl h
        · refine .inr ⟨h1, fun q hq => ?_⟩
          by_cases e : q.1 = j
          · rw [show q = ⟨j, hlt⟩ from Fin.ext e]; exact hpid
          · exact h2 q (by omega)
    · refine .inr ⟨rfl, fun q hq => ?_⟩
      omega

/-- Without `kill(0)`: a `kill` marks only the live process with its pid, also
when other processes run between its sections, and a live process has been
marked, since it was made, by a `kill` with its pid or by `setkilled`. -/
theorem kill_live {m : Marked n} (h : (killLts n NotKillZero).Reachable m) :
    (∀ pid, pid ≠ 0 →
      ((kill m.sys pid n 0).1 = 0 ∧ ∃ q, m.sys.state q ≠ .unused ∧ m.sys.pid q = pid ∧
        (kill m.sys pid n 0).2 = killOne m.sys q) ∨
      (kill m.sys pid n 0 = (-1, m.sys) ∧ ∀ q, m.sys.pid q ≠ pid)) ∧
    (∀ p pid j ok s', m.sys.pc p = .kill pid j → step m.sys (.go p ok) = some s' →
      (∃ q : Fin n, q.1 = j ∧ m.sys.state q ≠ .unused ∧ m.sys.pid q = pid ∧
        s' = goto (killOne m.sys q) p .user) ∨
      ((∀ q : Fin n, q.1 = j → m.sys.pid q ≠ pid) ∧ ∃ c, s' = goto m.sys p c)) ∧
    (∀ p np s', step m.sys (.fork p np) = some s' → s'.killed np = false ∧
      ∀ k ∈ m.marks, k.proc ≠ s'.gen np) ∧
    ∀ q, m.sys.state q ≠ .unused → m.sys.killed q = true →
      .kill (m.sys.gen q) (m.sys.pid q) ∈ m.marks ∨ .setkilled (m.sys.gen q) ∈ m.marks := by
  have hinv := killInv_reachable h
  have hlive : ∀ q, m.sys.pid q ≠ 0 → m.sys.state q ≠ .unused := fun q hq hun => hq (hinv.empty q hun).1
  refine ⟨fun pid hpid => ?_, fun p pid j ok s' hp hs => ?_, fun p np s' hs => ?_, hinv.marked⟩
  · rcases kill_spec m.sys pid n 0 (by omega) with ⟨h1, q, h2, h3⟩ | ⟨h1, h2⟩
    · exact .inl ⟨h1, q, hlive q (by rw [h2]; exact hpid), h2, h3⟩
    · exact .inr ⟨h1, fun q => h2 q (Nat.zero_le _)⟩
  · have hpid := hinv.calls p pid j hp
    simp only [step, go, hp, Option.ite_none_right_eq_some, Option.some.injEq] at hs
    rw [← hs.2]
    by_cases hhit : ∃ q : Fin n, q.1 = j ∧ m.sys.pid q = pid
    · obtain ⟨q, e, hq⟩ := hhit
      refine .inl ⟨q, e, hlive q (by rw [hq]; exact hpid), hq, ?_⟩
      rw [← e]; exact killPass_hit hq
    · refine .inr ⟨fun q e hq => hhit ⟨q, e, hq⟩, killPass_miss (fun hj hq => hhit ⟨⟨j, hj⟩, rfl, hq⟩)⟩
  · simp only [step, Option.ite_none_right_eq_some, Option.some.injEq] at hs
    obtain ⟨⟨-, -, hnp⟩, rfl⟩ := hs
    refine ⟨(hinv.empty np hnp).2, fun k hk e => ?_⟩
    have := hinv.old k hk
    rw [e] at this
    simp [fork] at this

end

theorem booted_boot : Booted boot where
  toInit := ⟨by decide, by decide, rfl, rfl, rfl⟩
  unkilled := by decide
  pids := by decide

/-- One step of the table with its marks. -/
def markStep {n : Nat} (m : Marked n) (l : Lbl n) : Option (Marked n) :=
  (step m.sys l).map fun s' => ⟨s', marksOf m.sys l ++ m.marks⟩

theorem run_marks {n : Nat} {P : Lbl n → Prop} {ls : List (Lbl n)} (hP : ∀ l ∈ ls, P l) :
    ∀ {m m' : Marked n}, ls.foldlM markStep m = some m' → (killLts n P).Run m ls m' := by
  induction ls with
  | nil => intro m m' h; cases h; exact .nil m
  | cons l ls ih =>
    intro m m' h
    rw [List.foldlM_cons, Option.bind_eq_bind, Option.bind_eq_some_iff] at h
    obtain ⟨t, h1, h2⟩ := h
    obtain ⟨s', h3, h4⟩ := Option.map_eq_some_iff.1 h1
    refine .cons ⟨hP l (List.mem_cons_self ..), ?_, ?_⟩ (ih (fun k hk => hP k (List.mem_cons_of_mem _ hk)) h2)
    · rw [← h4]; exact h3
    · rw [← h4]

/-- Init forks a process and kills it. -/
def killsChild : List (Lbl 2) :=
  [.run 0, .fork 0 1, .go 0 true, .go 0 true, .kill 0 2, .go 0 true, .go 0 true]

def afterKill : Marked 2 := (killsChild.foldlM markStep ⟨boot, []⟩).getD ⟨boot, []⟩

/-- Init calls `kill(0)` and then `fork`. -/
def killsZero : List (Lbl 2) := [.run 0, .kill 0 0, .go 0 true, .go 0 true, .fork 0 1]

def afterZero : Marked 2 := (killsZero.foldlM markStep ⟨boot, []⟩).getD ⟨boot, []⟩

theorem reachable_marks {P : Lbl 2 → Prop} {ls : List (Lbl 2)} (hP : ∀ l ∈ ls, P l)
    (h : (ls.foldlM markStep ⟨boot, []⟩).isSome = true) :
    (killLts 2 P).Reachable ((ls.foldlM markStep ⟨boot, []⟩).getD ⟨boot, []⟩) := by
  obtain ⟨t, ht⟩ := Option.isSome_iff_exists.1 h
  refine ⟨⟨boot, []⟩, ls, ⟨booted_boot, rfl⟩, run_marks hP ?_⟩
  rw [ht]; rfl

/-- The child is killed, and by that call. -/
theorem kill_live_child : (killLts 2 NotKillZero).Reachable afterKill ∧ afterKill.sys.killed 1 = true ∧
    (.kill 1 2 ∈ afterKill.marks ∨ .setkilled 1 ∈ afterKill.marks) := by
  have hreach : (killLts 2 NotKillZero).Reachable afterKill :=
    reachable_marks (by simp [killsChild, NotKillZero]) (by decide)
  have hslot : afterKill.sys.gen 1 = 1 ∧ afterKill.sys.pid 1 = 2 ∧ afterKill.sys.state 1 ≠ .unused ∧
      afterKill.sys.killed 1 = true := by decide
  obtain ⟨g1, g2, g3, g4⟩ := hslot
  have hmark := (kill_live hreach).2.2.2 1 g3 g4
  rw [g1, g2] at hmark
  exact ⟨hreach, g4, hmark⟩

/-- `kill(0)` of the table after boot returns 0 and marks a slot without a
process; the process forked into it is killed, though nobody has marked it. -/
theorem kill_zero :
    (kill boot 0 2 0).1 = 0 ∧ (∀ q, boot.state q ≠ .unused → boot.pid q ≠ 0) ∧
    (killLts 2 fun _ => True).Reachable afterZero ∧ afterZero.sys.state 1 ≠ .unused ∧
    afterZero.sys.killed 1 = true ∧ ∀ k ∈ afterZero.marks, k.proc ≠ afterZero.sys.gen 1 :=
  ⟨by decide, by decide, reachable_marks (fun _ _ => trivial) (by decide), by decide, by decide, by decide⟩

end Xv6.Proc
