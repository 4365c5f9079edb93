import Mathlib.Data.Finset.Card
import Mathlib.Data.Finset.Insert
import Xv6.Core.LTS
import Xv6.Log.Crash

/-!
# Group commit: operations and commits interleaved (`kernel/log.c:125-235`)

Any number of processes (`P` is an arbitrary type) run
`begin_op; log_write*; end_op` again and again. Each section under `log.lock`
is one step: a pass of `begin_op`'s loop, a `log_write`, the first and the
second half of `end_op`. The body of `commit` runs without the lock, so every
pass of its loops and every header write is a step of its own, and other
processes move in between.

`sleep(&log, &log.lock)` parks the process (`asleep`); `wakeup(&log)`, or a
`kill`, sends it back to the top of the loop. A `panic` stops the log: the
panicking process keeps `log.lock`.

`hist` is a ghost record (newest first) of the calls as their callers see
them: `began`, `wrote`, `ended`, the start of each commit with the header it
is about to write, each header write, and the end of the commit.

* `commit_exclusive`: while a commit runs, no operation is outstanding, no
  `begin_op` returns, no `log_write` runs and no other commit runs.
* `op_in_one_commit`: all blocks of one operation are in the header of the
  first commit that starts after its `end_op`, and no commit starts during it.
* `commit_run`: the steps of a commit add up to `Log.commit`.
-/
namespace Xv6.Log

/-- Where a process is in the body of `commit`. -/
inductive CommitPc where
  | check
  | writeLog (tail : Nat)
  | writeHead
  | install (tail : Nat)
  | clear
  | eraseHead
  deriving DecidableEq, Repr

/-- Where a process is. -/
inductive Pc where
  | idle
  | begin
  | asleep
  | op
  | commit (c : CommitPc)
  | done
  deriving DecidableEq, Repr

/-- mirrors the `panic` calls of kernel/log.c:154, 221, 223 -/
inductive Panic where
  | logCommitting
  | tooBig
  | outsideTrans
  deriving DecidableEq, Repr

inductive Event (P : Type) where
  | began (p : P)
  | wrote (p : P) (b : UInt32)
  | ended (p : P)
  | started (p : P) (hdr : List UInt32)
  | header (hdr : List UInt32)
  | finished (p : P)
  deriving DecidableEq, Repr

structure Sys (P : Type) where
  log : St
  pc : P → Pc
  panic : Option Panic
  /-- ghost: what happened so far, newest first -/
  hist : List (Event P)

inductive Lbl (P : Type) where
  /-- an idle process calls `begin_op` -/
  | call (p : P)
  /-- one pass of `begin_op`'s loop -/
  | beginOp (p : P)
  /-- a sleeper made runnable by `kill` -/
  | kill (p : P)
  | logWrite (p : P) (b : UInt32)
  /-- the first locked section of `end_op` -/
  | endOp (p : P)
  /-- one step of the body of `commit` -/
  | commit (p : P)
  /-- the second locked section of `end_op` -/
  | endCommit (p : P)
  deriving DecidableEq, Repr

def InCommit : Pc → Prop
  | .commit _ => True
  | .done => True
  | _ => False

section
variable {P : Type} [DecidableEq P]

def Sys.at (s : Sys P) (p : P) (c : Pc) : P → Pc := fun q => if q = p then c else s.pc q

/-- `wakeup(&log)`: the sleepers of `begin_op` go back to the top of its loop. -/
def wakeup (pc : P → Pc) : P → Pc := fun q => if pc q = .asleep then .begin else pc q

/-- mirrors kernel/log.c:129-141 (one pass of the loop) -/
def beginOp (s : Sys P) (p : P) : Sys P :=
  if s.log.committing then { s with pc := s.at p .asleep }
  else if (s.log.lh.length : Int) + (s.log.outstanding + 1) * MAXOPBLOCKS > LOGSIZE then
    { s with pc := s.at p .asleep }
  else
    { s with
      log := { s.log with outstanding := s.log.outstanding + 1 }
      pc := s.at p .op
      hist := .began p :: s.hist }

/-- The header after `log_write` of block `b`: absorbed if it is there
already, else appended and pinned. -/
def absorb (l : St) (b : UInt32) : St :=
  if b ∈ l.lh then l else { bpin l b.toNat with lh := l.lh ++ [b] }

/-- mirrors kernel/log.c:214-235 -/
def logWrite (s : Sys P) (p : P) (b : UInt32) : Sys P :=
  if LOGSIZE ≤ s.log.lh.length ∨ (s.log.size : Int) - 1 ≤ s.log.lh.length then
    { s with panic := some .tooBig }
  else if s.log.outstanding < 1 then { s with panic := some .outsideTrans }
  else { s with log := absorb s.log b, hist := .wrote p b :: s.hist }

/-- `log.outstanding -= 1`. -/
def leave (l : St) : St := { l with outstanding := l.outstanding - 1 }

/-- mirrors kernel/log.c:151-167 -/
def endOp (s : Sys P) (p : P) : Sys P :=
  if s.log.committing then { s with log := leave s.log, panic := some .logCommitting }
  else if (leave s.log).outstanding = 0 then
    { s with
      log := { leave s.log with committing := true }
      pc := s.at p (.commit .check)
      hist := .started p s.log.lh :: .ended p :: s.hist }
  else { s with log := leave s.log, pc := wakeup (s.at p .idle), hist := .ended p :: s.hist }

/-- mirrors kernel/log.c:193-203, with the loops of `write_log` and
`install_trans` unrolled -/
def commitStep (s : Sys P) (p : P) : CommitPc → Sys P
  | .check =>
    if 0 < s.log.lh.length then { s with pc := s.at p (.commit (.writeLog 0)) }
    else { s with pc := s.at p .done }
  | .writeLog tail =>
    match s.log.lh[tail]? with
    | some b =>
      { s with log := writeLogPass tail b s.log, pc := s.at p (.commit (.writeLog (tail + 1))) }
    | none => { s with pc := s.at p (.commit .writeHead) }
  | .writeHead =>
    { s with
      log := writeHead s.log, pc := s.at p (.commit (.install 0)), hist := .header s.log.lh :: s.hist }
  | .install tail =>
    match s.log.lh[tail]? with
    | some b =>
      { s with log := installPass false tail b s.log, pc := s.at p (.commit (.install (tail + 1))) }
    | none => { s with pc := s.at p (.commit .clear) }
  | .clear => { s with log := clearLh s.log, pc := s.at p (.commit .eraseHead) }
  | .eraseHead => { s with log := writeHead s.log, pc := s.at p .done, hist := .header s.log.lh :: s.hist }

/-- mirrors kernel/log.c:169-174 -/
def endCommit (s : Sys P) (p : P) : Sys P :=
  { s with
    log := { s.log with committing := false }
    pc := wakeup (s.at p .idle)
    hist := .finished p :: s.hist }

/-- The section a label names, if its process is about to run it. -/
def step (s : Sys P) (l : Lbl P) : Option (Sys P) :=
  if s.panic.isSome then none
  else
    match l with
    | .call p => if s.pc p = .idle then some { s with pc := s.at p .begin } else none
    | .beginOp p => if s.pc p = .begin then some (beginOp s p) else none
    | .kill p => if s.pc p = .asleep then some { s with pc := s.at p .begin } else none
    | .logWrite p b => if s.pc p = .op then some (logWrite s p b) else none
    | .endOp p => if s.pc p = .op then some (endOp s p) else none
    | .commit p =>
      match s.pc p with
      | .commit c => some (commitStep s p c)
      | _ => none
    | .endCommit p => if s.pc p = .done then some (endCommit s p) else none

/-- After `initlog`: an empty header, nobody in an operation. The disk, the
cache and the place of the log are arbitrary. -/
structure Init (s : Sys P) : Prop where
  outstanding : s.log.outstanding = 0
  committing : s.log.committing = false
  lh : s.log.lh = []
  pc : ∀ p, s.pc p = .idle
  panic : s.panic = none
  hist : s.hist = []

def lts (P : Type) [DecidableEq P] : LTS (Sys P) (Lbl P) where
  init := Init
  step s l s' := step s l = some s'

/-- The sections that can run, with what each finds and leaves. -/
inductive Fires (s : Sys P) : Lbl P → Sys P → Prop where
  | call {p : P} (hp : s.pc p = .idle) : Fires s (.call p) { s with pc := s.at p .begin }
  | beginOp {p : P} (hp : s.pc p = .begin) : Fires s (.beginOp p) (beginOp s p)
  | kill {p : P} (hp : s.pc p = .asleep) : Fires s (.kill p) { s with pc := s.at p .begin }
  | logWrite {p : P} {b : UInt32} (hp : s.pc p = .op) : Fires s (.logWrite p b) (logWrite s p b)
  | endOp {p : P} (hp : s.pc p = .op) : Fires s (.endOp p) (endOp s p)
  | commit {p : P} {c : CommitPc} (hp : s.pc p = .commit c) : Fires s (.commit p) (commitStep s p c)
  | endCommit {p : P} (hp : s.pc p = .done) : Fires s (.endCommit p) (endCommit s p)

variable {s s' : Sys P} {l : Lbl P} {p : P} {c c' : Pc}

theorem step_fires (h : step s l = some s') : s.panic = none ∧ Fires s l s' := by
  unfold step at h
  split at h
  · cases h
  rename_i hpn
  refine ⟨by simpa using hpn, ?_⟩
  cases l with
  | commit p =>
    simp only at h
    split at h
    · rename_i c hp
      cases h
      exact .commit hp
    · cases h
  | _ p =>
    simp only [Option.ite_none_right_eq_some, Option.some.injEq] at h
    obtain ⟨hp, rfl⟩ := h
    constructor
    exact hp

omit [DecidableEq P] in
theorem InCommit.ne_op (h : InCommit c) : c ≠ .op := by
  rintro rfl
  exact h

/-- A step of the body of `commit`: its process stays in `commit`, the
counters of the log stay, and the header stays or is cleared. -/
theorem commitStep_frame (s : Sys P) (p : P) (k : CommitPc) : ∃ l c hist,
    commitStep s p k = { s with log := l, pc := s.at p c, hist := hist } ∧ InCommit c ∧
    l.outstanding = s.log.outstanding ∧ l.size = s.log.size ∧ (l.lh = s.log.lh ∨ l.lh = []) ∧
    (hist = s.hist ∨ ∃ x, hist = .header x :: s.hist) := by
  cases k with
  | check | writeLog | install =>
    simp only [commitStep]
    split <;> exact ⟨_, _, _, rfl, trivial, rfl, rfl, .inl rfl, .inl rfl⟩
  | writeHead | eraseHead => exact ⟨_, _, _, rfl, trivial, rfl, rfl, .inl rfl, .inr ⟨_, rfl⟩⟩
  | clear => exact ⟨_, _, _, rfl, trivial, rfl, rfl, .inr rfl, .inl rfl⟩

/-! ## Reading the history -/

/-- The blocks `p` logged in the operation it is in, newest first; `none`
outside an operation. -/
def curOp (p : P) : List (Event P) → Option (List UInt32)
  | [] => none
  | .began q :: h => if q = p then some [] else curOp p h
  | .ended q :: h => if q = p then none else curOp p h
  | .wrote q b :: h => if q = p then (curOp p h).map (b :: ·) else curOp p h
  | .started _ _ :: h => curOp p h
  | .header _ :: h => curOp p h
  | .finished _ :: h => curOp p h

omit [DecidableEq P] in
/-- The blocks logged since the last commit started. -/
def group : List (Event P) → List UInt32
  | [] => []
  | .wrote _ b :: h => b :: group h
  | .started _ _ :: _ => []
  | .began _ :: h => group h
  | .ended _ :: h => group h
  | .header _ :: h => group h
  | .finished _ :: h => group h

omit [DecidableEq P] in
/-- The header the running commit started with and whether it has been
written; `none` when no commit runs. -/
def running : List (Event P) → Option (List UInt32 × Bool)
  | [] => none
  | .started _ hdr :: _ => some (hdr, false)
  | .finished _ :: _ => none
  | .header _ :: h => (running h).map fun r => (r.1, true)
  | .wrote _ _ :: h => running h
  | .began _ :: h => running h
  | .ended _ :: h => running h

/-- What each event may follow. -/
def EventOk (h : List (Event P)) : Event P → Prop
  | .began p => running h = none ∧ curOp p h = none
  | .wrote p _ => running h = none ∧ (curOp p h).isSome
  | .ended p => running h = none ∧ (curOp p h).isSome
  | .started _ hdr => running h = none ∧ (∀ q, curOp q h = none) ∧ ∀ b ∈ group h, b ∈ hdr
  | .header hdr => running h = some (hdr, false) ∨ (hdr = [] ∧ ∃ x, running h = some (x, true))
  | .finished _ => ∃ x w, running h = some (x, w) ∧ (x ≠ [] → w = true)

def HistOk : List (Event P) → Prop
  | [] => True
  | e :: h => EventOk h e ∧ HistOk h

theorem HistOk.suffix {h1 h2 : List (Event P)} (h : HistOk (h1 ++ h2)) : HistOk h2 := by
  induction h1 with
  | nil => exact h
  | cons e h1 ih => exact ih h.2

/-- From `began p` to before `ended p`, `p` is in its operation: no commit
starts, and what it logs is in the group. -/
theorem during_op {p : P} {before : List (Event P)} : ∀ {during : List (Event P)},
    HistOk (during ++ .began p :: before) → .ended p ∉ during →
    (curOp p (during ++ .began p :: before)).isSome ∧ (∀ q hdr, .started q hdr ∉ during) ∧
    ∀ b, .wrote p b ∈ during → b ∈ group (during ++ .began p :: before)
  | [], _, _ => by simp [curOp]
  | e :: during, hok, hne => by
    rw [List.cons_append] at hok ⊢
    obtain ⟨hev, hok⟩ := hok
    obtain ⟨h1, h2, h3⟩ := during_op hok (fun hm => hne (List.mem_cons_of_mem _ hm))
    generalize during ++ .began p :: before = h at hev hok h1 h3 ⊢
    cases e with
    | began q =>
      have hq : q ≠ p := by rintro rfl; rw [hev.2] at h1; cases h1
      refine ⟨by simpa [curOp, hq] using h1, by simpa using h2, ?_⟩
      intro b hb; exact h3 b (by simpa using hb)
    | wrote q c =>
      refine ⟨?_, by simpa using h2, ?_⟩
      · simp only [curOp]; split <;> simpa using h1
      · intro b hb
        simp only [List.mem_cons, Event.wrote.injEq] at hb
        rcases hb with ⟨-, rfl⟩ | hb
        · exact List.mem_cons_self
        · exact List.mem_cons_of_mem _ (h3 b hb)
    | ended q =>
      have hq : q ≠ p := by rintro rfl; exact hne List.mem_cons_self
      refine ⟨by simpa [curOp, hq] using h1, by simpa using h2, ?_⟩
      intro b hb; exact h3 b (by simpa using hb)
    | started q hdr => rw [hev.2.1 p] at h1; cases h1
    | header | finished => exact ⟨h1, by simpa using h2, fun b hb => h3 b (by simpa using hb)⟩

omit [DecidableEq P] in
/-- The group only grows until a commit starts. -/
theorem group_grows {b : UInt32} {h : List (Event P)} (hb : b ∈ group h) :
    ∀ {late : List (Event P)}, (∀ q hdr, .started q hdr ∉ late) → b ∈ group (late ++ h)
  | [], _ => hb
  | e :: late, hn => by
    have ih : b ∈ group (late ++ h) := group_grows hb (fun q hdr hm => hn q hdr (List.mem_cons_of_mem _ hm))
    cases e with
    | started q hdr => exact absurd List.mem_cons_self (hn q hdr)
    | wrote q c => exact List.mem_cons_of_mem _ ih
    | began | ended | header | finished => exact ih

/-- From its start on, the commit runs until it finishes, and it has written
the header it started with if it has written one. -/
theorem after_start {q : P} {hdr : List UInt32} {h : List (Event P)} :
    ∀ {late : List (Event P)}, HistOk (late ++ .started q hdr :: h) → (∀ r x, .started r x ∉ late) →
      (running (late ++ .started q hdr :: h) = none ∧ ∃ r, .finished r ∈ late) ∨
      ∃ w, running (late ++ .started q hdr :: h) = some (hdr, w) ∧ (w = true → .header hdr ∈ late)
  | [], _, _ => .inr ⟨false, rfl, by simp⟩
  | e :: late, hok, hs => by
    have ih := after_start hok.2 (fun r x hm => hs r x (List.mem_cons_of_mem _ hm))
    -- an event that is neither a header nor the end of the commit
    have hskip : running (e :: (late ++ .started q hdr :: h)) = running (late ++ .started q hdr :: h) →
        (running (e :: (late ++ .started q hdr :: h)) = none ∧ ∃ r, .finished r ∈ e :: late) ∨
        ∃ w, running (e :: (late ++ .started q hdr :: h)) = some (hdr, w) ∧
        (w = true → .header hdr ∈ e :: late) := by
      intro he
      rw [he]
      exact ih.imp (fun ⟨hr, r, hm⟩ => ⟨hr, r, List.mem_cons_of_mem _ hm⟩)
        fun ⟨w, hr, hw⟩ => ⟨w, hr, fun e => List.mem_cons_of_mem _ (hw e)⟩
    cases e with
    | started r x => exact absurd List.mem_cons_self (hs r x)
    | header x =>
      rcases ih with ⟨hr, -⟩ | ⟨w, hr, hw⟩
      · rcases hok.1 with e | ⟨-, y, e⟩ <;> cases hr.symm.trans e
      · refine .inr ⟨true, by rw [List.cons_append, running, hr]; rfl, fun _ => ?_⟩
        rcases hok.1 with e | ⟨-, y, e⟩ <;> cases hr.symm.trans e
        · exact List.mem_cons_self
        · exact List.mem_cons_of_mem _ (hw rfl)
    | finished r => exact .inl ⟨rfl, r, List.mem_cons_self⟩
    | wrote | began | ended => exact hskip rfl

/-! ## The invariant -/

/-- What the header and the history say at each point of a commit. -/
def Stage (lh : List UInt32) (run : Option (List UInt32 × Bool)) : Pc → Prop
  | .commit .check => run = some (lh, false)
  | .commit (.writeLog _) => run = some (lh, false)
  | .commit .writeHead => run = some (lh, false)
  | .commit (.install _) => run = some (lh, true)
  | .commit .clear => run = some (lh, true)
  | .commit .eraseHead => lh = [] ∧ ∃ x, run = some (x, true)
  | .done => lh = [] ∧ ∃ x w, run = some (x, w) ∧ (x ≠ [] → w = true)
  | _ => True

structure Inv (s : Sys P) : Prop where
  /-- `outstanding` counts the processes inside an operation -/
  ops : ∃ F : Finset P, (∀ p, p ∈ F ↔ s.pc p = .op) ∧ s.log.outstanding = F.card
  /-- `committing` says whether some process is in `commit` -/
  busy : s.log.committing = true ↔ ∃ p, InCommit (s.pc p)
  one : ∀ p q, InCommit (s.pc p) → InCommit (s.pc q) → p = q
  none_out : s.log.committing = true → s.log.outstanding = 0
  panic : s.panic = none ∨ s.panic = some .tooBig
  cur : ∀ p, (curOp p s.hist).isSome ↔ s.pc p = .op
  run : s.log.committing = true ↔ (running s.hist).isSome
  grp : s.log.committing = false → ∀ b, b ∈ s.log.lh ↔ b ∈ group s.hist
  grp_nil : s.log.committing = true → group s.hist = []
  stage : ∀ p, Stage s.log.lh (running s.hist) (s.pc p)
  hist : HistOk s.hist

theorem Inv.no_op (h : Inv s) (hc : s.log.outstanding = 0) (p : P) : s.pc p ≠ .op := by
  obtain ⟨F, h1, h2⟩ := h.ops
  rw [hc] at h2
  have hF : F = ∅ := Finset.card_eq_zero.1 (by omega)
  intro hp
  have := (h1 p).2 hp
  simp [hF] at this

theorem Inv.op_pos (h : Inv s) (hp : s.pc p = .op) : 1 ≤ s.log.outstanding := by
  obtain ⟨F, h1, h2⟩ := h.ops
  have := Finset.card_pos.2 ⟨p, (h1 p).2 hp⟩
  omega

theorem Inv.op_not_committing (h : Inv s) (hp : s.pc p = .op) :
    s.log.committing = false := by
  cases hc : s.log.committing with
  | false => rfl
  | true => exact absurd hp (h.no_op (h.none_out hc) p)

/-- While no commit runs. -/
theorem Inv.calm (h : Inv s) (hc : s.log.committing = false) :
    running s.hist = none ∧ ∀ q, ¬InCommit (s.pc q) := by
  have hne : s.log.committing ≠ true := by
    rw [hc]
    decide
  exact ⟨by simpa using h.run.not.1 hne, fun q hq => hne (h.busy.2 ⟨q, hq⟩)⟩

/-- While `p` commits. -/
theorem Inv.committer (h : Inv s) (hp : InCommit (s.pc p)) :
    s.log.committing = true ∧ s.log.outstanding = 0 ∧ (∀ q, s.pc q ≠ .op) ∧ (∀ q, curOp q s.hist = none) ∧
    ∀ q, q ≠ p → ¬InCommit (s.pc q) := by
  have hcom := h.busy.2 ⟨p, hp⟩
  have hno := h.no_op (h.none_out hcom)
  exact ⟨hcom, h.none_out hcom, hno, fun q => by simpa using (h.cur q).not.2 (hno q),
    fun q hq hqc => hq (h.one q p hqc hp)⟩

omit [DecidableEq P] in
theorem stage_of_not_inCommit {lh : List UInt32} {run : Option (List UInt32 × Bool)}
    (h : ¬InCommit c) : Stage lh run c := by
  cases c with
  | commit | done => exact absurd trivial h
  | _ => trivial

theorem Inv.of_calm (hc : s.log.committing = false) (hni : ∀ q, ¬InCommit (s.pc q))
    (hrun : running s.hist = none)
    (ops : ∃ F : Finset P, (∀ p, p ∈ F ↔ s.pc p = .op) ∧ s.log.outstanding = F.card)
    (panic : s.panic = none ∨ s.panic = some .tooBig) (cur : ∀ p, (curOp p s.hist).isSome ↔ s.pc p = .op)
    (grp : ∀ b, b ∈ s.log.lh ↔ b ∈ group s.hist) (hist : HistOk s.hist) : Inv s where
  ops := ops
  busy := by simp [hc, hni]
  one p _ hp := absurd hp (hni p)
  none_out h := by simp [hc] at h
  panic := panic
  cur := cur
  run := by simp [hc, hrun]
  grp _ := grp
  grp_nil h := by simp [hc] at h
  stage q := stage_of_not_inCommit (hni q)
  hist := hist

theorem Inv.of_committer (hc : s.log.committing = true) (ho : s.log.outstanding = 0)
    (hp : InCommit (s.pc p)) (hone : ∀ q, q ≠ p → ¬InCommit (s.pc q)) (hno : ∀ q, s.pc q ≠ .op)
    (panic : s.panic = none ∨ s.panic = some .tooBig) (hcur : ∀ q, curOp q s.hist = none)
    (hg : group s.hist = []) (hrun : (running s.hist).isSome) (hst : Stage s.log.lh (running s.hist) (s.pc p))
    (hist : HistOk s.hist) : Inv s := by
  have honly : ∀ q, InCommit (s.pc q) → q = p := fun q hq => by_contra fun e => hone q e hq
  refine ⟨⟨∅, by simp [hno], ho⟩, iff_of_true hc ⟨p, hp⟩,
    fun q r hq hr => (honly q hq).trans (honly r hr).symm, fun _ => ho, panic, by simp [hcur, hno],
    iff_of_true hc hrun, by simp [hc], fun _ => hg, fun q => ?_, hist⟩
  by_cases e : q = p
  · exact e ▸ hst
  · exact stage_of_not_inCommit (hone q e)

/-! ## Moves of the program counters -/

theorem at_same (s : Sys P) (p : P) (c : Pc) : s.at p c p = c := by simp [Sys.at]

theorem at_ne (s : Sys P) {q : P} (c : Pc) (h : q ≠ p) : s.at p c q = s.pc q := by simp [Sys.at, h]

/-- What holds of `p` at its new place, and of the others, holds of all. -/
theorem forall_at {Q : P → Pc → Prop} (hp : Q p c) (ho : ∀ q, q ≠ p → Q q (s.pc q)) (q : P) :
    Q q (s.at p c q) := by
  by_cases e : q = p
  · rw [e, at_same]
    exact hp
  · rw [at_ne s c e]
    exact ho q e

theorem at_op (s : Sys P) (hp : s.pc p ≠ .op) (hc : c ≠ .op) : ∀ q, s.at p c q = .op ↔ s.pc q = .op :=
  forall_at (Q := fun q x => x = .op ↔ s.pc q = .op) (iff_of_false hc hp) fun _ _ => Iff.rfl

/-- `p` leaves its operation. -/
theorem at_leave (s : Sys P) (p : P) (hc : c ≠ .op) : ∀ q, s.at p c q = .op ↔ q ≠ p ∧ s.pc q = .op :=
  forall_at (Q := fun q x => x = .op ↔ q ≠ p ∧ s.pc q = .op) (by simp [hc]) fun q hq => by simp [hq]

theorem not_inCommit_at (hc : ¬InCommit c) (ho : ∀ q, q ≠ p → ¬InCommit (s.pc q)) :
    ∀ q, ¬InCommit (s.at p c q) :=
  forall_at (Q := fun _ x => ¬InCommit x) hc ho

omit [DecidableEq P] in
theorem wakeup_op (pc : P → Pc) (p : P) : wakeup pc p = .op ↔ pc p = .op := by
  unfold wakeup; split <;> simp_all

omit [DecidableEq P] in
theorem inCommit_wakeup (pc : P → Pc) (p : P) : InCommit (wakeup pc p) ↔ InCommit (pc p) := by
  unfold wakeup; split <;> simp_all [InCommit]

/-- A process that only moves between `idle`, `begin` and `asleep` changes
nothing the invariant speaks of. -/
theorem inv_move (h : Inv s) (ho : s.pc p ≠ .op) (hi : ¬InCommit (s.pc p))
    (hc : c ≠ .op) (hc' : ¬InCommit c) : Inv { s with pc := s.at p c } := by
  have hop := at_op s ho hc
  have hin : ∀ q, InCommit (s.at p c q) ↔ InCommit (s.pc q) :=
    forall_at (Q := fun q x => InCommit x ↔ InCommit (s.pc q)) (iff_of_false hc' hi) fun _ _ => Iff.rfl
  obtain ⟨F, h1, h2⟩ := h.ops
  exact { h with
    ops := ⟨F, fun q => (h1 q).trans (hop q).symm, h2⟩
    busy := h.busy.trans (exists_congr fun q => (hin q).symm)
    one := fun q r hq hr => h.one q r ((hin q).1 hq) ((hin r).1 hr)
    cur := fun q => (h.cur q).trans (hop q).symm
    stage := forall_at (Q := fun _ => Stage s.log.lh (running s.hist)) (stage_of_not_inCommit hc')
      fun q _ => h.stage q }

/-! ## One lemma for each section -/

theorem inv_beginOp (h : Inv s) (hp : s.pc p = .begin) : Inv (beginOp s p) := by
  have hno : s.pc p ≠ .op := by rw [hp]; decide
  have hni : ¬InCommit (s.pc p) := by rw [hp]; exact id
  unfold beginOp
  split
  · exact inv_move h hno hni (by decide) id
  split
  · exact inv_move h hno hni (by decide) id
  rename_i hcom _
  have hcf : s.log.committing = false := by simpa using hcom
  obtain ⟨hrun, hcalm⟩ := h.calm hcf
  have hcur : curOp p s.hist = none := by simpa using (h.cur p).not.2 hno
  obtain ⟨F, h1, h2⟩ := h.ops
  have hpF : p ∉ F := fun hm => hno ((h1 p).1 hm)
  refine .of_calm hcf (not_inCommit_at id fun q _ => hcalm q) hrun ⟨insert p F, ?_, ?_⟩ h.panic ?_ (h.grp hcf)
    ⟨⟨hrun, hcur⟩, h.hist⟩
  · exact forall_at (Q := fun q x => q ∈ insert p F ↔ x = .op) (by simp) fun q hq => by simp [hq, h1]
  · simp only [Finset.card_insert_of_notMem hpF, h2]
    push_cast
    rfl
  · exact forall_at (Q := fun q x => (curOp q (.began p :: s.hist)).isSome ↔ x = .op) (by simp [curOp])
      fun q hq => by simpa [curOp, Ne.symm hq] using h.cur q

theorem mem_absorb (l : St) (b c : UInt32) : c ∈ (absorb l b).lh ↔ c = b ∨ c ∈ l.lh := by
  unfold absorb
  split
  · rename_i hb
    exact ⟨.inr, fun h => h.elim (fun e => e ▸ hb) id⟩
  · simp [or_comm]

@[simp] theorem absorb_committing (l : St) (b : UInt32) : (absorb l b).committing = l.committing := by
  unfold absorb; split <;> rfl

@[simp] theorem absorb_outstanding (l : St) (b : UInt32) : (absorb l b).outstanding = l.outstanding := by
  unfold absorb; split <;> rfl

theorem inv_logWrite (h : Inv s) (hpn : s.panic = none) (b : UInt32)
    (hp : s.pc p = .op) : Inv (logWrite s p b) := by
  have hcf := h.op_not_committing hp
  unfold logWrite
  split
  · exact { h with panic := .inr rfl }
  split
  · have := h.op_pos hp; omega
  obtain ⟨hrun, hni⟩ := h.calm hcf
  refine .of_calm (by simpa using hcf) hni hrun (by simpa using h.ops) (.inl hpn) (fun q => ?_) (fun c => ?_)
    ⟨⟨hrun, (h.cur p).2 hp⟩, h.hist⟩
  · rw [← h.cur q]
    simp only [curOp]
    split
    · rename_i e; subst e; simp
    · rfl
  · simp only [group, List.mem_cons, mem_absorb, h.grp hcf c]

@[simp] theorem leave_committing (l : St) : (leave l).committing = l.committing := rfl

theorem curOp_ended (p q : P) (h : List (Event P)) :
    (curOp q (.ended p :: h)).isSome ↔ q ≠ p ∧ (curOp q h).isSome := by
  by_cases e : p = q
  · simp [curOp, e]
  · simp [curOp, e, Ne.symm e]

theorem inv_endOp (h : Inv s) (hpn : s.panic = none) (hp : s.pc p = .op) :
    Inv (endOp s p) := by
  have hcf := h.op_not_committing hp
  obtain ⟨hrun, hni⟩ := h.calm hcf
  have hend : EventOk s.hist (.ended p) := ⟨hrun, (h.cur p).2 hp⟩
  obtain ⟨F, h1, h2⟩ := h.ops
  have hpF : p ∈ F := (h1 p).2 hp
  have hcard : (F.erase p).card = s.log.outstanding - 1 := by
    rw [h2, Finset.card_erase_of_mem hpF]
    have := Finset.card_pos.2 ⟨p, hpF⟩
    omega
  unfold endOp
  rw [if_neg (by simp [hcf])]
  split
  · -- the last operation: the commit starts
    rename_i h0
    have hF : F.erase p = ∅ := Finset.card_eq_zero.1 (by simp only [leave] at h0; omega)
    have hlast : ∀ q, ¬(q ≠ p ∧ s.pc q = .op) := by
      intro q hq
      have : q ∈ F.erase p := Finset.mem_erase.2 ⟨hq.1, (h1 q).2 hq.2⟩
      simp [hF] at this
    have hnone : ∀ q, curOp q (.ended p :: s.hist) = none := by
      intro q
      have := hlast q
      rw [← h.cur q, ← curOp_ended] at this
      simpa using this
    refine .of_committer (p := p) rfl h0 ?_ (fun q hq => ?_) (fun q hq => ?_) (.inl hpn) hnone rfl rfl ?_
      ⟨⟨hrun, hnone, fun b hb => (h.grp hcf b).2 hb⟩, hend, h.hist⟩
    · simp only [at_same]
      trivial
    · simp only [at_ne s _ hq]
      exact hni q
    · exact hlast q ((at_leave s p (by decide) q).1 hq)
    · simp only [at_same]
      rfl
  · refine .of_calm hcf (fun q => ?_) hrun ⟨F.erase p, fun q => ?_, hcard.symm⟩ (.inl hpn)
      (fun q => ?_) (h.grp hcf) ⟨hend, h.hist⟩
    · rw [inCommit_wakeup]
      exact not_inCommit_at id (fun q _ => hni q) q
    · rw [Finset.mem_erase, h1, wakeup_op, at_leave s p (by decide)]
    · rw [curOp_ended, h.cur, wakeup_op, at_leave s p (by decide)]

/-- The committer moves on: nobody is in an operation, and the header and
the history agree with its new place. -/
theorem inv_committer (h : Inv s) {l : St} {hist : List (Event P)}
    (hc : InCommit (s.pc p)) (hc' : InCommit c')
    (ho : l.outstanding = s.log.outstanding) (hl : l.committing = s.log.committing)
    (hcur : ∀ q, curOp q hist = curOp q s.hist) (hrun : (running hist).isSome)
    (hg : group hist = group s.hist) (hst : Stage l.lh (running hist) c') (hh : HistOk hist) :
    Inv { s with log := l, pc := s.at p c', hist := hist } := by
  obtain ⟨hcom, hout, hno, hnone, honly⟩ := h.committer hc
  refine .of_committer (p := p) (hl.trans hcom) (ho.trans hout) ?_ (fun q hq => ?_) ?_ h.panic
    (fun q => (hcur q).trans (hnone q)) (hg.trans (h.grp_nil hcom)) hrun ?_ hh
  · simpa only [at_same] using hc'
  · simpa only [at_ne s _ hq] using honly q hq
  · exact forall_at (Q := fun _ x => x ≠ .op) hc'.ne_op fun q _ => hno q
  · simpa only [at_same] using hst

theorem inv_commitStep (h : Inv s) {c : CommitPc} (hp : s.pc p = .commit c) :
    Inv (commitStep s p c) := by
  have hst := h.stage p
  rw [hp] at hst
  have hrun : (running s.hist).isSome := h.run.1 (h.busy.2 ⟨p, by rw [hp]; trivial⟩)
  have hin : InCommit (s.pc p) := by
    rw [hp]
    trivial
  have go : ∀ (c' : Pc) (l : St), InCommit c' → l.outstanding = s.log.outstanding →
      l.committing = s.log.committing → Stage l.lh (running s.hist) c' →
      Inv { s with log := l, pc := s.at p c' } :=
    fun _ _ hc' ho hl hs => inv_committer h hin hc' ho hl (fun _ => rfl) hrun rfl hs h.hist
  cases c with
  | check =>
    simp only [commitStep]
    split
    · exact go (.commit (.writeLog 0)) s.log trivial rfl rfl hst
    · rename_i hn
      have hnil : s.log.lh = [] := by simpa using hn
      exact go .done s.log trivial rfl rfl ⟨hnil, _, _, hst, fun hne => absurd hnil hne⟩
  | writeLog tail =>
    simp only [commitStep]
    split
    · exact go (.commit (.writeLog (tail + 1))) _ trivial rfl rfl hst
    · exact go (.commit .writeHead) s.log trivial rfl rfl hst
  | writeHead =>
    have hr : running s.hist = some (s.log.lh, false) := hst
    refine inv_committer h hin trivial rfl rfl (fun _ => rfl) ?_ rfl ?_ ⟨.inl hr, h.hist⟩
    · simp [running, hr]
    · change running (.header _ :: s.hist) = _
      simp only [running, hr]; rfl
  | install tail =>
    simp only [commitStep]
    split
    · exact go (.commit (.install (tail + 1))) _ trivial rfl rfl hst
    · exact go (.commit .clear) s.log trivial rfl rfl hst
  | clear =>
    have hr : running s.hist = some (s.log.lh, true) := hst
    exact go (.commit .eraseHead) (clearLh s.log) trivial rfl rfl ⟨rfl, _, hr⟩
  | eraseHead =>
    obtain ⟨hn, x, hr⟩ : s.log.lh = [] ∧ ∃ x, running s.hist = some (x, true) := hst
    refine inv_committer h hin trivial rfl rfl
      (fun _ => rfl) ?_ rfl ⟨hn, x, true, ?_, fun _ => rfl⟩ ⟨.inr ⟨hn, x, hr⟩, h.hist⟩
    · simp [running, hr]
    · simp [running, hr]

theorem inv_endCommit (h : Inv s) (hp : s.pc p = .done) : Inv (endCommit s p) := by
  have hst := h.stage p
  rw [hp] at hst
  obtain ⟨hnil, hrun⟩ := hst
  obtain ⟨hcom, hout, hno, hnone, honly⟩ := h.committer (p := p) (by rw [hp]; trivial)
  have hno' : ∀ q, wakeup (s.at p .idle) q ≠ .op := by
    intro q hq
    rw [wakeup_op, at_op s (hno p) (by decide)] at hq
    exact hno q hq
  refine .of_calm rfl (fun q => ?_) rfl ⟨∅, fun q => ?_, hout⟩ h.panic (fun q => ?_)
    (fun b => ?_) ⟨hrun, h.hist⟩
  · exact (inCommit_wakeup _ q).not.2 (not_inCommit_at id honly q)
  · exact iff_of_false (Finset.notMem_empty q) (hno' q)
  · exact iff_of_false (by simp [endCommit, curOp, hnone]) (hno' q)
  · change b ∈ s.log.lh ↔ b ∈ group s.hist
    rw [hnil, h.grp_nil hcom]

theorem inv_init (h : Init s) : Inv s := by
  have hpc := h.pc
  refine .of_calm h.committing ?_ ?_ ⟨∅, ?_, h.outstanding⟩ (.inl h.panic) ?_ ?_ ?_
  · simp [hpc, InCommit]
  · rw [h.hist]
    rfl
  · simp [hpc]
  · simp [hpc, h.hist, curOp]
  · simp [h.lh, h.hist, group]
  · rw [h.hist]
    trivial

theorem inv_step (h : Inv s) (hs : step s l = some s') : Inv s' := by
  obtain ⟨hpn, hf⟩ := step_fires hs
  cases hf with
  | call hp | kill hp => exact inv_move h (by rw [hp]; decide) (by rw [hp]; exact id) (by decide) id
  | beginOp hp => exact inv_beginOp h hp
  | logWrite hp => exact inv_logWrite h hpn _ hp
  | endOp hp => exact inv_endOp h hpn hp
  | commit hp => exact inv_commitStep h hp
  | endCommit hp => exact inv_endCommit h hp

theorem inv_reachable (h : (lts P).Reachable s) : Inv s :=
  LTS.Inductive.reachable ⟨fun _ => inv_init, fun _ _ _ => inv_step⟩ h

/-! ## Results -/

/-- While a commit runs, nothing is outstanding, it is the only one, no
process gets into an operation and no `log_write` runs. -/
theorem commit_exclusive (h : Inv s) (hp : InCommit (s.pc p)) :
    s.log.committing = true ∧ s.log.outstanding = 0 ∧ (∀ q, InCommit (s.pc q) → q = p) ∧
    ∀ l s', step s l = some s' → (∀ q, s'.pc q ≠ .op) ∧ ∀ q b, l ≠ .logWrite q b := by
  obtain ⟨hcom, hout, hno, -, -⟩ := h.committer hp
  refine ⟨hcom, hout, fun q hq => h.one q p hq hp, fun l s' hs => ?_⟩
  have h' := inv_step h hs
  -- what an outstanding 0 of the next state gives
  have hkept : s'.log.outstanding = s.log.outstanding → ∀ q, s'.pc q ≠ .op := fun e => h'.no_op (e.trans hout)
  obtain ⟨-, hf⟩ := step_fires hs
  cases hf with
  | call | kill | endCommit => exact ⟨hkept rfl, nofun⟩
  | beginOp hq => exact ⟨hkept (by rw [beginOp, if_pos hcom]), nofun⟩
  | logWrite hq | endOp hq => exact absurd hq (hno _)
  | @commit r k hq =>
    obtain ⟨l, c, hist, e, -, ho, -⟩ := commitStep_frame s r k
    exact ⟨hkept (by rw [e]; exact ho), nofun⟩

/-- The blocks logged between `began p` and `ended p` are in the header of
the first commit that starts after `ended p`. This is the header that the
commit writes, and if it is not empty the commit does not finish before it has
written it. Histories are newest first. -/
theorem op_in_one_commit {h late during before : List (Event P)} (hok : HistOk h)
    (hh : h = late ++ .ended p :: (during ++ .began p :: before)) (hd : .ended p ∉ during) :
    (∀ q hdr, .started q hdr ∉ during) ∧
    ∀ later q hdr early, late = later ++ .started q hdr :: early → (∀ r x, .started r x ∉ early) →
      (∀ b, .wrote p b ∈ during → b ∈ hdr) ∧
      (∀ rest x mid, later = rest ++ .header x :: mid → (∀ r y, .started r y ∉ mid) →
        (∀ y, .header y ∉ mid) → x = hdr) ∧
      ∀ rest r mid, later = rest ++ .finished r :: mid → (∀ r y, .started r y ∉ mid) →
        (∀ r, .finished r ∉ mid) → hdr ≠ [] → .header hdr ∈ mid := by
  subst hh
  have hok' := hok.suffix
  obtain ⟨-, hns, hgrp⟩ := during_op hok'.2 hd
  refine ⟨hns, ?_⟩
  rintro later q hdr early rfl hearly
  rw [List.append_assoc, List.cons_append] at hok
  have hstart := hok.suffix
  refine ⟨fun b hb => hstart.1.2.2 b ?_, ?_, ?_⟩
  · exact group_grows (h := .ended p :: (during ++ .began p :: before)) (hgrp b hb) hearly
  · rintro rest x mid rfl h1 h2
    rw [List.append_assoc, List.cons_append] at hok
    have hx := hok.suffix
    rcases after_start hx.2 h1 with ⟨hr, -⟩ | ⟨w, hr, hw⟩ <;>
      rcases hx.1 with e | ⟨-, y, e⟩ <;> cases hr.symm.trans e
    · rfl
    · exact absurd (hw rfl) (h2 hdr)
  · rintro rest r mid rfl h1 h2 hne
    rw [List.append_assoc, List.cons_append] at hok
    have hx := hok.suffix
    obtain ⟨x, w, e, hx⟩ := hx.1
    rcases after_start hok.suffix.2 h1 with ⟨-, r, hm⟩ | ⟨w, hr, hw⟩
    · exact absurd hm (h2 r)
    · cases hr.symm.trans e
      exact hw (hx hne)

/-- **No operation is split across commits**, for every interleaving. -/
theorem no_op_split {s : Sys P} (h : (lts P).Reachable s) :
    (∀ p, InCommit (s.pc p) → s.log.committing = true ∧ s.log.outstanding = 0 ∧
      (∀ q, InCommit (s.pc q) → q = p)) ∧
    (s.log.committing = true → (∃ p, InCommit (s.pc p)) ∧
      ∀ l s', step s l = some s' → (∀ q, s'.pc q ≠ .op) ∧ ∀ q b, l ≠ .logWrite q b) ∧
    s.panic ≠ some .logCommitting ∧ s.panic ≠ some .outsideTrans ∧
    ∀ p late during before, s.hist = late ++ .ended p :: (during ++ .began p :: before) →
      .ended p ∉ during →
      (∀ q hdr, .started q hdr ∉ during) ∧
      ∀ later q hdr early, late = later ++ .started q hdr :: early → (∀ r x, .started r x ∉ early) →
        (∀ b, .wrote p b ∈ during → b ∈ hdr) ∧
        (∀ rest x mid, later = rest ++ .header x :: mid → (∀ r y, .started r y ∉ mid) →
          (∀ y, .header y ∉ mid) → x = hdr) ∧
        ∀ rest r mid, later = rest ++ .finished r :: mid → (∀ r y, .started r y ∉ mid) →
          (∀ r, .finished r ∉ mid) → hdr ≠ [] → .header hdr ∈ mid := by
  have hI := inv_reachable h
  refine ⟨fun p hp => ?_, fun hc => ?_, ?_, ?_,
    fun p late during before hh hd => op_in_one_commit hI.hist hh hd⟩
  · obtain ⟨h1, h2, h3, -⟩ := commit_exclusive hI hp
    exact ⟨h1, h2, h3⟩
  · obtain ⟨p, hp⟩ := hI.busy.1 hc
    exact ⟨⟨p, hp⟩, (commit_exclusive hI hp).2.2.2⟩
  all_goals
    intro e
    rcases hI.panic with e' | e' <;> rw [e] at e' <;> cases e'

/-! ## Runs as functions -/

def run (s : Sys P) (ls : List (Lbl P)) : Option (Sys P) := ls.foldlM step s

theorem reachable_of_run {ls : List (Lbl P)} (hi : Init s) (h : run s ls = some s') :
    (lts P).Reachable s' := ⟨s, ls, hi, LTS.Run.of_foldlM (fun _ _ _ => id) h⟩

/-- Steps of the committer `p` alone lead from `s` to the log `l` and the
place `c`. -/
def Commits (p : P) (s : Sys P) (l : St) (c : Pc) : Prop :=
  ∃ k s', (lts P).Run s (List.replicate k (.commit p)) s' ∧ s'.log = l ∧ s'.pc p = c ∧ s'.panic = none

theorem Commits.trans {l l' : St} (h : Commits p s l c)
    (h' : ∀ t : Sys P, t.log = l → t.pc p = c → t.panic = none → Commits p t l' c') : Commits p s l' c' := by
  obtain ⟨j, t, h1, hl, hc, hpn⟩ := h
  obtain ⟨k, u, h2, hu⟩ := h' t hl hc hpn
  exact ⟨j + k, u, List.replicate_append_replicate ▸ h1.append h2, hu⟩

theorem commits_one {c : CommitPc} (hpn : s.panic = none) (hp : s.pc p = .commit c) :
    Commits p s (commitStep s p c).log ((commitStep s p c).pc p) := by
  have hpn' : (commitStep s p c).panic = none := by
    obtain ⟨l, c', hist, e, -⟩ := commitStep_frame s p c
    rw [e]
    exact hpn
  refine ⟨1, commitStep s p c, .cons ?_ (.nil _), rfl, rfl, hpn'⟩
  show step s (.commit p) = _
  unfold step
  simp [hpn, hp]

/-- A loop of the commit body, one step for each pass and one to leave it. -/
theorem commits_passes (f : Nat → UInt32 → St → St) (at_ : Nat → CommitPc) (next : CommitPc)
    (hf : ∀ tail b l, (f tail b l).lh = l.lh) (hsome : ∀ (s : Sys P) tail b, s.log.lh[tail]? = some b →
      commitStep s p (at_ tail) = { s with log := f tail b s.log, pc := s.at p (.commit (at_ (tail + 1))) })
    (hnone : ∀ (s : Sys P) tail, s.log.lh[tail]? = none →
    commitStep s p (at_ tail) = { s with pc := s.at p (.commit next) }) :
    ∀ {bs : List UInt32} {tail : Nat} {s : Sys P}, s.panic = none → s.pc p = .commit (at_ tail) →
      s.log.lh.drop tail = bs → Commits p s (passes f tail bs s.log) (.commit next)
  | [], tail, s, hpn, hp, hd => by
    have h1 := commits_one hpn hp
    simp only [hnone s tail (by rw [← List.head?_drop, hd]; rfl), at_same] at h1
    exact h1
  | b :: bs, tail, s, hpn, hp, hd => by
    have h1 := commits_one hpn hp
    simp only [hsome s tail b (by rw [← List.head?_drop, hd]; rfl), at_same] at h1
    refine h1.trans fun t hl hc hpn' => ?_
    rw [passes, ← hl]
    exact commits_passes f at_ next hf hsome hnone hpn' hc (by rw [hl, hf, ← List.tail_drop, hd]; rfl)

/-- Left to itself, a committer's steps compute `Log.commit`. -/
theorem commit_run (hpn : s.panic = none) (hp : s.pc p = .commit .check) :
    Commits p s (commit s.log) .done := by
  have h1 := commits_one hpn hp
  by_cases hn : 0 < s.log.lh.length
  case neg =>
    simp only [commitStep, if_neg hn, at_same] at h1
    rwa [commit, if_neg hn]
  simp only [commitStep, if_pos hn, at_same] at h1
  rw [commit, if_pos hn]
  refine h1.trans (fun t hl hc hpn => ?_)
  refine (commits_passes writeLogPass .writeLog .writeHead (fun _ _ _ => rfl)
    (fun t tail b hb => by simp only [commitStep, hb]) (fun t tail hb => by simp only [commitStep, hb])
    hpn hc rfl).trans ?_
  rw [List.drop_zero, hl]
  refine fun t hl hc hpn => (commits_one hpn hc).trans ?_
  simp only [commitStep, at_same, hl]
  refine fun t hl hc hpn => (commits_passes (installPass false) .install .clear
    (fun _ _ _ => rfl) (fun t tail b hb => by simp only [commitStep, hb])
    (fun t tail hb => by simp only [commitStep, hb]) hpn hc rfl).trans ?_
  rw [List.drop_zero, hl]
  refine fun t hl hc hpn => (commits_one hpn hc).trans ?_
  simp only [commitStep, at_same, hl]
  refine fun t hl hc hpn => ?_
  have := commits_one hpn hc
  simpa only [commitStep, at_same, hl, writeLog, installTrans] using this

/-- Two processes, a log of 30 blocks at 2. -/
def twoProcs : Sys Bool where
  log := boot 2 30 (fun _ => Bytes.zero)
  pc := fun _ => .idle
  panic := none
  hist := []

theorem init_twoProcs : Init twoProcs := ⟨rfl, rfl, rfl, fun _ => rfl, rfl, rfl⟩

/-- `true` logs block 50 and leaves; `false`, admitted in between, logs 60 and
commits for both. -/
def twoOps : List (Lbl Bool) :=
  [.call true, .beginOp true, .call false, .beginOp false, .logWrite true 50, .endOp true,
    .logWrite false 60, .endOp false, .commit false]

/-- What happens from the end of `true`'s operation to the end of the commit. -/
def twoLate : List (Event Bool) :=
  [.finished false, .header [], .header [50, 60]] ++ .started false [50, 60] ::
    [.ended false, .wrote false 60]

/-- The commit starts with the blocks of both and does not finish before it
has written them. -/
theorem no_op_split_twoOps : ∃ s t, run twoProcs twoOps = some s ∧ s.log.committing = true ∧
    (∀ p, InCommit (s.pc p) → s.log.outstanding = 0) ∧ s.panic ≠ some .outsideTrans ∧
    run twoProcs (twoOps ++ List.replicate 9 (.commit false) ++ [.endCommit false]) = some t ∧
    t.hist = twoLate ++ .ended true :: ([.wrote true 50, .began false] ++ .began true :: []) ∧
    50 ∈ [(50 : UInt32), 60] ∧ .header [50, 60] ∈ [Event.header (P := Bool) [], .header [50, 60]] := by
  obtain ⟨s, hs, hc⟩ := Option.map_eq_some_iff.1
    (by decide : (run twoProcs twoOps).map (·.log.committing) = some true)
  obtain ⟨t, ht, hh⟩ := Option.map_eq_some_iff.1 (by decide :
    (run twoProcs (twoOps ++ List.replicate 9 (.commit false) ++ [.endCommit false])).map (·.hist) =
      some (twoLate ++ .ended true :: ([.wrote true 50, .began false] ++ .began true :: [])))
  obtain ⟨h1, -, -, h4, -⟩ := no_op_split (reachable_of_run init_twoProcs hs)
  obtain ⟨-, -, -, -, h5⟩ := no_op_split (reachable_of_run init_twoProcs ht)
  obtain ⟨hblk, -, hdr⟩ := (h5 true twoLate _ [] hh (by decide)).2 _ false _ _ rfl (by simp)
  exact ⟨s, t, hs, hc, fun p hp => (h1 p hp).2.1, h4, ht, hh, hblk 50 (by decide),
    hdr [] false _ rfl (by simp) (by simp) (by decide)⟩

/-- `false` is left to commit the two blocks. -/
theorem commit_run_twoOps : ∃ s, (lts Bool).Reachable s ∧ s.log.lh = [50, 60] ∧
    Commits false s (commit s.log) .done := by
  have hrun : (run twoProcs twoOps.dropLast).map (fun s => (s.log.lh, s.panic, s.pc false)) =
      some ([50, 60], none, .commit .check) := by decide
  obtain ⟨s, hs, e⟩ := Option.map_eq_some_iff.1 hrun
  simp only [Prod.mk.injEq] at e
  exact ⟨s, reachable_of_run init_twoProcs hs, e.1, commit_run e.2.1 e.2.2⟩

end

end Xv6.Log
