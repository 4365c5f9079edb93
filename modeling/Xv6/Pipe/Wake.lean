import Xv6.Pipe.Fifo

/-!
# Nobody sleeps on a pipe without a reason

A reader may sleep only while the ring is empty and the write end open, a
writer only while it is full and the read end open. When that stops being
so, the process that changed the pipe still holds `pi->lock` and `owes` the
sleepers a `wakeup` before it releases it.

* `pipe_sleepers`: writers never sleep without a reason, and readers do not
  if no process is killed while it is in the loop of `pipewrite` with bytes
  that it inserted since it last acquired `pi->lock`.
* `reader_asleep`: a `pipewrite` that finds itself killed after it inserted a
  byte returns without a `wakeup`, and the reader sleeps on.
-/
namespace Xv6.Pipe
open Function (update update_self update_of_ne)

variable {ch : Chan} {c : Pc}

theorem Pc.inside_of_owes {q : Nat} (h : c.owes ch q) : c.inside = true := by
  cases c <;> first | rfl | exact h.elim

theorem Pc.not_dozesOn_of_inside (h : c.inside = true) : ¬c.dozesOn ch := by
  cases c <;> first | exact id | cases h

theorem Pc.not_resting_of_inside (h : c.inside = true) : c.resting = false := by
  cases c <;> first | rfl | cases h

section
variable {n : Nat} {s t : Sys n} {p q : Fin n} {k c : Pc} {l : Lbl n} {ch : Chan}

/-- Who waits on `ch` has a reason, or the holder of the lock owes it a wakeup. -/
def Served (ch : Chan) (s : Sys n) : Prop :=
  ∀ q, Waits s q ch → Reason s.pipe ch ∨ ∃ h, s.lock = some h ∧ (s.pc h).owes ch q

def Rests (s : Sys n) : Prop := ∀ q, s.asleep q ≠ none → (s.pc q).resting = true

/-- A process with bytes it inserted since it acquired the lock is not killed. -/
def Unkilled (s : Sys n) : Prop := ∀ p w, s.pc p = .writing w → w.start < w.i → s.killed p = false

theorem not_waits_of_inside (h : Rests s) (hp : (s.pc p).inside = true) : ¬Waits s p ch := by
  rintro (h1 | h1)
  · have := h p (by simp [h1])
    rw [Pc.not_resting_of_inside hp] at this
    cases this
  · exact Pc.not_dozesOn_of_inside hp h1

/-! ## Steps -/

/-- Who waits after a step of `p` waited before, or `p` has just let the lock go. -/
theorem Did.waits (h : Did s t p k c) (hk : k.knows s.pipe) (hw : Waits t q ch) :
    Waits s q ch ∨ Reason t.pipe ch := by
  rcases hw with hw | hw
  · rcases h.asleep q ch hw with hw | ⟨rfl, hd, -⟩
    · exact .inl (.inl hw)
    · exact .inl (.inr (by rw [h.was]; exact hd))
  · rw [h.pc] at hw
    by_cases e : q = p
    · exact .inr (h.dozes ch (by simpa [e] using hw) hk)
    · exact .inl (.inr (by simpa [e] using hw))

theorem Did.served (h : Did s t p k c) (hS : Served ch s) (hL : LockInv s) (hR : Rests s)
    (hU : ch = .nread → Unkilled s) : Served ch t := by
  intro q hw
  have hk : k.knows s.pipe := h.was ▸ hL.knows p
  rcases h.waits hk hw with hold | hr
  · -- `p` inside does not wait, so it is another that `p` may have to serve
    have hne : k.inside = true → q ≠ p := by
      rintro hin rfl
      exact not_waits_of_inside hR (h.was ▸ hin) hold
    have mine : Reason s.pipe ch ∨ k.owes ch q → Reason t.pipe ch ∨ ∃ r, t.lock = some r ∧
        (t.pc r).owes ch q := by
      intro hr
      rcases h.owes q ch hw hne hk hr with hr | ho | ⟨hch, w, hp, hlt, hkill⟩
      · exact .inl hr
      · have hself : t.pc p = c := by rw [h.pc, update_self]
        exact .inr ⟨p, (hL.holder_step h.lock h.pc p).1
          (by rw [hself]; exact Pc.inside_of_owes ho), by rw [hself]; exact ho⟩
      · rw [hU hch p w hp hlt] at hkill; cases hkill
    rcases hS q hold with hr | ⟨r, hl, ho⟩
    · exact mine (.inl hr)
    · by_cases e : r = p
      · exact mine (.inr (h.was ▸ e ▸ ho))
      · -- another process holds the lock, so `p` changes neither the lock nor the pipe
        have hin := Pc.inside_of_owes ho
        cases h.lock with
        | stay was | leave was => exact absurd (hL.alone was e) (by simp [hin])
        | enter was is free lock => exact absurd (hL.out_of_free free r) (by simp [hin])
        | out was is lock pipe => exact .inr ⟨r, lock.trans hl, by rw [h.pc, update_of_ne e]; exact ho⟩
  · exact .inl hr

section
variable (h : step s l = some t)
include h

theorem served_step (hS : Served ch s) (hL : LockInv s) (hR : Rests s)
    (hU : ch = .nread → Unkilled s) : Served ch t := by
  rcases step_did h with ⟨p, k, c, hd⟩ | ⟨ha, hsleep, -⟩
  · exact hd.served hS hL hR hU
  · intro q hw
    have := hS q (hw.imp (hsleep q ch) (by rw [ha.pc]; exact id))
    rwa [ha.pipe, ha.lock, ha.pc]

theorem rests_step (hR : Rests s) : Rests t := by
  intro q hq
  obtain ⟨ch, hq⟩ := Option.ne_none_iff_exists'.1 hq
  rcases step_did h with ⟨p, k, c, hd⟩ | ⟨ha, hsleep, -⟩
  · rw [hd.pc]
    rcases hd.asleep q ch hq with hq | ⟨rfl, -, hc⟩
    · have hrest := hR q (by simp [hq])
      have hne : q ≠ p := by
        rintro rfl
        rw [hd.awake (hd.was ▸ hrest)] at hq; cases hq
      rwa [update_of_ne hne]
    · rwa [update_self]
  · rw [ha.pc]
    exact hR q (by simp [hsleep q ch hq])

/-- No process is killed in the loop of `pipewrite` with
bytes that it inserted since it last acquired the lock. -/
def NoKillInWrite (s : Sys n) (l : Lbl n) : Prop :=
  ∀ q, l = .kill q → ∀ w, s.pc q = .writing w → ¬w.start < w.i

theorem unkilled_step (hP : NoKillInWrite s l) (hU : Unkilled s) : Unkilled t := by
  intro q w hq hlt
  rcases step_did h with ⟨p, k, c, hd⟩ | ⟨ha, -, ⟨p, hl, hk⟩ | ⟨p, hp, hk⟩⟩
  · rw [hd.killed]
    rw [hd.pc] at hq
    by_cases e : q = p
    · rw [e]
      exact hd.fresh w (by simpa [e] using hq) hlt
    · exact hU q w (by simpa [e] using hq) hlt
  · rw [ha.pc] at hq
    have hne : q ≠ p := fun e => hP p hl w (e ▸ hq) hlt
    simpa [hk, hne] using hU q w hq hlt
  · rw [ha.pc] at hq
    by_cases e : q = p
    · simp [hk, e]
    · simpa [hk, e] using hU q w hq hlt

/-! ## Whole runs -/

structure SleepInv (s : Sys n) : Prop where
  lock : LockInv s
  rests : Rests s
  nwrite : Served .nwrite s

theorem sleepInv_step (hI : SleepInv s) : SleepInv t :=
  ⟨lockInv_step hI.lock h, rests_step h hI.rests,
    served_step h hI.nwrite hI.lock hI.rests (by rintro ⟨⟩)⟩

end

theorem Init.not_waits (h : Init s) (q : Fin n) : ¬Waits s q ch := by
  rintro (hw | hw)
  · rw [h.asleep] at hw; cases hw
  · rw [h.pc] at hw; exact hw

theorem Init.sleepInv (h : Init s) : SleepInv s :=
  ⟨h.lockInv, fun q hq => absurd (h.asleep q) hq, fun q hq => absurd hq (h.not_waits q)⟩

theorem Served.reason (h : Served ch s) (hfree : s.lock = none) (hq : s.asleep q = some ch) :
    Reason s.pipe ch := by
  rcases h q (.inl hq) with hr | ⟨h', hl, _⟩
  · exact hr
  · rw [hfree] at hl; cases hl

structure ReaderInv (s : Sys n) : Prop where
  sleep : SleepInv s
  unkilled : Unkilled s
  nread : Served .nread s

theorem sleepInv_inductive : (lts n).Inductive SleepInv :=
  ⟨fun _ h => h.sleepInv, fun _ _ _ hI hs => sleepInv_step hs hI⟩

theorem readerInv_inductive : ((lts n).only NoKillInWrite).Inductive ReaderInv where
  init _ h := ⟨Init.sleepInv h, fun p w hp => absurd ((Init.pc h p).symm.trans hp) (by simp),
    fun q hq => absurd hq (Init.not_waits h q)⟩
  step _ _ _ hI hs :=
    ⟨sleepInv_step hs.1 hI.sleep, unkilled_step hs.1 hs.2 hI.unkilled,
      served_step hs.1 hI.nread hI.sleep.lock hI.sleep.rests fun _ => hI.unkilled⟩

theorem pipe_sleepers (n : Nat) :
    (∀ s, ((lts n).only NoKillInWrite).Reachable s → s.lock = none → ∀ q,
      (s.asleep q = some .nread → s.pipe.nread = s.pipe.nwrite ∧ s.pipe.writeopen = true) ∧
      (s.asleep q = some .nwrite → s.pipe.nwrite = s.pipe.nread + 512 ∧ s.pipe.readopen = true)) ∧
    ∀ s, (lts n).Reachable s → s.lock = none → ∀ q,
      s.asleep q = some .nwrite → s.pipe.nwrite = s.pipe.nread + 512 ∧ s.pipe.readopen = true := by
  refine ⟨fun s hs hfree q => ?_, fun s hs hfree q hq => ?_⟩
  · have h := readerInv_inductive.reachable hs
    exact ⟨fun hq => h.nread.reason hfree hq, fun hq => h.sleep.nwrite.reason hfree hq⟩
  · exact (sleepInv_inductive.reachable hs).nwrite.reason hfree hq

/-- The step function without `kill`. -/
def quietStep (s : Sys n) : Lbl n → Option (Sys n)
  | .kill _ => none
  | l => step s l

theorem quietStep_only (h : quietStep s l = some t) : ((lts n).only NoKillInWrite).step s l t := by
  cases l with
  | kill q => cases h
  | pipewrite | piperead | pipeclose | go | renew => exact ⟨h, by rintro _ ⟨⟩⟩

/-- Process 1 finds the ring empty and sleeps. -/
theorem pipe_sleepers_reader : ∃ s, ((lts 2).only NoKillInWrite).Reachable s ∧ s.lock = none ∧
    s.asleep 1 = some .nread ∧ s.pipe.nread = s.pipe.nwrite ∧ s.pipe.writeopen = true := by
  have hrun : ((Lbl.piperead 1 1 :: List.replicate 4 (.go 1 true)).foldlM quietStep (boot 2)).map
      (fun s => (s.lock, s.asleep 1)) = some (none, some .nread) := by decide +kernel
  obtain ⟨s, hs, e⟩ := Option.map_eq_some_iff.1 hrun
  simp only [Prod.mk.injEq] at e
  have hr : ((lts 2).only NoKillInWrite).Reachable s :=
    ⟨boot 2, _, boot_init 2, LTS.Run.of_foldlM (fun _ _ _ h => quietStep_only h) hs⟩
  exact ⟨s, hr, e.1, e.2, ((pipe_sleepers 2).1 s hr e.1 1).1 e.2⟩

/-- Process 1 sleeps in `piperead`, process 0 inserts a byte, is killed, and returns. -/
def killedWriter : List (Lbl 2) :=
  [.piperead 1 1] ++ List.replicate 4 (.go 1 true) ++
    [.pipewrite 0 (fun _ => some 65) 2, .go 0 true, .go 0 true] ++ [.kill 0, .go 0 true]

theorem reader_asleep : ∃ s, (lts 2).Reachable s ∧ s.lock = none ∧ s.asleep 1 = some .nread ∧
    s.pipe.nread ≠ s.pipe.nwrite := by
  have hrun : (killedWriter.foldlM step (boot 2)).map
      (fun s => (s.lock, s.asleep 1, s.pipe.nread, s.pipe.nwrite)) = some (none, some .nread, 0, 1) := by
    decide +kernel
  obtain ⟨s, hs, e⟩ := Option.map_eq_some_iff.1 hrun
  simp only [Prod.mk.injEq] at e
  obtain ⟨e1, e2, e3, e4⟩ := e
  exact ⟨s, reachable_of_foldlM hs, e1, e2, by rw [e3, e4]; decide⟩

end
end Xv6.Pipe
