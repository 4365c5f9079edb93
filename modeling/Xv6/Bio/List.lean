import Xv6.Bio.Basic
import Mathlib.Data.Fintype.Card

/-!
# The list of buffers

What holds in every run of the buffer cache, whatever its callers do: the
links are one circle with all the buffers, no block is in two buffers, and the
list is sorted by the time of the last release (`ListInv`).

* `listInv_inductive`
* `bget_cases`: the three ways in which `bget` ends. It recycles the buffer
  that was released longest ago (`Oldest`).
-/
namespace Xv6.Bio
open Function (update update_self update_of_ne)

section
variable {m n : Nat} {D : Type}

structure ListInv (s : Sys m n D) : Prop where
  linked : ∃ l, s.links.Linked l ∧ (∀ b, b ∈ l) ∧ l.Pairwise fun a b => s.freed b ≤ s.freed a
  time : ∀ b, s.freed b ≤ s.time
  unique : ∀ b b', (s.buf b).dev = ROOTDEV → (s.buf b').dev = ROOTDEV →
    (s.buf b).blockno = (s.buf b').blockno → b = b'

variable {s s' : Sys m n D} {p : Fin m} {b : Fin n} {k : UInt32}

/-! ## `bget` -/

/-- `b` has no references, and of all such buffers it was released longest ago. -/
structure Oldest (s : Sys m n D) (b : Fin n) : Prop where
  unused : (s.buf b).refcnt = 0
  oldest : ∀ b', (s.buf b').refcnt = 0 → s.freed b ≤ s.freed b'

/-- The two ways in which `bget` gets a buffer, and its panic. -/
inductive Bget (s : Sys m n D) (p : Fin m) (k : UInt32) (s' : Sys m n D) : Prop where
  | hit (b : Fin n) (dev : (s.buf b).dev = ROOTDEV) (blockno : (s.buf b).blockno = k)
      (eq : s' = { s with
        buf := update s.buf b { s.buf b with refcnt := (s.buf b).refcnt + 1 }
        pc := update s.pc p (.lock b k) })
  | recycle (b : Fin n) (miss : ∀ b, (s.buf b).dev = ROOTDEV → (s.buf b).blockno ≠ k) (oldest : Oldest s b)
      (eq : s' = { s with
        buf := update s.buf b { s.buf b with dev := ROOTDEV, blockno := k, valid := false, refcnt := 1 }
        pc := update s.pc p (.lock b k) })
  | full (all : ∀ b, (s.buf b).refcnt ≠ 0) (eq : s' = { s with panic := some .noBuffers })

/-- The first match from the end of a sorted list is the oldest one. -/
theorem oldest_of_find {l : List (Fin n)} (hall : ∀ b, b ∈ l)
    (hs : l.Pairwise fun a b => s.freed b ≤ s.freed a)
    (h : l.reverse.find? s.unused = some b) : Oldest s b := by
  obtain ⟨hb, l1, l2, e, hl1⟩ := List.find?_eq_some_iff_append.1 h
  refine ⟨by simpa [Sys.unused] using hb, fun b' hb' => ?_⟩
  have hrev : (l1 ++ b :: l2).Pairwise fun a b => s.freed a ≤ s.freed b := by
    rw [← e, List.pairwise_reverse]
    exact hs
  have hmem : b' ∈ l1 ++ b :: l2 := by
    rw [← e, List.mem_reverse]
    exact hall b'
  rcases List.mem_append.1 hmem with hm | hm
  · have := hl1 b' hm
    simp [Sys.unused, hb'] at this
  · rcases List.mem_cons.1 hm with rfl | hm
    · exact Nat.le_refl _
    · exact (List.pairwise_cons.1 (List.pairwise_append.1 hrev).2.1).1 b' hm

theorem length_le {l : List (Fin n)} (h : l.Nodup) : l.length ≤ n := by
  have := List.Nodup.length_le_card h
  rwa [Fintype.card_fin] at this

theorem bget_cases (h : ListInv s) : ∃ s', bget s p ROOTDEV k = some s' ∧ Bget s p k s' := by
  obtain ⟨l, hl, hall, hs⟩ := h.linked
  have hlen := length_le hl.nodup
  unfold bget
  rw [hl.walk_next hlen, hl.walk_prev hlen]
  cases hf : l.find? (s.holds ROOTDEV k) with
  | some b =>
    have hb := List.find?_some hf
    simp only [Sys.holds, Bool.and_eq_true, beq_iff_eq] at hb
    exact ⟨_, rfl, .hit b hb.1 hb.2 rfl⟩
  | none =>
    have hmiss : ∀ b, (s.buf b).dev = ROOTDEV → (s.buf b).blockno ≠ k := fun b hd hk => by
      have := List.find?_eq_none.1 hf b (hall b)
      simp [Sys.holds, hd, hk] at this
    cases hv : l.reverse.find? s.unused with
    | some b => exact ⟨_, rfl, .recycle b hmiss (oldest_of_find hall hs hv) rfl⟩
    | none =>
      refine ⟨_, rfl, .full (fun b hb => ?_) rfl⟩
      have := List.find?_eq_none.1 hv b (List.mem_reverse.2 (hall b))
      simp [Sys.unused, hb] at this

/-! ## What a step does -/

/-- Whether the buffer is moved or not, these fields are the same. -/
theorem drop_fields (s : Sys m n D) (p : Fin m) (b : Fin n) :
    (drop s p b).buf = update s.buf b { s.buf b with refcnt := (s.buf b).refcnt - 1 } ∧
      (drop s p b).pc = update s.pc p .idle ∧ (drop s p b).disk = s.disk ∧ (drop s p b).content = s.content ∧
      (drop s p b).pins = s.pins := by
  unfold drop
  simp only
  split <;> exact ⟨rfl, rfl, rfl, rfl, rfl⟩

/-- The steps, with the conditions under which they run. -/
inductive Fires (s : Sys m n D) : Lbl m n D → Sys m n D → Prop where
  | bread (p : Fin m) (k : UInt32) (s' : Sys m n D) (idle : s.pc p = .idle) (get : Bget s p k s') :
      Fires s (.bread p k) s'
  | lock (p : Fin m) (b : Fin n) (k : UInt32) (pc : s.pc p = .lock b k) (free : (s.buf b).lock = none) :
      Fires s (.go p) { s with
        buf := update s.buf b { s.buf b with lock := some p }
        pc := update s.pc p (.fill b k) }
  | fill (p : Fin m) (b : Fin n) (k : UInt32) (pc : s.pc p = .fill b k) : Fires s (.go p) (fill s p b)
  | drop (p : Fin m) (b : Fin n) (pc : s.pc p = .drop b) : Fires s (.go p) (drop s p b)
  | modify (p : Fin m) (b : Fin n) (d : D) (idle : s.pc p = .idle) (held : (s.buf b).lock = some p) :
      Fires s (.modify p b d) (modify s b d)
  | bwrite (p : Fin m) (b : Fin n) (idle : s.pc p = .idle) : Fires s (.bwrite p b) (bwrite s p b)
  | brelse (p : Fin m) (b : Fin n) (idle : s.pc p = .idle) : Fires s (.brelse p b) (brelse s p b)
  | bpin (p : Fin m) (b : Fin n) (idle : s.pc p = .idle) : Fires s (.bpin p b) (bpin s b)
  | bunpin (p : Fin m) (b : Fin n) (idle : s.pc p = .idle) : Fires s (.bunpin p b) (bunpin s b)

theorem step_fires {l : Lbl m n D} (hI : ListInv s) (h : step s l = some s') :
    s.panic = none ∧ Fires s l s' := by
  unfold step at h
  split at h
  · rename_i hp
    refine ⟨hp, ?_⟩
    cases l with
    | go p =>
      simp only [go] at h
      cases hpc : s.pc p with
      | idle => rw [hpc] at h; cases h
      | lock b k =>
        rw [hpc] at h
        simp only [acquiresleep] at h
        split at h
        · cases h; exact .lock p b k hpc ‹_›
        · cases h
      | fill b k => rw [hpc] at h; cases h; exact .fill p b k hpc
      | drop b => rw [hpc] at h; cases h; exact .drop p b hpc
    | bread p k =>
      simp only at h
      split at h
      · obtain ⟨t, ht, hg⟩ := bget_cases (p := p) (k := k) hI
        rw [h] at ht
        cases ht
        exact .bread p k s' ‹_› hg
      · cases h
    | modify p b d =>
      simp only at h
      split at h
      · rename_i hc
        cases h
        exact .modify p b d hc.1 hc.2
      · cases h
    | bwrite p b =>
      simp only at h
      split at h
      · cases h; exact .bwrite p b ‹_›
      · cases h
    | brelse p b =>
      simp only at h
      split at h
      · cases h; exact .brelse p b ‹_›
      · cases h
    | bpin p b =>
      simp only at h
      split at h
      · cases h; exact .bpin p b ‹_›
      · cases h
    | bunpin p b =>
      simp only at h
      split at h
      · cases h; exact .bunpin p b ‹_›
      · cases h
  · cases h

/-! ## The invariant -/

/-- The links and the names of the buffers stay. -/
theorem ListInv.same (h : ListInv s) (hl : s'.links = s.links) (hf : s'.freed = s.freed)
    (ht : s'.time = s.time)
    (hn : ∀ b, (s'.buf b).dev = (s.buf b).dev ∧ (s'.buf b).blockno = (s.buf b).blockno) : ListInv s' := by
  refine ⟨?_, ?_, ?_⟩
  · rw [hl, hf]; exact h.linked
  · rw [hf, ht]; exact h.time
  · intro b b'
    rw [(hn b).1, (hn b').1, (hn b).2, (hn b').2]
    exact h.unique b b'

theorem update_name {x : Buf m D} (b' : Fin n) (hx : x.dev = (s.buf b).dev ∧ x.blockno = (s.buf b).blockno) :
    (update s.buf b x b').dev = (s.buf b').dev ∧ (update s.buf b x b').blockno = (s.buf b').blockno := by
  by_cases e : b' = b
  · subst e; rw [update_self]; exact hx
  · rw [update_of_ne e]; exact ⟨rfl, rfl⟩

/-- A buffer that nobody has goes to the front. -/
theorem ListInv.moveFront (h : ListInv s) (hl : s'.links = (s.links.unlink b).pushFront b)
    (hf : s'.freed = update s.freed b (s.time + 1)) (ht : s'.time = s.time + 1)
    (hn : ∀ b, (s'.buf b).dev = (s.buf b).dev ∧ (s'.buf b).blockno = (s.buf b).blockno) : ListInv s' := by
  obtain ⟨l, hlinked, hall, hs⟩ := h.linked
  obtain ⟨l1, l2, rfl⟩ := List.append_of_mem (hall b)
  obtain ⟨hb, _⟩ := List.nodup_cons.1 (List.nodup_middle.1 hlinked.nodup)
  refine ⟨⟨b :: (l1 ++ l2), ?_, fun b' => ?_, ?_⟩, fun b' => ?_, fun b1 b2 => ?_⟩
  · rw [hl]
    exact hlinked.unlink.pushFront hb
  · have := hall b'
    simp only [List.mem_append, List.mem_cons] at this ⊢
    tauto
  · -- `b` has the latest time of all
    rw [hf]
    have hne : ∀ b' ∈ l1 ++ l2, update s.freed b (s.time + 1) b' = s.freed b' := by
      intro b' hb'
      refine update_of_ne (fun e => ?_) _ _
      subst e
      exact hb hb'
    refine List.pairwise_cons.2 ⟨fun b' hb' => ?_, ?_⟩
    · rw [update_self, hne b' hb']
      exact Nat.le_succ_of_le (h.time b')
    · have hsub : (l1 ++ l2).Pairwise fun a b => s.freed b ≤ s.freed a :=
        hs.sublist (List.Sublist.append_left (List.sublist_cons_self b l2) l1)
      refine hsub.imp_of_mem fun ha hb' hle => ?_
      rw [hne _ ha, hne _ hb']
      exact hle
  · rw [hf, ht]
    by_cases e : b' = b
    · rw [e, update_self]
    · rw [update_of_ne e]
      exact Nat.le_succ_of_le (h.time b')
  · rw [(hn b1).1, (hn b2).1, (hn b1).2, (hn b2).2]
    exact h.unique b1 b2

theorem ListInv.drop (h : ListInv s) : ListInv (drop s p b) := by
  unfold Bio.drop
  simp only
  split
  · exact h.moveFront rfl rfl rfl fun b' => update_name b' (by exact ⟨rfl, rfl⟩)
  · exact h.same rfl rfl rfl fun b' => update_name b' (by exact ⟨rfl, rfl⟩)

theorem listInv_step {l : Lbl m n D} (h : ListInv s) (hs : step s l = some s') : ListInv s' := by
  cases (step_fires h hs).2 with
  | bread p k s' idle get =>
    cases get with
    | hit b dev blockno eq =>
      subst eq
      exact h.same rfl rfl rfl fun b' => update_name b' (by exact ⟨rfl, rfl⟩)
    | recycle b miss oldest eq =>
      subst eq
      refine ⟨h.linked, h.time, fun b1 b2 => ?_⟩
      show (update s.buf b _ b1).dev = _ → (update s.buf b _ b2).dev = _ →
        (update s.buf b _ b1).blockno = (update s.buf b _ b2).blockno → _
      by_cases e1 : b1 = b
      · by_cases e2 : b2 = b
        · exact fun _ _ _ => e1.trans e2.symm
        · subst e1
          rw [update_self, update_of_ne e2]
          exact fun _ hd hb => absurd hb.symm (miss b2 hd)
      · by_cases e2 : b2 = b
        · subst e2
          rw [update_self, update_of_ne e1]
          exact fun hd _ hb => absurd hb (miss b1 hd)
        · rw [update_of_ne e1, update_of_ne e2]
          exact h.unique b1 b2
    | full all eq => subst eq; exact h.same rfl rfl rfl fun _ => ⟨rfl, rfl⟩
  | lock | modify | bpin | bunpin => exact h.same rfl rfl rfl fun b' => update_name b' (by exact ⟨rfl, rfl⟩)
  | fill p b k pc =>
    refine h.same rfl rfl rfl fun b' => ?_
    unfold Bio.fill
    simp only
    split
    · exact ⟨rfl, rfl⟩
    · exact update_name b' ⟨rfl, rfl⟩
  | drop p b pc => exact h.drop
  | bwrite p b idle =>
    unfold Bio.bwrite
    split <;> exact h.same rfl rfl rfl fun _ => ⟨rfl, rfl⟩
  | brelse p b idle =>
    unfold Bio.brelse
    split
    · exact h.same rfl rfl rfl fun b' => update_name b' (by exact ⟨rfl, rfl⟩)
    · exact h.same rfl rfl rfl fun _ => ⟨rfl, rfl⟩

theorem Init.listInv (h : Init s) : ListInv s := by
  obtain ⟨links, hl⟩ := h.links
  refine ⟨⟨(List.finRange n).reverse, ?_, fun b => by simp, ?_⟩,
    fun b => by rw [h.freed]; exact Nat.zero_le _, ?_⟩
  · rw [hl]
    have hnd : ((List.finRange n).reverse ++ []).Nodup := by simpa using List.nodup_finRange n
    simpa [binit] using (Links.linked_clear links).foldl_pushFront hnd
  · refine List.Pairwise.imp (fun _ => ?_) (List.nodup_reverse.2 (List.nodup_finRange n))
    rw [h.freed, h.freed]
  · intro b b' hd
    rw [h.dev] at hd
    exact absurd hd (by decide)

theorem listInv_inductive : (lts m n D).Inductive ListInv :=
  ⟨fun _ h => h.listInv, fun _ _ _ h hs => listInv_step h hs⟩

end
end Xv6.Bio
