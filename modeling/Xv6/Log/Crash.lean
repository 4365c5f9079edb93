import Xv6.Log.Basic

/-!
# Crash atomicity of the redo log

`commit` issues `2n + 2` single-block writes: the `n` log blocks, the header,
the `n` home blocks, the header again. Recovery issues the home blocks named
by the on-disk header and clears the header. The disk passes through two
kinds of states:

* `Clean`: the header says 0 and every block outside the log area has its
  final contents (the old ones before the header write, the new ones after);
* `Pending`: the header names the transaction, the log blocks hold its
  contents, and every other block outside the log area is final.

Recovery, cut off anywhere, keeps `Clean` and turns `Pending` into `Pending`
or `Clean` (`good_cut`); a complete one ends in `Clean` (`good_recovered`).
Stale words of an earlier header and stale log blocks sit beyond `n`, where
neither predicate looks.

* `crash_atomic`: the contents outside the log area after any crash, any cut
  recoveries and one complete recovery are all old or all new.
-/
namespace Xv6.Log

/-! ## Writes -/

theorem applyWrites_nil (d : Nat → Block) : applyWrites [] d = d := rfl

theorem applyWrites_cons (c : Nat) (x : Block) (ws : List (Nat × Block)) (d : Nat → Block) :
    applyWrites ((c, x) :: ws) d = applyWrites ws (upd d c x) := rfl

theorem applyWrites_append (ws vs : List (Nat × Block)) (d : Nat → Block) :
    applyWrites (ws ++ vs) d = applyWrites vs (applyWrites ws d) :=
  List.foldl_append

/-- When every write stores what `fin` has for its block, a block is `fin`
if it was written and old otherwise, whatever the order of the writes. -/
theorem applyWrites_agree (fin : Nat → Block) (b : Nat) :
    ∀ (ws : List (Nat × Block)) (d : Nat → Block), (∀ w ∈ ws, w.1 = b → w.2 = fin b) →
      applyWrites ws d b = if b ∈ ws.map Prod.fst then fin b else d b
  | [], d, _ => by simp [applyWrites]
  | (c, x) :: ws, d, h => by
    have ih := applyWrites_agree fin b ws (upd d c x) (fun w hw => h w (List.mem_cons_of_mem _ hw))
    have hx := h (c, x) List.mem_cons_self
    rw [applyWrites_cons, ih]
    by_cases hc : c = b
    · subst hc
      simp only [upd, if_true, List.map_cons, List.mem_cons, true_or]
      split
      · rfl
      · exact hx rfl
    · simp only [upd, List.map_cons, List.mem_cons, Ne.symm hc, if_false, false_or]

variable {ws : List (Nat × Block)} {s t : St} {start : Nat} {bs : List UInt32}

theorem applyWrites_other {b : Nat} (d : Nat → Block)
    (h : b ∉ ws.map Prod.fst) : applyWrites ws d b = d b := by
  rw [applyWrites_agree d b ws d, if_neg h]
  intro w hw hb
  exact absurd (List.mem_map.2 ⟨w, hw, hb⟩) h

/-- `s'` is reached from `s` by the disk writes `ws`; the log's place on the
disk is the same. -/
structure Issues (s : St) (ws : List (Nat × Block)) (s' : St) : Prop where
  writes : s'.writes = s.writes ++ ws
  disk : s'.disk = applyWrites ws s.disk
  start : s'.start = s.start

theorem Issues.refl (s : St) : Issues s [] s := ⟨by simp, rfl, rfl⟩

theorem Issues.trans {u : St} {vs : List (Nat × Block)} (h1 : Issues s ws t)
    (h2 : Issues t vs u) : Issues s (ws ++ vs) u where
  writes := by rw [h2.writes, h1.writes, List.append_assoc]
  disk := by rw [h2.disk, h1.disk, applyWrites_append]
  start := h2.start.trans h1.start

theorem Issues.crashDisk {f : St → St} (h : Issues s ws (f s))
    (k : Nat) : crashDisk f s k = applyWrites (ws.take k) s.disk := by
  rw [Log.crashDisk, h.writes, List.drop_left]

theorem issues_bwrite (s : St) (b : Nat) (x : Block) : Issues s [(b, x)] (bwrite s b x) :=
  ⟨rfl, rfl, rfl⟩

theorem issues_bread (s : St) (b : Nat) : Issues s [] (bread s b).2 := ⟨by simp [bread], rfl, rfl⟩

@[simp] theorem cached_bread (s : St) (b c : Nat) : (bread s b).2.cached c = s.cached c := by
  by_cases h : c = b
  · subst h; simp [bread, St.cached, upd]
  · simp [bread, St.cached, upd, h]

theorem cached_bwrite (s : St) (b c : Nat) (x : Block) :
    (bwrite s b x).cached c = if c = b then x else s.cached c := by
  by_cases h : c = b <;> simp [bwrite, St.cached, upd, h]

/-! ## The header block -/

theorem word_putBlocks_lt (j : Nat) : ∀ (bs : List UInt32) (i : Nat) (x : Block), j ≤ i →
    (putBlocks i bs x).word j = x.word j
  | [], _, _, _ => rfl
  | b :: bs, i, x, h => by
    rw [putBlocks, word_putBlocks_lt j bs (i + 1) _ (by omega), Bytes.word_setWord_ne _ _ (by omega)]

theorem word_putBlocks (j : Nat) : ∀ (bs : List UInt32) (i : Nat) (x : Block),
    4 * (i + bs.length) + 4 ≤ BSIZE → (hj : j < bs.length) →
    (putBlocks i bs x).word (i + j + 1) = bs[j]
  | [], _, _, _, hj => by simp at hj
  | b :: bs, i, x, hb, hj => by
    simp only [List.length_cons] at hb hj
    cases j with
    | zero =>
      rw [putBlocks, Nat.add_zero, word_putBlocks_lt (i + 1) bs (i + 1) _ (Nat.le_refl _),
        Bytes.word_setWord _ _ (by omega)]
      rfl
    | succ j =>
      have := word_putBlocks j bs (i + 1) (x.setWord (i + 1) b) (by omega) (by omega)
      rw [putBlocks, show i + (j + 1) + 1 = i + 1 + j + 1 by omega, this]
      rfl

theorem headN_putHead (lh : List UInt32) (x : Block) (h : lh.length ≤ LOGSIZE) :
    headN (putHead lh x) = lh.length := by
  have hl : lh.length ≤ 30 := h
  rw [headN, putHead, word_putBlocks_lt 0 _ 0 _ (Nat.le_refl _), Bytes.word_setWord _ _ (by decide)]
  rw [UInt32.toInt32_ofNat', Int32.toInt_ofNat_of_lt (by omega)]

theorem headBlocks_putHead (lh : List UInt32) (x : Block) (h : lh.length ≤ LOGSIZE) :
    headBlocks (putHead lh x) = lh := by
  have hl : lh.length ≤ 30 := h
  apply List.ext_getElem
  · simp [headBlocks, headN_putHead lh x h]
  · intro i h1 h2
    have := word_putBlocks i lh 0 (x.setWord 0 (UInt32.ofNat lh.length)) (by simp [BSIZE]; omega) h2
    rw [Nat.zero_add] at this
    simpa [headBlocks, putHead] using this

theorem headBlocks_of_zero {x : Block} (h : headN x = 0) : headBlocks x = [] := by
  simp [headBlocks, h]

/-! ## What `commit` and recovery write -/

/-- The writes of `write_log`. -/
def logWrites (start : Nat) (f : Nat → Block) : Nat → List UInt32 → List (Nat × Block)
  | _, [] => []
  | tail, b :: bs => (start + tail + 1, f b.toNat) :: logWrites start f (tail + 1) bs

/-- The writes of `install_trans`. -/
def homeWrites (start : Nat) (f : Nat → Block) : Nat → List UInt32 → List (Nat × Block)
  | _, [] => []
  | tail, b :: bs => (b.toNat, f (start + tail + 1)) :: homeWrites start f (tail + 1) bs

/-- No block of `bs` is one of the log blocks used for them from `tail` on. -/
def Apart (start tail : Nat) (bs : List UInt32) : Prop :=
  ∀ b ∈ bs, ¬(start + tail < b.toNat ∧ b.toNat < start + tail + bs.length + 1)

theorem Apart.tail {tail : Nat} {b : UInt32}
    (h : Apart start tail (b :: bs)) : Apart start (tail + 1) bs := by
  intro c hc h'
  have := h c (List.mem_cons_of_mem _ hc)
  simp only [List.length_cons] at this
  omega

theorem apart_of_outside {size : Nat}
    (h : ∀ b ∈ bs, ¬InLog start size b.toNat) (hl : bs.length + 1 ≤ size) : Apart start 0 bs := by
  intro b hb h'
  have := h b hb
  simp only [InLog] at this
  omega

theorem logWrites_congr {start : Nat} {f g : Nat → Block} :
    ∀ (bs : List UInt32) (tail : Nat), (∀ b ∈ bs, f b.toNat = g b.toNat) →
      logWrites start f tail bs = logWrites start g tail bs
  | [], _, _ => rfl
  | b :: bs, tail, h => by
    rw [logWrites, logWrites, h b List.mem_cons_self,
      logWrites_congr bs (tail + 1) (fun c hc => h c (List.mem_cons_of_mem _ hc))]

theorem homeWrites_congr {start : Nat} {f g : Nat → Block} :
    ∀ (bs : List UInt32) (tail : Nat),
      (∀ i, tail ≤ i → i < tail + bs.length → f (start + i + 1) = g (start + i + 1)) →
      homeWrites start f tail bs = homeWrites start g tail bs
  | [], _, _ => rfl
  | b :: bs, tail, h => by
    simp only [List.length_cons] at h
    rw [homeWrites, homeWrites, h tail (by omega) (by omega),
      homeWrites_congr bs (tail + 1) (fun i h1 h2 => h i (by omega) (by omega))]

theorem length_logWrites (start : Nat) (f : Nat → Block) :
    ∀ (bs : List UInt32) (tail : Nat), (logWrites start f tail bs).length = bs.length
  | [], _ => rfl
  | _ :: bs, tail => by simp [logWrites, length_logWrites start f bs (tail + 1)]

theorem length_homeWrites (start : Nat) (f : Nat → Block) :
    ∀ (bs : List UInt32) (tail : Nat), (homeWrites start f tail bs).length = bs.length
  | [], _ => rfl
  | _ :: bs, tail => by simp [homeWrites, length_homeWrites start f bs (tail + 1)]

theorem mem_logWrites {start : Nat} {f : Nat → Block} {w : Nat × Block} :
    ∀ {bs : List UInt32} {tail : Nat}, w ∈ logWrites start f tail bs →
      ∃ i, ∃ h : i < bs.length, w = (start + tail + i + 1, f bs[i].toNat)
  | [], _, h => by simp [logWrites] at h
  | b :: bs, tail, h => by
    simp only [logWrites, List.mem_cons] at h
    rcases h with rfl | h
    · exact ⟨0, by simp, rfl⟩
    · obtain ⟨i, hi, e⟩ := mem_logWrites h
      exact ⟨i + 1, by simpa using hi, by rw [e]; simp; omega⟩

/-- After the log writes, log block `i` holds what was logged for entry `i`. -/
theorem applyWrites_logWrites (start : Nat) (f : Nat → Block) :
    ∀ (bs : List UInt32) (tail : Nat) (d : Nat → Block) (i : Nat) (h : i < bs.length),
      applyWrites (logWrites start f tail bs) d (start + tail + i + 1) = f bs[i].toNat
  | [], _, _, _, h => by simp at h
  | b :: bs, tail, d, i, h => by
    rw [logWrites, applyWrites_cons]
    cases i with
    | zero =>
      rw [applyWrites_other]
      · simp [upd]
      · intro hm
        obtain ⟨w, hw, e⟩ := List.mem_map.1 hm
        obtain ⟨j, _, hj⟩ := mem_logWrites hw
        rw [hj] at e
        simp at e; omega
    | succ i =>
      have := applyWrites_logWrites start f bs (tail + 1) (upd d (start + tail + 1) (f b.toNat)) i
        (by simpa using h)
      rw [show start + tail + (i + 1) + 1 = start + (tail + 1) + i + 1 by omega, this]
      rfl

theorem fst_homeWrites (start : Nat) (f : Nat → Block) :
    ∀ (bs : List UInt32) (tail : Nat),
      (homeWrites start f tail bs).map Prod.fst = bs.map UInt32.toNat
  | [], _ => rfl
  | _ :: bs, tail => by simp [homeWrites, fst_homeWrites start f bs (tail + 1)]

theorem homeWrites_eq_map {start : Nat} {f g : Nat → Block} :
    ∀ (bs : List UInt32) (tail : Nat),
      (∀ i, (h : i < bs.length) → f (start + tail + i + 1) = g bs[i].toNat) →
      homeWrites start f tail bs = bs.map (fun b => (b.toNat, g b.toNat))
  | [], _, _ => rfl
  | b :: bs, tail, h => by
    have h0 : f (start + tail + 1) = g b.toNat := h 0 (by simp)
    rw [homeWrites, List.map_cons, h0, homeWrites_eq_map bs (tail + 1) (fun i hi => ?_)]
    have := h (i + 1) (by simpa using hi)
    rw [show start + (tail + 1) + i + 1 = start + tail + (i + 1) + 1 by omega, this]
    rfl

/-- `write_log` writes the cached contents of the logged blocks to the log
and changes no other block, in the cache or on disk. -/
theorem writeLog_passes : ∀ (bs : List UInt32) (tail : Nat) (s : St), Apart s.start tail bs →
    Issues s (logWrites s.start s.cached tail bs) (passes writeLogPass tail bs s) ∧
    (passes writeLogPass tail bs s).lh = s.lh ∧
    (∀ c, ¬(s.start + tail < c ∧ c < s.start + tail + bs.length + 1) →
      (passes writeLogPass tail bs s).cached c = s.cached c) ∧
    ∀ i, (h : i < bs.length) →
      (passes writeLogPass tail bs s).cached (s.start + tail + i + 1) = s.cached bs[i].toNat
  | [], _, s, _ => ⟨.refl s, rfl, fun _ _ => rfl, fun _ h => by simp at h⟩
  | b :: bs, tail, s, hap => by
    set r := bread s (s.start + tail + 1)
    have hfrom : (bread r.2 b.toNat).1 = s.cached b.toNat := cached_bread s _ _
    set t := bwrite (bread r.2 b.toNat).2 (s.start + tail + 1) (bread r.2 b.toNat).1 with ht
    have hrec : passes writeLogPass tail (b :: bs) s = passes writeLogPass (tail + 1) bs t := rfl
    have hI : Issues s [(s.start + tail + 1, s.cached b.toNat)] t := by
      rw [← hfrom]
      exact ((issues_bread s _).trans (issues_bread _ _)).trans (issues_bwrite _ _ _)
    have hc : ∀ c, t.cached c = if c = s.start + tail + 1 then s.cached b.toNat else s.cached c := by
      intro c; rw [ht, cached_bwrite, hfrom, cached_bread, cached_bread]
    have hap' : Apart t.start (tail + 1) bs := by rw [hI.start]; exact hap.tail
    obtain ⟨h1, h2, h3, h4⟩ := writeLog_passes bs (tail + 1) t hap'
    rw [hrec]
    simp only [List.length_cons]
    rw [hI.start] at h1 h3 h4
    have hold : ∀ c ∈ bs, t.cached c.toNat = s.cached c.toNat := by
      intro c hcm
      have := hap c (List.mem_cons_of_mem _ hcm)
      simp only [List.length_cons] at this
      rw [hc, if_neg (by omega)]
    refine ⟨?_, by rw [h2, ht]; rfl, ?_, ?_⟩
    · rw [logWrites_congr bs (tail + 1) hold] at h1
      exact hI.trans h1
    · intro c hcn
      rw [h3 c (by omega), hc, if_neg (by omega)]
    · intro i hi
      cases i with
      | zero => rw [h3 _ (by omega), hc, if_pos (by omega)]; rfl
      | succ i =>
        have := h4 i (by omega)
        rw [show s.start + tail + (i + 1) + 1 = s.start + (tail + 1) + i + 1 by omega, this,
          hold _ (List.getElem_mem _)]
        rfl

/-- `install_trans` writes the log blocks to the home blocks. -/
theorem install_passes (r : Bool) : ∀ (bs : List UInt32) (tail : Nat) (s : St),
    Apart s.start tail bs →
    Issues s (homeWrites s.start s.cached tail bs) (passes (installPass r) tail bs s) ∧
    (passes (installPass r) tail bs s).lh = s.lh ∧
    ∀ c, (∀ b ∈ bs, b.toNat ≠ c) → (passes (installPass r) tail bs s).cached c = s.cached c
  | [], _, s, _ => ⟨.refl s, rfl, fun _ _ => rfl⟩
  | b :: bs, tail, s, hap => by
    set t0 := bwrite (bread (bread s (s.start + tail + 1)).2 b.toNat).2 b.toNat
      (s.cached (s.start + tail + 1)) with ht0
    set t := if r then t0 else bunpin t0 b.toNat with ht
    have hI0 : Issues s [(b.toNat, s.cached (s.start + tail + 1))] t0 :=
      ((issues_bread s _).trans (issues_bread _ _)).trans (issues_bwrite _ _ _)
    have hI : Issues s [(b.toNat, s.cached (s.start + tail + 1))] t := by
      cases r
      · exact ⟨hI0.writes, hI0.disk, hI0.start⟩
      · exact hI0
    have hlh : t.lh = s.lh := by cases r <;> rfl
    have hc : ∀ c, t.cached c =
        if c = b.toNat then s.cached (s.start + tail + 1) else s.cached c := by
      intro c
      have : t.cached c = t0.cached c := by cases r <;> rfl
      rw [this, ht0, cached_bwrite]; simp
    have hrec : passes (installPass r) tail (b :: bs) s = passes (installPass r) (tail + 1) bs t := rfl
    have hap' : Apart t.start (tail + 1) bs := by rw [hI.start]; exact hap.tail
    obtain ⟨h1, h2, h3⟩ := install_passes r bs (tail + 1) t hap'
    rw [hI.start] at h1
    rw [hrec]
    refine ⟨?_, h2.trans hlh, ?_⟩
    · have hb := hap b List.mem_cons_self
      simp only [List.length_cons] at hb
      rw [homeWrites_congr (g := s.cached) bs (tail + 1) (fun i h1 h2 => by
        rw [hc, if_neg (by omega)])] at h1
      exact hI.trans h1
    · intro c hcn
      rw [h3 c (fun x hx => hcn x (List.mem_cons_of_mem _ hx)), hc,
        if_neg (Ne.symm (hcn b List.mem_cons_self))]

theorem issues_writeHead (s : St) :
    Issues s [(s.start, putHead s.lh (s.cached s.start))] (writeHead s) :=
  (issues_bread s s.start).trans (issues_bwrite _ _ _)

theorem cached_writeHead (s : St) (c : Nat) :
    (writeHead s).cached c = if c = s.start then putHead s.lh (s.cached s.start) else s.cached c := by
  rw [show writeHead s = bwrite (bread s s.start).2 s.start (putHead s.lh (s.cached s.start)) from rfl,
    cached_bwrite, cached_bread]

theorem issues_installTrans {r : Bool} (hap : Apart s.start 0 s.lh) :
    Issues s (homeWrites s.start s.cached 0 s.lh) (installTrans r s) :=
  (install_passes r s.lh 0 s hap).1

theorem Issues.clear (h : Issues s ws t) :
    Issues s ws (clearLh t) := ⟨h.writes, h.disk, h.start⟩

theorem issues_readHead (s : St) : Issues s [] (readHead s) := by
  have h := issues_bread s s.start
  exact ⟨h.writes, h.disk, h.start⟩

theorem cached_readHead (s : St) (c : Nat) : (readHead s).cached c = s.cached c :=
  cached_bread s s.start c

/-- Recovery from disk `d` installs what the header names, then clears it. -/
theorem recover_issues (start size : Nat) (d : Nat → Block)
    (hap : Apart start 0 (headBlocks (d start))) :
    ∃ x, Issues (boot start size d) (homeWrites start d 0 (headBlocks (d start)) ++ [(start, putHead [] x)])
      (recoverFromLog (boot start size d)) := by
  have hst : (boot start size d).start = start := rfl
  have hcd : (boot start size d).cached = d := rfl
  generalize boot start size d = s0 at hst hcd ⊢
  have hl1 : (readHead s0).lh = headBlocks (d start) := by rw [← hcd, ← hst]; rfl
  have hc1 : (readHead s0).cached = d := by funext c; rw [cached_readHead, hcd]
  have h1 := issues_readHead s0
  rw [recoverFromLog]
  generalize readHead s0 = s1 at hl1 hc1 h1 ⊢
  have hst1 : s1.start = start := h1.start.trans hst
  have h2 := (issues_installTrans (r := true) (s := s1) (by rw [hst1, hl1]; exact hap)).clear
  have hl2 : (clearLh (installTrans true s1)).lh = [] := rfl
  generalize clearLh (installTrans true s1) = s2 at h2 hl2 ⊢
  have h3 := h1.trans (h2.trans (issues_writeHead s2))
  rw [h2.start, hst1, hc1, hl1, hl2] at h3
  exact ⟨_, h3⟩

/-! ## The two kinds of disks -/

section Disks
variable (start size : Nat) (fin : Nat → Block)

/-- The header is clear and everything outside the log area is final. -/
structure Clean (d : Nat → Block) : Prop where
  head : headN (d start) = 0
  home : ∀ b, ¬InLog start size b → d b = fin b

/-- The header names `lh`, whose final contents are in the log; what is not
named is final already. -/
structure Pending (lh : List UInt32) (d : Nat → Block) : Prop where
  head : headBlocks (d start) = lh
  log : ∀ i, (h : i < lh.length) → d (start + i + 1) = fin lh[i].toNat
  home : ∀ b, ¬InLog start size b → (∀ x ∈ lh, x.toNat ≠ b) → d b = fin b

def Good (lh : List UInt32) (d : Nat → Block) : Prop :=
  Clean start size fin d ∨ Pending start size fin lh d

end Disks

section Recovery
variable {start size : Nat} {fin : Nat → Block} {lh : List UInt32}

theorem homeWrites_agree {d : Nat → Block} : ∀ (bs : List UInt32) (tail : Nat),
    (∀ i, (h : i < bs.length) → d (start + tail + i + 1) = fin bs[i].toNat) →
    ∀ w ∈ homeWrites start d tail bs, w.2 = fin w.1
  | [], _, _, w, hw => by simp [homeWrites] at hw
  | b :: bs, tail, h, w, hw => by
    simp only [homeWrites, List.mem_cons] at hw
    rcases hw with rfl | hw
    · exact h 0 (by simp)
    · refine homeWrites_agree bs (tail + 1) (fun i hi => ?_) w hw
      have := h (i + 1) (by simpa using hi)
      rw [show start + (tail + 1) + i + 1 = start + tail + (i + 1) + 1 by omega, this]
      rfl

variable {d : Nat → Block} {ws : List (Nat × Block)}

/-- Writes of final contents to blocks of `lh` keep `Pending`. -/
theorem Pending.home_writes
    (hP : Pending start size fin lh d) (hout : ∀ b ∈ lh, ¬InLog start size b.toNat)
    (hlen : lh.length + 1 ≤ size) (hsub : ∀ w ∈ ws, ∃ b ∈ lh, b.toNat = w.1) :
    Pending start size fin lh (applyWrites ws d) := by
  have hlog : ∀ c, InLog start size c → applyWrites ws d c = d c := by
    intro c hc
    apply applyWrites_other
    intro hm
    obtain ⟨w, hw, rfl⟩ := List.mem_map.1 hm
    obtain ⟨b, hb, e⟩ := hsub w hw
    exact hout b hb (e ▸ hc)
  refine ⟨?_, ?_, ?_⟩
  · rw [hlog start ⟨Nat.le_refl _, by omega⟩, hP.head]
  · intro i hi
    rw [hlog _ ⟨by omega, by omega⟩, hP.log i hi]
  · intro b hb hx
    rw [applyWrites_other, hP.home b hb hx]
    intro hm
    obtain ⟨w, hw, rfl⟩ := List.mem_map.1 hm
    obtain ⟨c, hc, e⟩ := hsub w hw
    exact hx c hc e

/-- All home blocks and then a cleared header: everything is final. -/
theorem Pending.finish {x : Block}
    (hP : Pending start size fin lh d) (hlen : lh.length + 1 ≤ size)
    (hag : ∀ w ∈ ws, w.2 = fin w.1) (hall : ws.map Prod.fst = lh.map UInt32.toNat) :
    Clean start size fin (applyWrites (ws ++ [(start, putHead [] x)]) d) := by
  rw [applyWrites_append]
  refine ⟨?_, ?_⟩
  · simpa [applyWrites, upd] using headN_putHead [] x (Nat.zero_le _)
  · intro b hb
    have hne : b ≠ start := by rintro rfl; exact hb ⟨Nat.le_refl _, by omega⟩
    rw [applyWrites_cons, applyWrites_nil, upd, if_neg hne,
      applyWrites_agree fin b ws d (fun w hw e => e ▸ hag w hw), hall]
    split
    · rfl
    · rename_i hn
      exact hP.home b hb (fun y hy e => hn (List.mem_map.2 ⟨y, hy, e⟩))

theorem clean_cut (h : Clean start size fin d) (hs : 0 < size) (k : Nat) :
    Clean start size fin (cutRecovery start size d k) := by
  obtain ⟨x, hI⟩ := recover_issues start size d
    (by rw [headBlocks_of_zero h.head]; intro b hb; simp at hb)
  rw [headBlocks_of_zero h.head] at hI
  rw [cutRecovery, hI.crashDisk]
  cases k with
  | zero => exact h
  | succ k =>
    have hP : Pending start size fin [] d :=
      ⟨headBlocks_of_zero h.head, fun i hi => by simp at hi, fun b hb _ => h.home b hb⟩
    have hdone : Clean start size fin (applyWrites ([] ++ [(start, putHead [] x)]) d) :=
      hP.finish hs (by simp) rfl
    simpa [homeWrites, boot] using hdone

theorem pending_cut (h : Pending start size fin lh d)
    (hout : ∀ b ∈ lh, ¬InLog start size b.toNat) (hlen : lh.length + 1 ≤ size) (k : Nat) :
    (Pending start size fin lh (cutRecovery start size d k) ∧ k ≤ lh.length) ∨
    Clean start size fin (cutRecovery start size d k) := by
  obtain ⟨x, hI⟩ := recover_issues start size d
    (by rw [h.head]; exact apart_of_outside hout hlen)
  rw [h.head] at hI
  rw [cutRecovery, hI.crashDisk]
  have hl := length_homeWrites start d lh 0
  have hfst := fst_homeWrites start d lh 0
  by_cases hk : k ≤ lh.length
  · left
    rw [List.take_append_of_le_length (by omega)]
    refine ⟨h.home_writes hout hlen (fun w hw => ?_), hk⟩
    have hm : w.1 ∈ (homeWrites start d 0 lh).map Prod.fst :=
      List.mem_map.2 ⟨w, List.mem_of_mem_take hw, rfl⟩
    rw [hfst] at hm
    simpa using hm
  · right
    rw [List.take_of_length_le (by simp [hl]; omega)]
    exact h.finish hlen (homeWrites_agree lh 0 (fun i hi => by simpa using h.log i hi)) hfst

theorem good_cut (h : Good start size fin lh d)
    (hout : ∀ b ∈ lh, ¬InLog start size b.toNat) (hlen : lh.length + 1 ≤ size) (k : Nat) :
    Good start size fin lh (cutRecovery start size d k) := by
  rcases h with h | h
  · exact .inl (clean_cut h (by omega) k)
  · rcases pending_cut h hout hlen k with h | h
    · exact .inr h.1
    · exact .inl h

theorem good_cuts (hout : ∀ b ∈ lh, ¬InLog start size b.toNat) (hlen : lh.length + 1 ≤ size) :
    ∀ (cuts : List Nat) {d : Nat → Block}, Good start size fin lh d →
      Good start size fin lh (cuts.foldl (cutRecovery start size) d)
  | [], _, h => h
  | k :: cuts, _, h => good_cuts hout hlen cuts (good_cut h hout hlen k)

/-- A complete recovery is one that is not cut off before its last write. -/
theorem good_recovered (h : Good start size fin lh d)
    (hout : ∀ b ∈ lh, ¬InLog start size b.toNat) (hlen : lh.length + 1 ≤ size) :
    Clean start size fin (recoverFromLog (boot start size d)).disk := by
  have hap : Apart start 0 (headBlocks (d start)) := by
    rcases h with h | h
    · rw [headBlocks_of_zero h.head]; intro b hb; simp at hb
    · rw [h.head]; exact apart_of_outside hout hlen
  obtain ⟨x, hI⟩ := recover_issues start size d hap
  have hfull : cutRecovery start size d ((headBlocks (d start)).length + 1) =
      (recoverFromLog (boot start size d)).disk := by
    rw [cutRecovery, hI.crashDisk, hI.disk,
      List.take_of_length_le (by simp [length_homeWrites])]
  rw [← hfull]
  rcases h with h | h
  · exact clean_cut h (by omega) _
  · rcases pending_cut h hout hlen ((headBlocks (d start)).length + 1) with h' | h'
    · have := h'.2; rw [h.head] at this; omega
    · exact h'

end Recovery

/-! ## The commit -/

/-- The contents outside the log area that the transaction of `s` leads to. -/
def committed (s : St) (b : Nat) : Block :=
  if b ∈ s.lh.map UInt32.toNat then s.cached b else s.disk b

/-- The writes of a non-empty `commit`: log, header, homes, header. -/
theorem commit_issues (hne : 0 < s.lh.length) (hap : Apart s.start 0 s.lh) :
    ∃ x y, Issues s (logWrites s.start s.cached 0 s.lh ++ (s.start, putHead s.lh x) ::
      (s.lh.map (fun b => (b.toNat, s.cached b.toNat)) ++ [(s.start, putHead [] y)])) (commit s) := by
  obtain ⟨h1, hl1, -, hv1⟩ := writeLog_passes s.lh 0 s hap
  rw [commit, if_pos hne, writeLog]
  generalize passes writeLogPass 0 s.lh s = s1 at h1 hl1 hv1 ⊢
  have hst1 : s1.start = s.start := h1.start
  have h2 := issues_writeHead s1
  have hc2 := cached_writeHead s1
  have hl2 : (writeHead s1).lh = s.lh := hl1
  simp only
  generalize writeHead s1 = s2 at h2 hc2 hl2 ⊢
  have hst2 : s2.start = s.start := h2.start.trans hst1
  have h3 := (issues_installTrans (r := false) (s := s2) (by rw [hst2, hl2]; exact hap)).clear
  -- the log blocks in the cache are what write_log put there
  have hhome : homeWrites s2.start s2.cached 0 s2.lh = s.lh.map (fun b => (b.toNat, s.cached b.toNat)) := by
    rw [hst2, hl2]
    refine homeWrites_eq_map s.lh 0 (fun i hi => ?_)
    rw [hc2, if_neg (by omega), hv1 i hi]
  have hl3 : (clearLh (installTrans false s2)).lh = [] := rfl
  generalize clearLh (installTrans false s2) = s3 at h3 hl3 ⊢
  have hst3 : s3.start = s.start := h3.start.trans hst2
  have h := h1.trans (h2.trans (h3.trans (issues_writeHead s3)))
  rw [hst1, hl1, hhome, hst3, hl3] at h
  exact ⟨_, _, h⟩

/-- Whether the header write is among the first `k` writes of `commit`. -/
def headReached (s : St) (k : Nat) : Prop :=
  s.start ∈ ((((commit s).writes.drop s.writes.length).take k).map Prod.fst)

instance (s : St) (k : Nat) : Decidable (headReached s k) := inferInstanceAs (Decidable (_ ∈ _))

/-- `commit` writes the log blocks first, and then the header. -/
theorem headReached_iff (k : Nat) (hout : ∀ b ∈ s.lh, ¬InLog s.start s.size b.toNat)
    (hlen : s.lh.length + 1 ≤ s.size) : headReached s k ↔ s.lh ≠ [] ∧ s.lh.length < k := by
  by_cases hnil : s.lh = []
  · simp [headReached, commit, hnil]
  obtain ⟨x, y, hI⟩ := commit_issues (List.length_pos_iff.2 hnil) (apart_of_outside hout hlen)
  have hwl := length_logWrites s.start s.cached s.lh 0
  rw [headReached, hI.writes, List.drop_left]
  refine ⟨fun hm => ⟨hnil, ?_⟩, fun hk => ?_⟩
  · by_contra hk
    rw [List.take_append_of_le_length (by omega)] at hm
    obtain ⟨w, hw, e⟩ := List.mem_map.1 hm
    obtain ⟨i, hi, rfl⟩ := mem_logWrites (List.mem_of_mem_take hw)
    omega
  · obtain ⟨j, hj⟩ : ∃ j, k - s.lh.length = j + 1 := ⟨k - s.lh.length - 1, by omega⟩
    rw [List.take_append, hwl, hj]
    simp

/-- The disk at the crash: clean with the old contents before the header
write, good for the new contents after it. -/
theorem crash_good (k : Nat) (hn : headN (s.disk s.start) = 0)
    (hout : ∀ b ∈ s.lh, ¬InLog s.start s.size b.toNat) (hlen : s.lh.length + 1 ≤ s.size)
    (hcap : s.lh.length ≤ LOGSIZE) :
    Good s.start s.size (if headReached s k then committed s else s.disk) s.lh (crashDisk commit s k) := by
  have hap := apart_of_outside hout hlen
  have hreach := headReached_iff k hout hlen
  by_cases hne : 0 < s.lh.length
  case neg =>
    -- nothing logged: commit() does nothing
    have hnil : s.lh = [] := by simpa using hne
    have hc : commit s = s := by rw [commit, if_neg hne]
    rw [if_neg fun h => (hreach.1 h).1 hnil]
    left
    have hd : crashDisk commit s k = s.disk := by simp [crashDisk, hc, applyWrites]
    rw [hd]
    exact ⟨hn, fun _ _ => rfl⟩
  obtain ⟨x, y, hI⟩ := commit_issues hne hap
  rw [hI.crashDisk]
  set ws := logWrites s.start s.cached 0 s.lh with hws
  set hs := s.lh.map (fun b => (b.toNat, s.cached b.toNat)) with hhs
  have hwl : ws.length = s.lh.length := length_logWrites _ _ _ _
  have hwlog : ∀ w ∈ ws, s.start < w.1 ∧ w.1 < s.start + s.size := by
    intro w hw
    obtain ⟨i, hi, rfl⟩ := mem_logWrites hw
    simp only
    omega
  by_cases hk : k ≤ ws.length
  · -- before the header write: only log blocks were touched
    have hno : ∀ b, b ∈ (ws.take k).map Prod.fst → s.start < b ∧ b < s.start + s.size := by
      intro b hm
      obtain ⟨w, hw, rfl⟩ := List.mem_map.1 hm
      exact hwlog w (List.mem_of_mem_take hw)
    rw [if_neg fun h => absurd (hreach.1 h).2 (by omega), List.take_append_of_le_length hk]
    left
    refine ⟨?_, fun b hb => applyWrites_other _ fun hm => hb ⟨(hno b hm).1.le, (hno b hm).2⟩⟩
    rw [applyWrites_other _ fun hm => absurd (hno _ hm).1 (Nat.lt_irrefl _)]
    exact hn
  -- after it: the header names the transaction until it is cleared
  obtain ⟨j, rfl⟩ : ∃ j, k = ws.length + (j + 1) := ⟨k - ws.length - 1, by omega⟩
  have htake : (ws ++ (s.start, putHead s.lh x) :: (hs ++ [(s.start, putHead [] y)])).take
      (ws.length + (j + 1)) = (ws ++ [(s.start, putHead s.lh x)]) ++
      (hs ++ [(s.start, putHead [] y)]).take j := by
    rw [List.take_append, List.take_of_length_le (by omega), Nat.add_sub_cancel_left, List.take_succ_cons]
    simp
  rw [htake, if_pos (hreach.2 ⟨List.length_pos_iff.1 hne, by omega⟩), applyWrites_append]
  set d1 := applyWrites (ws ++ [(s.start, putHead s.lh x)]) s.disk with hd1
  have hd1' : ∀ b, d1 b = if b = s.start then putHead s.lh x else applyWrites ws s.disk b := by
    intro b; rw [hd1, applyWrites_append, applyWrites_cons, applyWrites_nil, upd]
  have hP : Pending s.start s.size (committed s) s.lh d1 := by
    refine ⟨?_, ?_, ?_⟩
    · rw [hd1', if_pos rfl, headBlocks_putHead _ _ hcap]
    · intro i hi
      rw [hd1', if_neg (by omega)]
      have hm : s.lh[i].toNat ∈ s.lh.map UInt32.toNat := List.mem_map.2 ⟨_, List.getElem_mem hi, rfl⟩
      rw [committed, if_pos hm]
      exact applyWrites_logWrites s.start s.cached s.lh 0 s.disk i hi
    · intro b hb hx
      have hbs : b ≠ s.start := by rintro rfl; exact hb ⟨Nat.le_refl _, by omega⟩
      rw [hd1', if_neg hbs, committed, if_neg (by simpa using hx)]
      apply applyWrites_other
      intro hm
      obtain ⟨w, hw, rfl⟩ := List.mem_map.1 hm
      have := hwlog w hw
      exact hb ⟨by omega, by omega⟩
  have hfst : hs.map Prod.fst = s.lh.map UInt32.toNat := by simp [hhs]
  by_cases hj : j ≤ hs.length
  · right
    rw [List.take_append_of_le_length hj]
    refine hP.home_writes hout hlen (fun w hw => ?_)
    have hm := List.mem_of_mem_take hw
    rw [hhs, List.mem_map] at hm
    obtain ⟨b, hb, rfl⟩ := hm
    exact ⟨b, hb, rfl⟩
  · left
    rw [List.take_of_length_le (by simp; omega)]
    refine hP.finish hlen (fun w hw => ?_) hfst
    rw [hhs, List.mem_map] at hw
    obtain ⟨b, hb, rfl⟩ := hw
    rw [committed, if_pos (List.mem_map.2 ⟨b, hb, rfl⟩)]

/-- **Crash atomicity.** A crash at any point of `commit`, any number of cut
recoveries and one complete recovery leave every block outside the log area
as it was before the commit, or every one as the commit makes it; which of
the two depends only on whether the header write reached the disk, which comes
after the `lh.n` writes of `write_log`. `hcap` is the length of `block[]` in
`struct logheader`. -/
theorem crash_atomic (s : St) (k : Nat) (cuts : List Nat) (hn : headN (s.disk s.start) = 0)
    (hout : ∀ b ∈ s.lh, ¬InLog s.start s.size b.toNat) (hlen : s.lh.length + 1 ≤ s.size)
    (hcap : s.lh.length ≤ LOGSIZE) :
    let d := cuts.foldl (cutRecovery s.start s.size) (crashDisk commit s k)
    let r := recoverFromLog (boot s.start s.size d)
    (headReached s k ↔ s.lh ≠ [] ∧ s.lh.length < k) ∧ headN (r.disk s.start) = 0 ∧
    ∀ b, ¬InLog s.start s.size b →
      r.disk b = if headReached s k then committed s b else s.disk b := by
  have h0 := crash_good k hn hout hlen hcap
  have h1 := good_recovered (good_cuts hout hlen cuts h0) hout hlen
  refine ⟨headReached_iff k hout hlen, h1.head, fun b hb => ?_⟩
  rw [h1.home b hb]
  split <;> rfl

/-- A transaction on blocks 50 and 60 in a log of 30 blocks at 2. -/
def twoBlocks : St where
  start := 2
  size := 30
  outstanding := 0
  committing := true
  lh := [50, 60]
  disk := fun _ => Bytes.zero
  cache := fun b => if b = 50 ∨ b = 60 then some (fun _ => 7) else none
  pins := fun _ => 0
  writes := []

/-- Crash after the header write and one home write, two cut recoveries. -/
theorem crash_atomic_twoBlocks :
    let d := [1, 0].foldl (cutRecovery 2 30) (crashDisk commit twoBlocks 4)
    let r := recoverFromLog (boot 2 30 d)
    headN (r.disk 2) = 0 ∧ ∀ b, ¬InLog 2 30 b → r.disk b =
      if b = 50 ∨ b = 60 then fun _ => 7 else Bytes.zero := by
  obtain ⟨hreach, hhead, hdisk⟩ := crash_atomic twoBlocks 4 [1, 0] (by rw [headN]; simp [twoBlocks])
    (by simp [twoBlocks, InLog]) (by decide) (by decide)
  refine ⟨hhead, fun b hb => (hdisk b hb).trans ?_⟩
  rw [if_pos (hreach.2 (by decide))]
  by_cases h : b = 50 ∨ b = 60 <;> simp [committed, twoBlocks, St.cached, h]

end Xv6.Log
