import Xv6.Bio.Coherence

/-!
# Buffers that stay

What a step of the cache leaves alone: a buffer that is locked (`Reg`), and the
buffers of a set of pinned blocks (`PinInv`). The log keeps one pin for each
block that it has to install.
-/
namespace Xv6.Bio
open Function (update update_self update_of_ne)

section
variable {m n : Nat} {D : Type}

/-- The process of a step. -/
def Lbl.proc : Lbl m n D → Fin m
  | .bread p _ | .go p | .modify p _ _ | .bwrite p _ | .brelse p _ | .bpin p _ | .bunpin p _ => p

variable {s s' : Sys m n D} {l : Lbl m n D} {p : Fin m} {b : Fin n} {k : UInt32}

/-- What a step does to the places of the processes. -/
inductive PcStep (s s' : Sys m n D) : Lbl m n D → Prop where
  | same (l : Lbl m n D) (eq : s'.pc = s.pc) : PcStep s s' l
  | bread (p : Fin m) (b : Fin n) (k : UInt32) (idle : s.pc p = .idle)
    (eq : s'.pc = update s.pc p (.lock b k)) :
      PcStep s s' (.bread p k)
  | lock (p : Fin m) (b : Fin n) (k : UInt32) (pc : s.pc p = .lock b k) (free : (s.buf b).lock = none)
      (eq : s'.pc = update s.pc p (.fill b k)) : PcStep s s' (.go p)
  | fill (p : Fin m) (b : Fin n) (k : UInt32) (pc : s.pc p = .fill b k) (eq : s'.pc = update s.pc p .idle) :
      PcStep s s' (.go p)
  | drop (p : Fin m) (b : Fin n) (pc : s.pc p = .drop b) (eq : s'.pc = update s.pc p .idle) :
    PcStep s s' (.go p)
  | brelse (p : Fin m) (b : Fin n) (idle : s.pc p = .idle) (eq : s'.pc = update s.pc p (.drop b)) :
      PcStep s s' (.brelse p b)

section
variable (h : ListInv s) (hs : step s l = some s')
include h hs

theorem pcStep : PcStep s s' l := by
  cases (step_fires h hs).2 with
  | bread q k s' idle get =>
    cases get with
    | hit b' _ _ eq | recycle b' _ _ eq => subst eq; exact .bread q b' k idle rfl
    | full all eq => subst eq; exact .same _ rfl
  | lock q b' k pc free => exact .lock q b' k pc free rfl
  | fill q b' k pc => exact .fill q b' k pc rfl
  | drop q b' pc => exact .drop q b' pc (drop_fields s q b').2.1
  | modify q b' d idle held => exact .same _ rfl
  | bwrite q b' idle => unfold bwrite; split <;> exact .same _ rfl
  | brelse q b' idle =>
    unfold brelse
    split
    · exact .brelse q b' idle rfl
    · exact .same _ rfl
  | bpin | bunpin => exact .same _ rfl

/-- Only the process of a step moves. -/
theorem pc_step (hp : l.proc ≠ p) : s'.pc p = s.pc p := by
  have hne : ∀ {c : Pc n}, s'.pc = update s.pc l.proc c → s'.pc p = s.pc p := fun e => by
    rw [e, update_of_ne (Ne.symm hp)]
  cases pcStep h hs with
  | same l eq => rw [eq]
  | bread _ _ _ _ eq | lock _ _ _ _ _ eq | fill _ _ _ _ eq | drop _ _ _ eq | brelse _ _ _ eq => exact hne eq

/-- `p` is in a call of `bread` for the block `k`, which is in `b`. -/
def Calling (s : Sys m n D) (p : Fin m) (b : Fin n) (k : UInt32) : Prop :=
  s.pc p = .lock b k ∨ s.pc p = .fill b k

/-- A call that is under way was so before, or has just begun. -/
theorem calls_step (hc : Calling s' p b k) :
    Calling s p b k ∨ l = .bread p k := by
  unfold Calling at hc ⊢
  by_cases hp : l.proc = p
  · subst hp
    have hat : ∀ {c : Pc n}, s'.pc = update s.pc l.proc c → c = .lock b k ∨ c = .fill b k := by
      intro c e
      rwa [e, update_self] at hc
    cases pcStep h hs with
    | same l eq => rw [eq] at hc; exact .inl hc
    | bread q b' k' idle eq =>
      rcases hat eq with e | e <;> cases e
      exact .inr rfl
    | lock q b' k' pc free eq =>
      rcases hat eq with e | e <;> cases e
      exact .inl (.inl pc)
    | fill _ _ _ _ eq | drop _ _ _ eq | brelse _ _ _ eq =>
      exact (hat eq).elim (fun e => by cases e) fun e => by cases e
  · rw [pc_step h hs hp] at hc
    exact .inl hc

/-- No process comes to fill a buffer that it has locked already. -/
theorem fill_step (hl : (s.buf b).lock = some p)
    (hp : ∀ k, s.pc p ≠ .fill b k) (k : UInt32) : s'.pc p ≠ .fill b k := by
  have hne : ∀ {q : Fin m} {c : Pc n}, s'.pc = update s.pc q c → c ≠ .fill b k → s'.pc p ≠ .fill b k := by
    intro q c e hc
    rw [e]
    by_cases hq : p = q
    · rw [hq, update_self]; exact hc
    · rw [update_of_ne hq]; exact hp k
  cases pcStep h hs with
  | same l eq => rw [eq]; exact hp k
  | bread _ _ _ _ eq | fill _ _ _ _ eq | drop _ _ _ eq | brelse _ _ _ eq => exact hne eq (by simp)
  | lock q b' k' pc free eq =>
    refine hne eq ?_
    intro e
    cases e
    rw [hl] at free
    cases free

/-- A process that calls is idle. -/
theorem idle_step (hl : ∀ q, l ≠ .go q) : s.pc l.proc = .idle := by
  cases (step_fires h hs).2 with
  | lock q | fill q | drop q => exact absurd rfl (hl q)
  | bread _ _ _ idle | modify _ _ _ idle | bwrite _ _ idle | brelse _ _ idle | bpin _ _ idle
  | bunpin _ _ idle => exact idle

/-- What a step does to the buffers: it writes one, under the same name, or recycles one. -/
inductive BufStep (s s' : Sys m n D) : Prop where
  | same (eq : s'.buf = s.buf)
  | write (b : Fin n) (x : Buf m D) (eq : s'.buf = update s.buf b x)
      (name : ((s.buf b).valid = true → x.valid = true) ∧ x.dev = (s.buf b).dev ∧
        x.blockno = (s.buf b).blockno)
  | recycle (b : Fin n) (x : Buf m D) (eq : s'.buf = update s.buf b x) (unused : (s.buf b).refcnt = 0)
      (dev : x.dev = ROOTDEV) (miss : ∀ b', (s.buf b').dev = ROOTDEV → (s.buf b').blockno ≠ x.blockno)

theorem bufStep : BufStep s s' := by
  cases (step_fires h hs).2 with
  | bread q k s' idle get =>
    cases get with
    | hit b' dev blockno eq => subst eq; exact .write b' _ rfl (by exact ⟨id, rfl, rfl⟩)
    | recycle b' miss oldest eq => subst eq; exact .recycle b' _ rfl oldest.unused rfl miss
    | full all eq => subst eq; exact .same rfl
  | lock _ b' | modify _ b' | bpin _ b' | bunpin _ b' => exact .write b' _ rfl (by exact ⟨id, rfl, rfl⟩)
  | fill q b' k pc =>
    by_cases hv : (s.buf b').valid = true
    · exact .same (if_pos hv)
    · exact .write b' _ (if_neg hv) (by exact ⟨fun _ => rfl, rfl, rfl⟩)
  | drop q b' pc => exact .write b' _ (drop_fields s q b').1 (by exact ⟨id, rfl, rfl⟩)
  | bwrite q b' idle => unfold bwrite; split <;> exact .same rfl
  | brelse q b' idle =>
    unfold brelse
    split
    · exact .write b' _ rfl (by exact ⟨id, rfl, rfl⟩)
    · exact .same rfl

end

/-- A buffer keeps its name, or it had no references and gets the name of a block that is not cached. -/
theorem BufStep.name (h : BufStep s s') (b : Fin n) :
    (((s.buf b).valid = true → (s'.buf b).valid = true) ∧ (s'.buf b).dev = (s.buf b).dev ∧
      (s'.buf b).blockno = (s.buf b).blockno) ∨
    ((s.buf b).refcnt = 0 ∧ (s'.buf b).dev = ROOTDEV ∧
      ∀ b', (s.buf b').dev = ROOTDEV → (s.buf b').blockno ≠ (s'.buf b).blockno) := by
  cases h with
  | same eq => rw [eq]; exact .inl ⟨id, rfl, rfl⟩
  | write b' x eq name =>
    rw [eq]
    by_cases e : b = b'
    · subst e; rw [update_self]; exact .inl name
    · rw [update_of_ne e]; exact .inl ⟨id, rfl, rfl⟩
  | recycle b' x eq unused dev miss =>
    rw [eq]
    by_cases e : b = b'
    · subst e; rw [update_self]; exact .inr ⟨unused, dev, miss⟩
    · rw [update_of_ne e]; exact .inl ⟨id, rfl, rfl⟩

/-- A buffer with references stays that of its block. -/
theorem name_step (h : ListInv s) (hs : step s l = some s') (hb : (s.buf b).refcnt ≠ 0) :
    ((s.buf b).valid = true → (s'.buf b).valid = true) ∧ (s'.buf b).dev = (s.buf b).dev ∧
      (s'.buf b).blockno = (s.buf b).blockno :=
  ((bufStep h hs).name b).resolve_right fun hr => hb hr.1

/-- `p` has locked `b`, which has the block `k`. -/
structure Reg (s : Sys m n D) (p : Fin m) (b : Fin n) (k : UInt32) : Prop where
  lock : (s.buf b).lock = some p
  valid : (s.buf b).valid = true
  blockno : (s.buf b).blockno = k

theorem CacheInv.refcnt_pos (h : CacheInv s) (hl : (s.buf b).lock = some p) :
    (s.buf b).refcnt ≠ 0 := fun e => by
  have := (h.unused e).2.1
  rw [hl] at this
  cases this

/-- Only its holder unlocks a buffer. -/
theorem lock_step (h : ListInv s) (hs : step s l = some s') (hl : (s.buf b).lock = some p)
    (hne : l ≠ .brelse p b) : (s'.buf b).lock = some p := by
  have hkeep : ∀ {b' : Fin n} {x : Buf m D}, (b = b' → x.lock = some p) →
      (update s.buf b' x b).lock = some p := by
    intro b' x hx
    by_cases e : b = b'
    · rw [e, update_self]; exact hx e
    · rw [update_of_ne e, hl]
  have hsame : ∀ {b' : Fin n}, b = b' → (s.buf b').lock = some p := fun e => e ▸ hl
  cases (step_fires h hs).2 with
  | bread q k s' idle get =>
    cases get with
    | hit _ _ _ eq | recycle _ _ _ eq => subst eq; exact hkeep hsame
    | full all eq => subst eq; exact hl
  | lock q b' k pc free =>
    refine hkeep fun e => ?_
    rw [hsame e] at free
    cases free
  | fill q b' k pc =>
    unfold fill
    simp only
    split
    · exact hl
    · exact hkeep hsame
  | drop q b' pc => rw [(drop_fields s q b').1]; exact hkeep hsame
  | modify q b' d idle held => exact hkeep hsame
  | bwrite q b' idle => unfold bwrite; split <;> exact hl
  | brelse q b' idle =>
    unfold brelse
    split
    · rename_i hq
      refine hkeep fun e => ?_
      rw [hsame e] at hq
      cases hq
      exact absurd (e ▸ rfl) hne
    · exact hl
  | bpin | bunpin => exact hkeep hsame

theorem Reg.step (h : CacheInv s) (hr : Reg s p b k) (hs : Bio.step s l = some s') (hne : l ≠ .brelse p b) :
    Reg s' p b k := by
  obtain ⟨hv, _, hk⟩ := name_step h.list hs (h.refcnt_pos hr.lock)
  exact ⟨lock_step h.list hs hr.lock hne, hv hr.valid, hk.trans hr.blockno⟩

/-! ## Pinned blocks -/

/-- The blocks in `ks` are cached, and their buffers have one pin each; the others have none. -/
structure PinInv (s : Sys m n D) (ks : List UInt32) : Prop where
  pins : ∀ b, s.pins b = if (s.buf b).dev = ROOTDEV ∧ (s.buf b).blockno ∈ ks then 1 else 0
  cached : ∀ k ∈ ks, ∃ b, (s.buf b).valid = true ∧ (s.buf b).blockno = k

variable {ks : List UInt32}

theorem PinInv.pinned (hp : PinInv s ks) (hd : (s.buf b).dev = ROOTDEV) (hk : (s.buf b).blockno ∈ ks) :
    s.pins b = 1 := by rw [hp.pins, if_pos ⟨hd, hk⟩]

theorem CacheInv.refcnt_of_pin (h : CacheInv s) (hb : 0 < s.pins b) : (s.buf b).refcnt ≠ 0 := fun e => by
  have := (h.unused e).1
  omega

/-- Steps that pin and unpin nothing. -/
def Lbl.pinless : Lbl m n D → Bool
  | .bpin .. | .bunpin .. => false
  | _ => true

theorem pins_step (h : ListInv s) (hs : step s l = some s') (hl : l.pinless = true) : s'.pins = s.pins := by
  cases (step_fires h hs).2 with
  | bread q k s' idle get => cases get <;> subst s' <;> rfl
  | lock | fill => rfl
  | drop q b' pc => exact (drop_fields s q b').2.2.2.2
  | modify q b' d idle held => rfl
  | bwrite q b' idle => unfold bwrite; split <;> rfl
  | brelse q b' idle => unfold brelse; split <;> rfl
  | bpin | bunpin => cases hl

/-- The block of a pinned buffer stays cached. -/
theorem PinInv.cached_step (h : CacheInv s) (hp : PinInv s ks) (hs : Bio.step s l = some s') {k : UInt32}
    (hk : k ∈ ks) : ∃ b, (s'.buf b).valid = true ∧ (s'.buf b).blockno = k := by
  obtain ⟨b, hv, e⟩ := hp.cached k hk
  have hpin := hp.pinned (h.root b hv) (e ▸ hk)
  obtain ⟨hv', _, hk'⟩ := name_step h.list hs (h.refcnt_of_pin (b := b) (by omega))
  exact ⟨b, hv' hv, hk'.trans e⟩

theorem PinInv.step (h : CacheInv s) (hp : PinInv s ks) (hs : Bio.step s l = some s')
    (hl : l.pinless = true) : PinInv s' ks := by
  refine ⟨fun b => ?_, fun k hk => hp.cached_step h hs hk⟩
  rw [pins_step h.list hs hl]
  rcases (bufStep h.list hs).name b with ⟨_, hd, hk⟩ | ⟨hb, hd, hmiss⟩
  · rw [hd, hk]; exact hp.pins b
  · -- a recycled buffer is one of a block that is not pinned
    rw [(h.unused hb).1, if_neg]
    rintro ⟨_, hk⟩
    obtain ⟨b', hv, e⟩ := hp.cached _ hk
    exact hmiss b' (h.root b' hv) e

theorem update_refcnt (r : UInt32) (b' : Fin n) :
    (update s.buf b { s.buf b with refcnt := r } b').valid = (s.buf b').valid ∧
      (update s.buf b { s.buf b with refcnt := r } b').dev = (s.buf b').dev ∧
      (update s.buf b { s.buf b with refcnt := r } b').blockno = (s.buf b').blockno := by
  by_cases e : b' = b
  · subst e; rw [update_self]; exact ⟨rfl, rfl, rfl⟩
  · rw [update_of_ne e]; exact ⟨rfl, rfl, rfl⟩

/-- The pins of one buffer change, with the blocks that are to be pinned. -/
theorem PinInv.repin {ks' : List UInt32} {v : Nat} (h : CacheInv s) (hp : PinInv s ks)
    (hname : ∀ b', (s'.buf b').valid = (s.buf b').valid ∧ (s'.buf b').dev = (s.buf b').dev ∧
      (s'.buf b').blockno = (s.buf b').blockno)
    (hpins : s'.pins = update s.pins b v) (hv : (s.buf b).valid = true)
    (hself : v = if (s.buf b).blockno ∈ ks' then 1 else 0)
    (hks : ∀ k, k ≠ (s.buf b).blockno → (k ∈ ks' ↔ k ∈ ks)) : PinInv s' ks' := by
  have hd := h.root b hv
  refine ⟨fun b' => ?_, fun k hk => ?_⟩
  · rw [hpins, (hname b').2.1, (hname b').2.2]
    by_cases e : b' = b
    · subst e
      rw [update_self, hself]
      simp [hd]
    · rw [update_of_ne e, hp.pins]
      by_cases hd' : (s.buf b').dev = ROOTDEV
      · -- another buffer has another block
        simp [hd', hks _ fun ek => e (h.list.unique b' b hd' hd ek)]
      · simp [hd']
  · by_cases e : k = (s.buf b).blockno
    · exact ⟨b, by rw [(hname b).1]; exact hv, by rw [(hname b).2.2, e]⟩
    · obtain ⟨b', hv', e'⟩ := hp.cached k ((hks k e).1 hk)
      exact ⟨b', by rw [(hname b').1]; exact hv', by rw [(hname b').2.2, e']⟩

/-- `bpin` of the buffer of a block that is not pinned. -/
theorem PinInv.bpin (h : CacheInv s) (hp : PinInv s ks) (hs : Bio.step s (.bpin p b) = some s')
    (hv : (s.buf b).valid = true) (hk : (s.buf b).blockno ∉ ks) : PinInv s' (ks ++ [(s.buf b).blockno]) := by
  cases (step_fires h.list hs).2 with
  | bpin p b idle =>
    refine hp.repin h (update_refcnt _) rfl hv ?_ fun k e => ?_
    · rw [hp.pins, if_neg fun hd => hk hd.2, if_pos (by simp)]
    · simp [e]

/-- `bunpin` of the buffer of the first pinned block. -/
theorem PinInv.bunpin (h : CacheInv s) (hp : PinInv s (k :: ks)) (hs : Bio.step s (.bunpin p b) = some s')
    (hv : (s.buf b).valid = true) (e : (s.buf b).blockno = k) (hk : k ∉ ks) : PinInv s' ks := by
  cases (step_fires h.list hs).2 with
  | bunpin p b idle =>
    refine hp.repin h (update_refcnt _) rfl hv ?_ fun k' e' => ?_
    · rw [hp.pinned (h.root b hv) (by rw [e]; exact List.mem_cons_self), e, if_neg hk]
    · rw [e] at e'
      simp [e']

/-! ## Contents -/

/-- Only a holder changes the contents of a block, -/
theorem content_step (h : ListInv s) (hs : step s l = some s') (hl : ∀ p b d, l ≠ .modify p b d) :
    s'.content = s.content := by
  cases (step_fires h hs).2 with
  | bread q k s' idle get => cases get <;> subst s' <;> rfl
  | lock | fill => rfl
  | drop q b' pc => exact (drop_fields s q b').2.2.2.1
  | modify q b' d idle held => exact absurd rfl (hl q b' d)
  | bwrite q b' idle => unfold bwrite; split <;> rfl
  | brelse q b' idle => unfold brelse; split <;> rfl
  | bpin | bunpin => rfl

/-- and only by that does a buffer get something that the disk has not. -/
theorem Clean.step (h : CacheInv s) (hc : Clean s b) (hs : Bio.step s l = some s')
    (hl : ∀ p d, l ≠ .modify p b d) : Clean s' b := by
  have hupd : ∀ {b' : Fin n} {x : Buf m D}, s'.disk = s.disk → s'.buf = update s.buf b' x →
      (b = b' → x.valid = true → x.data = s.disk x.blockno) → Clean s' b := by
    intro b' x hdisk hbuf hx
    unfold Clean
    rw [hbuf, hdisk]
    by_cases e : b = b'
    · subst e; rw [update_self]; exact hx rfl
    · rw [update_of_ne e]; exact hc
  have hsame : ∀ {b' : Fin n}, b = b' → (s.buf b').valid = true →
      (s.buf b').data = s.disk (s.buf b').blockno :=
    fun e => e ▸ hc
  cases (step_fires h.list hs).2 with
  | bread q k s' idle get =>
    cases get with
    | hit b' dev blockno eq => subst eq; exact hupd rfl rfl hsame
    | recycle b' miss oldest eq => subst eq; exact hupd rfl rfl fun _ hv => by cases hv
    | full all eq => subst eq; exact hc
  | lock | bpin | bunpin => exact hupd rfl rfl hsame
  | fill q b' k pc =>
    by_cases hv : (s.buf b').valid = true
    · unfold Clean
      rw [show (fill s q b').buf = s.buf from if_pos hv]
      exact hc
    · exact hupd rfl (if_neg hv) fun _ _ => rfl
  | drop q b' pc =>
    obtain ⟨hbuf, _, hdisk, _⟩ := drop_fields s q b'
    exact hupd hdisk hbuf hsame
  | modify q b' d idle held =>
    have e : b ≠ b' := by
      rintro rfl
      exact hl q d rfl
    exact hupd rfl rfl fun e' => absurd e' e
  | bwrite q b' idle =>
    unfold bwrite
    split
    · rename_i hq
      intro hv
      show (s.buf b).data = update s.disk (s.buf b').blockno (s.buf b').data (s.buf b).blockno
      by_cases ek : (s.buf b).blockno = (s.buf b').blockno
      · rw [ek, update_self, h.only (h.root b' (h.valid idle hq)) hv ek]
      · rw [update_of_ne ek]
        exact hc hv
    · exact hc
  | brelse q b' idle =>
    by_cases hq : (s.buf b').lock = some q
    · have e : brelse s q b' = { s with
          buf := update s.buf b' { s.buf b' with lock := none }, pc := update s.pc q (.drop b') } := if_pos hq
      have hbuf : (brelse s q b').buf = update s.buf b' { s.buf b' with lock := none } := by rw [e]
      exact hupd (by rw [e]) hbuf hsame
    · unfold brelse
      rw [if_neg hq]
      exact hc

end
end Xv6.Bio
