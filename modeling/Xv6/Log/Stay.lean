import Xv6.Log.Pin

/-!
# Logged blocks stay in the cache until they are installed

The steps of operations keep `LogInv`, and so does every step.

* `logged_blocks_stay`: the entries of `lh` are distinct; a block that is
  logged and not installed is in exactly one buffer, which is valid and has a
  reference; `write_log` copies what the last operation left; and when the
  log is empty no pin is left.
* `installed_unpinned`: an installed block is still in `lh` while the commit
  goes on, but its buffer may be recycled.
-/
namespace Xv6.LogCache
open Function (update update_self update_of_ne)
open Log (InLog Panic)
open Bio (CacheInv PinInv Reg Clean)

section
variable {m n : Nat} {s s' : Sys m n} {p q : Fin m} {b : Fin n} {c : CommitPc n} {cache : Bio.Sys m n Block}

/-! ## Steps of operations -/

section
variable (h : LogInv s)
include h

/-- Nobody commits while an operation is under way. -/
theorem LogInv.no_commit (hc : s.committing = false) (q : Fin m) (c : CommitPc n) :
    s.op q ≠ .commit c := fun hq => by
  cases hc.symm.trans (h.ops.committing q (by rw [hq]; rfl))

theorem LogInv.not_committing (ho : s.outstanding ≠ 0) : s.committing = false := by
  cases hc : s.committing with
  | false => rfl
  | true => exact absurd (h.ops.quiet hc) ho

theorem LogInv.op_outstanding (hp : s.op p = .op) : s.outstanding ≠ 0 := fun e => by
  have ho := h.ops.outstanding
  have := count_eq_zero.1 (show count OpPc.isOp s.op = 0 by omega) p
  rw [hp] at this
  cases this

theorem LogInv.panic (e : Panic) : LogInv { s with panic := some e } :=
  ⟨h.cache, { h.head with }, h.pin, { h.data with }, { h.ops with }, fun p c hp => { h.commit p c hp with }⟩

/-- A process begins or ends an operation, or begins to commit; there is no committer yet. -/
theorem LogInv.turn (hc : s.committing = false) (o : OpPc n) (v : Int) (w : Bool)
    (hout : v = s.outstanding + o.isOp.toNat - (s.op p).isOp.toNat) (hw : w = o.inCommit)
    (hv : w = true → v = 0) (ho : ∀ c, o = .commit c → c = .check) (hp : s.cache.pc p = .idle) :
    LogInv { s with outstanding := v, committing := w, op := update s.op p o } := by
  have hin : ∀ q, (update s.op p o q).inCommit = true → q = p := fun q hq => by
    by_cases e : q = p
    · exact e
    · rw [update_of_ne e] at hq
      cases hc.symm.trans (h.ops.committing q hq)
  refine ⟨h.cache, { h.head with }, h.pin, ⟨fun b => ?_, h.data.unlogged, h.data.last⟩,
    ⟨?_, fun q hq => ?_, fun q r hq hr => (hin q hq).trans (hin r hr).symm, hv, fun _ => h.ops.idle hc⟩,
    fun q c hq => ?_⟩
  · exact (h.data.dirty b).imp_left fun hc' => hc'.update rfl rfl fun c hc₁ => absurd hc₁ (h.no_commit hc p c)
  · have hcount := count_update OpPc.isOp s.op p o
    have ho := h.ops.outstanding
    show v = count OpPc.isOp (update s.op p o)
    omega
  · have hq' : (update s.op p o q).inCommit = true := hq
    rw [hin q hq', update_self] at hq'
    exact hw.trans hq'
  · have hq' : update s.op p o q = .commit c := hq
    have e := hin q (by rw [hq']; rfl)
    subst e
    rw [update_self] at hq'
    cases ho c hq'
    refine ⟨by simp [Sys.regs], fun i hi => (by cases hi), h.ops.idle hc,
      fun j hj => (by cases hj), fun b k hc => ?_,
      fun hb => (by cases hb), fun b hb => (by cases hb), fun e => (by cases e)⟩
    rcases hc with e | e <;> rw [hp] at e <;> cases e

theorem LogInv.beginOp (hp : s.cache.pc p = .idle) (hop : s.op p = .out)
    (hs : LogCache.beginOp s p = some s') : LogInv s' := by
  unfold LogCache.beginOp at hs
  split at hs
  · cases hs
  · rename_i hc
    have hc : s.committing = false := Bool.eq_false_iff.2 fun e => hc (.inl e)
    cases hs
    have := h.turn hc .op (s.outstanding + 1) false (by simp [hop, OpPc.isOp]) rfl (by simp) (by simp) hp
    rwa [← hc] at this

theorem LogInv.endOp (hp : s.cache.pc p = .idle) (hop : s.op p = .op) : LogInv (LogCache.endOp s p) := by
  have hc := h.not_committing (h.op_outstanding hop)
  unfold LogCache.endOp
  rw [if_neg (by rw [hc]; simp)]
  split
  · rename_i hlast
    exact h.turn hc (.commit .check) (s.outstanding - 1) true (by simp [hop, OpPc.isOp]) rfl (fun _ => hlast)
      (fun c e => by cases e; rfl) hp
  · have := h.turn hc .out (s.outstanding - 1) false (by simp [hop, OpPc.isOp]) rfl (by simp) (by simp) hp
    rwa [← hc] at this

end

theorem pending_of_idle (h : s.installed = 0) : s.pending = s.lh := by simp [Sys.pending, h]

/-- `log_write` of a block that is logged already. -/
theorem LogInv.absorb (h : LogInv s) (hc : s.committing = false) (hb : (s.cache.buf b).blockno ∈ s.lh) :
    LogInv { s with unlogged := update s.unlogged b false } := by
  refine ⟨h.cache, { h.head with }, h.pin, ⟨fun b₁ => ?_, fun b₁ hb₁ => ?_, h.data.last⟩, { h.ops with },
    fun q c hq => absurd hq (h.no_commit hc q c)⟩
  · by_cases e : b₁ = b
    · refine .inr (.inr ?_)
      show (s.cache.buf b₁).blockno ∈ s.pending
      rw [pending_of_idle (h.ops.idle hc), e]
      exact hb
    · refine (h.data.dirty b₁).imp_left ?_
      rintro (hu | ⟨q, c, hq, hd⟩)
      · exact .inl ((update_of_ne e _ _).trans hu)
      · exact absurd hq (h.no_commit hc q c)
  · by_cases e : b₁ = b
    · simp [e] at hb₁
    · exact h.data.unlogged b₁ (by simpa [e] using hb₁)

/-- `log_write` of another block, which is pinned. -/
theorem LogInv.append (h : LogInv s) (hm : m + 3 < 2 ^ 32) (hc : s.committing = false)
    (hl : (s.cache.buf b).lock = some p) (hp : s.cache.pc p = .idle) (hb : (s.cache.buf b).blockno ∉ s.lh)
    (hin : ¬InLog s.start s.size (s.cache.buf b).blockno.toNat) (hroom : s.lh.length + 2 ≤ s.size)
    (hs : Bio.step s.cache (.bpin p b) = some cache) :
    LogInv { s with
      cache := cache, lh := s.lh ++ [(s.cache.buf b).blockno]
      unlogged := update s.unlogged b false } := by
  have hi := h.ops.idle hc
  have hv := h.cache.valid hp hl
  have hpin := h.pin
  rw [pending_of_idle hi] at hpin
  have hcounts : Bio.Counts s.cache (.bpin p b) := h.refcnt_lt hm b
  have hpending : ∀ {k : UInt32}, k ∈ s.lh ++ [(s.cache.buf b).blockno] →
      k ∈ (s.lh ++ [(s.cache.buf b).blockno]).drop s.installed := by
    rw [hi]
    exact id
  refine ⟨Bio.cacheInv_step (l := .bpin p b) h.cache trivial hcounts hs,
    ⟨h.head.start, h.head.size, ?_, .inr ?_, fun k hk => ?_, by rw [hi]; exact Nat.zero_le _⟩, ?_,
    ⟨fun b₁ => ?_, fun b₁ hb₁ => ?_, fun k hk => ?_⟩, { h.ops with },
    fun q c hq => absurd hq (h.no_commit hc q c)⟩
  · exact List.nodup_append.2 ⟨h.head.nodup, List.nodup_singleton _, fun k hk k' hk' e => by
      rw [List.mem_singleton.1 hk'] at e
      exact hb (e ▸ hk)⟩
  · rw [List.length_append]
    exact hroom
  · rcases List.mem_append.1 hk with hk | hk
    · exact h.head.outside k hk
    · rw [List.mem_singleton.1 hk]
      exact hin
  · show PinInv cache ((s.lh ++ [(s.cache.buf b).blockno]).drop s.installed)
    rw [hi, List.drop_zero]
    exact hpin.bpin h.cache hs hv hb
  · by_cases e : b₁ = b
    · refine .inr (.inr (hpending ?_))
      rw [(Bio.name_step h.cache.list hs (h.cache.refcnt_pos (b := b₁) (e ▸ hl))).2.2, e]
      exact List.mem_append_right _ (List.mem_singleton_self _)
    · rcases h.dirty_step (b := b₁) hs (by simp) with (hu | ⟨q, c, hq, hd⟩) | hclean | ⟨hk, ek⟩
      · exact .inl (.inl ((update_of_ne e _ _).trans hu))
      · exact absurd hq (h.no_commit hc q c)
      · exact .inr (.inl hclean)
      · rw [pending_of_idle hi] at hk
        exact .inr (.inr (hpending (ek ▸ List.mem_append_left _ hk)))
  · by_cases e : b₁ = b
    · simp [e] at hb₁
    · exact h.unlogged_step hs (by simp) (by simpa [e] using hb₁)
  · show cache.content k = s.last k
    rw [Bio.content_step h.cache.list hs (by simp)]
    exact h.data.last k hk

theorem LogInv.logWrite (h : LogInv s) (hm : m + 3 < 2 ^ 32) (hl : (s.cache.buf b).lock = some p)
    (hp : s.cache.pc p = .idle) (hin : ¬InLog s.start s.size (s.cache.buf b).blockno.toNat)
    (hs : LogCache.logWrite s p b = some s') : LogInv s' := by
  unfold LogCache.logWrite at hs
  split at hs
  · cases hs; exact h.panic _
  · rename_i hroom
    split at hs
    · cases hs; exact h.panic _
    · rename_i hout
      have hc := h.not_committing (by omega)
      split at hs
      · rename_i hmem
        cases hs
        exact h.absorb hc hmem
      · rename_i hmem
        obtain ⟨cache, hpin, rfl⟩ := Option.map_eq_some_iff.1 hs
        exact h.append hm hc hl hp hmem hin (by omega) hpin

/-- An operation changes a buffer it holds. -/
theorem LogInv.modify (h : LogInv s) (hop : s.op p = .op) (hl : (s.cache.buf b).lock = some p)
    (hp : s.cache.pc p = .idle) (hin : ¬InLog s.start s.size (s.cache.buf b).blockno.toNat) {d : Block}
    (hs : Bio.step s.cache (.modify p b d) = some cache) :
    LogInv { s with
      cache := cache, last := update s.last (s.cache.buf b).blockno d
      unlogged := update s.unlogged b true } := by
  have hc := h.not_committing (h.op_outstanding hop)
  refine ⟨Bio.cacheInv_step (l := .modify p b d) h.cache trivial trivial hs, { h.head with },
    h.pin.step h.cache hs rfl, ⟨fun b₁ => ?_, fun b₁ hb₁ => ?_, fun k hk => ?_⟩, { h.ops with },
    fun q c hq => absurd hq (h.no_commit hc q c)⟩
  · by_cases e : b₁ = b
    · exact .inl (.inl (e ▸ update_self ..))
    · rcases h.dirty_step (b := b₁) hs (by simp [Ne.symm e]) with (hu | ⟨q, c, hq, hd⟩) | hclean | ⟨hk, ek⟩
      · exact .inl (.inl ((update_of_ne e _ _).trans hu))
      · exact absurd hq (h.no_commit hc q c)
      · exact .inr (.inl hclean)
      · exact .inr (.inr (ek ▸ hk))
  · by_cases e : b₁ = b
    · subst e
      exact ⟨p, Bio.lock_step h.cache.list hs hl (by simp), Bio.fill_step h.cache.list hs hl (by simp [hp])⟩
    · exact h.unlogged_step hs (by simp) (by simpa [e] using hb₁)
  · rw [content_modify h.cache hs]
    by_cases e : k = (s.cache.buf b).blockno
    · simp [e]
    · simpa [e] using h.data.last k hk

/-! ## Every step -/

theorem Init.logInv (h : Init s) : LogInv s := by
  have hcache := Bio.cacheInv_inductive.reachable h.cache
  have hin : ∀ p, (s.op p).inCommit ≠ true := by simp [h.op, OpPc.inCommit]
  have hpending : s.pending = [] := by simp [Sys.pending, h.lh]
  refine ⟨hcache,
    ⟨h.start, h.size, by rw [h.lh]; exact List.nodup_nil, .inl h.lh, by simp [h.lh], by simp [h.installed]⟩,
    ⟨fun b => by simp [h.pins, hpending], by simp [hpending]⟩,
    ⟨fun b => .inr (.inl (hcache.clean b (h.lock b) (h.pins b))), fun b hb => ?_, fun k _ => by rw [h.last]⟩,
    ⟨?_, fun p hp => absurd hp (hin p), fun p _ hp => absurd hp (hin p), fun _ => h.outstanding,
      fun _ => h.installed⟩,
    by simp [h.op]⟩
  · rw [h.unlogged] at hb; cases hb
  · rw [h.outstanding, count_eq_zero.2 fun p => by rw [h.op]; rfl]
    rfl

theorem logInv_step {l : Lbl m n} (hm : m + 3 < 2 ^ 32) (h : LogInv s)
    (hlog : Logged s l) (hprop : Proper s l) (hs : step s l = some s') : LogInv s' := by
  unfold step at hs
  split at hs
  · cases l with
    | bread p k =>
      simp only at hs
      split at hs
      · cases hs
      · rename_i hout
        obtain ⟨cache, hc, rfl⟩ := Option.map_eq_some_iff.1 hs
        exact h.call (l := .bread p k) hm hc trivial rfl (by simp) (by simp) (Bool.eq_false_iff.2 hout)
    | go p =>
      obtain ⟨cache, hc, rfl⟩ := Option.map_eq_some_iff.1 hs
      cases hop : s.op p with
      | commit c => rw [← hop]; exact h.commitGo hm hop hc
      | out =>
        have := h.call (l := .go p) hm hc trivial rfl (by simp) (by simp) (by rw [Bio.Lbl.proc, hop]; rfl)
        rwa [show OpPc.back (s.cache.pc p) .out = s.op p from hop.symm, Function.update_eq_self]
      | op =>
        have := h.call (l := .go p) hm hc trivial rfl (by simp) (by simp) (by rw [Bio.Lbl.proc, hop]; rfl)
        rwa [show OpPc.back (s.cache.pc p) .op = s.op p from hop.symm, Function.update_eq_self]
    | modify p b d =>
      simp only at hs
      split at hs
      · rename_i hop
        obtain ⟨cache, hc, rfl⟩ := Option.map_eq_some_iff.1 hs
        have hheld : s.cache.pc p = .idle ∧ (s.cache.buf b).lock = some p := by
          cases (Bio.step_fires h.cache.list hc).2 with
          | modify q b' d' idle held => exact ⟨idle, held⟩
        exact h.modify hop hheld.2 hheld.1 hprop hc
      · cases hs
    | brelse p b =>
      simp only at hs
      split at hs
      · cases hs
      · rename_i hout
        obtain ⟨cache, hc, rfl⟩ := Option.map_eq_some_iff.1 hs
        have hidle : s.cache.pc p = .idle := Bio.idle_step (l := .brelse p b) h.cache.list hc (by simp)
        have hne : ∀ c, s.op p ≠ .commit c := fun c e => by
          rw [e] at hout
          exact hout rfl
        refine h.call (l := .brelse p b) hm hc (fun hl => ?_) rfl (by simp)
          (fun b₁ e hl => ?_) (Bool.eq_false_iff.2 hout)
        · exact h.written hl hidle (h.not_changing hl (hlog hl) fun c hcm => absurd hcm (hne c))
        · cases e
          exact hlog hl
    | beginOp p =>
      simp only at hs
      split at hs
      · rename_i hop
        exact h.beginOp hop.2 hop.1 hs
      · cases hs
    | logWrite p b =>
      simp only at hs
      split at hs
      · rename_i hop
        exact h.logWrite hm hprop.1 hop.2 hprop.2 hs
      · cases hs
    | endOp p =>
      simp only at hs
      split at hs
      · rename_i hop
        cases hs
        exact h.endOp hop.2 hop.1
      · cases hs
    | commit p =>
      simp only at hs
      split at hs
      · rename_i hp
        cases hop : s.op p with
        | commit c => rw [hop] at hs; exact logInv_exec h hm hop hp hs
        | out | op => rw [hop] at hs; cases hs
      · cases hs
  · cases hs

theorem logInv_inductive (hm : m + 3 < 2 ^ 32) :
    ((lts m n).only fun s l => Logged s l ∧ Proper s l).Inductive LogInv :=
  ⟨fun _ h => h.logInv, fun _ _ _ h hs => logInv_step hm h hs.2.1 hs.2.2 hs.1⟩

/-! ## The results -/

/-- The block is in exactly one buffer, which is valid and
has a reference, and which no step of the cache recycles. -/
def Cached (s : Bio.Sys m n Block) (k : UInt32) : Prop :=
  ∃ b, (∀ b', ((s.buf b').dev = ROOTDEV ∧ (s.buf b').blockno = k) ↔ b' = b) ∧ (s.buf b).valid = true ∧
    1 ≤ (s.buf b).refcnt.toNat ∧
    ∀ l s', Bio.step s l = some s' →
      (s'.buf b).dev = ROOTDEV ∧ (s'.buf b).blockno = k ∧ (s'.buf b).valid = true

theorem LogInv.cached (h : LogInv s) {k : UInt32} (hk : k ∈ s.pending) : Cached s.cache k := by
  obtain ⟨b, hv, e⟩ := h.pin.cached k hk
  have hd := h.cache.root b hv
  have hpin := h.pin.pinned hd (e ▸ hk)
  have href := h.cache.refcnt_of_pin (b := b) (by omega)
  have hrefs := h.cache.refs b
  refine ⟨b, fun b' => ⟨fun hb' => ?_, fun eb => eb ▸ ⟨hd, e⟩⟩, hv, by omega, fun l s' hs => ?_⟩
  · exact h.cache.list.unique b' b hb'.1 hd (hb'.2.trans e.symm)
  · obtain ⟨hv', hd', hk'⟩ := Bio.name_step h.cache.list hs href
    exact ⟨hd'.trans hd, hk'.trans e, hv' hv⟩

/-- When the log is empty, there are no pins. -/
theorem LogInv.unpinned (h : LogInv s) (hlh : s.lh = []) (b : Fin n) :
    (s.cache.buf b).refcnt.toNat = Bio.holders s.cache b := by
  have hpending : s.pending = [] := by simp [Sys.pending, hlh]
  have hpins := h.pin.pins b
  rw [hpending, if_neg (by simp)] at hpins
  rw [h.cache.refs b, hpins, Nat.zero_add]

/-- In every run in which a modified buffer is given to `log_write` by its holder before `brelse`, and in
which operations leave the blocks of the log alone: the entries of `lh` are distinct, those that are not
installed stay in the cache, and none is installed outside of a commit; `write_log` copies to the block of the
log what the last operation left in the home block; at the end of a commit the log is empty, and then `refcnt`
counts the holders. -/
theorem logged_blocks_stay (m n : Nat) (hm : m ≤ NPROC) (s : Sys m n)
    (hs : ((lts m n).only fun s l => Logged s l ∧ Proper s l).Reachable s) :
    s.lh.Nodup ∧ (∀ k ∈ s.lh.drop s.installed, Cached s.cache k) ∧ (s.committing = false → s.installed = 0) ∧
    (∀ p tail lb hb, s.op p = .commit (.copy .writeLog tail lb hb) →
      (s.cache.buf lb).blockno = s.logBlock tail ∧ s.lh[tail]? = some (s.cache.buf hb).blockno ∧
        (s.cache.buf hb).data = s.last (s.cache.buf hb).blockno) ∧
    (∀ p, s.op p = .commit .finish → s.lh = []) ∧
    (s.lh = [] → ∀ b, (s.cache.buf b).refcnt.toNat = Bio.holders s.cache b) := by
  have hm : m + 3 < 2 ^ 32 := by
    unfold NPROC at hm
    omega
  have h := (logInv_inductive hm).reachable hs
  refine ⟨h.head.nodup, fun k hk => h.cached hk, h.ops.idle, fun p tail lb hb hop => ?_,
    fun p hop => ?_, h.unpinned⟩
  · have hok := h.commit p _ hop
    have hi : tail < s.lh.length := hok.index tail rfl
    have hhome := (hok.regs (hb, s.lh.getD tail 0) (by simp [Sys.regs])).1.blockno
    have hdata := hok.data h (x := (hb, s.lh.getD tail 0)) (by simp [Sys.regs])
    refine ⟨(hok.regs (lb, s.logBlock tail) (by simp [Sys.regs])).1.blockno, ?_, ?_⟩
    · rw [hhome, List.getD_eq_getElem _ _ hi, List.getElem?_eq_getElem hi]
    · rw [hdata, hhome]
      exact h.data.last _ (h.head.entry hi).2.1
  · exact (h.commit p _ hop).cleared rfl

/-- A machine that has just booted, with an empty disk. -/
def boot (m n start size : Nat) : Sys m n where
  cache :=
    { buf := fun _ => ⟨false, 0, 0, 0, none, .zero⟩
      links := Bio.binit ⟨fun _ => none, fun _ => none⟩
      disk := fun _ => .zero
      pc := fun _ => .idle
      panic := none
      pins := fun _ => 0
      content := fun _ => .zero
      time := 0
      freed := fun _ => 0 }
  start := start
  size := size
  outstanding := 0
  committing := false
  lh := []
  op _ := .out
  panic := none
  last _ := .zero
  unlogged _ := false
  installed := 0

theorem boot_init (m n start size : Nat) (h1 : start < 2 ^ 31) (h2 : size < 2 ^ 31) :
    Init (boot m n start size) := by
  refine ⟨⟨_, [], ?_, .nil _⟩, fun _ => rfl, fun _ => rfl, fun _ => rfl, h1, h2, rfl, rfl,
    rfl, fun _ => rfl, rfl, fun _ => rfl, rfl⟩
  exact ⟨⟨_, rfl⟩, fun _ => rfl, fun _ => rfl, fun _ => rfl, fun _ => rfl, fun _ => rfl,
    rfl, fun _ => rfl, rfl, fun _ => rfl⟩

instance (s : Sys m n) : (l : Lbl m n) → Decidable (Logged s l)
  | .brelse p b => inferInstanceAs (Decidable ((s.cache.buf b).lock = some p → s.unlogged b = false))
  | .bread .. | .go _ | .modify .. | .beginOp _ | .logWrite .. | .endOp _ | .commit _ => isTrue trivial

instance (s : Sys m n) : (l : Lbl m n) → Decidable (Proper s l)
  | .modify _ b _ => inferInstanceAs (Decidable (¬InLog s.start s.size (s.cache.buf b).blockno.toNat))
  | .logWrite p b => inferInstanceAs (Decidable ((s.cache.buf b).lock = some p ∧
      ¬InLog s.start s.size (s.cache.buf b).blockno.toNat))
  | .bread .. | .go _ | .brelse .. | .beginOp _ | .endOp _ | .commit _ => isTrue trivial

/-- Steps that meet the conditions. -/
def stepIf (s : Sys m n) (l : Lbl m n) : Option (Sys m n) :=
  if Logged s l ∧ Proper s l then step s l else none

theorem reachable_of_foldlM {ls : List (Lbl m n)} {s₀ s : Sys m n} (h₀ : Init s₀)
    (h : ls.foldlM stepIf s₀ = some s) : ((lts m n).only fun s l => Logged s l ∧ Proper s l).Reachable s := by
  refine ⟨s₀, ls, h₀, LTS.Run.of_foldlM (fun s l s' h => ?_) h⟩
  unfold stepIf at h
  split at h
  · exact ⟨h, ‹_›⟩
  · cases h

/-- An operation changes the block `k`, in buffer `b`. -/
def change (p : Fin m) (b : Fin n) (k : UInt32) : List (Lbl m n) :=
  [.bread p k, .go p, .go p, .modify p b .zero, .logWrite p b, .brelse p b, .go p]

/-- Calls of `bread` and `brelse` in `commit`. -/
def getBuf (p : Fin m) : List (Lbl m n) := [.commit p, .go p, .go p]

def putBuf (p : Fin m) : List (Lbl m n) := [.commit p, .go p]

/-- Block 5 is changed, and `commit` is about to copy it to the log. -/
def oneBlock : List (Lbl 2 3) := [.beginOp 0] ++ change 0 0 5 ++ [.endOp 0, .commit 0] ++ getBuf 0 ++ getBuf 0

theorem logged_blocks_stay_oneBlock : ∃ s : Sys 2 3,
    ((lts 2 3).only fun s l => Logged s l ∧ Proper s l).Reachable s ∧
    s.op 0 = .commit (.copy .writeLog 0 1 0) ∧
      s.lh = [5] ∧ s.installed = 0 ∧ Cached s.cache 5 ∧ (s.cache.buf 0).data = s.last 5 := by
  have hrun : (oneBlock.foldlM stepIf (boot 2 3 2 2)).map
      (fun s : Sys 2 3 => (s.op 0, s.lh, s.installed, (s.cache.buf 0).blockno)) =
        some (.commit (.copy .writeLog 0 1 0), [5], 0, 5) := by decide +kernel
  obtain ⟨s, hs, e⟩ := Option.map_eq_some_iff.1 hrun
  simp only [Prod.mk.injEq] at e
  obtain ⟨hop, hlh, hi, hk⟩ := e
  have hr := reachable_of_foldlM (boot_init 2 3 2 2 (by decide) (by decide)) hs
  obtain ⟨_, hstay, _, hcopy, _⟩ := logged_blocks_stay 2 3 (by decide) s hr
  rw [hlh, hi] at hstay
  have hdata := (hcopy 0 0 1 0 hop).2.2
  rw [hk] at hdata
  exact ⟨s, hr, hop, hlh, hi, hstay 5 (by simp), hdata⟩

/-- The commit goes on until block 5 is installed; another process then reads other blocks. There are 3
buffers, where the kernel has `NBUF` = 30: with more of them it takes more reads. -/
def oneInstalled : List (Lbl 2 3) :=
  oneBlock ++ [.commit 0, .commit 0] ++ putBuf 0 ++ putBuf 0 ++ [.commit 0] ++
    (getBuf 0 ++ [.commit 0, .commit 0] ++ putBuf 0) ++
    (getBuf 0 ++ getBuf 0 ++ [.commit 0, .commit 0, .commit 0] ++ putBuf 0 ++ putBuf 0) ++
    [.bread 1 20, .go 1, .go 1, .bread 1 21, .go 1, .go 1, .bread 1 22]

/-- Block 5 is still in `lh`, but in no buffer. -/
theorem installed_unpinned : ∃ s : Sys 2 3,
    ((lts 2 3).only fun s l => Logged s l ∧ Proper s l).Reachable s ∧ s.lh = [5] ∧
      ∀ b, (s.cache.buf b).blockno ≠ 5 := by
  have hrun : (oneInstalled.foldlM stepIf (boot 2 3 2 2)).map
      (fun s => (s.lh, decide (∀ b, (s.cache.buf b).blockno ≠ 5))) = some ([5], true) := by decide +kernel
  obtain ⟨s, hs, e⟩ := Option.map_eq_some_iff.1 hrun
  simp only [Prod.mk.injEq, decide_eq_true_eq] at e
  exact ⟨s, reachable_of_foldlM (boot_init 2 3 2 2 (by decide) (by decide)) hs, e.1, e.2⟩

end
end Xv6.LogCache
