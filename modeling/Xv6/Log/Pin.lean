import Xv6.Log.Cache
import Xv6.Bio.Pin

/-!
# The log's hold on the cache

`LogInv` relates the log to the cache: each block of `lh` that is not yet
installed has one pin (`Bio.PinInv`), a buffer with data that the disk has not
is one of those or is held by whoever is changing it, and `commit` holds the
buffers it works on (`CommitOk`). Here the steps of the cache and those of
`commit` are shown to keep it; `Log.Stay` has the rest.
-/
namespace Xv6.LogCache
open Function (update update_self update_of_ne)
open Log (InLog Panic)
open Bio (CacheInv PinInv Reg Clean)

section
variable {m n : Nat}

/-- The buffer that `commit` has copied to and not yet written. -/
def CommitPc.dirty : CommitPc n → Option (Fin n)
  | .write .writeLog _ lb _ => some lb
  | .write .install _ _ hb => some hb
  | .headWrite _ b => some b
  | _ => none

/-- The entry of `lh` that a loop is at. -/
def CommitPc.index : CommitPc n → Option Nat
  | .home _ tail _ | .copy _ tail _ _ | .write _ tail _ _ | .unpin tail _ _ | .rel1 _ tail _ _
  | .rel2 _ tail _ => some tail
  | _ => none

/-- How many of the `len` entries are installed. -/
def CommitPc.installed (len : Nat) : CommitPc n → Nat
  | .log .install tail | .home .install tail _ | .copy .install tail _ _ | .write .install tail _ _ => tail
  | .unpin tail _ _ => tail
  | .rel1 .install tail _ _ | .rel2 .install tail _ => tail + 1
  | .clear => len
  | _ => 0

/-- How many of the `len` entries are in the log. -/
def CommitPc.wrote (len : Nat) : CommitPc n → Nat
  | .log .writeLog tail | .home .writeLog tail _ | .copy .writeLog tail _ _ => tail
  | .write .writeLog tail _ _ | .rel1 .writeLog tail _ _ | .rel2 .writeLog tail _ => tail + 1
  | .head false | .headPut false _ | .headWrite false _ | .headRel false _ => len
  | .log .install _ | .home .install _ _ | .copy .install _ _ _ | .write .install _ _ _ => len
  | .unpin _ _ _ | .rel1 .install _ _ _ | .rel2 .install _ _ => len
  | _ => 0

/-- The buffer that `install_trans` has written and is about to unpin. -/
def CommitPc.clean : CommitPc n → Option (Fin n)
  | .unpin _ _ hb => some hb
  | _ => none

/-- `lh` is empty from the second `write_head` on. -/
def CommitPc.cleared : CommitPc n → Bool
  | .head true | .headPut true _ | .headWrite true _ | .headRel true _ | .finish => true
  | _ => false

def CommitPc.busy : CommitPc n → Bool
  | .check | .finish => false
  | _ => true

/-- The buffers that `commit` holds, with their blocks. -/
def Sys.regs (s : Sys m n) : CommitPc n → List (Fin n × UInt32)
  | .home _ tail lb => [(lb, s.logBlock tail)]
  | .copy _ tail lb hb | .write _ tail lb hb | .unpin tail lb hb | .rel1 _ tail lb hb =>
    [(lb, s.logBlock tail), (hb, s.lh.getD tail 0)]
  | .rel2 .writeLog tail b => [(b, s.logBlock tail)]
  | .rel2 .install tail b => [(b, s.lh.getD tail 0)]
  | .headPut _ b | .headWrite _ b | .headRel _ b => [(b, UInt32.ofNat s.start)]
  | _ => []

/-- The block that `commit` is reading. -/
def Sys.wants (s : Sys m n) : CommitPc n → Option UInt32
  | .log _ tail => if tail < s.lh.length then some (s.logBlock tail) else none
  | .home _ tail _ => some (s.lh.getD tail 0)
  | .head _ => some (UInt32.ofNat s.start)
  | _ => none

/-- The blocks that are logged and not installed. -/
def Sys.pending (s : Sys m n) : List UInt32 := s.lh.drop s.installed

/-- Whoever has this buffer is changing it. -/
def Sys.changing (s : Sys m n) (b : Fin n) : Prop :=
  s.unlogged b = true ∨ ∃ p c, s.op p = .commit c ∧ c.dirty = some b

/-- The cache goes on, and `commit` by process `p` is at `c`. -/
abbrev Sys.goes (s : Sys m n) (cache : Bio.Sys m n Block) (p : Fin m) (c : CommitPc n) : Sys m n :=
  { s with cache := cache, op := update s.op p (.commit c) }

/-- `commit` by process `p`, at `c`. -/
structure CommitOk (s : Sys m n) (p : Fin m) (c : CommitPc n) : Prop where
  regs : ∀ x ∈ s.regs c, Reg s.cache p x.1 x.2 ∧ s.unlogged x.1 = false
  index : ∀ i, c.index = some i → i < s.lh.length
  installed : s.installed = c.installed s.lh.length
  wrote : ∀ j, j < c.wrote s.lh.length → s.cache.content (s.logBlock j) = s.last (s.lh.getD j 0)
  calls : ∀ b k, Bio.Calling s.cache p b k → s.wants c = some k
  size : c.busy = true → 2 ≤ s.size
  clean : ∀ b, c.clean = some b → Clean s.cache b
  cleared : c.cleared = true → s.lh = []

/-- The header in memory. -/
structure HeadInv (s : Sys m n) : Prop where
  start : s.start < 2 ^ 31
  size : s.size < 2 ^ 31
  nodup : s.lh.Nodup
  room : s.lh = [] ∨ s.lh.length + 1 ≤ s.size
  outside : ∀ k ∈ s.lh, ¬InLog s.start s.size k.toNat
  installed : s.installed ≤ s.lh.length

/-- What is in the buffers. -/
structure DataInv (s : Sys m n) : Prop where
  dirty : ∀ b, s.changing b ∨ Clean s.cache b ∨ (s.cache.buf b).blockno ∈ s.pending
  unlogged : ∀ b, s.unlogged b = true →
    ∃ p, (s.cache.buf b).lock = some p ∧ ∀ k, s.cache.pc p ≠ .fill b k
  last : ∀ k : UInt32, ¬InLog s.start s.size k.toNat → s.cache.content k = s.last k

def OpPc.isOp : OpPc n → Bool
  | .op => true
  | _ => false

/-- Who is in an operation, and who commits. -/
structure OpsInv (s : Sys m n) : Prop where
  outstanding : s.outstanding = count OpPc.isOp s.op
  committing : ∀ p, (s.op p).inCommit = true → s.committing = true
  alone : ∀ p q, (s.op p).inCommit = true → (s.op q).inCommit = true → p = q
  quiet : s.committing = true → s.outstanding = 0
  idle : s.committing = false → s.installed = 0

structure LogInv (s : Sys m n) : Prop where
  cache : CacheInv s.cache
  head : HeadInv s
  pin : PinInv s.cache s.pending
  data : DataInv s
  ops : OpsInv s
  commit : ∀ p c, s.op p = .commit c → CommitOk s p c

variable {s s' : Sys m n} {p q : Fin m} {b : Fin n} {k : UInt32} {c : CommitPc n} {cache : Bio.Sys m n Block}
  {l : Bio.Lbl m n Block}

/-! ## Blocks of the log -/

variable {j i tail : Nat} {c' : CommitPc n} {o : OpPc n} {d : Block} {lb hb : Fin n}

section
variable (h : HeadInv s)
include h

theorem HeadInv.logBlock_toNat (hj : j + 1 < s.size) :
    (s.logBlock j).toNat = s.start + j + 1 := by
  have h1 := h.start
  have h2 := h.size
  unfold Sys.logBlock
  rw [UInt32.toNat_ofNat_of_lt']
  rw [UInt32.size]
  omega

theorem HeadInv.logBlock_in (hj : j + 1 < s.size) :
    InLog s.start s.size (s.logBlock j).toNat := by
  rw [h.logBlock_toNat hj]
  unfold InLog
  omega

theorem HeadInv.start_toNat : (UInt32.ofNat s.start).toNat = s.start := by
  have h1 := h.start
  rw [UInt32.toNat_ofNat_of_lt']
  rw [UInt32.size]
  omega

theorem HeadInv.start_in (hz : 2 ≤ s.size) : InLog s.start s.size (UInt32.ofNat s.start).toNat := by
  rw [h.start_toNat]
  unfold InLog
  omega

/-- An entry of `lh` has its block in the log. -/
theorem HeadInv.entry (hj : j < s.lh.length) :
    j + 1 < s.size ∧ ¬InLog s.start s.size (s.lh.getD j 0).toNat ∧ s.lh.getD j 0 ∈ s.lh := by
  have hmem : s.lh.getD j 0 ∈ s.lh := by
    rw [List.getD_eq_getElem _ _ hj]
    exact List.getElem_mem hj
  refine ⟨?_, h.outside _ hmem, hmem⟩
  rcases h.room with e | e
  · rw [e] at hj; cases hj
  · omega

end

/-! ## Steps of the cache -/

theorem dirty_mem (h : c.dirty = some b) : ∃ k, (b, k) ∈ s.regs c := by
  cases c with
  | write loop tail lb hb =>
    cases loop <;> cases h
    · exact ⟨_, List.mem_cons_self⟩
    · exact ⟨_, List.mem_cons_of_mem _ List.mem_cons_self⟩
  | headWrite last b => cases h; exact ⟨_, List.mem_cons_self⟩
  | _ => cases h

/-- A buffer that its holder is not changing. -/
theorem LogInv.not_changing (h : LogInv s) (hl : (s.cache.buf b).lock = some p) (hu : s.unlogged b = false)
    (hc : ∀ c, s.op p = .commit c → c.dirty ≠ some b) : ¬s.changing b := by
  rintro (e | ⟨q, c, hq, hd⟩)
  · rw [hu] at e; cases e
  · obtain ⟨k, hk⟩ := dirty_mem (s := s) hd
    have hlock := ((h.commit q c hq).regs _ hk).1.lock
    rw [hl] at hlock
    cases hlock
    exact hc c hq hd

/-- Such a buffer is written, or is pinned. -/
theorem LogInv.written (h : LogInv s) (hl : (s.cache.buf b).lock = some p) (hp : s.cache.pc p = .idle)
    (hc : ¬s.changing b) : Clean s.cache b ∨ 0 < s.cache.pins b := by
  rcases h.data.dirty b with e | e | e
  · exact absurd e hc
  · exact .inl e
  · right
    rw [h.pin.pinned (h.cache.root b (h.cache.valid hp hl)) e]
    exact Nat.one_pos

/-- No `refcnt` overflows: a buffer has a pin at most, a holder, and a reference of each process. -/
theorem LogInv.refcnt_lt (h : LogInv s) (hm : m + 3 < 2 ^ 32) (b : Fin n) :
    (s.cache.buf b).refcnt.toNat + 1 < 2 ^ 32 := by
  have hr := h.cache.refs b
  have hp : s.cache.pins b ≤ 1 := by
    rw [h.pin.pins]
    split <;> omega
  have hc := count_le (Bio.Pc.refers b) s.cache.pc
  have hl := Bool.toNat_le (s.cache.buf b).lock.isSome
  rw [Fintype.card_fin] at hc
  unfold Bio.holders at hr
  omega

/-- `commit` goes from `c` to `c'`, and writes nothing to the log on the way. -/
structure CommitPc.Follows (len : Nat) (c c' : CommitPc n) : Prop where
  index : ∀ i, c'.index = some i → c.index = some i ∨ i < len
  wrote : c'.wrote len ≤ c.wrote len
  busy : c'.busy = true → c.busy = true
  cleared : c'.cleared = true → c.cleared = true

theorem CommitPc.Follows.refl (len : Nat) (c : CommitPc n) : c.Follows len c :=
  ⟨fun _ => .inl, Nat.le_refl _, id, id⟩

/-- `commit` goes on after a step that keeps the buffers it still needs. -/
theorem CommitOk.next (h : CacheInv s.cache) (hok : CommitOk s p c) (hs : Bio.step s.cache l = some cache)
    (hl : ∀ p b d, l ≠ .modify p b d) (hf : c.Follows s.lh.length c') {o : Fin m → OpPc n}
    (hregs : ∀ x ∈ s.regs c', x ∈ s.regs c ∧ l ≠ .brelse p x.1 ∨ Reg cache p x.1 x.2 ∧ s.unlogged x.1 = false)
    (hcalls : ∀ b k, Bio.Calling cache p b k → s.wants c' = some k) (hinst : i = c'.installed s.lh.length)
    (hclean : ∀ b, c'.clean = some b → Clean cache b) :
    CommitOk { s with cache := cache, op := o, installed := i } p c' where
  regs x hx := (hregs x hx).elim (fun ⟨hx, hne⟩ => ⟨(hok.regs x hx).1.step h hs hne, (hok.regs x hx).2⟩) id
  index i hi := (hf.index i hi).elim (hok.index i) id
  installed := hinst
  wrote j hj := by
    rw [Bio.content_step h.list hs hl]
    exact hok.wrote j (Nat.lt_of_lt_of_le hj hf.wrote)
  calls := hcalls
  size hb := hok.size (hf.busy hb)
  clean := hclean
  cleared e := hok.cleared (hf.cleared e)

/-- The other processes do not get in the way of `commit`. -/
theorem CommitOk.frame (h : CacheInv s.cache) (hok : CommitOk s q c) (hs : Bio.step s.cache l = some cache)
    (hq : l.proc ≠ q) (hl : ∀ p b d, l ≠ .modify p b d) (o : Fin m → OpPc n) :
    CommitOk { s with cache := cache, op := o } q c := by
  refine hok.next h hs hl (.refl ..) (fun x hx => .inl ⟨hx, ?_⟩)
    (fun b k hc => hok.calls b k ?_) hok.installed fun b hb => (hok.clean b hb).step h hs fun p d => hl p b d
  · rintro rfl
    exact hq rfl
  · rwa [Bio.Calling, Bio.pc_step h.list hs hq] at hc

/-- A buffer that nobody writes to stays clean, or that of its block. -/
theorem LogInv.dirty_step (h : LogInv s) (hs : Bio.step s.cache l = some cache)
    (hl : ∀ p d, l ≠ .modify p b d) : s.changing b ∨ Clean cache b ∨ (s.cache.buf b).blockno ∈ s.pending ∧
      (cache.buf b).blockno = (s.cache.buf b).blockno := by
  rcases h.data.dirty b with hc | hclean | hk
  · exact .inl hc
  · exact .inr (.inl (hclean.step h.cache hs hl))
  · by_cases hb : (s.cache.buf b).refcnt = 0
    · have hclean := h.cache.clean b (h.cache.unused hb).2.1 (h.cache.unused hb).1
      exact .inr (.inl (hclean.step h.cache hs hl))
    · exact .inr (.inr ⟨hk, (Bio.name_step h.cache.list hs hb).2.2⟩)

theorem LogInv.unlogged_step (h : LogInv s) (hs : Bio.step s.cache l = some cache)
    (hrel : ∀ b, l = .brelse l.proc b → (s.cache.buf b).lock = some l.proc → s.unlogged b = false)
    (hb : s.unlogged b = true) : ∃ p, (cache.buf b).lock = some p ∧ ∀ k, cache.pc p ≠ .fill b k := by
  obtain ⟨q, hq, hfill⟩ := h.data.unlogged b hb
  refine ⟨q, Bio.lock_step h.cache.list hs hq ?_, Bio.fill_step h.cache.list hs hq hfill⟩
  rintro rfl
  rw [hrel b rfl hq] at hb
  cases hb

/-- One process goes on. -/
theorem Sys.changing.update (h : s.changing b) (hs' : s'.op = update s.op p o)
    (hu : s'.unlogged = s.unlogged)
    (hp : ∀ c, s.op p = .commit c → c.dirty = some b → ∃ c', o = .commit c' ∧ c'.dirty = some b) :
    s'.changing b := by
  rcases h with hb | ⟨q, c, hq, hd⟩
  · exact .inl (hu ▸ hb)
  · by_cases e : q = p
    · subst e
      obtain ⟨c', ho, hd'⟩ := hp c hq hd
      exact .inr ⟨q, c', by rw [hs', update_self, ho], hd'⟩
    · exact .inr ⟨q, c, by rw [hs', update_of_ne e, hq], hd⟩

theorem Sys.changing.clear (h : s.changing b) (hop : s.op p = .commit c) (hd : c.dirty = none)
    (hs' : s'.op = Function.update s.op p o) (hu : s'.unlogged = s.unlogged) : s'.changing b :=
  h.update hs' hu fun c₁ hc₁ hd₁ => by
    cases hop.symm.trans hc₁
    cases hd.symm.trans hd₁

/-- There is no other committer. -/
theorem LogInv.commit_only (h : LogInv s) (hop : s.op p = .commit c)
    (hq : update s.op p o q = .commit c') : q = p ∧ o = .commit c' := by
  by_cases e : q = p
  · subst e
    rw [update_self] at hq
    exact ⟨rfl, hq⟩
  · rw [update_of_ne e] at hq
    exact absurd (h.ops.alone q p (by rw [hq]; rfl) (by rw [hop]; rfl)) e

theorem DataInv.move (h : LogInv s) (hs : Bio.step s.cache l = some cache) (hl : ∀ p b d, l ≠ .modify p b d)
    (hrel : ∀ b, l = .brelse l.proc b → (s.cache.buf b).lock = some l.proc → s.unlogged b = false)
    (o : OpPc n) (hdirty : ∀ c b, s.op l.proc = .commit c → c.dirty = some b →
      (∃ c', o = .commit c' ∧ c'.dirty = some b) ∨ Clean cache b) :
    DataInv { s with cache := cache, op := update s.op l.proc o } := by
  refine ⟨fun b => ?_, fun b hb => h.unlogged_step hs hrel hb, fun k hk => ?_⟩
  · rcases h.dirty_step hs fun p d => hl p b d with hc | hclean | ⟨hk, e⟩
    · by_cases hclean : Clean cache b
      · exact .inr (.inl hclean)
      · exact .inl (hc.update rfl rfl fun c hop hd => (hdirty c b hop hd).resolve_right hclean)
    · exact .inr (.inl hclean)
    · exact .inr (.inr (e ▸ hk))
  · show cache.content k = s.last k
    rw [Bio.content_step h.cache.list hs hl]
    exact h.data.last k hk

/-- One process goes on and stays where it is with respect to operations. -/
theorem OpsInv.move (h : OpsInv s) (p : Fin m) (o : OpPc n) (hin : o.inCommit = (s.op p).inCommit)
    (hop : o.isOp = (s.op p).isOp) (hs' : s'.op = update s.op p o) (ho : s'.outstanding = s.outstanding)
    (hc : s'.committing = s.committing) (hi : s.committing = false → s'.installed = 0) : OpsInv s' := by
  have hall : ∀ q, (s'.op q).inCommit = (s.op q).inCommit := fun q => by
    rw [hs']
    by_cases e : q = p
    · rw [e, update_self, hin]
    · rw [update_of_ne e]
  refine ⟨?_, fun q hq => ?_, fun q r hq hr => ?_, fun e => ?_, fun e => ?_⟩
  · rw [ho, h.outstanding, hs']
    have := count_update OpPc.isOp s.op p o
    rw [hop] at this
    omega
  · rw [hall] at hq
    rw [hc]
    exact h.committing q hq
  · rw [hall] at hq hr
    exact h.alone q r hq hr
  · rw [hc] at e
    rw [ho]
    exact h.quiet e
  · rw [hc] at e
    exact hi e

section
variable (h : LogInv s) (hm : m + 3 < 2 ^ 32)
include h hm

theorem LogInv.counts (hl : l.pinless = true) : Bio.Counts s.cache l := by
  cases l with
  | bread p k => exact fun b _ _ => h.refcnt_lt hm b
  | bpin | bunpin => cases hl
  | _ => trivial

/-- A step of the cache that changes no pin and no contents. -/
theorem LogInv.move (hs : Bio.step s.cache l = some cache)
    (hw : Bio.Writes s.cache l) (hpin : l.pinless = true) (hl : ∀ p b d, l ≠ .modify p b d)
    (hrel : ∀ b, l = .brelse l.proc b → (s.cache.buf b).lock = some l.proc → s.unlogged b = false)
    (o : OpPc n) (hin : o.inCommit = (s.op l.proc).inCommit) (hop : o.isOp = (s.op l.proc).isOp)
    (hdirty : ∀ c b, s.op l.proc = .commit c → c.dirty = some b →
      (∃ c', o = .commit c' ∧ c'.dirty = some b) ∨ Clean cache b)
    (hcommit : ∀ c, o = .commit c → CommitOk { s with cache := cache, op := update s.op l.proc o } l.proc c) :
    LogInv { s with cache := cache, op := update s.op l.proc o } := by
  refine ⟨Bio.cacheInv_step h.cache hw (h.counts hm hpin) hs, ?_, h.pin.step h.cache hs hpin,
    DataInv.move h hs hl hrel o hdirty, h.ops.move l.proc o hin hop rfl rfl rfl h.ops.idle, fun q c hq => ?_⟩
  · obtain ⟨h1, h2, h3, h4, h5, h6⟩ := h.head
    exact ⟨h1, h2, h3, h4, h5, h6⟩
  · by_cases e : q = l.proc
    · subst e
      have ho : update s.op l.proc o l.proc = .commit c := hq
      rw [update_self] at ho
      exact hcommit c ho
    · exact (h.commit q c ((update_of_ne e _ _).symm.trans hq)).frame h.cache hs (Ne.symm e) hl _

/-- The same, by a process that does not commit. -/
theorem LogInv.call (hs : Bio.step s.cache l = some cache)
    (hw : Bio.Writes s.cache l) (hpin : l.pinless = true) (hl : ∀ p b d, l ≠ .modify p b d)
    (hrel : ∀ b, l = .brelse l.proc b → (s.cache.buf b).lock = some l.proc → s.unlogged b = false)
    (hout : (s.op l.proc).inCommit = false) : LogInv { s with cache := cache } := by
  have hne : ∀ c, s.op l.proc ≠ .commit c := fun c e => by
    rw [e] at hout
    cases hout
  have := h.move hm hs hw hpin hl hrel (s.op l.proc) rfl rfl (fun c _ hc => absurd hc (hne c))
    fun c hc => absurd hc (hne c)
  rwa [Function.update_eq_self] at this

end

/-! ## Steps of commit -/

/-- What a buffer that `commit` holds has. -/
theorem CommitOk.data (hok : CommitOk s p c) (h : LogInv s) {x : Fin n × UInt32} (hx : x ∈ s.regs c) :
    (s.cache.buf x.1).data = s.cache.content x.2 := by
  have hr := (hok.regs x hx).1
  rw [h.cache.data _ hr.valid, hr.blockno]

/-- A process outside `bread` and `brelse` is in none after its step. -/
theorem not_calling (h : CacheInv s.cache) (hs : Bio.step s.cache l = some cache) (hp : s.cache.pc p = .idle)
    (hread : ∀ k, l ≠ .bread p k) : ¬Bio.Calling cache p b k := by
  intro hc
  rcases Bio.calls_step h.list hs hc with (e | e) | e
  · cases hp.symm.trans e
  · cases hp.symm.trans e
  · exact hread k e

section
variable (h : LogInv s)
include h

section
variable (hm : m + 3 < 2 ^ 32) (hop : s.op p = .commit c)
include hm hop

/-- A step of the cache by `commit`. -/
theorem LogInv.commitMove
    (hs : Bio.step s.cache l = some cache) (hw : Bio.Writes s.cache l) (c' : CommitPc n)
    (hdirty : ∀ b, c.dirty = some b → c'.dirty = some b ∨ Clean cache b)
    (hok : CommitOk (s.goes cache p c') p c')
    (hrel : ∀ b, l = .brelse p b → s.unlogged b = false) (hpin : l.pinless = true)
    (hl : ∀ p b d, l ≠ .modify p b d) (hproc : l.proc = p) :
    LogInv (s.goes cache p c') := by
  subst hproc
  refine h.move hm hs hw hpin hl (fun b e _ => hrel b e) (.commit c') (by rw [hop]; rfl) (by rw [hop]; rfl)
    (fun c₁ b hc₁ hd => ?_) fun c₁ hc₁ => ?_
  · cases hop.symm.trans hc₁
    exact (hdirty b hd).imp_left fun e => ⟨c', rfl, e⟩
  · cases hc₁
    exact hok

/-- `bwrite` of a buffer that `commit` has changed. -/
theorem LogInv.commitWrite
    (hs : Bio.step s.cache (.bwrite p b) = some cache) (hp : s.cache.pc p = .idle) (c' : CommitPc n)
    (hf : c.Follows s.lh.length c')
    (hc : (c.dirty, s.regs c', c'.installed s.lh.length) = (some b, s.regs c, c.installed s.lh.length))
    (hclean : ∀ b', c'.clean = some b' → b' = b) :
    LogInv (s.goes cache p c') := by
  have hok := h.commit p c hop
  simp only [Prod.mk.injEq] at hc
  obtain ⟨hd, hregs, hinst⟩ := hc
  obtain ⟨k, hk⟩ := dirty_mem (s := s) hd
  have hwritten : Clean cache b := by
    intro _
    cases (Bio.step_fires h.cache.list hs).2 with
    | bwrite q b' idle =>
      rw [Bio.bwrite, if_pos (hok.regs _ hk).1.lock]
      show (s.cache.buf b).data = update s.cache.disk (s.cache.buf b).blockno (s.cache.buf b).data _
      rw [update_self]
  refine h.commitMove hm hop hs trivial c' (fun b₁ hd₁ => ?_) (hok.next h.cache hs (by simp) hf
    (fun x hx => .inl ⟨hregs ▸ hx, by simp⟩) (fun _ _ hc => absurd hc (not_calling h.cache hs hp nofun))
    (hok.installed.trans hinst.symm) fun b' hb' => hclean b' hb' ▸ hwritten) nofun rfl (by simp) rfl
  cases hd.symm.trans hd₁
  exact .inr hwritten

/-- `brelse` of a buffer that `commit` holds. -/
theorem LogInv.commitRel
    (hs : Bio.step s.cache (.brelse p b) = some cache) (hp : s.cache.pc p = .idle) (c' : CommitPc n)
    (hf : c.Follows s.lh.length c') (hregs : ∀ x ∈ s.regs c', x ∈ s.regs c ∧ x.1 ≠ b)
    (hb : ∃ k, (b, k) ∈ s.regs c)
    (hc : (c.dirty, c'.installed s.lh.length, c'.clean) = (none, c.installed s.lh.length, none)) :
    LogInv (s.goes cache p c') := by
  have hok := h.commit p c hop
  simp only [Prod.mk.injEq] at hc
  obtain ⟨hd, hinst, hclean⟩ := hc
  obtain ⟨k, hb⟩ := hb
  obtain ⟨hr, hu⟩ := hok.regs _ hb
  have hsame : ¬s.changing b := h.not_changing hr.lock hu fun c₁ hc₁ => by
    cases hop.symm.trans hc₁
    simp [hd]
  refine h.commitMove hm hop hs (fun _ => h.written hr.lock hp hsame) c'
    (by simp [hd]) (hok.next h.cache hs (by simp) hf
    (fun x hx => .inl ⟨(hregs x hx).1, fun e => ?_⟩)
    (fun _ _ hc => absurd hc (not_calling h.cache hs hp nofun))
    (hok.installed.trans hinst.symm) (by simp [hclean])) (fun b₁ e => ?_) rfl (by simp) rfl
  · cases e
    exact (hregs x hx).2 rfl
  · cases e
    exact hu

end

/-- A step that moves `commit` only. -/
theorem LogInv.goto (hop : s.op p = .commit c) (hd : c.dirty = none) (c' : CommitPc n)
    (hok : CommitOk { s with op := update s.op p (.commit c') } p c') :
    LogInv { s with op := update s.op p (.commit c') } := by
  refine ⟨h.cache, { h.head with }, h.pin, ⟨fun b => ?_, h.data.unlogged, h.data.last⟩,
    h.ops.move p (.commit c') (by rw [hop]; rfl) (by rw [hop]; rfl) rfl rfl rfl h.ops.idle, fun q c₁ hq => ?_⟩
  · exact (h.data.dirty b).imp_left fun hc => hc.clear hop hd rfl rfl
  · obtain ⟨rfl, ⟨⟩⟩ := h.commit_only hop hq
    exact hok

/-- `memmove` to a buffer that `commit` holds. -/
theorem LogInv.put (hop : s.op p = .commit c) (hp : s.cache.pc p = .idle)
    (hs : Bio.step s.cache (.modify p b d) = some cache)
    (hlast : ∀ k : UInt32, ¬InLog s.start s.size k.toNat → cache.content k = s.last k)
    (hwrote : ∀ j, j < c'.wrote s.lh.length → cache.content (s.logBlock j) = s.last (s.lh.getD j 0))
    (hc : (c'.cleared, c.dirty, c'.dirty, s.regs c', c'.index, c'.installed s.lh.length, c.busy, c'.clean) =
      (c.cleared, none, some b, s.regs c, c.index, c.installed s.lh.length, true, none)) :
    LogInv (s.goes cache p c') := by
  have hok := h.commit p c hop
  simp only [Prod.mk.injEq] at hc
  obtain ⟨hcl, hd, hd', hregs, hindex, hinst, hbusy, hclean⟩ := hc
  refine ⟨Bio.cacheInv_step (l := .modify p b d) h.cache trivial trivial hs, { h.head with },
    h.pin.step h.cache hs rfl, ⟨fun b₁ => ?_, fun b₁ hb₁ => h.unlogged_step hs (by simp) hb₁, hlast⟩,
    h.ops.move p (.commit c') (by rw [hop]; rfl) (by rw [hop]; rfl) rfl rfl rfl h.ops.idle, fun q c₁ hq => ?_⟩
  · by_cases e : b₁ = b
    · exact .inl (.inr ⟨p, c', update_self .., e ▸ hd'⟩)
    · rcases h.dirty_step (b := b₁) hs (by simp [Ne.symm e]) with hc | hclean | ⟨hk, ek⟩
      · exact .inl (hc.clear hop hd rfl rfl)
      · exact .inr (.inl hclean)
      · exact .inr (.inr (ek ▸ hk))
  · obtain ⟨rfl, ⟨⟩⟩ := h.commit_only hop hq
    refine ⟨fun x hx => ?_, fun i hi => hok.index i (hindex ▸ hi), hok.installed.trans hinst.symm, hwrote,
      fun _ _ hc => absurd hc (not_calling h.cache hs hp nofun), fun _ => hok.size hbusy, by simp [hclean],
      fun e => hok.cleared (hcl ▸ e)⟩
    have hx := hok.regs x (hregs ▸ hx)
    exact ⟨hx.1.step h.cache hs (by simp), hx.2⟩

/-- `bunpin` of the block that is installed. -/
theorem LogInv.unpin (hop : s.op p = .commit (.unpin tail lb hb))
    (hs : Bio.step s.cache (.bunpin p hb) = some cache) (hp : s.cache.pc p = .idle) :
    LogInv { s with
      cache := cache
      op := update s.op p (.commit (.rel1 .install tail lb hb))
      installed := s.installed + 1 } := by
  have hok := h.commit p _ hop
  have hi : tail < s.lh.length := hok.index tail rfl
  have htail : s.installed = tail := hok.installed
  have hreg := (hok.regs (hb, s.lh.getD tail 0) (by simp [Sys.regs])).1
  have hpending : s.pending = s.lh.getD tail 0 :: s.lh.drop (s.installed + 1) := by
    unfold Sys.pending
    rw [htail, List.getD_eq_getElem _ _ hi, List.drop_eq_getElem_cons hi]
  have hnd : (s.lh.getD tail 0 :: s.lh.drop (s.installed + 1)).Nodup := by
    rw [← hpending]
    exact h.head.nodup.sublist (List.drop_sublist _ _)
  have hpin : PinInv s.cache (s.lh.getD tail 0 :: s.lh.drop (s.installed + 1)) := hpending ▸ h.pin
  have hpinned := hpin.pinned (h.cache.root hb hreg.valid) (by rw [hreg.blockno]; exact List.mem_cons_self)
  have hwrites : Bio.Writes s.cache (.bunpin p hb) := fun hl => by cases hl.symm.trans hreg.lock
  have hcache := Bio.cacheInv_step h.cache hwrites (show 0 < s.cache.pins hb by omega) hs
  refine ⟨hcache, { h.head with installed := by show s.installed + 1 ≤ s.lh.length; omega },
    hpin.bunpin h.cache hs hreg.valid hreg.blockno (List.nodup_cons.1 hnd).1,
    ⟨fun b₁ => ?_, fun b₁ hb₁ => h.unlogged_step hs (by simp) hb₁, fun k hk => ?_⟩,
    h.ops.move p _ (by rw [hop]; rfl) (by rw [hop]; rfl) rfl rfl rfl fun e => ?_, fun q c₁ hq => ?_⟩
  · rcases h.dirty_step (b := b₁) hs (by simp) with hc | hclean | ⟨hk, ek⟩
    · exact .inl (hc.clear hop rfl rfl rfl)
    · exact .inr (.inl hclean)
    · rw [hpending] at hk
      rcases List.mem_cons.1 hk with e | hk
      · -- the buffer of the installed block is clean
        refine .inr (.inl fun hv => ?_)
        have hname := Bio.name_step h.cache.list hs (h.cache.refcnt_pos hreg.lock)
        have e₁ : b₁ = hb := hcache.only (hname.2.1.trans (h.cache.root hb hreg.valid)) hv
          (by rw [ek, e, hname.2.2, hreg.blockno])
        subst e₁
        exact (hok.clean b₁ rfl).step h.cache hs (by simp) hv
      · exact .inr (.inr (ek ▸ hk))
  · show cache.content k = s.last k
    rw [Bio.content_step h.cache.list hs (by simp)]
    exact h.data.last k hk
  · cases e.symm.trans (h.ops.committing p (by rw [hop]; rfl))
  · obtain ⟨rfl, ⟨⟩⟩ := h.commit_only hop hq
    have hf : CommitPc.Follows s.lh.length (.unpin tail lb hb) (.rel1 .install tail lb hb) :=
      ⟨fun _ => .inl, Nat.le_refl _, id, id⟩
    exact hok.next h.cache hs (by simp) hf (fun x hx => .inl ⟨hx, by simp⟩)
      (fun _ _ hc => absurd hc (not_calling h.cache hs hp nofun)) (show s.installed + 1 = tail + 1 by omega)
      (by simp [CommitPc.clean])

/-- The header is cleared: all blocks are installed. -/
theorem LogInv.clear (hop : s.op p = .commit .clear) (hp : s.cache.pc p = .idle) :
    LogInv { s with lh := [], installed := 0, op := update s.op p (.commit (.head true)) } := by
  have hok := h.commit p _ hop
  have hpending : s.pending = [] := by
    unfold Sys.pending
    rw [show s.installed = s.lh.length from hok.installed]
    exact List.drop_length
  have hpin := h.pin
  rw [hpending] at hpin
  refine ⟨h.cache, ⟨h.head.start, h.head.size, List.nodup_nil, .inl rfl, by simp, Nat.le_refl _⟩, hpin,
    ⟨fun b => ?_, h.data.unlogged, h.data.last⟩,
    h.ops.move p _ (by rw [hop]; rfl) (by rw [hop]; rfl) rfl rfl rfl fun _ => rfl, fun q c₁ hq => ?_⟩
  · rcases h.data.dirty b with hc | hclean | hk
    · exact .inl (hc.clear hop rfl rfl rfl)
    · exact .inr (.inl hclean)
    · rw [hpending] at hk
      cases hk
  · obtain ⟨rfl, ⟨⟩⟩ := h.commit_only hop hq
    refine ⟨by simp [Sys.regs], fun i hi => (by cases hi), rfl, fun j hj => (by cases hj), fun b k hc => ?_,
      fun _ => hok.size rfl, fun b hb => (by cases hb), fun _ => rfl⟩
    rcases hc with e | e <;> rw [hp] at e <;> cases e

/-- The end of `end_op`. -/
theorem LogInv.finish (hop : s.op p = .commit .finish) :
    LogInv { s with committing := false, op := update s.op p .out } := by
  have hok := h.commit p _ hop
  have hnone : ∀ q c, update s.op p .out q ≠ .commit c := fun q c hq => by
    obtain ⟨_, e⟩ := h.commit_only hop hq
    cases e
  have hin : ∀ q, (update s.op p .out q).inCommit ≠ true := fun q hq => by
    cases ho : update s.op p .out q with
    | commit c => exact hnone q c ho
    | out | op => rw [ho] at hq; cases hq
  refine ⟨h.cache, { h.head with }, h.pin, ⟨fun b => ?_, h.data.unlogged, h.data.last⟩,
    ⟨?_, fun q hq => absurd hq (hin q), fun q _ hq => absurd hq (hin q), fun e => (by cases e),
      fun _ => hok.installed⟩,
    fun q c hq => absurd hq (hnone q c)⟩
  · exact (h.data.dirty b).imp_left fun hc => hc.clear hop rfl rfl rfl
  · have hcount := count_update OpPc.isOp s.op p .out
    have ho := h.ops.outstanding
    rw [hop] at hcount
    simp only [OpPc.isOp, Bool.toNat_false, Nat.add_zero] at hcount
    show s.outstanding = count OpPc.isOp (update s.op p .out)
    rw [hcount]
    exact ho

end

theorem content_modify (h : CacheInv s.cache) (hs : Bio.step s.cache (.modify p b d) = some cache) :
    cache.content = update s.cache.content (s.cache.buf b).blockno d := by
  cases (Bio.step_fires h.list hs).2 with
  | modify q b' d' idle held => rfl

theorem HeadInv.logBlock_inj (h : HeadInv s) (hi : i + 1 < s.size) (hj : j + 1 < s.size)
    (e : s.logBlock i = s.logBlock j) : i = j := by
  have h1 := h.logBlock_toNat hi
  have h2 := h.logBlock_toNat hj
  rw [e] at h1
  omega

section
variable (h : LogInv s)
include h

/-- `write_log` copies a block. -/
theorem LogInv.copyLog (hop : s.op p = .commit (.copy .writeLog tail lb hb))
    (hp : s.cache.pc p = .idle) (hs : Bio.step s.cache (.modify p lb (s.cache.buf hb).data) = some cache) :
    LogInv (s.goes cache p (.write .writeLog tail lb hb)) := by
  have hok := h.commit p _ hop
  have hi : tail < s.lh.length := hok.index tail rfl
  have hin := (h.head.entry hi).1
  have hlog := (hok.regs (lb, s.logBlock tail) (by simp [Sys.regs])).1
  have hdata := hok.data h (x := (hb, s.lh.getD tail 0)) (by simp [Sys.regs])
  have hcontent := content_modify h.cache hs
  rw [hlog.blockno, hdata] at hcontent
  refine h.put hop hp hs (fun k hk => ?_) (fun j hj => ?_) rfl
  · rw [hcontent, update_of_ne]
    · exact h.data.last k hk
    · rintro rfl
      exact hk (h.head.logBlock_in hin)
  · rw [hcontent]
    by_cases e : j = tail
    · rw [e, update_self]
      exact h.data.last _ (h.head.entry hi).2.1
    · have hj : j < tail + 1 := hj
      rw [update_of_ne fun ek => e (h.head.logBlock_inj (by omega) hin ek)]
      exact hok.wrote j (show j < tail by omega)

/-- `install_trans` copies a block back, which leaves its contents as they are. -/
theorem LogInv.copyHome (hop : s.op p = .commit (.copy .install tail lb hb))
    (hp : s.cache.pc p = .idle) (hs : Bio.step s.cache (.modify p hb (s.cache.buf lb).data) = some cache) :
    LogInv (s.goes cache p (.write .install tail lb hb)) := by
  have hok := h.commit p _ hop
  have hi : tail < s.lh.length := hok.index tail rfl
  have hhome := (hok.regs (hb, s.lh.getD tail 0) (by simp [Sys.regs])).1
  have hdata := hok.data h (x := (lb, s.logBlock tail)) (by simp [Sys.regs])
  have hcontent := content_modify h.cache hs
  rw [hhome.blockno, hdata, hok.wrote tail hi, ← h.data.last _ (h.head.entry hi).2.1,
    Function.update_eq_self] at hcontent
  refine h.put hop hp hs (fun k hk => ?_) (fun j hj => ?_) rfl
  · rw [hcontent]
    exact h.data.last k hk
  · rw [hcontent]
    exact hok.wrote j hj

/-- `write_head` fills the header block. -/
theorem LogInv.copyHead {last : Bool} (hop : s.op p = .commit (.headPut last b))
    (hp : s.cache.pc p = .idle) (hs : Bio.step s.cache (.modify p b d) = some cache) :
    LogInv (s.goes cache p (.headWrite last b)) := by
  have hok := h.commit p _ hop
  have hz := hok.size rfl
  have hreg := (hok.regs (b, UInt32.ofNat s.start) (by simp [Sys.regs])).1
  have hcontent := content_modify h.cache hs
  rw [hreg.blockno] at hcontent
  refine h.put hop hp hs (fun k hk => ?_) (fun j hj => ?_) (by cases last <;> rfl)
  · rw [hcontent, update_of_ne]
    · exact h.data.last k hk
    · intro e
      rw [e] at hk
      exact hk (h.head.start_in hz)
  · have hj' : j < (CommitPc.headPut last b).wrote s.lh.length := by cases last <;> exact hj
    have hlen : j < s.lh.length := by
      cases last with
      | false => exact hj
      | true => cases hj
    rw [hcontent, update_of_ne fun e => ?_]
    · exact hok.wrote j hj'
    · have e := congrArg UInt32.toNat e
      rw [h.head.logBlock_toNat (h.head.entry hlen).1, h.head.start_toNat] at e
      omega

/-- The two buffers of a loop are different. -/
theorem CommitOk.ne (hok : CommitOk s p c) (lb hb : Fin n) (hi : tail < s.lh.length)
    (h1 : (lb, s.logBlock tail) ∈ s.regs c) (h2 : (hb, s.lh.getD tail 0) ∈ s.regs c) : lb ≠ hb := by
  rintro rfl
  have e := (hok.regs _ h1).1.blockno.symm.trans (hok.regs _ h2).1.blockno
  have hin := h.head.logBlock_in (h.head.entry hi).1
  rw [show s.logBlock tail = s.lh.getD tail 0 from e] at hin
  exact (h.head.entry hi).2.1 hin

section
variable (hm : m + 3 < 2 ^ 32) (hop : s.op p = .commit c)
include hm hop

/-- `commit` calls `bread`. -/
theorem LogInv.commitRead
    (hp : s.cache.pc p = .idle) (hs : Bio.step s.cache (.bread p k) = some cache) (hk : s.wants c = some k) :
    LogInv { s with cache := cache } := by
  have hok := h.commit p c hop
  have hnext := h.commitMove hm hop hs trivial c (fun _ => .inl) (hok.next h.cache hs (by simp) (.refl ..)
    (fun x hx => .inl ⟨hx, by simp⟩) (fun b k' hc => ?_) hok.installed
    fun b hb => (hok.clean b hb).step h.cache hs (by simp)) nofun rfl (by simp) rfl
  · rwa [Sys.goes, ← hop, Function.update_eq_self] at hnext
  · rcases Bio.calls_step h.cache.list hs hc with (e | e) | e
    · cases hp.symm.trans e
    · cases hp.symm.trans e
    · cases e
      exact hk

theorem logInv_exec (hp : s.cache.pc p = .idle)
    (hs : exec s p c = some s') : LogInv s' := by
  have hok := h.commit p c hop
  have hidle : ∀ {b : Fin n} {k : UInt32}, ¬Bio.Calling s.cache p b k := by simp [Bio.Calling, hp]
  -- `commit` at a place where it has nothing
  have hempty : ∀ c', c.dirty = none → s.regs c' = [] → c'.index = none → c'.clean = none →
      s.installed = c'.installed s.lh.length → c'.wrote s.lh.length ≤ c.wrote s.lh.length →
      (c'.busy = true → 2 ≤ s.size) → (c'.cleared = true → s.lh = []) →
      LogInv { s with op := update s.op p (.commit c') } := by
    intro c' hd hregs hindex hclean hinst hwrote hsize hcl
    refine h.goto hop hd c' ⟨fun x hx => ?_, by simp [hindex], hinst,
      fun j hj => hok.wrote j (Nat.lt_of_lt_of_le hj hwrote),
      fun b k hc => absurd hc hidle, hsize, by simp [hclean], hcl⟩
    have hx : x ∈ s.regs c' := hx
    simp [hregs] at hx
  have hsame : ∀ c', (c'.index, c'.wrote s.lh.length, c'.busy, c'.cleared) =
    (c.index, c.wrote s.lh.length, c.busy, c.cleared) →
      c.Follows s.lh.length c' := by
    intro c' e
    simp only [Prod.mk.injEq] at e
    exact ⟨fun _ hi => .inl (e.1 ▸ hi), Nat.le_of_eq e.2.1, e.2.2.1 ▸ id, e.2.2.2 ▸ id⟩
  unfold exec at hs
  cases c with
  | check =>
    cases hs
    split
    · rename_i hlen
      refine hempty _ rfl rfl rfl rfl hok.installed (Nat.le_refl _) (fun _ => ?_) (by simp [CommitPc.cleared])
      rcases h.head.room with e | e
      · rw [e] at hlen; cases hlen
      · omega
    · exact hempty _ rfl rfl rfl rfl hok.installed (Nat.le_refl _) nofun fun _ =>
        List.eq_nil_of_length_eq_zero (by omega)
  | log loop tail =>
    by_cases hlen : tail < s.lh.length
    · rw [show s.code p (.log loop tail) = .bread (s.logBlock tail) from if_pos hlen] at hs
      obtain ⟨cache, hc, rfl⟩ := Option.map_eq_some_iff.1 hs
      exact h.commitRead hm hop hp hc (if_pos hlen)
    · rw [show s.code p (.log loop tail) = .goto _ from if_neg hlen] at hs
      cases hs
      cases loop with
      | writeLog =>
        exact hempty _ rfl rfl rfl rfl hok.installed (Nat.le_of_not_lt hlen) (fun _ => hok.size rfl)
          (by simp [CommitPc.cleared])
      | install =>
        have hi := h.head.installed
        have htail : s.installed = tail := hok.installed
        exact hempty _ rfl rfl rfl rfl (show s.installed = s.lh.length by omega) (Nat.zero_le _)
          (fun _ => hok.size rfl) (by simp [CommitPc.cleared])
  | home | head =>
    obtain ⟨cache, hc, rfl⟩ := Option.map_eq_some_iff.1 hs
    exact h.commitRead hm hop hp hc rfl
  | copy loop tail lb hb =>
    cases loop <;> obtain ⟨cache, hc, rfl⟩ := Option.map_eq_some_iff.1 hs
    · exact h.copyLog hop hp hc
    · exact h.copyHome hop hp hc
  | write loop tail lb hb =>
    cases loop <;> obtain ⟨cache, hc, rfl⟩ := Option.map_eq_some_iff.1 hs
    · exact h.commitWrite hm hop hc hp (.rel1 .writeLog tail lb hb) (hsame _ rfl) rfl nofun
    · exact h.commitWrite hm hop hc hp (.unpin tail lb hb) (hsame _ rfl) rfl fun _ e => by cases e; rfl
  | unpin tail lb hb =>
    obtain ⟨cache, hc, rfl⟩ := Option.map_eq_some_iff.1 hs
    exact h.unpin hop hc hp
  | rel1 loop tail lb hb =>
    have hne := hok.ne h lb hb (hok.index tail rfl) (by simp [Sys.regs]) (by simp [Sys.regs])
    cases loop <;> obtain ⟨cache, hc, rfl⟩ := Option.map_eq_some_iff.1 hs
    · exact h.commitRel hm hop hc hp (.rel2 .writeLog tail lb) (hsame _ rfl) (by simp [Sys.regs, hne])
        (by simp [Sys.regs]) rfl
    · exact h.commitRel hm hop hc hp (.rel2 .install tail hb) (hsame _ rfl) (by simp [Sys.regs, Ne.symm hne])
        (by simp [Sys.regs]) rfl
  | rel2 loop tail b =>
    obtain ⟨cache, hc, rfl⟩ := Option.map_eq_some_iff.1 hs
    cases loop <;> exact h.commitRel hm hop hc hp (.log _ (tail + 1)) ⟨nofun, Nat.le_refl _, id, id⟩
      (by simp [Sys.regs]) (by simp [Sys.regs]) rfl
  | headPut last b =>
    obtain ⟨cache, hc, rfl⟩ := Option.map_eq_some_iff.1 hs
    exact h.copyHead hop hp hc
  | headWrite last b =>
    obtain ⟨cache, hc, rfl⟩ := Option.map_eq_some_iff.1 hs
    cases last <;> exact h.commitWrite hm hop hc hp (.headRel _ b) (hsame _ rfl) rfl nofun
  | headRel last b =>
    obtain ⟨cache, hc, rfl⟩ := Option.map_eq_some_iff.1 hs
    cases last
    · exact h.commitRel hm hop hc hp (.log .install 0) (hsame _ rfl) (by simp [Sys.regs])
        (by simp [Sys.regs]) rfl
    · exact h.commitRel hm hop hc hp .finish ⟨fun _ => .inl, Nat.le_refl _, fun _ => rfl, id⟩
        (by simp [Sys.regs])
        (by simp [Sys.regs]) rfl
  | clear => cases hs; exact h.clear hop hp
  | finish => cases hs; exact h.finish hop

/-- A call of `bread` or `brelse` in `commit` goes on. -/
theorem LogInv.commitGo
    (hs : Bio.step s.cache (.go p) = some cache) :
    LogInv { s with cache := cache, op := update s.op p ((s.op p).back (s.cache.pc p)) } := by
  have hok := h.commit p c hop
  have hsame : LogInv (s.goes cache p c) := by
    refine h.commitMove hm hop hs trivial c (fun _ => .inl) (hok.next h.cache hs (by simp) (.refl ..)
      (fun x hx => .inl ⟨hx, by simp⟩) (fun b k hc => hok.calls b k ?_) hok.installed
      fun b hb => (hok.clean b hb).step h.cache hs (by simp)) nofun rfl (by simp) rfl
    exact (Bio.calls_step h.cache.list hs hc).resolve_right nofun
  rw [hop]
  cases hpc : s.cache.pc p with
  | idle | lock | drop => exact hsame
  | fill b k =>
    have hwants := hok.calls b k (.inr hpc)
    have hcache : CacheInv cache := Bio.cacheInv_step (l := .go p) h.cache trivial trivial hs
    have hret := h.cache.returns hcache hpc hs
    have hpc' : cache.pc p = .idle := by
      cases (Bio.step_fires h.cache.list hs).2 with
      | fill q b' k' pc => exact update_self ..
      | lock _ _ _ pc | drop _ _ pc => cases hpc.symm.trans pc
    have hreg : Reg cache p b k := ⟨hret.lock, hcache.valid hpc' hret.lock, hret.blockno⟩
    have hu : s.unlogged b = false := by
      cases hb : s.unlogged b with
      | false => rfl
      | true =>
        obtain ⟨q, hq, hfill⟩ := h.data.unlogged b hb
        cases hq.symm.trans (h.cache.fills p b k hpc).2.2
        exact absurd hpc (hfill k)
    -- the place after `bread`, with one buffer more
    have hgot : ∀ c', c.Follows s.lh.length c' → c.dirty = none →
      (∀ x ∈ s.regs c', x ∈ s.regs c ∨ x = (b, k)) →
        c'.installed s.lh.length = c.installed s.lh.length → c'.clean = none →
        LogInv (s.goes cache p c') := by
      intro c' hf hd hregs hinst hclean
      refine h.commitMove hm hop hs trivial c'
        (by simp [hd]) (hok.next h.cache hs (by simp) hf (fun x hx => ?_)
        (fun _ _ hc => absurd hc (by simp [Bio.Calling, hpc'])) (hok.installed.trans hinst.symm)
        (by simp [hclean]))
        nofun rfl (by simp) rfl
      rcases hregs x hx with hx | rfl
      · exact .inl ⟨hx, by simp⟩
      · exact .inr ⟨hreg, hu⟩
    cases c with
    | log loop tail =>
      have hwants : (if tail < s.lh.length then some (s.logBlock tail) else none) = some k := hwants
      split at hwants
      · rename_i hlen
        cases hwants
        refine hgot (.home loop tail b) ⟨fun i hi => ?_, ?_, id, id⟩ rfl
          (fun x hx => .inr (List.mem_singleton.1 hx)) ?_ rfl
        · cases hi
          exact .inr hlen
        · cases loop <;> exact Nat.le_refl _
        · cases loop <;> rfl
      · cases hwants
    | home loop tail lb =>
      cases hwants
      refine hgot (.copy loop tail lb b) ⟨fun _ => .inl, ?_, id, id⟩ rfl (fun x hx => ?_) ?_ rfl
      · cases loop <;> exact Nat.le_refl _
      · rcases List.mem_cons.1 hx with rfl | hx
        · exact .inl (List.mem_singleton_self _)
        · exact .inr (List.mem_singleton.1 hx)
      · cases loop <;> rfl
    | head last =>
      cases hwants
      cases last <;> exact hgot (.headPut _ b) ⟨nofun, Nat.le_refl _, id, id⟩ rfl
        (fun x hx => .inr (List.mem_singleton.1 hx)) rfl rfl
    | _ => cases hwants

end

end

end
end Xv6.LogCache
