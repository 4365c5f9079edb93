import Mathlib.Algebra.BigOperators.Fin
import Xv6.Image.Fork
import Xv6.Image.Own

/-!
# Each system call keeps page ownership (`kernel/proc.c`, `kernel/exec.c`, `kernel/sysfile.c`)

* `Inv.process`: the invariant of `Xv6.Image.Own` is kept when pages move
  between the free list and one process.
* `fork_inv`, `sysExec_inv`, `sysPipe_inv`, `exit_inv`, `wait_inv` and the
  others: a system call keeps the invariant on every path, whichever calls of
  `kalloc` fail, and does not panic. `Xv6.Image.Runs` puts them together.
-/
namespace Xv6.Image
open Function (update update_eq_self update_of_ne update_self)
open Xv6.Proc (PState)
open Xv6.Vm hiding growproc growproc_spec

variable {ld : Link} {s s' : Sys} {e e' : Fin NFILE → Int} {args args' : List Nat}
  {k : Kernel} {p : Fin NPROC}

/-! ## One process -/

variable {x : Proc} {t : Phys} {n : Nat} {np q : Fin NPROC} {R : Panic → Prop}

theorem Proc.own_or_free (hu : x.state ≠ .unused) (a : Nat) :
    x.Own t a ∨ a ∈ t.freelist ↔ Owned t x.pagetable x.npages a ∨ a = x.trapframe := by
  unfold Proc.Own
  rw [owned_iff]
  tauto

theorem Proc.own_unused (hu : x.state = .unused) (a : Nat) : ¬x.Own t a := fun h => h.1 hu

/-- The memory of a process changes, and not its files. -/
theorem files_process (h : File.Inv e s.table) (hproc : k.proc = update s.kernel.proc p x)
    (href : k.fileRef = s.kernel.fileRef) (hof : x.ofile = (s.kernel.proc p).ofile)
    (hlive : slotOf x.state ≠ .live → slotOf (s.kernel.proc p).state ≠ .live) :
    File.Inv e (Sys.table { s with kernel := k }) := by
  have hslot : ∀ q, (k.proc q).ofile = (s.kernel.proc q).ofile ∧
      (slotOf (k.proc q).state ≠ .live → slotOf (s.kernel.proc q).state ≠ .live) := by
    intro q
    rw [hproc]
    by_cases eq : q = p
    · rw [eq, update_self]
      exact ⟨hof, hlive⟩
    · rw [update_of_ne eq]
      exact ⟨rfl, id⟩
  refine files_slots h href (fun q => (hslot q).1) fun q hq i => ?_
  rw [(hslot q).1]
  exact h.idle q i ((hslot q).2 hq)

/-- Pages move between the free list and the process `p`, whose slot becomes
`x`. -/
theorem Inv.process (h : Inv ld e args s) (p : Fin NPROC) (hproc : k.proc = update s.kernel.proc p x)
    (hphys : k.phys = t) (hkend : t.kend = s.kernel.phys.kend) (hfree : FreeOk t)
    (hsum : ∀ a, x.Own t a ∨ a ∈ t.freelist ↔ (s.kernel.proc p).Own s.kernel.phys a ∨
    a ∈ s.kernel.phys.freelist)
    (hframe : ∀ a, a % PGSIZE = 0 → ¬((s.kernel.proc p).Own s.kernel.phys a ∨ a ∈ s.kernel.phys.freelist) →
      t.mem (a / PGSIZE) = s.kernel.phys.mem (a / PGSIZE))
    (hclean : x.state = .unused → x.sz = 0 ∧ x.pagetable = 0)
    (hmem : x.state ≠ .unused → Memory ld t x x.npages)
    (hfiles : File.Inv e' (Sys.table { s with kernel := k })) : Inv ld e' args { s with kernel := k } := by
  have hx : k.proc p = x := by
    rw [hproc]
    exact update_self _ _ _
  subst hx hphys
  refine h.move (.proc p) (by simp) ⟨rfl, rfl, rfl⟩ (fun q hq => ?_) (fun _ _ => rfl)
    (fun _ => rfl) hkend hfree hsum
    (fun a ha => (hmem ha.1).used ha.2) (fun a hal h1 h2 => hframe a hal (not_or.2 ⟨h1, h2⟩)) (fun q e => ?_)
    (fun q e => ?_) hfiles
  · have hq : k.proc q = s.kernel.proc q := by
      rw [hproc]
      exact update_of_ne (fun e => hq (by rw [e])) _ _
    rw [hq]
    exact .refl _
  · cases e
    exact hclean
  · cases e
    exact hmem

/-- The free list is as it was, in another order, and no other page is
written. -/
theorem Inv.freed (h : Inv ld e args s) (hf : Freed s.kernel.phys k.phys fun _ => False)
    (hk : k = { s.kernel with phys := k.phys }) : Inv ld e args { s with kernel := k } := by
  have hlist : ∀ a, a ∈ k.phys.freelist ↔ a ∈ s.kernel.phys.freelist := fun a => (hf.list a).trans (by simp)
  have hproc : k.proc = s.kernel.proc := by rw [hk]
  refine h.move .args nofun ⟨rfl, rfl, rfl⟩ (fun q _ => ?_) (fun _ _ => rfl)
    (fun _ => rfl) hf.kend hf.free (fun a => ?_)
    (fun a ha hl => h.part.apart .args a ha ((hlist a).1 hl))
    (fun a hal _ hfr => hf.mem a hal id hfr) nofun nofun ?_
  · rw [show ({ s with kernel := k } : Sys).kernel.proc = s.kernel.proc from hproc]
    exact .refl _
  · simp only [Own, hlist]
  · rw [show Sys.table { s with kernel := k } = s.table by rw [hk]; rfl]
    exact h.files

/-- Stores to pages of `p` that are no pages of its table. -/
theorem Inv.write (h : Inv ld e args s) (hu : (s.kernel.proc p).state ≠ .unused)
    (hl : t.freelist = s.kernel.phys.freelist) (hk : t.kend = s.kernel.phys.kend) (hm : ∀ a, a % PGSIZE = 0 →
    a ∉ pagesOf s.kernel.phys (s.kernel.proc p).pagetable 0 (s.kernel.proc p).npages →
      t.mem (a / PGSIZE) = s.kernel.phys.mem (a / PGSIZE)) :
    Inv ld e args { s with kernel := { s.kernel with phys := t } } := by
  have hmp := h.memory p hu
  have hfree := h.free.congr hk hl
  obtain ⟨hmem, hsame⟩ := hmp.congr (.refl _) hfree hk
    (fun a ha => hm a (hmp.space.table.page a ha).1 fun e => (hmp.space.pages.2 a e).2.1 ha)
    fun a ha => by rw [hl]; exact hmp.used ha
  refine h.process p (update_eq_self _ _).symm rfl hk hfree (fun a => ?_) (fun a hal hno => ?_)
    (fun e => absurd e hu) (fun _ => hmem) h.files
  · rw [Proc.own_or_free hu, Proc.own_or_free hu, Owned.same hsame hl]
  · refine hm a hal fun e => hno (.inl ⟨hu, .inl (.inr e)⟩)

theorem Memory.userTable (h : Memory ld t x n) :
    (∀ va, TRAPFRAME ≤ va → va < MAXVA → leaf t x.pagetable va &&& PTE_U = 0) ∧ UserTable t x.pagetable := by
  have hk : ∀ va, TRAPFRAME ≤ va → va < MAXVA → leaf t x.pagetable va &&& PTE_U = 0 := fun va h1 h2 =>
    h.high.kernel ld.low (Nat.lt_trans h.frame.2.2 (by decide)) h1 h2
  exact ⟨hk, h.space.userTable hk⟩

section
variable (h : Inv ld e args s) (hu : (s.kernel.proc p).state ≠ .unused)
include h hu

theorem copyout_inv (va : Nat) (src : List UInt8) :
    Wp (copyout (s.kernel.proc p).pagetable va src) s.kernel.phys (fun _ t =>
      Inv ld e args { s with kernel := { s.kernel with phys := t } }) fun _ => False := by
  obtain ⟨hk, hut⟩ := (h.memory p hu).userTable
  refine (copyout_writes hut va src).post fun r t hr => ?_
  have hw := hr.1
  refine h.write hu (by rw [hw.kept]) (by rw [hw.kept]) fun a ha hno => hw.frame ha fun vb hb e => hno ?_
  obtain ⟨hv, he⟩ := (h.memory p hu).space.accessible hk hb
  rw [← e, he]
  exact page_mem hv

theorem storeByte_inv (va : Nat) (b : UInt8) :
    Wp (storeByte p va b) s.kernel (fun _ k => Inv ld e args { s with kernel := k }) fun _ => False := by
  obtain ⟨hk, hut⟩ := (h.memory p hu).userTable
  unfold storeByte
  rw [wp_modify]
  by_cases ha : Accessible s.kernel.phys (s.kernel.proc p).pagetable va
  · obtain ⟨hst, hpage⟩ := userStore_mem ha b
    obtain ⟨hv, he⟩ := (h.memory p hu).space.accessible hk ha
    rw [hst]
    refine h.write hu rfl rfl fun a hal hno => Phys.mem_setPage_ne _ _ ?_
    rw [hpage]
    refine page_ne hal (pte2pa_aligned _) fun e => hno ?_
    rw [e, he]
    exact page_mem hv
  · rw [userStore_fault ha]
    exact h

/-! ## sbrk, fork and wait -/

theorem growproc_inv {n : Int} (hlo : -2 ^ 31 ≤ n) (hhi : n < 2 ^ 31) :
    Wp (growproc p n) s.kernel (fun _ k => Inv ld e args { s with kernel := k }) fun _ => False := by
  have hmp := h.memory p hu
  refine (growproc_spec hmp hlo hhi).post fun _ k hk => ?_
  obtain ⟨n', sz, t, hr, hsz, rfl⟩ := hk
  have hm := hmp.resize hr hsz
  have hn := hm.npages
  refine h.process p rfl rfl hr.kend hr.space.free (fun a => ?_) (fun a hal hno => ?_)
    (fun e => absurd e hu) (fun _ => ?_) ?_
  · rw [Proc.own_or_free hu, Proc.own_or_free (x := { s.kernel.proc p with sz := sz }) hu, hn, hr.owned]
  · rw [Proc.own_or_free hu, not_or] at hno
    exact hr.frame a hal hno.1
  · rw [hn]
    exact hm
  · exact files_process h.files rfl rfl rfl id

end

/-- `freeproc` of a process without open files. -/
theorem freeproc_inv (h : Inv ld e args s) (hu : (s.kernel.proc p).state = .zombie) :
    Wp (freeproc p) s.kernel (fun _ k => Inv ld e args { s with kernel := k }) fun _ => False := by
  have hu' : (s.kernel.proc p).state ≠ .unused := by rw [hu]; decide
  have hmp := h.memory p hu'
  refine (freeproc_spec hmp).post fun _ k hk => ?_
  obtain ⟨t, hf, rfl⟩ := hk
  refine h.process p rfl rfl hf.kend hf.free (fun a => ?_) (fun a hal hno => ?_) (fun _ => ⟨rfl, rfl⟩)
    (fun e => absurd rfl e) ?_
  · have hno : ¬(s.kernel.proc p).cleared.Own t a := Proc.own_unused rfl a
    rw [hf.list]
    constructor
    · rintro (e | e | e)
      · exact absurd e hno
      · exact .inl ⟨hu', e⟩
      · exact .inr e
    · rintro (e | e)
      · exact .inr (.inl e.2)
      · exact .inr (.inr e)
  · rw [not_or] at hno
    exact hf.mem a hal (fun e => hno.1 ⟨hu', e⟩) hno.2
  · refine files_process h.files rfl rfl rfl fun _ => ?_
    rw [hu]
    decide

theorem wait_inv (h : Inv ld e args s) (hu : (s.kernel.proc p).state ≠ .unused) (addr : Nat) :
    Wp (wait p addr) s.kernel (fun _ k => Inv ld e args { s with kernel := k }) fun _ => False := by
  unfold wait
  rw [wp_bind, wp_get]
  cases hfind : (List.finRange NPROC).find? fun q => (s.kernel.proc q).parent = some p ∧
    (s.kernel.proc q).state = .zombie with
  | none =>
    dsimp only
    split
    · exact (wp_pure _).2 h
    · exact (wp_pure _).2 h
  | some q =>
    have hz : (s.kernel.proc q).state = .zombie := by
      have := List.find?_some hfind
      simp only [decide_eq_true_eq] at this
      exact this.2
    have hrest : ∀ (r : List Nat × Bool) k, Inv ld e args { s with kernel := k } → k.proc = s.kernel.proc →
        Wp (if r.2 = false then pure (some (-1)) else do
          freeproc q
          pure (some (s.kernel.proc q).pid)) k (fun _ k => Inv ld e args { s with kernel := k })
          fun _ => False := by
      intro r k hk hproc
      split
      · exact (wp_pure _).2 hk
      · refine Wp.bind (freeproc_inv (s := { s with kernel := k }) hk (by dsimp only; rw [hproc]; exact hz))
          fun _ k' hk' => ?_
        exact (wp_pure _).2 hk'
    rw [wp_bind, wp_getProc, wp_bind, wp_getProc, wp_ite, wp_bind, wp_bind, wp_pure]
    refine ⟨fun _ => ?_, fun _ => hrest _ _ h rfl⟩
    exact Wp.phys (copyout_inv h hu _ _) fun r t ht => hrest r _ ht rfl

/-! ## fork -/

theorem countP_finRange (P : Fin n → Bool) : (List.finRange n).countP P = ∑ i, (P i).toNat := by
  rw [Fin.sum_univ_def]
  induction List.finRange n with
  | nil => rfl
  | cons i l ih =>
    rw [List.countP_cons, List.map_cons, List.sum_cons, ih]
    cases P i <;> simp [Nat.add_comm]

/-- A row of descriptors takes the place of an empty one. -/
theorem refs_row {ofile ofile' : Fin NPROC × Fin NOFILE → Option (Fin NFILE)}
    {row : Fin NOFILE → Option (Fin NFILE)}
    (hold : ∀ i, ofile (np, i) = none) (hnew : ∀ i, ofile' (np, i) = row i)
    (hother : ∀ q, q ≠ np → ∀ i, ofile' (q, i) = ofile (q, i))
    (f : Fin NFILE) : count (fun x => decide (x = some f)) ofile' =
      count (fun x => decide (x = some f)) ofile + (List.finRange NOFILE).countP fun i => row i = some f := by
  unfold count
  rw [countP_finRange, Fintype.sum_prod_type, Fintype.sum_prod_type,
    ← Finset.add_sum_erase _ _ (Finset.mem_univ np),
    ← Finset.add_sum_erase Finset.univ (fun q => ∑ i, (decide (ofile (q, i) = some f)).toNat)
    (Finset.mem_univ np)]
  have hrest : ∑ q ∈ Finset.univ.erase np, ∑ i, (decide (ofile' (q, i) = some f)).toNat =
      ∑ q ∈ Finset.univ.erase np, ∑ i, (decide (ofile (q, i) = some f)).toNat :=
    Finset.sum_congr rfl fun q hq => Finset.sum_congr rfl
    fun i _ => by rw [hother q (Finset.ne_of_mem_erase hq)]
  simp only [hold, hnew, hrest, reduceCtorEq, decide_false, Bool.toNat_false, Finset.sum_const_zero]
  omega

/-- The child's descriptors are counted. -/
theorem files_forked (h : File.Inv 0 s.table) (hf : Forked ld s.kernel k p np n) :
    File.Inv 0 (Sys.table { s with kernel := k }) := by
  obtain ⟨tf, pt, hk⟩ := hf.rest
  have hidle : ∀ i, s.table.ofile (np, i) = none := fun i => h.idle np i (by
    show slotOf (s.kernel.proc np).state ≠ .live
    rw [hf.unused]
    decide)
  have hnp : k.proc np = (s.kernel.proc p).child ld (s.kernel.proc np) p s.kernel.nextpid tf pt := by
    rw [hk]
    exact update_self _ _ _
  have hother : ∀ q, q ≠ np → k.proc q = s.kernel.proc q := by
    intro q hq
    rw [hk]
    exact update_of_ne hq _ _
  have href : ∀ f, k.fileRef f = s.kernel.fileRef f + (List.finRange NOFILE).countP
      fun i => (s.kernel.proc p).ofile i = some f := by
    intro f
    rw [hk]
  have hrefs : ∀ f, File.refs (Sys.table { s with kernel := k }) f = File.refs s.table f +
      (List.finRange NOFILE).countP fun i => (s.kernel.proc p).ofile i = some f := by
    refine refs_row hidle (fun i => ?_) fun q hq i => ?_
    · show (k.proc np).ofile i = _
      rw [hnp]
      rfl
    · show (k.proc q).ofile i = _
      rw [hother q hq]
      rfl
  -- a file of the parent is in use already
  have hpos : ∀ f, 0 < k.fileRef f ↔ 0 < s.kernel.fileRef f := by
    intro f
    have h0 : 0 ≤ s.kernel.fileRef f := h.nonneg f
    rw [href]
    by_cases hz : (List.finRange NOFILE).countP (fun i => (s.kernel.proc p).ofile i = some f) = 0
    · rw [hz]
      simp
    · obtain ⟨i, -, hi⟩ := List.countP_pos_iff.1 (Nat.pos_of_ne_zero hz)
      have : 0 < s.kernel.fileRef f :=
        h.ref_pos (x := (p, i)) (show (s.kernel.proc p).ofile i = some f by simpa using hi)
      omega
  have hend : ∀ f, File.endOf ((Sys.table { s with kernel := k }).file f) = File.endOf (s.table.file f) := by
    intro f
    unfold File.endOf
    exact if_congr (and_congr (hpos f) Iff.rfl) rfl rfl
  refine ⟨fun f => ?_, fun f => ?_, fun f hz => ?_, fun x f g => ?_, fun pa pi hpi w => ?_,
    h.used, fun pa w f => ?_, fun q fd hq => ?_, h.pages⟩
  · have := h.ref_eq f
    rw [hrefs]
    show k.fileRef f = _
    rw [href]
    have h1 : s.kernel.fileRef f = File.refs s.table f + (0 : Fin NFILE → Int) f := this
    push_cast
    omega
  · have h0 : 0 ≤ s.kernel.fileRef f := h.nonneg f
    show 0 ≤ k.fileRef f
    rw [href]
    omega
  · have h0 : 0 ≤ s.kernel.fileRef f := h.nonneg f
    have hz : k.fileRef f = 0 := hz
    rw [href] at hz
    exact h.unused f (show s.kernel.fileRef f = 0 by omega)
  · rw [hend, hend]
    exact h.one x f g
  · simp only [hend]
    exact h.ends pa pi hpi w
  · rw [hend]
    exact h.gone pa w f
  · have hne : q ≠ np := by
      rintro rfl
      refine hq ?_
      show slotOf (k.proc q).state = .live
      rw [hnp]
      rfl
    show (k.proc q).ofile fd = none
    have hq : slotOf (k.proc q).state ≠ .live := hq
    rw [hother q hne] at hq ⊢
    exact h.idle q fd hq

theorem Inv.idle (h : Inv ld e args s) (hq : (s.kernel.proc q).state = .unused) : Clean (s.kernel.proc q) :=
  ⟨(h.clean q hq).1, (h.clean q hq).2, fun i => h.files.idle q i (by
    show slotOf (s.kernel.proc q).state ≠ .live
    rw [hq]
    decide)⟩

/-- `allocproc` has run out of memory. -/
theorem NotMade.inv (hno : NotMade s.kernel k q) (h : Inv ld e args s) :
    Inv ld e args { s with kernel := k } := by
  obtain ⟨c, hk⟩ := hno.rest
  have hproc : k.proc = update s.kernel.proc q { (s.kernel.proc q).cleared with context := c } := by rw [hk]
  have hfreed := hno.phys
  have hq := hno.unused
  refine h.process q hproc rfl hfreed.kend hfreed.free (fun a => ?_) (fun a hal hno => ?_)
    (fun _ => ⟨rfl, rfl⟩) (fun e => absurd rfl e) (files_process h.files hproc (by rw [hk]) rfl fun _ => ?_)
  · rw [hfreed.list, false_or]
    exact or_congr (iff_of_false (Proc.own_unused rfl a) (Proc.own_unused hq a)) Iff.rfl
  · exact hfreed.mem a hal id fun e => hno (.inr e)
  · rw [hq]
    decide

/-- A slot is filled with a process whose pages were free. -/
theorem Inv.newborn (h : Inv ld e args s) (hun : (s.kernel.proc np).state = .unused)
    (hproc : k.proc = update s.kernel.proc np x) (hlive : x.state ≠ .unused)
    (hnb : Newborn s.kernel.phys k.phys x.pagetable x.npages ld.trampoline x.trapframe)
    (hfiles : File.Inv e' (Sys.table { s with kernel := k })) : Inv ld e' args { s with kernel := k } := by
  refine h.process np hproc rfl hnb.kend hnb.space.free (fun a => ?_) (fun a hal hno => ?_)
    (fun e => absurd e hlive) (fun _ => ⟨hnb.space, x.pages, hnb.high, hnb.page, hnb.apart⟩) hfiles
  · rw [Proc.own_or_free hlive, hnb.owned]
    exact ⟨.inr, fun e => e.elim (fun e => absurd e (Proc.own_unused hun a)) id⟩
  · exact hnb.mem a hal fun e => hno (.inr e)

theorem fork_inv (h : Inv ld 0 args s) (hu : (s.kernel.proc p).state ≠ .unused) :
    Wp (fork ld p) s.kernel (fun _ k => Inv ld 0 args { s with kernel := k }) fun _ => False := by
  have hmp := h.memory p hu
  refine (fork_spec hu hmp (fun q hq => h.idle hq) fun i f hf => h.files.ref_pos (x := (p, i)) hf).post
    fun r k hk => ?_
  rcases hk with ⟨-, rfl | ⟨q, hno⟩⟩ | ⟨np, -, hf⟩
  · exact h
  · exact hno.inv h
  · obtain ⟨tf, pt, hk⟩ := hf.rest
    have hnp : k.proc np = (s.kernel.proc p).child ld (s.kernel.proc np) p s.kernel.nextpid tf pt := by
      rw [hk]
      exact update_self _ _ _
    have hnb := hf.newborn
    rw [hnp] at hnb
    exact h.newborn hf.unused (by rw [hk]) (show PState.runnable ≠ .unused by decide) hnb
      (files_forked h.files hf)

/-! ## exec -/

theorem fetchaddr_reads (addr : Nat) : Wp (fetchaddr p addr) k (fun _ k' => k' = k) R := by
  unfold fetchaddr
  rw [wp_bind, wp_getProc]
  split
  · exact (wp_pure _).2 rfl
  · rw [wp_bind, wp_onPhys]
    refine (copyin_spec _ _ _ _).post fun r t ht => ?_
    rw [ht.1]
    split
    · exact (wp_pure _).2 rfl
    · exact (wp_pure _).2 rfl

theorem fetchstr_reads (addr max : Nat) : Wp (fetchstr p addr max) k (fun r k' => k' = k ∧
    ∀ str, r.2 = some str → str.length ≤ max) R := by
  unfold fetchstr
  rw [wp_bind, wp_getProc, wp_bind, wp_onPhys]
  refine (copyinstr_spec _ _ _ _).post fun r t ht => ?_
  refine (wp_pure _).2 ⟨by rw [ht.1], fun str hstr => ?_⟩
  split at hstr
  · cases hstr
    exact (List.takeWhile_prefix _).length_le.trans ht.2.copy.le
  · cases hstr

theorem Inv.args_congr (h : Inv ld e args s) (ha : ∀ a, a ∈ args' ↔ a ∈ args) : Inv ld e args' s :=
  { h with
    part := h.part.congr (fun _ => Iff.rfl) (fun _ => Iff.rfl) fun o a => by cases o <;> simp [Own, ha] }

/-- `sys_exec` writes to a page it has taken. -/
theorem Inv.writeArg (h : Inv ld e args s) {pa : Nat} (hpa : pa ∈ args) (b : Page) :
    Inv ld e args { s with kernel := { s.kernel with phys := s.kernel.phys.setPage pa b } } :=
  h.move .args nofun ⟨rfl, rfl, rfl⟩ (fun _ _ => .refl _) (fun _ _ => rfl)
    (fun _ => rfl) rfl (h.free.congr rfl rfl) (fun _ => Iff.rfl) (h.part.apart .args)
    (fun _ hal ha _ => Phys.mem_setPage_ne _ _
      (page_ne hal (h.part.own_pool .args pa hpa).1 fun e => ha (e ▸ hpa)))
    nofun nofun h.files

/-- The pages that `sys_exec` takes are its own. -/
theorem fetchArgs_inv (uargv : Nat) (n : Nat) :
    ∀ {i : Nat} {args : List Nat} {s : Sys}, Inv ld e args s → args.Nodup →
    Wp (fetchArgs p uargv n i) s.kernel
    (fun r k => Inv ld e (r.1 ++ args) { s with kernel := k } ∧ (r.1 ++ args).Nodup ∧
      k.proc = s.kernel.proc ∧ ∀ argv, r.2 = some argv → argv.length < n ∧
      ∀ a ∈ argv, a.length ≤ PGSIZE) fun _ => False := by
  induction n with
  | zero =>
    intro i args s h hnd
    exact (wp_pure _).2 ⟨h, hnd, rfl, fun argv e => by cases e⟩
  | succ n ih =>
    intro i args s h hnd
    unfold fetchArgs
    refine (fetchaddr_reads _).bind fun r k hk => ?_
    subst hk
    cases r with
    | none => exact (wp_pure _).2 ⟨h, hnd, rfl, fun argv e => by cases e⟩
    | some uarg =>
      dsimp only
      split
      · refine (wp_pure _).2 ⟨h, hnd, rfl, fun argv e => ?_⟩
        cases e
        exact ⟨Nat.succ_pos n, fun a ha => by cases ha⟩
      rw [wp_bind, wp_onPhys]
      refine (kalloc_spec _).post fun pa t ht => ?_
      cases ht with
      | none hm hl hk =>
        rw [if_pos rfl]
        exact (wp_pure _).2 ⟨h.refused hm hl hk, hnd, rfl, fun argv e => by cases e⟩
      | page hl hk hm =>
        have g : Taken s.kernel.phys t pa := ⟨hl, hk, hm⟩
        have hnot : pa ∉ args := fun e => h.part.apart .args pa e g.mem_free
        rw [if_neg (g.ne_zero h.free)]
        refine (fetchstr_reads _ _).bind fun r k hk => ?_
        obtain ⟨rfl, hlen⟩ := hk
        rw [wp_bind, wp_onPhys]
        have h1 : Inv ld e (pa :: args) { s with kernel := { s.kernel with phys := t } } :=
          kalloc_move h (.inr rfl) ⟨rfl, rfl, rfl⟩ (fun q => .refl _) (fun _ _ => rfl)
          (fun e => absurd rfl e) h.files g
            fun a => by simp only [Own, List.mem_cons, or_comm]
        have hnd1 : (pa :: args).Nodup := List.nodup_cons.2 ⟨hnot, hnd⟩
        unfold storeBytes
        rw [wp_modify]
        have h2 := h1.writeArg List.mem_cons_self
          ((t.mem (pa / PGSIZE)).splice (pa % PGSIZE) r.1.length fun i => r.1.getD i 0)
        obtain ⟨dst, str⟩ := r
        cases str with
        | none => exact (wp_pure _).2 ⟨h2, hnd1, rfl, fun argv e => by cases e⟩
        | some str =>
          refine (ih h2 hnd1).bind fun rest k hk => ?_
          obtain ⟨h3, hnd3, hproc, hargv⟩ := hk
          refine (wp_pure _).2 ⟨h3.args_congr fun a => ?_, List.perm_middle.nodup hnd3,
            hproc, fun argv e => ?_⟩
          · simp only [List.cons_append, List.mem_cons, List.mem_append]
            tauto
          · obtain ⟨argv', he, rfl⟩ := Option.map_eq_some_iff.1 e
            obtain ⟨hl, hall⟩ := hargv argv' he
            refine ⟨Nat.succ_lt_succ hl, fun a ha => ?_⟩
            rcases List.mem_cons.1 ha with rfl | ha
            · exact hlen a rfl
            · exact hall a ha

/-- `sys_exec` gives the pages of `argv` back. -/
theorem kfreeAll_inv : ∀ {l args : List Nat} {s : Sys}, Inv ld e (l ++ args) s → (l ++ args).Nodup →
    Wp (kfreeAll l) s.kernel (fun _ k => Inv ld e args { s with kernel := k }) fun _ => False
  | [], _, _, h, _ => (wp_pure _).2 h
  | pa :: l, args, s, h, hnd => by
    have hown : Own s (pa :: l ++ args) .args pa := List.mem_cons_self
    have hnd' := List.nodup_cons.1 hnd
    unfold kfreeAll
    rw [wp_bind, wp_onPhys]
    refine (kfree_spec (h.part.own_pool .args pa hown)).post fun _ t ht => ?_
    obtain ⟨hl, hk, hm⟩ := ht
    refine kfreeAll_inv (s := { s with kernel := { s.kernel with phys := t } }) ?_ hnd'.2
    refine kfree_move h (.inr rfl) ⟨rfl, rfl, rfl⟩ (fun q => .refl _) (fun _ _ => rfl)
      (fun e => absurd rfl e) h.files hown hl hk hm fun a => ?_
    simp only [Own, List.cons_append, List.mem_cons]
    exact ⟨fun ha => ⟨.inr ha, fun e => hnd'.1 (e ▸ ha)⟩, fun ha => ha.1.resolve_left ha.2⟩

theorem exec_inv (h : Inv ld e args s) (hu : (s.kernel.proc p).state ≠ .unused) (path : List UInt8)
    (ip : Option (List UInt8))
    {argv : List (List UInt8)} (hargc : argv.length < MAXARG) (hlen : ∀ a ∈ argv, a.length ≤ PGSIZE) :
    Wp (exec ld p path ip argv) s.kernel (fun _ k => Inv ld e args { s with kernel := k })
    fun _ => False := by
  have hmp := h.memory p hu
  have hlen' : ∀ a ∈ argv, a.length < 2 ^ 31 := fun a ha => Nat.lt_of_le_of_lt (hlen a ha) (by simp [PGSIZE])
  refine (exec_spec path ip hmp hargc hlen').post fun r k hk => ?_
  rcases hk with ⟨-, hf, hk, -⟩ | ⟨-, -, n', hr⟩
  · exact h.freed hf hk
  · obtain ⟨name, pt, sz, hk⟩ := hr.rest
    have hproc : k.proc = update s.kernel.proc p
        { s.kernel.proc p with name := name, pagetable := pt, sz := sz } := by rw [hk]
    have hp : k.proc p = { s.kernel.proc p with name := name, pagetable := pt, sz := sz } := by
      rw [hproc]
      exact update_self _ _ _
    have hn := hr.memory.npages
    have hlive : (k.proc p).state ≠ .unused := by
      rw [hp]
      exact hu
    have htf : (k.proc p).trapframe = (s.kernel.proc p).trapframe := by rw [hp]
    refine h.process p (hp ▸ hproc) rfl hr.kend hr.memory.space.free (fun a => ?_) (fun a hal hno => ?_)
      (fun e => absurd e hlive)
      (fun _ => by rw [hn]; exact hr.memory) (files_process h.files hproc (by rw [hk]) rfl id)
    · rw [Proc.own_or_free hlive, Proc.own_or_free hu, hn, hr.owned, htf]
    · rw [Proc.own_or_free hu, not_or] at hno
      exact hr.frame a hal hno.1 hno.2

theorem sysExec_inv (h : Inv ld e [] s) (hu : (s.kernel.proc p).state ≠ .unused) (upath uargv : Nat)
    (ip : Option (List UInt8)) :
    Wp (sysExec ld p upath uargv ip) s.kernel (fun _ k => Inv ld e [] { s with kernel := k })
    fun _ => False := by
  unfold sysExec
  refine (fetchstr_reads _ _).bind fun r k hk => ?_
  obtain ⟨rfl, -⟩ := hk
  obtain ⟨dst, path⟩ := r
  cases path with
  | none => exact (wp_pure _).2 h
  | some path =>
    refine (fetchArgs_inv uargv MAXARG h List.nodup_nil).bind fun args k hk => ?_
    obtain ⟨h1, hnd, hproc, hargv⟩ := hk
    obtain ⟨pages, argv⟩ := args
    cases argv with
    | none =>
      refine (kfreeAll_inv h1 hnd).bind fun _ k' hk' => (wp_pure _).2 hk'
    | some argv =>
      obtain ⟨hargc, hlen⟩ := hargv argv rfl
      refine (exec_inv h1 (by dsimp only; rw [hproc]; exact hu) path ip hargc hlen).bind fun r k' hk' => ?_
      exact (kfreeAll_inv hk' hnd).bind fun _ k'' hk'' => (wp_pure _).2 hk''

/-! ## pipe, close and exit -/

/-- What a change of one descriptor leaves alone. -/
structure Slots (s s' : Sys) (p : Fin NPROC) (fd : Fin NOFILE) (x : Option (Fin NFILE)) : Prop where
  state : ∀ q, (s'.kernel.proc q).state = (s.kernel.proc q).state
  initproc : s'.initproc = s.initproc
  fileRef : s'.kernel.fileRef = s.kernel.fileRef
  ofile : (s'.kernel.proc p).ofile = update (s.kernel.proc p).ofile fd x

theorem slots_setTable {t : File.Table} {fd : Fin NOFILE} {x : Option (Fin NFILE)}
    (hfile : t.file = s.table.file)
    (hof : t.ofile = update s.table.ofile (p, fd) x) : Slots s (s.setTable t) p fd x := by
  refine ⟨fun _ => rfl, rfl, funext fun f => congrArg File.ref (congrFun hfile f), funext fun i => ?_⟩
  show t.ofile (p, i) = update (s.kernel.proc p).ofile fd x i
  rw [hof]
  by_cases e : i = fd
  · rw [e, update_self, update_self]
  · rw [update_of_ne e, update_of_ne fun h => e (Prod.mk.inj h).2]
    rfl

theorem setSlot_inv (h : Inv ld e args s) (fd : Fin NOFILE) :
    Wp (onTable (File.setSlot p fd none)) s (fun _ s' =>
      Inv ld (fun g => e g + File.tally ((s.kernel.proc p).ofile fd) g) args s' ∧
      Slots s s' p fd none) fun _ => False := by
  rw [wp_onTable]
  unfold File.setSlot
  rw [wp_modify]
  have hi := h.files.setSlot p fd none fun e => absurd rfl e
  refine ⟨(h.setTable hi rfl fun _ => rfl).congr fun g => ?_, slots_setTable rfl rfl⟩
  rw [File.tally_none, Int.sub_zero]
  rfl

theorem fdalloc_inv (h : Inv ld e args s) (hlive : slotOf (s.kernel.proc p).state = .live) (f : Fin NFILE) :
    Wp (onTable (File.fdalloc p f)) s (fun r s' =>
      match r with
      | none => Inv ld e args s' ∧ s'.kernel.fileRef = s.kernel.fileRef ∧ s'.kernel.proc = s.kernel.proc
      | some fd => Inv ld (fun g => e g - File.tally (some f) g) args s' ∧ (s.kernel.proc p).ofile fd = none ∧
        Slots s s' p fd (some f)) fun _ => False := by
  rw [wp_onTable]
  refine (File.fdalloc_spec h.files hlive f).post fun r t ht => ?_
  obtain ⟨hfile, hproc, hpipe, hr⟩ := ht
  have hpipe' : ∀ a, (t.pipe a).isSome = (s.pipe a).isSome := fun a => by rw [hpipe]; rfl
  cases r with
  | none =>
    exact ⟨h.setTable (hr ▸ h.files) hproc hpipe', funext fun f => congrArg File.ref (congrFun hfile f),
      proc_setTable (by rw [hr])⟩
  | some fd => exact ⟨h.setTable hr.2.2 hproc hpipe', hr.1, slots_setTable hfile hr.2.1⟩

/-- Both ends of a pipe are closed again. -/
theorem closeEnds_inv {rf wf : Fin NFILE} {ref : Fin NFILE → Int} (h : Inv ld e args s) (hne : rf ≠ wf)
    (href : s.kernel.fileRef = ref) (hr : 0 < ref rf) (hw : 0 < ref wf) :
    Wp (do fileclose rf; fileclose wf; pure (-1 : Int)) s (fun _ s' =>
      Inv ld (fun g => e g - File.tally (some rf) g - File.tally (some wf) g) args s') fun _ => False := by
  subst href
  refine (fileclose_spec h hr).bind fun _ t ht => ?_
  refine (fileclose_spec ht.1 (by rw [ht.2.2.2 wf (Ne.symm hne)]; exact hw)).bind fun _ u hu => ?_
  exact (wp_pure _).2 hu.1

theorem copyFds_inv (h : Inv ld e args s) (hu : (s.kernel.proc p).state ≠ .unused) (fdarray : Nat)
    (fd0 fd1 : Fin NOFILE) :
    Wp (copyFds p fdarray fd0 fd1) s.kernel
    (fun _ k => Inv ld e args { s with kernel := k } ∧ k.proc = s.kernel.proc ∧
      k.fileRef = s.kernel.fileRef) fun _ => False := by
  unfold copyFds
  rw [wp_bind, wp_getProc, wp_bind]
  refine Wp.phys (copyout_inv h hu _ _) fun r t ht => ?_
  split
  · exact (wp_pure _).2 ⟨ht, rfl, rfl⟩
  · rw [wp_bind]
    refine Wp.phys (copyout_inv (p := p) ht hu _ _) fun r u hu => ?_
    exact (wp_pure _).2 ⟨hu, rfl, rfl⟩

theorem live_ne_unused {x : PState} (h : slotOf x = .live) : x ≠ .unused := by
  rintro rfl
  cases h

theorem sysPipe_inv (h : Inv ld 0 args s) (hlive : slotOf (s.kernel.proc p).state = .live) (fdarray : Nat) :
    Wp (sysPipe p fdarray) s (fun _ s' => Inv ld 0 args s') fun _ => False := by
  unfold sysPipe
  refine (pipealloc_spec h).bind fun r s1 hr => ?_
  obtain ⟨hk, hr⟩ := hr
  rcases r with _ | ⟨rf, wf⟩
  · exact (wp_pure _).2 hr
  obtain ⟨h1, hne, hrf, hwf⟩ := hr
  have hlive1 : slotOf (s1.kernel.proc p).state = .live := by rw [hk.proc]; exact hlive
  refine (fdalloc_inv h1 hlive1 rf).bind fun r s2 hr => ?_
  rcases r with _ | fd0
  · obtain ⟨h2, href, -⟩ := hr
    refine (closeEnds_inv h2 hne href hrf hwf).post fun _ t ht => ht.congr fun g => ?_
    simp
  obtain ⟨h2, hold, hs2⟩ := hr
  have hlive2 : slotOf (s2.kernel.proc p).state = .live := by rw [hs2.state]; exact hlive1
  have hfd0 : (s2.kernel.proc p).ofile fd0 = some rf := by
    rw [hs2.ofile]
    exact update_self _ _ _
  refine (fdalloc_inv h2 hlive2 wf).bind fun r s3 hr => ?_
  rcases r with _ | fd1
  · obtain ⟨h3, href, hproc⟩ := hr
    refine (setSlot_inv h3 fd0).bind fun _ s4 hs => ?_
    obtain ⟨h4, hs4⟩ := hs
    refine (closeEnds_inv h4 hne (hs4.fileRef.trans (href.trans hs2.fileRef)) hrf hwf).post
      fun _ t ht => ht.congr fun g => ?_
    rw [hproc, hfd0]
    simp
  obtain ⟨h3, hold3, hs3⟩ := hr
  have hne01 : fd0 ≠ fd1 := by
    rintro rfl
    rw [hold3] at hfd0
    cases hfd0
  have hlive3 : slotOf (s3.kernel.proc p).state = .live := by rw [hs3.state]; exact hlive2
  rw [wp_bind, wp_onKernel]
  refine (copyFds_inv h3 (live_ne_unused hlive3) fdarray fd0 fd1).post fun ok k hk => ?_
  obtain ⟨h4, hproc, href⟩ := hk
  split
  · refine (setSlot_inv h4 fd0).bind fun _ s5 hs => ?_
    obtain ⟨h5, hs5⟩ := hs
    refine (setSlot_inv h5 fd1).bind fun _ s6 hs => ?_
    obtain ⟨h6, hs6⟩ := hs
    have hrefs := hs6.fileRef.trans (hs5.fileRef.trans (href.trans (hs3.fileRef.trans hs2.fileRef)))
    have e0 : (k.proc p).ofile fd0 = some rf := by
      rw [hproc, hs3.ofile, update_of_ne hne01]
      exact hfd0
    have e1 : (s5.kernel.proc p).ofile fd1 = some wf := by
      rw [hs5.ofile, update_of_ne (Ne.symm hne01)]
      show (k.proc p).ofile fd1 = some wf
      rw [hproc, hs3.ofile]
      exact update_self _ _ _
    refine (closeEnds_inv h6 hne hrefs hrf hwf).post fun _ t ht => ht.congr fun g => ?_
    rw [e0, e1]
    omega
  · refine (wp_pure _).2 (h4.congr fun g => ?_)
    omega

theorem sysClose_inv (h : Inv ld 0 args s) (fd : Int) :
    Wp (sysClose p fd) s (fun _ s' => Inv ld 0 args s') fun _ => False := by
  unfold sysClose
  rw [wp_bind, wp_onTable]
  refine (File.argfd_spec p fd).post fun r t ht => ?_
  obtain ⟨rfl, hslot⟩ := ht
  have h1 : Inv ld 0 args (s.setTable s.table) := h.setTable h.files rfl fun _ => rfl
  rcases r with _ | ⟨fd', f⟩
  · exact (wp_pure _).2 h1
  have hf : (s.kernel.proc p).ofile fd' = some f := hslot fd' f rfl
  refine (setSlot_inv h1 fd').bind fun _ s2 hs => ?_
  obtain ⟨h2, hs2⟩ := hs
  have hpos : 0 < s2.kernel.fileRef f := by
    rw [hs2.fileRef]
    exact h.files.ref_pos (x := (p, fd')) hf
  refine (fileclose_spec h2 hpos).bind fun _ s3 hs => (wp_pure _).2 (hs.1.congr fun g => ?_)
  rw [show ((s.setTable s.table).kernel.proc p).ofile fd' = some f from hf]
  omega

/-- The files of a process that exits, from `l` on. -/
theorem exitFiles_inv (l : List (Fin NOFILE)) :
    ∀ {s : Sys}, Inv ld 0 args s → Wp (exitFiles p l) s (fun _ s' =>
    Inv ld 0 args s' ∧ (∀ q, (s'.kernel.proc q).state = (s.kernel.proc q).state) ∧ s'.initproc = s.initproc ∧
    ∀ fd, fd ∈ l ∨ (s.kernel.proc p).ofile fd = none →
    (s'.kernel.proc p).ofile fd = none) fun _ => False := by
  induction l with
  | nil =>
    intro s h
    exact (wp_pure _).2 ⟨h, fun _ => rfl, rfl, fun fd hfd => hfd.resolve_left (List.not_mem_nil)⟩
  | cons fd l ih =>
    intro s h
    unfold exitFiles
    rw [wp_bind, wp_get]
    cases hf : (s.kernel.proc p).ofile fd with
    | none =>
      refine (ih h).post fun _ s' hs => ⟨hs.1, hs.2.1, hs.2.2.1, fun fd' hfd => hs.2.2.2 fd' ?_⟩
      rcases hfd with hfd | hfd
      · rcases List.mem_cons.1 hfd with rfl | hfd
        · exact .inr hf
        · exact .inl hfd
      · exact .inr hfd
    | some f =>
      refine (fileclose_spec h (h.files.ref_pos (x := (p, fd)) hf)).bind fun _ s1 hs => ?_
      obtain ⟨h1, hproc, hinit, -⟩ := hs
      refine (setSlot_inv h1 fd).bind fun _ s2 hs => ?_
      obtain ⟨h2, hs2⟩ := hs
      have h2' : Inv ld 0 args s2 := h2.congr fun g => by
        rw [hproc, hf]
        simp
      refine (ih h2').post fun _ s' hs => ⟨hs.1, fun q => ?_, ?_, fun fd' hfd => hs.2.2.2 fd' ?_⟩
      · rw [hs.2.1, hs2.state, hproc]
      · rw [hs.2.2.1, hs2.initproc, hinit]
      · rw [hs2.ofile]
        by_cases e : fd' = fd
        · rw [e]
          exact .inr (update_self _ _ _)
        · rw [update_of_ne e, hproc]
          rcases hfd with hfd | hfd
          · exact .inl ((List.mem_cons.1 hfd).resolve_left e)
          · exact .inr hfd

theorem reparent_inv (h : Inv ld e args s) (initproc : Fin NPROC) :
    Wp (reparent initproc p) s.kernel (fun _ k =>
    Inv ld e args { s with kernel := k } ∧ (∀ q, (k.proc q).state = (s.kernel.proc q).state) ∧
    ∀ q, (k.proc q).ofile = (s.kernel.proc q).ofile) fun _ => False := by
  unfold reparent
  rw [wp_modify]
  have hslot : ∀ q, let y :=
    if (s.kernel.proc q).parent = some p then { s.kernel.proc q with parent := some initproc }
      else s.kernel.proc q
      SameMem (s.kernel.proc q) y ∧ y.state = (s.kernel.proc q).state ∧
        y.ofile = (s.kernel.proc q).ofile := by
    intro q
    split
    · exact ⟨⟨Iff.rfl, rfl, rfl, rfl⟩, rfl, rfl⟩
    · exact ⟨.refl _, rfl, rfl⟩
  refine ⟨h.setProcs rfl rfl (fun q => (hslot q).1) (fun q => (hslot q).2.2) fun q hq i => ?_,
    fun q => (hslot q).2.1, fun q => (hslot q).2.2⟩
  rw [(hslot q).2.1] at hq
  rw [(hslot q).2.2]
  exact h.files.idle q i hq

/-- One slot changes, and not what it says about pages and files. -/
theorem setProc_inv (h : Inv ld e args s) {f : Proc → Proc}
    (hs : SameMem (s.kernel.proc p) (f (s.kernel.proc p)))
    (hof : (f (s.kernel.proc p)).ofile = (s.kernel.proc p).ofile)
    (hlive : slotOf (f (s.kernel.proc p)).state ≠ .live → ∀ i, (s.kernel.proc p).ofile i = none) :
    Wp (setProc p f) s.kernel (fun _ k => Inv ld e args { s with kernel := k } ∧
      k.proc = update s.kernel.proc p (f (s.kernel.proc p))) fun _ => False := by
  have hslot : ∀ q, SameMem (s.kernel.proc q) (update s.kernel.proc p (f (s.kernel.proc p)) q) ∧
      (update s.kernel.proc p (f (s.kernel.proc p)) q).ofile = (s.kernel.proc q).ofile ∧
      (slotOf (update s.kernel.proc p (f (s.kernel.proc p)) q).state ≠ .live →
        ∀ i, (s.kernel.proc q).ofile i = none) := by
    intro q
    by_cases e : q = p
    · rw [e, update_self]
      exact ⟨hs, hof, hlive⟩
    · rw [update_of_ne e]
      exact ⟨.refl _, rfl, fun hq i => h.files.idle q i hq⟩
  refine (wp_setProc p f).2 ⟨h.setProcs rfl rfl (fun q => (hslot q).1) (fun q => (hslot q).2.1)
    fun q hq i => ?_, rfl⟩
  rw [show ((update s.kernel.proc p (f (s.kernel.proc p)) q).ofile) = _ from (hslot q).2.1]
  exact (hslot q).2.2 hq i

theorem iput_inv (h : Inv ld e args s) (ip : Option (Fin Fs.NINODE)) : Wp (iput ip) s.kernel (fun _ k =>
    Inv ld e args { s with kernel := k } ∧ k.proc = s.kernel.proc) fun _ => False := by
  unfold iput
  rw [wp_modify]
  exact ⟨h.setProcs rfl rfl (fun _ => .refl _) (fun _ => rfl) fun q hq i => h.files.idle q i hq, rfl⟩

theorem exit_inv (h : Inv ld 0 args s) (hu : (s.kernel.proc p).state ≠ .unused) (status : Int) :
    Wp (exit p status) s (fun _ s' => Inv ld 0 args s') fun x => p = s.initproc ∧ x = .file .initExiting := by
  unfold exit
  rw [wp_bind, wp_get]
  split
  · rename_i hp
    exact (wp_panic _).2 ⟨hp, rfl⟩
  rw [wp_bind]
  refine (exitFiles_inv (List.finRange NOFILE) h).mono (fun _ s1 hs => ?_) fun _ => False.elim
  obtain ⟨h1, hstate, -, hnone⟩ := hs
  have hnone : ∀ fd, (s1.kernel.proc p).ofile fd = none := fun fd => hnone fd (.inl (List.mem_finRange fd))
  simp only [wp_bind, wp_onKernel, wp_getProc]
  refine (iput_inv h1 _).mono (fun _ k2 hk2 => ?_) fun _ => False.elim
  obtain ⟨h2, hp2⟩ := hk2
  refine (setProc_inv h2 (p := p) (f := fun x => { x with cwd := none }) ⟨Iff.rfl, rfl, rfl, rfl⟩ rfl
    fun _ => ?_).mono (fun _ k3 hk3 => ?_) fun _ => False.elim
  · rw [hp2]
    exact hnone
  obtain ⟨h3, hp3⟩ := hk3
  have hp3 : k3.proc p = { s1.kernel.proc p with cwd := none } := by
    rw [hp3, update_self]
    rw [hp2]
  refine (reparent_inv h3 s.initproc).mono (fun _ k4 hk4 => ?_) fun _ => False.elim
  obtain ⟨h4, hst4, hof4⟩ := hk4
  have hst : (k4.proc p).state ≠ .unused := by
    rw [hst4]
    rw [hp3]
    rw [hstate]
    exact hu
  refine (setProc_inv h4 (p := p) (f := fun x => { x with xstate := status, state := .zombie })
    ⟨iff_of_false (by simp) hst, rfl, rfl, rfl⟩ rfl
    fun _ i => ?_).mono (fun _ k5 hk5 => hk5.1) fun _ => False.elim
  rw [hof4]
  rw [hp3]
  exact hnone i

end Xv6.Image
