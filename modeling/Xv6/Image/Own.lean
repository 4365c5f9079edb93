import Xv6.Core.Partition
import Xv6.File.Refs
import Xv6.Image.Sys

/-!
# Every page has one owner (`kernel/kalloc.c`, `kernel/proc.c`, `kernel/exec.c`, `kernel/pipe.c`)

A page that `kinit` has handed to the allocator is free or belongs to one
process, to one pipe, to the arguments of an `exec` that runs, or to the
kernel. Each function moves pages between the free list and one of these
owners (`Inv.move`).
-/
namespace Xv6.Image
open Function (update update_of_ne update_self)
open Xv6.Proc (PState)
open Xv6.Vm hiding growproc growproc_spec

variable {ld : Link} {s s' : Sys} {e e' : Fin NFILE → Int} {args args' : List Nat}

/-- The pages of user memory. -/
def Proc.npages (x : Proc) : Nat := (x.sz + (PGSIZE - 1)) / PGSIZE

theorem Proc.pages (x : Proc) : Pages x.sz x.npages := by
  unfold Pages Proc.npages
  simp only [PGSIZE]
  omega

variable {t : Phys} {x y : Proc} {n : Nat} {k : Kernel}

theorem Memory.npages (h : Memory ld t x n) : x.npages = n := by
  have := h.size
  unfold Pages at this
  unfold Proc.npages
  simp only [PGSIZE] at *
  omega

inductive Owner where
  | proc (p : Fin NPROC)
  | kernel
  | kstack (p : Fin NPROC)
  | disk (i : Fin 3)
  | pipe
  /-- `argv` in `sys_exec` -/
  | args
  deriving DecidableEq

/-- The pages of a process: its table, its memory and its trapframe. -/
def Proc.Own (x : Proc) (t : Phys) (a : Nat) : Prop :=
  x.state ≠ .unused ∧ (Held t x.pagetable x.npages a ∨ a = x.trapframe)

def Own (s : Sys) (args : List Nat) : Owner → Nat → Prop
  | .proc p, a => (s.kernel.proc p).Own s.kernel.phys a
  | .kernel, a => Node s.kernel.phys s.kpgtbl a
  | .kstack p, a => a = s.kstack p
  | .disk i, a => a = s.disk i
  | .pipe, a => (s.pipe a).isSome
  | .args, a => a ∈ args

/-- `e` is as in `File.Inv`; between the calls it is zero, and there are no
`args`. -/
structure Inv (ld : Link) (e : Fin NFILE → Int) (args : List Nat) (s : Sys) : Prop where
  files : File.Inv e s.table
  clean : ∀ p, (s.kernel.proc p).state = .unused → (s.kernel.proc p).sz = 0 ∧ (s.kernel.proc p).pagetable = 0
  memory : ∀ p, (s.kernel.proc p).state ≠ .unused →
    Memory ld s.kernel.phys (s.kernel.proc p) (s.kernel.proc p).npages
  kernel : Table s.kernel.phys s.kpgtbl
  free : FreeOk s.kernel.phys
  part : Partition (KPage s.kernel.phys) (· ∈ s.kernel.phys.freelist) (Own s args)

theorem Inv.congr (h : Inv ld e args s) (he : ∀ f, e' f = e f) : Inv ld e' args s :=
  { h with files := h.files.congr he }

/-! ## One owner and the free list -/

/-- What matters of a slot for its pages. -/
structure SameMem (x y : Proc) : Prop where
  unused : y.state = .unused ↔ x.state = .unused
  sz : y.sz = x.sz
  pagetable : y.pagetable = x.pagetable
  trapframe : y.trapframe = x.trapframe

theorem SameMem.refl (x : Proc) : SameMem x x := ⟨Iff.rfl, rfl, rfl, rfl⟩

theorem SameMem.npages (h : SameMem x y) : y.npages = x.npages := by
  unfold Proc.npages
  rw [h.sz]

/-- The memory of a process whose pages are neither freed nor, where they are
nodes of its table, written. -/
theorem Memory.congr {t' : Phys} (h : Memory ld t x n) (hs : SameMem x y) (hf : FreeOk t')
    (hk : t'.kend = t.kend) (hm : ∀ a, Node t x.pagetable a → t'.mem (a / PGSIZE) = t.mem (a / PGSIZE))
    (hfree : ∀ a, Held t x.pagetable n a ∨ a = x.trapframe → a ∉ t'.freelist) :
    Memory ld t' y n ∧ SameTree x.pagetable t t' := by
  obtain ⟨hsp, hsame⟩ := h.space.congr hm hk hf fun a ha => hfree a (.inl ha)
  refine ⟨⟨?_, ?_, ?_, ?_, ?_⟩, hsame⟩
  · rw [hs.pagetable]
    exact hsp
  · rw [hs.sz]
    exact h.size
  · rw [hs.pagetable, hs.trapframe]
    exact h.high.same hsame
  · rw [hs.trapframe]
    exact h.frame.congr hk
  · rw [hs.pagetable, hs.trapframe, owned_iff]
    rintro (e | e)
    · exact h.apart ((owned_iff _ _ _ _).2 (.inl ((Held.same hsame _).1 e)))
    · exact hfree _ (.inr rfl) e

/-- A process does not have a free page. -/
theorem Memory.used {a : Nat} (h : Memory ld t x n) (ha : Held t x.pagetable n a ∨ a = x.trapframe) :
    a ∉ t.freelist := by
  rcases ha with (e | e) | e
  · exact h.space.table.used a e
  · exact (h.space.pages.2 a e).2.2
  · rw [e]
    exact fun hf => h.apart (.inr (.inl hf))

/-- Pages move between the free list and the owner `o`, and only these are
written. -/
theorem Inv.move (h : Inv ld e args s) (o : Owner) (ho : o ≠ .kernel)
    (hfix : s'.kpgtbl = s.kpgtbl ∧ s'.kstack = s.kstack ∧ s'.disk = s.disk)
    (hproc : ∀ q, o ≠ .proc q → SameMem (s.kernel.proc q) (s'.kernel.proc q))
    (hpipe : o ≠ .pipe → ∀ a, (s'.pipe a).isSome = (s.pipe a).isSome) (hargs : o ≠ .args → args' = args)
    (hkend : s'.kernel.phys.kend = s.kernel.phys.kend) (hfree : FreeOk s'.kernel.phys)
    (hsum : ∀ a, Own s' args' o a ∨ a ∈ s'.kernel.phys.freelist ↔ Own s args o a ∨ a ∈ s.kernel.phys.freelist)
    (hapart : ∀ a, Own s' args' o a → a ∉ s'.kernel.phys.freelist)
    (hframe : ∀ a, a % PGSIZE = 0 → ¬Own s args o a → a ∉ s.kernel.phys.freelist →
      s'.kernel.phys.mem (a / PGSIZE) = s.kernel.phys.mem (a / PGSIZE))
    (hclean : ∀ q, o = .proc q → (s'.kernel.proc q).state = .unused →
      (s'.kernel.proc q).sz = 0 ∧ (s'.kernel.proc q).pagetable = 0)
    (hmem : ∀ q, o = .proc q → (s'.kernel.proc q).state ≠ .unused →
      Memory ld s'.kernel.phys (s'.kernel.proc q) (s'.kernel.proc q).npages)
    (hfiles : File.Inv e' s'.table) : Inv ld e' args' s' := by
  -- a page of another owner is not written and not freed
  have hkeep : ∀ o' a, o' ≠ o → Own s args o' a →
      s'.kernel.phys.mem (a / PGSIZE) = s.kernel.phys.mem (a / PGSIZE) ∧ a ∉ s'.kernel.phys.freelist := by
    intro o' a hne ho'
    have hno : ¬(Own s args o a ∨ a ∈ s.kernel.phys.freelist) := by
      rintro (e | e)
      · exact hne (h.part.uniq o' o a ho' e)
      · exact h.part.apart o' a ho' e
    rw [not_or] at hno
    exact ⟨hframe a (h.part.own_pool o' a ho').1 hno.1 hno.2, fun e => (not_or.2 hno) ((hsum a).1 (.inr e))⟩
  have hmemory : ∀ q, o ≠ .proc q → (s.kernel.proc q).state ≠ .unused →
      Memory ld s'.kernel.phys (s'.kernel.proc q) (s'.kernel.proc q).npages ∧
      SameTree (s.kernel.proc q).pagetable s.kernel.phys s'.kernel.phys := by
    intro q hq hu
    rw [(hproc q hq).npages]
    refine (h.memory q hu).congr (hproc q hq) hfree hkend (fun a ha => ?_) fun a ha => ?_
    · exact (hkeep (.proc q) a (Ne.symm hq) ⟨hu, .inl (.inl ha)⟩).1
    · exact (hkeep (.proc q) a (Ne.symm hq) ⟨hu, ha⟩).2
  have hker : SameTree s.kpgtbl s.kernel.phys s'.kernel.phys :=
    h.kernel.congr (fun a ha => (hkeep .kernel a (Ne.symm ho) ha).1) hkend
    fun a ha => (hkeep .kernel a (Ne.symm ho) ha).2
  refine ⟨hfiles, fun q hu => ?_, fun q hu => ?_, ?_, hfree,
    h.part.move o (fun a => ?_) (fun o' hne a => ?_) hsum hapart⟩
  · by_cases hq : o = .proc q
    · exact hclean q hq hu
    · rw [(hproc q hq).sz, (hproc q hq).pagetable]
      exact h.clean q ((hproc q hq).unused.1 hu)
  · by_cases hq : o = .proc q
    · exact hmem q hq hu
    · exact (hmemory q hq fun e => hu ((hproc q hq).unused.2 e)).1
  · rw [hfix.1]
    exact hker.table
  · unfold KPage
    rw [hkend]
  · cases o' with
    | proc q =>
      have hq := hproc q (Ne.symm hne)
      simp only [Own, Proc.Own]
      rw [hq.npages, hq.pagetable, hq.trapframe]
      refine ⟨fun ⟨hu, ha⟩ => ?_, fun ⟨hu, ha⟩ => ?_⟩
      · have hu' := fun e => hu (hq.unused.2 e)
        rw [Held.same (hmemory q (Ne.symm hne) hu').2] at ha
        exact ⟨hu', ha⟩
      · rw [Held.same (hmemory q (Ne.symm hne) hu).2]
        exact ⟨fun e => hu (hq.unused.1 e), ha⟩
    | kernel =>
      simp only [Own]
      rw [hfix.1]
      exact hker.node a
    | kstack q =>
      simp only [Own]
      rw [hfix.2.1]
    | disk i =>
      simp only [Own]
      rw [hfix.2.2]
    | pipe =>
      simp only [Own]
      rw [hpipe (Ne.symm hne)]
    | args =>
      simp only [Own]
      rw [hargs (Ne.symm hne)]

/-- No page moves, and none is written. -/
theorem Inv.still (h : Inv ld e args s)
    (hfix : s'.kpgtbl = s.kpgtbl ∧ s'.kstack = s.kstack ∧ s'.disk = s.disk)
    (hproc : ∀ q, SameMem (s.kernel.proc q) (s'.kernel.proc q))
    (hpipe : ∀ a, (s'.pipe a).isSome = (s.pipe a).isSome)
    (hm : s'.kernel.phys.mem = s.kernel.phys.mem) (hl : s'.kernel.phys.freelist = s.kernel.phys.freelist)
    (hk : s'.kernel.phys.kend = s.kernel.phys.kend) (hfiles : File.Inv e' s'.table) : Inv ld e' args s' := by
  refine h.move .args nofun hfix (fun q _ => hproc q) (fun _ => hpipe) (fun _ => rfl) hk (h.free.congr hk hl)
    (fun a => by simp only [Own, hl]) (fun a ha => ?_) (fun _ _ _ _ => by rw [hm]) nofun nofun hfiles
  rw [hl]
  exact h.part.apart .args a ha

section
variable {o : Owner} {r : Nat} (h : Inv ld e args s) (ho : o = .pipe ∨ o = .args)
  (hfix : s'.kpgtbl = s.kpgtbl ∧ s'.kstack = s.kstack ∧ s'.disk = s.disk)
  (hproc : ∀ q, SameMem (s.kernel.proc q) (s'.kernel.proc q))
  (hpipe : o ≠ .pipe → ∀ a, (s'.pipe a).isSome = (s.pipe a).isSome) (hargs : o ≠ .args → args' = args)
  (hfiles : File.Inv e' s'.table)
include h ho hfix hproc hpipe hargs hfiles

/-- A page for the owner `o`, which is no process, -/
theorem kalloc_move (g : Taken s.kernel.phys s'.kernel.phys r)
    (hown : ∀ a, Own s' args' o a ↔ Own s args o a ∨ a = r) : Inv ld e' args' s' := by
  have hno : o ≠ .kernel ∧ ∀ q, o ≠ .proc q := by rcases ho with rfl | rfl <;> simp
  refine h.move o hno.1 hfix (fun q _ => hproc q) hpipe hargs g.kend (h.free.tail g.kend g.free) (fun a => ?_)
    (fun a ha => ?_) (fun a hal _ hf => g.keep h.free hal fun e => hf (e ▸ g.mem_free))
    (fun q e => absurd e (hno.2 q))
    (fun q e => absurd e (hno.2 q)) hfiles
  · rw [hown, g.free, List.mem_cons]
    tauto
  · rcases (hown a).1 ha with e | e
    · intro hf
      exact h.part.apart o a e (by rw [g.free]; exact List.mem_cons_of_mem _ hf)
    · rw [e]
      exact g.not_free h.free

/-- and one that it gives back. -/
theorem kfree_move (hr : Own s args o r) (hl : s'.kernel.phys.freelist = r :: s.kernel.phys.freelist)
    (hk : s'.kernel.phys.kend = s.kernel.phys.kend)
    (hm : ∀ n, n ≠ r / PGSIZE → s'.kernel.phys.mem n = s.kernel.phys.mem n)
    (hown : ∀ a, Own s' args' o a ↔ Own s args o a ∧ a ≠ r) : Inv ld e' args' s' := by
  have hno : o ≠ .kernel ∧ ∀ q, o ≠ .proc q := by rcases ho with rfl | rfl <;> simp
  have hpage := h.part.own_pool o r hr
  refine h.move o hno.1 hfix (fun q _ => hproc q) hpipe hargs hk
    (h.free.cons hk hpage (h.part.apart o r hr) hl)
    (fun a => ?_) (fun a ha => ?_) (fun a hal ha _ => hm _ (page_ne hal hpage.1 fun e => ha (e ▸ hr)))
    (fun q e => absurd e (hno.2 q)) (fun q e => absurd e (hno.2 q)) hfiles
  · rw [hown, hl, List.mem_cons]
    by_cases e : a = r
    · simp [e, hr]
    · simp [e]
  · obtain ⟨ha, hne⟩ := (hown a).1 ha
    rw [hl, List.mem_cons, not_or]
    exact ⟨hne, h.part.apart o a ha⟩

end

/-! ## Rules -/

section
variable {α : Type} {R : SysPanic → Prop} {Q : α → Sys → Prop}

@[simp] theorem wp_onKernel (m : K α) : Wp (onKernel m) s Q R ↔
    Wp m s.kernel (fun a k => Q a { s with kernel := k }) fun e => R (.image e) := wp_within _ _ _ _

@[simp] theorem wp_onTable (m : File.T α) : Wp (onTable m) s Q R ↔
    Wp m s.table (fun a t => Q a (s.setTable t)) fun e => R (.file e) := wp_within _ _ _ _

end

/-- The table that a function of `Xv6.File` leaves is the one of the new state. -/
theorem files_setTable {t : File.Table} (h : File.Inv e t) (hp : t.proc = s.table.proc) :
    File.Inv e (s.setTable t).table :=
  { h with
    idle := fun p fd hq => h.idle p fd (by rw [hp]; exact hq)
    pages := fun _ => (Nat.zero_add _).symm }

/-- Only the file table changes, and no page of a pipe. -/
theorem Inv.setTable {t : File.Table} (h : Inv ld e args s) (hi : File.Inv e' t) (hp : t.proc = s.table.proc)
    (hpipe : ∀ a, (t.pipe a).isSome = (s.pipe a).isSome) : Inv ld e' args (s.setTable t) :=
  h.still ⟨rfl, rfl, rfl⟩ (fun _ => ⟨Iff.rfl, rfl, rfl, rfl⟩) hpipe rfl rfl rfl (files_setTable hi hp)

/-- Slots change, but not their files. -/
theorem files_slots (h : File.Inv e s.table) (href : k.fileRef = s.kernel.fileRef)
    (hof : ∀ q, (k.proc q).ofile = (s.kernel.proc q).ofile)
    (hlive : ∀ q, slotOf (k.proc q).state ≠ .live → ∀ i, (k.proc q).ofile i = none) :
    File.Inv e (Sys.table { s with kernel := k }) := by
  have hrefs : ∀ f, File.refs (Sys.table { s with kernel := k }) f = File.refs s.table f := fun f =>
    count_congr fun x => congrArg (fun y => decide (y = some f)) (congrFun (hof x.1) x.2)
  have hfile : (Sys.table { s with kernel := k }).file = s.table.file := by
    simp only [Sys.table, href]
  refine ⟨fun f => ?_, ?_, ?_, ?_, ?_, h.used, ?_, fun q fd hq => hlive q hq fd, h.pages⟩
  · rw [hrefs, hfile]
    exact h.ref_eq f
  · rw [hfile]
    exact h.nonneg
  · rw [hfile]
    exact h.unused
  · rw [hfile]
    exact h.one
  · rw [hfile]
    exact h.ends
  · rw [hfile]
    exact h.gone

/-- Only slots change, and not what they say about pages and files. -/
theorem Inv.setProcs (h : Inv ld e args s) (hphys : k.phys = s.kernel.phys)
    (href : k.fileRef = s.kernel.fileRef)
    (hs : ∀ q, SameMem (s.kernel.proc q) (k.proc q)) (hof : ∀ q, (k.proc q).ofile = (s.kernel.proc q).ofile)
    (hlive : ∀ q, slotOf (k.proc q).state ≠ .live → ∀ i, (k.proc q).ofile i = none) :
    Inv ld e args { s with kernel := k } :=
  h.still ⟨rfl, rfl, rfl⟩ hs (fun _ => rfl) (by rw [hphys]) (by rw [hphys])
    (by rw [hphys]) (files_slots h.files href hof hlive)

/-! ## Closing a file -/

theorem proc_setTable {t : File.Table} (h : t.ofile = s.table.ofile) :
    (s.setTable t).kernel.proc = s.kernel.proc := by
  funext p
  simp only [Sys.setTable, h, Sys.table]

theorem fileclose_spec {f : Fin NFILE} (h : Inv ld e args s) (hpos : 0 < s.kernel.fileRef f) :
    Wp (fileclose f) s (fun _ s' => Inv ld (fun g => e g - File.tally (some f) g) args s' ∧
      s'.kernel.proc = s.kernel.proc ∧ s'.initproc = s.initproc ∧ ∀ g, g ≠ f →
      s'.kernel.fileRef g = s.kernel.fileRef g) fun _ => False := by
  unfold fileclose
  rw [wp_bind, wp_get]
  rw [wp_bind, wp_onTable]
  refine (File.fileclose_spec h.files hpos).post fun _ t ht => ?_
  obtain ⟨⟨hof, hproc⟩, hfile, hi, hpipe⟩ := ht
  -- only the page of the file's own pipe may be given up
  have hother : ∀ a, a ≠ (s.file f).pipe ∨ s.pipe a = none → t.pipe a = s.pipe a := by
    intro a ha
    rcases hpipe with e | ⟨⟨y, e⟩, hsome⟩
    · rw [e]
      rfl
    · have hne : a ≠ (s.file f).pipe := ha.elim id fun hn hp => by
        rw [show s.table.pipe (s.table.file f).pipe = none from hp ▸ hn] at hsome
        cases hsome
      rw [e]
      exact update_of_ne hne _ _
  have hrefs : ∀ g, g ≠ f → (s.setTable t).kernel.fileRef g = s.kernel.fileRef g := fun g hg =>
    congrArg File.ref (hfile g hg)
  rw [wp_bind, wp_get]
  split
  · rename_i hgone
    have hown : Own s args .pipe (s.file f).pipe := hgone.1
    have hpipes : ∀ a, (t.pipe a).isSome = true ↔ (s.pipe a).isSome = true ∧ a ≠ (s.file f).pipe := by
      intro a
      by_cases ha : a = (s.file f).pipe
      · rw [ha, show t.pipe (s.file f).pipe = none from hgone.2]
        simp
      · rw [hother a (.inl ha)]
        simp [ha]
    rw [wp_onKernel, wp_onPhys]
    refine (kfree_spec (h.part.own_pool _ _ hown)).post fun _ u hu => ⟨?_, proc_setTable hof, rfl, hrefs⟩
    obtain ⟨hl, hk, hm⟩ := hu
    exact kfree_move h (.inl rfl) ⟨rfl, rfl, rfl⟩ (fun q => ⟨Iff.rfl, rfl, rfl, rfl⟩)
      (fun e => absurd rfl e) (fun _ => rfl) (files_setTable hi hproc) hown hl hk hm hpipes
  · rename_i hkept
    rw [wp_pure]
    refine ⟨h.setTable hi hproc fun a => ?_, proc_setTable hof, rfl, hrefs⟩
    by_cases ha : a = (s.file f).pipe
    · rw [not_and] at hkept
      rw [ha]
      cases hp : (s.pipe (s.file f).pipe) with
      | none => rw [hother _ (.inr hp), hp]
      | some pi =>
        exact Option.isSome_iff_ne_none.2 (hkept (by rw [hp]; rfl))
    · rw [hother a (.inl ha)]

/-! ## Making a pipe -/

/-- What the functions of `file.c` leave alone. -/
structure Kept (s s' : Sys) : Prop where
  proc : s'.kernel.proc = s.kernel.proc
  initproc : s'.initproc = s.initproc

theorem filealloc_spec (h : Inv ld e args s) : Wp (onTable File.filealloc) s (fun r s' => Kept s s' ∧
    match r with
    | none => Inv ld e args s' ∧ s'.kernel.fileRef = s.kernel.fileRef
    | some f => Inv ld (fun g => e g + File.tally (some f) g) args s' ∧ s'.kernel.fileRef f = 1 ∧
      (s'.file f).type = .none ∧ s.kernel.fileRef f = 0 ∧ ∀ g, g ≠ f →
      s'.kernel.fileRef g = s.kernel.fileRef g ∧ (s'.file g).type = (s.file g).type)
    fun _ => False := by
  rw [wp_onTable]
  refine (File.filealloc_spec h.files).post fun r t ht => ?_
  obtain ⟨⟨hof, hproc⟩, hr⟩ := ht
  refine ⟨⟨proc_setTable hof, rfl⟩, ?_⟩
  cases r with
  | none =>
    exact ⟨h.setTable (hr ▸ h.files) hproc fun a => by rw [hr]; rfl, by rw [hr]; rfl⟩
  | some f =>
    obtain ⟨hi, href, htype, hold, hpipe, hother⟩ := hr
    exact ⟨h.setTable hi hproc fun a => by rw [hpipe]; rfl, href, htype, hold,
      fun g hg => ⟨congrArg File.ref (hother g hg), show (t.file g).type = _ by rw [hother g hg]; rfl⟩⟩

/-- `kalloc` has failed. -/
theorem Inv.refused (h : Inv ld e args s) (hm : t.mem = s.kernel.phys.mem)
    (hl : t.freelist = s.kernel.phys.freelist)
    (hk : t.kend = s.kernel.phys.kend) : Inv ld e args { s with kernel := { s.kernel with phys := t } } :=
  h.still ⟨rfl, rfl, rfl⟩ (fun _ => .refl _) (fun _ => rfl) hm hl hk h.files

theorem openEnds_spec {t : File.Table} {f0 f1 : Fin NFILE} {pi : Nat}
    {R : File.TablePanic → Prop} (h : File.Inv e t)
    (hne : f0 ≠ f1) (h0 : 0 < (t.file f0).ref ∧ (t.file f0).type = .none)
    (h1 : 0 < (t.file f1).ref ∧ (t.file f1).type = .none) (hpi : t.pipe pi = none) :
    Wp (openEnds f0 f1 pi) t (fun _ t' => File.Inv e t' ∧ File.Kept t t' ∧
      t'.pipe = update t.pipe pi (some File.newPipe) ∧ ∀ g, (t'.file g).ref = (t.file g).ref) R := by
  unfold openEnds File.setFile
  rw [wp_bind, wp_modify, wp_bind, wp_get, wp_bind, wp_modify, wp_bind, wp_get, wp_modify]
  obtain ⟨hi, hrefs⟩ := h.newPipe hne h0 h1 hpi
  exact ⟨hi, ⟨rfl, rfl⟩, rfl, hrefs⟩

theorem pipealloc_spec (h : Inv ld e args s) : Wp pipealloc s (fun r s' => Kept s s' ∧
    match r with
    | none => Inv ld e args s'
    | some (f0, f1) =>
      Inv ld (fun g => e g + File.tally (some f0) g + File.tally (some f1) g) args s' ∧ f0 ≠ f1 ∧
      0 < s'.kernel.fileRef f0 ∧ 0 < s'.kernel.fileRef f1) fun _ => False := by
  unfold pipealloc
  refine (filealloc_spec h).bind fun r0 s0 hr0 => ?_
  cases r0 with
  | none => exact (wp_pure _).2 ⟨hr0.1, hr0.2.1⟩
  | some f0 =>
    obtain ⟨hk0, hi0, href0, htype0, -, -⟩ := hr0
    refine (filealloc_spec hi0).bind fun r1 s1 hr1 => ?_
    cases r1 with
    | none =>
      obtain ⟨hk1, hi1, href1⟩ := hr1
      refine (fileclose_spec hi1 (by rw [href1, href0]; decide)).bind fun _ t ht => ?_
      refine (wp_pure _).2
        ⟨⟨ht.2.1.trans (hk1.proc.trans hk0.proc), ht.2.2.1.trans (hk1.initproc.trans hk0.initproc)⟩, ?_⟩
      exact ht.1.congr fun g => by omega
    | some f1 =>
      obtain ⟨hk1, hi1, href1, htype1, hold1, hother1⟩ := hr1
      have hne : f0 ≠ f1 := by
        intro e
        rw [← e, href0] at hold1
        cases hold1
      obtain ⟨href01, htype01⟩ := hother1 f0 hne
      have hpos0 : 0 < s1.kernel.fileRef f0 := by
        rw [href01, href0]
        decide
      have hpos1 : 0 < s1.kernel.fileRef f1 := by
        rw [href1]
        decide
      have hkept : Kept s s1 := ⟨hk1.proc.trans hk0.proc, hk1.initproc.trans hk0.initproc⟩
      rw [wp_bind, wp_onKernel, wp_onPhys]
      refine (kalloc_spec _).post fun r t hr => ?_
      cases hr with
      | none hm hl hk =>
        have hi2 := hi1.refused hm hl hk
        rw [if_pos rfl]
        refine (fileclose_spec hi2 hpos0).bind fun _ u hu => ?_
        refine (fileclose_spec hu.1 (by rw [hu.2.2.2 f1 (Ne.symm hne)]; exact hpos1)).bind fun _ v hv => ?_
        refine (wp_pure _).2
          ⟨⟨hv.2.1.trans (hu.2.1.trans hkept.proc), hv.2.2.1.trans (hu.2.2.1.trans hkept.initproc)⟩, ?_⟩
        exact hv.1.congr fun g => by omega
      | page hl hk hm =>
        have g : Taken s1.kernel.phys t r := ⟨hl, hk, hm⟩
        have hfree : s1.pipe r = none := by
          by_contra hno
          exact hi1.part.apart .pipe r (Option.isSome_iff_ne_none.2 hno) g.mem_free
        rw [if_neg (g.ne_zero hi1.free), wp_bind, wp_onTable]
        refine (openEnds_spec hi1.files hne ⟨hpos0, htype01.trans htype0⟩ ⟨hpos1, htype1⟩ hfree).post
          fun _ u hu => ?_
        obtain ⟨hu, ⟨hof, hproc⟩, hpipe, hrefs⟩ := hu
        have hrefs : ∀ g, (u.file g).ref = s1.kernel.fileRef g := hrefs
        rw [wp_pure]
        refine ⟨⟨(proc_setTable hof).trans hkept.proc, hkept.initproc⟩, ?_, hne,
          hpos0.trans_eq (hrefs f0).symm, hpos1.trans_eq (hrefs f1).symm⟩
        refine kalloc_move hi1 (.inl rfl) ⟨rfl, rfl, rfl⟩ (fun q => ⟨Iff.rfl, rfl, rfl, rfl⟩)
          (fun e => absurd rfl e) (fun _ => rfl) (files_setTable hu hproc) g fun a => ?_
        show (u.pipe a).isSome = true ↔ (s1.pipe a).isSome = true ∨ a = r
        rw [hpipe]
        by_cases ha : a = r
        · rw [ha, update_self]
          simp
        · rw [update_of_ne ha]
          simp [ha, Sys.table]

end Xv6.Image
