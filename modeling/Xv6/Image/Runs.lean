import Xv6.Image.Pages

/-!
# Page ownership in every run (`kernel/main.c`, `kernel/kalloc.c`)

The system calls of all processes, in any order, with any calls of `kalloc`
failing.

* `inv_op`: a call keeps the invariant and does not panic.
* `page_owner`: between the calls, every page that `kinit` has freed is on the
  free list once or has exactly one owner, and no two processes share memory.
-/
namespace Xv6.Image
open Function (update update_of_ne update_self)
open Xv6.Proc (PState)
open Xv6.Vm hiding growproc growproc_spec

variable {ld : Link} {s s' : Sys}

/-! ## Runs -/

/-- When `userinit` has returned: one process, and every page that `kinit`
has freed is free or has an owner. -/
structure Booted (ld : Link) (s : Sys) : Prop where
  file : ∀ f, s.kernel.fileRef f = 0 ∧ (s.file f).type = .none
  pipe : ∀ a, s.pipe a = none
  ofile : ∀ p i, (s.kernel.proc p).ofile i = none
  proc : ∀ p, (s.kernel.proc p).state = if p = s.initproc then .runnable else .unused
  clean : ∀ p, p ≠ s.initproc → (s.kernel.proc p).sz = 0 ∧ (s.kernel.proc p).pagetable = 0
  memory : Memory ld s.kernel.phys (s.kernel.proc s.initproc) (s.kernel.proc s.initproc).npages
  kernel : Table s.kernel.phys s.kpgtbl
  free : FreeOk s.kernel.phys
  part : Partition (KPage s.kernel.phys) (· ∈ s.kernel.phys.freelist) (Own s [])

/-- The caller runs; `refuse` says which calls of `kalloc` fail. -/
def sysLts (ld : Link) : LTS Sys (Op × List Bool) where
  init := Booted ld
  step s l s' := slotOf (s.kernel.proc l.1.caller).state = .live ∧
    l.1.run ld (s.withRefuse l.2) = .ok ((), s')

/-- No file is open. -/
theorem files_closed (hfile : ∀ f, s.kernel.fileRef f = 0 ∧ (s.file f).type = .none)
    (hpipe : ∀ a, s.pipe a = none)
    (hofile : ∀ p i, (s.kernel.proc p).ofile i = none) : File.Inv 0 s.table := by
  have hend : ∀ f, File.endOf (s.table.file f) = none := fun f => File.endOf_none (by
    show (s.file f).type ≠ .pipe
    rw [(hfile f).2]
    decide)
  have hpipe : ∀ a, s.table.pipe a = none := hpipe
  refine ⟨fun f => ?_, fun f => ?_, fun f _ => (hfile f).2, fun x f g hf => ?_,
    fun pa pi hpi => ?_, fun pa pi hpi => ?_,
    fun pa w f _ => ?_, fun p fd _ => hofile p fd, fun pa => (Nat.zero_add _).symm⟩
  · have hz : File.refs s.table f = 0 := count_eq_zero.2 fun x => by simp [Sys.table, hofile]
    rw [hz]
    exact (hfile f).1
  · exact (hfile f).1.ge
  · rw [hend] at hf
    cases hf
  · rw [hpipe] at hpi
    cases hpi
  · rw [hpipe] at hpi
    cases hpi
  · rw [hend]
    simp

theorem Booted.inv (h : Booted ld s) : Inv ld 0 [] s := by
  refine ⟨files_closed h.file h.pipe h.ofile, fun p hp => ?_, fun p hp => ?_, h.kernel, h.free, h.part⟩
  · refine h.clean p fun e => ?_
    rw [h.proc, if_pos e] at hp
    cases hp
  · have e : p = s.initproc := by
      by_contra e
      rw [h.proc, if_neg e] at hp
      exact hp rfl
    rw [e]
    exact h.memory

theorem Inv.withRefuse (h : Inv ld e args s) (refuse : List Bool) :
    Inv ld e args (s.withRefuse refuse) := h.refused rfl rfl rfl

/-- A call keeps the invariant; only `init` may not exit. -/
theorem inv_op (h : Inv ld 0 [] s) (op : Op) (hlive : slotOf (s.kernel.proc op.caller).state = .live) :
    Wp (op.run ld) s (fun _ s' => Inv ld 0 [] s') fun _ => ∃ status, op = .exit s.initproc status := by
  have hu := live_ne_unused hlive
  -- a call whose outcome is not used
  have hcall : ∀ {α : Type} (m : K α),
    Wp m s.kernel (fun _ k => Inv ld 0 [] { s with kernel := k }) (fun _ => False) →
      Wp (do let _ ← onKernel m) s (fun _ s' => Inv ld 0 [] s') fun _ => ∃ status,
      op = .exit s.initproc status := by
    intro α m hm
    rw [wp_bind, wp_onKernel]
    exact hm.mono (fun _ _ hk => (wp_pure _).2 hk) fun _ => False.elim
  cases op with
  | fork p => exact hcall _ (fork_inv h hu)
  | exec p upath uargv ip => exact hcall _ (sysExec_inv h hu upath uargv ip)
  | sbrk p n => exact hcall _ (growproc_inv h hu n.le_toInt n.toInt_lt)
  | exit p status =>
    refine (exit_inv h hu status).panics fun _ hx => ⟨status, ?_⟩
    rw [show p = s.initproc from hx.1]
  | wait p addr => exact hcall _ (wait_inv h hu addr)
  | pipe p fdarray =>
    refine Wp.bind ((sysPipe_inv h hlive fdarray).never) fun _ _ hs => (wp_pure _).2 hs
  | close p fd =>
    refine Wp.bind ((sysClose_inv h fd).never) fun _ _ hs => (wp_pure _).2 hs
  | store p va b =>
    refine (wp_onKernel _).2 ((storeByte_inv h hu va b).never)

theorem inv_inductive (ld : Link) : (sysLts ld).Inductive (Inv ld 0 []) :=
  ⟨fun _ h => h.inv, fun _ l _ h hs => (inv_op (h.withRefuse l.2) l.1 hs.1).of_ok hs.2⟩

/-! ## Owners of a page -/

/-- Who may own a page: a leaf PTE below the trapframe (of user memory or of
the guard page), a page of a page table by its path from the root, and so on. -/
inductive PageOwner where
  | leaf (p : Fin NPROC) (va : Nat)
  | node (p : Fin NPROC) (path : List (Fin 512))
  | trapframe (p : Fin NPROC)
  | kernelNode (path : List (Fin 512))
  | kstack (p : Fin NPROC)
  | pipe (pi : Nat)
  | disk (i : Fin 3)

/-- `o` owns the page at `a`. -/
def Owns (s : Sys) (o : PageOwner) (a : Nat) : Prop :=
  match o with
  | .leaf p va => (s.kernel.proc p).state ≠ .unused ∧ va % PGSIZE = 0 ∧ va < TRAPFRAME ∧
      leafPte s.kernel.phys (s.kernel.proc p).pagetable va &&& PTE_V ≠ 0 ∧
      pte2pa (leafPte s.kernel.phys (s.kernel.proc p).pagetable va) = a
  | .node p path => (s.kernel.proc p).state ≠ .unused ∧ path.length ≤ 2 ∧
      descend s.kernel.phys.child (s.kernel.proc p).pagetable path = some a
  | .trapframe p => (s.kernel.proc p).state ≠ .unused ∧ (s.kernel.proc p).trapframe = a
  | .kernelNode path => path.length ≤ 2 ∧ descend s.kernel.phys.child s.kpgtbl path = some a
  | .kstack p => s.kstack p = a
  | .pipe pi => (s.pipe pi).isSome ∧ pi = a
  | .disk i => s.disk i = a

def PageOwner.party : PageOwner → Owner
  | .leaf p _ => .proc p
  | .node p _ => .proc p
  | .trapframe p => .proc p
  | .kernelNode _ => .kernel
  | .kstack p => .kstack p
  | .pipe _ => .pipe
  | .disk i => .disk i

variable {e : Fin NFILE → Int} {args : List Nat} {a : Nat}

variable {va : Nat} {o : PageOwner} {p : Fin NPROC} {path : List (Fin 512)}

/-- A leaf PTE below the trapframe is one of user memory. -/
theorem Memory.leaf_user {t : Phys} {x : Proc} {n : Nat} (h : Memory ld t x n) (hv : va < TRAPFRAME) :
    leafPte t x.pagetable va = leaf t x.pagetable va ∧
    (leaf t x.pagetable va &&& PTE_V ≠ 0 ↔ va < n * PGSIZE) :=
  ⟨leafPte_eq h.space.table h.space.free (by simp only [TRAPFRAME_eq, MAXVA_eq] at *; omega),
    h.space.mapped va hv⟩

section
variable (h : Inv ld e args s)
include h

theorem Owns.own (ho : Owns s o a) : Own s args o.party a := by
  cases o with
  | leaf p va =>
    obtain ⟨hu, -, hv, hV, rfl⟩ := ho
    obtain ⟨hleaf, hmap⟩ := (h.memory p hu).leaf_user hv
    rw [hleaf] at hV ⊢
    exact ⟨hu, .inl (.inr (page_mem (hmap.1 hV)))⟩
  | node p path => exact ⟨ho.1, .inl (.inl ⟨path, ho.2⟩)⟩
  | trapframe p => exact ⟨ho.1, .inr ho.2.symm⟩
  | kernelNode path => exact ⟨path, ho⟩
  | kstack p => exact Eq.symm ho
  | pipe pi => exact ho.2 ▸ ho.1
  | disk i => exact Eq.symm ho

/-- A page of user memory is no page of the table and not the trapframe. -/
theorem leaf_apart (ho : Owns s (.leaf p va) a) :
    (∀ path, ¬Owns s (.node p path) a) ∧ ¬Owns s (.trapframe p) a := by
  obtain ⟨hu, -, hv, hV, rfl⟩ := ho
  have hm := h.memory p hu
  obtain ⟨hleaf, hmap⟩ := hm.leaf_user hv
  rw [hleaf] at hV ⊢
  have hpage : pte2pa (leaf s.kernel.phys (s.kernel.proc p).pagetable va) ∈
      pagesOf s.kernel.phys (s.kernel.proc p).pagetable 0 (s.kernel.proc p).npages := page_mem (hmap.1 hV)
  refine ⟨fun path hn => (hm.space.pages.2 _ hpage).2.1 ⟨path, hn.2⟩, fun ht => hm.apart ?_⟩
  rw [ht.2]
  exact .inr (.inr hpage)

theorem node_apart (ho : Owns s (.node p path) a) :
    ¬Owns s (.trapframe p) a := by
  intro ht
  refine (h.memory p ho.1).apart ?_
  rw [ht.2]
  exact .inl ⟨path, ho.2⟩

theorem leaf_uniq {vb : Nat} (ho : Owns s (.leaf p va) a) (ho' : Owns s (.leaf p vb) a) :
    va = vb := by
  obtain ⟨hu, ha, hv, hV, e⟩ := ho
  obtain ⟨-, hb, hv', hV', e'⟩ := ho'
  have hm := h.memory p hu
  obtain ⟨hleaf, hmap⟩ := hm.leaf_user hv
  obtain ⟨hleaf', hmap'⟩ := hm.leaf_user hv'
  rw [hleaf] at hV e
  rw [hleaf'] at hV' e'
  have hdiv := hm.space.page_inj (hmap.1 hV) (hmap'.1 hV') (e.trans e'.symm)
  simp only [PGSIZE] at ha hb hdiv
  omega

/-- A page has one owner. -/
theorem Owns.uniq {o' : PageOwner} (ho : Owns s o a) (ho' : Owns s o' a) : o = o' := by
  have hparty := h.part.uniq _ _ a (ho.own h) (ho'.own h)
  cases o <;> cases o' <;> simp only [PageOwner.party, Owner.proc.injEq, Owner.kstack.injEq, Owner.disk.injEq,
    reduceCtorEq] at hparty
  -- what is left: two owners of one process, or two of the same kind
  all_goals try subst hparty
  · rw [leaf_uniq h ho ho']
  · exact absurd ho' ((leaf_apart h ho).1 _)
  · exact absurd ho' (leaf_apart h ho).2
  · exact absurd ho ((leaf_apart h ho').1 _)
  · rw [(h.memory _ ho.1).space.table.shape _ _ a ho.2.1 ho'.2.1 ho.2.2 ho'.2.2]
  · exact absurd ho' (node_apart h ho)
  · exact absurd ho (leaf_apart h ho').2
  · exact absurd ho (node_apart h ho')
  · rfl
  · rw [h.kernel.shape _ _ a ho.1 ho'.1 ho.2 ho'.2]
  · rfl
  · rw [ho.2, ho'.2]
  · rfl

end

theorem Own.owns (h : Inv ld e [] s) {o : Owner} (ho : Own s [] o a) : ∃ o', Owns s o' a := by
  cases o with
  | proc p =>
    obtain ⟨hu, (⟨path, hp⟩ | hp) | hp⟩ := ho
    · exact ⟨.node p path, hu, hp⟩
    · have hm := h.memory p hu
      obtain ⟨j, hj, rfl⟩ := mem_pagesOf.1 hp
      have hva : j * PGSIZE < (s.kernel.proc p).npages * PGSIZE := Nat.mul_lt_mul_of_pos_right hj (by decide)
      have hlow : j * PGSIZE < TRAPFRAME :=
        Nat.lt_trans hva (Nat.lt_of_lt_of_le (Nat.lt_add_of_pos_right (by decide)) hm.space.low)
      obtain ⟨hleaf, hmap⟩ := hm.leaf_user hlow
      refine ⟨.leaf p (j * PGSIZE), hu, Nat.mul_mod_left _ _, hlow, ?_, ?_⟩
      · rw [hleaf]
        exact hmap.2 hva
      · rw [hleaf, Nat.zero_add]
    · exact ⟨.trapframe p, hu, hp.symm⟩
  | kernel =>
    obtain ⟨path, hp⟩ := ho
    exact ⟨.kernelNode path, hp⟩
  | kstack p => exact ⟨.kstack p, Eq.symm ho⟩
  | disk i => exact ⟨.disk i, Eq.symm ho⟩
  | pipe => exact ⟨.pipe a, ho, rfl⟩
  | args => cases ho

/-! ## A small machine -/

/-- The `j`-th page of a machine whose kernel ends 96 pages below `PHYSTOP`. -/
def smallPage (j : Nat) : Nat := 0x87FA0000 + PGSIZE * j

/-- Before `userinit`: the kernel has the first 68 pages, the others are free. -/
def small : Sys where
  kernel := { boot with
    phys := ⟨fun _ => Bytes.zero, (List.range 28).map fun j => smallPage (68 + j), [], smallPage 0⟩ }
  file _ := ⟨.none, 0, false, false, 0, ⟨0, Fs.NINODE_pos⟩, 0, 0⟩
  pipe _ := none
  initproc := slot0
  kpgtbl := smallPage 0
  kstack p := smallPage (1 + p)
  disk i := smallPage (65 + i)

theorem kpage_small : KPage small.kernel.phys a ↔ ∃ j, j < 96 ∧ a = smallPage j := by
  show a % PGSIZE = 0 ∧ smallPage 0 ≤ a ∧ a < PHYSTOP ↔ _
  unfold smallPage
  simp only [PGSIZE, PHYSTOP_eq]
  constructor
  · rintro ⟨h1, h2, h3⟩
    exact ⟨(a - 0x87FA0000) / 4096, by omega, by omega⟩
  · rintro ⟨j, hj, rfl⟩
    omega

theorem smallPage_inj {i j : Nat} (h : smallPage i = smallPage j) : i = j := by
  unfold smallPage at h
  simp only [PGSIZE] at h
  omega

theorem free_small : a ∈ small.kernel.phys.freelist ↔ ∃ j, 68 ≤ j ∧ j < 96 ∧ a = smallPage j := by
  show a ∈ (List.range 28).map (fun j => smallPage (68 + j)) ↔ _
  rw [List.mem_map]
  constructor
  · rintro ⟨j, hj, rfl⟩
    exact ⟨68 + j, by omega, by rw [List.mem_range] at hj; omega, rfl⟩
  · rintro ⟨j, h1, h2, rfl⟩
    exact ⟨j - 68, List.mem_range.2 (by omega), by rw [show 68 + (j - 68) = j by omega]⟩

theorem word_small (a : Nat) : small.kernel.phys.word a = 0 := Bytes.getLE_zero _ _

theorem child_small (a : Nat) (i : Fin 512) : small.kernel.phys.child a i = none := by
  unfold Phys.child
  rw [word_small]
  rfl

theorem descend_small (h : descend small.kernel.phys.child small.kpgtbl path = some a) :
    path = [] ∧ a = smallPage 0 := by
  cases path with
  | nil => exact ⟨rfl, (Option.some.inj h).symm⟩
  | cons i path =>
    rw [descend, child_small] at h
    cases h

theorem table_small : Table small.kernel.phys small.kpgtbl := by
  have hnode : ∀ a, Node small.kernel.phys small.kpgtbl a → a = smallPage 0 :=
    fun a ⟨_, _, h⟩ => (descend_small h).2
  refine ⟨fun p q a _ _ hp hq => ?_, fun a ha => ?_, fun a ha hf => ?_,
    fun p i _ hV => ?_, fun a _ i hV => ?_, fun i _ => child_small _ _⟩
  · rw [(descend_small hp).1, (descend_small hq).1]
  · exact kpage_small.2 ⟨0, by decide, hnode a ha⟩
  · obtain ⟨j, h1, -, e⟩ := free_small.1 hf
    rw [hnode a ha] at e
    have := smallPage_inj e
    omega
  · unfold Phys.leafAt at hV
    split at hV
    · rw [word_small] at hV
      exact absurd rfl hV
    · exact absurd rfl hV
  · rw [word_small] at hV
    exact absurd rfl hV

/-- The number of the page that an owner has. -/
theorem own_small {o : Owner} (h : Own small [] o a) :
    o = .kernel ∧ a = smallPage 0 ∨ (∃ p, o = .kstack p ∧ a = smallPage (1 + p)) ∨ ∃ i, o = .disk i ∧
    a = smallPage (65 + i) := by
  cases o with
  | proc p => exact absurd rfl h.1
  | kernel =>
    obtain ⟨path, -, hp⟩ := h
    exact .inl ⟨rfl, (descend_small hp).2⟩
  | kstack p => exact .inr (.inl ⟨p, rfl, h⟩)
  | disk i => exact .inr (.inr ⟨i, rfl, h⟩)
  | pipe | args => cases h

theorem part_small : Partition (KPage small.kernel.phys) (· ∈ small.kernel.phys.freelist) (Own small []) := by
  have hidx : ∀ o a, Own small [] o a → ∃ j, j < 68 ∧ a = smallPage j := by
    intro o a h
    rcases own_small h with ⟨-, e⟩ | ⟨p, -, e⟩ | ⟨i, -, e⟩
    · exact ⟨0, by decide, e⟩
    · exact ⟨1 + p, by have := p.isLt; simp only [NPROC] at this; omega, e⟩
    · exact ⟨65 + i, by have := i.isLt; omega, e⟩
  refine ⟨fun a ha => ?_, fun o a ha => ?_, fun o a ha hf => ?_, fun o o' a ha ha' => ?_, fun a ha => ?_⟩
  · obtain ⟨j, -, hj, e⟩ := free_small.1 ha
    exact kpage_small.2 ⟨j, hj, e⟩
  · obtain ⟨j, hj, e⟩ := hidx o a ha
    exact kpage_small.2 ⟨j, by omega, e⟩
  · obtain ⟨j, hj, e⟩ := hidx o a ha
    obtain ⟨i, hi, -, e'⟩ := free_small.1 hf
    have := smallPage_inj (e.symm.trans e')
    omega
  · rcases own_small ha with ⟨rfl, e⟩ | ⟨p, rfl, e⟩ | ⟨i, rfl, e⟩ <;>
      rcases own_small ha' with ⟨rfl, e'⟩ | ⟨q, rfl, e'⟩ | ⟨j, rfl, e'⟩ <;>
      have hij := smallPage_inj (e.symm.trans e')
    · rfl
    · omega
    · omega
    · omega
    · rw [Fin.ext (show p.1 = q.1 by omega)]
    · have := p.isLt
      simp only [NPROC] at this
      omega
    · omega
    · have := q.isLt
      simp only [NPROC] at this
      omega
    · rw [Fin.ext (show i.1 = j.1 by omega)]
  · obtain ⟨j, hj, rfl⟩ := kpage_small.1 ha
    by_cases h0 : j = 0
    · rw [h0]
      exact .inr ⟨.kernel, reached_root _ _ _⟩
    by_cases h1 : j < 65
    · refine .inr ⟨.kstack ⟨j - 1, by simp only [NPROC]; omega⟩, ?_⟩
      show smallPage j = smallPage (1 + (j - 1))
      rw [show 1 + (j - 1) = j by omega]
    by_cases h2 : j < 68
    · refine .inr ⟨.disk ⟨j - 65, by omega⟩, ?_⟩
      show smallPage j = smallPage (65 + (j - 65))
      rw [show 65 + (j - 65) = j by omega]
    · exact .inl (free_small.2 ⟨j, by omega, hj, rfl⟩)

theorem inv_small : Inv bootLink 0 [] small := by
  refine ⟨files_closed (fun _ => ⟨rfl, rfl⟩) (fun _ => rfl) fun _ _ => rfl, fun _ _ => ⟨rfl, rfl⟩,
    fun _ h => absurd rfl h, table_small, ⟨?_, ?_, fun a ha => ?_⟩, part_small⟩
  · show 0 < smallPage 0
    decide
  · refine List.Nodup.map (fun i j e => ?_) List.nodup_range
    have := smallPage_inj e
    omega
  · obtain ⟨j, -, hj, e⟩ := free_small.1 ha
    exact kpage_small.2 ⟨j, hj, e⟩

/-- The first process of the small machine. -/
def smallInit : K (Option (Fin NPROC)) := do
  let p ← allocproc bootLink
  let _ ← growproc slot0 4096
  setProc slot0 fun x => { x with state := .runnable }
  pure p

theorem booted_small : ∃ k, smallInit small.kernel = .ok (some slot0, k) ∧
    Booted bootLink { small with kernel := k } := by
  have hslot : (match allocproc bootLink small.kernel with
      | .ok (r, _) => r
      | .error _ => none) = some slot0 := by decide +kernel
  have hspec : Wp (allocproc bootLink) small.kernel _ _ :=
    allocproc_spec inv_small.free fun q hq => inv_small.idle hq
  obtain ⟨r, k1, h1, hr⟩ := hspec.returns
  rw [h1] at hslot
  subst hslot
  obtain ⟨t, tf, pt, hmade⟩ := hr
  have hnb := hmade.made.newborn inv_small.free hmade.taken hmade.high
  have hproc1 : k1.proc = update small.kernel.proc slot0
      ((small.kernel.proc slot0).fresh bootLink 1 tf pt) := by
    rw [hmade.rest]
    rfl
  have hn0 : ((small.kernel.proc slot0).fresh bootLink 1 tf pt).npages = 0 := by
    show (0 + (PGSIZE - 1)) / PGSIZE = 0
    decide
  have hi1 : Inv bootLink 0 [] { small with kernel := k1 } :=
    inv_small.newborn rfl hproc1 (show PState.used ≠ .unused by decide) (by rw [hn0]; exact hnb)
      (files_process inv_small.files hproc1 (by rw [hmade.rest]) rfl fun h => absurd rfl h)
  have hslot1 : k1.proc slot0 = (small.kernel.proc slot0).fresh bootLink 1 tf pt := by
    rw [hproc1]
    exact update_self _ _ _
  have hu1 : (k1.proc slot0).state ≠ .unused := by
    rw [hslot1]
    show PState.used ≠ .unused
    decide
  obtain ⟨r, k2, h2, hi2, n', sz, t', -, -, hk2⟩ :=
    ((growproc_inv (n := 4096) hi1 hu1 (by decide) (by decide)).and
    (growproc_spec (hi1.memory slot0 hu1) (by decide) (by decide))).returns
  have hslot2 : k2.proc = update k1.proc slot0 { k1.proc slot0 with sz := sz } := by rw [hk2]
  have hu2 : (k2.proc slot0).state ≠ .unused := by
    rw [hslot2, update_self]
    exact hu1
  have hi3 := ((wp_setProc _ _).1 (setProc_inv hi2 (p := slot0) (f := fun x => { x with state := .runnable })
    ⟨iff_of_false (by simp) hu2, rfl, rfl, rfl⟩ rfl fun h => absurd rfl h)).1
  refine ⟨_, (bind_ok h1).trans ((bind_ok h2).trans rfl), ?_⟩
  -- only the first slot differs from the machine before `userinit`
  have hother : ∀ p, p ≠ slot0 → k2.proc p = small.kernel.proc p := by
    intro p hp
    rw [hslot2, update_of_ne hp, hproc1, update_of_ne hp]
  have href : k2.fileRef = small.kernel.fileRef := by rw [hk2, hmade.rest]
  have hofile : ∀ i, (k2.proc slot0).ofile i = none := by
    intro i
    rw [hslot2, update_self, hslot1]
    rfl
  refine ⟨fun f => ⟨congrFun href f, rfl⟩, fun _ => rfl, fun p i => ?_, fun p => ?_, fun p hp => ?_, ?_,
    hi3.kernel, hi3.free, hi3.part⟩
  · dsimp only
    by_cases e : p = slot0
    · rw [e, update_self]
      exact hofile i
    · rw [update_of_ne e, hother p e]
      rfl
  · show (update k2.proc slot0 _ p).state = if p = slot0 then .runnable else .unused
    by_cases e : p = slot0
    · rw [if_pos e, e, update_self]
    · rw [if_neg e, update_of_ne e, hother p e]
      rfl
  · have hp : p ≠ slot0 := hp
    dsimp only
    rw [update_of_ne hp, hother p hp]
    exact ⟨rfl, rfl⟩
  · refine hi3.memory slot0 ?_
    dsimp only
    rw [update_self]
    simp

/-! ## Every run -/

/-- **Every page has one owner.** In every state that the system calls lead
to, whichever calls of `kalloc` fail, a page between the end of the kernel and
`PHYSTOP` is on the free list once and has no owner, or is not on it and has
exactly one; no two processes have a page of user memory in common; and the
next call will not panic, unless `init` exits. -/
theorem page_owner (ld : Link) (s : Sys) (hs : (sysLts ld).Reachable s) :
    (∀ a, a % PGSIZE = 0 → s.kernel.phys.kend ≤ a → a < PHYSTOP →
      s.kernel.phys.freelist.count a = 1 ∧ (∀ o, ¬Owns s o a) ∨
      s.kernel.phys.freelist.count a = 0 ∧ ∃ o, Owns s o a ∧ ∀ o', Owns s o' a → o' = o) ∧
    (∀ p q va vb, p ≠ q → (s.kernel.proc p).state ≠ .unused → (s.kernel.proc q).state ≠ .unused →
      Accessible s.kernel.phys (s.kernel.proc p).pagetable va →
      Accessible s.kernel.phys (s.kernel.proc q).pagetable vb →
      pte2pa (leafPte s.kernel.phys (s.kernel.proc p).pagetable va) ≠
        pte2pa (leafPte s.kernel.phys (s.kernel.proc q).pagetable vb)) ∧
    ∀ op refuse, slotOf (s.kernel.proc op.caller).state = .live → (∀ status, op ≠ .exit s.initproc status) →
      ∃ s', (sysLts ld).step s (op, refuse) s' := by
  have h : Inv ld 0 [] s := (inv_inductive ld).reachable hs
  refine ⟨fun a h1 h2 h3 => ?_, fun p q va vb hne hp hq ha hb e => ?_, fun op refuse hlive hinit => ?_⟩
  · rcases h.part.exactly_one ⟨h1, h2, h3⟩ with ⟨hf, hno⟩ | ⟨hf, o, ho, -⟩
    · exact .inl ⟨List.count_eq_one_of_mem h.free.nodup hf, fun o ho => hno _ (ho.own h)⟩
    · obtain ⟨o', ho'⟩ := ho.owns h
      exact .inr ⟨List.count_eq_zero_of_not_mem hf, o', ho', fun o2 ho2 => ho2.uniq h ho'⟩
  · have hpage : ∀ p va, (s.kernel.proc p).state ≠ .unused →
      Accessible s.kernel.phys (s.kernel.proc p).pagetable va →
        Own s [] (.proc p) (pte2pa (leafPte s.kernel.phys (s.kernel.proc p).pagetable va)) := by
      intro p va hp ha
      have hm := h.memory p hp
      obtain ⟨hv, he⟩ := hm.space.accessible hm.userTable.1 ha
      rw [he]
      exact ⟨hp, .inl (.inr (page_mem hv))⟩
    have := h.part.uniq _ _ _ (hpage p va hp ha) (e ▸ hpage q vb hq hb)
    simp only [Owner.proc.injEq] at this
    exact hne this
  · obtain ⟨r, s', hrun, -⟩ := ((inv_op (h.withRefuse refuse) op hlive).panics fun _ hx => by
      obtain ⟨status, e⟩ := hx
      exact hinit status e).returns
    exact ⟨s', hlive, hrun⟩

/-- The small machine, after its first process has forked. -/
theorem page_owner_small : ∃ s0 s1, Booted bootLink s0 ∧ (sysLts bootLink).Run s0 [(.fork slot0, [])] s1 ∧
    ∀ a, a % PGSIZE = 0 → s1.kernel.phys.kend ≤ a → a < PHYSTOP →
      s1.kernel.phys.freelist.count a = 1 ∧ (∀ o, ¬Owns s1 o a) ∨
      s1.kernel.phys.freelist.count a = 0 ∧ ∃ o, Owns s1 o a ∧ ∀ o', Owns s1 o' a → o' = o := by
  obtain ⟨k, -, hb⟩ := booted_small
  have hr0 : (sysLts bootLink).Reachable { small with kernel := k } := ⟨_, [], hb, .nil _⟩
  have hlive : slotOf (k.proc slot0).state = .live := by
    rw [show (k.proc slot0).state = _ from hb.proc slot0]
    rfl
  obtain ⟨s1, hstep⟩ := (page_owner bootLink _ hr0).2.2 (.fork slot0) [] hlive (by simp)
  exact ⟨_, s1, hb, .cons hstep (.nil s1), (page_owner bootLink s1 (hr0.step hstep)).1⟩

end Xv6.Image
