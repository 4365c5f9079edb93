import Xv6.Core.LTS
import Xv6.Vm.Map

/-!
# Every table the kernel builds is a finite map

A page table starts with `uvmcreate` and changes by `mappages` and
`uvmunmap`. In between the rest of the kernel allocates pages, writes the
pages it holds and frees them; other page tables are part of this rest.

* `table_reachable`: the table stays a tree of its own pages.
* `pagetable_refines`: in every such state `mappages` extends the map from
  pages to PTEs and `uvmunmap` clears a range of it.
-/
namespace Xv6.Vm

structure PtSys where
  phys : Phys
  pt : Nat
  /-- the pages the rest of the kernel got from `kalloc` and did not free -/
  held : List Nat

inductive PtLbl where
  | mappages (va size pa perm : Nat)
  | uvmunmap (va npages : Nat) (doFree : Bool)
  /-- an allocation by the rest of the kernel -/
  | kalloc
  | kfree (a : Nat)
  | write (a : Nat) (b : Page)

/-- Page-aligned, and every page of it mapped. -/
def MappedRange (σ : PtSys) (va npages : Nat) : Prop :=
  va % PGSIZE = 0 ∧ va + npages * PGSIZE ≤ MAXVA ∧
  ∀ j, j < npages → leafPte σ.phys σ.pt (va + j * PGSIZE) &&& PTE_V ≠ 0

/-- With `do_free` the mapped pages are pages from `kalloc`, each once. -/
def FreesHeld (σ : PtSys) (va npages : Nat) (doFree : Bool) : Prop :=
  doFree = true → (pagesOf σ.phys σ.pt va npages).Nodup ∧ ∀ x ∈ pagesOf σ.phys σ.pt va npages, x ∈ σ.held

/-- A call as its caller may make it. `mappages` may also run into its
range's end or into a mapped page; it then panics and there is no next
state. -/
def ptStep (σ : PtSys) (l : PtLbl) (σ' : PtSys) : Prop :=
  match l with
  | .mappages va size pa perm => pa < 2 ^ 64 ∧ PermOk perm ∧
    ∃ r s', mappages σ.pt va size pa perm σ.phys = .ok (r, s') ∧ σ' = { σ with phys := s' }
  | .uvmunmap va npages doFree => MappedRange σ va npages ∧ FreesHeld σ va npages doFree ∧
    ∃ s', uvmunmap σ.pt va npages doFree σ.phys = .ok ((), s') ∧
      σ' = { σ with
        phys := s'
        held := if doFree then σ.held.filter (· ∉ pagesOf σ.phys σ.pt va npages) else σ.held }
  | .kalloc => ∃ r s', kalloc σ.phys = .ok (r, s') ∧
    σ' = { σ with phys := s', held := if r = 0 then σ.held else r :: σ.held }
  | .kfree a => a ∈ σ.held ∧ ∃ s', kfree a σ.phys = .ok ((), s') ∧
    σ' = { σ with phys := s', held := σ.held.filter (· ≠ a) }
  | .write a b => a ∈ σ.held ∧ σ' = { σ with phys := σ.phys.setPage a b }

/-- A fresh table, from any state of the allocator. -/
def ptInit (σ : PtSys) : Prop :=
  ∃ s0, FreeOk s0 ∧ uvmcreate s0 = .ok (σ.pt, σ.phys) ∧ σ.pt ≠ 0 ∧
    ∀ a ∈ σ.held, KPage s0 a ∧ a ∉ s0.freelist

def ptLts : LTS PtSys PtLbl where
  init := ptInit
  step := ptStep

/-! ## The invariant -/

structure PtInv (σ : PtSys) : Prop where
  table : Table σ.phys σ.pt
  free : FreeOk σ.phys
  held : ∀ a ∈ σ.held, KPage σ.phys a ∧ ¬Node σ.phys σ.pt a ∧ a ∉ σ.phys.freelist

variable {σ : PtSys} {s' : Phys} {va npages size : Nat} {doFree : Bool}

theorem ptInv_init (h : ptInit σ) : PtInv σ := by
  obtain ⟨s0, hf, hrun, hne, hheld⟩ := h
  have hspec := (uvmcreate_spec hf (R := fun _ => False)).of_ok hrun
  obtain ⟨hf', hk, hcase⟩ := hspec
  rcases hcase with ⟨e, -⟩ | ⟨-, hl, htab, hnode, -⟩
  · exact absurd e hne
  refine ⟨htab, hf', fun a ha => ?_⟩
  obtain ⟨⟨h1, h2, h3⟩, h4⟩ := hheld a ha
  rw [hl, List.mem_cons, not_or] at h4
  exact ⟨⟨h1, by rw [hk]; exact h2, h3⟩, fun e => h4.1 ((hnode a).1 e), h4.2⟩

/-- A change that keeps the table keeps the invariant. -/
theorem PtInv.of_keeps (h : PtInv σ) (hk : Keeps σ.pt σ.phys s') :
    PtInv { σ with phys := s' } := by
  refine ⟨hk.table, hk.free, fun a ha => ?_⟩
  obtain ⟨⟨h1, h2, h3⟩, h4, h5⟩ := h.held a ha
  exact ⟨⟨h1, by rw [hk.kend]; exact h2, h3⟩, hk.neither h4 h5⟩

theorem MappedRange.leaf (h : PtInv σ) (hm : MappedRange σ va npages) :
    ∀ j, j < npages → leaf σ.phys σ.pt (va + j * PGSIZE) &&& PTE_V ≠ 0 := by
  intro j hj
  have hlt : va + j * PGSIZE < MAXVA := by
    have := hm.2.1
    simp only [PGSIZE] at *; omega
  rw [← leafPte_eq h.table h.free hlt]
  exact hm.2.2 j hj

theorem FreesHeld.canFree (h : PtInv σ)
    (hfr : FreesHeld σ va npages doFree) :
    doFree = true → CanFree σ.phys σ.pt (pagesOf σ.phys σ.pt va npages) :=
  fun hd => ⟨(hfr hd).1, fun x hx => h.held x ((hfr hd).2 x hx)⟩

theorem PtInv.of_unmaps (h : PtInv σ)
    (hu : Unmaps σ.phys s' σ.pt va npages doFree) :
    PtInv { σ with
      phys := s'
      held := if doFree then σ.held.filter (· ∉ pagesOf σ.phys σ.pt va npages) else σ.held } := by
  refine ⟨hu.table, hu.free, fun a ha => ?_⟩
  have hmem : a ∈ σ.held ∧ (doFree = true → a ∉ pagesOf σ.phys σ.pt va npages) := by
    cases doFree with
    | false => exact ⟨ha, fun e => by cases e⟩
    | true => simpa using ha
  obtain ⟨⟨h1, h2, h3⟩, h4, h5⟩ := h.held a hmem.1
  refine ⟨⟨h1, by rw [hu.kend]; exact h2, h3⟩, fun e => h4 ((hu.node a).1 e), fun e => ?_⟩
  rw [hu.list] at e
  cases doFree with
  | false => exact h5 e
  | true =>
    rcases List.mem_append.1 e with e | e
    · exact hmem.2 rfl (by simpa using e)
    · exact h5 e

theorem ptInv_step {σ' : PtSys} {l : PtLbl} (h : PtInv σ) (hs : ptStep σ l σ') : PtInv σ' := by
  cases l with
  | mappages va size pa perm =>
    obtain ⟨hpa, hp, r, s', hrun, rfl⟩ := hs
    apply h.of_keeps
    unfold mappages at hrun
    split at hrun
    · cases hrun
    · exact (mapLoop_keeps hp passes h.table h.free hpa).of_ok hrun
  | uvmunmap va npages doFree =>
    obtain ⟨hm, hfr, s', hrun, rfl⟩ := hs
    exact h.of_unmaps ((uvmunmap_spec h.table h.free hm.1 hm.2.1 (hm.leaf h) (hfr.canFree h)).of_ok hrun)
  | kalloc =>
    obtain ⟨r, s', hrun, rfl⟩ := hs
    have hk := (kalloc_spec σ.phys (R := fun _ => False)).of_ok hrun
    cases hk with
    | none hm hl hke => exact h.of_keeps (Keeps.of_same h.table h.free hm hl hke).1
    | page hl hke hm =>
      have hrf : r ∈ σ.phys.freelist := by rw [hl]; exact List.mem_cons_self
      have hrp := h.free.page r hrf
      have hrn : ¬Node σ.phys σ.pt r := fun e => h.table.used r e hrf
      have hnd := h.free.nodup
      rw [hl, List.nodup_cons] at hnd
      have hsub : ∀ a, a ∉ σ.phys.freelist → a ∉ s'.freelist := by
        intro a ha e; exact ha (by rw [hl]; exact List.mem_cons_of_mem _ e)
      have hsame := h.table.congr (t := s')
        (fun a ha => hm _ (page_ne (h.table.page a ha).1 hrp.1 (fun e => hrn (e ▸ ha)))) hke
        (fun a ha => hsub a (h.table.used a ha))
      refine ⟨hsame.table, h.free.tail hke hl, fun a ha => ?_⟩
      rw [if_neg (hrp.ne_zero h.free)] at ha
      rcases List.mem_cons.1 ha with e | ha
      · rw [e]; exact ⟨hrp.congr hke, fun e => hrn ((hsame.node r).1 e), hnd.1⟩
      · obtain ⟨h1, h2, h3⟩ := h.held a ha
        exact ⟨h1.congr hke, fun e => h2 ((hsame.node a).1 e), hsub a h3⟩
  | kfree a =>
    obtain ⟨ha, s', hrun, rfl⟩ := hs
    obtain ⟨h1, h2, h3⟩ := h.held a ha
    obtain ⟨hsame, hf, hk, hl, hm⟩ := (kfree_outside h.table h.free h1 h2 h3).of_ok hrun
    refine ⟨hsame.table, hf, fun b hb => ?_⟩
    rw [List.mem_filter] at hb
    obtain ⟨⟨g1, g2, g3⟩, g4, g5⟩ := h.held b hb.1
    refine ⟨⟨g1, by rw [hk]; exact g2, g3⟩, fun e => g4 ((hsame.node b).1 e), ?_⟩
    rw [hl, List.mem_cons, not_or]
    exact ⟨by simpa using hb.2, g5⟩
  | write a b =>
    obtain ⟨ha, rfl⟩ := hs
    obtain ⟨h1, h2, h3⟩ := h.held a ha
    have hsame := h.table.congr (t := σ.phys.setPage a b)
      (fun x hx => Phys.mem_setPage_ne _ _ (page_ne (h.table.page x hx).1 h1.1 (fun e => h2 (e ▸ hx)))) rfl
      (fun x hx => h.table.used x hx)
    refine ⟨hsame.table, ⟨h.free.kend, h.free.nodup, fun x hx => h.free.page x hx⟩, fun x hx => ?_⟩
    obtain ⟨g1, g2, g3⟩ := h.held x hx
    exact ⟨g1, fun e => g2 ((hsame.node x).1 e), g3⟩

theorem table_reachable (h : ptLts.Reachable σ) : PtInv σ :=
  LTS.Inductive.reachable ⟨fun _ => ptInv_init, fun _ _ _ => ptInv_step⟩ h

/-! ## Refinement -/

/-- The page of `vb` overlaps `[va, va + size)`. -/
def Overlaps (vb va size : Nat) : Prop := pgRoundDown vb < va + size ∧ va < pgRoundDown vb + PGSIZE

instance (vb va size : Nat) : Decidable (Overlaps vb va size) := inferInstanceAs (Decidable (_ ∧ _))

theorem overlaps_iff (vb va : Nat) (hs : 0 < size) :
    Overlaps vb va size ↔ pgRoundDown va ≤ vb ∧ vb < pgRoundDown (va + size - 1) + PGSIZE := by
  unfold Overlaps pgRoundDown
  simp only [PGSIZE]
  omega

theorem mappages_refines (hI : PtInv σ) {pa perm : Nat} (hpa : pa < 2 ^ 56) (hs : 0 < size)
    (hp : PermOk perm) (hv : va + size ≤ MAXVA)
    (hun : ∀ vb, Overlaps vb va size → leafPte σ.phys σ.pt vb &&& PTE_V = 0) :
    ∃ r s', mappages σ.pt va size pa perm σ.phys = .ok (r, s') ∧
      ∃ d, (r = 0 ∧ pgRoundDown va + d * PGSIZE = pgRoundDown (va + size - 1) + PGSIZE ∨ r = -1) ∧
        ∀ vb, vb < MAXVA → leafPte s' σ.pt vb =
          if Overlaps vb va size ∧ vb < pgRoundDown va + d * PGSIZE then
            pa2pte (pa + (pgRoundDown vb - pgRoundDown va)) ||| perm ||| PTE_V
          else leafPte σ.phys σ.pt vb := by
  have hleaf : ∀ vb, pgRoundDown va ≤ vb → vb < pgRoundDown (va + size - 1) + PGSIZE →
      leaf σ.phys σ.pt vb &&& PTE_V = 0 := by
    intro vb h1 h2
    have hb : vb < MAXVA := by simp only [pgRoundDown, MAXVA_eq, PGSIZE] at *; omega
    rw [← leafPte_eq hI.table hI.free hb]
    exact hun vb ((overlaps_iff vb va hs).2 ⟨h1, h2⟩)
  obtain ⟨r, s', hrun, hk, d, hmap, hr⟩ := (mappages_spec hI.table hI.free hp hpa hs hv hleaf).returns
  refine ⟨r, s', hrun, d, hr.imp id And.left, fun vb hb => ?_⟩
  have hin : (Overlaps vb va size ∧ vb < pgRoundDown va + d * PGSIZE) ↔
      (pgRoundDown va ≤ vb ∧ vb < pgRoundDown va + d * PGSIZE) := by
    rw [overlaps_iff vb va hs]; omega
  rw [leafPte_eq hk.table hk.free hb, leafPte_eq hI.table hI.free hb, hmap vb hb]
  simp only [hin, mkPte]

/-- **A page table is a finite map from pages to PTEs**, which `mappages`
extends on its range, or on a prefix of it when it returns -1, and `uvmunmap`
clears on its range. -/
theorem pagetable_refines {σ : PtSys} (h : ptLts.Reachable σ) :
    (∀ va size pa perm, pa % PGSIZE = 0 → pa < 2 ^ 56 → 0 < size → PermOk perm → va + size ≤ MAXVA →
      (∀ vb, Overlaps vb va size → leafPte σ.phys σ.pt vb &&& PTE_V = 0) →
      ∃ r s', mappages σ.pt va size pa perm σ.phys = .ok (r, s') ∧
        (r = 0 ∧ (∀ vb, vb < MAXVA → leafPte s' σ.pt vb =
            if Overlaps vb va size then pa2pte (pa + (pgRoundDown vb - pgRoundDown va)) ||| perm ||| PTE_V
            else leafPte σ.phys σ.pt vb) ∨
         r = -1 ∧ ∃ d, ∀ vb, vb < MAXVA → leafPte s' σ.pt vb =
            if Overlaps vb va size ∧ vb < pgRoundDown va + d * PGSIZE then
              pa2pte (pa + (pgRoundDown vb - pgRoundDown va)) ||| perm ||| PTE_V
            else leafPte σ.phys σ.pt vb)) ∧
    (∀ va npages doFree, MappedRange σ va npages → FreesHeld σ va npages doFree →
      ∃ s', uvmunmap σ.pt va npages doFree σ.phys = .ok ((), s') ∧
        ∀ vb, vb < MAXVA → leafPte s' σ.pt vb =
          if va ≤ vb ∧ vb < va + npages * PGSIZE then 0 else leafPte σ.phys σ.pt vb) ∧
    ∀ pa, pa % PGSIZE = 0 → pa < 2 ^ 56 → pte2pa (pa2pte pa) = pa := by
  have hI := table_reachable h
  refine ⟨?_, ?_, fun pa ha hlt => pte2pa_pa2pte (by omega) ha⟩
  · intro va size pa perm _ hpa hs hp hv hun
    obtain ⟨r, s', hrun, d, hr, hleaf⟩ := mappages_refines hI hpa hs hp hv hun
    refine ⟨r, s', hrun, ?_⟩
    rcases hr with ⟨e, hd⟩ | e
    · refine .inl ⟨e, fun vb hb => ?_⟩
      have hall : (Overlaps vb va size ∧ vb < pgRoundDown va + d * PGSIZE) ↔ Overlaps vb va size := by
        rw [hd, overlaps_iff vb va hs]; omega
      rw [hleaf vb hb]
      simp only [hall]
    · exact .inr ⟨e, d, hleaf⟩
  · intro va npages doFree hm hfr
    obtain ⟨_, s', hrun, hu⟩ :=
      (uvmunmap_spec hI.table hI.free hm.1 hm.2.1 (hm.leaf hI) (hfr.canFree hI)).returns
    refine ⟨s', hrun, fun vb hb => ?_⟩
    rw [leafPte_eq hu.table hu.free hb, leafPte_eq hI.table hI.free hb, hu.leaves vb hb]

/-! ## A first mapping -/

/-- Four free pages above a kernel that ends at 0x80010000. -/
def fourFree : Phys where
  mem := fun _ => Bytes.zero
  freelist := [0x80010000, 0x80011000, 0x80012000, 0x80013000]
  refuse := []
  kend := 0x80010000

theorem freeOk_fourFree : FreeOk fourFree := by
  refine ⟨by decide, by decide, fun a ha => ?_⟩
  have hall : ∀ a ∈ fourFree.freelist, a % PGSIZE = 0 ∧ fourFree.kend ≤ a ∧ a < PHYSTOP := by decide
  exact hall a ha

/-- The table `uvmcreate` makes there. -/
def firstTable : PtSys where
  phys := { fourFree.fill 0x80010000 5 with
    freelist := [0x80011000, 0x80012000, 0x80013000] }.fill 0x80010000 0
  pt := 0x80010000
  held := []

theorem init_firstTable : ptInit firstTable :=
  ⟨fourFree, freeOk_fourFree, rfl, by decide, fun a ha => by cases ha⟩

theorem firstTable_unmapped (vb : Nat) : leafPte firstTable.phys firstTable.pt vb = 0 := by
  have hc : firstTable.phys.child firstTable.pt (idx 2 vb) = none := by
    refine child_none ?_
    rw [show firstTable.phys.word (firstTable.pt + 8 * (idx 2 vb).1) = 0 from
      Phys.word_fill_zero _ (entry_page (by decide) _)]
    decide
  unfold leafPte walk
  by_cases hv : MAXVA ≤ vb
  · rw [if_pos hv]; rfl
  · rw [if_neg hv, walkFrom_lookup vb _ 2 _]
    simp only [steps, descend, hc]
    rfl

/-- Two pages mapped at 0x1800 (from the page 0x1000 on), and read back. -/
theorem pagetable_refines_firstTable : ∃ s',
    mappages firstTable.pt 0x1800 4096 0x80200000 (PTE_R ||| PTE_U) firstTable.phys = .ok (0, s') ∧
    leafPte s' firstTable.pt 0x2abc = pa2pte 0x80201000 ||| (PTE_R ||| PTE_U) ||| PTE_V := by
  have hzero : (mappages firstTable.pt 0x1800 4096 0x80200000 (PTE_R ||| PTE_U)
      firstTable.phys).map Prod.fst =
      .ok 0 := by decide +kernel
  obtain ⟨hmap, -, -⟩ := pagetable_refines ⟨firstTable, [], init_firstTable, .nil _⟩
  obtain ⟨r, s', hrun, hr⟩ := hmap 0x1800 4096 0x80200000 (PTE_R ||| PTE_U) (by decide)
    (by decide) (by decide)
    ⟨by decide, by decide⟩ (by decide) (fun vb _ => by rw [firstTable_unmapped]; exact Nat.zero_and _)
  rw [hrun] at hzero
  obtain rfl : r = 0 := Except.ok.inj hzero
  rcases hr with ⟨-, hleaf⟩ | ⟨e, -⟩
  · refine ⟨s', hrun, ?_⟩
    rw [hleaf 0x2abc (by decide), if_pos (by decide)]
    decide
  · cases e

end Xv6.Vm
