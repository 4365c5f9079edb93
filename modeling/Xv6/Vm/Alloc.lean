import Mathlib.Data.List.Nodup
import Mathlib.Data.List.Perm.Subperm
import Xv6.Vm.Refine
import Xv6.Vm.Translate

/-!
# User memory that grows and shrinks (`uvmalloc`, `uvmdealloc`, `growproc`)

`Space s pt n` is the address space of a process: the first `n` pages are
mapped, to distinct allocated pages that are not pages of the table, and
nothing else below the trapframe. A step from one size to another is
`Resize`: what both sizes have in common keeps its PTEs and its contents, the
pages involved are the same set as before (`Owned`), and no other page is
written.

* `alloc_pass`: a page is allocated, filled and mapped, or all is undone; the
  body of the loops of `uvmalloc` and `uvmcopy`.
* `uvmdealloc_spec`, `uvmalloc_spec`: both are `Resize`; on failure
  `uvmalloc` goes back to where it started.
* `sbrk_resizes`: what `growproc` reports is what it did, for a request that
  does not go below zero.
* `growproc_below_zero`: such a request is granted and does nothing.
-/
namespace Xv6.Vm

def TRAMPOLINE : Nat := MAXVA - PGSIZE
def TRAPFRAME : Nat := TRAMPOLINE - PGSIZE

/-! ## kernel/vm.c:223-267, kernel/proc.c:257-275 -/

/-- A `uint64` stored in an `int` and read back as `uint64`. -/
def viaInt (x : Nat) : Nat := if x % 2 ^ 32 < 2 ^ 31 then x % 2 ^ 32 else 2 ^ 64 - 2 ^ 32 + x % 2 ^ 32

/-- mirrors kernel/vm.c:251-267 -/
def uvmdealloc (pagetable oldsz newsz : Nat) : M Nat :=
  if oldsz ≤ newsz then pure oldsz
  else if pgRoundUp newsz < pgRoundUp oldsz then do
    uvmunmap pagetable (pgRoundUp newsz) (viaInt ((pgRoundUp oldsz - pgRoundUp newsz) / PGSIZE)) true
    pure newsz
  else pure newsz

/-- The loop of `uvmalloc`. A pass at or above `MAXVA` fails in `kalloc` or
panics in `walk`, so no run makes more than `passes` of them.
mirrors kernel/vm.c:235-247 -/
def uvmallocLoop (pagetable oldsz newsz xperm : Nat) : Nat → Nat → M Nat
  | 0, _ => Prog.panic .walk
  | fuel + 1, a =>
    if a < newsz then do
      let mem ← kalloc
      if mem = 0 then do
        let _ ← uvmdealloc pagetable a oldsz
        pure 0
      else do
        memset mem 0
        let r ← mappages pagetable a PGSIZE mem (PTE_R ||| PTE_U ||| xperm)
        if r ≠ 0 then do
          kfree mem
          let _ ← uvmdealloc pagetable a oldsz
          pure 0
        else uvmallocLoop pagetable oldsz newsz xperm fuel ((a + PGSIZE) % 2 ^ 64)
    else pure newsz

/-- mirrors kernel/vm.c:223-249 -/
def uvmalloc (pagetable oldsz newsz xperm : Nat) : M Nat :=
  if newsz < oldsz then pure oldsz
  else uvmallocLoop pagetable (pgRoundUp oldsz) newsz xperm passes (pgRoundUp oldsz)

/-- `p->pagetable` and `p->sz`. -/
structure UserMem where
  pagetable : Nat
  sz : Nat
  deriving DecidableEq

/-- `sz + n` for a `uint64` and an `int`. -/
def addInt (sz : Nat) (n : Int) : Nat := ((sz + n) % 2 ^ 64).toNat

/-- mirrors kernel/proc.c:257-275 -/
def growproc (p : UserMem) (n : Int) : M (Int × UserMem) :=
  if n > 0 then do
    let sz ← uvmalloc p.pagetable p.sz (addInt p.sz n) PTE_W
    if sz = 0 then pure (-1, p)
    else pure (0, { p with sz := sz })
  else if n < 0 then do
    let sz ← uvmdealloc p.pagetable p.sz (addInt p.sz n)
    pure (0, { p with sz := sz })
  else pure (0, p)

theorem PHYSTOP_eq : PHYSTOP = 2281701376 := rfl

theorem TRAPFRAME_eq : TRAPFRAME = 274877898752 := rfl

/-- The number of pages below `PHYSTOP`. -/
def NPAGE : Nat := 557056

/-! ## The pages of a range -/

variable {s s' : Phys} {pt va k sz n m oldsz newsz perm xperm : Nat}

theorem leaf_page {vb : Nat} (h : va / PGSIZE = vb / PGSIZE) : leaf s pt va = leaf s pt vb := by
  unfold leaf
  rw [show steps va 2 = steps vb 2 by simp [steps, idx, px_congr h],
    show idx 0 va = idx 0 vb by simp [idx, px_congr h]]

theorem mem_pagesOf {x : Nat} : ∀ {a : Nat},
    x ∈ pagesOf s pt a k ↔ ∃ j, j < k ∧ x = pte2pa (leaf s pt (a + j * PGSIZE)) := by
  induction k with
  | zero => intro a; simp [pagesOf]
  | succ k ih =>
    intro a
    unfold pagesOf
    rw [List.mem_cons, ih]
    constructor
    · rintro (e | ⟨j, hj, e⟩)
      · exact ⟨0, by omega, by simpa using e⟩
      · exact ⟨j + 1, by omega, by rw [e]; congr 2; simp only [PGSIZE]; omega⟩
    · rintro ⟨j, hj, e⟩
      cases j with
      | zero => exact .inl (by simpa using e)
      | succ j => exact .inr ⟨j, by omega, by rw [e]; congr 2; simp only [PGSIZE]; omega⟩

@[simp] theorem length_pagesOf (s : Phys) (pt k : Nat) : ∀ a, (pagesOf s pt a k).length = k := by
  induction k with
  | zero => intro a; rfl
  | succ k ih => intro a; simp [pagesOf, ih]

theorem pagesOf_add (s : Phys) (pt m k : Nat) : ∀ a,
    pagesOf s pt a (m + k) = pagesOf s pt a m ++ pagesOf s pt (a + m * PGSIZE) k := by
  induction m with
  | zero => intro a; simp [pagesOf]
  | succ m ih =>
    intro a
    rw [Nat.add_right_comm]
    simp only [pagesOf, ih, List.cons_append]
    rw [show a + PGSIZE + m * PGSIZE = a + (m + 1) * PGSIZE by simp only [PGSIZE]; omega]

/-! ## Address spaces -/

/-- `n` is the number of pages of `sz` bytes. -/
def Pages (sz n : Nat) : Prop := sz ≤ n * PGSIZE ∧ n * PGSIZE < sz + PGSIZE

/-- The first `n` pages, and no others below the trapframe. -/
structure Space (s : Phys) (pt n : Nat) : Prop where
  table : Table s pt
  free : FreeOk s
  mapped : ∀ va, va < TRAPFRAME → (leaf s pt va &&& PTE_V ≠ 0 ↔ va < n * PGSIZE)
  perm : ∀ va, va < n * PGSIZE → pteFlags (leaf s pt va) &&& (PTE_R ||| PTE_W ||| PTE_X) ≠ 0
  pages : CanFree s pt (pagesOf s pt 0 n)

/-- The pages a change of size may write: those of the table, the free ones,
and the user's. -/
def Owned (s : Phys) (pt n a : Nat) : Prop := Node s pt a ∨ a ∈ s.freelist ∨ a ∈ pagesOf s pt 0 n

/-- From `n` pages to `n'`. -/
structure Resize (pt : Nat) (s : Phys) (n : Nat) (s' : Phys) (n' : Nat) : Prop where
  space : Space s' pt n'
  kend : s'.kend = s.kend
  owned : ∀ a, Owned s' pt n' a ↔ Owned s pt n a
  frame : ∀ a, a % PGSIZE = 0 → ¬Owned s pt n a → s'.mem (a / PGSIZE) = s.mem (a / PGSIZE)
  high : ∀ va, TRAPFRAME ≤ va → va < MAXVA → leaf s' pt va = leaf s pt va
  low : ∀ va, va < n * PGSIZE → va < n' * PGSIZE → leaf s' pt va = leaf s pt va ∧
    s'.mem (pte2pa (leaf s pt va) / PGSIZE) = s.mem (pte2pa (leaf s pt va) / PGSIZE)

section Space
variable {s : Phys} {pt n : Nat}

/-- The user's pages are distinct pages of physical memory. -/
theorem Space.small (h : Space s pt n) : n ≤ NPAGE := by
  obtain ⟨hnd, hall⟩ := h.pages
  have hnd' : ((pagesOf s pt 0 n).map (· / PGSIZE)).Nodup := by
    refine List.Nodup.map_on (fun x hx y hy e => ?_) hnd
    by_contra hne
    exact page_ne (hall x hx).1.1 (hall y hy).1.1 hne e
  have hsub : (pagesOf s pt 0 n).map (· / PGSIZE) ⊆ List.range NPAGE := by
    intro y hy
    obtain ⟨x, hx, rfl⟩ := List.mem_map.1 hy
    have h2 := (hall x hx).1.2.2
    rw [List.mem_range]
    simp only [PHYSTOP_eq, NPAGE, PGSIZE] at *
    omega
  have hle := (List.subperm_of_subset hnd' hsub).length_le
  simpa using hle

theorem Space.low (h : Space s pt n) : n * PGSIZE + PGSIZE ≤ TRAPFRAME := by
  have hs := h.small
  simp only [NPAGE, TRAPFRAME_eq, PGSIZE] at *
  omega

theorem page_mem (hv : va < n * PGSIZE) : pte2pa (leaf s pt va) ∈ pagesOf s pt 0 n := by
  refine mem_pagesOf.2 ⟨va / PGSIZE, ?_, ?_⟩
  · simp only [PGSIZE] at *
    omega
  · refine congrArg pte2pa (leaf_page ?_)
    simp only [PGSIZE]
    omega

variable {t : Phys}

/-- A space whose table keeps its contents and whose pages stay allocated. -/
theorem Space.congr (h : Space s pt n) (hm : ∀ a, Node s pt a → t.mem (a / PGSIZE) = s.mem (a / PGSIZE))
    (hk : t.kend = s.kend) (hf : FreeOk t)
    (hfree : ∀ a, Node s pt a ∨ a ∈ pagesOf s pt 0 n → a ∉ t.freelist) : Space t pt n ∧ SameTree pt s t := by
  have hsame := h.table.congr hm hk (fun a ha => hfree a (.inl ha))
  have hpg : pagesOf t pt 0 n = pagesOf s pt 0 n := pagesOf_congr n (fun vb _ _ => hsame.leaves.leaf vb)
  refine ⟨⟨hsame.table, hf, fun va hv => ?_, fun va hv => ?_, ?_⟩, hsame⟩
  · rw [hsame.leaves.leaf]
    exact h.mapped va hv
  · rw [hsame.leaves.leaf]
    exact h.perm va hv
  · rw [hpg]
    refine ⟨h.pages.1, fun x hx => ?_⟩
    obtain ⟨h1, h2, -⟩ := h.pages.2 x hx
    exact ⟨⟨h1.1, by rw [hk]; exact h1.2.1, h1.2.2⟩, fun e => h2 ((hsame.node x).1 e), hfree x (.inr hx)⟩

theorem Resize.refl (h : Space s pt n) : Resize pt s n s n :=
  ⟨h, rfl, fun _ => Iff.rfl, fun _ _ _ => rfl, fun _ _ _ => rfl, fun _ _ _ => ⟨rfl, rfl⟩⟩

theorem Resize.trans {u : Phys} (h : Resize pt s n t k) (h' : Resize pt t k u m) (hk : min n m ≤ k) :
    Resize pt s n u m := by
  refine ⟨h'.space, h'.kend.trans h.kend, fun a => (h'.owned a).trans (h.owned a), fun a ha hno => ?_,
    fun va h1 h2 => (h'.high va h1 h2).trans (h.high va h1 h2), fun va h1 h2 => ?_⟩
  · rw [h'.frame a ha (fun e => hno ((h.owned a).1 e)), h.frame a ha hno]
  · have hv : va < k * PGSIZE := by
      have hmin : min n m * PGSIZE ≤ k * PGSIZE := Nat.mul_le_mul_right _ hk
      rcases Nat.le_total n m with e | e
      · rw [Nat.min_eq_left e] at hmin
        omega
      · rw [Nat.min_eq_right e] at hmin
        omega
    obtain ⟨e1, m1⟩ := h.low va h1 hv
    obtain ⟨e2, m2⟩ := h'.low va hv h2
    rw [e1] at e2 m2
    exact ⟨e2, m2.trans m1⟩

end Space

theorem Pages.le {sz' n' : Nat} (h : Pages sz n) (h' : Pages sz' n') (hle : sz ≤ sz') : n ≤ n' := by
  unfold Pages at *
  simp only [PGSIZE] at *
  omega

theorem Pages.roundUp (h : Pages sz n) (hn : n ≤ NPAGE) : pgRoundUp sz = n * PGSIZE := by
  unfold Pages at h
  unfold pgRoundUp
  simp only [NPAGE, PGSIZE] at *
  omega

theorem Pages.whole (n : Nat) : Pages (n * PGSIZE) n := ⟨Nat.le_refl _, by simp only [PGSIZE]; omega⟩

/-! ## uvmdealloc -/

section
variable (h : Space s pt n)
include h

/-- Unmapping and freeing the pages from `m` on. -/
theorem Resize.of_unmaps (hle : m ≤ n)
    (hu : Unmaps s s' pt (m * PGSIZE) (n - m) true) : Resize pt s n s' m := by
  have hlow := h.low
  have hsplit : pagesOf s pt 0 n = pagesOf s pt 0 m ++ pagesOf s pt (m * PGSIZE) (n - m) := by
    have := pagesOf_add s pt m (n - m) 0
    rwa [Nat.add_sub_cancel' hle, Nat.zero_add] at this
  have hend : m * PGSIZE + (n - m) * PGSIZE = n * PGSIZE := by
    rw [← Nat.add_mul, Nat.add_sub_cancel' hle]
  have hleaf : ∀ va, va < MAXVA → leaf s' pt va =
      if m * PGSIZE ≤ va ∧ va < n * PGSIZE then 0 else leaf s pt va := by
    intro va hv
    rw [hu.leaves va hv, hend]
  have hkeep : ∀ va, va < m * PGSIZE → leaf s' pt va = leaf s pt va := by
    intro va hv
    have hmax : va < MAXVA := by
      simp only [TRAPFRAME_eq, MAXVA_eq, PGSIZE] at *
      omega
    rw [hleaf va hmax, if_neg (by omega)]
  have hpg : pagesOf s' pt 0 m = pagesOf s pt 0 m :=
    pagesOf_congr m (fun vb _ hb => hkeep vb (by simpa using hb))
  have hlist : s'.freelist = (pagesOf s pt (m * PGSIZE) (n - m)).reverse ++ s.freelist := by
    rw [hu.list, if_pos rfl]
  obtain ⟨hnd, hall⟩ := h.pages
  rw [hsplit] at hnd hall
  obtain ⟨hnd1, hnd2, hdis⟩ := List.nodup_append.1 hnd
  have hout : ∀ x ∈ pagesOf s pt 0 m, x ∉ pagesOf s pt (m * PGSIZE) (n - m) :=
    fun x hx hx' => hdis x hx x hx' rfl
  refine ⟨⟨hu.table, hu.free, fun va hv => ?_, fun va hv => ?_, ?_⟩, hu.kend, fun a => ?_, fun a ha hno => ?_,
    fun va h1 h2 => ?_, fun va _ hv => ⟨hkeep va hv, ?_⟩⟩
  · have hmax : va < MAXVA := by
      simp only [TRAPFRAME_eq, MAXVA_eq, PGSIZE] at *
      omega
    rw [hleaf va hmax]
    split
    · rw [Nat.zero_and]
      omega
    · rw [h.mapped va hv]
      omega
  · rw [hkeep va hv]
    exact h.perm va (Nat.lt_of_lt_of_le hv (Nat.mul_le_mul_right _ hle))
  · rw [hpg]
    refine ⟨hnd1, fun x hx => ?_⟩
    obtain ⟨h1, h2, h3⟩ := hall x (List.mem_append_left _ hx)
    refine ⟨h1.congr hu.kend, fun e => h2 ((hu.node x).1 e), fun e => ?_⟩
    rw [hlist, List.mem_append, List.mem_reverse] at e
    exact e.elim (hout x hx) h3
  · unfold Owned
    rw [hu.node, hlist, hpg, hsplit, List.mem_append, List.mem_append, List.mem_reverse]
    simp only [or_assoc, or_comm, or_left_comm]
  · unfold Owned at hno
    rw [hsplit, List.mem_append, not_or, not_or, not_or] at hno
    exact hu.frame a ha hno.1 fun _ => hno.2.2.2
  · rw [hleaf va h2, if_neg (by omega)]
  · have hx : pte2pa (leaf s pt va) ∈ pagesOf s pt 0 m := page_mem hv
    obtain ⟨h1, h2, -⟩ := hall _ (List.mem_append_left _ hx)
    exact hu.frame _ h1.1 h2 fun _ => hout _ hx

theorem uvmdealloc_spec (ho : Pages oldsz n) (hn : Pages newsz m)
    (hle : newsz ≤ oldsz) :
    Wp (uvmdealloc pt oldsz newsz) s (fun r s' => r = newsz ∧ Resize pt s n s' m) fun _ => False := by
  have hmn := hn.le ho hle
  have hsmall := h.small
  unfold uvmdealloc
  rw [wp_ite]
  refine ⟨fun he => ?_, fun he => ?_⟩
  · have e : oldsz = newsz := by omega
    have em : m = n := Nat.le_antisymm hmn (ho.le hn he)
    rw [wp_pure, em]
    exact ⟨e, Resize.refl h⟩
  have hlow := h.low
  have hend : m * PGSIZE + (n - m) * PGSIZE = n * PGSIZE := by
    rw [← Nat.add_mul, Nat.add_sub_cancel' hmn]
  have hmapped : ∀ j, j < n - m → leaf s pt (m * PGSIZE + j * PGSIZE) &&& PTE_V ≠ 0 := by
    intro j hj
    have hin : m * PGSIZE + j * PGSIZE < n * PGSIZE := by
      rw [← hend]
      exact Nat.add_lt_add_left (Nat.mul_lt_mul_of_pos_right hj (by decide)) _
    exact (h.mapped _ (by omega)).2 hin
  have hmax : m * PGSIZE + (n - m) * PGSIZE ≤ MAXVA := by
    rw [hend]
    simp only [TRAPFRAME_eq, MAXVA_eq] at *
    omega
  have hcount : viaInt ((n * PGSIZE - m * PGSIZE) / PGSIZE) = n - m := by
    have hn31 : NPAGE < 2 ^ 31 := by decide
    rw [← Nat.sub_mul, Nat.mul_div_cancel _ (by decide)]
    unfold viaInt
    rw [if_pos (by omega), Nat.mod_eq_of_lt (by omega)]
  rw [ho.roundUp hsmall, hn.roundUp (by omega), wp_ite]
  refine ⟨fun hlt => ?_, fun hlt => ?_⟩
  · rw [hcount]
    have hsplit : pagesOf s pt 0 n = pagesOf s pt 0 m ++ pagesOf s pt (m * PGSIZE) (n - m) := by
      have := pagesOf_add s pt m (n - m) 0
      rwa [Nat.add_sub_cancel' hmn, Nat.zero_add] at this
    refine (uvmunmap_spec h.table h.free (Nat.mul_mod_left _ _) hmax hmapped (fun _ => ?_)).bind ?_
    · obtain ⟨hnd, hall⟩ := h.pages
      rw [hsplit] at hnd hall
      exact ⟨(List.nodup_append.1 hnd).2.1, fun x hx => hall x (List.mem_append_right _ hx)⟩
    · intro _ s' hu
      rw [wp_pure]
      exact ⟨rfl, Resize.of_unmaps h hmn hu⟩
  · have em : m = n := by
      simp only [PGSIZE] at hlt
      omega
    rw [wp_pure, em]
    exact ⟨rfl, Resize.refl h⟩

/-! ## One page more -/

theorem Space.mapped_low (hv : va < n * PGSIZE) : va < MAXVA := by
  have := h.low
  simp only [TRAPFRAME_eq, MAXVA_eq] at *
  omega

/-- A user page is none of the pages a change to the table may write. -/
theorem Space.user_page (hv : va < n * PGSIZE) :
    KPage s (pte2pa (leaf s pt va)) ∧ ¬Node s pt (pte2pa (leaf s pt va)) ∧
    pte2pa (leaf s pt va) ∉ s.freelist :=
  h.pages.2 _ (page_mem hv)

/-- A change to the table alone. -/
theorem Space.of_keeps (hk : Keeps pt s s')
    (hl : ∀ va, va < TRAPFRAME → leaf s' pt va = leaf s pt va) :
    Space s' pt n ∧ (∀ a, Owned s' pt n a ↔ Owned s pt n a) ∧ ∀ va, va < n * PGSIZE →
    leaf s' pt va = leaf s pt va ∧
      s'.mem (pte2pa (leaf s pt va) / PGSIZE) = s.mem (pte2pa (leaf s pt va) / PGSIZE) := by
  have hlow : ∀ va, va < n * PGSIZE → leaf s' pt va = leaf s pt va := by
    intro va hv
    have := h.low
    exact hl va (by omega)
  have hpg : pagesOf s' pt 0 n = pagesOf s pt 0 n :=
    pagesOf_congr n (fun vb _ hb => hlow vb (by simpa using hb))
  refine ⟨⟨hk.table, hk.free, fun va hv => ?_, fun va hv => ?_, ?_⟩, fun a => ?_,
    fun va hv => ⟨hlow va hv, ?_⟩⟩
  · rw [hl va hv]
    exact h.mapped va hv
  · rw [hlow va hv]
    exact h.perm va hv
  · rw [hpg]
    refine ⟨h.pages.1, fun x hx => ?_⟩
    obtain ⟨h1, h2, h3⟩ := h.pages.2 x hx
    exact ⟨h1.congr hk.kend, hk.neither h2 h3⟩
  · unfold Owned
    rw [← or_assoc, ← or_assoc, hk.pages a, hpg]
  · obtain ⟨h1, h2, h3⟩ := h.user_page hv
    exact hk.frame _ h1.1 h2 h3

/-- With all leaf PTEs as they were it is no change of size. -/
theorem Resize.of_keeps (hk : Keeps pt s s')
    (hl : ∀ va, va < MAXVA → leaf s' pt va = leaf s pt va) : Resize pt s n s' n := by
  obtain ⟨hsp, howned, hlow⟩ :=
    h.of_keeps hk fun va hv => hl va (by simp only [TRAPFRAME_eq, MAXVA_eq] at *; omega)
  exact ⟨hsp, hk.kend, howned, fun a ha hno => hk.frame a ha (fun e => hno (.inl e))
    (fun e => hno (.inr (.inl e))), fun va _ hv => hl va hv, fun va hv _ => hlow va hv⟩

end

/-- `t` is `s` with the first free page `r` taken, and perhaps written. -/
structure Taken (s t : Phys) (r : Nat) : Prop where
  free : s.freelist = r :: t.freelist
  kend : t.kend = s.kend
  mem : ∀ x, x ≠ r / PGSIZE → t.mem x = s.mem x

section Taken
variable {s t : Phys} {pt k r : Nat}

section
variable (g : Taken s t r)
include g

theorem Taken.mem_free : r ∈ s.freelist := by
  rw [g.free]
  exact List.mem_cons_self

theorem Taken.keep (hf : FreeOk s) {a : Nat} (ha : a % PGSIZE = 0) (hne : a ≠ r) :
    t.mem (a / PGSIZE) = s.mem (a / PGSIZE) := g.mem _ (page_ne ha (hf.page r g.mem_free).1 hne)

theorem Taken.not_free (hf : FreeOk s) : r ∉ t.freelist := by
  have hnd := hf.nodup
  rw [g.free, List.nodup_cons] at hnd
  exact hnd.1

theorem Taken.kpage (hf : FreeOk s) : KPage t r :=
  (hf.page r g.mem_free).congr g.kend

theorem Taken.ne_zero (hf : FreeOk s) : r ≠ 0 := (hf.page r g.mem_free).ne_zero hf

theorem Taken.space (h : Space s pt k) : Space t pt k ∧ SameTree pt s t := by
  refine h.congr (fun a ha => ?_) g.kend (h.free.tail g.kend g.free) (fun a ha e => ?_)
  · exact g.keep h.free (h.table.page a ha).1 fun e => h.table.used a ha (e ▸ g.mem_free)
  · have hin : a ∈ s.freelist := by
      rw [g.free]
      exact List.mem_cons_of_mem _ e
    rcases ha with ha | ha
    · exact h.table.used a ha hin
    · exact (h.pages.2 a ha).2.2 hin

/-- The page taken is nobody's. -/
theorem Taken.fresh (h : Space s pt k) : ¬Owned t pt k r := by
  obtain ⟨hsp, hsame⟩ := g.space h
  rintro (e | e | e)
  · exact h.table.used r ((hsame.node r).1 e) g.mem_free
  · exact g.not_free h.free e
  · rw [pagesOf_congr k (fun vb _ _ => hsame.leaves.leaf vb)] at e
    exact (h.pages.2 r e).2.2 g.mem_free

theorem Taken.owned (h : Space s pt k) (a : Nat) : Owned s pt k a ↔ Owned t pt k a ∨ a = r := by
  obtain ⟨hsp, hsame⟩ := g.space h
  unfold Owned
  rw [hsame.node, pagesOf_congr k (fun vb _ _ => hsame.leaves.leaf vb), g.free, List.mem_cons]
  simp only [or_assoc, or_comm, or_left_comm]

/-- The page is mapped after the others. -/
theorem Taken.mapped (h : Space s pt k) (hp : PermOk perm) (hk : Keeps pt t s')
    (hm : Maps t s' pt (k * PGSIZE) 1 r perm) :
    Resize pt s k s' (k + 1) ∧ leaf s' pt (k * PGSIZE) = mkPte r perm ∧
      pte2pa (leaf s' pt (k * PGSIZE)) = r ∧ s'.mem (r / PGSIZE) = t.mem (r / PGSIZE) := by
  obtain ⟨hsp, hsame⟩ := g.space h
  have hlow := h.low
  have hnew := g.fresh h
  have hrk := g.kpage h.free
  have hleaf : ∀ va, va < MAXVA → ¬(k * PGSIZE ≤ va ∧ va < k * PGSIZE + PGSIZE) →
      leaf s' pt va = leaf s pt va := by
    intro va hv hno
    rw [hm va hv, if_neg (by rwa [Nat.one_mul]), hsame.leaves.leaf]
  have hold : ∀ va, va < k * PGSIZE → leaf s' pt va = leaf s pt va :=
    fun va hv => hleaf va (h.mapped_low hv) (by omega)
  have hself : leaf s' pt (k * PGSIZE) = mkPte r perm := by
    rw [hm _ (by simp only [TRAPFRAME_eq, MAXVA_eq] at *; omega),
      if_pos ⟨Nat.le_refl _, by simp only [PGSIZE]; omega⟩, show pgRoundDown (k * PGSIZE) - k * PGSIZE = 0 by
        simp only [pgRoundDown, PGSIZE]; omega, Nat.add_zero]
  have hpa : pte2pa (leaf s' pt (k * PGSIZE)) = r := by
    rw [hself]
    exact pte2pa_pte (Nat.lt_trans hrk.2.2 (by decide)) hrk.1 hp.1
  have hpg : pagesOf s' pt 0 (k + 1) = pagesOf s pt 0 k ++ [r] := by
    rw [pagesOf_add, pagesOf_congr k (fun vb _ hb => hold vb (by simpa using hb))]
    simp only [pagesOf, Nat.zero_add, hpa]
  have hrp : r ∉ pagesOf s pt 0 k := fun e => (h.pages.2 r e).2.2 g.mem_free
  have hpages : ∀ x ∈ pagesOf s pt 0 k, KPage s x ∧ ¬Node t pt x ∧ x ∉ t.freelist ∧ x ≠ r := by
    intro x hx
    obtain ⟨h1, h2, h3⟩ := h.pages.2 x hx
    rw [g.free, List.mem_cons, not_or] at h3
    exact ⟨h1, fun e => h2 ((hsame.node x).1 e), h3.2, h3.1⟩
  have hframe : ∀ a, a % PGSIZE = 0 → ¬Node t pt a → a ∉ t.freelist → a ≠ r →
      s'.mem (a / PGSIZE) = s.mem (a / PGSIZE) := by
    intro a ha h1 h2 h3
    rw [hk.frame a ha h1 h2, g.keep h.free ha h3]
  have hflag : pteFlags (mkPte r perm) &&& (PTE_R ||| PTE_W ||| PTE_X) ≠ 0 := by
    unfold mkPte
    rw [pteFlags_pte (Nat.lt_trans hrk.2.2 (by decide)) hp.1, Nat.and_or_distrib_right]
    exact fun e => hp.2 (Nat.or_eq_zero_iff.1 e).1
  refine ⟨⟨⟨hk.table, hk.free, fun va hv => ?_, fun va hv => ?_, ?_⟩, hk.kend.trans g.kend, fun a => ?_,
    fun a ha hno => ?_, fun va h1 h2 => hleaf va h2 (by omega), fun va hv _ => ⟨hold va hv, ?_⟩⟩, hself, hpa,
    hk.frame r hrk.1 (fun e => hnew (.inl e)) (fun e => hnew (.inr (.inl e)))⟩
  · rw [Nat.add_mul, Nat.one_mul]
    by_cases hin : k * PGSIZE ≤ va ∧ va < k * PGSIZE + PGSIZE
    · have hpage : va / PGSIZE = k * PGSIZE / PGSIZE := by
        simp only [PGSIZE] at *
        omega
      rw [leaf_page hpage, hself]
      exact ⟨fun _ => hin.2, fun _ => pte_valid _ _⟩
    · rw [hleaf va (by simp only [TRAPFRAME_eq, MAXVA_eq] at *; omega) hin, h.mapped va hv]
      omega
  · by_cases hv' : va < k * PGSIZE
    · rw [hold va hv']
      exact h.perm va hv'
    · have hpage : va / PGSIZE = k * PGSIZE / PGSIZE := by
        simp only [PGSIZE] at *
        omega
      rw [leaf_page hpage, hself]
      exact hflag
  · rw [hpg]
    refine ⟨List.nodup_append.2 ⟨h.pages.1, by simp, fun x hx y hy e => hrp ?_⟩, fun x hx => ?_⟩
    · rw [← List.mem_singleton.1 hy, ← e]
      exact hx
    rcases List.mem_append.1 hx with hx | hx
    · obtain ⟨h1, h2, h3, -⟩ := hpages x hx
      exact ⟨h1.congr (hk.kend.trans g.kend), hk.neither h2 h3⟩
    · rw [List.mem_singleton.1 hx]
      exact ⟨hrk.congr hk.kend, hk.neither (fun e => hnew (.inl e)) (fun e => hnew (.inr (.inl e)))⟩
  · rw [g.owned h a]
    unfold Owned
    rw [← or_assoc, hk.pages a, hpg, List.mem_append, List.mem_singleton,
      pagesOf_congr k (fun vb _ _ => hsame.leaves.leaf vb)]
    simp only [or_assoc, or_comm, or_left_comm]
  · rw [g.owned h a, not_or] at hno
    exact hframe a ha (fun e => hno.1 (.inl e)) (fun e => hno.1 (.inr (.inl e))) hno.2
  · obtain ⟨h1, h2, h3, h4⟩ := hpages _ (page_mem hv)
    exact hframe _ h1.1 h2 h3 h4

end

/-- The page was not mapped and goes back. -/
theorem Taken.undone {s1 s2 : Phys} (g : Taken s t r) (h : Space s pt k)
    (h1 : Resize pt t k s1 k) (hf : FreeOk s2) (hk : s2.kend = s1.kend) (hl : s2.freelist = r :: s1.freelist)
    (hm : ∀ x, x ≠ r / PGSIZE → s2.mem x = s1.mem x) : Resize pt s k s2 k := by
  obtain ⟨hsp, hsame⟩ := g.space h
  have hnew : ¬Owned s1 pt k r := fun e => g.fresh h ((h1.owned r).1 e)
  have hra := (g.kpage h.free).1
  obtain ⟨hsp2, hsame2⟩ := h1.space.congr (fun a ha => hm _ (page_ne (h1.space.table.page a ha).1 hra
      fun e => hnew (.inl (e ▸ ha)))) hk hf (fun a ha e => by
    rw [hl, List.mem_cons] at e
    rcases e with e | e
    · exact hnew (ha.elim (fun ha => .inl (e ▸ ha)) (fun ha => .inr (.inr (e ▸ ha))))
    · rcases ha with ha | ha
      · exact h1.space.table.used a ha e
      · exact (h1.space.pages.2 a ha).2.2 e)
  refine ⟨hsp2, hk.trans (h1.kend.trans g.kend), fun a => ?_, fun a ha hno => ?_, fun va hv1 hv2 => ?_,
    fun va hv _ => ?_⟩
  · rw [g.owned h a, ← h1.owned a]
    unfold Owned
    rw [hsame2.node, hl, List.mem_cons, pagesOf_congr k (fun vb _ _ => hsame2.leaves.leaf vb)]
    simp only [or_assoc, or_comm, or_left_comm]
  · rw [g.owned h a, not_or] at hno
    rw [hm _ (page_ne ha hra hno.2), h1.frame a ha hno.1, g.keep h.free ha hno.2]
  · rw [hsame2.leaves.leaf, h1.high va hv1 hv2, hsame.leaves.leaf]
  · obtain ⟨e1, m1⟩ := h1.low va hv hv
    obtain ⟨p1, p2, p3⟩ := h.user_page hv
    have hne : pte2pa (leaf s pt va) ≠ r := fun e => p3 (e ▸ g.mem_free)
    rw [hsame.leaves.leaf] at e1 m1
    exact ⟨(hsame2.leaves.leaf va).trans e1, by rw [hm _ (page_ne p1.1 hra hne), m1, g.keep h.free p1.1 hne]⟩

end Taken

theorem pgRoundDown_aligned (h : va % PGSIZE = 0) : pgRoundDown va = va := by
  simp only [pgRoundDown, PGSIZE] at *
  omega

theorem pgRoundDown_last (h : va % PGSIZE = 0) : pgRoundDown (va + PGSIZE - 1) = va := by
  simp only [pgRoundDown, PGSIZE] at *
  omega

/-- A page is allocated, filled by `fillPage` and mapped after the others; or
what has been done is undone. -/
theorem alloc_pass {α : Type} {b : Page} {fillPage : Nat → M Unit} {fail rest : M α}
    {Q : α → Phys → Prop} (h : Space s pt k) (hp : PermOk perm)
    (hfill : ∀ r t, Taken s t r → Wp (fillPage r) t (fun _ t' => t' = t.setPage r b) fun _ => False)
    (hfail : ∀ s', Resize pt s k s' k → Wp fail s' Q fun _ => False)
    (hok : ∀ s', Resize pt s k s' (k + 1) → pteFlags (leaf s' pt (k * PGSIZE)) = perm ||| PTE_V →
      pte2pa (leaf s' pt (k * PGSIZE)) ∈ s.freelist → s'.mem (pte2pa (leaf s' pt (k * PGSIZE)) / PGSIZE) = b →
      Wp rest s' Q fun _ => False) :
    Wp (do
      let mem ← kalloc
      if mem = 0 then fail
      else do
        fillPage mem
        let r ← mappages pt (k * PGSIZE) PGSIZE mem perm
        if r ≠ 0 then do
          kfree mem
          fail
        else rest) s Q fun _ => False := by
  refine (kalloc_spec s).bind fun r t hk => ?_
  cases hk with
  | none hm hl hke =>
    obtain ⟨hkeeps, hleaves⟩ := Keeps.of_same h.table h.free hm hl hke
    rw [if_pos rfl]
    exact hfail t (Resize.of_keeps h hkeeps fun va _ => hleaves.leaf va)
  | page hl hke hm =>
    have g0 : Taken s t r := ⟨hl, hke, hm⟩
    have hrk := g0.kpage h.free
    rw [if_neg (g0.ne_zero h.free)]
    refine (hfill r t g0).bind fun _ t' ht' => ?_
    have g : Taken s t' r := by
      refine ⟨by rw [ht']; exact hl, by rw [ht']; exact hke, fun x hx => ?_⟩
      rw [ht', Phys.mem_setPage_ne _ _ hx]
      exact hm x hx
    have hb : t'.mem (r / PGSIZE) = b := by
      rw [ht']
      exact Function.update_self _ _ _
    obtain ⟨hsp, hsame⟩ := g.space h
    have hlow := hsp.low
    have hpos : 0 < PGSIZE := by decide
    have hdown := pgRoundDown_aligned (Nat.mul_mod_left k PGSIZE)
    have hlast := pgRoundDown_last (Nat.mul_mod_left k PGSIZE)
    refine (mappages_spec hsp.table hsp.free hp (Nat.lt_trans hrk.2.2 (by decide)) hpos ?_ ?_).bind
      fun q s1 hq => ?_
    · simp only [TRAPFRAME_eq, MAXVA_eq] at *
      omega
    · rw [hdown, hlast]
      intro vb h1 h2
      by_contra hne
      have := (hsp.mapped vb (by omega)).1 hne
      omega
    rw [hdown, hlast] at hq
    obtain ⟨hkeeps, d, hmaps, hd⟩ := hq
    rw [wp_ite]
    refine ⟨fun hne => ?_, fun he => ?_⟩
    · -- no page for the table: the page goes back
      have hd0 : d = 0 := by
        rcases hd with ⟨e, -⟩ | ⟨-, e⟩
        · exact absurd e hne
        · simp only [PGSIZE] at e
          omega
      have h1 : Resize pt t' k s1 k := Resize.of_keeps hsp hkeeps fun va hv => by
        rw [hmaps va hv, hd0, if_neg (by omega)]
      have hnew : ¬Owned s1 pt k r := fun e => g.fresh h ((h1.owned r).1 e)
      refine (kfree_outside h1.space.table h1.space.free ((g.kpage h.free).congr h1.kend)
        (fun e => hnew (.inl e)) (fun e => hnew (.inr (.inl e)))).bind fun _ s2 h2 => ?_
      obtain ⟨-, hf2, hk2, hl2, hm2⟩ := h2
      exact hfail s2 (g.undone h h1 hf2 hk2 hl2 hm2)
    · have hd1 : d = 1 := by
        rcases hd with ⟨-, e⟩ | ⟨e, -⟩
        · simp only [PGSIZE] at e
          omega
        · rw [e] at he
          exact absurd (by decide) he
      rw [hd1] at hmaps
      obtain ⟨hres, hself, hpa, hmem⟩ := g.mapped h hp hkeeps hmaps
      refine hok s1 hres ?_ (by rw [hpa]; exact g.mem_free) (by rw [hpa, hmem]; exact hb)
      rw [hself]
      exact pteFlags_pte (Nat.lt_trans hrk.2.2 (by decide)) hp.1

/-! ## uvmalloc -/

/-- The pages from `n` on are new: zero, and mapped with the flags `perm`. -/
def Fresh (s : Phys) (pt n k perm : Nat) : Prop :=
  ∀ va, n * PGSIZE ≤ va → va < k * PGSIZE → pteFlags (leaf s pt va) = perm ||| PTE_V ∧
    s.mem (pte2pa (leaf s pt va) / PGSIZE) = fun _ => 0

theorem Fresh.snoc (h : Fresh s pt n k perm) (hr : Resize pt s k s' (k + 1))
    (hf : pteFlags (leaf s' pt (k * PGSIZE)) = perm ||| PTE_V)
    (hz : s'.mem (pte2pa (leaf s' pt (k * PGSIZE)) / PGSIZE) = fun _ => 0) : Fresh s' pt n (k + 1) perm := by
  intro va h1 h2
  by_cases hv : va < k * PGSIZE
  · obtain ⟨e, m⟩ := hr.low va hv h2
    rw [e, m]
    exact h va h1 hv
  · have hpage : va / PGSIZE = k * PGSIZE / PGSIZE := by
      simp only [PGSIZE] at *
      omega
    rw [leaf_page hpage]
    exact ⟨hf, hz⟩

theorem uvmallocLoop_spec {s0 : Phys} (hp : PermOk (PTE_R ||| PTE_U ||| xperm))
    (hn : Pages newsz m) (fuel : Nat) : ∀ {k : Nat} {s : Phys}, Resize pt s0 n s k → n ≤ k → k ≤ m →
    Fresh s pt n k (PTE_R ||| PTE_U ||| xperm) → NPAGE < fuel + k →
    Wp (uvmallocLoop pt (n * PGSIZE) newsz xperm fuel (k * PGSIZE)) s
    (fun r s' => r = 0 ∧ Resize pt s0 n s' n ∨
      r = newsz ∧ Resize pt s0 n s' m ∧ Fresh s' pt n m (PTE_R ||| PTE_U ||| xperm)) fun _ => False := by
  induction fuel with
  | zero =>
    intro k s h _ _ _ hfuel
    have := h.space.small
    omega
  | succ fuel ih =>
    intro k s h hnk hkm hfresh hfuel
    have hsmall := h.space.small
    unfold uvmallocLoop
    by_cases hlt : k * PGSIZE < newsz
    swap
    · have hm : m = k := by
        unfold Pages at hn
        simp only [PGSIZE] at hn hlt
        omega
      rw [if_neg hlt, wp_pure]
      exact .inr ⟨rfl, hm ▸ h, hm ▸ hfresh⟩
    rw [if_pos hlt]
    have hnext : (k * PGSIZE + PGSIZE) % 2 ^ 64 = (k + 1) * PGSIZE := by
      simp only [NPAGE, PGSIZE] at *
      omega
    rw [hnext]
    refine alloc_pass (b := fun _ => 0) h.space hp (fun r t _ => ?_) (fun s1 h1 => ?_)
      (fun s1 h1 hfl _ hz => ?_)
    · rw [wp_memset]
      rfl
    · refine (uvmdealloc_spec h1.space (Pages.whole k) (Pages.whole n) (Nat.mul_le_mul_right _ hnk)).bind
        fun _ s2 h2 => ?_
      rw [wp_pure]
      exact .inl ⟨rfl, (h.trans h1 (by omega)).trans h2.2 (by omega)⟩
    · have hkm' : k + 1 ≤ m := by
        have hmm := hn.1
        simp only [PGSIZE] at hmm hlt
        omega
      exact ih (h.trans h1 (by omega)) (by omega) hkm' (hfresh.snoc h1 hfl hz) (by omega)

theorem uvmalloc_spec (h : Space s pt n) (ho : Pages oldsz n)
    (hn : Pages newsz m) (hle : oldsz ≤ newsz) (hp : PermOk (PTE_R ||| PTE_U ||| xperm)) :
    Wp (uvmalloc pt oldsz newsz xperm) s (fun r s' => r = 0 ∧ Resize pt s n s' n ∨
      r = newsz ∧ Resize pt s n s' m ∧ Fresh s' pt n m (PTE_R ||| PTE_U ||| xperm)) fun _ => False := by
  have hpass : NPAGE < passes + n := by
    have : NPAGE < passes := by decide
    omega
  unfold uvmalloc
  rw [if_neg (by omega), ho.roundUp h.small]
  exact uvmallocLoop_spec hp hn passes (Resize.refl h) (Nat.le_refl n) (ho.le hn hle)
    (fun va h1 h2 => by omega) hpass

/-! ## growproc -/

theorem addInt_eq {n : Int} (h0 : 0 ≤ sz + n) (hlt : sz + n < 2 ^ 64) : (addInt sz n : Int) = sz + n := by
  unfold addInt
  rw [Int.emod_eq_of_lt h0 hlt, Int.toNat_of_nonneg h0]

theorem exists_pages (sz : Nat) : ∃ n, Pages sz n :=
  ⟨(sz + PGSIZE - 1) / PGSIZE, by simp only [Pages, PGSIZE]; omega⟩

/-- Nothing has changed for the process: the same mappings, and the same
contents in every page that is neither free nor part of the table. -/
structure Unchanged (s s' : Phys) (pt : Nat) : Prop where
  valid : ∀ va, va < MAXVA → (leaf s' pt va &&& PTE_V ≠ 0 ↔ leaf s pt va &&& PTE_V ≠ 0)
  leaf : ∀ va, va < MAXVA → leaf s pt va &&& PTE_V ≠ 0 → leaf s' pt va = leaf s pt va
  mem : ∀ a, a % PGSIZE = 0 → ¬Node s pt a → a ∉ s.freelist → s'.mem (a / PGSIZE) = s.mem (a / PGSIZE)

theorem Resize.unchanged (h : Resize pt s n s' n) (hs : Space s pt n) : Unchanged s s' pt := by
  have hleaf : ∀ va, va < MAXVA → leaf s pt va &&& PTE_V ≠ 0 → leaf s' pt va = leaf s pt va := by
    intro va hv hV
    by_cases hlow : va < TRAPFRAME
    · have hn := (hs.mapped va hlow).1 hV
      exact (h.low va hn hn).1
    · exact h.high va (by omega) hv
  refine ⟨fun va hv => ?_, hleaf, fun a ha hnode hfree => ?_⟩
  · by_cases hlow : va < TRAPFRAME
    · rw [h.space.mapped va hlow, hs.mapped va hlow]
    · rw [h.high va (by omega) hv]
  · by_cases hx : a ∈ pagesOf s pt 0 n
    · obtain ⟨j, hj, e⟩ := mem_pagesOf.1 hx
      have hv : 0 + j * PGSIZE < n * PGSIZE := by
        simp only [PGSIZE]
        omega
      rw [e]
      exact (h.low _ hv hv).2
    · exact h.frame a ha fun e => e.elim hnode fun e => e.elim hfree hx

theorem Space.sz_le (h : Space s pt k) (hsz : Pages sz k) : sz ≤ 2 ^ 32 := by
  have h1 := h.small
  have h2 := hsz.1
  simp only [NPAGE, PGSIZE] at h1 h2
  omega

theorem growproc_spec {p : UserMem} {k' : Nat} {n : Int} (h : Space s p.pagetable k) (hsz : Pages p.sz k)
    (hk' : Pages (addInt p.sz n) k') (hhi : n < 2 ^ 31) (h0 : 0 ≤ p.sz + n) :
    Wp (growproc p n) s (fun q s' => q.1 = -1 ∧ q.2 = p ∧ Resize p.pagetable s k s' k ∨
      q.1 = 0 ∧ q.2 = { p with sz := addInt p.sz n } ∧ (addInt p.sz n : Int) = p.sz + n ∧
      Resize p.pagetable s k s' k' ∧
        ∀ va, k * PGSIZE ≤ va → va < k' * PGSIZE →
        s'.mem (pte2pa (leaf s' p.pagetable va) / PGSIZE) = fun _ => 0)
      fun _ => False := by
  have hmax := h.sz_le hsz
  have hnew := addInt_eq h0 (by omega)
  unfold growproc
  rw [wp_ite]
  refine ⟨fun hpos => ?_, fun hpos => ?_⟩
  · refine (uvmalloc_spec h hsz hk' (by omega) ⟨by decide, by decide⟩).bind fun r s' hr => ?_
    rw [wp_ite]
    refine ⟨fun hr0 => ?_, fun hr0 => ?_⟩
    · rcases hr with ⟨-, hres⟩ | ⟨e, -, -⟩
      · exact (wp_pure _).2 (.inl ⟨rfl, rfl, hres⟩)
      · omega
    · rcases hr with ⟨e, -⟩ | ⟨e, hres, hfresh⟩
      · exact absurd e hr0
      · rw [wp_pure, e]
        exact .inr ⟨rfl, rfl, hnew, hres, fun va h1 h2 => (hfresh va h1 h2).2⟩
  rw [wp_ite]
  refine ⟨fun hneg => ?_, fun hneg => ?_⟩
  · have hle : addInt p.sz n ≤ p.sz := by omega
    have hkk := hk'.le hsz hle
    refine (uvmdealloc_spec h hsz hk' hle).bind fun r s' hr => ?_
    rw [wp_pure, hr.1]
    refine .inr ⟨rfl, rfl, hnew, hr.2, fun va h1 h2 => ?_⟩
    have := Nat.mul_le_mul_right PGSIZE hkk
    omega
  · have hn0 : n = 0 := by omega
    have he : addInt p.sz n = p.sz := by omega
    have hkk : k' = k := by
      rw [he] at hk'
      exact Nat.le_antisymm (hk'.le hsz (Nat.le_refl _)) (hsz.le hk' (Nat.le_refl _))
    rw [wp_pure, he, hkk]
    exact .inr ⟨rfl, rfl, by rw [hn0, add_zero], Resize.refl h, fun va h1 h2 => by omega⟩

/-- A request to go below zero is granted, and does nothing: the sum wraps, and
`uvmdealloc` takes it for a larger size. -/
theorem growproc_negative (s : Phys) (p : UserMem) {n : Int} (hsz : p.sz < 2 ^ 63) (hlo : -2 ^ 31 ≤ n)
    (hn : p.sz + n < 0) : growproc p n s = .ok ((0, p), s) := by
  have hbig : p.sz ≤ addInt p.sz n := by
    unfold addInt
    rw [← Int.add_emod_right, Int.emod_eq_of_lt (by omega) (by omega)]
    omega
  unfold growproc uvmdealloc
  rw [if_neg (by omega), if_pos (by omega), if_pos hbig]
  rfl

/-- **`sbrk` does what it reports** if and only if the request does not go
below zero: it fails and nothing has changed, or the size is the sum and
exactly its pages are mapped, old pages with their contents, new pages zero. -/
theorem sbrk_resizes {s : Phys} {p : UserMem} {k : Nat} {n : Int}
    (h : Space s p.pagetable k) (hsz : Pages p.sz k) (hlo : -2 ^ 31 ≤ n) (hhi : n < 2 ^ 31) :
    (∃ r p' s', growproc p n s = .ok ((r, p'), s') ∧
      (r = -1 ∧ p' = p ∧ Space s' p.pagetable k ∧ Unchanged s s' p.pagetable ∨
       r = 0 ∧ p'.pagetable = p.pagetable ∧ (p'.sz : Int) = p.sz + n ∧ ∃ k', Pages p'.sz k' ∧
       Space s' p.pagetable k' ∧
        (∀ va, va < k * PGSIZE → va < k' * PGSIZE → leaf s' p.pagetable va = leaf s p.pagetable va ∧
          s'.mem (pte2pa (leaf s p.pagetable va) / PGSIZE) =
          s.mem (pte2pa (leaf s p.pagetable va) / PGSIZE)) ∧
        ∀ va, k * PGSIZE ≤ va → va < k' * PGSIZE →
          s'.mem (pte2pa (leaf s' p.pagetable va) / PGSIZE) = fun _ => 0)) ↔ 0 ≤ p.sz + n := by
  constructor
  · rintro ⟨r, p', s', hrun, hres⟩
    by_contra hneg
    cases hrun.symm.trans
      (growproc_negative s p (Nat.lt_of_le_of_lt (h.sz_le hsz) (by decide)) hlo (by omega))
    rcases hres with ⟨e, -⟩ | ⟨-, -, e, -⟩
    · cases e
    · omega
  · intro h0
    obtain ⟨k', hk'⟩ := exists_pages (addInt p.sz n)
    obtain ⟨q, s', hq, hres⟩ := (growproc_spec h hsz hk' hhi h0).returns
    refine ⟨q.1, q.2, s', hq, ?_⟩
    rcases hres with ⟨h1, h2, h3⟩ | ⟨h1, h2, hnew, h3, h4⟩
    · exact .inl ⟨h1, h2, h3.space, h3.unchanged h⟩
    · rw [h2]
      exact .inr ⟨h1, rfl, hnew, k', hk', h3.space, h3.low, h4⟩

/-- The table `uvmcreate` makes has no user pages. -/
theorem space_firstTable : Space firstTable.phys firstTable.pt 0 := by
  have hinv := ptInv_init init_firstTable
  refine ⟨hinv.table, hinv.free, fun va hv => ?_, fun va hv => absurd hv (by omega), List.nodup_nil,
    fun x hx => by cases hx⟩
  rw [← leafPte_eq hinv.table hinv.free (by simp only [TRAPFRAME_eq, MAXVA_eq] at *; omega),
    firstTable_unmapped, Nat.zero_and]
  omega

/-- Five bytes need one page. -/
theorem sbrk_resizes_firstTable : ∃ p' s', growproc ⟨firstTable.pt, 0⟩ 5 firstTable.phys = .ok ((0, p'), s') ∧
    p'.sz = 5 ∧ Space s' firstTable.pt 1 := by
  have hzero : (growproc ⟨firstTable.pt, 0⟩ 5 firstTable.phys).map (·.1.1) = .ok 0 := by decide +kernel
  obtain ⟨r, p', s', hrun, hres⟩ := (sbrk_resizes (p := ⟨firstTable.pt, 0⟩) (n := 5) space_firstTable
    ⟨Nat.le_refl 0, by decide⟩ (by decide) (by decide)).2 (by decide)
  rw [hrun] at hzero
  obtain rfl : r = 0 := Except.ok.inj hzero
  rcases hres with ⟨e, -⟩ | ⟨-, -, hsz, k', hk', hsp, -⟩
  · cases e
  · have h5 : p'.sz = 5 := by
      simp only [Nat.cast_zero, zero_add] at hsz
      omega
    have h1 : k' = 1 := by
      rw [h5] at hk'
      unfold Pages at hk'
      simp only [PGSIZE] at hk'
      omega
    exact ⟨p', s', hrun, h5, h1 ▸ hsp⟩

/-- One page, and a request to give back two: granted, with the page still
there. -/
theorem growproc_below_zero : ∃ s, uvmalloc firstTable.pt 0 4096 PTE_W firstTable.phys = .ok (4096, s) ∧
    Space s firstTable.pt 1 ∧ Pages 4096 1 ∧
    growproc ⟨firstTable.pt, 4096⟩ (-8192) s = .ok ((0, ⟨firstTable.pt, 4096⟩), s) := by
  have hrun : (uvmalloc firstTable.pt 0 4096 PTE_W firstTable.phys).toOption.map Prod.fst = some 4096 := by
    decide +kernel
  have hspec := uvmalloc_spec (m := 1) space_firstTable ⟨Nat.le_refl 0, by decide⟩
    (show Pages 4096 1 from ⟨by decide, by decide⟩) (by decide) (show PermOk (PTE_R ||| PTE_U ||| PTE_W) from
      ⟨by decide, by decide⟩)
  obtain ⟨r, s, hok, hres⟩ := hspec.returns
  rw [hok] at hrun
  rw [show r = 4096 from Option.some.inj hrun] at hok hres
  rcases hres with ⟨e, -⟩ | ⟨-, hres, -⟩
  · cases e
  · exact ⟨s, hok, hres.space, ⟨by decide, by decide⟩,
      growproc_negative s _ (by decide) (by decide) (by decide)⟩

end Xv6.Vm
