import Xv6.Core.Tree
import Xv6.Vm.Basic

/-!
# The tree of page-table pages

A page table is a tree of pages: `Phys.child` follows a valid PTE of an
interior page, the root is the table's address, and the pages of depth 2 hold
the leaf PTEs. `Table` is the invariant of the tables the kernel builds: no
page is shared between two paths, every page is one the allocator manages
and none is free, a valid PTE is marked as a leaf exactly in the pages of
depth 2, and the half of the root that no address below `MAXVA` uses is empty.

* `walkFrom_lookup`: `walk` without `alloc` is `descend`.
* `walkFrom_alloc`: with `alloc` it returns the leaf slot or, for want of
  pages, null; either way every leaf PTE is as it was.
* `store_leaf`: a store through such a slot changes that leaf PTE alone.
-/
namespace Xv6.Vm

/-- Index of `va` in a table of the given level. -/
def idx (level va : Nat) : Fin 512 := ⟨px level va, px_lt level va⟩

/-- The page an interior PTE points to. -/
def Phys.child (s : Phys) (pt : Nat) (i : Fin 512) : Option Nat :=
  if s.word (pt + 8 * i) &&& PTE_V ≠ 0 then some (pte2pa (s.word (pt + 8 * i))) else none

/-- The indices `walk` follows from a table of the given level. -/
def steps (va : Nat) : Nat → List (Fin 512)
  | 0 => []
  | level + 1 => idx (level + 1) va :: steps va level

/-- The PTE at index `i` of the page at the end of a path; 0 if there is
none. -/
def Phys.leafAt (s : Phys) (pt : Nat) (p : List (Fin 512)) (i : Fin 512) : Nat :=
  match descend s.child pt p with
  | some n => s.word (n + 8 * i)
  | none => 0

/-- `a` is a page of the table `pt`. -/
def Node (s : Phys) (pt a : Nat) : Prop := Reached s.child pt 2 a

/-- A page that `kfree` accepts. -/
def KPage (s : Phys) (a : Nat) : Prop := a % PGSIZE = 0 ∧ s.kend ≤ a ∧ a < PHYSTOP

structure FreeOk (s : Phys) : Prop where
  kend : 0 < s.kend
  nodup : s.freelist.Nodup
  page : ∀ a ∈ s.freelist, KPage s a

structure Table (s : Phys) (pt : Nat) : Prop where
  shape : Shape s.child pt 2
  page : ∀ a, Node s pt a → KPage s a
  used : ∀ a, Node s pt a → a ∉ s.freelist
  leaf : ∀ p i, p.length = 2 → s.leafAt pt p i &&& PTE_V ≠ 0 → pteFlags (s.leafAt pt p i) ≠ PTE_V
  inner : ∀ a, Reached s.child pt 1 a → ∀ i : Fin 512, s.word (a + 8 * i) &&& PTE_V ≠ 0 →
    pteFlags (s.word (a + 8 * i)) = PTE_V
  half : ∀ i : Fin 512, 256 ≤ i.1 → s.child pt i = none

/-- What a change to the table `pt` leaves alone: pages move from the free
list into the table, and no other page is written. -/
structure Keeps (pt : Nat) (s s' : Phys) : Prop where
  table : Table s' pt
  free : FreeOk s'
  kend : s'.kend = s.kend
  pages : ∀ a, Node s' pt a ∨ a ∈ s'.freelist ↔ Node s pt a ∨ a ∈ s.freelist
  sub : ∀ a ∈ s'.freelist, a ∈ s.freelist
  frame : ∀ a, a % PGSIZE = 0 → ¬Node s pt a → a ∉ s.freelist → s'.mem (a / PGSIZE) = s.mem (a / PGSIZE)

/-- All leaf PTEs are as they were. -/
def SameLeaves (pt : Nat) (s s' : Phys) : Prop := ∀ p i, p.length = 2 → s'.leafAt pt p i = s.leafAt pt p i

variable {pt a b n va : Nat} {s t u : Phys} {i : Fin 512} {Q : Unit → Phys → Prop} {R : Panic → Prop}
  {p : List (Fin 512)}

theorem KPage.congr (h : KPage s a) (hk : t.kend = s.kend) :
    KPage t a := ⟨h.1, by rw [hk]; exact h.2.1, h.2.2⟩

theorem KPage.ne_zero (h : KPage s a) (hf : FreeOk s) : a ≠ 0 := by
  have h1 := hf.kend
  have h2 := h.2.1
  omega

section
variable (hf : FreeOk s) (hk : t.kend = s.kend)
include hf hk

theorem FreeOk.congr (hl : t.freelist = s.freelist) : FreeOk t :=
  ⟨by rw [hk]; exact hf.kend, by rw [hl]; exact hf.nodup, fun a ha => (hf.page a (hl ▸ ha)).congr hk⟩

theorem FreeOk.cons (ha : KPage s a) (hu : a ∉ s.freelist)
    (hl : t.freelist = a :: s.freelist) : FreeOk t := by
  refine ⟨by rw [hk]; exact hf.kend, by rw [hl]; exact List.nodup_cons.2 ⟨hu, hf.nodup⟩,
    fun b hb => .congr ?_ hk⟩
  rw [hl] at hb
  rcases List.mem_cons.1 hb with rfl | hb
  · exact ha
  · exact hf.page b hb

theorem FreeOk.tail (hl : s.freelist = a :: t.freelist) : FreeOk t := by
  have hnd := hf.nodup
  rw [hl, List.nodup_cons] at hnd
  exact ⟨by rw [hk]; exact hf.kend, hnd.2,
    fun b hb => (hf.page b (by rw [hl]; exact List.mem_cons_of_mem _ hb)).congr hk⟩

end

theorem Keeps.refl (h : Table s pt) (hf : FreeOk s) : Keeps pt s s :=
  ⟨h, hf, rfl, fun _ => Iff.rfl, fun _ => id, fun _ _ _ _ => rfl⟩

theorem Keeps.neither (h : Keeps pt s t) (hn : ¬Node s pt a) (hf : a ∉ s.freelist) :
    ¬Node t pt a ∧ a ∉ t.freelist :=
  not_or.1 (mt (h.pages a).1 (not_or.2 ⟨hn, hf⟩))

theorem Keeps.trans (h : Keeps pt s t) (h' : Keeps pt t u) : Keeps pt s u := by
  refine ⟨h'.table, h'.free, h'.kend.trans h.kend, fun a => (h'.pages a).trans (h.pages a),
    fun a ha => h.sub a (h'.sub a ha), fun a ha hn hf => ?_⟩
  obtain ⟨hn', hf'⟩ := h.neither hn hf
  rw [h'.frame a ha hn' hf', h.frame a ha hn hf]

/-! ## Entries of a page -/

section
variable (ha : a % PGSIZE = 0)
include ha

theorem entry_page (i : Fin 512) : (a + 8 * i) / PGSIZE = a / PGSIZE := by
  simp only [PGSIZE] at *
  omega

theorem entry_aligned (i : Fin 512) : (a + 8 * i) % 8 = 0 := by
  simp only [PGSIZE] at ha
  omega

theorem entry_ne {j : Fin 512} (hb : b % PGSIZE = 0)
    (h : ¬(a = b ∧ i = j)) : a + 8 * i.1 ≠ b + 8 * j.1 := by
  intro e
  simp only [PGSIZE] at ha hb
  exact h ⟨by omega, Fin.ext (by omega)⟩

theorem page_ne (hb : b % PGSIZE = 0) (h : a ≠ b) :
    a / PGSIZE ≠ b / PGSIZE := by
  simp only [PGSIZE] at *
  omega

theorem word_entry_congr
    (h : t.mem (a / PGSIZE) = s.mem (a / PGSIZE)) (i : Fin 512) : t.word (a + 8 * i) = s.word (a + 8 * i) :=
  Phys.word_congr (by rw [entry_page ha i]; exact h)

theorem child_congr
    (h : t.mem (a / PGSIZE) = s.mem (a / PGSIZE)) (i : Fin 512) : t.child a i = s.child a i := by
  unfold Phys.child
  rw [word_entry_congr ha h i]

end

/-! ## Changes outside the table -/

/-- The table is the same tree, with the same leaf PTEs. -/
structure SameTree (pt : Nat) (s t : Phys) : Prop where
  table : Table t pt
  node : ∀ a, Node t pt a ↔ Node s pt a
  leaves : SameLeaves pt s t
  paths : ∀ p, p.length ≤ 2 → descend t.child pt p = descend s.child pt p

theorem SameTree.refl (h : Table s pt) : SameTree pt s s :=
  ⟨h, fun _ => Iff.rfl, fun _ _ _ => rfl, fun _ _ => rfl⟩

theorem SameTree.trans (h : SameTree pt s t) (h' : SameTree pt t u) : SameTree pt s u :=
  ⟨h'.table, fun a => (h'.node a).trans (h.node a), fun p i hp => (h'.leaves p i hp).trans (h.leaves p i hp),
    fun p hp => (h'.paths p hp).trans (h.paths p hp)⟩

/-- A table whose pages keep their contents. -/
theorem Table.congr (h : Table s pt)
    (hm : ∀ a, Node s pt a → t.mem (a / PGSIZE) = s.mem (a / PGSIZE)) (hk : t.kend = s.kend)
    (hf : ∀ a, Node s pt a → a ∉ t.freelist) :
    SameTree pt s t := by
  have hc : ∀ a, Reached s.child pt 1 a → ∀ i, t.child a i = s.child a i := by
    intro a ha i
    have hn : Node s pt a := ha.mono (by omega)
    exact child_congr (h.page a hn).1 (hm a hn) i
  have hnode : ∀ a, Node t pt a ↔ Node s pt a := fun a => reached_congr hc a
  have hleaf : SameLeaves pt s t := by
    intro p i hp
    unfold Phys.leafAt
    rw [descend_congr hc (by omega)]
    cases hd : descend s.child pt p with
    | none => rfl
    | some n =>
      have hn : Node s pt n := ⟨p, by omega, hd⟩
      exact word_entry_congr (h.page n hn).1 (hm n hn) i
  refine ⟨⟨h.shape.congr hc, ?_, ?_, ?_, ?_, ?_⟩, hnode, hleaf, fun p hp => descend_congr hc hp⟩
  · intro a ha
    exact (h.page a ((hnode a).1 ha)).congr hk
  · intro a ha
    exact hf a ((hnode a).1 ha)
  · intro p i hp
    rw [hleaf p i hp]
    exact h.leaf p i hp
  · intro a ha i
    have ha' : Reached s.child pt 1 a := by
      obtain ⟨p, hp, hd⟩ := ha
      exact ⟨p, hp, by rw [← descend_congr hc (by omega)]; exact hd⟩
    have hn : Node s pt a := ha'.mono (by omega)
    rw [word_entry_congr (h.page a hn).1 (hm a hn) i]
    exact h.inner a ha' i
  · intro i hi
    rw [hc pt (reached_root _ _ _) i]
    exact h.half i hi

/-- A state that differs in `refuse` alone. -/
theorem Keeps.of_same (h : Table s pt) (hf : FreeOk s) (hm : t.mem = s.mem)
    (hl : t.freelist = s.freelist) (hk : t.kend = s.kend) : Keeps pt s t ∧ SameLeaves pt s t := by
  obtain ⟨htab, hnode, hleaf, -⟩ := h.congr (t := t) (fun a _ => by rw [hm]) hk
    (fun a ha => by rw [hl]; exact h.used a ha)
  refine ⟨⟨htab, hf.congr hk hl, hk, ?_, ?_, ?_⟩, hleaf⟩
  · intro a; rw [hnode, hl]
  · intro a ha; rw [hl] at ha; exact ha
  · intro a _ _ _; rw [hm]

/-! ## The walk -/

@[simp] theorem wp_load (a : Nat) {Q : Nat → Phys → Prop} :
    Wp (load a) s Q R ↔ Q (s.word a) s := wp_ok rfl

@[simp] theorem wp_store (a v : Nat) :
    Wp (store a v) s Q R ↔ Q () (s.setWord a v) := wp_ok rfl

@[simp] theorem wp_memset (a : Nat) (c : UInt8) :
    Wp (memset a c) s Q R ↔ Q () (s.fill a c) := wp_ok rfl

/-- What `kalloc` gives: nothing, or the first free page. -/
inductive Kalloc (s : Phys) : Nat → Phys → Prop where
  | none {t : Phys} (mem : t.mem = s.mem) (free : t.freelist = s.freelist) (kend : t.kend = s.kend) :
      Kalloc s 0 t
  | page {r : Nat} {t : Phys} (free : s.freelist = r :: t.freelist) (kend : t.kend = s.kend)
      (mem : ∀ n, n ≠ r / PGSIZE → t.mem n = s.mem n) : Kalloc s r t

theorem kalloc_spec (s : Phys) : Wp kalloc s (Kalloc s) R := by
  unfold Wp kalloc
  cases s.refuse.headD false with
  | true => exact .none rfl rfl rfl
  | false =>
    cases hf : s.freelist with
    | nil => exact .none rfl hf.symm rfl
    | cons r rest => exact .page hf rfl (fun n hn => Phys.mem_fill_ne s 5 hn)

theorem child_some (h : s.word (n + 8 * i) &&& PTE_V ≠ 0) :
    s.child n i = some (pte2pa (s.word (n + 8 * i))) := by
  unfold Phys.child; rw [if_pos h]

theorem child_none (h : ¬s.word (n + 8 * i) &&& PTE_V ≠ 0) :
    s.child n i = none := by
  unfold Phys.child; rw [if_neg h]

/-- `walk` without `alloc` only looks. -/
theorem walkFrom_lookup (va : Nat) (s : Phys) : ∀ level pt,
    walkFrom va false level pt s =
      .ok ((match descend s.child pt (steps va level) with
        | some n => n + 8 * px 0 va
        | none => 0), s)
  | 0, pt => rfl
  | level + 1, pt => by
    have ih := walkFrom_lookup va s level
    unfold walkFrom
    simp only [bind, load, steps, descend]
    by_cases h : s.word (pt + 8 * px (level + 1) va) &&& PTE_V ≠ 0
    · rw [if_pos h, ih, child_some (i := idx (level + 1) va) h]
      rfl
    · rw [if_neg h, child_none (i := idx (level + 1) va) h]
      rfl

/-- `s'` is `s` with the first free page `c`, zeroed, hung under entry `i` of
the page `n`. -/
structure Hang (s s' : Phys) (n c : Nat) (i : Fin 512) : Prop where
  free : s.freelist = c :: s'.freelist
  kend : s'.kend = s.kend
  out : ∀ a, a % PGSIZE = 0 → a ≠ n → a ≠ c → s'.mem (a / PGSIZE) = s.mem (a / PGSIZE)
  zero : ∀ j : Fin 512, s'.word (c + 8 * j) = 0
  new : s'.child n i = some c
  flag : pteFlags (s'.word (n + 8 * i)) = PTE_V
  old : ∀ j : Fin 512, j ≠ i → s'.word (n + 8 * j) = s.word (n + 8 * j)

/-- What `walk` does after a successful `kalloc`. -/
theorem hang_of_store {c : Nat} (hna : n % PGSIZE = 0) (hca : c % PGSIZE = 0)
    (hcp : c < PHYSTOP) (hcn : c ≠ n) (hfree : s.freelist = c :: t.freelist) (hk : t.kend = s.kend)
    (hm : ∀ k, k ≠ c / PGSIZE → t.mem k = s.mem k) :
    Hang s ((t.fill c 0).setWord (n + 8 * i) (pa2pte c ||| PTE_V)) n c i := by
  have hc64 : c < 2 ^ 64 := Nat.lt_trans hcp (by decide)
  have hor : pa2pte c ||| PTE_V = pa2pte c ||| 0 ||| PTE_V := by rw [Nat.or_zero]
  have hnc := page_ne hna hca (Ne.symm hcn)
  have hword : ((t.fill c 0).setWord (n + 8 * i) (pa2pte c ||| PTE_V)).word (n + 8 * i) =
      pa2pte c ||| PTE_V := by
    refine Phys.word_setWord _ (entry_aligned hna i) ?_
    rw [hor]; exact pte_lt hc64 (by decide)
  refine ⟨hfree, hk, ?_, ?_, ?_, ?_, ?_⟩
  · intro a ha h1 h2
    have hac := page_ne ha hca h2
    rw [Phys.mem_setWord_ne _ _ (by rw [entry_page hna]; exact page_ne ha hna h1),
      Phys.mem_fill_ne _ _ hac, hm _ hac]
  · intro j
    rw [Phys.word_setWord_ne _ _ (entry_aligned hna i) (entry_aligned hca j)
      (entry_ne hca hna (fun e => hcn e.1))]
    exact Phys.word_fill_zero t (entry_page hca j)
  · rw [child_some (by rw [hword, hor]; exact pte_valid _ _), hword, hor, pte2pa_pte hc64 hca (by decide)]
  · rw [hword, hor, pteFlags_pte hc64 (by decide)]
    decide
  · intro j hj
    rw [Phys.word_setWord_ne _ _ (entry_aligned hna i) (entry_aligned hna j)
      (entry_ne hna hna (fun e => hj e.2))]
    apply word_entry_congr hna
    rw [Phys.mem_fill_ne _ _ hnc, hm _ hnc]

section Hang
variable {s s' : Phys} {pt n c : Nat} {p : List (Fin 512)} {i : Fin 512}

section
variable (g : Hang s s' n c i) (h : Table s pt)
include g h

theorem Hang.fresh : ¬Node s pt c :=
  fun e => h.used c e (by rw [g.free]; exact List.mem_cons_self)

theorem Hang.attach (hp : p.length < 2)
    (hn : descend s.child pt p = some n) (hi : s.child n i = none) :
    Attach s.child s'.child pt 2 p i n c := by
  refine ⟨hp, hn, hi, g.fresh h, g.new, ?_, ?_⟩
  · intro j
    exact child_none (by rw [g.zero j]; decide)
  · intro a ha j hj
    have haa := (h.page a ha).1
    by_cases e : a = n
    · subst e
      unfold Phys.child
      rw [g.old j (fun e => hj ⟨rfl, e⟩)]
    · have hac : a ≠ c := fun e' => g.fresh h (e' ▸ ha)
      exact child_congr haa (g.out a haa e hac) j

/-- The new page is an interior page, or a leaf page whose PTEs were absent
and are now zero. -/
theorem Hang.leaves (hp : p.length < 2)
    (hn : descend s.child pt p = some n) (hi : s.child n i = none) : SameLeaves pt s s' := by
  have hatt := g.attach h hp hn hi
  intro q j hq
  unfold Phys.leafAt
  rw [descend_attach h.shape hatt (by omega)]
  by_cases e : q = p ++ [i]
  · rw [if_pos e, e, descend_snoc, hn, Option.bind_some, hi]
    exact g.zero j
  rw [if_neg e]
  cases hd : descend s.child pt q with
  | none => rfl
  | some m =>
    have hmN : Node s pt m := ⟨q, by omega, hd⟩
    have hma := (h.page m hmN).1
    have hmn : m ≠ n := by
      intro e
      have hqp := h.shape q p n (by omega) (by omega) (e ▸ hd) hn
      rw [hqp] at hq; omega
    exact word_entry_congr hma (g.out m hma hmn (fun e => g.fresh h (e ▸ hmN))) j

theorem Hang.inner (hp : p.length < 2)
    (hn : descend s.child pt p = some n) (hi : s.child n i = none) : ∀ a, Reached s'.child pt 1 a →
    ∀ j : Fin 512, s'.word (a + 8 * j) &&& PTE_V ≠ 0 → pteFlags (s'.word (a + 8 * j)) = PTE_V := by
  rintro a ⟨q, hq, hd⟩ j
  rw [descend_attach h.shape (g.attach h hp hn hi) (by omega)] at hd
  split at hd
  · cases hd
    intro hv
    rw [g.zero j] at hv
    exact absurd (Nat.zero_and _) hv
  have haN : Node s pt a := ⟨q, by omega, hd⟩
  by_cases e : a = n
  · subst e
    by_cases hj : j = i
    · intro _
      rw [hj]
      exact g.flag
    · rw [g.old j hj]
      exact h.inner a ⟨q, hq, hd⟩ j
  · have haa := (h.page a haN).1
    rw [word_entry_congr haa (g.out a haa e fun e' => g.fresh h (e' ▸ haN)) j]
    exact h.inner a ⟨q, hq, hd⟩ j

theorem Hang.half (hp : p.length < 2) (hn : descend s.child pt p = some n)
    (hi : s.child n i = none) (hlow : p = [] → i.1 < 256) (j : Fin 512) (hj : 256 ≤ j.1) :
    s'.child pt j = none := by
  have hd := descend_attach h.shape (g.attach h hp hn hi) (show [j].length ≤ 2 by simp)
  have hne : [j] ≠ p ++ [i] := by
    intro e
    obtain ⟨h1, h2⟩ := List.append_inj' (show [] ++ [j] = p ++ [i] from e) rfl
    have h3 := hlow h1.symm
    rw [← (List.cons.inj h2).1] at h3
    omega
  rw [if_neg hne] at hd
  simpa [descend, h.half j hj] using hd

theorem Hang.keeps (hf : FreeOk s) (hp : p.length < 2)
    (hn : descend s.child pt p = some n) (hi : s.child n i = none) (hlow : p = [] → i.1 < 256) :
    Keeps pt s s' := by
  have hatt := g.attach h hp hn hi
  have hleaf := g.leaves h hp hn hi
  have hnode : ∀ a, Node s' pt a ↔ a = c ∨ Node s pt a := fun a => reached_attach h.shape hatt a
  have hsub : ∀ a ∈ s'.freelist, a ∈ s.freelist := by
    intro a ha; rw [g.free]; exact List.mem_cons_of_mem _ ha
  have hcf : c ∈ s.freelist := by rw [g.free]; exact List.mem_cons_self
  have hnd := hf.nodup
  rw [g.free, List.nodup_cons] at hnd
  refine ⟨⟨h.shape.attach hatt, ?_, ?_, ?_, g.inner h hp hn hi, g.half h hp hn hi hlow⟩,
    hf.tail g.kend g.free, g.kend, ?_, hsub, ?_⟩
  · intro a ha
    rcases (hnode a).1 ha with e | ha
    · exact (e ▸ hf.page c hcf).congr g.kend
    · exact (h.page a ha).congr g.kend
  · intro a ha
    rcases (hnode a).1 ha with e | ha
    · rw [e]; exact hnd.1
    · exact fun hm => h.used a ha (hsub a hm)
  · intro q j hq
    rw [hleaf q j hq]
    exact h.leaf q j hq
  · intro a
    rw [hnode, g.free, List.mem_cons]
    tauto
  · intro a ha hnn hnf
    exact g.out a ha (fun e => hnn (e ▸ ⟨p, by omega, hn⟩)) (fun e => hnf (e ▸ hcf))

end

end Hang

/-- Addresses below `MAXVA` use the lower half of the root. -/
theorem px_root (hv : va < MAXVA) : px 2 va < 256 := by
  rw [px_eq]
  simp only [MAXVA_eq, Nat.reduceMul, Nat.reduceAdd, Nat.reducePow] at *
  omega

/-- `walk` with `alloc`, from the page at the end of `p`. -/
theorem walkFrom_alloc (hv : va < MAXVA) (pt : Nat) (level : Nat) (h : Table s pt) (hf : FreeOk s)
    (hn : descend s.child pt p = some n) (hl : p.length + level = 2) :
    Wp (walkFrom va true level n) s (fun r s' => Keeps pt s s' ∧ SameLeaves pt s s' ∧
      (r = 0 ∨ ∃ m, descend s'.child pt (p ++ steps va level) = some m ∧ r = m + 8 * px 0 va)) R := by
  induction level generalizing s p n with
  | zero =>
    unfold walkFrom
    rw [wp_pure]
    refine ⟨Keeps.refl h hf, fun _ _ _ => rfl, .inr ⟨n, ?_, rfl⟩⟩
    rw [steps, List.append_nil]; exact hn
  | succ level ih =>
    have hsnoc : p ++ steps va (level + 1) = (p ++ [idx (level + 1) va]) ++ steps va level := by simp [steps]
    have hlen : (p ++ [idx (level + 1) va]).length + level = 2 := by simp; omega
    rw [hsnoc]
    unfold walkFrom
    simp only [wp_bind, wp_load]
    by_cases hV : s.word (n + 8 * px (level + 1) va) &&& PTE_V ≠ 0
    · rw [if_pos hV]
      refine ih h hf ?_ hlen
      rw [descend_snoc, hn, Option.bind_some]
      exact child_some (i := idx (level + 1) va) hV
    have hi : s.child n (idx (level + 1) va) = none := child_none hV
    rw [if_neg hV, if_neg (by simp)]
    refine (kalloc_spec s).bind ?_
    intro r t hk
    cases hk with
    | none hm hfl hke =>
      obtain ⟨h1, h2⟩ := Keeps.of_same h hf hm hfl hke
      rw [if_pos rfl, wp_pure]
      exact ⟨h1, h2, .inl rfl⟩
    | page hfree hke hm =>
      have hrf : r ∈ s.freelist := by rw [hfree]; exact List.mem_cons_self
      obtain ⟨hra, hrk, hrp⟩ := hf.page r hrf
      have hnN : Node s pt n := ⟨p, by omega, hn⟩
      have hr0 := (hf.page r hrf).ne_zero hf
      have g := hang_of_store (i := idx (level + 1) va) (h.page n hnN).1 hra hrp
        (fun e => h.used r (e ▸ hnN) hrf) hfree hke hm
      rw [if_neg hr0]
      simp only [wp_bind, wp_memset, wp_store]
      -- the state after the store, as a variable
      change Wp _ ((t.fill r 0).setWord (n + 8 * (idx (level + 1) va).1) (pa2pte r ||| PTE_V)) _ _
      generalize (t.fill r 0).setWord (n + 8 * (idx (level + 1) va).1) (pa2pte r ||| PTE_V) = s1 at g ⊢
      have hk1 := g.keeps h hf (by omega) hn hi fun e => by
        rw [e] at hl
        have hl2 : level = 1 := by simpa using hl
        rw [hl2]
        exact px_root hv
      have hl1 := g.leaves h (by omega) hn hi
      have hd1 : descend s1.child pt (p ++ [idx (level + 1) va]) = some r := by
        rw [descend_attach h.shape (g.attach h (by omega) hn hi) (by simp; omega), if_pos rfl]
      refine (ih hk1.table hk1.free hd1 hlen).post ?_
      intro r' s2 h2
      obtain ⟨hk2, hl2, hr2⟩ := h2
      exact ⟨hk1.trans hk2, fun q j hq => (hl2 q j hq).trans (hl1 q j hq), hr2⟩

/-! ## Stores through a leaf slot -/

/-- A leaf PTE written through the slot `walk` returned. -/
theorem store_leaf {m v : Nat} (i : Fin 512) (h : Table s pt) (hf : FreeOk s)
    (hp : p.length = 2) (hm : descend s.child pt p = some m) (hv : v < 256 ^ 8)
    (hflag : v &&& PTE_V ≠ 0 → pteFlags v ≠ PTE_V) :
    Keeps pt s (s.setWord (m + 8 * i) v) ∧
    (∀ a, Node (s.setWord (m + 8 * i) v) pt a ↔ Node s pt a) ∧
    (∀ a, a % PGSIZE = 0 → ¬Node s pt a → (s.setWord (m + 8 * i) v).mem (a / PGSIZE) = s.mem (a / PGSIZE)) ∧
    ∀ q j, q.length = 2 →
      (s.setWord (m + 8 * i) v).leafAt pt q j = if q = p ∧ j = i then v else s.leafAt pt q j := by
  have hmN : Node s pt m := ⟨p, by omega, hm⟩
  have hma := (h.page m hmN).1
  have hother : ∀ a, a % PGSIZE = 0 → a ≠ m →
      (s.setWord (m + 8 * i) v).mem (a / PGSIZE) = s.mem (a / PGSIZE) := by
    intro a ha hne
    exact Phys.mem_setWord_ne _ _ (by rw [entry_page hma]; exact page_ne ha hma hne)
  have hframe : ∀ a, a % PGSIZE = 0 → ¬Node s pt a →
      (s.setWord (m + 8 * i) v).mem (a / PGSIZE) = s.mem (a / PGSIZE) :=
    fun a ha hn => hother a ha (fun e => hn (e ▸ hmN))
  -- interior pages are at depth at most 1, the written page is at depth 2
  have hinner : ∀ a, Reached s.child pt 1 a → a % PGSIZE = 0 ∧
      (s.setWord (m + 8 * i) v).mem (a / PGSIZE) = s.mem (a / PGSIZE) := by
    rintro a ⟨q, hq, hqa⟩
    have haN : Node s pt a := ⟨q, by omega, hqa⟩
    have hne : a ≠ m := by
      intro e
      have hqp := h.shape q p m (by omega) (by omega) (e ▸ hqa) hm
      rw [hqp] at hq; omega
    have haa := (h.page a haN).1
    exact ⟨haa, hother a haa hne⟩
  have hc : ∀ a, Reached s.child pt 1 a → ∀ j, (s.setWord (m + 8 * i) v).child a j = s.child a j :=
    fun a ha j => child_congr (hinner a ha).1 (hinner a ha).2 j
  have hnode : ∀ a, Node (s.setWord (m + 8 * i) v) pt a ↔ Node s pt a := fun a => reached_congr hc a
  have hleaf : ∀ q j, q.length = 2 →
      (s.setWord (m + 8 * i) v).leafAt pt q j = if q = p ∧ j = i then v else s.leafAt pt q j := by
    intro q j hq
    unfold Phys.leafAt
    rw [descend_congr hc (by omega)]
    by_cases e : q = p ∧ j = i
    · rw [if_pos e, e.1, e.2, hm]
      exact Phys.word_setWord _ (entry_aligned hma i) hv
    rw [if_neg e]
    cases hd : descend s.child pt q with
    | none => rfl
    | some n =>
      have hna := (h.page n ⟨q, by omega, hd⟩).1
      refine Phys.word_setWord_ne _ _ (entry_aligned hma i) (entry_aligned hna j) (entry_ne hna hma ?_)
      intro hnj
      exact e ⟨h.shape q p m (by omega) (by omega) (hnj.1 ▸ hd) hm, hnj.2⟩
  refine ⟨⟨⟨h.shape.congr hc, fun a ha => h.page a ((hnode a).1 ha),
    fun a ha => h.used a ((hnode a).1 ha), ?_, ?_,
      fun j hj => (hc pt (reached_root _ _ _) j).trans (h.half j hj)⟩,
    ⟨hf.kend, hf.nodup, fun a ha => hf.page a ha⟩, rfl, fun a => by rw [hnode]; rfl, fun _ => id,
    fun a ha hn _ => hframe a ha hn⟩, hnode, hframe, hleaf⟩
  · intro q j hq
    rw [hleaf q j hq]
    split
    · exact hflag
    · exact h.leaf q j hq
  · rintro a ⟨q, hq, hqa⟩ j
    have ha : Reached s.child pt 1 a := ⟨q, hq, by rw [← descend_congr hc (by omega)]; exact hqa⟩
    rw [word_entry_congr (hinner a ha).1 (hinner a ha).2 j]
    exact h.inner a ha j

end Xv6.Vm
