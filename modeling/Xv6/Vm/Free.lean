import Xv6.Vm.Alloc

/-!
# Taking a page table apart (`freewalk`, `uvmfree`, `proc_pagetable`, `proc_freepagetable`)

`freewalk` frees the pages of a table from the leaves up; it panics if a leaf
mapping is left. A table is created from free pages (`Made`) and taken apart
again, after which the free pages are those it was made of (`Freed`).

* `freewalk_spec`: every page of the table is freed once, no other page is
  written, and a table without leaf mappings does not panic.
* `uvmfree_spec`, `procFreepagetable_spec`: likewise with the user's pages.
* `procPagetable_spec`: an address space without user pages, or nothing.
* `Space.other`: an address space is untouched while another one is made.
* `process_freed`, `Newborn.freed`: a process with its trapframe.
-/
namespace Xv6.Vm

/-! ## kernel/vm.c:269-297, kernel/proc.c:174-216 -/

/-- The loop of `freewalk` over the entries from `i` on, `below` being the
recursive call.
mirrors kernel/vm.c:275-285 -/
def freeEntries (below : Nat → M Unit) (pagetable : Nat) : Nat → Nat → M Unit
  | 0, _ => pure ()
  | n + 1, i => do
    let pte ← load (pagetable + 8 * i)
    if pte &&& PTE_V ≠ 0 ∧ pte &&& (PTE_R ||| PTE_W ||| PTE_X) = 0 then do
      below (pte2pa pte)
      store (pagetable + 8 * i) 0
      freeEntries below pagetable n (i + 1)
    else if pte &&& PTE_V ≠ 0 then Prog.panic .freewalkLeaf
    else freeEntries below pagetable n (i + 1)

/-- The source recurses as deep as the table is; page tables have three
levels, and a fourth one stops the model as a leaf does.
mirrors kernel/vm.c:269-287 -/
def freewalk : Nat → Nat → M Unit
  | 0, _ => Prog.panic .freewalkLeaf
  | level + 1, pagetable => do
    freeEntries (freewalk level) pagetable 512 0
    kfree pagetable

/-- mirrors kernel/vm.c:289-297 -/
def uvmfree (pagetable sz : Nat) : M Unit :=
  if 0 < sz then do
    uvmunmap pagetable 0 (pgRoundUp sz / PGSIZE) true
    freewalk 3 pagetable
  else freewalk 3 pagetable

/-- The trampoline is a page of the kernel's text; where it is linked is a
parameter.
mirrors kernel/proc.c:174-206 -/
def procPagetable (trampoline trapframe : Nat) : M Nat := do
  let pagetable ← uvmcreate
  if pagetable = 0 then pure 0
  else do
    let r ← mappages pagetable TRAMPOLINE PGSIZE trampoline (PTE_R ||| PTE_X)
    if r < 0 then do
      uvmfree pagetable 0
      pure 0
    else do
      let r ← mappages pagetable TRAPFRAME PGSIZE trapframe (PTE_R ||| PTE_W)
      if r < 0 then do
        uvmunmap pagetable TRAMPOLINE 1 false
        uvmfree pagetable 0
        pure 0
      else pure pagetable

/-- mirrors kernel/proc.c:208-216 -/
def procFreepagetable (pagetable sz : Nat) : M Unit := do
  uvmunmap pagetable TRAMPOLINE 1 false
  uvmunmap pagetable TRAPFRAME 1 false
  uvmfree pagetable sz

/-! ## freewalk -/

/-- The pages `P` have been freed, each once, and no other page is written. -/
structure Freed (s s' : Phys) (P : Nat → Prop) : Prop where
  free : FreeOk s'
  kend : s'.kend = s.kend
  list : ∀ a, a ∈ s'.freelist ↔ P a ∨ a ∈ s.freelist
  mem : ∀ a, a % PGSIZE = 0 → ¬P a → a ∉ s.freelist → s'.mem (a / PGSIZE) = s.mem (a / PGSIZE)

/-- A table with `d` levels below it and no leaf mappings. -/
structure Subtree (s : Phys) (d n : Nat) : Prop where
  shape : Shape s.child n d
  page : ∀ a, Reached s.child n d a → KPage s a ∧ a ∉ s.freelist
  inner : ∀ p a, p.length < d → descend s.child n p = some a →
    ∀ i : Fin 512, s.word (a + 8 * i) &&& PTE_V ≠ 0 → pteFlags (s.word (a + 8 * i)) = PTE_V
  leaf : ∀ p a, p.length = d → descend s.child n p = some a → ∀ i : Fin 512, s.word (a + 8 * i) &&& PTE_V = 0

section Subtree
variable {s t : Phys} {d n : Nat}

theorem Subtree.congr (h : Subtree s d n)
    (hm : ∀ a, Reached s.child n d a → t.mem (a / PGSIZE) = s.mem (a / PGSIZE))
    (hk : t.kend = s.kend) (hf : ∀ a, Reached s.child n d a → a ∉ t.freelist) :
    Subtree t d n ∧ ∀ a, Reached t.child n d a ↔ Reached s.child n d a := by
  have hc : ∀ a, Reached s.child n d a → ∀ i, t.child a i = s.child a i :=
    fun a ha i => child_congr (h.page a ha).1.1 (hm a ha) i
  have hd : ∀ p : List (Fin 512), p.length ≤ d → descend t.child n p = descend s.child n p :=
    fun p hp => descend_congr hc (by omega)
  have hr : ∀ a, Reached t.child n d a ↔ Reached s.child n d a := by
    intro a
    constructor
    · rintro ⟨p, hp, ha⟩
      exact ⟨p, hp, by rw [← hd p hp]; exact ha⟩
    · rintro ⟨p, hp, ha⟩
      exact ⟨p, hp, by rw [hd p hp]; exact ha⟩
  refine ⟨⟨fun p q a hp hq ha hb => ?_, fun a ha => ?_, fun p a hp ha i => ?_, fun p a hp ha i => ?_⟩, hr⟩
  · rw [hd p hp] at ha
    rw [hd q hq] at hb
    exact h.shape p q a hp hq ha hb
  · have ha' := (hr a).1 ha
    obtain ⟨⟨h1, h2, h3⟩, -⟩ := h.page a ha'
    exact ⟨⟨h1, by rw [hk]; exact h2, h3⟩, hf a ha'⟩
  · rw [hd p (by omega)] at ha
    have hra : Reached s.child n d a := ⟨p, by omega, ha⟩
    rw [word_entry_congr (h.page a hra).1.1 (hm a hra) i]
    exact h.inner p a hp ha i
  · rw [hd p (by omega)] at ha
    have hra : Reached s.child n d a := ⟨p, by omega, ha⟩
    rw [word_entry_congr (h.page a hra).1.1 (hm a hra) i]
    exact h.leaf p a hp ha i

theorem Subtree.below {c : Nat} {i : Fin 512} (h : Subtree s (d + 1) n) (hc : s.child n i = some c) :
    Subtree s d c := by
  refine ⟨h.shape.below hc, fun a ha => h.page a ?_, fun p a hp ha => ?_, fun p a hp ha => ?_⟩
  · exact (reached_succ a).2 (.inr ⟨i, c, hc, ha⟩)
  · rw [← descend_cons hc] at ha
    exact h.inner (i :: p) a (by simpa using hp) ha
  · rw [← descend_cons hc] at ha
    exact h.leaf (i :: p) a (by simpa using hp) ha

theorem Subtree.root (h : Subtree s d n) : KPage s n ∧ n ∉ s.freelist := h.page n (reached_root _ _ _)

end Subtree

/-- The subtrees of the entries before `i`. -/
def Gone (s : Phys) (n d i a : Nat) : Prop :=
  ∃ j : Fin 512, j.1 < i ∧ ∃ c, s.child n j = some c ∧ Reached s.child c d a

/-- The loop of `freewalk` at entry `i`. -/
structure Part (s t : Phys) (n d i : Nat) : Prop where
  free : FreeOk t
  kend : t.kend = s.kend
  list : ∀ a, a ∈ t.freelist ↔ Gone s n d i a ∨ a ∈ s.freelist
  mem : ∀ a, a % PGSIZE = 0 → a ≠ n → ¬Gone s n d i a → a ∉ s.freelist →
    t.mem (a / PGSIZE) = s.mem (a / PGSIZE)
  word : ∀ j : Fin 512, i ≤ j.1 → t.word (n + 8 * j) = s.word (n + 8 * j)

variable {s t u : Phys} {n d i pt sz va trampoline trapframe x : Nat} {below : Nat → M Unit} {P : Nat → Prop}

theorem gone_succ (hi : i < 512) (a : Nat) : Gone s n d (i + 1) a ↔
    (∃ c, s.child n ⟨i, hi⟩ = some c ∧ Reached s.child c d a) ∨ Gone s n d i a := by
  constructor
  · rintro ⟨j, hj, hc⟩
    by_cases e : j.1 = i
    · exact .inl (by rwa [show j = ⟨i, hi⟩ from Fin.ext e] at hc)
    · exact .inr ⟨j, by omega, hc⟩
  · rintro (hc | ⟨j, hj, hc⟩)
    · exact ⟨⟨i, hi⟩, Nat.lt_succ_self i, hc⟩
    · exact ⟨j, by omega, hc⟩

/-- The subtree of an entry is untouched when its turn comes. -/
theorem Part.subtree {c : Nat} (hi : i < 512) (h : Subtree s (d + 1) n) (hp : Part s t n d i)
    (hc : s.child n ⟨i, hi⟩ = some c) :
    Subtree t d c ∧ ∀ a, Reached t.child c d a ↔ Reached s.child c d a := by
  have hsub := h.below hc
  have hout : ∀ a, Reached s.child c d a → a ≠ n ∧ ¬Gone s n d i a := by
    intro a ha
    refine ⟨fun e => h.shape.root_apart hc (e ▸ ha), fun ⟨j, hj, e, he, hea⟩ => ?_⟩
    have := h.shape.apart hc he ha hea
    rw [← this] at hj
    exact Nat.lt_irrefl i hj
  refine hsub.congr (fun a ha => ?_) hp.kend (fun a ha e => ?_)
  · obtain ⟨hne, hng⟩ := hout a ha
    obtain ⟨⟨haa, -⟩, hnf⟩ := hsub.page a ha
    exact hp.mem a haa hne hng hnf
  · rcases (hp.list a).1 e with e | e
    · exact (hout a ha).2 e
    · exact (hsub.page a ha).2 e

theorem freeEntries_spec (h : Subtree s (d + 1) n)
    (hbelow : ∀ c t, Subtree t d c → FreeOk t →
      Wp (below c) t (fun _ t' => Freed t t' (Reached t.child c d)) fun _ => False) (k : Nat) :
    ∀ {i : Nat} {t : Phys}, i + k = 512 → Part s t n d i →
    Wp (freeEntries below n k i) t (fun _ t' => Part s t' n d 512) fun _ => False := by
  induction k with
  | zero =>
    intro i t hi hp
    have e : i = 512 := by omega
    unfold freeEntries
    rw [wp_pure, ← e]
    exact hp
  | succ k ih =>
    intro i t hik hp
    have hi : i < 512 := by omega
    have hna := h.root.1.1
    have hword : t.word (n + 8 * i) = s.word (n + 8 * i) := hp.word ⟨i, hi⟩ (Nat.le_refl i)
    unfold freeEntries
    rw [wp_bind, wp_load, hword]
    by_cases hv : s.word (n + 8 * i) &&& PTE_V ≠ 0
    swap
    · -- an empty entry
      have hnone : s.child n ⟨i, hi⟩ = none := child_none hv
      have hsame : ∀ a, Gone s n d (i + 1) a ↔ Gone s n d i a := by
        intro a
        rw [gone_succ hi]
        simp [hnone]
      rw [if_neg (fun e => hv e.1), if_neg hv]
      refine ih (by omega) ⟨hp.free, hp.kend, fun a => ?_, fun a ha hne hng => ?_,
        fun j hj => hp.word j (by omega)⟩
      · rw [hp.list, hsame]
      · exact hp.mem a ha hne fun e => hng ((hsame a).2 e)
    have hc : s.child n ⟨i, hi⟩ = some (pte2pa (s.word (n + 8 * i))) := child_some hv
    have hflags : s.word (n + 8 * i) &&& (PTE_R ||| PTE_W ||| PTE_X) = 0 := by
      rw [and_flags _ (by decide), h.inner [] n (Nat.succ_pos d) rfl ⟨i, hi⟩ hv]
      decide
    rw [if_pos ⟨hv, hflags⟩]
    generalize hcc : pte2pa (s.word (n + 8 * i)) = c at hc ⊢
    obtain ⟨hsub, hreach⟩ := hp.subtree hi h hc
    refine (hbelow c t hsub hp.free).bind fun _ u hu => ?_
    rw [wp_bind, wp_store]
    have hgone : ∀ a, Gone s n d (i + 1) a ↔ Reached t.child c d a ∨ Gone s n d i a := by
      intro a
      rw [gone_succ hi, hreach]
      simp [hc]
    have hroot : u.mem (n / PGSIZE) = t.mem (n / PGSIZE) := by
      refine hu.mem n hna (fun e => h.shape.root_apart hc ((hreach n).1 e)) fun e => ?_
      rcases (hp.list n).1 e with ⟨j, -, e, he, hea⟩ | e
      · exact h.shape.root_apart he hea
      · exact h.root.2 e
    refine ih (by omega) ⟨⟨hu.free.kend, hu.free.nodup, hu.free.page⟩, hu.kend.trans hp.kend, fun a => ?_,
      fun a ha hne hng hnf => ?_, fun j hj => ?_⟩
    · show a ∈ u.freelist ↔ _
      rw [hu.list, hgone, or_assoc]
      exact or_congr_right (hp.list a)
    · rw [hgone, not_or] at hng
      have hnt : a ∉ t.freelist := fun e => ((hp.list a).1 e).elim hng.2 hnf
      rw [Phys.mem_setWord_ne _ _ (by rw [entry_page hna ⟨i, hi⟩]; exact page_ne ha hna hne),
        hu.mem a ha hng.1 hnt]
      exact hp.mem a ha hne hng.2 hnf
    · have hij : n + 8 * j.1 ≠ n + 8 * i := by omega
      rw [Phys.word_setWord_ne _ _ (entry_aligned hna ⟨i, hi⟩) (entry_aligned hna j) hij,
        word_entry_congr hna hroot j]
      exact hp.word j (by omega)

/-- In a table of the last level there is nothing to go down to. -/
theorem freeEntries_none {R : Panic → Prop}
    (h : ∀ i : Fin 512, s.word (n + 8 * i) &&& PTE_V = 0) (k : Nat) : ∀ {i : Nat}, i + k = 512 →
    Wp (freeEntries below n k i) s (fun _ t => t = s) R := by
  induction k with
  | zero =>
    intro i _
    unfold freeEntries
    rw [wp_pure]
  | succ k ih =>
    intro i hi
    have h0 : s.word (n + 8 * i) &&& PTE_V = 0 := h ⟨i, by omega⟩
    unfold freeEntries
    rw [wp_bind, wp_load, if_neg (fun e => e.1 h0), if_neg (fun e => e h0)]
    exact ih (by omega)

theorem Freed.refl (hf : FreeOk s) : Freed s s fun _ => False :=
  ⟨hf, rfl, fun a => by simp, fun _ _ _ _ => rfl⟩

/-- The last page to be freed may have been written before. -/
theorem kfree_freed (hf : FreeOk t) (hk : t.kend = s.kend)
    (hl : ∀ a, a ∈ t.freelist ↔ P a ∨ a ∈ s.freelist)
    (hm : ∀ a, a % PGSIZE = 0 → a ≠ n → ¬P a → a ∉ s.freelist → t.mem (a / PGSIZE) = s.mem (a / PGSIZE))
    (hn : KPage s n) (hp : ¬P n) (hnf : n ∉ s.freelist) :
    Wp (kfree n) t (fun _ u => Freed s u fun a => a = n ∨ P a) fun _ => False := by
  have hnt : n ∉ t.freelist := fun e => ((hl n).1 e).elim hp hnf
  refine (kfree_spec (hn.congr hk)).post fun _ u hu => ?_
  obtain ⟨hlu, hku, hmu⟩ := hu
  refine ⟨hf.cons hku (hn.congr hk) hnt hlu, hku.trans hk, fun a => ?_, fun a ha hno hnfa => ?_⟩
  · rw [hlu, List.mem_cons, hl, or_assoc]
  · rw [not_or] at hno
    rw [hmu _ (page_ne ha hn.1 hno.1), hm a ha hno.1 hno.2 hnfa]

theorem Freed.congr {Q : Nat → Prop} (h : Freed s t P) (hpq : ∀ a, Q a ↔ P a) : Freed s t Q :=
  ⟨h.free, h.kend, fun a => by rw [h.list, hpq],
    fun a ha hno hnf => h.mem a ha (fun e => hno ((hpq a).2 e)) hnf⟩

/-- **`freewalk` frees the pages of the table**, each once. -/
theorem freewalk_spec (d : Nat) : ∀ (n : Nat) (s : Phys), Subtree s d n → FreeOk s →
    Wp (freewalk (d + 1) n) s (fun _ s' => Freed s s' (Reached s.child n d)) fun _ => False := by
  induction d with
  | zero =>
    intro n s h hf
    have hself : ∀ a, Reached s.child n 0 a ↔ a = n ∨ False := by
      intro a
      rw [or_false]
      constructor
      · rintro ⟨p, hp, ha⟩
        rw [List.eq_nil_of_length_eq_zero (Nat.le_zero.1 hp)] at ha
        exact (Option.some.inj ha).symm
      · rintro rfl
        exact reached_root _ _ _
    unfold freewalk
    refine (freeEntries_none (fun i => h.leaf [] n rfl rfl i) 512 (by omega)).bind fun _ t e => ?_
    rw [e]
    refine (kfree_freed (P := fun _ => False) hf rfl (fun a => by simp) (fun _ _ _ _ _ => rfl) h.root.1 id
      h.root.2).post fun _ u hu => ?_
    exact hu.congr hself
  | succ d ih =>
    intro n s h hf
    have hstart : Part s s n d 0 :=
      ⟨hf, rfl, fun a => by simp [Gone], fun _ _ _ _ _ => rfl, fun j _ => rfl⟩
    unfold freewalk
    refine (freeEntries_spec h ih 512 (by omega) hstart).bind fun _ t hp => ?_
    have hgone : ∀ a, Reached s.child n (d + 1) a ↔ a = n ∨ Gone s n d 512 a := by
      intro a
      rw [reached_succ]
      refine or_congr_right ⟨fun ⟨i, c, hc, hr⟩ => ⟨i, i.isLt, c, hc, hr⟩,
        fun ⟨i, _, c, hc, hr⟩ => ⟨i, c, hc, hr⟩⟩
    have hnot : ¬Gone s n d 512 n := fun ⟨j, _, c, hc, hr⟩ => h.shape.root_apart hc hr
    refine (kfree_freed hp.free hp.kend hp.list hp.mem h.root.1 hnot h.root.2).post fun _ u hu => ?_
    exact hu.congr hgone

/-! ## uvmfree -/

/-- Every leaf PTE of a table belongs to an address. -/
theorem leaf_va (h : Table s pt) {p : List (Fin 512)} (i : Fin 512) (hp : p.length = 2)
    (hV : s.leafAt pt p i &&& PTE_V ≠ 0) : ∃ va, va < MAXVA ∧ leaf s pt va = s.leafAt pt p i := by
  match p, hp with
  | [j, k], _ =>
    have hj : j.1 < 256 := by
      by_contra hge
      unfold Phys.leafAt at hV
      simp only [descend, h.half j (by omega), Option.bind_none] at hV
      exact hV (Nat.zero_and _)
    have e2 : px 2 (j.1 * 2 ^ 30 + k.1 * 2 ^ 21 + i.1 * 2 ^ 12) = j.1 := by
      rw [px_eq]
      omega
    have e1 : px 1 (j.1 * 2 ^ 30 + k.1 * 2 ^ 21 + i.1 * 2 ^ 12) = k.1 := by
      rw [px_eq]
      omega
    have e0 : px 0 (j.1 * 2 ^ 30 + k.1 * 2 ^ 21 + i.1 * 2 ^ 12) = i.1 := by
      rw [px_eq]
      omega
    refine ⟨j.1 * 2 ^ 30 + k.1 * 2 ^ 21 + i.1 * 2 ^ 12, ?_, ?_⟩
    · simp only [MAXVA_eq, Nat.reducePow]
      omega
    · unfold leaf
      congr 1
      · simp only [steps, List.cons.injEq, and_true]
        exact ⟨Fin.ext e2, Fin.ext e1⟩
      · exact Fin.ext e0

/-- A table without leaf mappings can be taken apart. -/
theorem subtree_bare (h : Table s pt) (hb : ∀ va, va < MAXVA → leaf s pt va &&& PTE_V = 0) :
    Subtree s 2 pt := by
  refine ⟨h.shape, fun a ha => ⟨h.page a ha, h.used a ha⟩, fun p a hp ha => h.inner a ⟨p, by omega, ha⟩,
    fun p a hp ha i => ?_⟩
  by_contra hV
  have hleaf : s.leafAt pt p i = s.word (a + 8 * i) := by
    unfold Phys.leafAt
    rw [ha]
  rw [← hleaf] at hV
  obtain ⟨va, hva, e⟩ := leaf_va h i hp hV
  exact hV (by rw [← e]; exact hb va hva)

theorem freewalk_table (h : Table s pt) (hf : FreeOk s)
    (hb : ∀ va, va < MAXVA → leaf s pt va &&& PTE_V = 0) :
    Wp (freewalk 3 pt) s (fun _ s' => Freed s s' (Node s pt)) fun _ => False :=
  freewalk_spec 2 pt s (subtree_bare h hb) hf

/-- The pages of the table and the user's pages. -/
def Held (s : Phys) (pt n a : Nat) : Prop := Node s pt a ∨ a ∈ pagesOf s pt 0 n

theorem owned_iff (s : Phys) (pt n a : Nat) : Owned s pt n a ↔ Held s pt n a ∨ a ∈ s.freelist := by
  unfold Owned Held
  simp only [or_comm, or_left_comm]

/-- Pages freed in `t`, as seen from an earlier state. -/
theorem Freed.since {Q : Nat → Prop} (h : Freed t u Q) (hk : t.kend = s.kend)
    (hown : ∀ a, Q a ∨ a ∈ t.freelist ↔ P a ∨ a ∈ s.freelist)
    (hm : ∀ a, a % PGSIZE = 0 → ¬P a → a ∉ s.freelist → t.mem (a / PGSIZE) = s.mem (a / PGSIZE)) :
    Freed s u P := by
  refine ⟨h.free, h.kend.trans hk, fun a => (h.list a).trans (hown a), fun a ha hno hnf => ?_⟩
  obtain ⟨hno', hnf'⟩ := not_or.1 (mt (hown a).1 (not_or.2 ⟨hno, hnf⟩))
  rw [h.mem a ha hno' hnf', hm a ha hno hnf]

theorem Resize.freed (h : Resize pt s n t 0) (hf : Freed t u (Node t pt)) :
    Freed s u (Held s pt n) := by
  refine hf.since h.kend (fun a => ?_) fun a ha hno hnf => h.frame a ha ?_
  · rw [← owned_iff, ← h.owned a]
    unfold Owned
    simp [pagesOf]
  · rw [owned_iff]
    exact not_or.2 ⟨hno, hnf⟩

/-- All pages of the user are unmapped. -/
theorem uvmunmap_all (h : Space s pt n) :
    Wp (uvmunmap pt 0 n true) s (fun _ t => Resize pt s n t 0) fun _ => False := by
  have hlow := h.low
  have hin : ∀ j, j < n → 0 + j * PGSIZE < n * PGSIZE := fun j hj => by
    rw [Nat.zero_add]
    exact Nat.mul_lt_mul_of_pos_right hj (by decide)
  refine (uvmunmap_spec h.table h.free rfl ?_ (fun j hj => (h.mapped _ ?_).2 (hin j hj))
    fun _ => h.pages).post fun _ t hu => Resize.of_unmaps h (Nat.zero_le n) (by rwa [Nat.zero_mul])
  · simp only [TRAPFRAME_eq, MAXVA_eq] at *
    omega
  · have := hin j hj
    omega

theorem uvmfree_spec (h : Space s pt n) (hsz : Pages sz n)
    (hhigh : ∀ va, TRAPFRAME ≤ va → va < MAXVA → leaf s pt va &&& PTE_V = 0) :
    Wp (uvmfree pt sz) s (fun _ s' => Freed s s' (Held s pt n)) fun _ => False := by
  -- once no page is mapped below the trapframe, none is mapped at all
  have hwalk : ∀ t, Resize pt s n t 0 →
      Wp (freewalk 3 pt) t (fun _ s' => Freed s s' (Held s pt n)) fun _ => False := by
    intro t ht
    refine (freewalk_table ht.space.table ht.space.free fun va hv => ?_).post fun _ u hu => ht.freed hu
    by_cases hlow : va < TRAPFRAME
    · by_contra hV
      have := (ht.space.mapped va hlow).1 hV
      omega
    · rw [ht.high va (by omega) hv]
      exact hhigh va (by omega) hv
  unfold uvmfree
  rw [wp_ite]
  refine ⟨fun hpos => ?_, fun hpos => ?_⟩
  · rw [hsz.roundUp h.small, Nat.mul_div_cancel _ (by decide)]
    exact (uvmunmap_all h).bind fun _ => hwalk
  · have hn : n = 0 := by
      have := hsz.2
      simp only [PGSIZE] at this
      omega
    subst hn
    exact hwalk s (Resize.refl h)

/-! ## The trampoline and the trapframe -/

/-- `uvmunmap` of one page above the user's memory, without freeing it. -/
structure HighOff (s s' : Phys) (pt n va : Nat) : Prop where
  space : Space s' pt n
  kend : s'.kend = s.kend
  free : s'.freelist = s.freelist
  held : ∀ a, Held s' pt n a ↔ Held s pt n a
  mem : ∀ a, a % PGSIZE = 0 → ¬Node s pt a → s'.mem (a / PGSIZE) = s.mem (a / PGSIZE)
  leaf : ∀ vb, vb < MAXVA → leaf s' pt vb = if va ≤ vb ∧ vb < va + PGSIZE then 0 else leaf s pt vb

theorem uvmunmap_high (h : Space s pt n) (ha : va % PGSIZE = 0) (hlow : TRAPFRAME ≤ va)
    (hmax : va + PGSIZE ≤ MAXVA) (hV : leaf s pt va &&& PTE_V ≠ 0) :
    Wp (uvmunmap pt va 1 false) s (fun _ s' => HighOff s s' pt n va) fun _ => False := by
  refine (uvmunmap_spec h.table h.free ha (by omega) (fun j hj => ?_) (fun e => by cases e)).post
    fun _ s' hu => ?_
  · obtain rfl : j = 0 := by omega
    simpa using hV
  have hleaf : ∀ vb, vb < MAXVA → leaf s' pt vb = if va ≤ vb ∧ vb < va + PGSIZE then 0 else leaf s pt vb := by
    intro vb hb
    rw [hu.leaves vb hb, Nat.one_mul]
  have hfree : s'.freelist = s.freelist := hu.list
  have huser : ∀ vb, vb < TRAPFRAME → leaf s' pt vb = leaf s pt vb := by
    intro vb hb
    rw [hleaf vb (by simp only [TRAPFRAME_eq, MAXVA_eq] at *; omega), if_neg (by omega)]
  have hpg : pagesOf s' pt 0 n = pagesOf s pt 0 n := by
    have := h.low
    exact pagesOf_congr n (fun vb _ hb => huser vb (by omega))
  refine ⟨⟨hu.table, hu.free, fun vb hb => ?_, fun vb hb => ?_, ?_⟩, hu.kend, hfree, fun a => ?_,
    fun a ha hn => hu.frame a ha hn (fun e => by cases e), hleaf⟩
  · rw [huser vb hb]
    exact h.mapped vb hb
  · have := h.low
    rw [huser vb (by omega)]
    exact h.perm vb hb
  · rw [hpg]
    refine ⟨h.pages.1, fun x hx => ?_⟩
    obtain ⟨h1, h2, h3⟩ := h.pages.2 x hx
    exact ⟨h1.congr hu.kend, fun e => h2 ((hu.node x).1 e), by rw [hfree]; exact h3⟩
  · unfold Held
    rw [hu.node, hpg]

theorem HighOff.freed (h : HighOff s t pt n va) (hf : Freed t u (Held t pt n)) :
    Freed s u (Held s pt n) := by
  refine ⟨hf.free, hf.kend.trans h.kend, fun a => ?_, fun a ha hno hnf => ?_⟩
  · rw [hf.list, h.held, h.free]
  · rw [hf.mem a ha (fun e => hno ((h.held a).1 e)) (by rw [h.free]; exact hnf),
      h.mem a ha fun e => hno (.inl e)]

/-- The two pages every process has above its own. -/
structure High (s : Phys) (pt trampoline trapframe : Nat) : Prop where
  trampoline : leaf s pt TRAMPOLINE = mkPte trampoline (PTE_R ||| PTE_X)
  trapframe : leaf s pt TRAPFRAME = mkPte trapframe (PTE_R ||| PTE_W)

theorem High.resize {s' : Phys} {m : Nat} (h : High s pt trampoline trapframe)
    (hr : Resize pt s n s' m) : High s' pt trampoline trapframe :=
  ⟨(hr.high _ (by decide) (by decide)).trans h.trampoline,
    (hr.high _ (by decide) (by decide)).trans h.trapframe⟩

theorem high_page (h1 : TRAPFRAME ≤ va) (h2 : va < MAXVA) :
    va / PGSIZE = TRAMPOLINE / PGSIZE ∨ va / PGSIZE = TRAPFRAME / PGSIZE := by
  have e : TRAMPOLINE / PGSIZE = 67108863 := by decide
  have e' : TRAPFRAME / PGSIZE = 67108862 := by decide
  rw [e, e']
  simp only [TRAPFRAME_eq, MAXVA_eq, PGSIZE] at *
  omega

/-- **A process's page table is taken apart**, its user pages with it. -/
theorem procFreepagetable_spec (h : Space s pt n) (hsz : Pages sz n)
    (hh : High s pt trampoline trapframe) :
    Wp (procFreepagetable pt sz) s (fun _ s' => Freed s s' (Held s pt n)) fun _ => False := by
  have htop : TRAMPOLINE = TRAPFRAME + PGSIZE := by decide
  have hend : TRAMPOLINE + PGSIZE = MAXVA := by decide
  unfold procFreepagetable
  refine (uvmunmap_high h (by decide) (by omega) (by omega) ?_).bind fun _ t ht => ?_
  · rw [hh.trampoline]
    exact pte_valid _ _
  have hframe : leaf t pt TRAPFRAME = leaf s pt TRAPFRAME := by
    rw [ht.leaf _ (by decide), if_neg (by omega)]
  refine (uvmunmap_high ht.space (by decide) (Nat.le_refl _) (by decide) ?_).bind fun _ u hu => ?_
  · rw [hframe, hh.trapframe]
    exact pte_valid _ _
  refine (uvmfree_spec hu.space hsz fun va h1 h2 => ?_).post fun _ v hv => ht.freed (hu.freed hv)
  rw [hu.leaf va h2, ht.leaf va h2]
  split
  · exact Nat.zero_and _
  · rw [if_pos (by omega)]
    exact Nat.zero_and _

/-! ## proc_pagetable -/

/-- A table made of pages that were free. -/
structure Made (s s' : Phys) (pt n : Nat) : Prop where
  space : Space s' pt n
  kend : s'.kend = s.kend
  owned : ∀ a, Owned s' pt n a ↔ a ∈ s.freelist
  frame : ∀ a, a % PGSIZE = 0 → a ∉ s.freelist → s'.mem (a / PGSIZE) = s.mem (a / PGSIZE)

section Made
variable {s t u : Phys} {pt n : Nat}

theorem Made.resize {m : Nat} (h : Made s t pt n) (hr : Resize pt t n u m) : Made s u pt m := by
  refine ⟨hr.space, hr.kend.trans h.kend, fun a => (hr.owned a).trans (h.owned a), fun a ha hnf => ?_⟩
  rw [hr.frame a ha (fun e => hnf ((h.owned a).1 e)), h.frame a ha hnf]

theorem Made.keeps (h : Made s t pt n) (hk : Keeps pt t u)
    (hl : ∀ va, va < TRAPFRAME → leaf u pt va = leaf t pt va) : Made s u pt n := by
  obtain ⟨hsp, howned, -⟩ := h.space.of_keeps hk hl
  refine ⟨hsp, hk.kend.trans h.kend, fun a => (howned a).trans (h.owned a), fun a ha hnf => ?_⟩
  have hno : ¬Owned t pt n a := fun e => hnf ((h.owned a).1 e)
  rw [hk.frame a ha (fun e => hno (.inl e)) (fun e => hno (.inr (.inl e))), h.frame a ha hnf]

theorem Made.highOff (h : Made s t pt n) (ho : HighOff t u pt n va) : Made s u pt n := by
  refine ⟨ho.space, ho.kend.trans h.kend, fun a => ?_, fun a ha hnf => ?_⟩
  · rw [owned_iff, ho.held, ho.free, ← owned_iff]
    exact h.owned a
  · rw [ho.mem a ha fun e => hnf ((h.owned a).1 (.inl e)), h.frame a ha hnf]

/-- A table that is taken apart gives back what it was made of. -/
theorem Made.freed (h : Made s t pt n) (hf : Freed t u (Held t pt n)) : Freed s u fun _ => False := by
  refine hf.since h.kend (fun a => ?_) fun a ha _ => h.frame a ha
  rw [← owned_iff, false_or]
  exact h.owned a

end Made

/-- A table whose root is its only page has no leaf PTEs. -/
theorem leaf_root (h : Table s pt) (hn : ∀ a, Node s pt a → a = pt) (va : Nat) : leaf s pt va = 0 := by
  unfold leaf Phys.leafAt
  cases hd : descend s.child pt (steps va 2) with
  | none => rfl
  | some a =>
    have ha := hn a ⟨steps va 2, Nat.le_refl 2, hd⟩
    subst ha
    cases h.shape (steps va 2) [] a (Nat.le_refl 2) (Nat.zero_le 2) hd rfl

theorem uvmcreate_made (hf : FreeOk s) : Wp uvmcreate s (fun r s' =>
    r = 0 ∧ Freed s s' (fun _ => False) ∨ r ≠ 0 ∧ Made s s' r 0 ∧ ∀ va, leaf s' r va = 0) fun _ => False := by
  refine (uvmcreate_spec hf).post fun r s' h => ?_
  obtain ⟨hf', hk, hcase⟩ := h
  rcases hcase with ⟨e, hl, hm⟩ | ⟨hne, hl, htab, hnode, hm⟩
  · exact .inl ⟨e, hf', hk, fun a => by rw [hl, false_or], fun a _ _ _ => by rw [hm]⟩
  · have hleaf : ∀ va, leaf s' r va = 0 := leaf_root htab fun a => (hnode a).1
    refine .inr ⟨hne, ⟨⟨htab, hf', fun va hv => ?_, fun va hv => absurd hv (by omega), List.nodup_nil,
      fun x hx => by cases hx⟩, hk, fun a => ?_, fun a ha hnf => ?_⟩, hleaf⟩
    · rw [hleaf, Nat.zero_and]
      omega
    · unfold Owned
      rw [hnode, hl]
      simp [pagesOf]
    · have hr : r ∈ s.freelist := by
        rw [hl]
        exact List.mem_cons_self
      exact hm _ (page_ne ha (hf.page r hr).1 fun e => hnf (e ▸ hr))

/-- A page above the user's memory is mapped, or not. -/
theorem mappages_high {pa perm : Nat} (h : Made s t pt n) (hp : PermOk perm) (hpa : pa < 2 ^ 56)
    (ha : va % PGSIZE = 0) (hlow : TRAPFRAME ≤ va) (hmax : va + PGSIZE ≤ MAXVA)
    (hun : ∀ vb, va ≤ vb → vb < va + PGSIZE → leaf t pt vb &&& PTE_V = 0) :
    Wp (mappages pt va PGSIZE pa perm) t (fun r u => Made s u pt n ∧
      (r = 0 ∧ (∀ vb, vb < MAXVA → leaf u pt vb =
        if va ≤ vb ∧ vb < va + PGSIZE then mkPte pa perm else leaf t pt vb) ∨
       r = -1 ∧ ∀ vb, vb < MAXVA → leaf u pt vb = leaf t pt vb)) fun _ => False := by
  have hdown := pgRoundDown_aligned ha
  have hlast := pgRoundDown_last ha
  refine (mappages_spec h.space.table h.space.free hp hpa (by decide) hmax ?_).post fun r u hr => ?_
  · rw [hdown, hlast]
    exact hun
  rw [hdown, hlast] at hr
  obtain ⟨hk, d, hmaps, hd⟩ := hr
  refine ⟨h.keeps hk fun vb hb => ?_, ?_⟩
  · rw [hmaps vb (by simp only [TRAPFRAME_eq, MAXVA_eq] at *; omega), if_neg (by omega)]
  rcases hd with ⟨e, hd⟩ | ⟨e, hd⟩
  · have hd1 : d = 1 := by
      simp only [PGSIZE] at hd
      omega
    refine .inl ⟨e, fun vb hb => ?_⟩
    rw [hmaps vb hb, hd1, Nat.one_mul]
    split
    · rename_i hin
      rw [show pgRoundDown vb - va = 0 by simp only [pgRoundDown, PGSIZE] at *; omega, Nat.add_zero]
    · rfl
  · have hd0 : d = 0 := by
      simp only [PGSIZE] at hd
      omega
    refine .inr ⟨e, fun vb hb => ?_⟩
    rw [hmaps vb hb, hd0, if_neg (by omega)]

/-- **`proc_pagetable` makes an address space without user pages**, or gives
back all it took. -/
theorem procPagetable_spec (hf : FreeOk s) (ht : trampoline < 2 ^ 56)
    (hp : trapframe < 2 ^ 56) : Wp (procPagetable trampoline trapframe) s (fun r s' =>
      r = 0 ∧ Freed s s' (fun _ => False) ∨ r ≠ 0 ∧ Made s s' r 0 ∧
      High s' r trampoline trapframe) fun _ => False := by
  have htop : TRAMPOLINE = TRAPFRAME + PGSIZE := by decide
  have hend : TRAMPOLINE + PGSIZE = MAXVA := by decide
  have hempty : Pages 0 0 := ⟨Nat.le_refl 0, by decide⟩
  unfold procPagetable
  refine (uvmcreate_made hf).bind fun pt s1 h1 => ?_
  rcases h1 with ⟨e, hfr⟩ | ⟨hne, hmade, hleaf⟩
  · rw [if_pos e, wp_pure]
    exact .inl ⟨rfl, hfr⟩
  rw [if_neg hne]
  refine (mappages_high hmade ⟨by decide, by decide⟩ ht (by decide) (by omega) (by omega)
    fun vb _ _ => by rw [hleaf, Nat.zero_and]).bind fun r s2 h2 => ?_
  obtain ⟨hmade2, ⟨e, hl2⟩ | ⟨e, hl2⟩⟩ := h2
  swap
  · rw [e, if_pos (by decide)]
    refine (uvmfree_spec hmade2.space hempty fun va _ h2 => ?_).bind fun _ s3 h3 => ?_
    · rw [hl2 va h2, hleaf, Nat.zero_and]
    · rw [wp_pure]
      exact .inl ⟨rfl, hmade2.freed h3⟩
  rw [e, if_neg (by decide)]
  have hlt : TRAPFRAME < TRAMPOLINE := by decide
  refine (mappages_high hmade2 ⟨by decide, by decide⟩ hp (by decide) (Nat.le_refl _) (by omega)
    fun vb h1 h2 => ?_).bind fun r s3 h3 => ?_
  · rw [hl2 vb (by omega), if_neg (by omega), hleaf, Nat.zero_and]
  obtain ⟨hmade3, ⟨e, hl3⟩ | ⟨e, hl3⟩⟩ := h3
  · rw [e, if_neg (by decide), wp_pure]
    refine .inr ⟨hne, hmade3, ⟨?_, ?_⟩⟩
    · rw [hl3 _ (by decide), if_neg (by omega), hl2 _ (by decide), if_pos (by omega)]
    · rw [hl3 _ (by decide), if_pos (by omega)]
  · rw [e, if_pos (by decide)]
    refine (uvmunmap_high hmade3.space (by decide) (by omega) (by omega) ?_).bind fun _ s4 h4 => ?_
    · rw [hl3 _ (by decide), hl2 _ (by decide), if_pos (by omega)]
      exact pte_valid _ _
    refine (uvmfree_spec h4.space hempty fun va h1 h2 => ?_).bind fun _ s5 h5 => ?_
    · rw [h4.leaf va h2]
      split
      · exact Nat.zero_and _
      · rw [hl3 va h2, hl2 va h2, if_neg (by assumption), hleaf, Nat.zero_and]
    · rw [wp_pure]
      exact .inl ⟨rfl, (hmade3.highOff h4).freed h5⟩

/-! ## Pages beside an address space -/

/-- A page that is not part of the address space may be freed. -/
theorem Space.release (h : Space s pt n) (hx : KPage s x) (hno : ¬Owned s pt n x) :
    Wp (kfree x) s (fun _ t => Space t pt n ∧ SameTree pt s t ∧ t.kend = s.kend ∧
      t.freelist = x :: s.freelist ∧ ∀ m, m ≠ x / PGSIZE → t.mem m = s.mem m) fun _ => False := by
  refine (kfree_outside h.table h.free hx (fun e => hno (.inl e)) (fun e => hno (.inr (.inl e)))).post
    fun _ t ht => ?_
  obtain ⟨-, hf, hk, hl, hm⟩ := ht
  obtain ⟨hsp, hsame⟩ :=
    h.congr (fun a ha => hm _ (page_ne (h.table.page a ha).1 hx.1 fun e => hno (.inl (e ▸ ha)))) hk hf
    (fun a ha e => by
      rw [hl, List.mem_cons] at e
      rcases e with e | e
      · exact hno (ha.elim (fun ha => .inl (e ▸ ha)) (fun ha => .inr (.inr (e ▸ ha))))
      · rcases ha with ha | ha
        · exact h.table.used a ha e
        · exact (h.pages.2 a ha).2.2 e)
  exact ⟨hsp, hsame, hk, hl, hm⟩

/-- A page that is not part of the table may be written. -/
theorem Space.write (h : Space s pt n) (hx : x % PGSIZE = 0) (hno : ¬Node s pt x) (b : Page) :
    Space (s.setPage x b) pt n ∧ SameTree pt s (s.setPage x b) := by
  refine h.congr
    (fun a ha => Phys.mem_setPage_ne _ _ (page_ne (h.table.page a ha).1 hx fun e => hno (e ▸ ha))) rfl
    ⟨h.free.kend, h.free.nodup, h.free.page⟩ (fun a ha e => ?_)
  rcases ha with ha | ha
  · exact h.table.used a ha e
  · exact (h.pages.2 a ha).2.2 e

theorem High.same (h : High s pt trampoline trapframe)
    (hs : SameTree pt s t) : High t pt trampoline trapframe :=
  ⟨(hs.leaves.leaf _).trans h.trampoline, (hs.leaves.leaf _).trans h.trapframe⟩

theorem Held.same (hs : SameTree pt s t) (a : Nat) : Held t pt n a ↔ Held s pt n a := by
  unfold Held
  rw [hs.node, pagesOf_congr n (fun vb _ _ => hs.leaves.leaf vb)]

/-- An address space and the page of its trapframe are taken apart. -/
theorem process_freed (h : Space s pt n) (hh : High s pt trampoline trapframe)
    (hsz : Pages sz n) (hx : KPage s trapframe) (hno : ¬Owned s pt n trapframe) :
    Wp (do
      kfree trapframe
      procFreepagetable pt sz) s (fun _ s' => Freed s s' fun a => Held s pt n a ∨ a = trapframe)
      fun _ => False := by
  refine (h.release hx hno).bind fun _ u hu => ?_
  obtain ⟨hsp, hsame, hk, hl, hmem⟩ := hu
  refine (procFreepagetable_spec hsp hsz (hh.same hsame)).post fun _ v hv => ?_
  refine ⟨hv.free, hv.kend.trans hk, fun a => ?_, fun a ha hout hnf => ?_⟩
  · rw [hv.list, Held.same hsame, hl, List.mem_cons, or_assoc]
  · rw [not_or] at hout
    rw [hv.mem a ha (fun e => hout.1 ((Held.same hsame a).1 e))
      (by rw [hl, List.mem_cons, not_or]; exact ⟨hout.2, hnf⟩), hmem _ (page_ne ha hx.1 hout.2)]

/-! ## New processes -/

/-- Only pages that were free are written, and some of them are taken. -/
structure Took (s t : Phys) : Prop where
  free : FreeOk t
  kend : t.kend = s.kend
  sub : ∀ a, a ∈ t.freelist → a ∈ s.freelist
  mem : ∀ a, a % PGSIZE = 0 → a ∉ s.freelist → t.mem (a / PGSIZE) = s.mem (a / PGSIZE)

section Took
variable {s t : Phys} {pt n : Nat}

theorem Made.took (h : Made s t pt n) : Took s t :=
  ⟨h.space.free, h.kend, fun a ha => (h.owned a).1 (.inr (.inl ha)), h.frame⟩

/-- Another address space keeps its table and its pages. -/
theorem Space.other (h : Space s pt n) (hm : Took s t) : Space t pt n ∧ SameTree pt s t := by
  refine h.congr (fun a ha => hm.mem a (h.table.page a ha).1 (h.table.used a ha)) hm.kend hm.free
    (fun a ha e => ?_)
  rcases ha with ha | ha
  · exact h.table.used a ha (hm.sub a e)
  · exact (h.pages.2 a ha).2.2 (hm.sub a e)

theorem Space.other_mem (h : Space s pt n) (hm : Took s t) (hv : va < n * PGSIZE) :
    t.mem (pte2pa (leaf s pt va) / PGSIZE) = s.mem (pte2pa (leaf s pt va) / PGSIZE) := by
  obtain ⟨h1, -, h3⟩ := h.user_page hv
  exact hm.mem _ h1.1 h3

end Took

/-- An address space and a trapframe, made of pages that were free. -/
structure Newborn (s0 s : Phys) (pt n trampoline trapframe : Nat) : Prop where
  space : Space s pt n
  high : High s pt trampoline trapframe
  kend : s.kend = s0.kend
  page : KPage s trapframe
  apart : ¬Owned s pt n trapframe
  owned : ∀ a, Owned s pt n a ∨ a = trapframe ↔ a ∈ s0.freelist
  mem : ∀ a, a % PGSIZE = 0 → a ∉ s0.freelist → s.mem (a / PGSIZE) = s0.mem (a / PGSIZE)

section Newborn
variable {s0 t s : Phys} {pt n trampoline trapframe : Nat}

theorem Made.newborn (hf : FreeOk s0) (g : Taken s0 t trapframe) (hm : Made t s pt n)
    (hh : High s pt trampoline trapframe) : Newborn s0 s pt n trampoline trapframe := by
  refine ⟨hm.space, hh, hm.kend.trans g.kend, (g.kpage hf).congr hm.kend,
    fun e => g.not_free hf ((hm.owned _).1 e), fun a => ?_, fun a ha hnf => ?_⟩
  · rw [hm.owned, g.free, List.mem_cons, or_comm]
  · rw [g.free, List.mem_cons, not_or] at hnf
    rw [hm.frame a ha hnf.2, g.keep hf ha hnf.1]

theorem Newborn.took (h : Newborn s0 s pt n trampoline trapframe) : Took s0 s :=
  ⟨h.space.free, h.kend, fun a ha => (h.owned a).1 (.inl (.inr (.inl ha))), h.mem⟩

/-- Taken apart, a new process gives back what it was made of. -/
theorem Newborn.freed (h : Newborn s0 s pt n trampoline trapframe)
    (hf : Freed s u fun a => Held s pt n a ∨ a = trapframe) : Freed s0 u fun _ => False := by
  refine hf.since h.kend (fun a => ?_) fun a ha _ => h.mem a ha
  rw [false_or, ← h.owned a, owned_iff, or_assoc, or_assoc, or_comm (a := a = trapframe)]

theorem Owned.same (hs : SameTree pt s t) (hl : t.freelist = s.freelist) (a : Nat) :
    Owned t pt n a ↔ Owned s pt n a := by
  rw [owned_iff, owned_iff, Held.same hs, hl]

/-- The trapframe may be written. -/
theorem Newborn.write (h : Newborn s0 s pt n trampoline trapframe) (b : Page) :
    Newborn s0 (s.setPage trapframe b) pt n trampoline trapframe := by
  obtain ⟨hsp, hsame⟩ := h.space.write h.page.1 (fun e => h.apart (.inl e)) b
  refine ⟨hsp, h.high.same hsame, h.kend, h.page, ?_, fun a => ?_, fun a ha hnf => ?_⟩
  · rw [Owned.same hsame rfl]
    exact h.apart
  · rw [Owned.same hsame rfl]
    exact h.owned a
  · rw [Phys.mem_setPage_ne _ _ (page_ne ha h.page.1 fun e => hnf ((h.owned a).1 (.inr e))), h.mem a ha hnf]

end Newborn

end Xv6.Vm
