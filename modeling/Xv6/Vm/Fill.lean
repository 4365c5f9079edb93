import Xv6.Vm.Isolate

/-!
# Filling a new address space (`uvmclear`, and `copyout` to a table not in use)

`exec` builds an address space beside the one the process runs in: it is made
of pages that were free (`Building`), and stays so while its user pages are
written and its size changes.

* `Building.write`, `Building.copyout`: writing its user pages.
* `Building.clear`: `uvmclear` takes one page from user mode and leaves the
  rest of the table as it was.
* `Wrote.userByte`: what `copyout` leaves to be read through the table.
-/
namespace Xv6.Vm

/-- mirrors kernel/vm.c:335-346 -/
def uvmclear (pagetable va : Nat) : M Unit := do
  let pte ← walk pagetable va false
  if pte = 0 then Prog.panic .uvmclear
  else do
    let v ← load pte
    store pte (v &&& (2 ^ 64 - 1 - PTE_U))

/-- An address space made of pages free in `s0`, with the trampoline and the
trapframe. -/
structure Building (s0 s : Phys) (pt n trampoline trapframe : Nat) : Prop where
  made : Made s0 s pt n
  high : High s pt trampoline trapframe
  low : trampoline < 2 ^ 56 ∧ trapframe < 2 ^ 56

section Building
variable {s0 s s' : Phys} {pt n trampoline trapframe : Nat}

section
variable (h : Building s0 s pt n trampoline trapframe)
include h

theorem Building.resize {m : Nat} (hr : Resize pt s n s' m) :
    Building s0 s' pt m trampoline trapframe := ⟨h.made.resize hr, h.high.resize hr, h.low⟩

theorem Building.kernel (va : Nat) (h1 : TRAPFRAME ≤ va) (h2 : va < MAXVA) :
    leaf s pt va &&& PTE_U = 0 := h.high.kernel h.low.1 h.low.2 h1 h2

theorem Building.userTable : UserTable s pt := h.made.space.userTable h.kernel

/-- Memory in which only user pages of the table differ. -/
theorem Building.congr (hk : s'.kend = s.kend) (hl : s'.freelist = s.freelist)
    (hm : ∀ a, a % PGSIZE = 0 → a ∉ pagesOf s pt 0 n → s'.mem (a / PGSIZE) = s.mem (a / PGSIZE)) :
    Building s0 s' pt n trampoline trapframe ∧ SameTree pt s s' := by
  have hsp := h.made.space
  have hfree := hsp.free.congr hk hl
  have hout : ∀ a, Node s pt a → a ∉ pagesOf s pt 0 n := fun a ha e => (hsp.pages.2 a e).2.1 ha
  obtain ⟨hsp', hsame⟩ :=
    hsp.congr (fun a ha => hm a (hsp.table.page a ha).1 (hout a ha)) hk hfree fun a ha => by
    rw [hl]
    rcases ha with ha | ha
    · exact hsp.table.used a ha
    · exact (hsp.pages.2 a ha).2.2
  refine ⟨⟨⟨hsp', hk.trans h.made.kend, fun a => ?_, fun a ha hnf => ?_⟩, h.high.same hsame, h.low⟩, hsame⟩
  · rw [Owned.same hsame hl]
    exact h.made.owned a
  · rw [hm a ha fun e => hnf ((h.made.owned a).1 (.inr (.inr e))), h.made.frame a ha hnf]

/-- A user page is written. -/
theorem Building.write {x : Nat} (hx : x ∈ pagesOf s pt 0 n) (b : Page) :
    Building s0 (s.setPage x b) pt n trampoline trapframe ∧ SameTree pt s (s.setPage x b) :=
  h.congr rfl rfl fun _ ha hne =>
    Phys.mem_setPage_ne _ _ (page_ne ha (h.made.space.pages.2 x hx).1.1 fun e => hne (e ▸ hx))

end

end Building

/-! ## copyout -/

section Wrote
variable {s s' : Phys} {pt va k : Nat} {src : List UInt8}

/-- A page that user mode cannot get at keeps its contents. -/
theorem Wrote.frame (h : Wrote s s' pt va src k) {a : Nat} (ha : a % PGSIZE = 0)
    (hno : ∀ vb, Accessible s pt vb → pte2pa (leafPte s pt vb) ≠ a) :
    s'.mem (a / PGSIZE) = s.mem (a / PGSIZE) := by
  apply Bytes.ext_get
  intro i hi
  have hbyte : s'.byte (a + i) = s.byte (a + i) := by
    refine h.miss _ fun j hj e => ?_
    have hacc := h.reach j hj
    have hpa := pte2pa_aligned (leafPte s pt (va + j))
    refine hno _ hacc ?_
    rw [translate_some hacc] at e
    have e := Option.some.inj e
    generalize pte2pa (leafPte s pt (va + j)) = q at *
    simp only [PGSIZE] at *
    omega
  have h1 : (a + i) / PGSIZE = a / PGSIZE ∧ (a + i) % PGSIZE = i := by
    simp only [PGSIZE] at *
    omega
  unfold Phys.byte at hbyte
  rwa [h1.1, h1.2] at hbyte

/-- The bytes stored, and the others as they were, where no two addresses are
the same byte of memory. -/
theorem Wrote.userByte (h : Wrote s s' pt va src k) (h0 : NoPageZero s pt)
    (hinj : ∀ vb vc a, translate s pt vb = some a → translate s pt vc = some a → vb = vc) (vb : Nat) :
    userByte s' pt vb = if va ≤ vb ∧ vb < va + k then src[vb - va]? else userByte s pt vb := by
  have h0' : NoPageZero s' pt := by
    intro vc hc
    rw [h.walk.pte]
    exact h0 vc ((h.walk.accessible vc).1 hc)
  rw [userByte_eq h0', userByte_eq h0, h.walk.translate]
  split
  · rename_i hin
    have hi : vb - va < k := by omega
    have hacc := h.reach _ hi
    rw [show va + (vb - va) = vb by omega] at hacc
    have htr := translate_some hacc
    rw [htr, Option.map_some]
    refine (h.hit (vb - va) hi (fun j h1 h2 e => ?_) _
      (by rw [show va + (vb - va) = vb by omega]; exact htr)).symm
    rw [show va + (vb - va) = vb by omega, htr] at e
    have := hinj _ _ _ e htr
    omega
  · rename_i hout
    cases htr : translate s pt vb with
    | none => rfl
    | some a =>
      refine congrArg some (h.miss a fun i hi e => hout ?_)
      have := hinj _ _ _ e htr
      omega

end Wrote

theorem pagesOf_eq_map (s : Phys) (pt n : Nat) : ∀ a,
    pagesOf s pt a n = (List.range n).map fun j => pte2pa (leaf s pt (a + j * PGSIZE)) := by
  induction n with
  | zero => intro a; rfl
  | succ n ih =>
    intro a
    rw [List.range_succ_eq_map, List.map_cons, List.map_map]
    unfold pagesOf
    rw [ih, Nat.zero_mul, Nat.add_zero]
    refine congrArg _ (List.map_congr_left fun j _ => ?_)
    simp only [Function.comp, Nat.succ_eq_add_one, Nat.add_mul, Nat.one_mul]
    rw [Nat.add_assoc, Nat.add_comm PGSIZE]

/-- Different user pages are different pages of memory. -/
theorem Space.page_inj {s : Phys} {pt n va vb : Nat} (h : Space s pt n) (ha : va < n * PGSIZE)
    (hb : vb < n * PGSIZE)
    (he : pte2pa (leaf s pt va) = pte2pa (leaf s pt vb)) : va / PGSIZE = vb / PGSIZE := by
  have hnd := h.pages.1
  rw [pagesOf_eq_map] at hnd
  have hlt : ∀ vc, vc < n * PGSIZE → vc / PGSIZE < n :=
    fun vc hc => Nat.div_lt_of_lt_mul (by rwa [Nat.mul_comm])
  have hleaf : ∀ vc, leaf s pt (0 + vc / PGSIZE * PGSIZE) = leaf s pt vc := fun vc => leaf_page (by
    simp only [PGSIZE]
    omega)
  refine List.inj_on_of_nodup_map hnd (List.mem_range.2 (hlt va ha)) (List.mem_range.2 (hlt vb hb)) ?_
  rw [hleaf, hleaf, he]

/-- No two user addresses are the same byte of memory. -/
theorem Space.translate_inj {s : Phys} {pt n : Nat} (h : Space s pt n)
    (hk : ∀ va, TRAPFRAME ≤ va → va < MAXVA → leaf s pt va &&& PTE_U = 0) (va vb a : Nat)
    (h1 : translate s pt va = some a) (h2 : translate s pt vb = some a) : va = vb := by
  have hpage : ∀ vc, translate s pt vc = some a → vc < n * PGSIZE ∧
      pte2pa (leaf s pt vc) + vc % PGSIZE = a := by
    intro vc e
    have hacc : Accessible s pt vc := by
      rw [← translate_isSome, e]
      rfl
    obtain ⟨hv, he⟩ := h.accessible hk hacc
    rw [translate_some hacc, he] at e
    exact ⟨hv, Option.some.inj e⟩
  obtain ⟨ha, ea⟩ := hpage va h1
  obtain ⟨hb, eb⟩ := hpage vb h2
  have pa := pte2pa_aligned (leaf s pt va)
  have pb := pte2pa_aligned (leaf s pt vb)
  have hmod : va % PGSIZE = vb % PGSIZE ∧ pte2pa (leaf s pt va) = pte2pa (leaf s pt vb) := by
    generalize pte2pa (leaf s pt va) = x at *
    generalize pte2pa (leaf s pt vb) = y at *
    simp only [PGSIZE] at *
    omega
  rw [← Nat.div_add_mod va PGSIZE, ← Nat.div_add_mod vb PGSIZE, h.page_inj ha hb hmod.2, hmod.1]

section Building
variable {s0 s : Phys} {pt n trampoline trapframe : Nat}

/-- `copyout` to an address space that is being built. -/
theorem Building.copyout (h : Building s0 s pt n trampoline trapframe) (va : Nat)
    (src : List UInt8) {R : Panic → Prop} :
    Wp (copyout pt va src) s (fun r s' => Building s0 s' pt n trampoline trapframe ∧ SameTree pt s s' ∧
      Wrote s s' pt va src r.1.length ∧ (r.2 = true ↔ r.1.length = src.length)) R := by
  refine (copyout_writes h.userTable va src).post fun r s' hr => ?_
  obtain ⟨hw, hok⟩ := hr
  have hkend : s'.kend = s.kend := by rw [hw.kept]
  obtain ⟨hb, hsame⟩ := h.congr hkend (by rw [hw.kept]) fun a ha hno => hw.frame ha fun vb hb e => by
    obtain ⟨hv, he⟩ := h.made.space.accessible h.kernel hb
    exact hno (by rw [← e, he]; exact page_mem hv)
  exact ⟨hb, hsame, hw, hok⟩

/-- A PTE without `PTE_U`. -/
theorem clear_pte {v : Nat} (h : v < 256 ^ 8) : v &&& (2 ^ 64 - 1 - PTE_U) < 256 ^ 8 ∧
    pte2pa (v &&& (2 ^ 64 - 1 - PTE_U)) = pte2pa v ∧ (v &&& (2 ^ 64 - 1 - PTE_U)) &&& PTE_U = 0 ∧
    ∀ b, (2 ^ 64 - 1 - PTE_U) &&& b = b → (v &&& (2 ^ 64 - 1 - PTE_U)) &&& b = v &&& b := by
  refine ⟨Nat.lt_of_le_of_lt Nat.and_le_left h, ?_, ?_, fun b hb => ?_⟩
  · unfold pte2pa
    rw [Nat.shiftRight_and_distrib]
    have e : (2 ^ 64 - 1 - PTE_U) >>> 10 = 2 ^ 54 - 1 := by decide
    rw [e, Nat.and_two_pow_sub_one_of_lt_two_pow]
    rw [Nat.shiftRight_eq_div_pow]
    omega
  · rw [Nat.and_assoc, show (2 ^ 64 - 1 - PTE_U) &&& PTE_U = 0 by decide, Nat.and_zero]
  · rw [Nat.and_assoc, hb]

theorem leaf_lt (s : Phys) (pt va : Nat) : leaf s pt va < 256 ^ 8 := by
  unfold leaf Phys.leafAt
  split
  · exact Bytes.getLE_lt _ _ _
  · decide

/-- `uvmclear` of a user page. -/
theorem Building.clear (h : Building s0 s pt n trampoline trapframe) {va : Nat} (hv : va < n * PGSIZE) :
    Wp (uvmclear pt va) s (fun _ s' => Building s0 s' pt n trampoline trapframe ∧
      (∀ vb, vb < MAXVA → leaf s' pt vb =
        if vb / PGSIZE = va / PGSIZE then leaf s pt va &&& (2 ^ 64 - 1 - PTE_U) else leaf s pt vb) ∧
      ∀ a, a % PGSIZE = 0 → ¬Node s pt a → s'.mem (a / PGSIZE) = s.mem (a / PGSIZE)) fun _ => False := by
  have hsp := h.made.space
  have hlow := hsp.low
  have hmax := hsp.mapped_low hv
  have hV : leaf s pt va &&& PTE_V ≠ 0 := (hsp.mapped va (by omega)).2 hv
  obtain ⟨hlt, hpa, hU, hkeep⟩ := clear_pte (leaf_lt s pt va)
  have hperm := hsp.perm va hv
  rw [← and_flags _ (by decide), ← hkeep _ (by decide)] at hperm
  unfold uvmclear
  refine (walk_mapped (Q := fun r t => t = s ∧ r ≠ 0 ∧ ∃ m, descend s.child pt (steps va 2) = some m ∧
    r = m + 8 * (idx 0 va).1) hsp.table hsp.free hmax hV
    fun m hm h0 => ⟨rfl, h0, m, hm, rfl⟩).bind fun r t hr => ?_
  obtain ⟨rfl, h0, m, hm, e⟩ := hr
  rw [if_neg h0, wp_bind, wp_load, e, word_slot hm, wp_store]
  obtain ⟨hk, hnode, hframe, hleaf⟩ := store_slot hsp.table hsp.free hmax hm hlt fun _ e => hperm (by
    rw [and_flags _ (by decide), e]
    decide)
  refine ⟨?_, hleaf, hframe⟩
  have hfl : (t.setWord (m + 8 * (idx 0 va).1) (leaf t pt va &&& (2 ^ 64 - 1 - PTE_U))).freelist =
      t.freelist := rfl
  generalize t.setWord (m + 8 * (idx 0 va).1) (leaf t pt va &&& (2 ^ 64 - 1 - PTE_U)) = s' at *
  -- the page is still mapped, to the same page of memory, with the other flags
  have hpage : ∀ vb, vb < MAXVA → pte2pa (leaf s' pt vb) = pte2pa (leaf t pt vb) ∧
      ∀ b, (2 ^ 64 - 1 - PTE_U) &&& b = b → leaf s' pt vb &&& b = leaf t pt vb &&& b := by
    intro vb hb
    rw [hleaf vb hb]
    split
    · rename_i hin
      rw [leaf_page hin]
      exact ⟨hpa, hkeep⟩
    · exact ⟨rfl, fun _ _ => rfl⟩
  have hlow' : ∀ vb, vb < n * PGSIZE → vb < MAXVA := fun vb hb => hsp.mapped_low hb
  have hpg : pagesOf s' pt 0 n = pagesOf t pt 0 n := by
    rw [pagesOf_eq_map, pagesOf_eq_map]
    refine List.map_congr_left fun j hj => (hpage _ (hlow' _ ?_)).1
    rw [Nat.zero_add]
    exact Nat.mul_lt_mul_of_pos_right (List.mem_range.1 hj) (by decide)
  have howned : ∀ a, Owned s' pt n a ↔ Owned t pt n a := by
    intro a
    unfold Owned
    rw [hnode, hfl, hpg]
  have hhigh : ∀ vb, TRAPFRAME ≤ vb → vb < MAXVA → leaf s' pt vb = leaf t pt vb := by
    intro vb h1 h2
    rw [hleaf vb h2, if_neg]
    simp only [PGSIZE] at *
    omega
  refine ⟨⟨⟨hk.table, hk.free, fun vb hb => ?_, fun vb hb => ?_, ?_⟩, hk.kend.trans h.made.kend, fun a => ?_,
    fun a ha hnf => ?_⟩, ⟨?_, ?_⟩, h.low⟩
  · rw [(hpage vb (by simp only [TRAPFRAME_eq, MAXVA_eq] at *; omega)).2 _ (by decide)]
    exact hsp.mapped vb hb
  · rw [← and_flags _ (by decide), (hpage vb (hlow' vb hb)).2 _ (by decide), and_flags _ (by decide)]
    exact hsp.perm vb hb
  · rw [hpg]
    refine ⟨hsp.pages.1, fun x hx => ?_⟩
    obtain ⟨h1, h2, h3⟩ := hsp.pages.2 x hx
    exact ⟨h1.congr hk.kend, fun e => h2 ((hnode x).1 e), by rw [hfl]; exact h3⟩
  · rw [howned]
    exact h.made.owned a
  · rw [hframe a ha fun e => hnf ((h.made.owned a).1 (.inl e)), h.made.frame a ha hnf]
  · rw [hhigh _ (by decide) (by decide)]
    exact h.high.trampoline
  · rw [hhigh _ (by decide) (by decide)]
    exact h.high.trapframe

end Building

end Xv6.Vm
