import Xv6.Vm.Free

/-!
# Copying an address space (`uvmcopy` of `kernel/vm.c`)

`uvmcopy` gives the child a page of its own for every page of the parent, with
the parent's contents and flags. The child's table is made of free pages
(`Made`), so the parent's pages are not among those it writes.

* `uvmcopy_spec`: a copy of every page, or a child without user pages again.
-/
namespace Xv6.Vm

/-- `memmove(dst, src, PGSIZE)` between pages. -/
def copyPage (dst src : Nat) : M Unit := Prog.modify fun s => s.setPage dst (s.mem (src / PGSIZE))

/-- The loop of `uvmcopy`; page tables end at `MAXVA`, so no run makes more
than `passes` of them.
mirrors kernel/vm.c:313-332 -/
def uvmcopyLoop (old new sz : Nat) : Nat → Nat → M Int
  | 0, _ => Prog.panic .walk
  | fuel + 1, i =>
    if i < sz then do
      let pte ← walk old i false
      if pte = 0 then Prog.panic .uvmcopyPte
      else do
        let v ← load pte
        if v &&& PTE_V = 0 then Prog.panic .uvmcopyPage
        else do
          let mem ← kalloc
          if mem = 0 then do
            uvmunmap new 0 (i / PGSIZE) true
            pure (-1)
          else do
            copyPage mem (pte2pa v)
            let r ← mappages new i PGSIZE mem (pteFlags v)
            if r ≠ 0 then do
              kfree mem
              uvmunmap new 0 (i / PGSIZE) true
              pure (-1)
            else uvmcopyLoop old new sz fuel ((i + PGSIZE) % 2 ^ 64)
    else pure 0

/-- mirrors kernel/vm.c:299-333 -/
def uvmcopy (old new sz : Nat) : M Int := uvmcopyLoop old new sz passes 0

/-! ## uvmcopy -/

/-- The first `k` pages of `new` are copies of those of `old`. -/
def Copies (s t : Phys) (old new k : Nat) : Prop :=
  ∀ va, va < k * PGSIZE → pteFlags (leaf t new va) = pteFlags (leaf s old va) ∧
    t.mem (pte2pa (leaf t new va) / PGSIZE) = s.mem (pte2pa (leaf s old va) / PGSIZE)

theorem pteFlags_lt (pte : Nat) : pteFlags pte < 1024 := by
  unfold pteFlags
  exact Nat.lt_of_le_of_lt Nat.and_le_right (by decide)

theorem pteFlags_valid {pte : Nat} (h : pte &&& PTE_V ≠ 0) : pteFlags pte ||| PTE_V = pteFlags pte := by
  rw [and_flags _ (by decide)] at h
  generalize pteFlags pte = x at *
  have h1 : x % 2 = 1 := by
    rw [show PTE_V = 1 by rfl, Nat.and_one_is_mod] at h
    omega
  rw [show PTE_V = 1 by rfl]
  apply Nat.eq_of_testBit_eq
  intro i
  rw [Nat.testBit_or]
  cases i with
  | zero => simp [Nat.testBit_zero, h1]
  | succ i => simp [Nat.testBit_succ]

variable {s0 : Phys} {old new n sz trampoline trapframe : Nat}

theorem uvmcopyLoop_spec (ho : Space s0 old n) (hsz : Pages sz n)
    (fuel : Nat) : ∀ {k : Nat} {s : Phys}, Made s0 s new k → High s new trampoline trapframe → k ≤ n →
    Copies s0 s old new k → NPAGE < fuel + k →
    Wp (uvmcopyLoop old new sz fuel (k * PGSIZE)) s (fun r s' =>
      r = -1 ∧ Made s0 s' new 0 ∧ High s' new trampoline trapframe ∨
      r = 0 ∧ Made s0 s' new n ∧ High s' new trampoline trapframe ∧
      Copies s0 s' old new n) fun _ => False := by
  induction fuel with
  | zero =>
    intro k s h _ _ _ hfuel
    have := h.space.small
    omega
  | succ fuel ih =>
    intro k s h hh hkn hcopy hfuel
    obtain ⟨hso, hsame⟩ := ho.other h.took
    have hsmall := h.space.small
    unfold uvmcopyLoop
    by_cases hlt : k * PGSIZE < sz
    swap
    · have hk : n = k := by
        unfold Pages at hsz
        simp only [PGSIZE] at hsz hlt
        omega
      rw [if_neg hlt, wp_pure, hk]
      exact .inr ⟨rfl, h, hh, hcopy⟩
    rw [if_pos hlt]
    have hkn' : k < n := by
      have := hsz.1
      simp only [PGSIZE] at this hlt
      omega
    have hkP : k * PGSIZE < n * PGSIZE := Nat.mul_lt_mul_of_pos_right hkn' (by decide)
    have hV : leaf s old (k * PGSIZE) &&& PTE_V ≠ 0 := by
      have := hso.low
      exact (hso.mapped _ (by omega)).2 hkP
    refine Wp.bind
      (walk_mapped (Q := fun r t => t = s ∧ r ≠ 0 ∧ s.word r = leaf s old (k * PGSIZE)) hso.table hso.free
      (hso.mapped_low hkP) hV fun m hm h0 => ⟨rfl, h0, word_slot hm⟩) fun r t hr => ?_
    obtain ⟨rfl, h0, hword⟩ := hr
    rw [if_neg h0, wp_bind, wp_load, hword, if_neg hV]
    have hleaf : leaf t old (k * PGSIZE) = leaf s0 old (k * PGSIZE) := hsame.leaves.leaf _
    have hnext : (k * PGSIZE + PGSIZE) % 2 ^ 64 = (k + 1) * PGSIZE := by
      simp only [NPAGE, PGSIZE] at *
      omega
    have hdiv : k * PGSIZE / PGSIZE = k := Nat.mul_div_cancel _ (by decide)
    obtain ⟨hp1, hp2, hp3⟩ := ho.user_page hkP
    rw [hnext, hdiv, hleaf]
    rw [hleaf] at hV
    refine alloc_pass (b := s0.mem (pte2pa (leaf s0 old (k * PGSIZE)) / PGSIZE)) h.space
      ⟨pteFlags_lt _, ho.perm _ hkP⟩ (fun r u g => ?_) (fun s1 h1 => ?_) (fun s1 h1 hfl _ hm => ?_)
    · -- the page to be copied is the parent's, not the one just allocated
      unfold copyPage
      rw [wp_modify, g.keep h.space.free hp1.1 fun e => hp3 (h.took.sub _ (e ▸ g.mem_free)),
        ho.other_mem h.took hkP]
    · refine (uvmunmap_all h1.space).bind fun _ s2 h2 => ?_
      have hr : Resize new t k s2 0 := h1.trans h2 (by omega)
      rw [wp_pure]
      exact .inl ⟨rfl, h.resize hr, hh.resize hr⟩
    · rw [pteFlags_valid hV] at hfl
      refine ih (h.resize h1) (hh.resize h1) (by omega) (fun va hv => ?_) (by omega)
      by_cases hva : va < k * PGSIZE
      · obtain ⟨e, m⟩ := h1.low va hva hv
        rw [e, m]
        exact hcopy va hva
      · have hpage : va / PGSIZE = k * PGSIZE / PGSIZE := by
          simp only [PGSIZE] at *
          omega
        rw [leaf_page hpage, leaf_page hpage]
        exact ⟨hfl, hm⟩

/-- **A child gets a copy of every page**, or is left without user pages. -/
theorem uvmcopy_spec {s : Phys} (ho : Space s0 old n) (hsz : Pages sz n)
    (h : Made s0 s new 0) (hh : High s new trampoline trapframe) :
    Wp (uvmcopy old new sz) s (fun r s' =>
      r = -1 ∧ Made s0 s' new 0 ∧ High s' new trampoline trapframe ∨
      r = 0 ∧ Made s0 s' new n ∧ High s' new trampoline trapframe ∧
      Copies s0 s' old new n) fun _ => False := by
  have hpass : NPAGE < passes + 0 := by decide
  unfold uvmcopy
  have := uvmcopyLoop_spec ho hsz passes h hh (Nat.zero_le n) (fun va hv => absurd hv (by omega)) hpass
  rwa [Nat.zero_mul] at this

end Xv6.Vm
