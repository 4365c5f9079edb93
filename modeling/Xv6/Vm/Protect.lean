import Xv6.Vm.Alloc

/-!
# Read-only user memory (`copyout` and `walkaddr` of `kernel/vm.c`)

`walkaddr` looks at `PTE_V` and `PTE_U` of a leaf PTE and not at `PTE_W`, so
`copyout` stores to pages that the program itself could not write.

* `copyout_text`: `exec` maps a text segment readable and executable, and
  `copyout` stores to it.
* `copyout_protected`: `copyout` keeps to writable memory, whatever it stores,
  exactly if it meets no read-only page before the first one it cannot reach.
* `Space.userTable`: the address spaces of processes are tables to which the
  results about `copyout` apply.
-/
namespace Xv6.Vm

/-- mirrors kernel/exec.c:12-20 -/
def flags2perm (flags : Nat) : Nat :=
  let perm := if flags &&& 0x1 ≠ 0 then PTE_X else 0
  if flags &&& 0x2 ≠ 0 then perm ||| PTE_W else perm

/-- The program itself may store to `va`. -/
def Writable (s : Phys) (pt va : Nat) : Prop := Accessible s pt va ∧ leafPte s pt va &&& PTE_W ≠ 0

/-- What user mode can get at is the user's pages. -/
theorem Space.accessible {s : Phys} {pt n va : Nat} (h : Space s pt n)
    (hhigh : ∀ va, TRAPFRAME ≤ va → va < MAXVA → leaf s pt va &&& PTE_U = 0) (ha : Accessible s pt va) :
    va < n * PGSIZE ∧ leafPte s pt va = leaf s pt va := by
  obtain ⟨hmax, hV, hU⟩ := ha
  have he := leafPte_eq h.table h.free hmax
  rw [he] at hV hU
  have hlow : va < TRAPFRAME := by
    by_contra hge
    exact hU (hhigh va (by omega) hmax)
  exact ⟨(h.mapped va hlow).1 hV, he⟩

/-- The user pages of an address space are no pages of the table. -/
theorem Space.userTable {s : Phys} {pt n : Nat} (h : Space s pt n)
    (hhigh : ∀ va, TRAPFRAME ≤ va → va < MAXVA → leaf s pt va &&& PTE_U = 0) : UserTable s pt := by
  have huser : ∀ va, Accessible s pt va → KPage s (pte2pa (leafPte s pt va)) ∧
      ¬Node s pt (pte2pa (leafPte s pt va)) := by
    intro va ha
    obtain ⟨hv, he⟩ := h.accessible hhigh ha
    rw [he]
    obtain ⟨h1, h2, -⟩ := h.user_page hv
    exact ⟨h1, h2⟩
  refine ⟨(h.table.page pt (reached_root _ _ _)).1,
    fun va a ha hn e => (huser va ha).2 (e ▸ hn), fun va ha e => ?_⟩
  have hk := (huser va ha).1.2.1
  have := h.free.kend
  omega

/-- `copyout` of `src` changes bytes of the destination that are on writable pages only, and refuses a
destination that is not all writable. -/
def Protected (s : Phys) (pt dstva : Nat) (src : List UInt8) : Prop :=
  ∃ stored ok s', copyout pt dstva src s = .ok ((stored, ok), s') ∧
    (∀ a, s'.byte a ≠ s.byte a →
      ∃ i, i < src.length ∧ Writable s pt (dstva + i) ∧ translate s pt (dstva + i) = some a) ∧
    ((∃ i, i < src.length ∧ ¬Writable s pt (dstva + i)) → ok = false)

/-- Every page that a copy to `len` bytes gets to is writable. -/
def ReachWritable (s : Phys) (pt dstva len : Nat) : Prop :=
  ∀ i, i < len → (∀ j, j ≤ i → Accessible s pt (dstva + j)) → leafPte s pt (dstva + i) &&& PTE_W ≠ 0

section
variable {s : Phys} {pt dstva : Nat} (hu : UserTable s pt)
include hu

theorem protected_of_reachWritable {src : List UInt8} (hw : ReachWritable s pt dstva src.length) :
    Protected s pt dstva src := by
  obtain ⟨r, s', hrun, hr, hok⟩ := (copyout_writes hu dstva src (R := fun _ => False)).returns
  have hle := hr.le
  have hwr : ∀ i, i < r.1.length → Writable s pt (dstva + i) := fun i hi =>
    ⟨hr.reach i hi, hw i (by omega) fun j hj => hr.reach j (by omega)⟩
  refine ⟨r.1, r.2, s', hrun, fun a hne => ?_, fun ⟨i, hi, hnw⟩ => ?_⟩
  · by_contra hno
    exact hne (hr.miss a fun i hi e => hno ⟨i, by omega, hwr i hi, e⟩)
  · by_contra hne
    have hall := hok.1 (by simpa using hne)
    exact hnw (hwr i (by omega))

/-- A read-only page that the copy gets to changes if every byte of the source is other than what is there. -/
theorem reachWritable_of_protected {len : Nat}
    (hinj : ∀ va vb a, translate s pt va = some a → translate s pt vb = some a → va = vb)
    (h : ∀ src : List UInt8, src.length = len → Protected s pt dstva src) : ReachWritable s pt dstva len := by
  intro i hi hreach hro
  have hlen : ((List.range len).map fun j =>
      ((translate s pt (dstva + j)).map fun a => s.byte a + 1).getD 0).length = len := by simp
  obtain ⟨stored, ok, s', hrun, hch, -⟩ := h _ hlen
  obtain ⟨r, s'', hrun', hr, -⟩ := (copyout_writes hu dstva _ (R := fun _ => False)).returns
  cases hrun.symm.trans hrun'
  have hr : Wrote s s' pt dstva _ stored.length := hr
  have hik : i < stored.length := by
    by_contra hge
    exact hr.stop (by rw [hlen]; omega) (hreach _ (by omega))
  have htr := translate_some (hreach i (Nat.le_refl _))
  have hhit := hr.hit i hik (fun j hij _ e => absurd (hinj _ _ _ (e.trans htr) htr) (by omega)) _ htr
  rw [List.getElem?_map, List.getElem?_range hi, Option.map_some, htr, Option.map_some, Option.getD_some,
    Option.some.injEq] at hhit
  obtain ⟨i', -, hwr, e⟩ := hch _ (by rw [← hhit]; simp)
  obtain rfl : i' = i := by have := hinj _ _ _ e htr; omega
  exact hwr.2 hro

/-- **`copyout` changes writable user memory only**, on a table on which no two user addresses are one byte of
memory, as those of processes are (`Space.userTable`, `Space.translate_inj`), if and only if every page of the
range before the first one that the user cannot get at is writable. -/
theorem copyout_protected
    (hinj : ∀ va vb a, translate s pt va = some a → translate s pt vb = some a → va = vb) (dstva len : Nat) :
    (∀ src : List UInt8, src.length = len → Protected s pt dstva src) ↔ ReachWritable s pt dstva len :=
  ⟨reachWritable_of_protected hu hinj, fun hw _ hlen => protected_of_reachWritable hu (hlen ▸ hw)⟩

end

/-- Two bytes at the end of the only page: the first one is stored, and the call is refused. -/
theorem copyout_protected_onePage :
    ∃ stored s', copyout 0x80010000 4095 [7, 8] onePage = .ok ((stored, false), s') ∧
    ∀ a, s'.byte a ≠ onePage.byte a → a = 0x80013fff := by
  have htr : ∀ va a, translate onePage 0x80010000 va = some a → va < PGSIZE ∧ a = 0x80013000 + va := by
    intro va a e
    have hva := accessible_onePage.1 (translate_isSome.1 (by rw [e]; rfl))
    rw [translate_onePage hva] at e
    exact ⟨hva, (Option.some.inj e).symm⟩
  have hinj : ∀ va vb a, translate onePage 0x80010000 va = some a → translate onePage 0x80010000 vb = some a →
      va = vb := fun va vb a h1 h2 => by have := (htr va a h1).2; have := (htr vb a h2).2; omega
  obtain ⟨stored, ok, s', hrun, hch, hfail⟩ :=
    (copyout_protected userTable_onePage hinj 4095 2).2 (fun i _ ha => by
    have hi := ha i (Nat.le_refl _)
    rw [leafPte_onePage hi.1, if_pos (Nat.div_eq_of_lt (accessible_onePage.1 hi))]
    decide) [7, 8] rfl
  obtain rfl := hfail ⟨1, by decide, fun h => absurd (accessible_onePage.1 h.1) (by decide)⟩
  refine ⟨stored, s', hrun, fun a ha => ?_⟩
  obtain ⟨i, -, -, e⟩ := hch a ha
  obtain ⟨hlt, rfl⟩ := htr _ _ e
  unfold PGSIZE at hlt
  omega

/-- A text segment as `exec` maps it, and one byte stored to it. -/
theorem copyout_text : ∃ s, uvmalloc firstTable.pt 0 4096 (flags2perm 5) firstTable.phys = .ok (4096, s) ∧
    UserTable s firstTable.pt ∧ leafPte s firstTable.pt 0 &&& PTE_W = 0 ∧
    ∃ stored s' a, copyout firstTable.pt 0 [7] s = .ok ((stored, true), s') ∧
    translate s firstTable.pt 0 = some a ∧
      s'.byte a ≠ s.byte a := by
  have hrun : (uvmalloc firstTable.pt 0 4096 (flags2perm 5) firstTable.phys).toOption.map Prod.fst =
      some 4096 := by
    decide +kernel
  obtain ⟨r, s, hok, hres⟩ := (uvmalloc_spec (m := 1) space_firstTable ⟨Nat.le_refl 0, by decide⟩
    (show Pages 4096 1 from ⟨by decide, by decide⟩)
    (by decide) (show PermOk (PTE_R ||| PTE_U ||| flags2perm 5) from
      ⟨by decide, by decide⟩)).returns
  rw [hok] at hrun
  rw [show r = 4096 from Option.some.inj hrun] at hok hres
  rcases hres with ⟨e, -⟩ | ⟨-, hres, hfresh⟩
  · cases e
  obtain ⟨hflags, hzero⟩ := hfresh 0 (Nat.le_refl _) (by decide)
  have hinv := ptInv_init init_firstTable
  have hu : UserTable s firstTable.pt := hres.space.userTable fun va h1 h2 => by
    rw [hres.high va h1 h2, ← leafPte_eq hinv.table hinv.free h2, firstTable_unmapped, Nat.zero_and]
  have hpte : leafPte s firstTable.pt 0 = leaf s firstTable.pt 0 :=
    leafPte_eq hres.space.table hres.space.free (by decide)
  have hflag : ∀ b, 0x3FF &&& b = b → leafPte s firstTable.pt 0 &&& b =
      (PTE_R ||| PTE_U ||| flags2perm 5 ||| PTE_V) &&& b := by
    intro b hb
    rw [hpte, and_flags _ hb, hflags]
  have ha : Accessible s firstTable.pt 0 := by
    refine ⟨by decide, ?_, ?_⟩
    · rw [hflag PTE_V (by decide)]; decide
    · rw [hflag PTE_U (by decide)]; decide
  refine ⟨s, hok, hu, by rw [hflag PTE_W (by decide)]; decide, ?_⟩
  obtain ⟨q, s', hrun', hw, hlen⟩ := (copyout_writes hu 0 [7] (R := fun _ => False)).returns
  have hone : q.1.length = 1 := hw.all_iff.2 fun i hi => by
    obtain rfl : i = 0 := by simpa using hi
    exact ha
  rw [hone] at hw
  have htr := translate_some ha
  refine ⟨q.1, s', _, ?_, htr, ?_⟩
  · rw [hrun', ← hlen.2 (by rw [hone]; rfl)]
  · have h7 := hw.hit 0 (by decide) (fun j h1 h2 => absurd h2 (by omega)) _ htr
    have h0 : s.byte (pte2pa (leafPte s firstTable.pt 0) + 0 % PGSIZE) = 0 := by
      rw [byte_page (pte2pa_aligned _) (by decide), hpte, hzero]
      rfl
    rw [h0, ← Option.some.inj h7]
    decide

end Xv6.Vm
