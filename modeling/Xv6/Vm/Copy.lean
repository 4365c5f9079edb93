import Xv6.Vm.Table

/-!
# Copies from and to user memory (`copyin` and `copyout` of `kernel/vm.c`)

Both go page by page and stop at the first page that is not mapped for the
user; what has been copied until then stays copied. `copyin` returns the bytes
it has moved to `dst`, `copyout` the user addresses it has stored to, and both
whether they came to the end.

* `pagePass`: where a pass stops, and where the next one begins.
* `copyin_spec`: the bytes before the first page that is not mapped, and
  success if there is none.
-/
namespace Xv6.Vm

/-- `memmove` from `n` bytes of a page. -/
def loadBytes (a n : Nat) : M (List UInt8) := fun s =>
  .ok ((List.range n).map fun i => (s.mem (a / PGSIZE)).get (a % PGSIZE + i), s)

/-- `memmove` to a page. -/
def storeBytes (a : Nat) (bytes : List UInt8) : M Unit :=
  Prog.modify fun s =>
    s.setPage a ((s.mem (a / PGSIZE)).splice (a % PGSIZE) bytes.length fun i => bytes.getD i 0)

/-- mirrors kernel/vm.c:378-394 -/
def copyinLoop (pagetable : Nat) : Nat → Nat → Nat → M (List UInt8 × Bool)
  | 0, _, _ => pure ([], true)
  | passes + 1, srcva, len =>
    if len = 0 then pure ([], true)
    else do
      let va0 := pgRoundDown srcva
      let pa0 ← walkaddr pagetable va0
      if pa0 = 0 then pure ([], false)
      else do
        let n := min (PGSIZE - (srcva - va0)) len
        let bytes ← loadBytes (pa0 + (srcva - va0)) n
        let rest ← copyinLoop pagetable passes ((va0 + PGSIZE) % 2 ^ 64) (len - n)
        pure (bytes ++ rest.1, rest.2)

/-- A pass copies at least one byte, so there are at most `len`.
mirrors kernel/vm.c:373-396 -/
def copyin (pagetable srcva len : Nat) : M (List UInt8 × Bool) := copyinLoop pagetable len srcva len

/-- mirrors kernel/vm.c:353-369 -/
def copyoutLoop (pagetable : Nat) : Nat → Nat → List UInt8 → M (List Nat × Bool)
  | 0, _, _ => pure ([], true)
  | passes + 1, dstva, src =>
    if src.length = 0 then pure ([], true)
    else do
      let va0 := pgRoundDown dstva
      let pa0 ← walkaddr pagetable va0
      if pa0 = 0 then pure ([], false)
      else do
        let n := min (PGSIZE - (dstva - va0)) src.length
        storeBytes (pa0 + (dstva - va0)) (src.take n)
        let rest ← copyoutLoop pagetable passes ((va0 + PGSIZE) % 2 ^ 64) (src.drop n)
        pure ((List.range n).map (dstva + ·) ++ rest.1, rest.2)

/-- mirrors kernel/vm.c:348-371 -/
def copyout (pagetable dstva : Nat) (src : List UInt8) : M (List Nat × Bool) :=
  copyoutLoop pagetable src.length dstva src

/-! ## User memory -/

/-- The physical page of the user page at `va0`, or 0. -/
def pageAt (s : Phys) (pt va0 : Nat) : Nat :=
  match walkaddr pt va0 s with
  | .ok (pa, _) => pa
  | .error _ => 0

theorem pte2pa_aligned (pte : Nat) : pte2pa pte % PGSIZE = 0 := by
  unfold pte2pa PGSIZE
  rw [Nat.shiftLeft_eq]
  omega

/-- `walkaddr` leaves memory alone, and returns 0 or the address of a page. -/
theorem walkaddr_page (s : Phys) (pt va : Nat) : Wp (walkaddr pt va) s
    (fun pa s' => s' = s ∧ pa % PGSIZE = 0 ∧ (MAXVA ≤ va → pa = 0)) fun _ => False := by
  unfold walkaddr
  rw [wp_ite]
  refine ⟨fun _ => (wp_pure _).2 ⟨rfl, rfl, fun _ => rfl⟩, fun hv => ?_⟩
  have hwalk : Wp (walk pt va false) s (fun _ s' => s' = s) fun _ => False := by
    unfold walk
    rw [if_neg hv]
    exact (wp_ok (walkFrom_lookup va s 2 pt)).2 rfl
  refine hwalk.bind fun pte s' e => ?_
  subst e
  rw [wp_ite]
  refine ⟨fun _ => (wp_pure _).2 ⟨rfl, rfl, fun _ => rfl⟩, fun _ => ?_⟩
  rw [wp_bind, wp_load, wp_ite]
  refine ⟨fun _ => (wp_pure _).2 ⟨rfl, rfl, fun _ => rfl⟩, fun _ => ?_⟩
  rw [wp_ite]
  refine ⟨fun _ => (wp_pure _).2 ⟨rfl, rfl, fun _ => rfl⟩, fun _ => ?_⟩
  rw [wp_pure]
  exact ⟨rfl, pte2pa_aligned _, fun h => absurd h hv⟩

theorem pageAt_spec (s : Phys) (pt va : Nat) : walkaddr pt va s = .ok (pageAt s pt va, s) ∧
    pageAt s pt va % PGSIZE = 0 ∧ (MAXVA ≤ va → pageAt s pt va = 0) := by
  obtain ⟨pa, s', h, e, hpa⟩ := (walkaddr_page s pt va).returns
  subst e
  have hat : pageAt s' pt va = pa := by
    unfold pageAt
    rw [h]
  rw [hat]
  exact ⟨h, hpa⟩

variable {R : Panic → Prop} {s : Phys} {va i pt k n : Nat}

@[simp] theorem wp_walkaddr (s : Phys) (pt va : Nat) {Q : Nat → Phys → Prop} :
    Wp (walkaddr pt va) s Q R ↔ Q (pageAt s pt va) s := wp_ok (pageAt_spec s pt va).1

@[simp] theorem wp_loadBytes (a n : Nat) {Q : List UInt8 → Phys → Prop} :
    Wp (loadBytes a n) s Q R ↔
      Q ((List.range n).map fun i => (s.mem (a / PGSIZE)).get (a % PGSIZE + i)) s := wp_ok rfl

/-- The byte at a user address, if its page is mapped. -/
def userByte (s : Phys) (pt va : Nat) : Option UInt8 :=
  if pageAt s pt (pgRoundDown va) = 0 then none
  else some ((s.mem (pageAt s pt (pgRoundDown va) / PGSIZE)).get (va % PGSIZE))

/-- The bytes from `va` on, up to `n` or to the first one that is not mapped. -/
structure Copied (s : Phys) (pt va n : Nat) (r : List UInt8 × Bool) : Prop where
  le : r.1.length ≤ n
  bytes : ∀ i, i < r.1.length → userByte s pt (va + i) = r.1[i]?
  stop : r.1.length < n → userByte s pt (va + r.1.length) = none
  ok : r.2 = true ↔ r.1.length = n

theorem pgRoundDown_add (h : va % PGSIZE + i < PGSIZE) : pgRoundDown (va + i) = pgRoundDown va := by
  unfold pgRoundDown PGSIZE at *
  omega

/-- The bytes of one page. -/
theorem userByte_page (hpa : pageAt s pt (pgRoundDown va) ≠ 0) (h : va % PGSIZE + i < PGSIZE) :
    userByte s pt (va + i) =
    some ((s.mem ((pageAt s pt (pgRoundDown va) + (va - pgRoundDown va)) / PGSIZE)).get
      ((pageAt s pt (pgRoundDown va) + (va - pgRoundDown va)) % PGSIZE + i)) := by
  have hal := (pageAt_spec s pt (pgRoundDown va)).2.1
  generalize hp : pageAt s pt (pgRoundDown va) = pa at *
  unfold userByte
  rw [pgRoundDown_add h, hp, if_neg hpa]
  have h1 : (pa + (va - pgRoundDown va)) / PGSIZE = pa / PGSIZE := by
    unfold pgRoundDown PGSIZE at *
    omega
  have h2 : (pa + (va - pgRoundDown va)) % PGSIZE + i = (va + i) % PGSIZE := by
    unfold pgRoundDown PGSIZE at *
    omega
  rw [h1, h2]

theorem Copied.nil (s : Phys) (pt va : Nat) : Copied s pt va 0 ([], true) :=
  ⟨Nat.le_refl _, fun i hi => absurd hi (Nat.not_lt_zero i), fun h => absurd h (Nat.lt_irrefl 0), by simp⟩

/-- A page, and what comes after it. -/
theorem Copied.page {bytes : List UInt8} {r : List UInt8 × Bool} (hk : bytes.length = k)
    (hle : k ≤ n) (hb : ∀ i, i < k → userByte s pt (va + i) = bytes[i]?)
    (h : Copied s pt (va + k) (n - k) r) : Copied s pt va n (bytes ++ r.1, r.2) := by
  have hlen : (bytes ++ r.1).length = k + r.1.length := by rw [List.length_append, hk]
  have hrest := h.le
  refine ⟨by rw [hlen]; omega, fun i hi => ?_, fun hlt => ?_, ?_⟩
  · rw [hlen] at hi
    by_cases hik : i < k
    · rw [hb i hik, List.getElem?_append_left (by omega)]
    · rw [List.getElem?_append_right (by omega), hk, ← h.bytes (i - k) (by omega)]
      congr 1
      omega
  · rw [hlen] at hlt ⊢
    rw [← Nat.add_assoc]
    exact h.stop (by omega)
  · rw [hlen, h.ok]
    omega

/-- A pass of the copies ends with the page, or with the `m` bytes it was to copy. -/
structure PagePass (va n m : Nat) : Prop where
  start : va - pgRoundDown va = va % PGSIZE
  page : va % PGSIZE + m ≤ PGSIZE
  le : m ≤ n
  pos : n ≠ 0 → 0 < m
  low : va + m < 2 ^ 39
  /-- the next page begins where this one ends, unless nothing is left to copy -/
  next : n - m ≠ 0 → (pgRoundDown va + PGSIZE) % 2 ^ 64 = va + m

theorem pagePass (hpa : pageAt s pt (pgRoundDown va) ≠ 0) (hm : min (PGSIZE - (va - pgRoundDown va)) n = k) :
    PagePass va n k := by
  have hlow : pgRoundDown va < MAXVA := by
    by_contra hv
    exact hpa ((pageAt_spec s pt _).2.2 (Nat.not_lt.1 hv))
  unfold MAXVA at hlow
  constructor <;> simp only [pgRoundDown, PGSIZE] at * <;> omega

theorem userByte_none (h : pageAt s pt (pgRoundDown va) = 0) : userByte s pt va = none := if_pos h

theorem copyinLoop_zero (pt passes va : Nat) : copyinLoop pt passes va 0 = pure ([], true) := by
  cases passes with
  | zero => rfl
  | succ passes => exact if_pos rfl

theorem copyinLoop_spec (s : Phys) (pt : Nat) (passes : Nat) : ∀ {va n : Nat}, n ≤ passes →
    Wp (copyinLoop pt passes va n) s (fun r s' => s' = s ∧ Copied s pt va n r) R := by
  induction passes with
  | zero =>
    intro va n hn
    rw [Nat.le_zero.1 hn, copyinLoop_zero, wp_pure]
    exact ⟨rfl, Copied.nil s pt va⟩
  | succ passes ih =>
    intro va n hn
    by_cases h0 : n = 0
    · rw [h0, copyinLoop_zero, wp_pure]
      exact ⟨rfl, Copied.nil s pt va⟩
    unfold copyinLoop
    rw [if_neg h0, wp_bind, wp_walkaddr, wp_ite]
    refine ⟨fun hpa => ?_, fun hpa => ?_⟩
    · rw [wp_pure]
      refine ⟨rfl, Nat.zero_le _, fun i hi => absurd hi (Nat.not_lt_zero i), fun _ => userByte_none hpa, ?_⟩
      simp only [List.length_nil, Bool.false_eq_true, false_iff]
      exact Ne.symm h0
    rw [wp_bind, wp_loadBytes]
    generalize hm : min (PGSIZE - (va - pgRoundDown va)) n = m
    have hp := pagePass hpa hm
    have hpos := hp.pos h0
    have hpage := hp.page
    have hnext : copyinLoop pt passes ((pgRoundDown va + PGSIZE) % 2 ^ 64) (n - m) =
        copyinLoop pt passes (va + m) (n - m) := by
      by_cases hlast : n - m = 0
      · rw [hlast, copyinLoop_zero, copyinLoop_zero]
      · rw [hp.next hlast]
    rw [hnext]
    refine (ih (by omega)).bind fun r s' h => ?_
    obtain ⟨rfl, hr⟩ := h
    rw [wp_pure]
    refine ⟨rfl, hr.page (by simp) hp.le fun i hi => ?_⟩
    rw [userByte_page hpa (by omega), List.getElem?_map, List.getElem?_range hi]
    rfl

theorem copyin_spec (s : Phys) (pt va n : Nat) :
    Wp (copyin pt va n) s (fun r s' => s' = s ∧ Copied s pt va n r) R :=
  copyinLoop_spec s pt n (Nat.le_refl n)

end Xv6.Vm
