import Mathlib.Logic.Function.Basic
import Xv6.Core.Bytes
import Xv6.Core.Prog

/-!
# Physical pages, `kalloc.c` and the page-table walk of `vm.c`

Memory is a function from physical page numbers to pages of bytes, seen
through the kernel's direct map, so a pointer is a physical address. Page
tables are words in it. Addresses are naturals below 2^64; where the C
arithmetic can leave that range the remainder is written out.

`kmem.freelist` is the list of free pages, head first (`run.next` is also
stored in the page, as `kfree` leaves it). `refuse` is what the environment
adds to the source: the `kalloc` calls that fail although a page is free, in
call order; an empty list is the allocator as written.
-/
namespace Xv6.Vm

/-! ## Constants and macros (kernel/riscv.h:335-363, kernel/memlayout.h) -/

def PGSIZE : Nat := 4096
def MAXVA : Nat := 1 <<< (9 + 9 + 9 + 12 - 1)
def KERNBASE : Nat := 0x80000000
def PHYSTOP : Nat := KERNBASE + 128 * 1024 * 1024

def PTE_V : Nat := 1 <<< 0
def PTE_R : Nat := 1 <<< 1
def PTE_W : Nat := 1 <<< 2
def PTE_X : Nat := 1 <<< 3
def PTE_U : Nat := 1 <<< 4

def pgRoundDown (a : Nat) : Nat := a / PGSIZE * PGSIZE
def pgRoundUp (sz : Nat) : Nat := (sz + PGSIZE - 1) % 2 ^ 64 / PGSIZE * PGSIZE

def pa2pte (pa : Nat) : Nat := ((pa >>> 12) <<< 10) % 2 ^ 64
def pte2pa (pte : Nat) : Nat := ((pte >>> 10) <<< 12) % 2 ^ 64
def pteFlags (pte : Nat) : Nat := pte &&& 0x3FF

/-- `PX(level, va)` -/
def px (level va : Nat) : Nat := (va >>> (12 + 9 * level)) &&& 0x1FF

/-! ## Memory -/

abbrev Page := Bytes PGSIZE

structure Phys where
  mem : Nat → Page
  freelist : List Nat
  /-- the outcomes forced on the next `kalloc` calls -/
  refuse : List Bool
  /-- `end`, the first address after the kernel -/
  kend : Nat

inductive Panic where
  | kfree
  | walk
  | mappagesSize
  | mappagesRemap
  | uvmunmapNotAligned
  | uvmunmapWalk
  | uvmunmapNotMapped
  | uvmunmapNotALeaf
  | freewalkLeaf
  | uvmcopyPte
  | uvmcopyPage
  | uvmclear
  | loadsegAddress
  deriving DecidableEq, Repr

abbrev M := Prog Panic Phys

namespace Phys

/-- `*(uint64*)a`, for an aligned address -/
def word (s : Phys) (a : Nat) : Nat := (s.mem (a / PGSIZE)).getLE (a % PGSIZE) 8

def setPage (s : Phys) (a : Nat) (b : Page) : Phys :=
  { s with mem := Function.update s.mem (a / PGSIZE) b }

/-- `*(uint64*)a = v` -/
def setWord (s : Phys) (a v : Nat) : Phys :=
  s.setPage a ((s.mem (a / PGSIZE)).setLE (a % PGSIZE) 8 v)

/-- `memset(a, c, PGSIZE)`, for a page -/
def fill (s : Phys) (a : Nat) (c : UInt8) : Phys := s.setPage a (fun _ => c)

end Phys

def load (a : Nat) : M Nat := fun s => .ok (s.word a, s)
def store (a v : Nat) : M Unit := Prog.modify (·.setWord a v)
def memset (a : Nat) (c : UInt8) : M Unit := Prog.modify (·.fill a c)

/-! ## kernel/kalloc.c -/

/-- mirrors kernel/kalloc.c:46-63 -/
def kfree (pa : Nat) : M Unit := do
  let s ← Prog.get
  if pa % PGSIZE ≠ 0 ∨ pa < s.kend ∨ PHYSTOP ≤ pa then Prog.panic .kfree
  else do
    memset pa 1
    store pa (s.freelist.headD 0)
    Prog.modify fun s => { s with freelist := pa :: s.freelist }

/-- mirrors kernel/kalloc.c:68-82 -/
def kalloc : M Nat := fun s =>
  match s.refuse.headD false, s.freelist with
  | false, r :: rest => .ok (r, { s.fill r 5 with freelist := rest, refuse := s.refuse.tail })
  | _, _ => .ok (0, { s with refuse := s.refuse.tail })

/-! ## kernel/vm.c -/

/-- The loop of `walk`, from the table of the given level down.
mirrors kernel/vm.c:91-103 -/
def walkFrom (va : Nat) (alloc : Bool) : Nat → Nat → M Nat
  | 0, pagetable => pure (pagetable + 8 * px 0 va)
  | level + 1, pagetable => do
    let pte := pagetable + 8 * px (level + 1) va
    let v ← load pte
    if v &&& PTE_V ≠ 0 then walkFrom va alloc level (pte2pa v)
    else if !alloc then pure 0
    else do
      let pagetable ← kalloc
      if pagetable = 0 then pure 0
      else do
        memset pagetable 0
        store pte (pa2pte pagetable ||| PTE_V)
        walkFrom va alloc level pagetable

/-- mirrors kernel/vm.c:85-103; 0 is the null pointer -/
def walk (pagetable va : Nat) (alloc : Bool) : M Nat :=
  if MAXVA ≤ va then Prog.panic .walk else walkFrom va alloc 2 pagetable

/-- mirrors kernel/vm.c:108-126 -/
def walkaddr (pagetable va : Nat) : M Nat :=
  if MAXVA ≤ va then pure 0
  else do
    let pte ← walk pagetable va false
    if pte = 0 then pure 0
    else do
      let v ← load pte
      if v &&& PTE_V = 0 then pure 0
      else if v &&& PTE_U = 0 then pure 0
      else pure (pte2pa v)

/-- The loop of `mappages`. A pass at or above `MAXVA` panics in `walk`, so
no run makes more than `passes` of them. -/
def mapLoop (pagetable last perm : Nat) : Nat → Nat → Nat → M Int
  | 0, _, _ => Prog.panic .walk
  | fuel + 1, a, pa => do
    let pte ← walk pagetable a true
    if pte = 0 then pure (-1)
    else do
      let v ← load pte
      if v &&& PTE_V ≠ 0 then Prog.panic .mappagesRemap
      else do
        store pte (pa2pte pa ||| perm ||| PTE_V)
        if a = last then pure 0
        else mapLoop pagetable last perm fuel ((a + PGSIZE) % 2 ^ 64) ((pa + PGSIZE) % 2 ^ 64)

def passes : Nat := MAXVA / PGSIZE + 1

/-- mirrors kernel/vm.c:142-165 -/
def mappages (pagetable va size pa perm : Nat) : M Int :=
  if size = 0 then Prog.panic .mappagesSize
  else mapLoop pagetable (pgRoundDown ((va + size - 1) % 2 ^ 64)) perm passes (pgRoundDown va) pa

/-- `if(do_free) kfree(pa)` -/
def freeIf (doFree : Bool) (pa : Nat) : M Unit := if doFree then kfree pa else pure ()

/-- The loop of `uvmunmap`, with the same bound on its passes. -/
def unmapLoop (pagetable stop : Nat) (doFree : Bool) : Nat → Nat → M Unit
  | 0, _ => Prog.panic .walk
  | fuel + 1, a =>
    if a < stop then do
      let pte ← walk pagetable a false
      if pte = 0 then Prog.panic .uvmunmapWalk
      else do
        let v ← load pte
        if v &&& PTE_V = 0 then Prog.panic .uvmunmapNotMapped
        else if pteFlags v = PTE_V then Prog.panic .uvmunmapNotALeaf
        else do
          freeIf doFree (pte2pa v)
          store pte 0
          unmapLoop pagetable stop doFree fuel ((a + PGSIZE) % 2 ^ 64)
    else pure ()

/-- mirrors kernel/vm.c:170-192 -/
def uvmunmap (pagetable va npages : Nat) (doFree : Bool) : M Unit :=
  if va % PGSIZE ≠ 0 then Prog.panic .uvmunmapNotAligned
  else unmapLoop pagetable ((va + npages * PGSIZE) % 2 ^ 64) doFree passes va

/-- mirrors kernel/vm.c:196-205 -/
def uvmcreate : M Nat := do
  let pagetable ← kalloc
  if pagetable = 0 then pure 0
  else do
    memset pagetable 0
    pure pagetable

/-! ## Arithmetic of the macros -/

theorem MAXVA_eq : MAXVA = 274877906944 := rfl

theorem px_lt (level va : Nat) : px level va < 512 := by
  unfold px
  rw [show (0x1FF : Nat) = 2 ^ 9 - 1 by rfl, Nat.and_two_pow_sub_one_eq_mod]
  exact Nat.mod_lt _ (by decide)

theorem px_eq (level va : Nat) : px level va = va / 2 ^ (12 + 9 * level) % 512 := by
  unfold px
  rw [show (0x1FF : Nat) = 2 ^ 9 - 1 by rfl, Nat.and_two_pow_sub_one_eq_mod, Nat.shiftRight_eq_div_pow]

variable {va vb pa perm : Nat}

/-- Below `MAXVA` the three indices determine the page. -/
theorem px_inj (ha : va < MAXVA) (hb : vb < MAXVA) (h2 : px 2 va = px 2 vb)
    (h1 : px 1 va = px 1 vb) (h0 : px 0 va = px 0 vb) : va / PGSIZE = vb / PGSIZE := by
  rw [px_eq, px_eq] at h0 h1 h2
  simp only [MAXVA_eq, PGSIZE, Nat.reduceAdd, Nat.reduceMul, Nat.reducePow] at *
  omega

theorem px_congr (h : va / PGSIZE = vb / PGSIZE) (level : Nat) : px level va = px level vb := by
  rw [px_eq, px_eq, Nat.pow_add, ← Nat.div_div_eq_div_mul, ← Nat.div_div_eq_div_mul]
  rw [show (2 : Nat) ^ 12 = PGSIZE by rfl, h]

theorem pa2pte_eq (h : pa < 2 ^ 64) : pa2pte pa = pa / 4096 * 1024 := by
  unfold pa2pte
  rw [Nat.shiftLeft_eq, Nat.shiftRight_eq_div_pow,
    Nat.mod_eq_of_lt (by simp only [Nat.reducePow] at *; omega)]

section
variable (hpa : pa < 2 ^ 64) (hp : perm < 1024)
include hpa hp

theorem pte_eq :
    pa2pte pa ||| perm ||| PTE_V = pa / 4096 * 1024 + (perm ||| PTE_V) := by
  have hlt : perm ||| PTE_V < 2 ^ 10 := Nat.or_lt_two_pow hp (by decide)
  rw [Nat.or_assoc, pa2pte_eq hpa, Nat.mul_comm, show (1024 : Nat) = 2 ^ 10 by rfl,
    ← Nat.two_pow_add_eq_or_of_lt hlt]

theorem pte_lt :
    pa2pte pa ||| perm ||| PTE_V < 256 ^ 8 := by
  have hlt : perm ||| PTE_V < 2 ^ 10 := Nat.or_lt_two_pow hp (by decide)
  rw [pte_eq hpa hp]
  omega

theorem pteFlags_pte :
    pteFlags (pa2pte pa ||| perm ||| PTE_V) = perm ||| PTE_V := by
  have hlt : perm ||| PTE_V < 2 ^ 10 := Nat.or_lt_two_pow hp (by decide)
  rw [pte_eq hpa hp, pteFlags, show (0x3FF : Nat) = 2 ^ 10 - 1 by rfl, Nat.and_two_pow_sub_one_eq_mod]
  omega

end

/-- The flags are the low bits of a PTE. -/
theorem and_flags (pte : Nat) {b : Nat} (hb : 0x3FF &&& b = b) : pte &&& b = pteFlags pte &&& b := by
  unfold pteFlags
  rw [Nat.and_assoc, hb]

theorem pte2pa_pte (hpa : pa < 2 ^ 64) (ha : pa % PGSIZE = 0) (hp : perm < 1024) :
    pte2pa (pa2pte pa ||| perm ||| PTE_V) = pa := by
  have hlt : perm ||| PTE_V < 2 ^ 10 := Nat.or_lt_two_pow hp (by decide)
  rw [pte_eq hpa hp, pte2pa, Nat.shiftLeft_eq, Nat.shiftRight_eq_div_pow]
  simp only [Nat.reducePow, PGSIZE] at *
  omega

/-- `PTE2PA` inverts `PA2PTE` on page addresses. -/
theorem pte2pa_pa2pte (hpa : pa < 2 ^ 64) (ha : pa % PGSIZE = 0) : pte2pa (pa2pte pa) = pa := by
  rw [pa2pte_eq hpa, pte2pa, Nat.shiftLeft_eq, Nat.shiftRight_eq_div_pow]
  simp only [Nat.reducePow, PGSIZE] at *
  omega

theorem pte_valid (x perm : Nat) : (x ||| perm ||| PTE_V) &&& PTE_V ≠ 0 := by
  rw [show PTE_V = 1 by rfl, Nat.and_one_is_mod, Nat.or_mod_two_eq_one.2 (.inr (by rfl))]
  decide

theorem or_valid_ne (h : perm &&& (PTE_R ||| PTE_W ||| PTE_X) ≠ 0) : perm ||| PTE_V ≠ PTE_V := by
  intro e
  have hle : perm ≤ 1 := by
    have := Nat.left_le_or (n := perm) (m := PTE_V)
    rw [e] at this; exact this
  rcases (by omega : perm = 0 ∨ perm = 1) with rfl | rfl
  · exact h (by decide)
  · exact h (by decide)

/-! ## Words and pages -/

namespace Phys

@[simp] theorem fill_kend (s : Phys) (a : Nat) (c : UInt8) : (s.fill a c).kend = s.kend := rfl

@[simp] theorem mem_setPage_self (s : Phys) (a : Nat) (b : Page) : (s.setPage a b).mem (a / PGSIZE) = b :=
  Function.update_self _ _ _

variable {a n b : Nat}

theorem mem_setPage_ne (s : Phys) (b : Page) (h : n ≠ a / PGSIZE) :
    (s.setPage a b).mem n = s.mem n := Function.update_of_ne h _ _

theorem mem_setWord_ne (s : Phys) (v : Nat) (h : n ≠ a / PGSIZE) :
    (s.setWord a v).mem n = s.mem n := mem_setPage_ne s _ h

theorem mem_fill_ne (s : Phys) (c : UInt8) (h : n ≠ a / PGSIZE) :
    (s.fill a c).mem n = s.mem n := mem_setPage_ne s _ h

theorem word_congr {s t : Phys} (h : s.mem (a / PGSIZE) = t.mem (a / PGSIZE)) : s.word a = t.word a := by
  unfold word; rw [h]

theorem word_setWord (s : Phys) {v : Nat} (ha : a % 8 = 0) (hv : v < 256 ^ 8) :
    (s.setWord a v).word a = v := by
  unfold word setWord setPage
  have hin : a % PGSIZE + 8 ≤ PGSIZE := by simp only [PGSIZE]; omega
  simp only [Function.update_self]
  rw [Bytes.getLE_setLE _ _ hin, Nat.mod_eq_of_lt hv]

theorem word_setWord_ne (s : Phys) (v : Nat) (ha : a % 8 = 0) (hb : b % 8 = 0) (h : b ≠ a) :
    (s.setWord a v).word b = s.word b := by
  by_cases hp : b / PGSIZE = a / PGSIZE
  · unfold word setWord setPage
    have hoff : b % PGSIZE + 8 ≤ a % PGSIZE ∨ a % PGSIZE + 8 ≤ b % PGSIZE := by
      simp only [PGSIZE] at *; omega
    simp only [hp, Function.update_self]
    exact Bytes.getLE_setLE_disjoint _ _ hoff
  · exact word_congr (mem_setWord_ne s v hp)

theorem word_fill_zero (s : Phys) (h : b / PGSIZE = a / PGSIZE) : (s.fill a 0).word b = 0 := by
  unfold word fill setPage
  simp only [h, Function.update_self]
  exact Bytes.getLE_zero _ _

end Phys
end Xv6.Vm
