import Xv6.Image.Load
import Xv6.Param

/-!
# The arguments on the stack (`kernel/exec.c:87-110`)

The strings are pushed from the top of the stack page down, each at a multiple
of 16, and below them the array of pointers. A push is checked after the
subtraction, which wraps for a string longer than what is left of the address
space; `copyout` refuses the address that results.

* `pushStrings_spec`: the strings one below the other, if they fit.
* `pushArgs_spec`: all arguments, and failure exactly if they do not fit in a
  page.
-/
namespace Xv6.Image
open Xv6.Vm

/-- `a - b` for `uint64` -/
def sub64 (a b : Nat) : Nat := (a + 2 ^ 64 - b % 2 ^ 64) % 2 ^ 64

/-- `sp -= n; sp -= sp % 16;` -/
def push (sp n : Nat) : Nat := sub64 sp n - sub64 sp n % 16

/-- The loop over `argv`, from argument `argc` on: `sp` and the part of `ustack`
it has filled.
mirrors kernel/exec.c:91-101 -/
def pushStrings (pagetable stackbase : Nat) : Nat → List (List UInt8) → Nat → M (Option (Nat × List Nat))
  | _, [], sp => pure (some (sp, []))
  | argc, a :: rest, sp =>
    if MAXARG ≤ argc then pure none
    else if push sp (a.length + 1) < stackbase then pure none
    else do
      let r ← copyout pagetable (push sp (a.length + 1)) (a ++ [0])
      if r.2 = false then pure none
      else do
        let r ← pushStrings pagetable stackbase (argc + 1) rest (push sp (a.length + 1))
        pure (r.map fun x => (x.1, push sp (a.length + 1) :: x.2))

/-- The bytes of a `uint64`. -/
def wordBytes (v : Nat) : List UInt8 := (List.range 8).map (Bytes.leByte v)

/-- `sp` with all arguments pushed.
mirrors kernel/exec.c:87-110 -/
def pushArgs (pagetable sz : Nat) (argv : List (List UInt8)) : M (Option Nat) := do
  match ← pushStrings pagetable (sz - PGSIZE) 0 argv sz with
  | none => pure none
  | some (sp, ustack) =>
    if push sp ((argv.length + 1) * 8) < sz - PGSIZE then pure none
    else do
      let r ← copyout pagetable (push sp ((argv.length + 1) * 8)) ((ustack ++ [0]).flatMap wordBytes)
      if r.2 = false then pure none
      else pure (some (push sp ((argv.length + 1) * 8)))

/-! ## What fits -/

/-- The bytes a push takes. -/
def room (n : Nat) : Nat := (n + 15) / 16 * 16

/-- The bytes the strings take. -/
def stringSpace (argv : List (List UInt8)) : Nat := (argv.map fun a => room (a.length + 1)).sum

/-- The bytes all the arguments take. -/
def argSpace (argv : List (List UInt8)) : Nat := stringSpace argv + room ((argv.length + 1) * 8)

theorem stringSpace_aligned (argv : List (List UInt8)) : stringSpace argv % 16 = 0 := by
  induction argv with
  | nil => rfl
  | cons a rest ih =>
    have hspace : stringSpace (a :: rest) = room (a.length + 1) + stringSpace rest := rfl
    rw [hspace]
    unfold room
    omega

theorem le_room (n : Nat) : n ≤ room n := by
  unfold room
  omega

variable {sp n : Nat}

theorem push_eq (h16 : sp % 16 = 0) (hsp : sp < 2 ^ 64) (hn : n ≤ sp) : push sp n + room n = sp := by
  unfold push sub64 room
  omega

/-- A push beyond zero wraps to an address above `MAXVA`. -/
theorem push_wraps (hsp : sp < 2 ^ 63) (hn : sp < n) (hn' : n ≤ 2 ^ 31) : MAXVA ≤ push sp n := by
  unfold push sub64
  rw [MAXVA_eq]
  omega

/-! ## The strings -/

/-- The string `a` and a NUL at `p`. -/
def StringAt (s : Phys) (pt p : Nat) (a : List UInt8) : Prop :=
  ∀ j, j < a.length + 1 → userByte s pt (p + j) = (a ++ [0])[j]?

/-- Strings one below the other, from `sp` down to `sp'`, with their
addresses. -/
inductive Placed (s : Phys) (pt : Nat) : Nat → List (List UInt8) → List Nat → Nat → Prop
  | nil (sp : Nat) : Placed s pt sp [] [] sp
  | cons {sp sp' p : Nat} {a : List UInt8} {rest : List (List UInt8)} {ptrs : List Nat}
    (hle : p + a.length + 1 ≤ sp)
    (hstr : StringAt s pt p a) (hrest : Placed s pt p rest ptrs sp') :
      Placed s pt sp (a :: rest) (p :: ptrs) sp'

section Placed
variable {s t : Phys} {pt sp sp' : Nat} {argv : List (List UInt8)} {ptrs : List Nat}

section
variable (h : Placed s pt sp argv ptrs sp')
include h

theorem Placed.le : sp' ≤ sp := by
  induction h with
  | nil => exact Nat.le_refl _
  | cons hle _ _ ih => omega

theorem Placed.length : ptrs.length = argv.length := by
  induction h with
  | nil => rfl
  | cons _ _ _ ih => simp [ih]

theorem Placed.congr
    (hb : ∀ va, sp' ≤ va → va < sp → userByte t pt va = userByte s pt va) : Placed t pt sp argv ptrs sp' := by
  induction h with
  | nil => exact .nil _
  | cons hle hstr hrest ih =>
    have hlow := hrest.le
    refine .cons hle (fun j hj => ?_) (ih fun va h1 h2 => hb va h1 (by omega))
    rw [hb _ (by omega) (by omega)]
    exact hstr j hj

end

variable {i : Nat}

/-- Where each string is. -/
theorem Placed.string (h : Placed s pt sp argv ptrs sp') {a : List UInt8} (hi : argv[i]? = some a) :
    ∃ p, ptrs[i]? = some p ∧ sp' ≤ p ∧ p + a.length + 1 ≤ sp ∧ StringAt s pt p a := by
  induction h generalizing i with
  | nil => simp at hi
  | cons hle hstr hrest ih =>
    have hlow := hrest.le
    cases i with
    | zero =>
      obtain rfl := Option.some.inj hi
      exact ⟨_, rfl, hlow, hle, hstr⟩
    | succ i =>
      obtain ⟨p, h1, h2, h3, h4⟩ := ih hi
      exact ⟨p, h1, h2, by omega, h4⟩

/-- A later string lies below an earlier one. -/
theorem Placed.descending (h : Placed s pt sp argv ptrs sp') {j p q : Nat} {b : List UInt8} (hij : i < j)
    (hp : ptrs[i]? = some p) (hq : ptrs[j]? = some q) (hb : argv[j]? = some b) : q + b.length + 1 ≤ p := by
  induction h generalizing i j with
  | nil => simp at hp
  | cons hle hstr hrest ih =>
    cases j with
    | zero => omega
    | succ j =>
      cases i with
      | zero =>
        obtain rfl := Option.some.inj hp
        obtain ⟨q', h1, -, h3, -⟩ := hrest.string (i := j) hb
        obtain rfl := Option.some.inj (h1.symm.trans hq)
        exact h3
      | succ i => exact ih (Nat.lt_of_succ_lt_succ hij) hp hq hb

end Placed

/-! ## Pushing -/

/-- A stack page at the top of an address space that is being built. -/
structure OnStack (s0 s : Phys) (pt n trampoline trapframe : Nat) : Prop where
  build : Building s0 s pt n trampoline trapframe
  pos : 0 < n
  stack : ∀ va, (n - 1) * PGSIZE ≤ va → va < n * PGSIZE → leaf s pt va &&& PTE_U ≠ 0

section
variable {s0 s s' : Phys} {pt n trampoline trapframe : Nat}

theorem OnStack.same (h : OnStack s0 s pt n trampoline trapframe)
    (hb : Building s0 s' pt n trampoline trapframe)
    (hs : SameTree pt s s') : OnStack s0 s' pt n trampoline trapframe :=
  ⟨hb, h.pos, fun va h1 h2 => by rw [hs.leaves.leaf]; exact h.stack va h1 h2⟩

variable {va v sp : Nat} {src : List UInt8} {R : Vm.Panic → Prop} {argv : List (List UInt8)} {ptrs : List Nat}

/-- `copyout` to the stack: the bytes are there, and no others have changed. -/
theorem OnStack.copyout (h : OnStack s0 s pt n trampoline trapframe)
    (h1 : (n - 1) * PGSIZE ≤ va) (h2 : va + src.length ≤ n * PGSIZE) :
    Wp (copyout pt va src) s (fun r s' => OnStack s0 s' pt n trampoline trapframe ∧
      SameTree pt s s' ∧ r.2 = true ∧
      ∀ vb, userByte s' pt vb =
        if va ≤ vb ∧ vb < va + src.length then src[vb - va]? else userByte s pt vb) R := by
  refine (h.build.copyout va src).post fun r s' hr => ?_
  obtain ⟨hb, hsame, hw, hok⟩ := hr
  have hall : r.1.length = src.length := by
    by_contra hne
    have hlt : r.1.length < src.length := Nat.lt_of_le_of_ne hw.le hne
    have hin : va + r.1.length < n * PGSIZE := by omega
    exact hw.stop hlt (Building.accessible h.build hin (h.stack _ (by omega) hin)).1
  refine ⟨h.same hb hsame, hsame, hok.2 hall, fun vb => ?_⟩
  rw [hw.userByte h.build.userTable.nonzero (h.build.made.space.translate_inj h.build.kernel) vb, hall]

/-- `copyout` to an address that is not below `MAXVA` fails at once. -/
theorem OnStack.copyout_high (h : OnStack s0 s pt n trampoline trapframe)
    (hva : MAXVA ≤ va) (hsrc : src ≠ []) :
    Wp (Vm.copyout pt va src) s (fun r s' => OnStack s0 s' pt n trampoline trapframe ∧
      SameTree pt s s' ∧ r.2 = false) R := by
  refine (h.build.copyout va src).post fun r s' hr => ?_
  obtain ⟨hb, hsame, hw, hok⟩ := hr
  refine ⟨h.same hb hsame, hsame, ?_⟩
  by_contra hne
  have hall := hok.1 (by simpa using hne)
  have hacc := hw.reach 0 (by rw [hall]; exact List.length_pos_of_ne_nil hsrc)
  exact absurd hacc.1 (by omega)

theorem pushStrings_spec (argv : List (List UInt8)) : ∀ {argc sp : Nat} {s : Phys},
    OnStack s0 s pt n trampoline trapframe → argc + argv.length ≤ MAXARG → (∀ a ∈ argv, a.length < 2 ^ 31) →
    sp % 16 = 0 → (n - 1) * PGSIZE ≤ sp → sp ≤ n * PGSIZE →
    Wp (pushStrings pt ((n - 1) * PGSIZE) argc argv sp) s
    (fun r s' => OnStack s0 s' pt n trampoline trapframe ∧
      SameTree pt s s' ∧
      match r with
      | none => sp < (n - 1) * PGSIZE + stringSpace argv
      | some (sp', ptrs) => sp' + stringSpace argv = sp ∧ (n - 1) * PGSIZE ≤ sp' ∧
        Placed s' pt sp argv ptrs sp' ∧
        ∀ vb, vb < sp' ∨ sp ≤ vb → userByte s' pt vb = userByte s pt vb) R := by
  induction argv with
  | nil =>
    intro argc sp s h _ _ _ hlo _
    unfold pushStrings
    rw [wp_pure]
    exact ⟨h, SameTree.refl h.build.made.space.table, rfl, hlo, .nil sp, fun _ _ => rfl⟩
  | cons a rest ih =>
    intro argc sp s h hargc hlen h16 hlo hhi
    have hsmall := h.build.made.space.small
    have hsp : sp < 2 ^ 63 := by
      simp only [NPAGE, PGSIZE] at hsmall hhi
      omega
    have hspace : stringSpace (a :: rest) = room (a.length + 1) + stringSpace rest := rfl
    have hroom := le_room (a.length + 1)
    have ha := hlen a List.mem_cons_self
    unfold pushStrings
    rw [if_neg (by simp only [List.length_cons] at hargc; omega), hspace]
    by_cases hwrap : sp < a.length + 1
    · -- the address wraps, passes the check and is refused by `copyout`
      have hmax := push_wraps hsp hwrap (by omega)
      rw [wp_ite]
      refine ⟨fun _ => (wp_pure _).2 ⟨h, SameTree.refl h.build.made.space.table, by dsimp only; omega⟩,
        fun _ => ?_⟩
      refine (h.copyout_high hmax (by simp)).bind fun r s1 h1 => ?_
      rw [if_pos h1.2.2, wp_pure]
      exact ⟨h1.1, h1.2.1, by dsimp only; omega⟩
    have heq := push_eq h16 (by omega) (Nat.not_lt.1 hwrap)
    have h16' : push sp (a.length + 1) % 16 = 0 := by
      unfold push
      omega
    generalize push sp (a.length + 1) = sp1 at *
    rw [wp_ite]
    refine ⟨fun hlt => (wp_pure _).2 ⟨h, SameTree.refl h.build.made.space.table, by dsimp only; omega⟩,
      fun hge => ?_⟩
    have hfit : sp1 + (a ++ [0]).length ≤ n * PGSIZE := by
      simp only [List.length_append, List.length_singleton]
      omega
    refine (h.copyout (by omega) hfit).bind fun r s1 h1 => ?_
    obtain ⟨hst1, hsame1, hok, hbytes⟩ := h1
    rw [if_neg (by rw [hok]; decide)]
    refine (ih hst1 (by simp only [List.length_cons] at hargc; omega)
      (fun b hb => hlen b (List.mem_cons_of_mem _ hb)) h16' (by omega) (by omega)).bind fun r s2 h2 => ?_
    obtain ⟨hst2, hsame2, hr⟩ := h2
    rw [wp_pure]
    refine ⟨hst2, hsame1.trans hsame2, ?_⟩
    cases r with
    | none =>
      dsimp only [Option.map] at hr ⊢
      omega
    | some x =>
      obtain ⟨hsum, hbase, hplaced, hother⟩ := hr
      simp only [List.length_append, List.length_singleton] at hbytes hfit
      refine ⟨by omega, hbase, .cons (by omega) (fun j hj => ?_) hplaced, fun vb hvb => ?_⟩
      · rw [hother _ (by omega), hbytes, if_pos (by omega), Nat.add_sub_cancel_left]
      · rw [hother vb (by omega), hbytes, if_neg (by omega)]

/-! ## The array of pointers -/

@[simp] theorem length_wordBytes (v : Nat) : (wordBytes v).length = 8 := by simp [wordBytes]

theorem length_words (l : List Nat) : (l.flatMap wordBytes).length = 8 * l.length := by
  induction l with
  | nil => rfl
  | cons v l ih =>
    simp only [List.flatMap_cons, List.length_append, length_wordBytes, List.length_cons, ih]; omega

theorem getElem?_words {l : List Nat} {i : Nat} (h : l[i]? = some v) {j : Nat} (hj : j < 8) :
    (l.flatMap wordBytes)[8 * i + j]? = some (Bytes.leByte v j) := by
  induction l generalizing i with
  | nil => simp at h
  | cons w l ih =>
    rw [List.flatMap_cons]
    cases i with
    | zero =>
      obtain rfl := Option.some.inj h
      rw [List.getElem?_append_left (by simp; omega)]
      simp [wordBytes, hj]
    | succ i =>
      rw [List.getElem?_append_right (by simp; omega), length_wordBytes,
        show 8 * (i + 1) + j - 8 = 8 * i + j by omega]
      exact ih h

/-- A word from its bytes. -/
theorem userWord_bytes (h0 : NoPageZero s pt) (ha : va % 8 = 0) (hv : v < 2 ^ 64)
    (h : ∀ j, j < 8 → userByte s pt (va + j) = some (Bytes.leByte v j)) : userWord s pt va = some v := by
  have hacc : Accessible s pt va := by
    have := h 0 (by decide)
    rw [userByte_eq h0] at this
    exact accessible_of_byte this
  have hpa := pte2pa_aligned (leafPte s pt va)
  unfold userWord
  rw [translate_some hacc, Option.map_some]
  refine congrArg some ?_
  have hbyte : ∀ j, j < 8 → s.byte (pte2pa (leafPte s pt va) + va % PGSIZE + j) = Bytes.leByte v j := by
    intro j hj
    have := h j hj
    rw [userByte_eq h0, Vm.translate_add hacc (by simp only [PGSIZE]; omega), Option.map_some] at this
    exact Option.some.inj this
  generalize pte2pa (leafPte s pt va) = q at *
  unfold Phys.word
  rw [← Nat.mod_eq_of_lt (show v < 256 ^ 8 from hv), ← Bytes.readLE_leByte v ((q + va % PGSIZE) % PGSIZE) 8]
  refine Bytes.readLE_congr fun j hj => ?_
  rw [Nat.add_sub_cancel_left, ← hbyte j hj]
  have e1 : (q + va % PGSIZE + j) / PGSIZE = (q + va % PGSIZE) / PGSIZE := by
    simp only [PGSIZE] at *
    omega
  have e2 : (q + va % PGSIZE + j) % PGSIZE = (q + va % PGSIZE) % PGSIZE + j := by
    simp only [PGSIZE] at *
    omega
  unfold Phys.byte
  rw [e1, e2]

/-- The stack page with the arguments on it: the strings below `top` and the
array of their addresses at `sp`. -/
structure ArgStack (s : Phys) (pt top : Nat) (argv : List (List UInt8)) (sp : Nat)
    (ptrs : List Nat) : Prop where
  aligned : sp % 16 = 0
  strings : Placed s pt top argv ptrs (top - stringSpace argv)
  array : sp + 8 * (argv.length + 1) ≤ top - stringSpace argv
  words : ∀ i v, (ptrs ++ [0])[i]? = some v → userWord s pt (sp + 8 * i) = some v

theorem ArgStack.view {top : Nat} (h : ArgStack s pt top argv sp ptrs)
    (hv : SameView s s' pt) : ArgStack s' pt top argv sp ptrs :=
  ⟨h.aligned, h.strings.congr fun va _ _ => hv.userByte va, h.array,
    fun i v hi => by rw [hv.userWord]; exact h.words i v hi⟩

theorem Placed.ptr_lt {sp' : Nat} (h : Placed s pt sp argv ptrs sp') :
    ∀ p ∈ ptrs, p < sp := by
  induction h with
  | nil => simp
  | cons hle _ hrest ih =>
    intro p hp
    rcases List.mem_cons.1 hp with e | hp
    · omega
    · have := ih p hp
      omega

theorem pushArgs_spec (h : OnStack s0 s pt n trampoline trapframe) (hn : 2 ≤ n)
    (hargc : argv.length < MAXARG) (hlen : ∀ a ∈ argv, a.length < 2 ^ 31) :
    Wp (pushArgs pt (n * PGSIZE) argv) s
    (fun r s' => OnStack s0 s' pt n trampoline trapframe ∧ SameTree pt s s' ∧
      match r with
      | none => PGSIZE < argSpace argv
      | some sp => sp + argSpace argv = n * PGSIZE ∧ argSpace argv ≤ PGSIZE ∧
        ∃ ptrs, ArgStack s' pt (n * PGSIZE) argv sp ptrs) R := by
  have hbase : n * PGSIZE - PGSIZE = (n - 1) * PGSIZE := by rw [Nat.sub_mul, Nat.one_mul]
  have hlow : PGSIZE ≤ (n - 1) * PGSIZE := by
    simp only [PGSIZE]
    omega
  have hsmall := h.build.made.space.small
  have htop64 : n * PGSIZE < 2 ^ 63 := by
    simp only [NPAGE, PGSIZE] at hsmall ⊢
    omega
  have h16 : n * PGSIZE % 16 = 0 := by
    simp only [PGSIZE]
    omega
  unfold pushArgs
  rw [hbase]
  refine (pushStrings_spec argv h (by omega) hlen h16 (by omega) (Nat.le_refl _)).bind fun r s1 h1 => ?_
  obtain ⟨hst1, hsame1, hr⟩ := h1
  have hspace : argSpace argv = stringSpace argv + room ((argv.length + 1) * 8) := rfl
  cases r with
  | none =>
    rw [wp_pure]
    exact ⟨hst1, hsame1, by dsimp only; omega⟩
  | some x =>
    obtain ⟨sp, ptrs⟩ := x
    dsimp only at hr ⊢
    obtain ⟨hsum, hge, hplaced, -⟩ := hr
    have hargs : (argv.length + 1) * 8 ≤ PGSIZE := by
      simp only [MAXARG, PGSIZE] at hargc ⊢
      omega
    have hstr16 := stringSpace_aligned argv
    have heq : push sp ((argv.length + 1) * 8) + room ((argv.length + 1) * 8) = sp :=
      push_eq (by omega) (by omega) (by omega)
    have h16' : push sp ((argv.length + 1) * 8) % 16 = 0 := by
      unfold push
      omega
    have hroom := le_room ((argv.length + 1) * 8)
    generalize push sp ((argv.length + 1) * 8) = sp1 at *
    rw [wp_ite]
    refine ⟨fun hlt => (wp_pure _).2 ⟨hst1, hsame1, by dsimp only; omega⟩, fun hnlt => ?_⟩
    have hlenw : ((ptrs ++ [0]).flatMap wordBytes).length = 8 * (argv.length + 1) := by
      rw [length_words, List.length_append, hplaced.length, List.length_singleton]
    refine (hst1.copyout (show (n - 1) * PGSIZE ≤ sp1 by omega) (by rw [hlenw]; omega)).bind fun r s2 h2 => ?_
    obtain ⟨hst2, hsame2, hok, hbytes⟩ := h2
    rw [if_neg (by rw [hok]; decide), wp_pure]
    rw [hlenw] at hbytes
    refine ⟨hst2, hsame1.trans hsame2, by omega, by omega, ptrs, h16', ?_, by omega, fun i v hi => ?_⟩
    · rw [show n * PGSIZE - stringSpace argv = sp by omega]
      exact hplaced.congr fun va h1 _ => by rw [hbytes, if_neg (by omega)]
    · have hil : i < argv.length + 1 := by
        have := (List.getElem?_eq_some_iff.1 hi).1
        rwa [List.length_append, hplaced.length, List.length_singleton] at this
      have hv : v < 2 ^ 64 := by
        rcases List.mem_append.1 (List.mem_of_getElem? hi) with hm | hm
        · have := hplaced.ptr_lt v hm
          omega
        · rw [List.mem_singleton.1 hm]
          decide
      refine userWord_bytes hst2.build.userTable.nonzero (by omega) hv fun j hj => ?_
      rw [hbytes, if_pos (by omega), show sp1 + 8 * i + j - sp1 = 8 * i + j by omega]
      exact getElem?_words hi hj

end

end Xv6.Image
