import Mathlib.Logic.Function.Basic
import Mathlib.Tactic.SplitIfs
import Mathlib.Algebra.Group.Nat.Defs

/-!
# memmove, twice (`kernel/string.c`, `user/ulib.c`)

Memory is a byte at every 64-bit address, and pointer arithmetic wraps. The
kernel copies from the end when `src < dst` and the ranges overlap; the user
library does so whenever `dst` is not below `src`. A range may end at the very
end of the address space, where its end pointer is 0.

* `copyUp_apply`, `copyDown_apply`: what a loop leaves at every address. The
  bytes a loop has still to read are never the ones it has written, on the side
  that its direction asks for.
* `memmoves_copy`: both functions replace `[dst, dst+n)` by what `[src, src+n)`
  was, and change nothing else.
-/
namespace Xv6.Memmove
open Function

abbrev Mem := UInt64 → UInt8

/-! ## The code -/

/-- `while(n-- > 0) *d++ = *s++;` -/
def copyUp (m : Mem) (d s : UInt64) : Nat → Mem
  | 0 => m
  | n + 1 => copyUp (update m d (m s)) (d + 1) (s + 1) n

/-- `while(n-- > 0) *--d = *--s;` -/
def copyDown (m : Mem) (d s : UInt64) : Nat → Mem
  | 0 => m
  | n + 1 => copyDown (update m (d - 1) (m (s - 1))) (d - 1) (s - 1) n

/-- The memory afterwards, and the pointer returned.
mirrors kernel/string.c:30-51 -/
def kernelMemmove (m : Mem) (dst src : UInt64) (n : UInt32) : Mem × UInt64 :=
  if n = 0 then (m, dst)
  else if src < dst ∧ src + n.toUInt64 > dst then
    (copyDown m (dst + n.toUInt64) (src + n.toUInt64) n.toNat, dst)
  else (copyUp m dst src n.toNat, dst)

/-- `n` is an `int` here: a negative one is extended with its sign and makes no pass.
mirrors user/ulib.c:109-127 -/
def userMemmove (m : Mem) (vdst vsrc : UInt64) (n : Int32) : Mem × UInt64 :=
  if vsrc > vdst then (copyUp m vdst vsrc n.toNatClampNeg, vdst)
  else (copyDown m (vdst + n.toInt64.toUInt64) (vsrc + n.toInt64.toUInt64) n.toNatClampNeg, vdst)

/-! ## What the loops do -/

/-- `[dst, dst+n)` replaced by what `[src, src+n)` is. -/
def moved (m : Mem) (dst src n : Nat) : Mem := fun a =>
  if dst ≤ a.toNat ∧ a.toNat < dst + n then m (.ofNat (src + (a.toNat - dst))) else m a

theorem ofNat_succ (d : Nat) : UInt64.ofNat (d + 1) = UInt64.ofNat d + 1 := by simp

theorem ofNat_eq {d : Nat} (h : d < 2 ^ 64) (a : UInt64) : a = .ofNat d ↔ a.toNat = d := by
  rw [← UInt64.toNat_inj, UInt64.toNat_ofNat_of_lt' h]

/-- One more byte, at the beginning. -/
theorem moved_first {m : Mem} {d s n : Nat} (hd : d + (n + 1) ≤ 2 ^ 64) (hs : s + (n + 1) ≤ 2 ^ 64)
    (h : d ≤ s ∨ s + (n + 1) ≤ d) :
    moved (update m (.ofNat d) (m (.ofNat s))) (d + 1) (s + 1) n = moved m d s (n + 1) := by
  funext a
  simp only [moved, update_apply, ofNat_eq (d := d) (by omega)]
  by_cases e : a.toNat = d
  · simp [e, show ¬(d + 1 ≤ d) by omega]
  · by_cases ha : d + 1 ≤ a.toNat ∧ a.toNat < d + 1 + n
    · -- the byte to be read here is not the one just written
      have hr : (UInt64.ofNat (s + 1 + (a.toNat - (d + 1)))).toNat = s + 1 + (a.toNat - (d + 1)) :=
        UInt64.toNat_ofNat_of_lt' (show _ < 2 ^ 64 by omega)
      rw [if_pos ha, if_neg (by omega), if_pos (by omega),
        show s + 1 + (a.toNat - (d + 1)) = s + (a.toNat - d) by omega]
    · rw [if_neg ha, if_neg e, if_neg (by omega)]

/-- One more byte, at the end. -/
theorem moved_last {m : Mem} {d s n : Nat} (hd : d + (n + 1) ≤ 2 ^ 64) (hs : s + (n + 1) ≤ 2 ^ 64)
    (h : s ≤ d ∨ d + (n + 1) ≤ s) :
    moved (update m (.ofNat (d + n)) (m (.ofNat (s + n)))) d s n = moved m d s (n + 1) := by
  funext a
  simp only [moved, update_apply, ofNat_eq (d := d + n) (by omega)]
  by_cases e : a.toNat = d + n
  · simp [e]
  · by_cases ha : d ≤ a.toNat ∧ a.toNat < d + n
    · have hr : (UInt64.ofNat (s + (a.toNat - d))).toNat = s + (a.toNat - d) :=
        UInt64.toNat_ofNat_of_lt' (show _ < 2 ^ 64 by omega)
      rw [if_pos ha, if_neg (by omega), if_pos (by omega)]
    · rw [if_neg ha, if_neg e, if_neg (by omega)]

theorem copyUp_apply (n : Nat) (m : Mem) (d s : Nat) (hd : d + n ≤ 2 ^ 64) (hs : s + n ≤ 2 ^ 64)
    (h : d ≤ s ∨ s + n ≤ d) : copyUp m (.ofNat d) (.ofNat s) n = moved m d s n := by
  induction n generalizing m d s with
  | zero => funext a; simp [copyUp, moved, show ¬(d ≤ a.toNat ∧ a.toNat < d) by omega]
  | succ n ih =>
    rw [copyUp, ← ofNat_succ, ← ofNat_succ, ih _ _ _ (by omega) (by omega) (by omega)]
    exact moved_first hd hs h

theorem copyDown_apply (n : Nat) (m : Mem) (d s : Nat) (hd : d + n ≤ 2 ^ 64) (hs : s + n ≤ 2 ^ 64)
    (h : s ≤ d ∨ d + n ≤ s) : copyDown m (.ofNat (d + n)) (.ofNat (s + n)) n = moved m d s n := by
  induction n generalizing m with
  | zero => funext a; simp [copyDown, moved, show ¬(d ≤ a.toNat ∧ a.toNat < d) by omega]
  | succ n ih =>
    have back : ∀ x : Nat, UInt64.ofNat (x + (n + 1)) - 1 = .ofNat (x + n) := fun x => by
      rw [← Nat.add_assoc, ofNat_succ, UInt64.add_sub_cancel]
    rw [copyDown, back, back, ih _ (by omega) (by omega) (by omega)]
    exact moved_last hd hs h

/-! ## The two functions -/

/-- Whatever the overlap, for every length an `int` can hold. -/
theorem memmoves_copy (m : Mem) (dst src : UInt64) (n : Nat) (hn : n < 2 ^ 31)
    (hd : dst.toNat + n ≤ 2 ^ 64) (hs : src.toNat + n ≤ 2 ^ 64) :
    kernelMemmove m dst src (.ofNat n) = (moved m dst.toNat src.toNat n, dst) ∧
      userMemmove m dst src (.ofNat n) = (moved m dst.toNat src.toNat n, dst) := by
  have hu : (UInt32.ofNat n).toNat = n := UInt32.toNat_ofNat_of_lt' (show n < 2 ^ 32 by omega)
  have hu' : (UInt32.ofNat n).toUInt64 = .ofNat n := by simp [← UInt64.toNat_inj, hu]; omega
  have hi : (Int32.ofNat n).toNatClampNeg = n := by
    rw [Int32.toNatClampNeg, Int32.toInt_ofNat_of_lt hn]; rfl
  have hi' : (Int32.ofNat n).toInt64.toUInt64 = .ofNat n := by
    rw [Int32.toInt64_ofNat' (by rw [Int32.toInt_maxValue]; omega), Int64.toUInt64_ofNat']
  have hend : ∀ p : UInt64, p + .ofNat n = .ofNat (p.toNat + n) := fun p => by simp
  have hup := copyUp_apply n m dst.toNat src.toNat hd hs
  have hdown := copyDown_apply n m dst.toNat src.toNat hd hs
  rw [UInt64.ofNat_toNat, UInt64.ofNat_toNat] at hup
  constructor
  · unfold kernelMemmove
    rw [hu, hu', hend, hend]
    by_cases h0 : n = 0
    · subst h0
      exact congrArg (·, dst) (hup (by omega))
    rw [if_neg (by simp only [← UInt32.toNat_inj, hu]; exact h0)]
    -- an end pointer of 0 belongs to a range that nothing lies above
    have hcmp : src < dst ∧ UInt64.ofNat (src.toNat + n) > dst ↔ src.toNat < dst.toNat ∧
        dst.toNat < src.toNat + n := by
      simp only [gt_iff_lt, UInt64.lt_iff_toNat_lt, UInt64.toNat_ofNat']
      omega
    by_cases hb : src.toNat < dst.toNat ∧ dst.toNat < src.toNat + n
    · rw [if_pos (hcmp.2 hb), hdown (by omega)]
    · rw [if_neg (mt hcmp.1 hb), hup (by omega)]
  · unfold userMemmove
    rw [hi, hi', hend, hend]
    by_cases hb : dst.toNat < src.toNat
    · rw [if_pos (UInt64.lt_iff_toNat_lt.2 hb), hup (by omega)]
    · rw [if_neg (mt UInt64.lt_iff_toNat_lt.1 hb), hdown (by omega)]

/-- Three bytes moved up by one, over themselves. -/
theorem memmoves_copy_up_one :
    kernelMemmove (fun a => a.toUInt8) 1 0 3 = (moved (fun a => a.toUInt8) 1 0 3, 1) ∧
    userMemmove (fun a => a.toUInt8) 1 0 3 = (moved (fun a => a.toUInt8) 1 0 3, 1) :=
  memmoves_copy _ 1 0 3 (by decide) (by decide) (by decide)

end Xv6.Memmove
