import Mathlib.Algebra.BigOperators.Group.Finset.Basic
import Mathlib.Algebra.Order.BigOperators.Group.Finset
import Mathlib.Data.Fintype.BigOperators

/-!
# Counting the parties with a property

`count P f` is the number of indices `i` at which `f i` has the property `P`,
for a finite family such as the places of the processes.

* `count_update`: how it changes when one of them moves.
-/
namespace Xv6
open Function (update update_self update_of_ne)

variable {ι α : Type} [Fintype ι] [DecidableEq ι] {P : α → Bool} {f : ι → α} {i : ι} {x : α}

def count (P : α → Bool) (f : ι → α) : Nat := ∑ i, (P (f i)).toNat

theorem count_update (P : α → Bool) (f : ι → α) (i : ι) (x : α) :
    count P (update f i x) + (P (f i)).toNat = count P f + (P x).toNat := by
  have hrest : ∑ j ∈ Finset.univ.erase i, (P (update f i x j)).toNat = ∑ j ∈ Finset.univ.erase i,
      (P (f j)).toNat :=
    Finset.sum_congr rfl fun j hj => by rw [update_of_ne (Finset.ne_of_mem_erase hj)]
  have h1 := Finset.add_sum_erase Finset.univ (fun j => (P (update f i x j)).toNat) (Finset.mem_univ i)
  have h2 := Finset.add_sum_erase Finset.univ (fun j => (P (f j)).toNat) (Finset.mem_univ i)
  simp only [update_self] at h1
  unfold count
  omega

omit [DecidableEq ι] in
theorem count_congr {g : ι → α} (h : ∀ i, P (f i) = P (g i)) : count P f = count P g := by
  simp [count, h]

omit [DecidableEq ι] in
theorem count_eq_zero : count P f = 0 ↔ ∀ i, P (f i) = false := by
  simp [count]

omit [DecidableEq ι] in
theorem count_le (P : α → Bool) (f : ι → α) : count P f ≤ Fintype.card ι := by
  calc count P f ≤ ∑ _i : ι, 1 := Finset.sum_le_sum fun i _ => Bool.toNat_le _
    _ = Fintype.card ι := by simp

end Xv6
