import Mathlib.Algebra.BigOperators.Group.List.Basic
import Mathlib.Algebra.GroupWithZero.Nat

/-!
# Consecutive ranges

A list of ranges (start, length), each of which begins where the one before
ends: what a sequence of transfers covers that share one offset.

* `Tiles.snoc`: one more transfer.
* `Tiles.start`: where a range begins.
* `Tiles.disjoint`: of two ranges the earlier one ends first.
-/
namespace Xv6

/-- The ranges `rs` begin at `o` and follow one another. -/
def Tiles (o : Nat) : List (Nat × Nat) → Prop
  | [] => True
  | r :: rs => r.1 = o ∧ Tiles (o + r.2) rs

/-- How much they cover. -/
def total (rs : List (Nat × Nat)) : Nat := (rs.map Prod.snd).sum

@[simp] theorem total_nil : total [] = 0 := rfl

@[simp] theorem total_cons (r : Nat × Nat) (rs : List (Nat × Nat)) : total (r :: rs) = r.2 + total rs := by
  simp [total]

@[simp] theorem total_append (rs rs' : List (Nat × Nat)) : total (rs ++ rs') = total rs + total rs' := by
  simp [total]

namespace Tiles

variable {o j i : Nat} {rs : List (Nat × Nat)} {r : Nat × Nat}

theorem snoc {n : Nat} (h : Tiles o rs) : Tiles o (rs ++ [(o + total rs, n)]) := by
  induction rs generalizing o with
  | nil => exact ⟨rfl, trivial⟩
  | cons r rs ih =>
    refine ⟨h.1, ?_⟩
    rw [total_cons, ← Nat.add_assoc]
    exact ih h.2

theorem start (h : Tiles o rs) (hj : rs[j]? = some r) :
    r.1 = o + total (rs.take j) := by
  induction rs generalizing o j with
  | nil => simp at hj
  | cons r' rs ih =>
    cases j with
    | zero =>
      simp only [List.getElem?_cons_zero, Option.some.injEq] at hj
      rw [← hj]
      exact h.1
    | succ j =>
      rw [List.getElem?_cons_succ] at hj
      rw [ih h.2 hj, List.take_succ_cons, total_cons, Nat.add_assoc]

/-- The first `j + 1` ranges end with range `j`. -/
theorem total_take (hj : rs[j]? = some r) :
    total (rs.take (j + 1)) = total (rs.take j) + r.2 := by
  rw [List.take_add_one, hj]
  simp

theorem total_take_le (rs : List (Nat × Nat)) (h : i ≤ j) : total (rs.take i) ≤ total (rs.take j) := by
  obtain ⟨k, rfl⟩ := Nat.exists_eq_add_of_le h
  rw [List.take_add, total_append]
  exact Nat.le_add_right _ _

theorem disjoint (h : Tiles o rs) {r' : Nat × Nat}
    (hi : rs[i]? = some r) (hj : rs[j]? = some r') (hlt : i < j) : r.1 + r.2 ≤ r'.1 := by
  have hle := total_take_le rs (Nat.succ_le_of_lt hlt)
  rw [h.start hi, h.start hj, Nat.add_assoc, ← total_take hi]
  exact Nat.add_le_add_left hle o

theorem stop (h : Tiles o rs) (hr : r ∈ rs) :
    r.1 + r.2 ≤ o + total rs := by
  obtain ⟨j, hj⟩ := List.getElem?_of_mem hr
  have hle := total_take_le rs (Nat.succ_le_of_lt (List.getElem?_eq_some_iff.1 hj).1)
  rw [List.take_length, total_take hj] at hle
  rw [h.start hj]
  omega

end Tiles
end Xv6
