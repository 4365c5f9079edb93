/-!
# Who holds which resource

An allocator hands out the resources of a pool and records which of them are
in use; the rest of the program keeps what it got in cells. `Ledger` says
that the cells and the record agree: every cell holds a resource of its own
that the record has as used and, if `full`, everything the record has as used
is in a cell, so nothing is leaked.

* `Ledger.take`: a free resource goes into an empty cell.
* `Ledger.drop`: a cell gives its resource back.
* `Ledger.used_iff`: in a full ledger, used is to be in exactly one cell.
-/
namespace Xv6

variable {κ ρ : Type} {full : Prop} {cell cell' : κ → Option ρ} {pool used used' : ρ → Prop}

structure Ledger (full : Prop) (cell : κ → Option ρ) (pool used : ρ → Prop) : Prop where
  in_pool : ∀ k r, cell k = some r → pool r
  in_use : ∀ k r, cell k = some r → used r
  inj : ∀ k l r, cell k = some r → cell l = some r → k = l
  leak : full → ∀ r, pool r → used r → ∃ k, cell k = some r

namespace Ledger

section
variable (h : Ledger full cell pool used)
include h

theorem congr (hc : ∀ k, cell' k = cell k)
    (hu : ∀ r, pool r → (used' r ↔ used r)) : Ledger full cell' pool used' := by
  have e : cell' = cell := funext hc
  rw [e]
  exact ⟨h.in_pool, fun k r hk => (hu r (h.in_pool k r hk)).2 (h.in_use k r hk), h.inj,
    fun hf r hr hr' => h.leak hf r hr ((hu r hr).1 hr')⟩

variable {r : ρ} {k : κ}

/-- A resource that is not in use is in no cell. -/
theorem free (hr : ¬used r) (k : κ) : cell k ≠ some r :=
  fun hk => hr (h.in_use k r hk)

theorem take [DecidableEq κ] (hk : cell k = none) (hr : pool r)
    (hfree : ¬used r) (hc : ∀ l, cell' l = if l = k then some r else cell l)
    (hu : ∀ x, pool x → (used' x ↔ x = r ∨ used x)) : Ledger full cell' pool used' := by
  have hself : cell' k = some r := by rw [hc, if_pos rfl]
  have hother : ∀ l, l ≠ k → cell' l = cell l := fun l e => by rw [hc, if_neg e]
  have hold : ∀ l x, cell' l = some x → (l = k ∧ x = r) ∨ (l ≠ k ∧ cell l = some x) := by
    intro l x hl
    by_cases e : l = k
    · rw [e, hself] at hl; exact .inl ⟨e, (Option.some.inj hl).symm⟩
    · rw [hother l e] at hl; exact .inr ⟨e, hl⟩
  refine ⟨fun l x hl => ?_, fun l x hl => ?_, fun l m x hl hm => ?_, fun hf x hx hux => ?_⟩
  · rcases hold l x hl with ⟨-, e⟩ | ⟨-, hl⟩
    · rw [e]; exact hr
    · exact h.in_pool l x hl
  · rcases hold l x hl with ⟨-, e⟩ | ⟨-, hl⟩
    · rw [e]; exact (hu r hr).2 (.inl rfl)
    · exact (hu x (h.in_pool l x hl)).2 (.inr (h.in_use l x hl))
  · rcases hold l x hl with ⟨e1, e2⟩ | ⟨-, hl⟩ <;> rcases hold m x hm with ⟨e3, e4⟩ | ⟨-, hm⟩
    · rw [e1, e3]
    · rw [e2] at hm; exact absurd hm (h.free hfree m)
    · rw [e4] at hl; exact absurd hl (h.free hfree l)
    · exact h.inj l m x hl hm
  · rcases (hu x hx).1 hux with e | hux
    · exact ⟨k, by rw [hself, e]⟩
    · obtain ⟨l, hl⟩ := h.leak hf x hx hux
      refine ⟨l, ?_⟩
      rw [hother l ?_]
      · exact hl
      · intro e; rw [e, hk] at hl; cases hl

theorem drop [DecidableEq κ] (hk : cell k = some r)
    (hc : ∀ l, cell' l = if l = k then none else cell l) (hu : ∀ x, pool x → (used' x ↔ x ≠ r ∧ used x)) :
    Ledger full cell' pool used' := by
  have hold : ∀ l x, cell' l = some x → l ≠ k ∧ cell l = some x := by
    intro l x hl
    rw [hc] at hl
    by_cases e : l = k
    · rw [if_pos e] at hl; cases hl
    · rw [if_neg e] at hl; exact ⟨e, hl⟩
  refine ⟨fun l x hl => h.in_pool l x (hold l x hl).2, fun l x hl => ?_,
    fun l m x hl hm => h.inj l m x (hold l x hl).2 (hold m x hm).2, fun hf x hx hux => ?_⟩
  · obtain ⟨e, hl⟩ := hold l x hl
    refine (hu x (h.in_pool l x hl)).2 ⟨fun e' => ?_, h.in_use l x hl⟩
    rw [e'] at hl
    exact e (h.inj l k r hl hk)
  · obtain ⟨hne, hux⟩ := (hu x hx).1 hux
    obtain ⟨l, hl⟩ := h.leak hf x hx hux
    refine ⟨l, ?_⟩
    rw [hc, if_neg ?_]
    · exact hl
    · intro e
      rw [e, hk] at hl
      exact hne (Option.some.inj hl).symm

theorem used_iff (hf : full) (hr : pool r) :
    used r ↔ ∃ k, cell k = some r ∧ ∀ l, cell l = some r → l = k := by
  constructor
  · intro hu
    obtain ⟨k, hk⟩ := h.leak hf r hr hu
    exact ⟨k, hk, fun l hl => h.inj l k r hl hk⟩
  · intro ⟨k, hk, _⟩
    exact h.in_use k r hk

end

end Ledger
end Xv6
