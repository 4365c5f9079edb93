import Mathlib.Algebra.GroupWithZero.Nat

/-!
# Labelled transition systems

The concurrent parts of the kernel (the log, the process table) are modelled
as labelled transition systems: a state, a label for the critical section
that runs, and a step relation. A run is a finite sequence of labels; every
interleaving of the parties is one such sequence.

* `LTS.Inductive.reachable`: an assertion that holds initially and is kept
  by every step holds in every reachable state.
* `LTS.Run.of_foldlM`: a run computed by a step function is a run.
-/
namespace Xv6

universe u v

/-- The numbers of processes in the runs that are evaluated. -/
instance neZero_two : NeZero 2 := ⟨by decide⟩
instance neZero_three : NeZero 3 := ⟨by decide⟩

/-- A transition system over states `S` with labels `L`. -/
structure LTS (S : Type u) (L : Type v) where
  init : S → Prop
  step : S → L → S → Prop

namespace LTS
variable {S : Type u} {L : Type v} {M : LTS S L}

/-- `M.Run s ls s'`: the labels `ls`, in this order, lead from `s` to `s'`. -/
inductive Run (M : LTS S L) : S → List L → S → Prop where
  | nil (s : S) : Run M s [] s
  | cons {s t s' : S} {l : L} {ls : List L} : M.step s l t → Run M t ls s' → Run M s (l :: ls) s'

def Reachable (M : LTS S L) (s : S) : Prop := ∃ s0 ls, M.init s0 ∧ M.Run s0 ls s

/-- The runs of `M` all of whose steps meet the condition `P`. -/
def only (M : LTS S L) (P : S → L → Prop) : LTS S L where
  init := M.init
  step s l s' := M.step s l s' ∧ P s l

/-- `I` holds initially and every step keeps it. -/
structure Inductive (M : LTS S L) (I : S → Prop) : Prop where
  init : ∀ s, M.init s → I s
  step : ∀ s l s', I s → M.step s l s' → I s'

variable {I : S → Prop} {s s' : S} {ls : List L}

theorem Run.keeps (hstep : ∀ s l s', I s → M.step s l s' → I s') (h : M.Run s ls s') (hs : I s) : I s' := by
  induction h with
  | nil => exact hs
  | cons h1 _ ih => exact ih (hstep _ _ _ hs h1)

theorem Inductive.reachable (h : M.Inductive I) (hr : M.Reachable s) :
    I s := by
  obtain ⟨s0, ls, h0, hrun⟩ := hr
  exact hrun.keeps h.step (h.init s0 h0)

theorem Run.append {t : S} {l1 l2 : List L} (h1 : M.Run s l1 t) (h2 : M.Run t l2 s') :
    M.Run s (l1 ++ l2) s' := by
  induction h1 with
  | nil => exact h2
  | cons h _ ih => exact .cons h (ih h2)

theorem Run.mono {N : LTS S L} (hsub : ∀ s l s', M.step s l s' → N.step s l s') (h : M.Run s ls s') :
    N.Run s ls s' := by
  induction h with
  | nil => exact .nil _
  | cons h1 _ ih => exact .cons (hsub _ _ _ h1) ih

/-- A run computed by a partial step function that `M` allows. -/
theorem Run.of_foldlM {f : S → L → Option S} (hf : ∀ s l s', f s l = some s' → M.step s l s') :
    ∀ {ls : List L} {s s' : S}, ls.foldlM f s = some s' → M.Run s ls s'
  | [], s, s', h => by cases h; exact .nil s
  | l :: ls, s, s', h => by
    rw [List.foldlM_cons, Option.bind_eq_bind, Option.bind_eq_some_iff] at h
    obtain ⟨t, h1, h2⟩ := h
    exact .cons (hf s l t h1) (Run.of_foldlM hf h2)

theorem Reachable.run (h : M.Reachable s) (hr : M.Run s ls s') :
    M.Reachable s' := by
  obtain ⟨s0, l0, h0, hrun⟩ := h
  exact ⟨s0, l0 ++ ls, h0, hrun.append hr⟩

theorem Reachable.step {l : L} (h : M.Reachable s) (hs : M.step s l s') :
    M.Reachable s' := h.run (.cons hs (.nil _))

end LTS
end Xv6
