import Mathlib.Data.List.Nodup
import Mathlib.Logic.Function.Basic

/-!
# Circular doubly linked lists

A list of nodes of type `α`, linked through a head: `none` is the head, `some
a` the node `a`. `Seg` is a segment of such a list, with both directions;
`Linked` the whole circle.

* `Linked.unlink`, `Linked.pushFront`: take a node out, and put one in after
  the head.
* `walk`: the loop `for(b = first; b != head; b = b->next)` that stops at the
  first node with a property; `Linked.walk_next` and `Linked.walk_prev` give
  its result. The number of passes is bounded by the fuel.
-/
namespace Xv6
open Function (update update_self update_of_ne)

/-- The two pointers of every node, and of the head. -/
structure Links (α : Type) where
  next : Option α → Option α
  prev : Option α → Option α

namespace Links
variable {α : Type} {next prev next' prev' : Option α → Option α} {x y : Option α}
  {a b : α} {l l1 l2 : List α}

/-- From `x` through the nodes of `l` to `y`, and back. -/
def Seg (next prev : Option α → Option α) : Option α → List α → Option α → Prop
  | x, [], y => next x = y ∧ prev y = x
  | x, a :: l, y => next x = some a ∧ prev (some a) = x ∧ Seg next prev (some a) l y

theorem seg_append : Seg next prev x (l1 ++ a :: l2) y ↔ Seg next prev x l1 (some a) ∧
    Seg next prev (some a) l2 y := by
  induction l1 generalizing x with
  | nil => simp [Seg, and_assoc]
  | cons b l1 ih => simp [Seg, ih, and_assoc]

section
variable (h : Seg next prev x l y)
include h

theorem Seg.symm : Seg prev next y l.reverse x := by
  induction l generalizing x with
  | nil => exact ⟨h.2, h.1⟩
  | cons a l ih =>
    obtain ⟨h1, h2, h3⟩ := h
    rw [List.reverse_cons]
    exact seg_append.2 ⟨ih h3, h2, h1⟩

/-- A segment depends on `next` up to its last node and on `prev` from its first one. -/
theorem Seg.congr (hx : next' x = next x) (hy : prev' y = prev y)
    (hl : ∀ a ∈ l, next' (some a) = next (some a) ∧ prev' (some a) = prev (some a)) :
    Seg next' prev' x l y := by
  induction l generalizing x with
  | nil => exact ⟨hx.trans h.1, hy.trans h.2⟩
  | cons a l ih =>
    obtain ⟨h1, h2, h3⟩ := h
    have ha := hl a List.mem_cons_self
    exact ⟨hx.trans h1, ha.2.trans h2, ih h3 ha.1 fun b hb => hl b (List.mem_cons_of_mem _ hb)⟩

theorem Seg.first : next x = y ∨ ∃ a ∈ l, next x = some a := by
  cases l with
  | nil => exact .inl h.1
  | cons a l => exact .inr ⟨a, List.mem_cons_self, h.1⟩

theorem Seg.last : prev y = x ∨ ∃ a ∈ l, prev y = some a := by
  rcases h.symm.first with e | ⟨a, ha, e⟩
  · exact .inl e
  · exact .inr ⟨a, List.mem_reverse.1 ha, e⟩

end

/-- The nodes of `l`, in this order, between the head and the head. -/
structure Linked (s : Links α) (l : List α) : Prop where
  seg : Seg s.next s.prev none l none
  nodup : l.Nodup

/-- How a loop over the list ends. -/
inductive Walk (α : Type) where
  | found (b : α)
  | done
  /-- the fuel did not suffice -/
  | stuck

/-- `for(; b != head; b = next(b)) if(pred(b)) ...` -/
def walk (next : Option α → Option α) (pred : α → Bool) : Nat → Option α → Walk α
  | _, none => .done
  | 0, some _ => .stuck
  | k + 1, some b => if pred b then .found b else walk next pred k (next (some b))

def Walk.of : Option α → Walk α
  | some b => .found b
  | none => .done

variable {pred : α → Bool} {k : Nat}

theorem Seg.walk (h : Seg next prev x l none) (hk : l.length ≤ k) :
    walk next pred k (next x) = .of (l.find? pred) := by
  induction l generalizing x k with
  | nil => rw [h.1, List.find?_nil]; cases k <;> rfl
  | cons a l ih =>
    obtain ⟨h1, _, h3⟩ := h
    cases k with
    | zero => cases hk
    | succ k =>
      rw [h1, List.find?_cons]
      show (if pred a then _ else _) = _
      cases pred a with
      | true => rfl
      | false => exact ih h3 (Nat.le_of_succ_le_succ hk)

variable {s : Links α}

theorem Linked.walk_next (h : s.Linked l) (hk : l.length ≤ k) :
    walk s.next pred k (s.next none) = .of (l.find? pred) := h.seg.walk hk

theorem Linked.walk_prev (h : s.Linked l) (hk : l.length ≤ k) :
    walk s.prev pred k (s.prev none) = .of (l.reverse.find? pred) :=
  h.seg.symm.walk (by rw [List.length_reverse]; exact hk)

variable [DecidableEq α]

/-- Two segments with the node between them taken out. -/
theorem Seg.join (h1 : Seg next prev x l1 (some b)) (h2 : Seg next prev (some b) l2 none)
    (hnd : (l1 ++ l2).Nodup) (hx : ∀ a ∈ l1 ++ l2, x ≠ some a) :
    Seg (update next (prev (some b)) (next (some b))) (update prev (next (some b)) (prev (some b))) x
    (l1 ++ l2) none := by
  induction l1 generalizing x with
  | nil =>
    obtain ⟨_, hb⟩ := h1
    rw [hb]
    cases l2 with
    | nil =>
      rw [h2.1]
      exact ⟨update_self .., update_self ..⟩
    | cons c l2 =>
      obtain ⟨hc, _, h3⟩ := h2
      obtain ⟨hcl, _⟩ := List.nodup_cons.1 hnd
      rw [hc]
      refine ⟨update_self .., update_self .., h3.congr ?_ ?_ fun a ha => ⟨?_, ?_⟩⟩
      · exact update_of_ne (fun e => hx c List.mem_cons_self e.symm) _ _
      · exact update_of_ne (by simp) _ _
      · exact update_of_ne (fun e => hx a (List.mem_cons_of_mem _ ha) e.symm) _ _
      · refine update_of_ne (fun e => ?_) _ _
        cases e
        exact hcl ha
  | cons a l1 ih =>
    obtain ⟨hxa, hax, h3⟩ := h1
    obtain ⟨hal, hnd⟩ := List.nodup_cons.1 hnd
    refine ⟨?_, ?_, ih h3 hnd fun c hc e => ?_⟩
    · refine (update_of_ne (fun e => ?_) _ _).trans hxa
      rcases h3.last with e' | ⟨c, hc, e'⟩
      · exact hx a List.mem_cons_self (e.trans e')
      · exact hx c (List.mem_cons_of_mem _ (List.mem_append_left _ hc)) (e.trans e')
    · refine (update_of_ne (fun e => ?_) _ _).trans hax
      rcases h2.first with e' | ⟨c, hc, e'⟩
      · rw [e'] at e; cases e
      · rw [e'] at e
        cases e
        exact hal (List.mem_append_right _ hc)
    · cases e
      exact hal hc

/-- `b->next->prev = b->prev; b->prev->next = b->next` -/
def unlink (s : Links α) (b : α) : Links α :=
  let prev := update s.prev (s.next (some b)) (s.prev (some b))
  ⟨update s.next (prev (some b)) (s.next (some b)), prev⟩

/-- `b->next = head.next; b->prev = &head; head.next->prev = b; head.next = b` -/
def pushFront (s : Links α) (b : α) : Links α :=
  let next := update s.next (some b) (s.next none)
  let prev := update s.prev (some b) none
  ⟨update next none (some b), update prev (next none) (some b)⟩

/-- `head.prev = &head; head.next = &head` -/
def clear (s : Links α) : Links α := ⟨update s.next none none, update s.prev none none⟩

theorem linked_clear (s : Links α) : s.clear.Linked [] :=
  ⟨⟨by simp [clear], by simp [clear]⟩, List.nodup_nil⟩

theorem Linked.unlink (h : s.Linked (l1 ++ b :: l2)) : (s.unlink b).Linked (l1 ++ l2) := by
  have hnd := h.nodup
  obtain ⟨h1, h2⟩ := seg_append.1 h.seg
  obtain ⟨hb, hnd⟩ := List.nodup_middle.1 hnd |> List.nodup_cons.1
  -- `b` is not its own successor, so its own `prev` is not overwritten
  have hself : update s.prev (s.next (some b)) (s.prev (some b)) (some b) = s.prev (some b) := by
    refine update_of_ne (fun e => ?_) _ _
    rcases h2.first with e' | ⟨c, hc, e'⟩
    · rw [e'] at e; cases e
    · rw [e'] at e
      cases e
      exact hb (List.mem_append_right _ hc)
  refine ⟨?_, hnd⟩
  show Seg (update s.next (update s.prev (s.next (some b)) (s.prev (some b)) (some b))
    (s.next (some b))) _ _ _ _
  rw [hself]
  exact h1.join h2 hnd (by simp)

theorem Linked.pushFront (h : s.Linked l) (hb : b ∉ l) : (s.pushFront b).Linked (b :: l) := by
  have hne : s.next none ≠ some b := fun e => by
    rcases h.seg.first with e' | ⟨c, hc, e'⟩
    · rw [e'] at e; cases e
    · rw [e'] at e
      cases e
      exact hb hc
  have hnext : update s.next (some b) (s.next none) none = s.next none := update_of_ne (by simp) _ _
  refine ⟨?_, List.nodup_cons.2 ⟨hb, h.nodup⟩⟩
  show Seg (update (update s.next (some b) (s.next none)) none (some b))
    (update (update s.prev (some b) none) (update s.next (some b) (s.next none) none) (some b)) none
    (b :: l) none
  rw [hnext]
  refine ⟨update_self .., ?_, ?_⟩
  · rw [update_of_ne hne.symm, update_self]
  · have hs := h.seg
    have hnb : update (update s.next (some b) (s.next none)) none (some b) (some b) = s.next none := by
      rw [update_of_ne (by simp), update_self]
    cases l with
    | nil =>
      refine ⟨hnb.trans hs.1, ?_⟩
      rw [hs.1, update_self]
    | cons c l =>
      obtain ⟨hc, _, h3⟩ := hs
      obtain ⟨hcl, _⟩ := List.nodup_cons.1 h.nodup
      have hbn : ∀ a ∈ c :: l, (some a : Option α) ≠ some b := fun a ha e => by
        cases e
        exact hb ha
      refine ⟨hnb.trans hc, by rw [hc, update_self], h3.congr ?_ ?_ fun a ha => ⟨?_, ?_⟩⟩
      · rw [update_of_ne (by simp), update_of_ne (hbn c List.mem_cons_self)]
      · rw [hc, update_of_ne (by simp), update_of_ne (by simp)]
      · rw [update_of_ne (by simp), update_of_ne (hbn a (List.mem_cons_of_mem _ ha))]
      · rw [hc, update_of_ne, update_of_ne (hbn a (List.mem_cons_of_mem _ ha))]
        intro e
        cases e
        exact hcl ha

/-- One node after the other, each put in after the head. -/
theorem Linked.foldl_pushFront (h : s.Linked l) {bs : List α} (hnd : (bs.reverse ++ l).Nodup) :
    (bs.foldl Links.pushFront s).Linked (bs.reverse ++ l) := by
  induction bs generalizing s l with
  | nil => exact h
  | cons b bs ih =>
    rw [List.reverse_cons, List.append_assoc, List.singleton_append] at hnd ⊢
    have hb : b ∉ l := (List.nodup_cons.1 (List.nodup_append.1 hnd).2.1).1
    exact ih (h.pushFront hb) hnd

end Links
end Xv6
