import Mathlib.Data.List.Induction

/-!
# Trees given by a child function

A linked structure in memory is a partial function from a node and an index
to the node below. `descend` follows a path of indices from the root;
`Shape` says that no node of depth at most `d` is reached by two paths, which
rules out sharing and cycles.

* `descend_congr`: paths depend only on the children of the nodes they visit.
* `descend_attach`: hanging a fresh node under a free index changes exactly
  one path.
* `Shape.attach`, `reached_attach`: the tree stays a tree, with one node more.
* `Shape.below`, `Shape.apart`: the subtrees of a node are trees, and share
  no node with one another nor with the node.
-/
namespace Xv6

section
variable {α ι : Type}

def descend (child : α → ι → Option α) : α → List ι → Option α
  | n, [] => some n
  | n, i :: p => (child n i).bind fun c => descend child c p

/-- `a` is a node of depth at most `d` under `root`. -/
def Reached (child : α → ι → Option α) (root : α) (d : Nat) (a : α) : Prop :=
  ∃ p : List ι, p.length ≤ d ∧ descend child root p = some a

/-- Every node of depth at most `d` has one path. -/
def Shape (child : α → ι → Option α) (root : α) (d : Nat) : Prop :=
  ∀ p q : List ι, ∀ a, p.length ≤ d → q.length ≤ d →
    descend child root p = some a → descend child root q = some a → p = q

variable {child child' : α → ι → Option α} {root : α} {d : Nat}

theorem descend_append (n : α) (p q : List ι) :
    descend child n (p ++ q) = (descend child n p).bind fun c => descend child c q := by
  induction p generalizing n with
  | nil => rfl
  | cons i p ih =>
    simp only [List.cons_append, descend]
    cases child n i with
    | none => rfl
    | some c => exact ih c

theorem descend_snoc (n : α) (p : List ι) (i : ι) :
    descend child n (p ++ [i]) = (descend child n p).bind fun c => child c i := by
  rw [descend_append]
  cases descend child n p with
  | none => rfl
  | some c => simp [descend]

theorem reached_root (child : α → ι → Option α) (root : α) (d : Nat) : Reached child root d root :=
  ⟨[], Nat.zero_le _, rfl⟩

variable {a : α}

theorem Reached.mono {d' : Nat} (h : Reached child root d a) (hd : d ≤ d') :
    Reached child root d' a := by
  obtain ⟨p, hp, ha⟩ := h
  exact ⟨p, by omega, ha⟩

section
variable (h : ∀ a, Reached child root d a → ∀ i, child' a i = child a i)
include h

theorem descend_congr {p : List ι}
    (hp : p.length ≤ d + 1) : descend child' root p = descend child root p := by
  induction p using List.reverseRecOn with
  | nil => rfl
  | append_singleton p i ih =>
    rw [List.length_append, List.length_singleton] at hp
    rw [descend_snoc, descend_snoc, ih (by omega)]
    cases hx : descend child root p with
    | none => rfl
    | some x => exact h x ⟨p, by omega, hx⟩ i

theorem reached_congr (a : α) :
    Reached child' root (d + 1) a ↔ Reached child root (d + 1) a := by
  constructor
  · rintro ⟨p, hp, ha⟩
    exact ⟨p, hp, by rw [← descend_congr h hp]; exact ha⟩
  · rintro ⟨p, hp, ha⟩
    exact ⟨p, hp, by rw [descend_congr h hp]; exact ha⟩

end

theorem Shape.congr (hs : Shape child root (d + 1))
    (h : ∀ a, Reached child root d a → ∀ i, child' a i = child a i) : Shape child' root (d + 1) := by
  intro p q a hp hq ha hb
  rw [descend_congr h hp] at ha
  rw [descend_congr h hq] at hb
  exact hs p q a hp hq ha hb

/-! ## Subtrees -/

theorem reached_succ (a : α) :
    Reached child root (d + 1) a ↔ a = root ∨ ∃ i c, child root i = some c ∧ Reached child c d a := by
  constructor
  · rintro ⟨p, hp, ha⟩
    cases p with
    | nil => exact .inl (Option.some.inj ha).symm
    | cons i p =>
      obtain ⟨c, hc, hca⟩ := Option.bind_eq_some_iff.1 ha
      exact .inr ⟨i, c, hc, p, by simpa using hp, hca⟩
  · rintro (rfl | ⟨i, c, hc, p, hp, ha⟩)
    · exact reached_root _ _ _
    · refine ⟨i :: p, by simpa using hp, ?_⟩
      simp only [descend, hc, Option.bind_some, ha]

theorem descend_cons (h : child root i = some c) (p : List ι) :
    descend child root (i :: p) = descend child c p := by
  simp only [descend, h, Option.bind_some]

theorem Shape.below (hs : Shape child root (d + 1)) (h : child root i = some c) : Shape child c d := by
  intro p q a hp hq ha hb
  rw [← descend_cons h] at ha hb
  exact (List.cons.inj (hs (i :: p) (i :: q) a (by simpa using hp) (by simpa using hq) ha hb)).2

/-- No node is in two subtrees. -/
theorem Shape.apart (hs : Shape child root (d + 1)) {j : ι} {e : α} (hi : child root i = some c)
    (hj : child root j = some e) (ha : Reached child c d a) (hb : Reached child e d a) : i = j := by
  obtain ⟨p, hp, ha⟩ := ha
  obtain ⟨q, hq, hb⟩ := hb
  rw [← descend_cons hi] at ha
  rw [← descend_cons hj] at hb
  exact (List.cons.inj (hs (i :: p) (j :: q) a (by simpa using hp) (by simpa using hq) ha hb)).1

/-- The root is in none. -/
theorem Shape.root_apart (hs : Shape child root (d + 1)) (hi : child root i = some c) :
    ¬Reached child c d root := by
  rintro ⟨p, hp, ha⟩
  rw [← descend_cons hi] at ha
  cases hs (i :: p) [] root (by simpa using hp) (Nat.zero_le _) ha rfl

/-- `child'` is `child` with the fresh childless node `c` hung under index
`i` of `n`, the node at the end of `path`. -/
structure Attach (child child' : α → ι → Option α) (root : α) (d : Nat) (path : List ι) (i : ι) (n c : α) :
    Prop where
  depth : path.length < d
  path : descend child root path = some n
  free : child n i = none
  fresh : ¬Reached child root d c
  new : child' n i = some c
  bare : ∀ j, child' c j = none
  old : ∀ a, Reached child root d a → ∀ j, ¬(a = n ∧ j = i) → child' a j = child a j

variable {path : List ι} {i : ι} {n c : α}

theorem descend_attach [DecidableEq ι] (hs : Shape child root d) (h : Attach child child' root d path i n c)
    {q : List ι} (hq : q.length ≤ d) :
    descend child' root q = if q = path ++ [i] then some c else descend child root q := by
  have hnone : descend child root (path ++ [i]) = none := by
    rw [descend_snoc, h.path]; exact h.free
  induction q using List.reverseRecOn with
  | nil => rw [if_neg (by simp)]; rfl
  | append_singleton q j ih =>
    rw [List.length_append, List.length_singleton] at hq
    rw [descend_snoc, descend_snoc, ih (by omega)]
    by_cases e : q = path ++ [i]
    · -- below the new node
      subst e
      rw [if_pos rfl, hnone, if_neg (by intro he; have := congrArg List.length he; simp at this)]
      exact h.bare j
    rw [if_neg e]
    cases hx : descend child root q with
    | none =>
      have hne : ¬q ++ [j] = path ++ [i] := by
        intro he
        obtain ⟨rfl, -⟩ := List.append_inj' he rfl
        rw [h.path] at hx; cases hx
      rw [if_neg hne]; rfl
    | some x =>
      simp only [Option.bind_some]
      by_cases hni : x = n ∧ j = i
      · obtain ⟨rfl, rfl⟩ := hni
        have hqp : q = path := hs q path x (by omega) (by have := h.depth; omega) hx h.path
        rw [if_pos (by rw [hqp])]; exact h.new
      · have hne : ¬q ++ [j] = path ++ [i] := by
          intro he
          obtain ⟨rfl, hj⟩ := List.append_inj' he rfl
          rw [h.path] at hx
          exact hni ⟨(Option.some.inj hx).symm, by simpa using hj⟩
        rw [if_neg hne, h.old x ⟨q, by omega, hx⟩ j hni]

theorem Shape.attach [DecidableEq ι] (hs : Shape child root d) (h : Attach child child' root d path i n c) :
    Shape child' root d := by
  intro p q a hp hq ha hb
  rw [descend_attach hs h hp] at ha
  rw [descend_attach hs h hq] at hb
  split at ha
  · rename_i e1
    split at hb
    · rename_i e2; rw [e1, e2]
    · exact absurd ⟨q, hq, hb.trans ha.symm⟩ h.fresh
  · split at hb
    · exact absurd ⟨p, hp, ha.trans hb.symm⟩ h.fresh
    · exact hs p q a hp hq ha hb

theorem reached_attach [DecidableEq ι] (hs : Shape child root d) (h : Attach child child' root d path i n c)
    (a : α) : Reached child' root d a ↔ a = c ∨ Reached child root d a := by
  have hdep := h.depth
  constructor
  · rintro ⟨p, hp, ha⟩
    rw [descend_attach hs h hp] at ha
    split at ha
    · exact .inl (Option.some.inj ha).symm
    · exact .inr ⟨p, hp, ha⟩
  · rintro (rfl | ⟨p, hp, ha⟩)
    · refine ⟨path ++ [i], by simp; omega, ?_⟩
      rw [descend_attach hs h (by simp; omega), if_pos rfl]
    · refine ⟨p, hp, ?_⟩
      rw [descend_attach hs h hp, if_neg, ha]
      rintro rfl
      rw [descend_snoc, h.path] at ha
      rw [Option.bind_some, h.free] at ha
      cases ha

end
end Xv6
