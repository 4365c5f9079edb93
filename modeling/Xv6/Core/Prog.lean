/-!
# Programs that may panic, and their weakest preconditions

A C function of the kernel is a function of the state that returns a value
and a new state or stops the machine with a `panic`. `Wp m s Q R` says that
`m` started in `s` either returns with `Q` or panics with a message allowed
by `R`; with `R = fun _ => False` it returns.

* `wp_bind`, `wp_pure`, ...: one rule for each way to build a program.
* `Wp.mono`: the rule of consequence, with which a caller cites the
  specification of a callee.
-/
namespace Xv6

variable {E F S T α β : Type}

/-- A function over the state `S` that may panic with a message in `E`. -/
def Prog (E S α : Type) := S → Except E (α × S)

namespace Prog

instance : Monad (Prog E S) where
  pure a := fun s => .ok (a, s)
  bind m f := fun s =>
    match m s with
    | .ok (a, s') => f a s'
    | .error e => .error e

def get : Prog E S S := fun s => .ok (s, s)

def modify (f : S → S) : Prog E S Unit := fun s => .ok ((), f s)

/-- `panic(msg)`. -/
def panic (e : E) : Prog E S α := fun _ => .error e

/-- A program over a part of the state. -/
def zoom (part : S → T) (put : T → S → S) (m : Prog E T α) : Prog E S α := fun s =>
  match m (part s) with
  | .ok (a, t) => .ok (a, put t s)
  | .error e => .error e

/-- Likewise, for a part with panics of its own. -/
def within (wrap : F → E) (part : S → T) (put : T → S → S) (m : Prog F T α) : Prog E S α := fun s =>
  match m (part s) with
  | .ok (a, t) => .ok (a, put t s)
  | .error e => .error (wrap e)

/-- The message of the panic, if there is one. -/
def fault (m : Prog E S α) (s : S) : Option E :=
  match m s with
  | .ok _ => none
  | .error e => some e

variable {m : Prog E S α} {s : S}

theorem eq_error {e : E} (h : fault m s = some e) : m s = .error e := by
  unfold fault at h
  split at h
  · cases h
  · rename_i heq
    rw [heq, Option.some.inj h]

/-- A program whose outcome is known in part. -/
theorem ok_of_map {f : α × S → β} {b : β} (h : (m s).map f = .ok b) :
    ∃ a s', m s = .ok (a, s') ∧ f (a, s') = b := by
  cases hm : m s with
  | ok r =>
    rw [hm] at h
    exact ⟨r.1, r.2, rfl, Except.ok.inj h⟩
  | error e =>
    rw [hm] at h
    cases h

end Prog

open Prog

/-- `m` started in `s` returns with `Q`, or panics with `R`. -/
def Wp (m : Prog E S α) (s : S) (Q : α → S → Prop) (R : E → Prop) : Prop :=
  match m s with
  | .ok (a, s') => Q a s'
  | .error e => R e

section Rules
variable {s : S} {Q Q' : α → S → Prop} {R R' : E → Prop}

@[simp] theorem wp_pure (a : α) : Wp (pure a : Prog E S α) s Q R ↔ Q a s := Iff.rfl

@[simp] theorem wp_get {Q : S → S → Prop} : Wp (get : Prog E S S) s Q R ↔ Q s s := Iff.rfl

@[simp] theorem wp_modify (f : S → S) {Q : Unit → S → Prop} :
    Wp (modify f : Prog E S Unit) s Q R ↔ Q () (f s) := Iff.rfl

@[simp] theorem wp_panic (e : E) : Wp (panic e : Prog E S α) s Q R ↔ R e := Iff.rfl

variable {m : Prog E S α} {a : α} {s' : S} {f : β → Prog E S α}

/-- A program whose outcome is known. -/
theorem wp_ok (h : m s = .ok (a, s')) : Wp m s Q R ↔ Q a s' := by
  unfold Wp
  rw [h]

theorem bind_ok {m : Prog E S β} {b : β} (h : m s = .ok (b, s')) : (m >>= f) s = f b s' := by
  simp only [bind]
  rw [h]

theorem wp_bind (m : Prog E S β) (f : β → Prog E S α) :
    Wp (m >>= f) s Q R ↔ Wp m s (fun a s' => Wp (f a) s' Q R) R := by
  unfold Wp
  simp only [bind]
  cases m s with
  | ok | error => rfl

theorem wp_ite (c : Prop) [Decidable c] (m n : Prog E S α) :
    Wp (if c then m else n) s Q R ↔ (c → Wp m s Q R) ∧ (¬c → Wp n s Q R) := by
  by_cases h : c <;> simp [h]

theorem wp_within (wrap : F → E) (part : S → T) (put : T → S → S) (m : Prog F T α) :
    Wp (within wrap part put m) s Q R ↔ Wp m (part s) (fun a t => Q a (put t s)) (fun e => R (wrap e)) := by
  unfold Wp within
  cases m (part s) with
  | ok | error => rfl

theorem Wp.mono (h : Wp m s Q R) (hQ : ∀ a s', Q a s' → Q' a s')
    (hR : ∀ e, R e → R' e) : Wp m s Q' R' := by
  unfold Wp at h ⊢
  cases hm : m s with
  | ok r => rw [hm] at h; exact hQ _ _ h
  | error e => rw [hm] at h; exact hR _ h

theorem Wp.post (h : Wp m s Q R) (hQ : ∀ a s', Q a s' → Q' a s') : Wp m s Q' R := h.mono hQ fun _ => id

theorem Wp.panics (h : Wp m s Q R) (hR : ∀ e, R e → R' e) : Wp m s Q R' := h.mono (fun _ _ => id) hR

/-- What does not panic may be run where a panic is allowed. -/
theorem Wp.never (h : Wp m s Q fun _ => False) : Wp m s Q R := h.panics fun _ => False.elim

/-- Run `m` by its specification, then go on. -/
theorem Wp.bind {m : Prog E S β} {P : β → S → Prop} (h : Wp m s P R)
    (hf : ∀ a s', P a s' → Wp (f a) s' Q R) : Wp (m >>= f) s Q R :=
  (wp_bind m f).2 (h.post hf)

theorem Wp.and (h : Wp m s Q R) (h' : Wp m s Q' R) :
    Wp m s (fun a t => Q a t ∧ Q' a t) R := by
  unfold Wp at h h' ⊢
  cases hm : m s with
  | ok r => rw [hm] at h h'; exact ⟨h, h'⟩
  | error e => rw [hm] at h; exact h

/-- Both rules, for the outcome and for the panics. -/
theorem Wp.both (h : Wp m s Q R) (h' : Wp m s Q' R') :
    Wp m s (fun a t => Q a t ∧ Q' a t) (fun e => R e ∧ R' e) := by
  unfold Wp at h h' ⊢
  cases hm : m s with
  | ok | error => rw [hm] at h h'; exact ⟨h, h'⟩

/-- The outcome by one rule, the panics by another. -/
theorem Wp.fails (h : Wp m s Q R) (h' : Wp m s Q' R') : Wp m s Q R' := by
  unfold Wp at h h' ⊢
  cases hm : m s with
  | ok r => rw [hm] at h; exact h
  | error e => rw [hm] at h'; exact h'

/-- A program that does not panic returns. -/
theorem Wp.returns (h : Wp m s Q (fun _ => False)) :
    ∃ a s', m s = .ok (a, s') ∧ Q a s' := by
  unfold Wp at h
  cases hm : m s with
  | ok r => rw [hm] at h; exact ⟨r.1, r.2, rfl, h⟩
  | error e => rw [hm] at h; exact h.elim

theorem Wp.eq_ok (h : Wp m s (fun b t => b = a ∧ t = s') fun _ => False) :
    m s = .ok (a, s') := by
  obtain ⟨b, t, hm, hb, ht⟩ := h.returns
  rw [hm, hb, ht]

theorem Wp.of_ok (h : Wp m s Q R) (hm : m s = .ok (a, s')) : Q a s' := by
  unfold Wp at h
  rw [hm] at h
  exact h

theorem Wp.of_error {e : E} (h : Wp m s Q R) (hm : m s = .error e) : R e := by
  unfold Wp at h
  rw [hm] at h
  exact h

end Rules

-- from here on programs are run by the rules only
attribute [irreducible] Wp

end Xv6
