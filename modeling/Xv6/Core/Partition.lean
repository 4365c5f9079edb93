/-!
# A pool shared between a free list and its owners

Every resource of a pool is free or belongs to exactly one owner. An operation
moves resources between the free list and one owner.

* `Partition.move`: what an operation on behalf of one owner has to show.
* `Partition.exactly_one`: free, or owned by exactly one owner.
-/
namespace Xv6

variable {ω ρ : Type} {pool pool' free free' : ρ → Prop} {own own' : ω → ρ → Prop}

structure Partition (pool free : ρ → Prop) (own : ω → ρ → Prop) : Prop where
  free_pool : ∀ a, free a → pool a
  own_pool : ∀ o a, own o a → pool a
  apart : ∀ o a, own o a → ¬free a
  uniq : ∀ o o' a, own o a → own o' a → o = o'
  all : ∀ a, pool a → free a ∨ ∃ o, own o a

namespace Partition

theorem exactly_one (h : Partition pool free own) {a : ρ} (ha : pool a) :
    free a ∧ (∀ o, ¬own o a) ∨ ¬free a ∧ ∃ o, own o a ∧ ∀ o', own o' a → o' = o := by
  rcases h.all a ha with hf | ⟨o, ho⟩
  · exact .inl ⟨hf, fun o ho => h.apart o a ho hf⟩
  · exact .inr ⟨h.apart o a ho, o, ho, fun o' ho' => h.uniq o' o a ho' ho⟩

/-- One owner's share and the free list together stay what they were. -/
theorem move (h : Partition pool free own) (o : ω) (hpool : ∀ a, pool' a ↔ pool a)
    (hother : ∀ o', o' ≠ o → ∀ a, own' o' a ↔ own o' a) (hsum : ∀ a, own' o a ∨ free' a ↔ own o a ∨ free a)
    (hapart : ∀ a, own' o a → ¬free' a) : Partition pool' free' own' := by
  have hin : ∀ a, own o a ∨ free a → pool' a :=
    fun a ha => (hpool a).2 (ha.elim (h.own_pool o a) (h.free_pool a))
  -- what belongs to another owner is no part of the exchange
  have hout : ∀ o' a, o' ≠ o → own o' a → ¬(own' o a ∨ free' a) := by
    intro o' a hne ho' e
    rcases (hsum a).1 e with e | e
    · exact hne (h.uniq o' o a ho' e)
    · exact h.apart o' a ho' e
  refine ⟨fun a ha => hin a ((hsum a).1 (.inr ha)), fun o' a ho' => ?_, fun o' a ho' => ?_,
    fun o1 o2 a h1 h2 => ?_, fun a ha => ?_⟩
  · by_cases e : o' = o
    · exact hin a ((hsum a).1 (.inl (e ▸ ho')))
    · exact (hpool a).2 (h.own_pool o' a ((hother o' e a).1 ho'))
  · by_cases e : o' = o
    · exact hapart a (e ▸ ho')
    · exact fun hf => hout o' a e ((hother o' e a).1 ho') (.inr hf)
  · by_cases e1 : o1 = o
    · by_cases e2 : o2 = o
      · rw [e1, e2]
      · exact absurd (.inl (e1 ▸ h1)) (hout o2 a e2 ((hother o2 e2 a).1 h2))
    · by_cases e2 : o2 = o
      · exact absurd (.inl (e2 ▸ h2)) (hout o1 a e1 ((hother o1 e1 a).1 h1))
      · exact h.uniq o1 o2 a ((hother o1 e1 a).1 h1) ((hother o2 e2 a).1 h2)
  · rcases h.all a ((hpool a).1 ha) with hf | ⟨o', ho'⟩
    · rcases (hsum a).2 (.inr hf) with e | e
      · exact .inr ⟨o, e⟩
      · exact .inl e
    · by_cases e : o' = o
      · rcases (hsum a).2 (.inl (e ▸ ho')) with e | e
        · exact .inr ⟨o, e⟩
        · exact .inl e
      · exact .inr ⟨o', (hother o' e a).2 ho'⟩

theorem congr (h : Partition pool free own) (hpool : ∀ a, pool' a ↔ pool a) (hfree : ∀ a, free' a ↔ free a)
    (hown : ∀ o a, own' o a ↔ own o a) : Partition pool' free' own' :=
  ⟨fun a ha => (hpool a).2 (h.free_pool a ((hfree a).1 ha)),
    fun o a ho => (hpool a).2 (h.own_pool o a ((hown o a).1 ho)),
    fun o a ho hf => h.apart o a ((hown o a).1 ho) ((hfree a).1 hf),
    fun o o' a h1 h2 => h.uniq o o' a ((hown o a).1 h1) ((hown o' a).1 h2),
    fun a ha => (h.all a ((hpool a).1 ha)).elim (fun hf => .inl ((hfree a).2 hf))
    fun ⟨o, ho⟩ => .inr ⟨o, (hown o a).2 ho⟩⟩

end Partition
end Xv6
