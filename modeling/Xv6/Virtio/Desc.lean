import Xv6.Core.Ledger
import Xv6.Virtio.Basic

/-!
# Descriptors (`kernel/virtio_disk.c:155-213`)

`Owns chains free`: a descriptor is marked free if and only if it is in no
chain, and the chains of two processes have none in common. Allocation takes a
free one into a chain; if `alloc3_desc` fails part-way, it gives back what it
has got.

* `alloc3Desc_spec`: three descriptors, or none.
* `freeChain_spec`: the chain of a call goes back as a whole, and the panics
  of `free_desc` do not happen.
-/
namespace Xv6.Virtio
open Function (update update_self update_of_ne update_eq_self update_idem)

variable {m n : Nat} {D : Type}

/-- Every descriptor is free or in one chain. -/
structure Owns (chains : Fin m → List Nat) (free : Nat → Bool) : Prop where
  ledger : Ledger True (fun x : Fin m × Nat => if x.2 ∈ chains x.1 then some x.2 else none) (· < NUM)
    fun i => free i = false
  nodup : ∀ p, (chains p).Nodup

namespace Owns
variable {chains : Fin m → List Nat} {free : Nat → Bool} (h : Owns chains free)
include h

variable {p : Fin m} {i : Nat}

theorem lt (hi : i ∈ chains p) : i < NUM := h.ledger.in_pool (p, i) i (if_pos hi)

theorem not_free (hi : i ∈ chains p) : free i = false := h.ledger.in_use (p, i) i (if_pos hi)

theorem disjoint {q : Fin m} (hp : i ∈ chains p) (hq : i ∈ chains q) : p = q :=
  congrArg Prod.fst (h.ledger.inj (p, i) (q, i) i (if_pos hp) (if_pos hq))

theorem free_iff (hi : i < NUM) : free i = true ↔ ∀ p, i ∉ chains p := by
  constructor
  · intro hf p hp
    rw [h.not_free hp] at hf
    cases hf
  · intro hno
    rw [← Bool.not_eq_false]
    intro hf
    obtain ⟨x, hx⟩ := h.ledger.leak trivial i hi hf
    split at hx
    · rename_i hmem
      cases hx
      exact hno _ hmem
    · cases hx

theorem take (p : Fin m) (hi : i < NUM) (hf : free i = true) :
    Owns (update chains p (chains p ++ [i])) (update free i false) := by
  have hno := (h.free_iff hi).1 hf
  refine ⟨?_, fun q => ?_⟩
  · refine h.ledger.take (k := (p, i)) (if_neg (hno p)) hi (by rw [hf]; decide) (fun x => ?_) fun r _ => ?_
    · obtain ⟨q, r⟩ := x
      by_cases eq : q = p
      · subst eq
        by_cases er : r = i <;> simp [er]
      · simp [eq]
    · by_cases e : r = i
      · simp [e]
      · simp [e]
  · by_cases e : q = p
    · rw [e, update_self]
      exact List.nodup_append.2 ⟨h.nodup p, List.pairwise_singleton _ i, by
        intro a ha b hb e
        rw [List.mem_singleton.1 hb] at e
        rw [e] at ha
        exact hno p ha⟩
    · rw [update_of_ne e]
      exact h.nodup q

theorem drop {is : List Nat} (hp : chains p = i :: is) :
    Owns (update chains p is) (update free i true) := by
  have hnd := h.nodup p
  rw [hp] at hnd
  have hnot : i ∉ is := (List.nodup_cons.1 hnd).1
  refine ⟨?_, fun q => ?_⟩
  · refine h.ledger.drop (k := (p, i)) (if_pos (by rw [hp]; exact List.mem_cons_self))
      (fun x => ?_) fun r _ => ?_
    · obtain ⟨q, r⟩ := x
      by_cases eq : q = p
      · subst eq
        by_cases er : r = i
        · simp [er, hnot]
        · simp [er, hp]
      · simp [eq]
    · by_cases e : r = i
      · simp [e]
      · simp [e]
  · by_cases e : q = p
    · rw [e, update_self]
      exact (List.nodup_cons.1 hnd).2
    · rw [update_of_ne e]
      exact h.nodup q

end Owns

/-- Only descriptors, the marks of free descriptors and sleepers
have changed, and the descriptors in `keep` have not. -/
def Frees (keep : Nat → Prop) (s s' : Sys m n D) : Prop :=
  ∃ desc free asleep, s' = { s with disk := { s.disk with desc := desc, free := free }, asleep := asleep } ∧
    ∀ i, keep i → desc i = s.disk.desc i

theorem Frees.refl (keep : Nat → Prop) (s : Sys m n D) : Frees keep s s := ⟨_, _, _, rfl, fun _ _ => rfl⟩

variable {keep : Nat → Prop} {s : Sys m n D}

theorem Frees.trans {t u : Sys m n D} (h1 : Frees keep s t) (h2 : Frees keep t u) :
    Frees keep s u := by
  obtain ⟨_, _, _, rfl, hk⟩ := h1
  obtain ⟨_, _, _, rfl, hk'⟩ := h2
  exact ⟨_, _, _, rfl, fun i hi => (hk' i hi).trans (hk i hi)⟩

theorem Frees.mono {keep' : Nat → Prop} {s' : Sys m n D} (h : Frees keep s s') (hle : ∀ i, keep' i → keep i) :
    Frees keep' s s' := by
  obtain ⟨desc, free, asleep, hs, hk⟩ := h
  exact ⟨desc, free, asleep, hs, fun i hi => hk i (hle i hi)⟩

section Descriptors
variable {chains : Fin m → List Nat} {s : Sys m n D} {p : Fin m}

theorem allocDesc_spec (h : Owns chains s.disk.free) (p : Fin m) :
    Wp (allocDesc : M m n D (Option Nat)) s (fun r s' => Frees (fun _ => True) s s' ∧
      match r with
      | none => Owns chains s'.disk.free
      | some i => Owns (update chains p (chains p ++ [i])) s'.disk.free) fun _ => False := by
  unfold allocDesc
  rw [wp_bind, wp_get]
  split
  · rw [wp_pure]
    exact ⟨.refl _ _, h⟩
  · rename_i i hi
    have hf : s.disk.free i = true := List.find?_some hi
    have hlt : i < NUM := List.mem_range.1 (List.mem_of_find?_eq_some hi)
    rw [wp_bind, wp_modify, wp_pure]
    exact ⟨⟨_, _, _, rfl, fun _ _ => rfl⟩, h.take p hlt hf⟩

variable {i : Nat} {is : List Nat}

theorem freeDesc_spec (h : Owns chains s.disk.free) (hp : chains p = i :: is) :
    Wp (freeDesc i) s (fun _ s' => Frees (· ≠ i) s s' ∧ Owns (update chains p is) s'.disk.free)
    fun _ => False := by
  have hmem : i ∈ chains p := by rw [hp]; exact List.mem_cons_self
  unfold freeDesc
  rw [wp_bind, wp_get, if_neg (Nat.not_le.2 (h.lt hmem)),
    if_neg (by rw [h.not_free hmem]; decide), wp_bind, wp_modify]
  unfold wakeup
  rw [wp_modify]
  exact ⟨⟨_, _, _, rfl, fun j hj => update_of_ne hj _ _⟩, h.drop hp⟩

theorem freeAll_spec (h : Owns chains s.disk.free) (hp : chains p = is) :
    Wp (freeAll is) s (fun _ s' => Frees (· ∉ is) s s' ∧ Owns (update chains p []) s'.disk.free)
    fun _ => False := by
  induction is generalizing s chains with
  | nil =>
    unfold freeAll
    rw [wp_pure, ← hp, update_eq_self]
    exact ⟨.refl _ _, h⟩
  | cons i is ih =>
    unfold freeAll
    refine (freeDesc_spec h hp).bind fun _ t ht => ?_
    refine (ih ht.2 (update_self _ _ _)).post fun _ u hu => ⟨?_, ?_⟩
    · exact (ht.1.mono fun j hj e => hj (e ▸ List.mem_cons_self)).trans
        (hu.1.mono fun j hj hmem => hj (List.mem_cons_of_mem _ hmem))
    · have := hu.2
      rwa [update_idem] at this

/-- The descriptors `is` are chained to one another in this order. -/
def Chained (desc : Nat → Desc n) : List Nat → Prop
  | [] => False
  | [i] => (desc i).flags &&& VRING_DESC_F_NEXT = 0
  | i :: j :: is => (desc i).flags &&& VRING_DESC_F_NEXT ≠ 0 ∧ (desc i).next = j ∧ Chained desc (j :: is)

theorem Chained.congr {desc desc' : Nat → Desc n} (h : Chained desc is)
    (he : ∀ i ∈ is, desc' i = desc i) : Chained desc' is := by
  induction is with
  | nil => exact h
  | cons i is ih =>
    cases is with
    | nil =>
      unfold Chained at h ⊢
      rw [he i List.mem_cons_self]
      exact h
    | cons j is =>
      obtain ⟨hf, hn, hrest⟩ := h
      refine ⟨?_, ?_, ih hrest fun k hk => he k (List.mem_cons_of_mem _ hk)⟩
      · rw [he i List.mem_cons_self]
        exact hf
      · rw [he i List.mem_cons_self]
        exact hn

theorem freeChain_spec {passes : Nat} (h : Owns chains s.disk.free) (hp : chains p = i :: is)
    (hc : Chained s.disk.desc (i :: is)) (hpass : is.length < passes) :
    Wp (freeChain passes i) s
      (fun _ s' => Frees (· ∉ i :: is) s s' ∧ Owns (update chains p []) s'.disk.free) fun _ => False := by
  induction is generalizing s chains i passes with
  | nil =>
    obtain ⟨passes, rfl⟩ := Nat.exists_eq_succ_of_ne_zero (Nat.ne_of_gt hpass)
    unfold freeChain
    rw [wp_bind, wp_get]
    refine (freeDesc_spec h hp).bind fun _ t ht => ?_
    have hlast : (s.disk.desc i).flags &&& VRING_DESC_F_NEXT = 0 := hc
    rw [if_neg (not_not.2 hlast), wp_pure]
    exact ⟨ht.1.mono fun j hj e => hj (List.mem_singleton.2 e), ht.2⟩
  | cons j is ih =>
    obtain ⟨passes, rfl⟩ :=
      Nat.exists_eq_succ_of_ne_zero (Nat.ne_of_gt (Nat.lt_of_le_of_lt (Nat.zero_le _) hpass))
    obtain ⟨hf, hn, hrest⟩ := hc
    unfold freeChain
    rw [wp_bind, wp_get]
    refine (freeDesc_spec h hp).bind fun _ t ht => ?_
    rw [if_pos hf, hn]
    have hnot : i ∉ j :: is := by
      have hnd := h.nodup p
      rw [hp] at hnd
      exact (List.nodup_cons.1 hnd).1
    have hrest' : Chained t.disk.desc (j :: is) := by
      obtain ⟨⟨desc, free, asleep, rfl, hkeep⟩, -⟩ := ht
      exact hrest.congr fun k hk => hkeep k fun e => hnot (e ▸ hk)
    refine (ih ht.2 (update_self _ _ _) hrest' (Nat.lt_of_succ_lt_succ hpass)).post fun _ u hu => ⟨?_, ?_⟩
    · exact (ht.1.mono fun k hk e => hk (e ▸ List.mem_cons_self)).trans
        (hu.1.mono fun k hk hmem => hk (List.mem_cons_of_mem _ hmem))
    · have := hu.2
      rwa [update_idem] at this

/-- A pass of `alloc3_desc` by a process with the descriptors `got`. -/
theorem allocPass_spec {got : List Nat} (h : Owns chains s.disk.free) (hp : chains p = got) :
    Wp (allocPass got) s (fun r s' => Frees (· ∉ got) s s' ∧
      match r with
      | none => Owns (update chains p []) s'.disk.free
      | some i => Owns (update chains p (got ++ [i])) s'.disk.free) fun _ => False := by
  unfold allocPass
  refine (allocDesc_spec h p).bind fun r t ht => ?_
  cases r with
  | some i =>
    rw [wp_pure]
    refine ⟨ht.1.mono fun _ _ => trivial, ?_⟩
    have hown := ht.2
    rwa [hp] at hown
  | none =>
    refine (freeAll_spec ht.2 hp).bind fun _ u hu => ?_
    rw [wp_pure]
    exact ⟨(ht.1.mono fun _ _ => trivial).trans hu.1, hu.2⟩

/-- `alloc3_desc` by a process that has no descriptors. -/
theorem alloc3Desc_spec (h : Owns chains s.disk.free) (hp : chains p = []) :
    Wp (alloc3Desc : M m n D _) s (fun r s' => Frees (fun i => ∃ q, i ∈ chains q) s s' ∧
      match r with
      | none => Owns chains s'.disk.free
      | some (i0, i1, i2) => Owns (update chains p [i0, i1, i2]) s'.disk.free) fun _ => False := by
  have hback : update chains p [] = chains := by rw [← hp, update_eq_self]
  -- the descriptors got so far were free before the call
  have hnew : ∀ {got : List Nat} {t : Sys m n D}, Owns (update chains p got) t.disk.free →
      ∀ i, (∃ q, i ∈ chains q) → i ∉ got := by
    intro got t ht i hq hi
    obtain ⟨q, hq⟩ := hq
    have hne : q ≠ p := by
      intro e
      rw [e, hp] at hq
      cases hq
    have := ht.disjoint (p := q) (q := p) (by rw [update_of_ne hne]; exact hq) (by rw [update_self]; exact hi)
    exact hne this
  unfold alloc3Desc
  refine (allocPass_spec h hp).bind fun r0 s0 h0 => ?_
  have hf0 : Frees (fun i => ∃ q, i ∈ chains q) s s0 := h0.1.mono fun i _ => List.not_mem_nil
  cases r0 with
  | none =>
    refine (wp_pure _).2 ⟨hf0, ?_⟩
    have hown := h0.2
    rwa [hback] at hown
  | some i0 =>
    refine (allocPass_spec h0.2 (update_self _ _ _)).bind fun r1 s1 h1 => ?_
    rw [update_idem] at h1
    have hf1 := hf0.trans (h1.1.mono (hnew h0.2))
    cases r1 with
    | none =>
      refine (wp_pure _).2 ⟨hf1, ?_⟩
      have hown := h1.2
      rwa [hback] at hown
    | some i1 =>
      dsimp only at h1 ⊢
      rw [update_idem] at h1
      refine (allocPass_spec h1.2 (update_self _ _ _)).bind fun r2 s2 h2 => ?_
      rw [update_idem] at h2
      have hf2 := hf1.trans (h2.1.mono (hnew h1.2))
      cases r2 with
      | none =>
        refine (wp_pure _).2 ⟨hf2, ?_⟩
        have hown := h2.2
        rwa [hback] at hown
      | some i2 =>
        refine (wp_pure _).2 ⟨hf2, ?_⟩
        dsimp only at h2
        have hown := h2.2
        rwa [update_idem] at hown

end Descriptors

end Xv6.Virtio
