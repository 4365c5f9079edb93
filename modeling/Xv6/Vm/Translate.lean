import Xv6.Vm.Copy
import Xv6.Vm.Map

/-!
# User copies and address translation (`copyin`, `copyout`, `copyinstr` of `kernel/vm.c`)

The abstract view of user memory is one byte at a time: `translate` gives the
physical address of a user address whose leaf PTE has `PTE_V` and `PTE_U`.
The copies go page by page instead, look each page up once and compute the
next address modulo 2^64.

* `copyout_writes`: `copyout` stores to the translated addresses in order, up
  to the first page that is not accessible, and to nothing else.
* `copyinstr_spec`: `copyinstr` stops at the first NUL, at `max` bytes, or at
  the first page that is not accessible.
* `user_copy`: the three routines in terms of `translate`.

`copyout` writes memory in which the table itself lies. That the translation
stays the same while it runs is a property of the table, `UserTable`; for a
table with a user page among its own pages it fails (`selfMapped_copyout`).
-/
namespace Xv6.Vm

/-! ## Translation -/

/-- The byte at a physical address. -/
def Phys.byte (s : Phys) (a : Nat) : UInt8 := (s.mem (a / PGSIZE)).get (a % PGSIZE)

/-- User mode can get at `va`. -/
def Accessible (s : Phys) (pt va : Nat) : Prop :=
  va < MAXVA ∧ leafPte s pt va &&& PTE_V ≠ 0 ∧ leafPte s pt va &&& PTE_U ≠ 0

instance (s : Phys) (pt va : Nat) : Decidable (Accessible s pt va) := inferInstanceAs (Decidable (_ ∧ _ ∧ _))

/-- The physical address of a user address. -/
def translate (s : Phys) (pt va : Nat) : Option Nat :=
  if Accessible s pt va then some (pte2pa (leafPte s pt va) + va % PGSIZE) else none

/-- Physical page 0 is not mapped for the user. -/
def NoPageZero (s : Phys) (pt : Nat) : Prop := ∀ va, Accessible s pt va → pte2pa (leafPte s pt va) ≠ 0

/-- What `walk` returns when it only looks. -/
def slot (s : Phys) (pt va : Nat) : Nat :=
  match descend s.child pt (steps va 2) with
  | some n => n + 8 * px 0 va
  | none => 0

variable {va pt vb i a m max n : Nat} {s t : Phys} {R : Panic → Prop} {src dst : List UInt8}
  {f : Nat → Option UInt8}

theorem walk_slot (hv : va < MAXVA) (s : Phys) (pt : Nat) : walk pt va false s = .ok (slot s pt va, s) := by
  unfold walk
  rw [if_neg (Nat.not_le.2 hv)]
  exact walkFrom_lookup va s 2 pt

theorem leafPte_slot (hv : va < MAXVA) (s : Phys) (pt : Nat) :
    leafPte s pt va = if slot s pt va = 0 then 0 else s.word (slot s pt va) := by
  unfold leafPte
  rw [walk_slot hv]

theorem leafPte_high (hv : MAXVA ≤ va) (s : Phys) (pt : Nat) : leafPte s pt va = 0 := by
  unfold leafPte walk
  rw [if_pos hv]
  rfl

theorem leafPte_page (h : va / PGSIZE = vb / PGSIZE) : leafPte s pt va = leafPte s pt vb := by
  have hmax : va < MAXVA ↔ vb < MAXVA := by
    simp only [MAXVA_eq, PGSIZE] at *
    omega
  have hslot : slot s pt va = slot s pt vb := by
    unfold slot
    rw [show steps va 2 = steps vb 2 by simp [steps, idx, px_congr h], px_congr h 0]
  by_cases hv : va < MAXVA
  · rw [leafPte_slot hv, leafPte_slot (hmax.1 hv), hslot]
  · rw [leafPte_high (Nat.not_lt.1 hv), leafPte_high (Nat.not_lt.1 fun e => hv (hmax.2 e))]

theorem accessible_page (h : va / PGSIZE = vb / PGSIZE) :
    Accessible s pt va ↔ Accessible s pt vb := by
  have hmax : va < MAXVA ↔ vb < MAXVA := by
    simp only [MAXVA_eq, PGSIZE] at *
    omega
  unfold Accessible
  rw [leafPte_page h, hmax]

theorem pgRoundDown_div (va : Nat) : pgRoundDown va / PGSIZE = va / PGSIZE := by
  simp only [pgRoundDown, PGSIZE]
  omega

/-- `walkaddr` is the check on the leaf PTE. -/
theorem pageAt_eq (s : Phys) (pt va : Nat) :
    pageAt s pt va = if Accessible s pt va then pte2pa (leafPte s pt va) else 0 := by
  have hrun : Wp (walkaddr pt va) s
      (fun pa _ => pa = if Accessible s pt va then pte2pa (leafPte s pt va) else 0) fun _ => False := by
    unfold walkaddr
    by_cases hv : MAXVA ≤ va
    · rw [if_pos hv, wp_pure, if_neg (fun e : Accessible s pt va => absurd e.1 (Nat.not_lt.2 hv))]
    have hlow := Nat.not_le.1 hv
    have hleaf := leafPte_slot hlow s pt
    rw [if_neg hv, wp_bind, wp_ok (walk_slot hlow s pt), wp_ite]
    refine ⟨fun h0 => ?_, fun h0 => ?_⟩
    · rw [if_pos h0] at hleaf
      rw [wp_pure, if_neg (fun e : Accessible s pt va => e.2.1 (by rw [hleaf]; exact Nat.zero_and _))]
    rw [if_neg h0] at hleaf
    simp only [wp_bind, wp_load, wp_ite, wp_pure]
    rw [← hleaf]
    refine ⟨fun hV => ?_, fun hV => ⟨fun hU => ?_, fun hU => ?_⟩⟩
    · rw [if_neg (fun e : Accessible s pt va => e.2.1 hV)]
    · rw [if_neg (fun e : Accessible s pt va => e.2.2 hU)]
    · have ha : Accessible s pt va := ⟨hlow, hV, hU⟩
      rw [if_pos ha]
  exact hrun.of_ok (pageAt_spec s pt va).1

theorem pageAt_ne (h : pageAt s pt (pgRoundDown va) ≠ 0) :
    Accessible s pt va ∧ pageAt s pt (pgRoundDown va) = pte2pa (leafPte s pt va) := by
  rw [pageAt_eq, leafPte_page (pgRoundDown_div va)] at h ⊢
  simp only [accessible_page (pgRoundDown_div va)] at h ⊢
  by_cases ha : Accessible s pt va
  · exact ⟨ha, if_pos ha⟩
  · rw [if_neg ha] at h
    exact absurd rfl h

theorem pageAt_zero (h0 : NoPageZero s pt) (h : pageAt s pt (pgRoundDown va) = 0) :
    ¬Accessible s pt va := by
  intro ha
  rw [pageAt_eq, leafPte_page (pgRoundDown_div va), if_pos ((accessible_page (pgRoundDown_div va)).2 ha)] at h
  exact h0 va ha h

theorem translate_some (h : Accessible s pt va) :
    translate s pt va = some (pte2pa (leafPte s pt va) + va % PGSIZE) := if_pos h

theorem translate_isSome : (translate s pt va).isSome ↔ Accessible s pt va := by
  unfold translate
  split <;> simp [*]

/-- The addresses of one page are consecutive. -/
theorem translate_add (ha : Accessible s pt va) (h : va % PGSIZE + i < PGSIZE) :
    translate s pt (va + i) = some (pte2pa (leafPte s pt va) + va % PGSIZE + i) := by
  have hpage : (va + i) / PGSIZE = va / PGSIZE := by
    simp only [PGSIZE] at *
    omega
  have hoff : (va + i) % PGSIZE = va % PGSIZE + i := by
    simp only [PGSIZE] at *
    omega
  rw [translate_some ((accessible_page hpage).2 ha), leafPte_page hpage, hoff, Nat.add_assoc]

theorem byte_add (h : a % PGSIZE + i < PGSIZE) :
    s.byte (a + i) = (s.mem (a / PGSIZE)).get (a % PGSIZE + i) := by
  have h1 : (a + i) / PGSIZE = a / PGSIZE := by
    simp only [PGSIZE] at *
    omega
  have h2 : (a + i) % PGSIZE = a % PGSIZE + i := by
    simp only [PGSIZE] at *
    omega
  rw [Phys.byte, h1, h2]

theorem byte_page {p : Nat} (hp : p % PGSIZE = 0) (hi : i < PGSIZE) :
    s.byte (p + i) = (s.mem (p / PGSIZE)).get i := by
  rw [byte_add (by omega), hp, Nat.zero_add]

/-- User memory is physical memory, translated. -/
theorem userByte_eq (h0 : NoPageZero s pt) (va : Nat) :
    userByte s pt va = (translate s pt va).map s.byte := by
  unfold userByte
  by_cases h : pageAt s pt (pgRoundDown va) = 0
  · have hna := pageAt_zero h0 h
    rw [if_pos h]
    unfold translate
    rw [if_neg hna]
    rfl
  · obtain ⟨ha, he⟩ := pageAt_ne h
    rw [if_neg h, translate_some ha, he, Option.map_some,
      byte_page (pte2pa_aligned _) (Nat.mod_lt _ (by decide))]

/-! ## Stores to user memory -/

/-- A table in which no page of the table is mapped for the user, nor page 0. -/
structure UserTable (s : Phys) (pt : Nat) : Prop where
  root : pt % PGSIZE = 0
  apart : ∀ va a, Accessible s pt va → Node s pt a → a ≠ pte2pa (leafPte s pt va)
  nonzero : NoPageZero s pt

theorem node_aligned (hpt : pt % PGSIZE = 0) (h : Node s pt a) : a % PGSIZE = 0 := by
  obtain ⟨p, -, hp⟩ := h
  induction p using List.reverseRecOn with
  | nil => cases hp; exact hpt
  | append_singleton p i _ =>
    rw [descend_snoc] at hp
    obtain ⟨n, -, hn⟩ := Option.bind_eq_some_iff.1 hp
    unfold Phys.child at hn
    split at hn
    · cases hn
      exact pte2pa_aligned _
    · cases hn

/-- The walk reads the pages of the table only. -/
structure SameWalk (s t : Phys) (pt : Nat) : Prop where
  pte : ∀ va, leafPte t pt va = leafPte s pt va
  node : ∀ a, Node t pt a ↔ Node s pt a

theorem SameWalk.of_pages (hpt : pt % PGSIZE = 0)
    (hm : ∀ a, Node s pt a → t.mem (a / PGSIZE) = s.mem (a / PGSIZE)) : SameWalk s t pt := by
  have hc : ∀ a, Reached s.child pt 1 a → ∀ i, t.child a i = s.child a i := by
    intro a ha i
    have hn : Node s pt a := ha.mono (by omega)
    exact child_congr (node_aligned hpt hn) (hm a hn) i
  refine ⟨fun va => ?_, fun a => reached_congr hc a⟩
  by_cases hv : va < MAXVA
  · have hd : descend t.child pt (steps va 2) = descend s.child pt (steps va 2) :=
      descend_congr hc (by simp [steps])
    rw [leafPte_slot hv, leafPte_slot hv]
    unfold slot
    rw [hd]
    cases hn : descend s.child pt (steps va 2) with
    | none => rw [if_pos rfl, if_pos rfl]
    | some n =>
      have hnode : Node s pt n := ⟨steps va 2, Nat.le_refl 2, hn⟩
      have hw : t.word (n + 8 * px 0 va) = s.word (n + 8 * px 0 va) :=
        word_entry_congr (node_aligned hpt hnode) (hm n hnode) (idx 0 va)
      simp only [hw]
  · rw [leafPte_high (Nat.not_lt.1 hv), leafPte_high (Nat.not_lt.1 hv)]

theorem SameWalk.accessible (h : SameWalk s t pt) (va : Nat) :
    Accessible t pt va ↔ Accessible s pt va := by
  unfold Accessible
  rw [h.pte va]

theorem SameWalk.translate (h : SameWalk s t pt) (va : Nat) :
    translate t pt va = translate s pt va := by
  unfold Vm.translate
  simp only [h.accessible va, h.pte va]

theorem SameWalk.user (h : SameWalk s t pt) (hu : UserTable s pt) : UserTable t pt := by
  refine ⟨hu.root, fun va a ha hn => ?_, fun va ha => ?_⟩
  · rw [h.pte va]
    exact hu.apart va a ((h.accessible va).1 ha) ((h.node a).1 hn)
  · rw [h.pte va]
    exact hu.nonzero va ((h.accessible va).1 ha)

/-- The memory after `memmove(a, bytes)`. -/
def Phys.storeAt (s : Phys) (a : Nat) (bytes : List UInt8) : Phys :=
  s.setPage a ((s.mem (a / PGSIZE)).splice (a % PGSIZE) bytes.length fun i => bytes.getD i 0)

@[simp] theorem wp_storeBytes (a : Nat) (bytes : List UInt8) {Q : Unit → Phys → Prop} :
    Wp (storeBytes a bytes) s Q R ↔ Q () (s.storeAt a bytes) := wp_ok rfl

theorem byte_storeAt (s : Phys) (a : Nat) (bytes : List UInt8)
    (h : a % PGSIZE + bytes.length ≤ PGSIZE) (b : Nat) :
    (s.storeAt a bytes).byte b = if a ≤ b ∧ b < a + bytes.length then bytes.getD (b - a) 0 else s.byte b := by
  unfold Phys.byte Phys.storeAt Phys.setPage
  by_cases hp : b / PGSIZE = a / PGSIZE
  · simp only [hp, Function.update_self, Bytes.get_splice]
    have hin : (a % PGSIZE ≤ b % PGSIZE ∧ b % PGSIZE < a % PGSIZE + bytes.length ∧ b % PGSIZE < PGSIZE) ↔
        (a ≤ b ∧ b < a + bytes.length) := by
      simp only [PGSIZE] at *
      omega
    have hoff : a ≤ b → b % PGSIZE - a % PGSIZE = b - a := by
      simp only [PGSIZE] at *
      omega
    simp only [hin]
    split
    · rename_i hab
      rw [hoff hab.1]
    · rfl
  · have hout : ¬(a ≤ b ∧ b < a + bytes.length) := by
      simp only [PGSIZE] at *
      omega
    simp only [Function.update_of_ne hp]
    rw [if_neg hout]

theorem SameWalk.storeAt (hu : UserTable s pt) (ha : Accessible s pt va) (hi : i < PGSIZE)
    (bytes : List UInt8) : SameWalk s (s.storeAt (pte2pa (leafPte s pt va) + i) bytes) pt := by
  refine SameWalk.of_pages hu.root fun a hn => ?_
  have hpa := pte2pa_aligned (leafPte s pt va)
  refine Phys.mem_setPage_ne _ _ ?_
  have hpage : (pte2pa (leafPte s pt va) + i) / PGSIZE = pte2pa (leafPte s pt va) / PGSIZE := by
    generalize pte2pa (leafPte s pt va) = p at *
    simp only [PGSIZE] at *
    omega
  rw [hpage]
  exact page_ne (node_aligned hu.root hn) hpa (hu.apart va a ha hn)

/-- What `copyout` of `src` to `va` leaves, `k` bytes having been stored. -/
structure Wrote (s s' : Phys) (pt va : Nat) (src : List UInt8) (k : Nat) : Prop where
  kept : s' = { s with mem := s'.mem }
  walk : SameWalk s s' pt
  le : k ≤ src.length
  reach : ∀ i, i < k → Accessible s pt (va + i)
  stop : k < src.length → ¬Accessible s pt (va + k)
  /-- the last byte stored to an address stays there -/
  hit : ∀ i, i < k → (∀ j, i < j → j < k → translate s pt (va + j) ≠ translate s pt (va + i)) →
    ∀ a, translate s pt (va + i) = some a → src[i]? = some (s'.byte a)
  miss : ∀ a, (∀ i, i < k → translate s pt (va + i) ≠ some a) → s'.byte a = s.byte a

theorem Wrote.nil (s : Phys) (pt va : Nat) (h : 0 < src.length → ¬Accessible s pt va) :
    Wrote s s pt va src 0 :=
  ⟨rfl, ⟨fun _ => rfl, fun _ => Iff.rfl⟩, Nat.zero_le _, fun i hi => absurd hi (Nat.not_lt_zero i), h,
    fun i hi => absurd hi (Nat.not_lt_zero i), fun _ _ => rfl⟩

/-- One store, to a single page. -/
theorem Wrote.storeAt {bytes : List UInt8} (hu : UserTable s pt) (ha : Accessible s pt va)
    (h : va % PGSIZE + bytes.length ≤ PGSIZE) :
    Wrote s (s.storeAt (pte2pa (leafPte s pt va) + va % PGSIZE) bytes) pt va bytes bytes.length := by
  have htr : ∀ i, i < bytes.length →
      translate s pt (va + i) = some (pte2pa (leafPte s pt va) + va % PGSIZE + i) :=
    fun i hi => translate_add ha (by omega)
  have hbyte := byte_storeAt s (pte2pa (leafPte s pt va) + va % PGSIZE) bytes (by
    have hpa := pte2pa_aligned (leafPte s pt va)
    generalize pte2pa (leafPte s pt va) = p at *
    simp only [PGSIZE] at *
    omega)
  refine ⟨rfl, SameWalk.storeAt hu ha (Nat.mod_lt _ (by decide)) _, Nat.le_refl _, fun i hi => ?_,
    fun hlt => absurd hlt (Nat.lt_irrefl _), fun i hi _ a hia => ?_, fun a hno => ?_⟩
  · rw [← translate_isSome, htr i hi]
    rfl
  · rw [htr i hi] at hia
    cases hia
    rw [hbyte, if_pos ⟨by omega, by omega⟩, Nat.add_sub_cancel_left, List.getD_eq_getElem?_getD,
      List.getElem?_eq_getElem hi]
    rfl
  · rw [hbyte, if_neg]
    intro hin
    refine hno (a - (pte2pa (leafPte s pt va) + va % PGSIZE)) (by omega) ?_
    rw [htr _ (by omega), Nat.add_sub_cancel' hin.1]

theorem Wrote.all_iff {s' : Phys} {k : Nat} (h : Wrote s s' pt va src k) :
    k = src.length ↔ ∀ i, i < src.length → Accessible s pt (va + i) := by
  refine ⟨fun e i hi => h.reach i (e ▸ hi), fun hall => ?_⟩
  by_contra hne
  have hlt := Nat.lt_of_le_of_ne h.le hne
  exact h.stop hlt (hall _ hlt)

/-- Two stores, the second one right after the first. -/
theorem Wrote.append {s t s' : Phys} {pt va k : Nat} {src rest : List UInt8}
    (h : Wrote s t pt va src src.length)
    (h' : Wrote t s' pt (va + src.length) rest k) : Wrote s s' pt va (src ++ rest) (src.length + k) := by
  have hw := h.walk
  have hrest := h'.le
  have hnext : ∀ j, src.length ≤ j → va + src.length + (j - src.length) = va + j := fun j hj => by omega
  refine ⟨?_, ⟨fun vb => (h'.walk.pte vb).trans (hw.pte vb), fun a => (h'.walk.node a).trans (hw.node a)⟩,
    by rw [List.length_append]; omega, fun i hi => ?_, fun hlt => ?_, fun i hi hlast a hia => ?_,
    fun a hno => ?_⟩
  · rw [h'.kept, h.kept]
  · by_cases him : i < src.length
    · exact h.reach i him
    · have := h'.reach (i - src.length) (by omega)
      rwa [hnext i (by omega), hw.accessible] at this
  · rw [List.length_append] at hlt
    have := h'.stop (by omega)
    rwa [hw.accessible, Nat.add_assoc] at this
  · by_cases him : i < src.length
    · have hkeep : s'.byte a = t.byte a := by
        refine h'.miss a fun j hj e => ?_
        rw [hw.translate, Nat.add_assoc] at e
        exact hlast (src.length + j) (by omega) (by omega) (e.trans hia.symm)
      rw [hkeep, List.getElem?_append_left him]
      exact h.hit i him (fun j hj hjk => hlast j hj (by omega)) a hia
    · rw [List.getElem?_append_right (by omega)]
      refine h'.hit (i - src.length) (by omega) (fun j hj hjk => ?_) a
        (by rw [hw.translate, hnext i (by omega)]; exact hia)
      rw [hw.translate, hw.translate, hnext i (by omega), Nat.add_assoc]
      exact hlast (src.length + j) (by omega) (by omega)
  · rw [h'.miss a fun j hj => ?_]
    · exact h.miss a fun i hi => hno i (by omega)
    · rw [hw.translate, Nat.add_assoc]
      exact hno (src.length + j) (by omega)

/-- The bytes that have been stored. -/
theorem Wrote.take {s s' : Phys} {pt va k : Nat} {src : List UInt8} (h : Wrote s s' pt va src k) :
    Wrote s s' pt va (src.take k) k := by
  have hle := h.le
  refine ⟨h.kept, h.walk, by rw [List.length_take]; omega, h.reach, fun hlt => ?_,
    fun i hi hlast a hia => ?_, h.miss⟩
  · rw [List.length_take] at hlt
    omega
  · rw [List.getElem?_take_of_lt hi]
    exact h.hit i hi hlast a hia

/-- Stores to consecutive addresses from `va` on, `n` of them if all went well. -/
structure Stored (va n : Nat) (r : List Nat × Bool) : Prop where
  le : r.1.length ≤ n
  eq : r.1 = (List.range r.1.length).map (va + ·)
  ok : r.2 = true ↔ r.1.length = n
  low : r.1.length ≠ 0 → va + r.1.length < 2 ^ 39

theorem Stored.nil (va : Nat) : Stored va 0 ([], true) := ⟨Nat.le_refl _, rfl, by simp, fun h => absurd rfl h⟩

theorem Stored.page {r : List Nat × Bool} (hle : k ≤ n) (hlow : va + k < 2 ^ 39)
    (h : Stored (va + k) (n - k) r) : Stored va n ((List.range k).map (va + ·) ++ r.1, r.2) := by
  have hlen : ((List.range k).map (va + ·) ++ r.1).length = k + r.1.length := by simp
  have hrest := h.le
  have hlast := h.low
  refine ⟨by rw [hlen]; omega, ?_, by rw [hlen, h.ok]; omega, fun _ => by rw [hlen]; omega⟩
  rw [hlen, List.range_add, List.map_append, List.map_map]
  rw [h.eq]
  simp [Nat.add_assoc, Function.comp_def]

theorem copyoutLoop_nil (pt passes va : Nat) (h : src.length = 0) :
    copyoutLoop pt passes va src = pure ([], true) := by
  cases passes with
  | zero => rfl
  | succ passes => exact if_pos h

theorem copyoutLoop_spec (pt : Nat) (passes : Nat) : ∀ {s : Phys} {va : Nat} {src : List UInt8},
    src.length ≤ passes → Wp (copyoutLoop pt passes va src) s (fun r s' => Stored va src.length r ∧
      (UserTable s pt → Wrote s s' pt va src r.1.length)) R := by
  induction passes with
  | zero =>
    intro s va src hn
    have h0 := Nat.le_zero.1 hn
    rw [copyoutLoop_nil pt 0 va h0, wp_pure, h0]
    exact ⟨Stored.nil va, fun _ => Wrote.nil s pt va fun h => absurd h (by omega)⟩
  | succ passes ih =>
    intro s va src hn
    by_cases h0 : src.length = 0
    · rw [copyoutLoop_nil pt _ va h0, wp_pure, h0]
      exact ⟨Stored.nil va, fun _ => Wrote.nil s pt va fun h => absurd h (by omega)⟩
    unfold copyoutLoop
    rw [if_neg h0, wp_bind, wp_walkaddr, wp_ite]
    refine ⟨fun hpa => ?_, fun hpa => ?_⟩
    · rw [wp_pure]
      refine ⟨⟨Nat.zero_le _, rfl, ?_, fun h => absurd rfl h⟩, fun hu => Wrote.nil s pt va fun _ =>
        pageAt_zero hu.nonzero hpa⟩
      simp only [List.length_nil, Bool.false_eq_true, false_iff]
      exact Ne.symm h0
    generalize hm : min (PGSIZE - (va - pgRoundDown va)) src.length = m
    have hp := pagePass hpa hm
    obtain ⟨ha, he⟩ := pageAt_ne hpa
    have hpos := hp.pos h0
    have hdrop : (src.drop m).length = src.length - m := List.length_drop
    have htake : (src.take m).length = m := List.length_take_of_le hp.le
    have hnext : copyoutLoop pt passes ((pgRoundDown va + PGSIZE) % 2 ^ 64) (src.drop m) =
        copyoutLoop pt passes (va + m) (src.drop m) := by
      by_cases hlast : src.length - m = 0
      · rw [copyoutLoop_nil _ _ _ (hdrop.trans hlast), copyoutLoop_nil _ _ _ (hdrop.trans hlast)]
      · rw [hp.next hlast]
    rw [wp_bind, wp_storeBytes, he, hp.start, hnext]
    refine (ih (by omega)).bind fun r s' h => ?_
    rw [wp_pure, List.length_append, List.length_map, List.length_range]
    refine ⟨Stored.page hp.le hp.low (hdrop ▸ h.1), fun hu => ?_⟩
    have hone := Wrote.storeAt hu ha (hp.page.trans_eq' (by rw [htake]))
    have hall := hone.append (by rw [htake]; exact h.2 (hone.walk.user hu))
    rwa [htake, List.take_append_drop] at hall

/-- What `copyout` has stored, and where if the table is a user table. -/
theorem copyout_spec (s : Phys) (pt va : Nat) (src : List UInt8) : Wp (copyout pt va src) s (fun r s' =>
    Stored va src.length r ∧ (UserTable s pt → Wrote s s' pt va src r.1.length)) R :=
  copyoutLoop_spec pt src.length (Nat.le_refl _)

theorem copyout_writes (hu : UserTable s pt) (va : Nat) (src : List UInt8) :
    Wp (copyout pt va src) s (fun r s' => Wrote s s' pt va src r.1.length ∧
      (r.2 = true ↔ r.1.length = src.length)) R :=
  (copyout_spec s pt va src).post fun _ _ h => ⟨h.2 hu, h.1.ok⟩

/-! ## Strings -/

def loadByte (a : Nat) : M UInt8 := fun s => .ok (s.byte a, s)

@[simp] theorem wp_loadByte (a : Nat) {Q : UInt8 → Phys → Prop} :
    Wp (loadByte a) s Q R ↔ Q (s.byte a) s := wp_ok rfl

/-- The inner loop of `copyinstr`: at most `n` bytes from `p` on, and whether
it met the NUL.
mirrors kernel/vm.c:417-430 -/
def copyinstrPage : Nat → Nat → M (List UInt8 × Bool)
  | 0, _ => pure ([], false)
  | n + 1, p => do
    let c ← loadByte p
    if c = 0 then pure ([0], true)
    else do
      let rest ← copyinstrPage n (p + 1)
      pure (c :: rest.1, rest.2)

/-- What `copyinstr` has stored to `dst`, the user pages it has looked up, and
whether it returns 0. -/
structure Str where
  dst : List UInt8
  pages : List Nat
  ok : Bool

/-- mirrors kernel/vm.c:408-433; a page without a NUL uses up `n` of `max` -/
def copyinstrLoop (pagetable : Nat) : Nat → Nat → Nat → M Str
  | 0, _, _ => pure ⟨[], [], false⟩
  | passes + 1, srcva, max =>
    if max = 0 then pure ⟨[], [], false⟩
    else do
      let va0 := pgRoundDown srcva
      let pa0 ← walkaddr pagetable va0
      if pa0 = 0 then pure ⟨[], [va0], false⟩
      else do
        let n := min (PGSIZE - (srcva - va0)) max
        let (bytes, gotNull) ← copyinstrPage n (pa0 + (srcva - va0))
        if gotNull then pure ⟨bytes, [va0], true⟩
        else do
          let rest ← copyinstrLoop pagetable passes ((va0 + PGSIZE) % 2 ^ 64) (max - n)
          pure ⟨bytes ++ rest.dst, va0 :: rest.pages, rest.ok⟩

/-- mirrors kernel/vm.c:398-439 -/
def copyinstr (pagetable srcva max : Nat) : M Str := copyinstrLoop pagetable max srcva max

/-- What a copy of the string `f` stores: the bytes up to the first NUL, the
first that is missing, or `max`. -/
structure StrCopy (f : Nat → Option UInt8) (max : Nat) (dst : List UInt8) (ok : Bool) : Prop where
  le : dst.length ≤ max
  bytes : ∀ i, i < dst.length → f i = dst[i]?
  body : ∀ i, i + ok.toNat < dst.length → f i ≠ some 0
  nul : ok = true → 0 < dst.length ∧ f (dst.length - 1) = some 0
  stop : ok = false → dst.length < max → f dst.length = none

theorem StrCopy.nil (f : Nat → Option UInt8) (h : 0 < max → f 0 = none) : StrCopy f max [] false :=
  ⟨Nat.zero_le _, fun i hi => absurd hi (Nat.not_lt_zero i), fun i hi => absurd hi (Nat.not_lt_zero _),
    (fun h => by cases h), fun _ => h⟩

/-- Bytes that are not NUL in front of a string. -/
theorem StrCopy.append (pre : List UInt8) {ok : Bool} (hm : pre.length = m)
    (hle : m ≤ max) (hb : ∀ i, i < m → f i = pre[i]?) (hne : ∀ i, i < m → f i ≠ some 0)
    (h : StrCopy (fun i => f (m + i)) (max - m) dst ok) : StrCopy f max (pre ++ dst) ok := by
  have hlen : (pre ++ dst).length = m + dst.length := by rw [List.length_append, hm]
  have hrest := h.le
  refine ⟨by rw [hlen]; omega, fun i hi => ?_, fun i hi => ?_, fun ho => ?_, fun ho hlt => ?_⟩
  · rw [hlen] at hi
    by_cases him : i < m
    · rw [hb i him, List.getElem?_append_left (by omega)]
    · rw [List.getElem?_append_right (by omega), hm, ← h.bytes (i - m) (by omega),
        Nat.add_sub_cancel' (by omega)]
  · rw [hlen] at hi
    by_cases him : i < m
    · exact hne i him
    · have := h.body (i - m) (by omega)
      rwa [Nat.add_sub_cancel' (by omega)] at this
  · obtain ⟨h1, h2⟩ := h.nul ho
    rw [hlen]
    refine ⟨by omega, ?_⟩
    rwa [Nat.add_sub_assoc (by omega)]
  · rw [hlen] at hlt ⊢
    exact h.stop ho (by omega)

/-- A string that ends early is not cut by a larger bound. -/
theorem StrCopy.widen {g : Nat → Option UInt8} (h : StrCopy f n dst true) (hle : n ≤ max)
    (hfg : ∀ i, i < n → g i = f i) : StrCopy g max dst true := by
  have hlen := h.le
  obtain ⟨h1, h2⟩ := h.nul rfl
  refine ⟨by omega, fun i hi => ?_, fun i hi => ?_, fun _ => ⟨h1, ?_⟩, fun h => by cases h⟩
  · rw [hfg i (by omega)]
    exact h.bytes i hi
  · rw [hfg i (by omega)]
    exact h.body i hi
  · rw [hfg _ (by omega)]
    exact h2

theorem copyinstrPage_spec (s : Phys) (n : Nat) : ∀ p, Wp (copyinstrPage n p) s
    (fun r s' => s' = s ∧ StrCopy (fun i => some (s.byte (p + i))) n r.1 r.2) R := by
  induction n with
  | zero =>
    intro p
    unfold copyinstrPage
    rw [wp_pure]
    exact ⟨rfl, StrCopy.nil _ (fun h => absurd h (Nat.lt_irrefl 0))⟩
  | succ n ih =>
    intro p
    unfold copyinstrPage
    rw [wp_bind, wp_loadByte, wp_ite]
    refine ⟨fun h0 => ?_, fun h0 => ?_⟩
    · rw [wp_pure]
      refine ⟨rfl, by simp, fun i hi => ?_, fun i hi => ?_, fun _ => ⟨by simp, by simp [h0]⟩,
        fun h => by cases h⟩
      · simp only [List.length_singleton, Nat.lt_one_iff] at hi
        subst hi
        simp [h0]
      · simp at hi
    · refine (ih (p + 1)).bind fun r s' h => ?_
      obtain ⟨rfl, hr⟩ := h
      rw [wp_pure]
      refine ⟨rfl, StrCopy.append [s'.byte p] (m := 1) rfl (by omega) (fun i hi => ?_) (fun i hi => ?_) ?_⟩
      · simp only [Nat.lt_one_iff] at hi
        subst hi
        rfl
      · simp only [Nat.lt_one_iff] at hi
        subst hi
        simpa using h0
      · simpa only [Nat.add_assoc, Nat.add_sub_cancel] using hr

theorem copyinstrLoop_zero (pt passes va : Nat) : copyinstrLoop pt passes va 0 = pure ⟨[], [], false⟩ := by
  cases passes with
  | zero => rfl
  | succ passes => exact if_pos rfl

/-- The string at `va`, and no page looked up beyond its end. -/
structure StrRead (s : Phys) (pt va max : Nat) (r : Str) : Prop where
  copy : StrCopy (fun i => userByte s pt (va + i)) max r.dst r.ok
  pages : ∀ p ∈ r.pages, p + r.ok.toNat ≤ va + r.dst.length

theorem copyinstrLoop_spec (s : Phys) (pt : Nat) (passes : Nat) : ∀ {va max : Nat}, max ≤ passes →
    Wp (copyinstrLoop pt passes va max) s (fun r s' => s' = s ∧ StrRead s pt va max r) R := by
  have hzero : ∀ va, StrRead s pt va 0 ⟨[], [], false⟩ := fun va =>
    ⟨StrCopy.nil _ (fun h => absurd h (Nat.lt_irrefl 0)), fun p hp => by cases hp⟩
  induction passes with
  | zero =>
    intro va max hn
    rw [Nat.le_zero.1 hn, copyinstrLoop_zero, wp_pure]
    exact ⟨rfl, hzero va⟩
  | succ passes ih =>
    intro va max hn
    have hdown : pgRoundDown va ≤ va := by
      unfold pgRoundDown PGSIZE
      omega
    by_cases h0 : max = 0
    · rw [h0, copyinstrLoop_zero, wp_pure]
      exact ⟨rfl, hzero va⟩
    unfold copyinstrLoop
    rw [if_neg h0, wp_bind, wp_walkaddr, wp_ite]
    refine ⟨fun hpa => ?_, fun hpa => ?_⟩
    · rw [wp_pure]
      refine ⟨rfl, StrCopy.nil _ (fun _ => userByte_none hpa), fun p hp => ?_⟩
      rw [List.mem_singleton.1 hp]
      simpa using hdown
    generalize hm : min (PGSIZE - (va - pgRoundDown va)) max = m
    have hp := pagePass hpa hm
    have hpos := hp.pos h0
    have hpage := hp.page
    have hle := hp.le
    have hbyte : ∀ i, i < m → userByte s pt (va + i) =
        some (s.byte (pageAt s pt (pgRoundDown va) + (va - pgRoundDown va) + i)) := by
      intro i hi
      have hal := (pageAt_spec s pt (pgRoundDown va)).2.1
      rw [userByte_page hpa (by omega), byte_add]
      rw [hp.start]
      simp only [PGSIZE] at *
      omega
    have hnext : copyinstrLoop pt passes ((pgRoundDown va + PGSIZE) % 2 ^ 64) (max - m) =
        copyinstrLoop pt passes (va + m) (max - m) := by
      by_cases hlast : max - m = 0
      · rw [hlast, copyinstrLoop_zero, copyinstrLoop_zero]
      · rw [hp.next hlast]
    refine (copyinstrPage_spec s m _).bind fun r s' h => ?_
    obtain ⟨rfl, hr⟩ := h
    obtain ⟨bytes, got⟩ := r
    cases got with
    | true =>
      dsimp only
      rw [if_pos rfl, wp_pure]
      refine ⟨rfl, hr.widen (by omega) hbyte, fun p hp => ?_⟩
      have hpos := (hr.nul rfl).1
      rw [List.mem_singleton.1 hp]
      simp only [Bool.toNat_true] at *
      omega
    | false =>
      have hlen : bytes.length = m := by
        have hle := hr.le
        have hstop := hr.stop rfl
        simp only [reduceCtorEq, imp_false] at hstop
        simp only at hle
        omega
      dsimp only
      rw [if_neg (by simp), hnext]
      refine (ih (by omega)).bind fun r t h => ?_
      obtain ⟨rfl, hr2⟩ := h
      rw [wp_pure]
      refine ⟨rfl, StrCopy.append bytes hlen (by omega) (fun i hi => ?_) (fun i hi => ?_) ?_, fun p hp => ?_⟩
      · rw [hbyte i hi, ← hr.bytes i (by simpa [hlen] using hi)]
      · rw [hbyte i hi]
        exact hr.body i (by simpa [hlen] using hi)
      · simpa only [Nat.add_assoc] using hr2.copy
      · simp only [List.length_append, hlen]
        rcases List.mem_cons.1 hp with e | hp
        · cases hro : r.ok with
          | false => simp only [Bool.toNat_false]; omega
          | true =>
            simp only [Bool.toNat_true]
            omega
        · have := hr2.pages p hp
          omega

theorem copyinstr_spec (s : Phys) (pt va max : Nat) :
    Wp (copyinstr pt va max) s (fun r s' => s' = s ∧ StrRead s pt va max r) R :=
  copyinstrLoop_spec s pt max (Nat.le_refl max)

/-! ## The three routines -/

theorem accessible_of_byte {b : UInt8} (h : (translate s pt va).map s.byte = some b) :
    Accessible s pt va := by
  obtain ⟨a, ha, -⟩ := Option.map_eq_some_iff.1 h
  rw [← translate_isSome, ha]
  rfl

theorem copied_ok {r : List UInt8 × Bool} (h0 : NoPageZero s pt) (h : Copied s pt va n r) :
    (r.2 = true ↔ ∀ i, i < n → Accessible s pt (va + i)) ∧
    (r.2 = true → r.1.length = n ∧ ∀ i, i < n → (translate s pt (va + i)).map s.byte = r.1[i]?) := by
  have hacc : ∀ i, i < r.1.length → Accessible s pt (va + i) := by
    intro i hi
    have hb := h.bytes i hi
    rw [userByte_eq h0, List.getElem?_eq_getElem hi] at hb
    exact accessible_of_byte hb
  refine ⟨⟨fun hok i hi => hacc i (by rw [h.ok.1 hok]; exact hi), fun hall => ?_⟩,
    fun hok => ⟨h.ok.1 hok, fun i hi => ?_⟩⟩
  · by_contra hno
    have hlt : r.1.length < n := Nat.lt_of_le_of_ne h.le fun e => hno (h.ok.2 e)
    have hstop := h.stop hlt
    rw [userByte_eq h0, translate_some (hall _ hlt)] at hstop
    cases hstop
  · rw [← userByte_eq h0]
    exact h.bytes i (by rw [h.ok.1 hok]; exact hi)

theorem strRead_ok {r : Str} (h0 : NoPageZero s pt) (h : StrRead s pt va max r) :
    (r.ok = true ↔ ∃ k, k < max ∧ (∀ i, i ≤ k → Accessible s pt (va + i)) ∧
      (translate s pt (va + k)).map s.byte = some 0) ∧
    (r.ok = true → ∃ k, r.dst.length = k + 1 ∧ (translate s pt (va + k)).map s.byte = some 0 ∧
      (∀ i, i < k → (translate s pt (va + i)).map s.byte ≠ some 0) ∧
      (∀ i, i ≤ k → (translate s pt (va + i)).map s.byte = r.dst[i]?) ∧ ∀ p ∈ r.pages, p ≤ va + k) := by
  have hcopy := h.copy
  simp only [userByte_eq h0] at hcopy
  have hfound : r.ok = true → ∃ k, r.dst.length = k + 1 ∧ (translate s pt (va + k)).map s.byte = some 0 ∧
      (∀ i, i < k → (translate s pt (va + i)).map s.byte ≠ some 0) ∧
      (∀ i, i ≤ k → (translate s pt (va + i)).map s.byte = r.dst[i]?) ∧ ∀ p ∈ r.pages, p ≤ va + k := by
    intro hok
    obtain ⟨hpos, hnul⟩ := hcopy.nul hok
    refine ⟨r.dst.length - 1, by omega, hnul, fun i hi => hcopy.body i ?_,
      fun i hi => hcopy.bytes i (by omega), fun p hp => ?_⟩
    · rw [hok, Bool.toNat_true]
      omega
    · have := h.pages p hp
      rw [hok, Bool.toNat_true] at this
      omega
  refine ⟨⟨fun hok => ?_, fun ⟨k, hk, hacc, hnul⟩ => ?_⟩, hfound⟩
  · obtain ⟨k, hlen, hnul, -, hb, -⟩ := hfound hok
    have hle := hcopy.le
    refine ⟨k, by omega, fun i hi => ?_, hnul⟩
    have hi' := hb i hi
    rw [List.getElem?_eq_getElem (by omega)] at hi'
    exact accessible_of_byte hi'
  · -- had it stopped without a NUL, it would have copied byte `k` or found it inaccessible
    by_contra hno
    have hf : r.ok = false := by simpa using hno
    have hlen : r.dst.length ≤ k := by
      by_contra hlt
      refine hcopy.body k ?_ hnul
      rw [hf, Bool.toNat_false]
      omega
    have hstop := hcopy.stop hf (by omega)
    rw [translate_some (hacc _ hlen)] at hstop
    cases hstop

/-- **User copies agree with byte-wise translation.** `copyin` returns 0
exactly if every byte of the range can be translated, and has then read those
bytes; likewise `copyout`, whose stores then hit the translated addresses and
no others; `copyinstr` returns 0 exactly if a NUL comes within `max` bytes with
every byte up to it accessible. Nothing at or above `MAXVA` is accessible. -/
theorem user_copy {s : Phys} {pt : Nat} (h0 : NoPageZero s pt) :
    (∀ srcva len, ∃ dst ok, copyin pt srcva len s = .ok ((dst, ok), s) ∧
      (ok = true ↔ ∀ i, i < len → Accessible s pt (srcva + i)) ∧
      (ok = true → dst.length = len ∧ ∀ i, i < len → (translate s pt (srcva + i)).map s.byte = dst[i]?) ∧
      (0 < len → MAXVA < srcva + len → ok = false)) ∧
    (UserTable s pt → ∀ dstva src, ∃ stored ok s', copyout pt dstva src s = .ok ((stored, ok), s') ∧
      (ok = true ↔ ∀ i, i < src.length → Accessible s pt (dstva + i)) ∧
      (ok = true → s' = { s with mem := s'.mem } ∧
        (∀ i, i < src.length →
          (∀ j, i < j → j < src.length → translate s pt (dstva + j) ≠ translate s pt (dstva + i)) →
          (translate s pt (dstva + i)).map s'.byte = src[i]?) ∧
        ∀ a, (∀ i, i < src.length → translate s pt (dstva + i) ≠ some a) → s'.byte a = s.byte a) ∧
      (0 < src.length → MAXVA < dstva + src.length → ok = false)) ∧
    (∀ srcva max, ∃ r, copyinstr pt srcva max s = .ok (r, s) ∧ r.dst.length ≤ max ∧
      (r.ok = true ↔ ∃ k, k < max ∧ (∀ i, i ≤ k → Accessible s pt (srcva + i)) ∧
        (translate s pt (srcva + k)).map s.byte = some 0) ∧
      (r.ok = true → ∃ k, r.dst.length = k + 1 ∧ (translate s pt (srcva + k)).map s.byte = some 0 ∧
        (∀ i, i < k → (translate s pt (srcva + i)).map s.byte ≠ some 0) ∧
        (∀ i, i ≤ k → (translate s pt (srcva + i)).map s.byte = r.dst[i]?) ∧ ∀ p ∈ r.pages, p ≤ srcva + k) ∧
      ((∀ i, i < max → srcva + i < MAXVA → (translate s pt (srcva + i)).map s.byte ≠ some 0) →
        r.ok = false)) := by
  -- a range that reaches past `MAXVA` has a last byte that is not accessible
  have hpast : ∀ va n, 0 < n → MAXVA < va + n → ¬∀ i, i < n → Accessible s pt (va + i) := by
    intro va n hn hv hall
    have := (hall (n - 1) (by omega)).1
    omega
  refine ⟨fun srcva len => ?_, fun hu dstva src => ?_, fun srcva max => ?_⟩
  · obtain ⟨r, s', hrun, rfl, hr⟩ := (copyin_spec s pt srcva len (R := fun _ => False)).returns
    obtain ⟨hok, hbytes⟩ := copied_ok h0 hr
    refine ⟨r.1, r.2, hrun, hok, hbytes, fun hn hv => ?_⟩
    by_contra hne
    exact hpast srcva len hn hv (hok.1 (by simpa using hne))
  · obtain ⟨r, s', hrun, hw, hlen⟩ := (copyout_writes hu dstva src (R := fun _ => False)).returns
    have hok := hlen.trans hw.all_iff
    refine ⟨r.1, r.2, s', hrun, hok, fun ho => ?_, fun hn hv => ?_⟩
    · have hk := hlen.1 ho
      have hhit := hw.hit
      have hmiss := hw.miss
      rw [hk] at hhit hmiss
      refine ⟨hw.kept, fun i hi hlast => ?_, hmiss⟩
      obtain ⟨a, ha⟩ := Option.isSome_iff_exists.1 (translate_isSome.2 (hok.1 ho i hi))
      rw [ha, hhit i hi hlast a ha]
      rfl
    · by_contra hne
      exact hpast dstva src.length hn hv (hok.1 (by simpa using hne))
  · obtain ⟨r, s', hrun, rfl, hr⟩ := (copyinstr_spec s pt srcva max (R := fun _ => False)).returns
    obtain ⟨hok, hfound⟩ := strRead_ok h0 hr
    refine ⟨r, hrun, hr.copy.le, hok, hfound, fun hno => ?_⟩
    by_contra hne
    obtain ⟨k, hk, hacc, hnul⟩ := hok.1 (by simpa using hne)
    exact hno k hk (hacc k (Nat.le_refl k)).1 hnul

/-! ## A table of three pages -/

/-- A table of the pages 0x80010000, 0x80011000 and 0x80012000 with one leaf
PTE, for page `i` of the address space. -/
def threePages (i : Fin 512) (pte : Nat) : Phys where
  mem := (((Phys.mk (fun _ => Bytes.zero) [] [] 0x80010000).setWord
    0x80010000 (pa2pte 0x80011000 ||| PTE_V)).setWord
    0x80011000 (pa2pte 0x80012000 ||| PTE_V)).setWord (0x80012000 + 8 * i) pte |>.mem
  freelist := []
  refuse := []
  kend := 0x80010000

theorem word_threePages {i : Fin 512} {pte : Nat} (hp : pte < 256 ^ 8) (ha : a % 8 = 0) :
    (threePages i pte).word a = if a = 0x80012000 + 8 * i then pte
    else if a = 0x80011000 then pa2pte 0x80012000 ||| PTE_V
    else if a = 0x80010000 then pa2pte 0x80011000 ||| PTE_V else 0 := by
  have hi : (0x80012000 + 8 * i.1) % 8 = 0 := by omega
  unfold threePages
  show (Phys.setWord _ _ _).word a = _
  split
  · rename_i e
    rw [e, Phys.word_setWord _ hi hp]
  rename_i e
  rw [Phys.word_setWord_ne _ _ hi ha e]
  split
  · rename_i e1
    rw [e1, Phys.word_setWord _ (by decide) (by decide)]
  rename_i e1
  rw [Phys.word_setWord_ne _ _ (by decide) ha e1]
  split
  · rename_i e2
    rw [e2, Phys.word_setWord _ (by decide) (by decide)]
  rename_i e2
  rw [Phys.word_setWord_ne _ _ (by decide) ha e2]
  exact Bytes.getLE_zero _ _

section ThreePages
variable {i : Fin 512} {pte : Nat}

/-- A page of the table of which only the first PTE is not zero. -/
theorem child_first {n p : Nat} {j : Fin 512} (hV : p &&& PTE_V ≠ 0)
    (hw : s.word (n + 8 * j) = if (j : Nat) = 0 then p else 0) :
    s.child n j = if j = 0 then some (pte2pa p) else none := by
  unfold Phys.child
  simp only [hw, Fin.ext_iff, Fin.val_zero]
  by_cases h : (j : Nat) = 0
  · simp [h, hV]
  · simp [h]

theorem child_threePages_root (hp : pte < 256 ^ 8) (j : Fin 512) :
    (threePages i pte).child 0x80010000 j = if j = 0 then some 0x80011000 else none := by
  refine child_first (p := pa2pte 0x80011000 ||| PTE_V) (by decide) ?_
  rw [word_threePages hp (by omega), if_neg (by omega), if_neg (by omega)]
  simp

theorem child_threePages_mid (hp : pte < 256 ^ 8) (j : Fin 512) :
    (threePages i pte).child 0x80011000 j = if j = 0 then some 0x80012000 else none := by
  have hroot : 0x80011000 + 8 * (j : Nat) ≠ 0x80010000 := by omega
  refine child_first (p := pa2pte 0x80012000 ||| PTE_V) (by decide) ?_
  rw [word_threePages hp (by omega), if_neg (by omega)]
  simp [hroot]

theorem node_threePages (hp : pte < 256 ^ 8) {a : Nat} (h : Node (threePages i pte) 0x80010000 a) :
    a = 0x80010000 ∨ a = 0x80011000 ∨ a = 0x80012000 := by
  obtain ⟨p, hlen, hd⟩ := h
  match p with
  | [] => exact .inl (Option.some.inj hd).symm
  | [j] =>
    simp only [descend, child_threePages_root hp] at hd
    split at hd
    · exact .inr (.inl (Option.some.inj hd).symm)
    · cases hd
  | [j, k] =>
    simp only [descend, child_threePages_root hp] at hd
    split at hd
    · simp only [Option.bind_some, child_threePages_mid hp] at hd
      split at hd
      · exact .inr (.inr (Option.some.inj hd).symm)
      · cases hd
    · cases hd
  | _ :: _ :: _ :: _ => exact absurd hlen (by simp)

variable {va : Nat}

theorem leafPte_threePages (hp : pte < 256 ^ 8) (hv : va < MAXVA) :
    leafPte (threePages i pte) 0x80010000 va = if va / PGSIZE = i then pte else 0 := by
  have hd : descend (threePages i pte).child 0x80010000 (steps va 2) =
      if px 2 va = 0 ∧ px 1 va = 0 then some 0x80012000 else none := by
    have hz : ∀ level, idx level va = 0 ↔ px level va = 0 := fun level => by simp [idx, Fin.ext_iff]
    simp only [steps, descend, child_threePages_root hp, hz]
    by_cases h2 : px 2 va = 0
    · simp only [h2, if_true, Option.bind_some, child_threePages_mid hp, hz, true_and]
      by_cases h1 : px 1 va = 0
      · simp [h1]
      · simp [h1]
    · simp [h2]
  have hpage : (px 2 va = 0 ∧ px 1 va = 0 ∧ px 0 va = i) ↔ va / PGSIZE = i := by
    simp only [px_eq, MAXVA_eq, PGSIZE, Nat.reduceAdd, Nat.reduceMul, Nat.reducePow] at *
    omega
  rw [leafPte_slot hv]
  unfold slot
  rw [hd]
  simp only [← hpage]
  by_cases h : px 2 va = 0 ∧ px 1 va = 0
  · rw [if_pos h]
    simp only
    rw [if_neg (by omega), word_threePages hp (by omega)]
    by_cases h0 : px 0 va = i
    · rw [if_pos (by omega), if_pos ⟨h.1, h.2, h0⟩]
    · rw [if_neg (by omega), if_neg (by omega), if_neg (by omega), if_neg (fun e => h0 e.2.2)]
  · rw [if_neg h, if_pos rfl, if_neg (fun e => h ⟨e.1, e.2.1⟩)]

theorem accessible_threePages (hp : pte < 256 ^ 8) (h : Accessible (threePages i pte) 0x80010000 va) :
    leafPte (threePages i pte) 0x80010000 va = pte := by
  have hV := h.2.1
  rw [leafPte_threePages hp h.1] at hV ⊢
  split
  · rfl
  · rename_i e
    rw [if_neg e] at hV
    exact absurd (Nat.zero_and _) hV

end ThreePages

/-- One user page at address 0. -/
def onePage : Phys := threePages 0 (mkPte 0x80013000 (PTE_R ||| PTE_W ||| PTE_U))

theorem leafPte_onePage {va : Nat} (hv : va < MAXVA) : leafPte onePage 0x80010000 va =
    if va / PGSIZE = 0 then mkPte 0x80013000 (PTE_R ||| PTE_W ||| PTE_U) else 0 :=
  leafPte_threePages (by decide) hv

theorem accessible_onePage {va : Nat} : Accessible onePage 0x80010000 va ↔ va < PGSIZE := by
  rw [← Nat.div_eq_zero_iff_lt (by decide)]
  refine ⟨fun ⟨hv, hV, _⟩ => ?_, fun h => ?_⟩
  · rw [leafPte_onePage hv] at hV
    by_contra h
    rw [if_neg h] at hV
    exact hV (Nat.zero_and _)
  · have hv : va < MAXVA := Nat.lt_trans ((Nat.div_eq_zero_iff_lt (by decide)).1 h) (by decide)
    refine ⟨hv, ?_, ?_⟩ <;> rw [leafPte_onePage hv, if_pos h] <;> decide

theorem translate_onePage {va : Nat} (h : va < PGSIZE) :
    translate onePage 0x80010000 va = some (0x80013000 + va) := by
  have ha := accessible_onePage.2 h
  rw [translate_some ha, leafPte_onePage ha.1, if_pos (Nat.div_eq_of_lt h), Nat.mod_eq_of_lt h]
  exact congrArg (some <| · + va) (by decide)

theorem userTable_onePage : UserTable onePage 0x80010000 := by
  have hpa : ∀ va, Accessible onePage 0x80010000 va →
      pte2pa (leafPte onePage 0x80010000 va) = 0x80013000 := by
    intro va ha
    rw [leafPte_onePage ha.1, if_pos (Nat.div_eq_of_lt (accessible_onePage.1 ha))]
    decide
  refine ⟨by decide, fun va a ha hn => ?_, fun va ha => ?_⟩
  · rw [hpa va ha]
    rcases node_threePages (by decide) hn with rfl | rfl | rfl <;> decide
  · rw [hpa va ha]
    decide

/-- The last byte of the page is stored, the first of the next page is not. -/
theorem user_copy_onePage :
    (∃ stored s', copyout 0x80010000 4095 [7] onePage = .ok ((stored, true), s') ∧ s'.byte 0x80013fff = 7) ∧
    ∃ stored s', copyout 0x80010000 4095 [7, 8] onePage = .ok ((stored, false), s') := by
  obtain ⟨-, hout, -⟩ := user_copy userTable_onePage.nonzero
  refine ⟨?_, ?_⟩
  · obtain ⟨stored, ok, s', hrun, hok, hb, -⟩ := hout userTable_onePage 4095 [7]
    obtain rfl : ok = true := hok.2 fun i hi => accessible_onePage.2 (by simp [PGSIZE] at *; omega)
    have h7 := (hb rfl).2.1 0 (by decide) (fun j h1 h2 => absurd h2 (by simp; omega))
    rw [translate_onePage (by decide)] at h7
    exact ⟨stored, s', hrun, Option.some.inj h7⟩
  · obtain ⟨stored, ok, s', hrun, hok, -⟩ := hout userTable_onePage 4095 [7, 8]
    obtain rfl : ok = false := Bool.eq_false_iff.2 fun ho =>
      absurd (accessible_onePage.1 (hok.1 ho 1 (by decide))) (by decide)
    exact ⟨stored, s', hrun⟩

/-- Page 510 of the address space is the table's last page itself. -/
def selfMapped : Phys := threePages 510 (mkPte 0x80012000 (PTE_R ||| PTE_W ||| PTE_U))

/-- The first eight bytes are the PTE of page 511, the ninth goes there. -/
def forgedPte : List UInt8 := [0x17, 0x4c, 0, 0x20, 0, 0, 0, 0, 7]

/-- Page 511 is not mapped, and `copyout` of a range that ends in it returns 0:
the bytes stored before have become its PTE. -/
theorem selfMapped_copyout : NoPageZero selfMapped 0x80010000 ∧
    ¬(∀ i, i < forgedPte.length → Accessible selfMapped 0x80010000 (511 * PGSIZE - 8 + i)) ∧
    ∃ stored s', copyout 0x80010000 (511 * PGSIZE - 8) forgedPte selfMapped = .ok ((stored, true), s') := by
  have hp : mkPte 0x80012000 (PTE_R ||| PTE_W ||| PTE_U) < 256 ^ 8 := by decide
  refine ⟨fun va ha => ?_, fun hall => ?_, ?_⟩
  · unfold selfMapped at ha ⊢
    rw [accessible_threePages hp ha]
    decide
  · have h0 : leafPte selfMapped 0x80010000 (511 * PGSIZE - 8 + 8) = 0 :=
      (leafPte_threePages hp (by decide)).trans (if_neg (by decide))
    have hV := (hall 8 (by decide)).2.1
    rw [h0] at hV
    exact hV (Nat.zero_and _)
  · have hrun : (copyout 0x80010000 (511 * PGSIZE - 8) forgedPte selfMapped).map (·.1.2) =
        .ok true := by decide +kernel
    obtain ⟨⟨stored, ok⟩, s', hrun, rfl⟩ := Prog.ok_of_map hrun
    exact ⟨stored, s', hrun⟩

end Xv6.Vm
