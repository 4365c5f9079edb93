import Xv6.Core.LTS
import Xv6.Vm.Table

/-!
# Page tables as finite maps (`mappages`, `uvmunmap`)

The abstract page table is the function from virtual addresses to leaf PTEs
(`leaf`), absent and zero PTEs being the same. `mappages` extends it page by
page and `uvmunmap` clears a range.

* `leafPte_eq`: what `walk(va, 0)` yields is the abstract leaf.
* `mapLoop_spec`: the loop of `mappages` maps a prefix of its range, all of
  it when it returns 0.
* `unmapLoop_spec`: the loop of `uvmunmap` clears its range and frees exactly
  the pages it was asked to.
-/
namespace Xv6.Vm

/-- The leaf PTE of `va`. -/
def leaf (s : Phys) (pt va : Nat) : Nat := s.leafAt pt (steps va 2) (idx 0 va)

/-- The PTE that `walk(va, 0)` yields, 0 for a null pointer. -/
def leafPte (s : Phys) (pt va : Nat) : Nat :=
  match walk pt va false s with
  | .ok (pte, _) => if pte = 0 then 0 else s.word pte
  | .error _ => 0

variable {s t : Phys} {pt m va pa perm a x : Nat} {R : Panic → Prop} {doFree : Bool}

theorem Table.pos (h : Table s pt) (hf : FreeOk s) (hm : Node s pt m) : 0 < m :=
  Nat.lt_of_lt_of_le hf.kend (h.page m hm).2.1

theorem leafPte_eq (h : Table s pt) (hf : FreeOk s) (hv : va < MAXVA) :
    leafPte s pt va = leaf s pt va := by
  unfold leafPte walk
  rw [if_neg (Nat.not_le.2 hv), walkFrom_lookup va s 2 pt]
  unfold leaf Phys.leafAt
  cases hd : descend s.child pt (steps va 2) with
  | none => rfl
  | some m =>
    have hpos := h.pos hf ⟨steps va 2, Nat.le_refl 2, hd⟩
    have hne : m + 8 * px 0 va ≠ 0 := by omega
    exact if_neg hne

/-- Two addresses have the same slot exactly if they are on the same page. -/
theorem slot_eq_iff {vb : Nat} (ha : va < MAXVA) (hb : vb < MAXVA) :
    (steps va 2 = steps vb 2 ∧ idx 0 va = idx 0 vb) ↔ va / PGSIZE = vb / PGSIZE := by
  constructor
  · intro h
    obtain ⟨h1, h2⟩ := h
    simp only [steps, List.cons.injEq, idx, Fin.mk.injEq, and_true] at h1 h2
    exact px_inj ha hb h1.1 h1.2 h2
  · intro h
    simp [steps, idx, px_congr h]

theorem SameLeaves.leaf (h : SameLeaves pt s t) (va : Nat) : leaf t pt va = leaf s pt va :=
  h _ _ rfl

/-- `walk` with `alloc` below `MAXVA`. -/
theorem walk_alloc (h : Table s pt) (hf : FreeOk s) (hv : va < MAXVA) :
    Wp (walk pt va true) s (fun r s' => Keeps pt s s' ∧ SameLeaves pt s s' ∧
      (r = 0 ∨ r ≠ 0 ∧ ∃ m, descend s'.child pt (steps va 2) = some m ∧ r = m + 8 * (idx 0 va).1)) R := by
  unfold walk
  rw [if_neg (Nat.not_le.2 hv)]
  refine (walkFrom_alloc hv pt 2 (p := []) h hf rfl rfl).post ?_
  intro r s' hr
  obtain ⟨hk, hl, hr⟩ := hr
  refine ⟨hk, hl, ?_⟩
  rcases hr with e | ⟨m, hm, e⟩
  · exact .inl e
  · have hpos := hk.table.pos hk.free ⟨steps va 2, Nat.le_refl 2, hm⟩
    exact .inr ⟨by omega, m, hm, e⟩

theorem word_slot (hm : descend s.child pt (steps va 2) = some m) :
    s.word (m + 8 * (idx 0 va).1) = leaf s pt va := by
  unfold leaf Phys.leafAt
  rw [hm]

/-- A store through the slot of `va` changes the leaf PTEs of its page. -/
theorem store_slot {v : Nat} (h : Table s pt) (hf : FreeOk s) (hv : va < MAXVA)
    (hm : descend s.child pt (steps va 2) = some m) (hlt : v < 256 ^ 8)
    (hflag : v &&& PTE_V ≠ 0 → pteFlags v ≠ PTE_V) :
    Keeps pt s (s.setWord (m + 8 * (idx 0 va).1) v) ∧
    (∀ a, Node (s.setWord (m + 8 * (idx 0 va).1) v) pt a ↔ Node s pt a) ∧
    (∀ a, a % PGSIZE = 0 → ¬Node s pt a →
      (s.setWord (m + 8 * (idx 0 va).1) v).mem (a / PGSIZE) = s.mem (a / PGSIZE)) ∧
    ∀ vb, vb < MAXVA → leaf (s.setWord (m + 8 * (idx 0 va).1) v) pt vb =
      if vb / PGSIZE = va / PGSIZE then v else leaf s pt vb := by
  obtain ⟨hk, hn, hfr, hl⟩ := store_leaf (idx 0 va) h hf rfl hm hlt hflag
  refine ⟨hk, hn, hfr, fun vb hb => ?_⟩
  unfold leaf
  rw [hl _ _ rfl]
  simp only [slot_eq_iff hb hv]

/-! ## mappages -/

/-- A permission `mappages` may be given: flag bits, one of R, W, X. -/
def PermOk (perm : Nat) : Prop := perm < 1024 ∧ perm &&& (PTE_R ||| PTE_W ||| PTE_X) ≠ 0

/-- The PTE `mappages` installs. -/
def mkPte (pa perm : Nat) : Nat := pa2pte pa ||| perm ||| PTE_V

theorem mkPte_flag (hpa : pa < 2 ^ 64) (hp : PermOk perm) : pteFlags (mkPte pa perm) ≠ PTE_V := by
  unfold mkPte
  rw [pteFlags_pte hpa hp.1]
  exact or_valid_ne hp.2

/-- One pass: the walk, and the store if it found a slot. -/
theorem map_pass {rest : M Int}
    {Q : Int → Phys → Prop} (h : Table s pt) (hf : FreeOk s) (ha : a < MAXVA)
    (hpa : pa < 2 ^ 64) (hp : PermOk perm) (hfail : ∀ s', Keeps pt s s' → SameLeaves pt s s' → Q (-1) s')
    (hre : leaf s pt a &&& PTE_V ≠ 0 → R .mappagesRemap)
    (hok : ∀ s', leaf s pt a &&& PTE_V = 0 → Keeps pt s s' →
      (∀ vb, vb < MAXVA → leaf s' pt vb = if vb / PGSIZE = a / PGSIZE then mkPte pa perm else leaf s pt vb) →
      Wp rest s' Q R) :
    Wp (do
      let pte ← walk pt a true
      if pte = 0 then pure (-1)
      else do
        let v ← load pte
        if v &&& PTE_V ≠ 0 then Prog.panic .mappagesRemap
        else do
          store pte (pa2pte pa ||| perm ||| PTE_V)
          rest) s Q R := by
  refine (walk_alloc h hf ha).bind ?_
  intro r t ht
  obtain ⟨hk, hl, hr⟩ := ht
  rcases hr with e | ⟨h0, m, hm, e⟩
  · rw [if_pos e, wp_pure]
    exact hfail t hk hl
  rw [if_neg h0, e]
  simp only [wp_bind, wp_load, word_slot hm]
  rw [hl.leaf]
  by_cases hv : leaf s pt a &&& PTE_V ≠ 0
  · rw [if_pos hv, wp_panic]
    exact hre hv
  rw [if_neg hv]
  simp only [wp_bind, wp_store]
  obtain ⟨hk2, -, -, hl2⟩ := store_slot hk.table hk.free ha hm (pte_lt hpa hp.1) (fun _ => mkPte_flag hpa hp)
  refine hok _ (by simpa using hv) (hk.trans hk2) (fun vb hb => ?_)
  rw [hl2 vb hb, hl.leaf]
  rfl

/-- Whatever its arguments, a `mappages` that returns keeps the table a
table. -/
theorem mapLoop_keeps {pt last perm : Nat} (hp : PermOk perm) : ∀ (fuel : Nat) {a pa : Nat} {s : Phys},
    Table s pt → FreeOk s → pa < 2 ^ 64 →
    Wp (mapLoop pt last perm fuel a pa) s (fun _ s' => Keeps pt s s') (fun _ => True)
  | 0, _, _, _, _, _, _ => by unfold mapLoop; rw [wp_panic]; trivial
  | fuel + 1, a, pa, s, h, hf, hpa => by
    unfold mapLoop
    by_cases ha : a < MAXVA
    · refine map_pass h hf ha hpa hp (fun s' hk _ => hk) (fun _ => trivial) (fun s' _ hk _ => ?_)
      split
      · rw [wp_pure]; exact hk
      · refine (mapLoop_keeps hp fuel hk.table hk.free (Nat.mod_lt _ (by decide))).post ?_
        exact fun _ _ hk' => hk.trans hk'
    · unfold walk
      rw [if_pos (Nat.not_lt.1 ha), wp_bind, wp_panic]
      exact trivial

/-- `d` pages from `a` on are mapped to `pa` on, the rest is as it was. -/
def Maps (s s' : Phys) (pt a d pa perm : Nat) : Prop :=
  ∀ vb, vb < MAXVA → leaf s' pt vb =
    if a ≤ vb ∧ vb < a + d * PGSIZE then mkPte (pa + (pgRoundDown vb - a)) perm else leaf s pt vb

/-- The pages `a`, .., `a + k` not being mapped, the loop maps them all and
returns 0, or stops before one of them and returns -1. -/
theorem mapLoop_spec {pt last perm : Nat} (hp : PermOk perm) : ∀ (fuel k : Nat) {a pa : Nat} {s : Phys},
    Table s pt → FreeOk s → a % PGSIZE = 0 → last = a + k * PGSIZE → last < MAXVA → k < fuel →
    pa + k * PGSIZE < 2 ^ 64 →
    (∀ vb, a ≤ vb → vb < a + (k + 1) * PGSIZE → leaf s pt vb &&& PTE_V = 0) →
    Wp (mapLoop pt last perm fuel a pa) s
      (fun r s' => Keeps pt s s' ∧ ∃ d, (r = 0 ∧ d = k + 1 ∨ r = -1 ∧ d < k + 1) ∧ Maps s s' pt a d pa perm)
      (fun _ => False)
  | 0, k, _, _, _, _, _, _, _, _, hk, _, _ => absurd hk (Nat.not_lt_zero k)
  | fuel + 1, k, a, pa, s, h, hf, ha, hlast, hmax, hk, hpa, hun => by
    have hav : a < MAXVA := by omega
    have hfirst : leaf s pt a &&& PTE_V = 0 := hun a (Nat.le_refl a) (by simp only [PGSIZE]; omega)
    unfold mapLoop
    refine map_pass h hf hav (by omega) hp ?_ (fun e => absurd hfirst e) ?_
    · intro s' hks hl
      refine ⟨hks, 0, .inr ⟨rfl, by omega⟩, fun vb _ => ?_⟩
      rw [if_neg (by omega), hl.leaf]
    intro s1 _ hk1 hl1
    cases k with
    | zero =>
      rw [if_pos (by omega), wp_pure]
      refine ⟨hk1, 1, .inl ⟨rfl, rfl⟩, fun vb hb => ?_⟩
      rw [hl1 vb hb]
      by_cases e : vb / PGSIZE = a / PGSIZE
      · rw [if_pos e, if_pos (by simp only [PGSIZE] at *; omega)]
        rw [show pgRoundDown vb - a = 0 by simp only [pgRoundDown, PGSIZE] at *; omega, Nat.add_zero]
      · rw [if_neg e, if_neg (by simp only [PGSIZE] at *; omega)]
    | succ k =>
      have hne : a ≠ last := by simp only [PGSIZE] at hlast; omega
      have ha' : (a + PGSIZE) % 2 ^ 64 = a + PGSIZE :=
        Nat.mod_eq_of_lt (by simp only [MAXVA_eq, PGSIZE] at *; omega)
      have hpa' : (pa + PGSIZE) % 2 ^ 64 = pa + PGSIZE :=
        Nat.mod_eq_of_lt (by simp only [PGSIZE] at *; omega)
      rw [if_neg hne, ha', hpa']
      refine (mapLoop_spec hp fuel k hk1.table hk1.free (by simp only [PGSIZE] at *; omega)
        (by simp only [PGSIZE] at *; omega) hmax (by omega) (by simp only [PGSIZE] at *; omega) ?_).post ?_
      · intro vb h1 h2
        rw [hl1 vb (by simp only [MAXVA_eq, PGSIZE] at *; omega), if_neg (by simp only [PGSIZE] at *; omega)]
        exact hun vb (by omega) (by simp only [PGSIZE] at *; omega)
      intro r s2 h2
      obtain ⟨hk2, d, hd, hmap⟩ := h2
      refine ⟨hk1.trans hk2, d + 1, ?_, fun vb hb => ?_⟩
      · rcases hd with ⟨e, hd⟩ | ⟨e, hd⟩
        · exact .inl ⟨e, by omega⟩
        · exact .inr ⟨e, by omega⟩
      rw [hmap vb hb, hl1 vb hb]
      by_cases e1 : a + PGSIZE ≤ vb ∧ vb < a + PGSIZE + d * PGSIZE
      · rw [if_pos e1, if_pos (by simp only [PGSIZE] at *; omega)]
        rw [show pa + PGSIZE + (pgRoundDown vb - (a + PGSIZE)) = pa + (pgRoundDown vb - a) by
          simp only [pgRoundDown, PGSIZE] at *; omega]
      rw [if_neg e1]
      by_cases e : vb / PGSIZE = a / PGSIZE
      · rw [if_pos e, if_pos (by simp only [PGSIZE] at *; omega)]
        rw [show pgRoundDown vb - a = 0 by simp only [pgRoundDown, PGSIZE] at *; omega, Nat.add_zero]
      · rw [if_neg e, if_neg (by simp only [PGSIZE] at *; omega)]

theorem mappages_spec {size : Nat} (h : Table s pt) (hf : FreeOk s) (hp : PermOk perm)
    (hpa : pa < 2 ^ 56) (hs : 0 < size) (hv : va + size ≤ MAXVA)
    (hun : ∀ vb, pgRoundDown va ≤ vb → vb < pgRoundDown (va + size - 1) + PGSIZE →
    leaf s pt vb &&& PTE_V = 0) : Wp (mappages pt va size pa perm) s
      (fun r s' => Keeps pt s s' ∧ ∃ d, Maps s s' pt (pgRoundDown va) d pa perm ∧
        (r = 0 ∧ pgRoundDown va + d * PGSIZE = pgRoundDown (va + size - 1) + PGSIZE ∨
         r = -1 ∧ pgRoundDown va + d * PGSIZE ≤ pgRoundDown (va + size - 1)))
      (fun _ => False) := by
  have hwrap : (va + size - 1) % 2 ^ 64 = va + size - 1 :=
    Nat.mod_eq_of_lt (by simp only [MAXVA_eq] at hv; omega)
  obtain ⟨k, hk⟩ : ∃ k, pgRoundDown (va + size - 1) = pgRoundDown va + k * PGSIZE :=
    ⟨(va + size - 1) / PGSIZE - va / PGSIZE, by
      have := Nat.div_le_div_right (c := PGSIZE) (show va ≤ va + size - 1 by omega)
      unfold pgRoundDown
      rw [← Nat.add_mul, Nat.add_sub_cancel' this]⟩
  have hlast : pgRoundDown (va + size - 1) < MAXVA := by
    simp only [pgRoundDown, MAXVA_eq, PGSIZE] at *; omega
  unfold mappages
  rw [if_neg (by omega), hwrap]
  refine (mapLoop_spec hp passes k h hf (Nat.mul_mod_left _ _) hk hlast ?_ ?_ ?_).post ?_
  · unfold passes
    simp only [pgRoundDown, MAXVA_eq, PGSIZE] at *; omega
  · simp only [pgRoundDown, MAXVA_eq, PGSIZE] at *; omega
  · intro vb h1 h2
    exact hun vb h1 (by rw [hk, Nat.add_assoc, ← Nat.succ_mul]; exact h2)
  intro r s' hr
  obtain ⟨hks, d, hd, hmap⟩ := hr
  refine ⟨hks, d, hmap, ?_⟩
  rw [hk]
  rcases hd with ⟨e, hd⟩ | ⟨e, hd⟩
  · exact .inl ⟨e, by rw [hd]; simp only [PGSIZE]; omega⟩
  · exact .inr ⟨e, by simp only [PGSIZE]; omega⟩

/-! ## uvmunmap -/

theorem kfree_spec (h : KPage s pa) :
    Wp (kfree pa) s (fun _ s' => s'.freelist = pa :: s.freelist ∧ s'.kend = s.kend ∧
      ∀ n, n ≠ pa / PGSIZE → s'.mem n = s.mem n) (fun _ => False) := by
  have hno : ¬(pa % PGSIZE ≠ 0 ∨ pa < s.kend ∨ PHYSTOP ≤ pa) := by
    have := h.1; have := h.2.1; have := h.2.2; omega
  unfold kfree
  simp only [wp_bind, wp_get]
  rw [if_neg hno]
  simp only [wp_bind, wp_memset, wp_store, wp_modify]
  refine ⟨rfl, rfl, fun n hn => ?_⟩
  rw [Phys.mem_setWord_ne _ _ hn, Phys.mem_fill_ne _ _ hn]

/-- The physical pages mapped at `k` pages from `a` on. -/
def pagesOf (s : Phys) (pt : Nat) : Nat → Nat → List Nat
  | _, 0 => []
  | a, k + 1 => pte2pa (leaf s pt a) :: pagesOf s pt (a + PGSIZE) k

theorem pagesOf_congr {s t : Phys} {pt : Nat} : ∀ (k : Nat) {a : Nat},
    (∀ vb, a ≤ vb → vb < a + k * PGSIZE → leaf t pt vb = leaf s pt vb) → pagesOf t pt a k = pagesOf s pt a k
  | 0, _, _ => rfl
  | k + 1, a, h => by
    unfold pagesOf
    rw [h a (Nat.le_refl a) (by simp only [PGSIZE]; omega),
      pagesOf_congr k (fun vb h1 h2 => h vb (by omega) (by simp only [PGSIZE] at *; omega))]

/-- What `uvmunmap` of `k` pages from `a` on leaves: the pages of the range
are unmapped and, with `do_free`, on the free list. -/
structure Unmaps (s s' : Phys) (pt a k : Nat) (doFree : Bool) : Prop where
  table : Table s' pt
  free : FreeOk s'
  kend : s'.kend = s.kend
  node : ∀ x, Node s' pt x ↔ Node s pt x
  list : s'.freelist = (if doFree then (pagesOf s pt a k).reverse else []) ++ s.freelist
  frame : ∀ x, x % PGSIZE = 0 → ¬Node s pt x → (doFree = true → x ∉ pagesOf s pt a k) →
    s'.mem (x / PGSIZE) = s.mem (x / PGSIZE)
  leaves : ∀ vb, vb < MAXVA → leaf s' pt vb = if a ≤ vb ∧ vb < a + k * PGSIZE then 0 else leaf s pt vb

/-- The pages a `do_free` may hand to `kfree`: distinct allocated pages, not
pages of the table. -/
def CanFree (s : Phys) (pt : Nat) (l : List Nat) : Prop :=
  l.Nodup ∧ ∀ x ∈ l, KPage s x ∧ ¬Node s pt x ∧ x ∉ s.freelist

/-- `kfree` of a page that is not part of the table. -/
theorem kfree_outside (h : Table s pt) (hf : FreeOk s) (hx : KPage s x)
    (hxn : ¬Node s pt x) (hxf : x ∉ s.freelist) :
    Wp (kfree x) s (fun _ t => SameTree pt s t ∧ FreeOk t ∧ t.kend = s.kend ∧ t.freelist = x :: s.freelist ∧
      ∀ n, n ≠ x / PGSIZE → t.mem n = s.mem n) (fun _ => False) := by
  refine (kfree_spec hx).post ?_
  intro _ t ht
  obtain ⟨hl, hk, hm⟩ := ht
  refine ⟨h.congr ?_ hk ?_, hf.cons hk hx hxf hl, hk, hl, hm⟩
  · intro a ha
    exact hm _ (page_ne (h.page a ha).1 hx.1 (fun e => hxn (e ▸ ha)))
  · intro a ha hmem
    rw [hl] at hmem
    rcases List.mem_cons.1 hmem with e | hmem
    · exact hxn (e ▸ ha)
    · exact h.used a ha hmem

/-- Reading the slot of a mapped page. -/
theorem walk_mapped {Q : Nat → Phys → Prop} (h : Table s pt) (hf : FreeOk s)
    (ha : a < MAXVA) (hv : leaf s pt a &&& PTE_V ≠ 0)
    (hQ : ∀ m, descend s.child pt (steps a 2) = some m → m + 8 * (idx 0 a).1 ≠ 0 →
    Q (m + 8 * (idx 0 a).1) s) : Wp (walk pt a false) s Q R := by
  unfold Wp walk
  rw [if_neg (Nat.not_le.2 ha), walkFrom_lookup a s 2 pt]
  unfold leaf Phys.leafAt at hv
  cases hd : descend s.child pt (steps a 2) with
  | none => rw [hd] at hv; exact absurd (Nat.zero_and _) hv
  | some m =>
    have hpos := h.pos hf ⟨steps a 2, Nat.le_refl 2, hd⟩
    exact hQ m hd (by omega)

/-- The optional `kfree` of one pass of `uvmunmap`. -/
theorem unmap_free (h : Table s pt) (hf : FreeOk s)
    (hx : doFree = true → KPage s x ∧ ¬Node s pt x ∧ x ∉ s.freelist) :
    Wp (freeIf doFree x) s (fun _ t => SameTree pt s t ∧ FreeOk t ∧ t.kend = s.kend ∧
      t.freelist = (if doFree then [x] else []) ++ s.freelist ∧
      ∀ n, (doFree = true → n ≠ x / PGSIZE) → t.mem n = s.mem n) (fun _ => False) := by
  cases doFree with
  | false =>
    unfold freeIf
    rw [if_neg (by simp), wp_pure]
    exact ⟨h.congr (fun _ _ => rfl) rfl h.used, hf, rfl, rfl, fun _ _ => rfl⟩
  | true =>
    obtain ⟨h1, h2, h3⟩ := hx rfl
    refine (kfree_outside h hf h1 h2 h3).post ?_
    intro _ t ht
    obtain ⟨ht1, ht2, ht3, ht4, ht5⟩ := ht
    exact ⟨ht1, ht2, ht3, ht4, fun n hn => ht5 n (hn rfl)⟩

/-- One more page in front of an unmapped range. -/
theorem Unmaps.cons {u s' : Phys} {k : Nat} (ht : SameTree pt s t)
    (htl : t.freelist = (if doFree then [pte2pa (leaf s pt a)] else []) ++ s.freelist) (htk : t.kend = s.kend)
    (htm : ∀ n, (doFree = true → n ≠ pte2pa (leaf s pt a) / PGSIZE) → t.mem n = s.mem n)
    (hal : doFree = true → pte2pa (leaf s pt a) % PGSIZE = 0) (ha : a % PGSIZE = 0)
    (hun : ∀ x, Node u pt x ↔ Node t pt x) (hul : u.freelist = t.freelist) (huk : u.kend = t.kend)
    (hum : ∀ x, x % PGSIZE = 0 → ¬Node t pt x → u.mem (x / PGSIZE) = t.mem (x / PGSIZE))
    (huv : ∀ vb, vb < MAXVA → leaf u pt vb = if vb / PGSIZE = a / PGSIZE then 0 else leaf t pt vb)
    (hpg : pagesOf u pt (a + PGSIZE) k = pagesOf s pt (a + PGSIZE) k)
    (h : Unmaps u s' pt (a + PGSIZE) k doFree) : Unmaps s s' pt a (k + 1) doFree := by
  refine ⟨h.table, h.free, h.kend.trans (huk.trans htk),
    fun x => (h.node x).trans ((hun x).trans (ht.node x)), ?_, ?_, ?_⟩
  · rw [h.list, hul, htl, hpg]
    cases doFree with
    | false => rfl
    | true => simp [pagesOf]
  · intro x hx hn hfr
    have hxt : ¬Node t pt x := fun e => hn ((ht.node x).1 e)
    rw [h.frame x hx (fun e => hxt ((hun x).1 e)), hum x hx hxt, htm]
    · intro hd
      refine page_ne hx (hal hd) (fun e => hfr hd ?_)
      unfold pagesOf
      rw [e]; exact List.mem_cons_self
    · intro hd hm
      refine hfr hd ?_
      unfold pagesOf
      rw [hpg] at hm
      exact List.mem_cons_of_mem _ hm
  · intro vb hb
    rw [h.leaves vb hb, huv vb hb, ht.leaves.leaf]
    by_cases e1 : a + PGSIZE ≤ vb ∧ vb < a + PGSIZE + k * PGSIZE
    · rw [if_pos e1, if_pos (by simp only [PGSIZE] at *; omega)]
    rw [if_neg e1]
    by_cases e : vb / PGSIZE = a / PGSIZE
    · rw [if_pos e, if_pos (by simp only [PGSIZE] at *; omega)]
    · rw [if_neg e, if_neg (by simp only [PGSIZE] at *; omega)]

theorem unmapLoop_spec {pt stop : Nat} {doFree : Bool} : ∀ (fuel k : Nat) {a : Nat} {s : Phys},
    Table s pt → FreeOk s → a % PGSIZE = 0 → stop = a + k * PGSIZE → stop ≤ MAXVA → k < fuel →
    (∀ j, j < k → leaf s pt (a + j * PGSIZE) &&& PTE_V ≠ 0) →
    (doFree = true → CanFree s pt (pagesOf s pt a k)) →
    Wp (unmapLoop pt stop doFree fuel a) s (fun _ s' => Unmaps s s' pt a k doFree) (fun _ => False)
  | 0, k, _, _, _, _, _, _, _, hk, _, _ => absurd hk (Nat.not_lt_zero k)
  | fuel + 1, 0, a, s, h, hf, _, hstop, _, _, _, _ => by
    unfold unmapLoop
    rw [if_neg (by omega), wp_pure]
    refine ⟨h, hf, rfl, fun _ => Iff.rfl, ?_, fun _ _ _ _ => rfl, fun vb _ => ?_⟩
    · cases doFree with
      | false | true => rfl
    · rw [if_neg (by omega)]
  | fuel + 1, k + 1, a, s, h, hf, ha, hstop, hmax, hk, hmap, hfree => by
    have hav : a < MAXVA := by simp only [PGSIZE] at hstop; omega
    have hv : leaf s pt a &&& PTE_V ≠ 0 := by
      have := hmap 0 (by omega)
      rwa [Nat.zero_mul, Nat.add_zero] at this
    have hwrap : (a + PGSIZE) % 2 ^ 64 = a + PGSIZE :=
      Nat.mod_eq_of_lt (by simp only [MAXVA_eq, PGSIZE] at *; omega)
    have hx : doFree = true → KPage s (pte2pa (leaf s pt a)) ∧ ¬Node s pt (pte2pa (leaf s pt a)) ∧
        pte2pa (leaf s pt a) ∉ s.freelist :=
      fun hd => (hfree hd).2 _ List.mem_cons_self
    unfold unmapLoop
    rw [if_pos (by simp only [PGSIZE] at hstop; omega), hwrap]
    refine Wp.bind (walk_mapped (Q := fun r t => t = s ∧ r ≠ 0 ∧
      ∃ m, descend s.child pt (steps a 2) = some m ∧ r = m + 8 * (idx 0 a).1) h hf hav hv
      (fun m hm h0 => ⟨rfl, h0, m, hm, rfl⟩)) ?_
    intro r t hr
    obtain ⟨rfl, h0, m, hm, rfl⟩ := hr
    rw [if_neg h0]
    simp only [wp_bind, wp_load, word_slot hm]
    have hnl : pteFlags (leaf t pt a) ≠ PTE_V := h.leaf _ _ rfl hv
    rw [if_neg hv, if_neg hnl]
    simp only [wp_bind]
    refine (unmap_free h hf hx).post ?_
    intro _ u hu
    obtain ⟨hsame, hfu, hku, hlu, hmu⟩ := hu
    have hmu' : descend u.child pt (steps a 2) = some m := (hsame.paths (steps a 2) (Nat.le_refl 2)).trans hm
    obtain ⟨hks, hnode, hframe, hleaf⟩ := store_slot (v := 0) hsame.table hfu hav hmu' (by decide)
      (fun e => absurd rfl e)
    rw [wp_store]
    -- the state after the store, as a variable
    have hul : (u.setWord (m + 8 * (idx 0 a).1) 0).freelist = u.freelist := rfl
    have huk : (u.setWord (m + 8 * (idx 0 a).1) 0).kend = u.kend := rfl
    generalize u.setWord (m + 8 * (idx 0 a).1) 0 = w at hks hnode hframe hleaf hul huk ⊢
    have hrest : ∀ vb, a + PGSIZE ≤ vb → vb < a + PGSIZE + k * PGSIZE → leaf w pt vb = leaf t pt vb := by
      intro vb h1 h2
      rw [hleaf vb (by simp only [PGSIZE] at *; omega), if_neg (by simp only [PGSIZE] at *; omega),
        hsame.leaves.leaf]
    have hpg := pagesOf_congr k hrest
    refine (unmapLoop_spec fuel k hks.table hks.free (by simp only [PGSIZE] at *; omega)
      (by simp only [PGSIZE] at *; omega) hmax (by omega) ?_ ?_).post ?_
    · intro j hj
      rw [hrest _ (by simp only [PGSIZE]; omega) (by simp only [PGSIZE]; omega)]
      have := hmap (j + 1) (by omega)
      rwa [show a + (j + 1) * PGSIZE = a + PGSIZE + j * PGSIZE by simp only [PGSIZE]; omega] at this
    · intro hd
      obtain ⟨hnd, hall⟩ := hfree hd
      rw [hpg]
      unfold pagesOf at hnd hall
      rw [List.nodup_cons] at hnd
      refine ⟨hnd.2, fun x hx => ?_⟩
      obtain ⟨⟨h1, h2, h3⟩, h4, h5⟩ := hall x (List.mem_cons_of_mem _ hx)
      refine ⟨⟨h1, by rw [huk, hku]; exact h2, h3⟩, fun e => h4 ((hsame.node x).1 ((hnode x).1 e)), ?_⟩
      rw [hul, hlu, hd]
      simp only [if_true, List.singleton_append, List.mem_cons, not_or]
      exact ⟨fun e => hnd.1 (e ▸ hx), h5⟩
    · intro _ s' hs'
      exact hs'.cons hsame hlu hku hmu (fun hd => (hx hd).1.1) ha hnode hul huk hframe hleaf hpg

theorem uvmunmap_spec {npages : Nat} (h : Table s pt) (hf : FreeOk s)
    (ha : va % PGSIZE = 0) (hv : va + npages * PGSIZE ≤ MAXVA)
    (hmap : ∀ j, j < npages → leaf s pt (va + j * PGSIZE) &&& PTE_V ≠ 0)
    (hfree : doFree = true → CanFree s pt (pagesOf s pt va npages)) :
    Wp (uvmunmap pt va npages doFree) s (fun _ s' => Unmaps s s' pt va npages doFree) (fun _ => False) := by
  unfold uvmunmap
  rw [if_neg (by omega), Nat.mod_eq_of_lt (by simp only [MAXVA_eq] at hv; omega)]
  refine unmapLoop_spec passes npages h hf ha rfl hv ?_ hmap hfree
  unfold passes
  simp only [MAXVA_eq, PGSIZE] at *
  omega

/-! ## uvmcreate -/

/-- A zeroed page is an empty table. -/
theorem table_empty (hp : KPage s pt) (hf : pt ∉ s.freelist)
    (hz : ∀ i : Fin 512, s.word (pt + 8 * i) = 0) : Table s pt ∧ ∀ a, Node s pt a → a = pt := by
  have hc : ∀ i, s.child pt i = none := fun i => child_none (by rw [hz i]; decide)
  have hd : ∀ p : List (Fin 512), p ≠ [] → descend s.child pt p = none := by
    intro p hne
    cases p with
    | nil => exact absurd rfl hne
    | cons i p => simp only [descend, hc i]; rfl
  have hroot : ∀ p a, descend s.child pt p = some a → p = [] ∧ a = pt := by
    intro p a hpa
    cases p with
    | nil => exact ⟨rfl, (Option.some.inj hpa).symm⟩
    | cons i p => rw [hd _ (by simp)] at hpa; cases hpa
  have hnode : ∀ a, Node s pt a → a = pt := by
    intro a ha
    obtain ⟨p, -, hpa⟩ := ha
    exact (hroot p a hpa).2
  refine ⟨⟨?_, ?_, ?_, ?_, ?_, fun i _ => hc i⟩, hnode⟩
  · intro p q a _ _ h1 h2
    rw [(hroot p a h1).1, (hroot q a h2).1]
  · intro a ha; rw [hnode a ha]; exact hp
  · intro a ha; rw [hnode a ha]; exact hf
  · intro p i hl hv
    unfold Phys.leafAt at hv
    rw [hd p (by intro e; rw [e] at hl; cases hl)] at hv
    exact absurd (Nat.zero_and _) hv
  · intro a ha i hv
    rw [hnode a (ha.mono (by omega)), hz i] at hv
    exact absurd (Nat.zero_and _) hv

theorem uvmcreate_spec (hf : FreeOk s) :
    Wp uvmcreate s (fun r s' => FreeOk s' ∧ s'.kend = s.kend ∧
      (r = 0 ∧ s'.freelist = s.freelist ∧ s'.mem = s.mem ∨
       r ≠ 0 ∧ s.freelist = r :: s'.freelist ∧ Table s' r ∧ (∀ a, Node s' r a ↔ a = r) ∧
        ∀ n, n ≠ r / PGSIZE → s'.mem n = s.mem n)) R := by
  unfold uvmcreate
  refine (kalloc_spec s).bind ?_
  intro r t hk
  cases hk with
  | none hm hl hke =>
    rw [if_pos rfl, wp_pure]
    exact ⟨hf.congr hke hl, hke, .inl ⟨rfl, hl, hm⟩⟩
  | page hl hke hm =>
    have hr : r ∈ s.freelist := by rw [hl]; exact List.mem_cons_self
    have hrk := hf.page r hr
    have hr0 := hrk.ne_zero hf
    have hnd := hf.nodup
    rw [hl, List.nodup_cons] at hnd
    rw [if_neg hr0]
    simp only [wp_bind, wp_memset, wp_pure]
    obtain ⟨htab, hnode⟩ := table_empty (s := t.fill r 0) (hrk.congr hke) hnd.1
      fun i => Phys.word_fill_zero t (entry_page hrk.1 i)
    refine ⟨hf.tail hke hl, hke, .inr ⟨hr0, hl, htab, fun a => ⟨hnode a, ?_⟩, fun n hn => ?_⟩⟩
    · intro e; rw [e]; exact reached_root _ _ _
    · rw [Phys.mem_fill_ne t 0 hn, hm n hn]

end Xv6.Vm
