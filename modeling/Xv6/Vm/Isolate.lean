import Xv6.Vm.Free
import Xv6.Vm.Protect

/-!
# Two page tables that share no page

A store through a table goes to a user page of that table. If the user pages of
two tables are apart from one another and from both tables' own pages, then
whatever is stored through one of them in between, a program reads through the
other what it would read had it run alone.

* `userStore_apart`: a store through one table is not seen through the other.
* `stores_apart`: the same for any interleaving of stores through both.
* `Space.isolated`: the address spaces of two processes, if no page is part of
  both.
-/
namespace Xv6.Vm

/-- A byte stored through a table; a fault stores nothing. -/
def userStore (s : Phys) (pt va : Nat) (b : UInt8) : Phys :=
  match translate s pt va with
  | some a => s.storeAt a [b]
  | none => s

/-- The user pages of `pt'` are neither pages of the table `pt` nor user pages
of it. -/
structure Apart (s : Phys) (pt pt' : Nat) : Prop where
  node : ∀ va a, Accessible s pt' va → Node s pt a → a ≠ pte2pa (leafPte s pt' va)
  page : ∀ va vb, Accessible s pt' va → Accessible s pt vb →
    pte2pa (leafPte s pt vb) ≠ pte2pa (leafPte s pt' va)

/-- A program sees no difference between `s` and `t` through `pt`. -/
structure SameView (s t : Phys) (pt : Nat) : Prop where
  walk : SameWalk s t pt
  page : ∀ va, Accessible s pt va →
    t.mem (pte2pa (leafPte s pt va) / PGSIZE) = s.mem (pte2pa (leafPte s pt va) / PGSIZE)

theorem SameView.refl (s : Phys) (pt : Nat) :
    SameView s s pt := ⟨⟨fun _ => rfl, fun _ => Iff.rfl⟩, fun _ _ => rfl⟩

variable {s t : Phys} {pt va pt' n n' : Nat}

theorem SameView.trans {u : Phys} (h : SameView s t pt) (h' : SameView t u pt) : SameView s u pt := by
  refine ⟨⟨fun va => (h'.walk.pte va).trans (h.walk.pte va), fun a => (h'.walk.node a).trans (h.walk.node a)⟩,
    fun va ha => ?_⟩
  have := h'.page va ((h.walk.accessible va).2 ha)
  rw [h.walk.pte va] at this
  exact this.trans (h.page va ha)

theorem SameView.symm (h : SameView s t pt) : SameView t s pt := by
  refine ⟨⟨fun va => (h.walk.pte va).symm, fun a => (h.walk.node a).symm⟩, fun va ha => ?_⟩
  rw [h.walk.pte va]
  exact (h.page va ((h.walk.accessible va).1 ha)).symm

theorem SameView.userByte (h : SameView s t pt) (va : Nat) : userByte t pt va = userByte s pt va := by
  unfold Vm.userByte
  rw [pageAt_eq, pageAt_eq, h.walk.pte]
  simp only [h.walk.accessible]
  by_cases ha : Accessible s pt (pgRoundDown va)
  · rw [if_pos ha, h.page _ ha]
  · rw [if_neg ha, if_pos rfl, if_pos rfl]

/-- The word at an aligned user address. -/
def userWord (s : Phys) (pt va : Nat) : Option Nat := (translate s pt va).map s.word

theorem SameView.userWord (h : SameView s t pt) (va : Nat) : userWord t pt va = userWord s pt va := by
  unfold Vm.userWord
  rw [h.walk.translate]
  unfold translate
  split
  · rename_i ha
    have hpa := pte2pa_aligned (leafPte s pt va)
    have hpage : (pte2pa (leafPte s pt va) + va % PGSIZE) / PGSIZE = pte2pa (leafPte s pt va) / PGSIZE := by
      generalize pte2pa (leafPte s pt va) = p at *
      simp only [PGSIZE] at *
      omega
    refine congrArg some (Phys.word_congr ?_)
    rw [hpage]
    exact h.page va ha
  · rw [Option.map_none, Option.map_none]

/-- The page a store goes to. -/
theorem userStore_mem (ha : Accessible s pt va) (b : UInt8) :
    userStore s pt va b = s.storeAt (pte2pa (leafPte s pt va) + va % PGSIZE) [b] ∧
    (pte2pa (leafPte s pt va) + va % PGSIZE) / PGSIZE = pte2pa (leafPte s pt va) / PGSIZE := by
  have hal := pte2pa_aligned (leafPte s pt va)
  refine ⟨?_, ?_⟩
  · unfold userStore
    rw [translate_some ha]
  · generalize pte2pa (leafPte s pt va) = p at *
    simp only [PGSIZE] at *
    omega

theorem userStore_fault (ha : ¬Accessible s pt va) (b : UInt8) : userStore s pt va b = s := by
  unfold userStore translate
  rw [if_neg ha]

/-- A store through a table does not change the table. -/
theorem userStore_walk (hu : UserTable s pt) (va : Nat) (b : UInt8) :
    SameWalk s (userStore s pt va b) pt := by
  by_cases ha : Accessible s pt va
  · rw [(userStore_mem ha b).1]
    exact SameWalk.storeAt hu ha (Nat.mod_lt _ (by decide)) [b]
  · rw [userStore_fault ha]
    exact (SameView.refl s pt).walk

/-- **A store through one table is not seen through the other.** -/
theorem userStore_apart (hpt : pt % PGSIZE = 0) (h : Apart s pt pt') (va : Nat) (b : UInt8) :
    SameView s (userStore s pt' va b) pt := by
  by_cases ha : Accessible s pt' va
  swap
  · rw [userStore_fault ha]
    exact SameView.refl s pt
  obtain ⟨hst, hpage⟩ := userStore_mem ha b
  have hal := pte2pa_aligned (leafPte s pt' va)
  have hother : ∀ a, a % PGSIZE = 0 → a ≠ pte2pa (leafPte s pt' va) →
      (userStore s pt' va b).mem (a / PGSIZE) = s.mem (a / PGSIZE) := by
    intro a haa hne
    rw [hst]
    refine Phys.mem_setPage_ne _ _ ?_
    rw [hpage]
    exact page_ne haa hal hne
  exact ⟨SameWalk.of_pages hpt fun a hn => hother a (node_aligned hpt hn) (h.node va a ha hn),
    fun vb hb => hother _ (pte2pa_aligned _) (h.page va vb ha hb)⟩

/-- The same store in two memories that look alike. -/
theorem SameView.userStore (h : SameView s t pt) (hu : UserTable s pt) (va : Nat) (b : UInt8) :
    SameView (userStore s pt va b) (userStore t pt va b) pt := by
  by_cases ha : Accessible s pt va
  swap
  · rw [userStore_fault ha, userStore_fault fun e => ha ((h.walk.accessible va).1 e)]
    exact h
  have hs := userStore_walk hu va b
  have ht := userStore_walk (h.walk.user hu) va b
  obtain ⟨es, ep⟩ := userStore_mem ha b
  obtain ⟨et, -⟩ := userStore_mem ((h.walk.accessible va).2 ha) b
  rw [h.walk.pte] at et
  refine ⟨⟨fun vb => ?_, fun a => ?_⟩, fun vb hb => ?_⟩
  · rw [ht.pte, h.walk.pte, hs.pte]
  · rw [ht.node, h.walk.node, hs.node]
  · have hb' := (hs.accessible vb).1 hb
    rw [hs.pte, es, et]
    unfold Phys.storeAt Phys.setPage
    dsimp only
    rw [ep]
    by_cases e : pte2pa (leafPte s pt vb) / PGSIZE = pte2pa (leafPte s pt va) / PGSIZE
    · rw [e, Function.update_self, Function.update_self, h.page va ha]
    · rw [Function.update_of_ne e, Function.update_of_ne e, h.page vb hb']

/-! ## Interleavings -/

/-- Two tables of which each is apart from the other. -/
structure Isolated (s : Phys) (pt pt' : Nat) : Prop where
  left : UserTable s pt
  right : UserTable s pt'
  seen : Apart s pt pt'
  seen' : Apart s pt' pt

theorem Isolated.congr (h : Isolated s pt pt') (hw : SameWalk s t pt) (hw' : SameWalk s t pt') :
    Isolated t pt pt' := by
  refine ⟨hw.user h.left, hw'.user h.right, ⟨fun va a ha hn => ?_, fun va vb ha hb => ?_⟩,
    ⟨fun va a ha hn => ?_, fun va vb ha hb => ?_⟩⟩
  · rw [hw'.pte]
    exact h.seen.node va a ((hw'.accessible va).1 ha) ((hw.node a).1 hn)
  · rw [hw'.pte, hw.pte]
    exact h.seen.page va vb ((hw'.accessible va).1 ha) ((hw.accessible vb).1 hb)
  · rw [hw.pte]
    exact h.seen'.node va a ((hw.accessible va).1 ha) ((hw'.node a).1 hn)
  · rw [hw'.pte, hw.pte]
    exact h.seen'.page va vb ((hw.accessible va).1 ha) ((hw'.accessible vb).1 hb)

theorem Isolated.symm (h : Isolated s pt pt') : Isolated s pt' pt :=
  ⟨h.right, h.left, h.seen', h.seen⟩

/-- Stores one after the other, each through `pt` (`true`) or `pt'`. -/
def stores (pt pt' : Nat) (s : Phys) (l : List (Bool × Nat × UInt8)) : Phys :=
  l.foldl (fun s x => userStore s (if x.1 then pt else pt') x.2.1 x.2.2) s

/-- **Each program reads what it would read alone**, for any interleaving. -/
theorem stores_apart (l : List (Bool × Nat × UInt8)) : ∀ {s t : Phys}, Isolated s pt pt' → SameView s t pt →
    SameView (stores pt pt' s l) (stores pt pt' t (l.filter (·.1))) pt := by
  induction l with
  | nil => intro s t _ h; exact h
  | cons x l ih =>
    intro s t hi h
    obtain ⟨who, va, b⟩ := x
    cases who with
    | true =>
      refine ih (hi.congr (userStore_walk hi.left va b) ?_) (h.userStore hi.left va b)
      exact (userStore_apart hi.right.root hi.seen' va b).walk
    | false =>
      have hv := userStore_apart hi.left.root hi.seen va b
      exact ih (hi.congr hv.walk (userStore_walk hi.right va b)) (hv.symm.trans h)

/-! ## Two processes -/

/-- The pages above the user's are the kernel's. -/
theorem High.kernel {trampoline trapframe : Nat} (h : High s pt trampoline trapframe)
    (ht : trampoline < 2 ^ 56)
    (hf : trapframe < 2 ^ 56) (h1 : TRAPFRAME ≤ va) (h2 : va < MAXVA) : leaf s pt va &&& PTE_U = 0 := by
  rcases high_page h1 h2 with e | e
  · rw [leaf_page e, h.trampoline, and_flags _ (by decide), mkPte,
      pteFlags_pte (Nat.lt_trans ht (by decide)) (by decide)]
    decide
  · rw [leaf_page e, h.trapframe, and_flags _ (by decide), mkPte,
      pteFlags_pte (Nat.lt_trans hf (by decide)) (by decide)]
    decide

section
variable (h : Space s pt n) (h' : Space s pt' n')
  (hk : ∀ va, TRAPFRAME ≤ va → va < MAXVA → leaf s pt va &&& PTE_U = 0)
  (hk' : ∀ va, TRAPFRAME ≤ va → va < MAXVA → leaf s pt' va &&& PTE_U = 0)
include h h' hk hk'

theorem Space.apart
    (hd : ∀ a, Held s pt n a → ¬Held s pt' n' a) : Apart s pt pt' := by
  have huser : ∀ va, Accessible s pt' va → Held s pt' n' (pte2pa (leafPte s pt' va)) := by
    intro va ha
    obtain ⟨hv, he⟩ := h'.accessible hk' ha
    rw [he]
    exact .inr (page_mem hv)
  refine ⟨fun va a ha hn e => hd a (.inl hn) (e ▸ huser va ha), fun va vb ha hb e => ?_⟩
  obtain ⟨hv, he⟩ := h.accessible hk hb
  refine hd (pte2pa (leaf s pt vb)) (.inr (page_mem hv)) ?_
  rw [← he, e]
  exact huser va ha

/-- Address spaces that have no page in common are isolated. -/
theorem Space.isolated
    (hd : ∀ a, Held s pt n a → ¬Held s pt' n' a) : Isolated s pt pt' :=
  ⟨h.userTable hk, h'.userTable hk', h.apart h' hk hk' hd, h'.apart h hk' hk fun a ha ha' => hd a ha' ha⟩

end

end Xv6.Vm
