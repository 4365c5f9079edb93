import Xv6.Image.Slot
import Xv6.Vm.Dup
import Xv6.Vm.Isolate
import Mathlib

/-!
# fork copies a process or does nothing

The memory of a child is made of free pages: one for the trapframe, the others
for the table and the copies of the parent's pages. When a `kalloc` fails, at
the trapframe, at a page of the table or at a user page, they are all free
again.

* `fork_spec`: what `fork` does to the process table and to memory.
* `fork_faithful`: the child is a copy of the parent, or nothing has changed.
-/
namespace Xv6.Image
open Function (update update_idem update_of_ne update_self)
open Xv6.Proc (PState)
open Xv6.Vm hiding growproc growproc_spec

variable {ld : Link} {k : Kernel}

/-! ## What fork copies -/

variable {p np q : Fin NPROC} {R : Panic → Prop} {k' : Kernel} {n : Nat}

theorem dupFiles_spec (hne : p ≠ np) (l : List (Fin NOFILE)) : ∀ {k : Kernel},
    (∀ i f, (k.proc p).ofile i = some f → 1 ≤ k.fileRef f) →
    Wp (dupFiles p np l) k (fun _ k' => k' = { k with
      fileRef := fun f => k.fileRef f + l.countP fun i => (k.proc p).ofile i = some f
      proc := update k.proc np { k.proc np with
        ofile := fun i => if i ∈ l ∧ (k.proc p).ofile i ≠ none then (k.proc p).ofile i
        else (k.proc np).ofile i } }) R := by
  induction l with
  | nil =>
    intro k _
    unfold dupFiles
    rw [wp_pure]
    simp
  | cons i rest ih =>
    intro k hf
    unfold dupFiles
    rw [wp_bind, wp_getProc]
    cases hi : (k.proc p).ofile i with
    | none =>
      refine (ih hf).post fun _ k' e => ?_
      subst e
      have hout : ∀ j, ((j = i ∨ j ∈ rest) ∧ (k.proc p).ofile j ≠ none) ↔
          (j ∈ rest ∧ (k.proc p).ofile j ≠ none) := by
        intro j
        constructor
        · rintro ⟨rfl | hj, hn⟩
          · exact absurd hi hn
          · exact ⟨hj, hn⟩
        · rintro ⟨hj, hn⟩
          exact ⟨.inr hj, hn⟩
      simp [hi, hout]
    | some f =>
      have href := hf i f hi
      unfold filedup
      simp only [wp_bind, wp_get]
      rw [if_neg (by omega)]
      simp only [wp_bind, wp_modify, wp_pure, wp_setProc]
      have hp : ∀ y, update k.proc np y p = k.proc p := fun y => update_of_ne hne _ _
      refine (ih (fun j g hj => ?_)).post fun _ k' e => ?_
      · dsimp only at hj ⊢
        rw [hp] at hj
        have hg := hf j g hj
        by_cases e : g = f
        · rw [e, update_self]
          omega
        · rw [update_of_ne e]
          exact hg
      · subst e
        simp only [hp, update_self, update_idem]
        have hfile : ∀ j, (if j ∈ rest ∧ (k.proc p).ofile j ≠ none then (k.proc p).ofile j
            else update (k.proc np).ofile i (some f) j) = if j ∈ i :: rest ∧ (k.proc p).ofile j ≠ none
            then (k.proc p).ofile j else (k.proc np).ofile j := by
          intro j
          by_cases e : j = i
          · subst e
            rw [if_pos (c := j ∈ j :: rest ∧ _) ⟨List.mem_cons_self, by simp [hi]⟩, update_self, hi, ite_self]
          · rw [update_of_ne e]
            simp only [List.mem_cons, e, false_or]
        have hcount : ∀ g, update k.fileRef f (k.fileRef f + 1) g +
          (rest.countP fun j => (k.proc p).ofile j = some g : Nat) =
            k.fileRef g + ((i :: rest).countP fun j => (k.proc p).ofile j = some g : Nat) := by
          intro g
          by_cases e : g = f
          · subst e
            rw [update_self, List.countP_cons_of_pos (by simp [hi])]
            omega
          · rw [update_of_ne e, List.countP_cons_of_neg (by simp [hi, Ne.symm e])]
        simp only [hfile, hcount]

theorem wp_idup (ip : Option (Fin Fs.NINODE)) {Q : Option (Fin Fs.NINODE) → Kernel → Prop} :
    Wp (idup ip) k Q R ↔
    Q ip { k with inodeRef := fun i => if ip = some i then k.inodeRef i + 1 else k.inodeRef i } := by
  cases ip with
  | none => simp [wp_ok (m := idup none) (s := k) rfl]
  | some j =>
    rw [wp_ok (m := idup (some j)) (s := k) rfl]
    have e : update k.inodeRef j (k.inodeRef j + 1) = fun i => if some j = some i then k.inodeRef i + 1
        else k.inodeRef i := by
      funext i
      by_cases h : i = j
      · rw [h, update_self, if_pos rfl]
      · rw [update_of_ne h, if_neg (by simpa using Ne.symm h)]
    rw [e]

/-- The child's registers are the parent's, with 0 in `a0`. -/
theorem copyTrapframe_a0 (s : Phys) {dst src : Nat} (hd : dst % PGSIZE = 0) (hs : src % PGSIZE = 0) :
    ∃ b, (s.setPage dst ((s.mem (dst / PGSIZE)).splice (dst % PGSIZE) TRAPFRAMESZ
        fun i => (s.mem (src / PGSIZE)).get (src % PGSIZE + i))).setWord (dst + A0) 0 = s.setPage dst b ∧
      ∀ i, i < 36 → (s.setPage dst b).word (dst + 8 * i) =
        if 8 * i = A0 then 0 else s.word (src + 8 * i) := by
  generalize hc : (s.mem (dst / PGSIZE)).splice (dst % PGSIZE) TRAPFRAMESZ
    (fun i => (s.mem (src / PGSIZE)).get (src % PGSIZE + i)) = c
  have hA : A0 = 112 := rfl
  have hpage : (dst + A0) / PGSIZE = dst / PGSIZE := by
    simp only [PGSIZE] at *
    omega
  have heq : (s.setPage dst c).setWord (dst + A0) 0 =
      s.setPage dst (((s.setPage dst c).mem ((dst + A0) / PGSIZE)).setLE ((dst + A0) % PGSIZE) 8 0) := by
    unfold Phys.setWord Phys.setPage
    rw [hpage, update_idem]
  refine ⟨_, heq, fun i hi => ?_⟩
  rw [← heq]
  have ha : (dst + A0) % 8 = 0 := by
    simp only [PGSIZE] at *
    omega
  by_cases e : 8 * i = A0
  · rw [if_pos e, e, Phys.word_setWord _ ha (by decide)]
  · rw [if_neg e, Phys.word_setWord_ne _ _ ha (by simp only [PGSIZE] at *; omega) (by omega)]
    have h1 : (dst + 8 * i) / PGSIZE = dst / PGSIZE ∧ (dst + 8 * i) % PGSIZE = 8 * i := by
      simp only [PGSIZE] at *
      omega
    have h2 : (src + 8 * i) / PGSIZE = src / PGSIZE ∧ (src + 8 * i) % PGSIZE = 8 * i := by
      simp only [PGSIZE] at *
      omega
    unfold Phys.word Phys.setPage
    dsimp only
    rw [h1.1, h1.2, h2.1, h2.2, update_self]
    refine Bytes.readLE_congr fun j hj => ?_
    rw [← hc, hd, hs, Bytes.get_splice_in _ _ (Nat.zero_le _) (by simp only [TRAPFRAMESZ]; omega)
      (by simp only [PGSIZE]; omega), Nat.zero_add, Nat.sub_zero]

/-! ## fork -/

/-- The child's slot, for the parent `x` in slot `p`. -/
def Proc.child (ld : Link) (x y : Proc) (p : Fin NPROC) (pid : Int) (trapframe pagetable : Nat) : Proc :=
  { y.fresh ld pid trapframe pagetable with
    sz := x.sz
    ofile := x.ofile
    cwd := x.cwd
    name := safestrcpy y.name x.name.get
    parent := some p
    state := .runnable }

/-- The child `np` of `p` has been made. -/
structure Forked (ld : Link) (k k' : Kernel) (p np : Fin NPROC) (n : Nat) : Prop where
  unused : (k.proc np).state = .unused
  newborn : Newborn k.phys k'.phys (k'.proc np).pagetable n ld.trampoline (k'.proc np).trapframe
  copies : Copies k.phys k'.phys (k.proc p).pagetable (k'.proc np).pagetable n
  regs : ∀ i, i < 36 → k'.phys.word ((k'.proc np).trapframe + 8 * i) =
    if 8 * i = A0 then 0 else k.phys.word ((k.proc p).trapframe + 8 * i)
  rest : ∃ trapframe pagetable, k' = { k with
    phys := k'.phys
    nextpid := k.nextpid + 1
    proc := update k.proc np ((k.proc p).child ld (k.proc np) p k.nextpid trapframe pagetable)
    fileRef := fun f => k.fileRef f + (List.finRange NOFILE).countP fun i => (k.proc p).ofile i = some f
    inodeRef := fun i => if (k.proc p).cwd = some i then k.inodeRef i + 1 else k.inodeRef i }

/-- The pages and the registers of the child, once its trapframe `b` is
written. -/
theorem Forked.of_copy {trapframe pagetable : Nat} {t s : Phys} {b : Page}
    (hun : (k.proc np).state = .unused) (hm : Memory ld k.phys (k.proc p) n) (g : Taken k.phys t trapframe)
    (hmade : Made t s pagetable n) (hhigh : High s pagetable ld.trampoline trapframe)
    (hcopy : Copies t s (k.proc p).pagetable pagetable n)
    (hregs : ∀ i, i < 36 → (s.setPage trapframe b).word (trapframe + 8 * i) =
      if 8 * i = A0 then 0 else s.word ((k.proc p).trapframe + 8 * i))
    (hk : k' = { k with
      phys := s.setPage trapframe b
      nextpid := k.nextpid + 1
      proc := update k.proc np ((k.proc p).child ld (k.proc np) p k.nextpid trapframe pagetable)
      fileRef := fun f => k.fileRef f + (List.finRange NOFILE).countP fun i => (k.proc p).ofile i = some f
      inodeRef := fun i => if (k.proc p).cwd = some i then k.inodeRef i + 1 else k.inodeRef i }) :
    Forked ld k k' p np n := by
  have hnb := hmade.newborn hm.space.free g hhigh
  have hchild : k'.proc np = (k.proc p).child ld (k.proc np) p k.nextpid trapframe pagetable := by
    rw [hk]
    exact update_self _ _ _
  have hphys : k'.phys = s.setPage trapframe b := by rw [hk]
  have htf : (k'.proc np).trapframe = trapframe := by rw [hchild]; rfl
  have hpt : (k'.proc np).pagetable = pagetable := by rw [hchild]; rfl
  obtain ⟨-, hsame⟩ := g.space hm.space
  obtain ⟨-, hsame'⟩ := hnb.space.write hnb.page.1 (fun e => hnb.apart (.inl e)) b
  refine ⟨hun, ?_, fun va hv => ?_, fun i hi => ?_, trapframe, pagetable, by rw [hk]⟩
  · rw [hphys, htf, hpt]
    exact hnb.write b
  · obtain ⟨hfl, hpg⟩ := hcopy va hv
    obtain ⟨h1, -, h3⟩ := hm.space.user_page hv
    have hparent := hsame.leaves.leaf va
    have hchild := hsame'.leaves.leaf va
    -- neither the parent's page nor the child's copy is the trapframe
    have hne : pte2pa (leaf s pagetable va) ≠ trapframe := fun e => hnb.apart (.inr (.inr (e ▸ page_mem hv)))
    rw [hphys, hpt, hchild, Phys.mem_setPage_ne _ _ (page_ne (pte2pa_aligned _) hnb.page.1 hne),
      hfl, hpg, hparent]
    exact ⟨rfl, g.keep hm.space.free h1.1 fun e => h3 (e ▸ g.mem_free)⟩
  · have hkeep : s.mem ((k.proc p).trapframe / PGSIZE) = k.phys.mem ((k.proc p).trapframe / PGSIZE) :=
      hnb.mem _ hm.frame.1 fun e => hm.apart (.inr (.inl e))
    have hword : s.word ((k.proc p).trapframe + 8 * i) = k.phys.word ((k.proc p).trapframe + 8 * i) := by
      refine Phys.word_congr ?_
      have h0 := hm.frame.1
      have e : ((k.proc p).trapframe + 8 * i) / PGSIZE = (k.proc p).trapframe / PGSIZE := by
        simp only [PGSIZE] at *
        omega
      rw [e, hkeep]
    rw [hphys, htf, hregs i hi, hword]

theorem fork_spec (hu : (k.proc p).state ≠ .unused) (hm : Memory ld k.phys (k.proc p) n)
    (hc : ∀ q, (k.proc q).state = .unused → Clean (k.proc q))
    (hf : ∀ i f, (k.proc p).ofile i = some f → 1 ≤ k.fileRef f) :
    Wp (fork ld p) k (fun r k' =>
      r = -1 ∧ (k' = k ∨ ∃ q, NotMade k k' q) ∨ ∃ np, r = k.nextpid ∧
      Forked ld k k' p np n) fun _ => False := by
  unfold fork
  refine (allocproc_spec hm.space.free hc).bind fun r k1 h1 => ?_
  cases r with
  | none =>
    rw [wp_pure]
    exact .inl ⟨rfl, h1⟩
  | some np =>
    obtain ⟨t, tf, pt, h1⟩ := h1
    have hne : p ≠ np := fun e => hu (e ▸ h1.unused)
    have hpar : k1.proc p = k.proc p := by
      rw [h1.rest]
      exact update_of_ne hne _ _
    have hnew : k1.proc np = (k.proc np).fresh ld k.nextpid tf pt := by
      rw [h1.rest]
      exact update_self _ _ _
    obtain ⟨hsp, hsame⟩ := h1.taken.space hm.space
    rw [wp_bind, wp_getProc, wp_bind, wp_getProc, wp_bind, hpar, hnew]
    refine Wp.phys (uvmcopy_spec hsp hm.size h1.made h1.high) fun r s h => ?_
    rcases h with ⟨rfl, hmade, hhigh⟩ | ⟨rfl, hmade, hhigh, hcopy⟩
    · -- `freeproc` finds `sz` still 0
      have hnb := hmade.newborn hm.space.free h1.taken hhigh
      have hmem : Memory ld s (k1.proc np) 0 := by
        rw [hnew]
        exact ⟨hnb.space, by show Pages (k.proc np).sz 0; rw [(hc np h1.unused).sz]; exact Pages.whole 0,
          hnb.high, hnb.page, hnb.apart⟩
      rw [if_pos (by decide), wp_bind]
      refine (freeproc_spec (k := { k1 with phys := s }) hmem).post fun _ k' h => ?_
      obtain ⟨s', hfreed, e⟩ := h
      rw [wp_pure]
      rw [hnew] at hfreed e
      refine .inl ⟨rfl, .inr ⟨np, h1.unused, ?_, ?_⟩⟩
      · rw [e]
        exact hnb.freed hfreed
      · rw [e, h1.rest]
        exact ⟨_, by simp only [update_idem]; rfl⟩
    · have hnb := hmade.newborn hm.space.free h1.taken hhigh
      rw [if_neg (by decide)]
      simp only [wp_bind, wp_setProc, wp_onPhys, copyTrapframe, store, wp_modify]
      obtain ⟨b, hb, hregs⟩ := copyTrapframe_a0 s hnb.page.1 hm.frame.1
      rw [show (Proc.fresh ld (k.proc np) k.nextpid tf pt).trapframe = tf by rfl, hb]
      refine (dupFiles_spec hne _ (fun i f hi => ?_)).post fun _ k3 h3 => ?_
      · dsimp only at hi ⊢
        rw [update_of_ne hne, hpar] at hi
        rw [h1.rest]
        exact hf i f hi
      subst h3
      have hfile : ∀ i, (if i ∈ List.finRange NOFILE ∧ (k.proc p).ofile i ≠ none then (k.proc p).ofile i
          else (k.proc np).ofile i) = (k.proc p).ofile i := by
        intro i
        rw [(hc np h1.unused).ofile i]
        cases (k.proc p).ofile i <;> simp
      simp only [wp_idup, wp_getProc, wp_pure, update_idem, update_self, update_of_ne hne, hpar,
        hnew]
      refine .inr ⟨np, rfl, Forked.of_copy h1.unused hm h1.taken hmade hhigh hcopy hregs ?_⟩
      rw [h1.rest]
      simp only [Proc.fresh, Proc.child, update_idem, hfile]

/-- The child `np` in `k'` is a copy of the parent `p` in `k`. -/
structure Copy (k k' : Kernel) (p np : Fin NPROC) : Prop where
  page : ∀ va, va < pgRoundUp (k.proc p).sz →
    pteFlags (leaf k'.phys (k'.proc np).pagetable va) = pteFlags (leaf k.phys (k.proc p).pagetable va) ∧
    k'.phys.mem (pte2pa (leaf k'.phys (k'.proc np).pagetable va) / PGSIZE) =
      k.phys.mem (pte2pa (leaf k.phys (k.proc p).pagetable va) / PGSIZE) ∧
    pte2pa (leaf k'.phys (k'.proc np).pagetable va) ≠ pte2pa (leaf k.phys (k.proc p).pagetable va)
  parent : k'.proc p = k.proc p ∧
    ∀ va, userByte k'.phys (k.proc p).pagetable va = userByte k.phys (k.proc p).pagetable va
  sz : (k'.proc np).sz = (k.proc p).sz
  regs : ∀ i, i < 36 → k'.phys.word ((k'.proc np).trapframe + 8 * i) =
    if 8 * i = A0 then 0 else k.phys.word ((k.proc p).trapframe + 8 * i)
  ofile : (k'.proc np).ofile = (k.proc p).ofile
  cwd : (k'.proc np).cwd = (k.proc p).cwd

/-- Whatever is stored through the tables of `p` and `q`, each reads what it
would read had the other stored nothing. -/
def NotSeen (k : Kernel) (p q : Fin NPROC) : Prop := ∀ l va,
  userByte (stores (k.proc p).pagetable (k.proc q).pagetable k.phys l) (k.proc p).pagetable va =
    userByte (stores (k.proc p).pagetable (k.proc q).pagetable k.phys (l.filter (·.1)))
    (k.proc p).pagetable va

/-- Nothing is left of a process that was not made. -/
structure Undone (k k' : Kernel) : Prop where
  unused : ∀ q, (k.proc q).state = .unused → (k'.proc q).state = .unused ∧ (k'.proc q).pagetable = 0
  used : ∀ q, (k.proc q).state ≠ .unused → k'.proc q = k.proc q
  free : k'.phys.freelist.Nodup ∧ ∀ a, a ∈ k'.phys.freelist ↔ a ∈ k.phys.freelist
  mem : ∀ a, a % PGSIZE = 0 → a ∉ k.phys.freelist → k'.phys.mem (a / PGSIZE) = k.phys.mem (a / PGSIZE)
  fileRef : k'.fileRef = k.fileRef
  inodeRef : k'.inodeRef = k.inodeRef

theorem NotMade.undone (h : NotMade k k' q)
    (hc : ∀ q, (k.proc q).state = .unused → Clean (k.proc q)) : Undone k k' := by
  obtain ⟨hun, hphys, c, hk⟩ := h
  refine ⟨fun r hr => ?_, fun r hr => ?_, ⟨hphys.free.nodup, fun a => ?_⟩,
    fun a ha => hphys.mem a ha id, by rw [hk], by rw [hk]⟩
  · rw [hk]
    by_cases e : r = q
    · subst e
      simp [Proc.cleared]
    · simp only [update_of_ne e]
      exact ⟨hr, (hc r hr).pagetable⟩
  · rw [hk]
    exact update_of_ne (fun e : r = q => hr (e ▸ hun)) _ _
  · rw [hphys.list, false_or]

theorem Undone.refl (hf : FreeOk k.phys)
    (hc : ∀ q, (k.proc q).state = .unused → Clean (k.proc q)) : Undone k k :=
  ⟨fun q hq => ⟨hq, (hc q hq).pagetable⟩, fun _ _ => rfl, ⟨hf.nodup, fun _ => Iff.rfl⟩,
    fun _ _ _ => rfl, rfl, rfl⟩

section
variable {k' : Kernel} {p np : Fin NPROC} {n : Nat}

section
variable (h : Forked ld k k' p np n)
include h

theorem Forked.child_eq : ∃ trapframe pagetable,
    k'.proc np = (k.proc p).child ld (k.proc np) p k.nextpid trapframe pagetable := by
  obtain ⟨trapframe, pagetable, e⟩ := h.rest
  exact ⟨trapframe, pagetable, by rw [e]; exact update_self _ _ _⟩

theorem Forked.parent_eq (hu : (k.proc p).state ≠ .unused) : k'.proc p = k.proc p := by
  obtain ⟨trapframe, pagetable, e⟩ := h.rest
  rw [e]
  exact update_of_ne (fun e : p = np => hu (e ▸ h.unused)) _ _

theorem Forked.copy (hu : (k.proc p).state ≠ .unused) (hm : Memory ld k.phys (k.proc p) n) :
    Copy k k' p np := by
  obtain ⟨trapframe, pagetable, hchild⟩ := h.child_eq
  have hkern : ∀ va, TRAPFRAME ≤ va → va < MAXVA → leaf k.phys (k.proc p).pagetable va &&& PTE_U = 0 :=
    fun va h1 h2 => hm.high.kernel ld.low (Nat.lt_trans hm.frame.2.2 (by decide)) h1 h2
  refine ⟨fun va hv => ?_, ⟨h.parent_eq hu, fun va => ?_⟩, by rw [hchild]; rfl, h.regs, by rw [hchild]; rfl,
    by rw [hchild]; rfl⟩
  · rw [hm.size.roundUp hm.space.small] at hv
    obtain ⟨h1, h2⟩ := h.copies va hv
    refine ⟨h1, h2, fun e => ?_⟩
    -- the child's page was free, the parent's was not
    have hown : pte2pa (leaf k'.phys (k'.proc np).pagetable va) ∈ k.phys.freelist :=
      (h.newborn.owned _).1 (.inl (.inr (.inr (page_mem hv))))
    exact (hm.space.user_page hv).2.2 (e ▸ hown)
  · have hview : SameView k.phys k'.phys (k.proc p).pagetable := by
      refine ⟨SameWalk.of_pages (hm.space.table.page _ (reached_root _ _ _)).1 fun a hn =>
        h.newborn.mem a (hm.space.table.page a hn).1 (hm.space.table.used a hn), fun vb hb => ?_⟩
      obtain ⟨hv, he⟩ := hm.space.accessible hkern hb
      rw [he]
      exact hm.space.other_mem h.newborn.took hv
    exact hview.userByte va

theorem Forked.isolated (hm : Memory ld k.phys (k.proc p) n) :
    Isolated k'.phys (k.proc p).pagetable (k'.proc np).pagetable := by
  obtain ⟨hsp, hsame⟩ := hm.space.other h.newborn.took
  refine hsp.isolated h.newborn.space
    (fun va h1 h2 => (hm.high.same hsame).kernel ld.low (Nat.lt_trans hm.frame.2.2 (by decide)) h1 h2)
    (fun va h1 h2 => h.newborn.high.kernel ld.low (Nat.lt_trans h.newborn.page.2.2 (by decide)) h1 h2)
      (fun a ha hb => ?_)
  have hfree : a ∈ k.phys.freelist := (h.newborn.owned a).1 (.inl ((owned_iff _ _ _ _).2 (.inl hb)))
  rcases (Held.same hsame a).1 ha with e | e
  · exact hm.space.table.used a e hfree
  · exact (hm.space.pages.2 a e).2.2 hfree

end

end

theorem Isolated.notSeen (h : Isolated k.phys (k.proc p).pagetable (k.proc q).pagetable) :
    NotSeen k p q := fun l va => ((stores_apart l h (SameView.refl _ _)).userByte va).symm

/-- **`fork` copies the parent faithfully or not at all.** -/
theorem fork_faithful {p : Fin NPROC} {n : Nat} (hu : (k.proc p).state ≠ .unused)
    (hm : Memory ld k.phys (k.proc p) n) (hc : ∀ q, (k.proc q).state = .unused → Clean (k.proc q))
    (hf : ∀ i f, (k.proc p).ofile i = some f → 1 ≤ k.fileRef f) (hpid : 0 < k.nextpid) :
    ∃ r k', fork ld p k = .ok (r, k') ∧ (r = -1 → Undone k k') ∧
      (r ≠ -1 → ∃ np, (k.proc np).state = .unused ∧ (k'.proc np).state = .runnable ∧ (k'.proc np).pid = r ∧
        (k'.proc np).parent = some p ∧ Copy k k' p np ∧ NotSeen k' p np ∧ NotSeen k' np p) := by
  obtain ⟨r, k', hrun, h⟩ := (fork_spec hu hm hc hf).returns
  refine ⟨r, k', hrun, fun e => ?_, fun e => ?_⟩
  · rcases h with ⟨-, rfl | ⟨q, hq⟩⟩ | ⟨np, er, -⟩
    · exact Undone.refl hm.space.free hc
    · exact hq.undone hc
    · omega
  · rcases h with ⟨er, -⟩ | ⟨np, er, h⟩
    · exact absurd er e
    obtain ⟨trapframe, pagetable, hchild⟩ := h.child_eq
    have hiso := h.isolated hm
    rw [← h.parent_eq hu] at hiso
    exact ⟨np, h.unused, by rw [hchild]; rfl, by rw [hchild, er]; rfl, by rw [hchild]; rfl, h.copy hu hm,
      Isolated.notSeen hiso, Isolated.notSeen hiso.symm⟩

/-- The first process forks. -/
theorem fork_faithful_boot : ∃ k r k', fork bootLink slot0 k = .ok (r, k') ∧ r = 2 ∧
    ∃ np, Copy k k' slot0 np ∧ NotSeen k' slot0 np ∧ NotSeen k' np slot0 := by
  obtain ⟨k, hk, hmem, hstate, hpid, hfile, hclean⟩ := boot_memory
  have hrun : returned (first >>= fun _ => fork bootLink slot0) = some (2, 5) := by decide +kernel
  obtain ⟨r, k', h, -, hok⟩ := fork_faithful (by rw [hstate]; decide) hmem hclean
    (fun i f hi => by rw [hfile] at hi; cases hi) (by rw [hpid]; decide)
  rw [returned_ok ((bind_ok hk).trans h)] at hrun
  have hr := (Prod.mk.inj (Option.some.inj hrun)).1
  obtain ⟨np, -, -, -, -, hcopy, hseen, hseen'⟩ := hok (by omega)
  exact ⟨k, r, k', h, hr, np, hcopy, hseen, hseen'⟩

end Xv6.Image
