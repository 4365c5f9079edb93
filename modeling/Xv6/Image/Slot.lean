import Xv6.Image.Basic
import Xv6.Vm.Free

/-!
# Making, resizing and freeing processes (`kernel/proc.c`)

A process that is made takes free pages: one for its trapframe, the others for
its table. `freeproc` gives them back with the user's pages, also when
`allocproc` itself runs out of memory.

* `allocproc_spec`: a process without user memory, or nothing.
* `freeproc_spec`: every page of a process is freed once.
* `growproc_spec`: a process stays one when its memory changes size.
-/
namespace Xv6.Image
open Function (update)
open Xv6.Proc (PState)
open Xv6.Vm hiding growproc growproc_spec

variable {ld : Link} {k : Kernel}

/-! ## freeproc -/

/-- What `freeproc` and `exit` leave in a slot, and what the table starts with. -/
structure Clean (x : Proc) : Prop where
  sz : x.sz = 0
  pagetable : x.pagetable = 0
  ofile : ∀ i, x.ofile i = none

variable {a n : Nat} {R : Panic → Prop} {p : Fin NPROC} {s : Phys}

theorem wp_unlessNull {m : M Unit} {Q : Unit → Kernel → Prop} (h0 : a = 0 → Q () k)
    (h1 : a ≠ 0 → Wp (onPhys m) k Q R) : Wp (unlessNull a m) k Q R := by
  unfold unlessNull
  rw [wp_ite]
  exact ⟨h1, fun h => (wp_pure _).2 (h0 (by simpa using h))⟩

/-- `freeproc` of a slot that has neither a trapframe nor a table. -/
theorem freeproc_bare (ht : (k.proc p).trapframe = 0) (hp : (k.proc p).pagetable = 0) :
    Wp (freeproc p) k (fun _ k' => k' = { k with proc := update k.proc p (k.proc p).cleared }) R := by
  unfold freeproc
  rw [wp_bind, wp_getProc, wp_bind]
  refine wp_unlessNull (fun _ => ?_) (fun h => absurd ht h)
  rw [wp_bind]
  refine wp_unlessNull (fun _ => ?_) (fun h => absurd hp h)
  rw [wp_setProc]

/-- `freeproc` of a slot that has a trapframe only. -/
theorem freeproc_frame {s0 t : Phys} (hf : FreeOk s0)
    (g : Taken s0 t (k.proc p).trapframe) (hfr : Freed t k.phys fun _ => False)
    (hp : (k.proc p).pagetable = 0) : Wp (freeproc p) k (fun _ k' => ∃ s', Freed s0 s' (fun _ => False) ∧
      k' = { k with phys := s', proc := update k.proc p (k.proc p).cleared }) R := by
  have hx := g.kpage hf
  have hk : k.phys.kend = t.kend := hfr.kend
  have hnot : (k.proc p).trapframe ∉ k.phys.freelist := fun e =>
    g.not_free hf (((hfr.list _).1 e).elim False.elim id)
  unfold freeproc
  rw [wp_bind, wp_getProc, wp_bind]
  refine wp_unlessNull (fun h => absurd h (g.ne_zero hf)) fun _ => ?_
  refine Wp.phys (kfree_spec (hx.congr hk)) fun _ u hu => ?_
  obtain ⟨hl, hku, hm⟩ := hu
  rw [wp_bind]
  refine wp_unlessNull (fun _ => ?_) (fun h => absurd hp h)
  rw [wp_setProc]
  refine ⟨u, ⟨hfr.free.cons hku (hx.congr hk) hnot hl, hku.trans (hk.trans g.kend), fun a => ?_,
    fun a ha _ hnf => ?_⟩, rfl⟩
  · rw [hl, g.free, List.mem_cons, List.mem_cons, hfr.list]
    simp only [false_or]
  · rw [g.free, List.mem_cons, not_or] at hnf
    rw [hm _ (page_ne ha hx.1 hnf.1), hfr.mem a ha id hnf.2, g.keep hf ha hnf.1]

/-- The memory of a process: an address space of `n` pages, and a trapframe. -/
structure Memory (ld : Link) (s : Phys) (x : Proc) (n : Nat) : Prop where
  space : Space s x.pagetable n
  size : Pages x.sz n
  high : High s x.pagetable ld.trampoline x.trapframe
  frame : KPage s x.trapframe
  apart : ¬Owned s x.pagetable n x.trapframe

theorem kpage_ne_zero (hf : FreeOk s) (h : KPage s a) : a ≠ 0 := by
  have h1 := hf.kend
  have h2 := h.2.1
  omega

theorem freeproc_spec (h : Memory ld k.phys (k.proc p) n) :
    Wp (freeproc p) k (fun _ k' => ∃ s', Freed k.phys s'
      (fun a => Held k.phys (k.proc p).pagetable n a ∨ a = (k.proc p).trapframe) ∧
      k' = { k with phys := s', proc := update k.proc p (k.proc p).cleared }) R := by
  have hnp := kpage_ne_zero h.space.free (h.space.table.page _ (reached_root _ _ _))
  have hne := kpage_ne_zero h.space.free h.frame
  -- both calls on the memory, one after the other
  have hboth := process_freed h.space h.high h.size h.frame h.apart
  rw [wp_bind] at hboth
  unfold freeproc
  rw [wp_bind, wp_getProc, wp_bind]
  refine wp_unlessNull (fun h => absurd h hne) fun _ => Wp.phys hboth fun _ u hu => ?_
  rw [wp_bind]
  refine wp_unlessNull (fun h => absurd h hnp) fun _ => Wp.phys hu fun _ v hv => ?_
  rw [wp_setProc]
  exact ⟨v, hv, rfl⟩

/-! ## allocproc -/

/-- The slot of a process that `allocproc` has made. -/
def Proc.fresh (ld : Link) (x : Proc) (pid : Int) (trapframe pagetable : Nat) : Proc :=
  { x with
    pid := pid
    state := .used
    trapframe := trapframe
    pagetable := pagetable
    context := ⟨ld.forkret, x.kstack + PGSIZE, fun _ => 0⟩ }

/-- No process: the slot is free again, and so is the memory. -/
structure NotMade (k k' : Kernel) (q : Fin NPROC) : Prop where
  unused : (k.proc q).state = .unused
  phys : Freed k.phys k'.phys fun _ => False
  rest : ∃ c, k' = { k with
    phys := k'.phys
    nextpid := k.nextpid + 1
    proc := update k.proc q { (k.proc q).cleared with context := c } }

/-- A process with a trapframe and a table, both made of free pages. -/
structure IsMade (ld : Link) (k k' : Kernel) (np : Fin NPROC) (t : Phys)
    (trapframe pagetable : Nat) : Prop where
  unused : (k.proc np).state = .unused
  taken : Taken k.phys t trapframe
  made : Made t k'.phys pagetable 0
  high : High k'.phys pagetable ld.trampoline trapframe
  rest : k' = { k with
    phys := k'.phys
    nextpid := k.nextpid + 1
    proc := update k.proc np ((k.proc np).fresh ld k.nextpid trapframe pagetable) }

theorem allocproc_spec (hf : FreeOk k.phys) (hc : ∀ q, (k.proc q).state = .unused → Clean (k.proc q)) :
    Wp (allocproc ld) k (fun r k' =>
      match r with
      | none => k' = k ∨ ∃ q, NotMade k k' q
      | some np => ∃ t trapframe pagetable, IsMade ld k k' np t trapframe pagetable) fun _ => False := by
  unfold allocproc
  rw [wp_bind, wp_get]
  cases hfind : (List.finRange NPROC).find? fun p => (k.proc p).state = .unused with
  | none =>
    rw [wp_pure]
    exact .inl rfl
  | some p =>
    have hun : (k.proc p).state = .unused := by simpa using List.find?_some hfind
    simp only [wp_bind, wp_allocpid, wp_setProc]
    refine Wp.phys (kalloc_spec _) fun tf t hk => ?_
    cases hk with
    | none hm hl hke =>
      rw [if_pos rfl, wp_bind]
      refine (freeproc_bare (by simp) (by simpa using (hc p hun).pagetable)).post fun _ k' e => ?_
      rw [wp_pure]
      subst e
      refine .inr ⟨p, hun, ⟨hf.congr hke hl, hke, fun a => ?_, fun a _ _ _ => ?_⟩, ?_⟩
      · rw [show (_ : Phys).freelist = _ from hl, false_or]
      · rw [show (_ : Phys).mem = _ from hm]
      · exact ⟨(k.proc p).context, by simp [Proc.cleared]⟩
    | page hl hke hm =>
      have g : Taken k.phys t tf := ⟨hl, hke, hm⟩
      have hx := g.kpage hf
      rw [if_neg (g.ne_zero hf), wp_bind]
      refine Wp.phys (procPagetable_spec (hf.tail hke hl) ld.low (Nat.lt_trans hx.2.2 (by decide)))
        fun pt s h => ?_
      rw [wp_bind, wp_setProc]
      rcases h with ⟨rfl, hfr⟩ | ⟨hpt, hmade, hhigh⟩
      · rw [if_pos rfl, wp_bind]
        refine (freeproc_frame hf (t := t) (by simpa using g) (by simpa using hfr) (by simp)).post
          fun _ k' h => ?_
        obtain ⟨s', hfreed, e⟩ := h
        rw [wp_pure]
        subst e
        exact .inr ⟨p, hun, hfreed, (k.proc p).context, by simp [Proc.cleared]⟩
      · rw [if_neg hpt, wp_bind, wp_setProc, wp_pure]
        exact ⟨t, tf, pt, hun, g, hmade, hhigh, by simp [Proc.fresh]⟩

/-! ## growproc -/

theorem Memory.resize {s' : Phys} {x : Proc} {n' sz : Nat} (h : Memory ld s x n)
    (hr : Resize x.pagetable s n s' n') (hsz : Pages sz n') : Memory ld s' { x with sz := sz } n' :=
  ⟨hr.space, hsz, h.high.resize hr, h.frame.congr hr.kend,
    fun e => h.apart ((hr.owned _).1 e)⟩

/-- For any request, one below zero included. -/
theorem growproc_spec {m : Int} (h : Memory ld k.phys (k.proc p) n) (hlo : -2 ^ 31 ≤ m)
    (hhi : m < 2 ^ 31) :
    Wp (growproc p m) k (fun _ k' => ∃ n' sz s', Resize (k.proc p).pagetable k.phys n s' n' ∧
      Pages sz n' ∧ k' = { k with phys := s', proc := update k.proc p { k.proc p with sz := sz } })
      fun _ => False := by
  have hsz : (k.proc p).sz < 2 ^ 63 := by
    have h1 := h.space.small
    have h2 := h.size.1
    simp only [NPAGE, PGSIZE] at h1 h2
    omega
  unfold growproc
  rw [wp_bind, wp_getProc, wp_bind]
  by_cases h0 : 0 ≤ ((k.proc p).sz : Int) + m
  · obtain ⟨n', hn'⟩ := exists_pages (addInt (k.proc p).sz m)
    refine Wp.phys (Vm.growproc_spec (p := ⟨(k.proc p).pagetable, (k.proc p).sz⟩) h.space h.size hn' hhi h0)
      fun q s hq => ?_
    rw [wp_bind, wp_setProc, wp_pure]
    rcases hq with ⟨-, e, hr⟩ | ⟨-, e, -, hr, -⟩
    · exact ⟨n, _, s, hr, h.size, by rw [e]⟩
    · exact ⟨n', _, s, hr, hn', by rw [e]⟩
  · rw [wp_onPhys,
      wp_ok (growproc_negative _ ⟨(k.proc p).pagetable, (k.proc p).sz⟩ hsz hlo (by dsimp only; omega)),
      wp_bind, wp_setProc, wp_pure]
    exact ⟨n, _, k.phys, Resize.refl h.space, h.size, rfl⟩

/-! ## A first process -/

def bootLink : Link := ⟨0x80007000, 0x80001000, by decide⟩

/-- An empty process table, and sixteen free pages. -/
def boot : Kernel where
  phys := ⟨fun _ => Bytes.zero, (List.range 16).map (0x80010000 + 4096 * ·), [], 0x80010000⟩
  proc :=
    fun _ => ⟨.unused, 0, 0, 0, 0, none, 0, 0, 0, 0, ⟨0, 0, fun _ => 0⟩, fun _ => none, none, Bytes.zero⟩
  nextpid := 1
  fileRef := fun _ => 0
  inodeRef := fun _ => 0

theorem freeOk_boot : FreeOk boot.phys := ⟨by decide, by decide, by unfold KPage; decide⟩

def slot0 : Fin NPROC := ⟨0, NPROC_pos⟩

/-- What a run from `boot` returns. -/
def returned {α : Type} (m : K α) : Option (α × Nat) :=
  match m boot with
  | .ok (r, k) => some (r, (k.proc slot0).sz)
  | .error _ => none

theorem returned_ok {α : Type} {m : K α} {r : α} {k' : Kernel} (h : m boot = .ok (r, k')) :
    returned m = some (r, (k'.proc slot0).sz) := by
  unfold returned
  rw [h]

/-- A first process, with five bytes of memory. -/
def first : K Int := do
  let _ ← allocproc bootLink
  growproc slot0 5

theorem boot_memory : ∃ k, first boot = .ok (0, k) ∧ Memory bootLink k.phys (k.proc slot0) 1 ∧
    (k.proc slot0).state = .used ∧ k.nextpid = 2 ∧ (∀ i, (k.proc slot0).ofile i = none) ∧
    ∀ q, (k.proc q).state = .unused → Clean (k.proc q) := by
  have hclean : ∀ q, Clean (boot.proc q) := fun q => ⟨rfl, rfl, fun _ => rfl⟩
  have hslot : returned (allocproc bootLink) = some (some slot0, 0) := by decide +kernel
  have hrun : returned first = some (0, 5) := by decide +kernel
  have hspec : Wp (allocproc bootLink) boot _ _ := allocproc_spec freeOk_boot fun q _ => hclean q
  obtain ⟨r, k1, h1, hr⟩ := hspec.returns
  rw [returned_ok h1] at hslot
  obtain rfl := (Prod.mk.inj (Option.some.inj hslot)).1
  obtain ⟨t, tf, pt, hmade⟩ := hr
  have hnb := hmade.made.newborn freeOk_boot hmade.taken hmade.high
  have hnew : k1.proc slot0 = (boot.proc slot0).fresh bootLink 1 tf pt := by
    rw [hmade.rest]
    simp [boot]
  have hmem : Memory bootLink k1.phys (k1.proc slot0) 0 := by
    rw [hnew]
    exact ⟨hnb.space, Pages.whole 0, hnb.high, hnb.page, hnb.apart⟩
  obtain ⟨r, k2, h2, n', sz, s', hres, hsz, hk2⟩ :=
    (growproc_spec (m := 5) hmem (by decide) (by decide)).returns
  have hfirst : first boot = .ok (r, k2) := (bind_ok h1).trans h2
  rw [returned_ok hfirst] at hrun
  obtain ⟨hr0, hsz5⟩ := Prod.mk.inj (Option.some.inj hrun)
  have hproc : k2.proc slot0 = { k1.proc slot0 with sz := sz } := by
    rw [hk2]
    simp
  have hsz' : sz = 5 := by
    rw [hproc] at hsz5
    exact hsz5
  have hn' : n' = 1 := by
    rw [hsz'] at hsz
    unfold Pages at hsz
    simp only [PGSIZE] at hsz
    omega
  refine ⟨k2, by rw [hfirst, hr0], ?_, ?_, ?_, fun i => ?_, fun q hq => ?_⟩
  · rw [hproc, hk2, ← hn']
    exact hmem.resize hres hsz
  · rw [hproc, hnew]
    rfl
  · rw [hk2, hmade.rest]
    rfl
  · rw [hproc, hnew]
    rfl
  · have hne : q ≠ slot0 := by
      rintro rfl
      rw [hproc, hnew] at hq
      cases hq
    rw [hk2, hmade.rest]
    simp only [Function.update_of_ne hne]
    exact hclean q

end Xv6.Image
