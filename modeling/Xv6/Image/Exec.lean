import Xv6.Image.Args
import Xv6.Image.Slot

/-!
# exec replaces a process's image or does nothing (`kernel/exec.c`)

The new image is built beside the old one, and the old one is given up after
the last thing that can fail. The file is what `namei` has found, by its
contents; the log and the inode's lock are left out.

* `exec_atomic`: no panic, and the whole new image or nothing at all.
* `exec_stack`: what the program finds on its stack.
-/
namespace Xv6.Image
open Function (update)
open Xv6.Vm hiding growproc growproc_spec

/-- The offsets of `epc`, `sp` and `a1` in a trapframe. -/
def EPC : Nat := 24
def SP : Nat := 48
def A1 : Nat := 120

/-- The part of a path after the last slash: `last` is the candidate so far.
mirrors kernel/exec.c:118-120 -/
def lastName (last : List UInt8) : List UInt8 → List UInt8
  | [] => last
  | c :: s => lastName (if c = 47 then s else last) s

/-- mirrors kernel/exec.c:22-141; `ip` is `namei(path)` -/
def exec (ld : Link) (p : Fin NPROC) (path : List UInt8) (ip : Option (List UInt8))
    (argv : List (List UInt8)) : K Int :=
  match ip with
  | none => pure (-1)
  | some ip => do
    let x ← getProc p
    match ← onPhys (loadImage ld.trampoline x.trapframe ip) with
    | none => pure (-1)
    | some img => do
      match ← onPhys (pushArgs img.pagetable img.sz argv) with
      | none => do
        onPhys (procFreepagetable img.pagetable img.sz)
        pure (-1)
      | some sp => do
        onPhys (store (x.trapframe + A1) sp)
        setProc p fun x => { x with
          name := safestrcpy x.name (fun i => (lastName path path).getD i 0)
          pagetable := img.pagetable
          sz := img.sz }
        onPhys (store (x.trapframe + EPC) img.entry)
        onPhys (store (x.trapframe + SP) sp)
        onPhys (procFreepagetable x.pagetable x.sz)
        pure argv.length

variable {ld : Link} {k : Kernel}

/-! ## The commit -/

variable {a sp n n' pt : Nat} {s : Phys} {x : Proc} {b : Page} {p : Fin NPROC} {argv : List (List UInt8)}

theorem setWord_page (s : Phys) {o : Nat} (ha : a % PGSIZE = 0) (ho : o < PGSIZE) (v : Nat) :
    s.setWord (a + o) v = s.setPage a ((s.mem (a / PGSIZE)).setLE o 8 v) := by
  have hp : (a + o) / PGSIZE = a / PGSIZE ∧ (a + o) % PGSIZE = o := by
    simp only [PGSIZE] at *
    omega
  unfold Phys.setWord Phys.setPage
  rw [hp.1, hp.2]

theorem setPage_setPage (s : Phys) (a : Nat) (b c : Page) : (s.setPage a b).setPage a c = s.setPage a c := by
  unfold Phys.setPage
  rw [Function.update_idem]

/-- The three registers `exec` sets. -/
theorem setRegs (s : Phys) (ha : a % PGSIZE = 0) {entry : Nat} (hsp : sp < 2 ^ 64) (he : entry < 2 ^ 64) :
    ∃ b, ((s.setWord (a + A1) sp).setWord (a + EPC) entry).setWord (a + SP) sp = s.setPage a b ∧
      (s.setPage a b).word (a + A1) = sp ∧ (s.setPage a b).word (a + EPC) = entry ∧
      (s.setPage a b).word (a + SP) = sp := by
  have h8 : ∀ o, o % 8 = 0 → (a + o) % 8 = 0 := by
    intro o ho
    simp only [PGSIZE] at ha
    omega
  have hA1 := h8 A1 (by decide)
  have hEPC := h8 EPC (by decide)
  have hSP := h8 SP (by decide)
  have hn1 : a + A1 ≠ a + SP := fun e => absurd (Nat.add_left_cancel e) (by decide)
  have hn2 : a + A1 ≠ a + EPC := fun e => absurd (Nat.add_left_cancel e) (by decide)
  have hn3 : a + EPC ≠ a + SP := fun e => absurd (Nat.add_left_cancel e) (by decide)
  have heq : ∃ b, ((s.setWord (a + A1) sp).setWord (a + EPC) entry).setWord (a + SP) sp = s.setPage a b := by
    rw [setWord_page _ ha (by decide), setWord_page _ ha (by decide),
      setWord_page _ ha (by decide), setPage_setPage, setPage_setPage]
    exact ⟨_, rfl⟩
  obtain ⟨b, heq⟩ := heq
  refine ⟨b, heq, ?_, ?_, ?_⟩
  · rw [← heq, Phys.word_setWord_ne _ _ hSP hA1 hn1, Phys.word_setWord_ne _ _ hEPC hA1 hn2,
      Phys.word_setWord _ hA1 hsp]
  · rw [← heq, Phys.word_setWord_ne _ _ hSP hEPC hn3, Phys.word_setWord _ hEPC he]
  · rw [← heq, Phys.word_setWord _ hSP hsp]

/-- The new image of `p`, once the old one has been given up. -/
structure Replaced (ld : Link) (k k' : Kernel) (p : Fin NPROC) (argv : List (List UInt8))
    (n n' : Nat) : Prop where
  memory : Memory ld k'.phys (k'.proc p) n'
  size : (k'.proc p).sz = n' * PGSIZE
  kend : k'.phys.kend = k.phys.kend
  owned : ∀ a, Owned k'.phys (k'.proc p).pagetable n' a ↔ Owned k.phys (k.proc p).pagetable n a
  freed : ∀ a, Held k.phys (k.proc p).pagetable n a → a ∈ k'.phys.freelist
  frame : ∀ a, a % PGSIZE = 0 → ¬Owned k.phys (k.proc p).pagetable n a → a ≠ (k.proc p).trapframe →
    k'.phys.mem (a / PGSIZE) = k.phys.mem (a / PGSIZE)
  rest : ∃ name pagetable sz, k' = { k with
    phys := k'.phys
    proc := update k.proc p { k.proc p with name := name, pagetable := pagetable, sz := sz } }
  room : 2 ≤ n'
  guard : ∀ va, (n' - 2) * PGSIZE ≤ va → va < (n' - 1) * PGSIZE → ¬Accessible k'.phys (k'.proc p).pagetable va
  args : ∃ sp ptrs, ArgStack k'.phys (k'.proc p).pagetable (n' * PGSIZE) argv sp ptrs ∧
    (n' - 1) * PGSIZE ≤ sp ∧
    k'.phys.word ((k.proc p).trapframe + A1) = sp ∧ k'.phys.word ((k.proc p).trapframe + SP) = sp

/-- The old image is given up: its pages are freed and the new image is left
as it is. `s` has both. -/
theorem commit_spec {s0 : Phys} (hm : Memory ld s0 x n)
    (hb : Building s0 s pt n' ld.trampoline x.trapframe) :
    Wp (procFreepagetable x.pagetable x.sz) (s.setPage x.trapframe b) (fun _ s' =>
      Space s' pt n' ∧ SameTree pt s s' ∧ SameView s s' pt ∧ s'.kend = s0.kend ∧
      (∀ a, a ∈ s'.freelist ↔ Held s0 x.pagetable n a ∨ a ∈ s.freelist) ∧
      s'.mem (x.trapframe / PGSIZE) = b ∧
      ∀ a, a % PGSIZE = 0 → ¬Owned s0 x.pagetable n a → a ≠ x.trapframe →
      s'.mem (a / PGSIZE) = s0.mem (a / PGSIZE)) fun _ => False := by
  have htook := hb.made.took
  obtain ⟨hold, hsame⟩ := hm.space.other htook
  have htf : x.trapframe ∉ s0.freelist := fun e => hm.apart (.inr (.inl e))
  have hnew : ∀ a, Held s pt n' a → a ∈ s0.freelist :=
    fun a ha => (hb.made.owned a).1 ((owned_iff _ _ _ _).2 (.inl ha))
  obtain ⟨hold1, hsame1⟩ := hold.write hm.frame.1 (fun e => hm.apart (.inl ((hsame.node _).1 e))) b
  obtain ⟨hnew1, hsameN⟩ := hb.made.space.write hm.frame.1 (fun e => htf (hnew _ (.inl e))) b
  have hheld : ∀ a, Held (s.setPage x.trapframe b) x.pagetable n a ↔ Held s0 x.pagetable n a := fun a =>
    Held.same (hsame.trans hsame1) a
  have hdisj : ∀ a, a ∈ s0.freelist → ¬Held s0 x.pagetable n a := by
    rintro a ha (e | e)
    · exact hm.space.table.used a e ha
    · exact (hm.space.pages.2 a e).2.2 ha
  refine (procFreepagetable_spec hold1 hm.size (hm.high.same (hsame.trans hsame1))).post fun _ s' hf => ?_
  -- a page of the new image is neither a page of the old one nor free
  have hkeep : ∀ a, Held s pt n' a → s'.mem (a / PGSIZE) = (s.setPage x.trapframe b).mem (a / PGSIZE) ∧
      a ∉ s'.freelist := by
    intro a ha
    have h1 : ¬Held (s.setPage x.trapframe b) x.pagetable n a := fun e => hdisj a (hnew a ha) ((hheld a).1 e)
    have h2 : a ∉ s.freelist := by
      rcases ha with ha | ha
      · exact hb.made.space.table.used a ha
      · exact (hb.made.space.pages.2 a ha).2.2
    have h3 : a % PGSIZE = 0 := by
      rcases ha with ha | ha
      · exact (hb.made.space.table.page a ha).1
      · exact (hb.made.space.pages.2 a ha).1.1
    exact ⟨hf.mem a h3 h1 h2, fun e => ((hf.list a).1 e).elim h1 h2⟩
  obtain ⟨hsp, hsame2⟩ := hnew1.congr (fun a ha => (hkeep a (.inl ((hsameN.node a).1 ha))).1) hf.kend
    hf.free fun a ha => (hkeep a ((Held.same hsameN a).1 ha)).2
  have hmem : ∀ a, Held s pt n' a → a % PGSIZE = 0 → s'.mem (a / PGSIZE) = s.mem (a / PGSIZE) := by
    intro a ha h0
    rw [(hkeep a ha).1, Phys.mem_setPage_ne _ _ (page_ne h0 hm.frame.1 fun e => htf (e ▸ hnew a ha))]
  refine ⟨hsp, hsameN.trans hsame2, ⟨SameWalk.of_pages hb.userTable.root fun a ha => ?_, fun va ha => ?_⟩,
    hf.kend.trans hb.made.kend, fun a => ?_, ?_, fun a ha hno hne => ?_⟩
  · exact hmem a (.inl ha) (hb.made.space.table.page a ha).1
  · obtain ⟨hv, he⟩ := hb.made.space.accessible hb.kernel ha
    rw [he]
    exact hmem _ (.inr (page_mem hv)) (pte2pa_aligned _)
  · rw [hf.list, hheld]
    exact Iff.rfl
  · rw [hf.mem _ hm.frame.1 (fun e => hm.apart ((owned_iff _ _ _ _).2 (.inl ((hheld _).1 e))))
      fun e => htf (htook.sub _ e)]
    exact Function.update_self _ _ _
  · rw [owned_iff, not_or] at hno
    rw [hf.mem a ha (fun e => hno.1 ((hheld a).1 e)) fun e => hno.2 (htook.sub a e),
      Phys.mem_setPage_ne _ _ (page_ne ha hm.frame.1 hne), htook.mem a ha hno.2]

/-- What `commit_spec` leaves, as the state of the process. -/
theorem Replaced.of_commit {k' : Kernel} {s' : Phys} {name : Bytes 16} {ptrs : List Nat}
    (hm : Memory ld k.phys (k.proc p) n)
    (hon : OnStack k.phys s pt n' ld.trampoline (k.proc p).trapframe) (hroom : 2 ≤ n')
    (hguard : ∀ va, (n' - 2) * PGSIZE ≤ va → va < (n' - 1) * PGSIZE → leaf s pt va &&& PTE_U = 0)
    (hargs : ArgStack s pt (n' * PGSIZE) argv sp ptrs) (hbase : (n' - 1) * PGSIZE ≤ sp)
    (hword : ∀ o, o = A1 ∨ o = SP → (s.setPage (k.proc p).trapframe b).word ((k.proc p).trapframe + o) = sp)
    (hsp : Space s' pt n') (hsame : SameTree pt s s') (hview : SameView s s' pt)
    (hkend : s'.kend = k.phys.kend)
    (hlist : ∀ a, a ∈ s'.freelist ↔ Held k.phys (k.proc p).pagetable n a ∨ a ∈ s.freelist)
    (htf : s'.mem ((k.proc p).trapframe / PGSIZE) = b)
    (hframe : ∀ a, a % PGSIZE = 0 → ¬Owned k.phys (k.proc p).pagetable n a → a ≠ (k.proc p).trapframe →
      s'.mem (a / PGSIZE) = k.phys.mem (a / PGSIZE))
    (hk : k' = { k with
      phys := s'
      proc := update k.proc p { k.proc p with name := name, pagetable := pt, sz := n' * PGSIZE } }) :
    Replaced ld k k' p argv n n' := by
  have hproc : k'.proc p = { k.proc p with name := name, pagetable := pt, sz := n' * PGSIZE } := by
    rw [hk]
    exact Function.update_self p _ k.proc
  have hphys : k'.phys = s' := by rw [hk]
  have howned : ∀ a, Owned s' pt n' a ↔ Owned k.phys (k.proc p).pagetable n a := by
    intro a
    rw [owned_iff, owned_iff, Held.same hsame, hlist, ← hon.build.made.owned a, owned_iff]
    simp only [or_left_comm]
  have hreg : ∀ o, o = A1 ∨ o = SP → s'.word ((k.proc p).trapframe + o) = sp := by
    intro o ho
    have hlt : o < PGSIZE := by
      rcases ho with rfl | rfl <;> decide
    have h0 := hm.frame.1
    have hpage : ((k.proc p).trapframe + o) / PGSIZE = (k.proc p).trapframe / PGSIZE := by
      simp only [PGSIZE] at *
      omega
    rw [← hword o ho]
    refine Phys.word_congr ?_
    rw [hpage, htf, Phys.mem_setPage_self]
  refine ⟨?_, by rw [hproc], by rw [hphys, hkend], fun a => ?_, fun a ha => ?_, fun a => ?_, ?_,
    hroom, fun va h1 h2 => ?_, sp, ptrs, ?_, hbase, ?_, ?_⟩
  · rw [hphys, hproc]
    exact ⟨hsp, Pages.whole n', hon.build.high.same hsame, hm.frame.congr hkend,
      fun e => hm.apart ((howned _).1 e)⟩
  · rw [hphys, hproc]
    exact howned a
  · rw [hphys]
    exact (hlist a).2 (.inl ha)
  · rw [hphys]
    exact hframe a
  · exact ⟨name, pt, n' * PGSIZE, by rw [hk]⟩
  · rw [hphys, hproc]
    rintro ⟨hmax, -, hU⟩
    rw [leafPte_eq hsp.table hsp.free hmax, hsame.leaves.leaf] at hU
    exact hU (hguard va h1 h2)
  · rw [hphys, hproc]
    exact hargs.view hview
  · rw [hphys]
    exact hreg A1 (.inl rfl)
  · rw [hphys]
    exact hreg SP (.inr rfl)

/-! ## exec -/

theorem exec_spec (path : List UInt8) (ip : Option (List UInt8))
    (hm : Memory ld k.phys (k.proc p) n) (hargc : argv.length < MAXARG)
    (hlen : ∀ a ∈ argv, a.length < 2 ^ 31) : Wp (exec ld p path ip argv) k (fun r k' =>
      r = -1 ∧ Freed k.phys k'.phys (fun _ => False) ∧ k' = { k with phys := k'.phys } ∧
        (∀ f img s, ip = some f → loadImage ld.trampoline (k.proc p).trapframe f k.phys = .ok (some img, s) →
          PGSIZE < argSpace argv) ∨
      r = argv.length ∧ argSpace argv ≤ PGSIZE ∧ ∃ n', Replaced ld k k' p argv n n') fun _ => False := by
  unfold exec
  cases ip with
  | none =>
    rw [wp_pure]
    exact .inl ⟨rfl, Freed.refl hm.space.free, rfl, fun f img s e => by cases e⟩
  | some f =>
    rw [wp_bind, wp_getProc, wp_bind, wp_onPhys]
    obtain ⟨r, s, hrun, h⟩ :=
      (loadImage_spec hm.space.free ld.low (Nat.lt_trans hm.frame.2.2 (by decide)) f).returns
    rw [wp_ok hrun]
    cases r with
    | none =>
      rw [wp_pure]
      refine .inl ⟨rfl, h, rfl, fun g img s' e hload => ?_⟩
      obtain rfl := Option.some.inj e
      rw [hrun] at hload
      cases hload
    | some img =>
      obtain ⟨n', hst⟩ := h
      have hon : OnStack k.phys s img.pagetable n' ld.trampoline (k.proc p).trapframe :=
        ⟨hst.build, by have := hst.room; omega, hst.stack⟩
      rw [wp_bind, hst.size]
      refine Wp.phys (pushArgs_spec hon hst.room hargc hlen) fun r s1 h1 => ?_
      obtain ⟨hon1, hsame1, hr⟩ := h1
      cases r with
      | none =>
        rw [wp_bind]
        refine Wp.phys (procFreepagetable_spec hon1.build.made.space (Pages.whole n') hon1.build.high)
          fun _ s2 h2 => ?_
        rw [wp_pure]
        exact .inl ⟨rfl, hon1.build.made.freed h2, rfl, fun _ _ _ _ _ => hr⟩
      | some sp =>
        obtain ⟨hsum, hfit, ptrs, hargs⟩ := hr
        have hsmall := hon1.build.made.space.small
        have hsp : sp < 2 ^ 64 := by
          simp only [NPAGE, PGSIZE] at hsmall hsum
          omega
        obtain ⟨b, hb, ha1, -, hspw⟩ := setRegs s1 hm.frame.1 hsp hst.entry
        simp only [wp_bind, wp_onPhys, store, wp_modify, wp_setProc]
        rw [hb]
        refine (commit_spec hm hon1.build).mono (fun _ s2 h2 => ?_) (fun _ => False.elim)
        obtain ⟨hsp2, hsame2, hview, hkend, hlist, htf, hframe⟩ := h2
        rw [wp_pure]
        have hroom := hst.room
        refine .inr ⟨rfl, hfit, n', Replaced.of_commit hm hon1 hroom (fun va h1 h2 => ?_) hargs ?_
          (fun o ho => ?_) hsp2 hsame2 hview hkend hlist htf hframe rfl⟩
        · rw [hsame1.leaves.leaf]
          exact hst.guard va h1 h2
        · simp only [PGSIZE] at hsum hfit ⊢
          omega
        · rcases ho with rfl | rfl
          · exact ha1
          · exact hspw

/-- The table maps the first `sz` bytes, the trapframe and the trampoline, and
nothing else. -/
structure Exactly (ld : Link) (s : Phys) (x : Proc) : Prop where
  whole : x.sz % PGSIZE = 0
  mapped : ∀ va, va < MAXVA → (leaf s x.pagetable va &&& PTE_V ≠ 0 ↔ va < x.sz ∨ TRAPFRAME ≤ va)
  trampoline : leaf s x.pagetable TRAMPOLINE = mkPte ld.trampoline (PTE_R ||| PTE_X)
  trapframe : leaf s x.pagetable TRAPFRAME = mkPte x.trapframe (PTE_R ||| PTE_W)

theorem Memory.exactly (h : Memory ld s x n) (hsz : x.sz = n * PGSIZE) : Exactly ld s x := by
  refine ⟨by rw [hsz]; exact Nat.mul_mod_left _ _, fun va hv => ?_, h.high.trampoline, h.high.trapframe⟩
  by_cases hva : va < TRAPFRAME
  · rw [h.space.mapped va hva, hsz]
    omega
  · refine ⟨fun _ => .inr (by omega), fun _ => ?_⟩
    rcases high_page (Nat.not_lt.1 hva) hv with e | e
    · rw [leaf_page e, h.high.trampoline]
      exact pte_valid _ _
    · rw [leaf_page e, h.high.trapframe]
      exact pte_valid _ _

/-- **`exec` is total and all-or-nothing**, for any contents of the file and
whichever `kalloc` calls fail: on failure process and memory are as they were,
on success the old image's pages are free and the new one is complete. -/
theorem exec_atomic {p : Fin NPROC} {n : Nat} (path : List UInt8) (ip : Option (List UInt8))
    {argv : List (List UInt8)} (hm : Memory ld k.phys (k.proc p) n) (hargc : argv.length < MAXARG)
    (hlen : ∀ a ∈ argv, a.length < PGSIZE) : ∃ r k', exec ld p path ip argv k = .ok (r, k') ∧
      (r = -1 → k'.proc = k.proc ∧ k'.phys.freelist.Nodup ∧
        (∀ a, a ∈ k'.phys.freelist ↔ a ∈ k.phys.freelist) ∧
        k'.phys.mem ((k.proc p).trapframe / PGSIZE) = k.phys.mem ((k.proc p).trapframe / PGSIZE) ∧
        ∀ a, a % PGSIZE = 0 → a ∉ k.phys.freelist → k'.phys.mem (a / PGSIZE) = k.phys.mem (a / PGSIZE)) ∧
      (r ≠ -1 → r = argv.length ∧ Exactly ld k'.phys (k'.proc p) ∧
        (k'.proc p).trapframe = (k.proc p).trapframe ∧
        k'.phys.freelist.Nodup ∧ (k.proc p).trapframe ∉ k'.phys.freelist ∧
        (∀ a, Held k.phys (k.proc p).pagetable n a → a ∉ k.phys.freelist ∧ a ∈ k'.phys.freelist) ∧
        ∀ q, q ≠ p → k'.proc q = k.proc q) := by
  obtain ⟨r, k', hrun, h⟩ := (exec_spec path ip hm hargc fun a ha =>
    Nat.lt_trans (hlen a ha) (by decide)).returns
  refine ⟨r, k', hrun, fun e => ?_, fun e => ?_⟩
  · rcases h with ⟨-, hf, hk, -⟩ | ⟨er, -⟩
    · refine ⟨by rw [hk], hf.free.nodup, fun a => by rw [hf.list, false_or], ?_,
        fun a ha hnf => hf.mem a ha id hnf⟩
      exact hf.mem _ hm.frame.1 id fun e => hm.apart (.inr (.inl e))
    · omega
  · rcases h with ⟨er, -⟩ | ⟨er, -, n', h⟩
    · exact absurd er e
    obtain ⟨name, pt, sz, hk⟩ := h.rest
    refine ⟨er, h.memory.exactly h.size, ?_, h.memory.space.free.nodup, fun hin => ?_,
      fun a ha => ⟨fun hin => ?_, h.freed a ha⟩, fun q hq => ?_⟩
    · rw [hk]
      simp
    · exact hm.apart ((h.owned _).1 (.inr (.inl hin)))
    · rcases ha with ha | ha
      · exact hm.space.table.used a ha hin
      · exact (hm.space.pages.2 a ha).2.2 hin
    · rw [hk]
      exact Function.update_of_ne hq _ _

/-- A program of four bytes: a header, one program header, and the bytes. -/
def tinyElf : List UInt8 :=
  let le (v k : Nat) : List UInt8 := (List.range k).map (Bytes.leByte v)
  le ELF_MAGIC 4 ++ le 0 20 ++ le 0 8 ++ le 64 8 ++ le 0 16 ++ le 1 2 ++ le 0 6 ++
    (le ELF_PROG_LOAD 4 ++ le 5 4 ++ le 120 8 ++ le 0 8 ++ le 0 8 ++ le 4 8 ++ le 4 8 ++ le 0 8) ++
    [1, 2, 3, 4]

def tinyArgv : List (List UInt8) := [[104, 105]]

/-- `exec("a", ["hi"])` -/
def tinyExec : K Int := exec bootLink slot0 [97] (some tinyElf) tinyArgv

theorem tinyArgv_fits : tinyArgv.length < MAXARG ∧ (∀ a ∈ tinyArgv, a.length < PGSIZE) ∧
    (∀ a ∈ tinyArgv, a.length < 2 ^ 31) ∧ argSpace tinyArgv ≤ PGSIZE := by
  refine ⟨by decide, by simp [tinyArgv, PGSIZE], by simp [tinyArgv], by decide⟩

def tinyLoad : K Bool := do
  let x ← getProc slot0
  let r ← onPhys (loadImage bootLink.trampoline x.trapframe tinyElf)
  pure r.isSome

/-- The first process can load it. -/
theorem tinyElf_loads : returned (first >>= fun _ => tinyLoad) = some (true, 5) := by decide +kernel

theorem tinyLoad_ok {r : Option Loaded}
    (h : loadImage bootLink.trampoline (k.proc slot0).trapframe tinyElf k.phys = .ok (r, s)) :
    tinyLoad k = .ok (r.isSome, { k with phys := s }) := by
  unfold tinyLoad
  rw [bind_ok (m := getProc slot0) (b := k.proc slot0) (s := k) rfl, bind_ok (onPhys_ok h)]
  rfl

theorem tinyExec_returns : ∃ k k', first boot = .ok (0, k) ∧ Memory bootLink k.phys (k.proc slot0) 1 ∧
    tinyExec k = .ok (1, k') := by
  obtain ⟨k, hk, hmem, -⟩ := boot_memory
  obtain ⟨r, k', h, hr⟩ := (exec_spec [97] (some tinyElf) hmem tinyArgv_fits.1 tinyArgv_fits.2.2.1).returns
  rcases hr with ⟨-, -, -, hfail⟩ | ⟨er, -⟩
  · have hload := tinyElf_loads
    obtain ⟨img, s, himg, -⟩ :=
      (loadImage_spec hmem.space.free bootLink.low (Nat.lt_trans hmem.frame.2.2 (by decide)) tinyElf).returns
    have hrun : (first >>= fun _ => tinyLoad) boot = _ :=
      (bind_ok (f := fun _ => tinyLoad) hk).trans (tinyLoad_ok himg)
    rw [returned_ok hrun] at hload
    have hsome := (Prod.mk.inj (Option.some.inj hload)).1
    obtain ⟨img, rfl⟩ := Option.isSome_iff_exists.1 hsome
    exact absurd (hfail tinyElf img s rfl himg) (Nat.not_lt.2 tinyArgv_fits.2.2.2)
  · rw [er] at h
    exact ⟨k, k', hk, hmem, h⟩

theorem exec_atomic_tinyElf : ∃ k k', first boot = .ok (0, k) ∧ tinyExec k = .ok (1, k') ∧
    Exactly bootLink k'.phys (k'.proc slot0) ∧
    ∀ a, Held k.phys (k.proc slot0).pagetable 1 a → a ∉ k.phys.freelist ∧ a ∈ k'.phys.freelist := by
  obtain ⟨k, k1, hk, hmem, h1⟩ := tinyExec_returns
  obtain ⟨r, k', h, -, hok⟩ := exec_atomic [97] (some tinyElf) hmem tinyArgv_fits.1 tinyArgv_fits.2.1
  obtain ⟨rfl, rfl⟩ := Prod.mk.inj (Except.ok.inj (h1.symm.trans h))
  obtain ⟨-, hex, -, -, -, hfree, -⟩ := hok (by decide)
  exact ⟨k, k1, hk, h1, hex, hfree⟩

/-- **The stack of the new program decodes to its arguments.** The array of
pointers is at `sp`, which is also `a1`; the strings are above it, apart from
one another, all in one page with a guard page below. Once an image is loaded,
`exec` fails exactly if the arguments take more than a page. -/
theorem exec_stack {p : Fin NPROC} {n : Nat} (path : List UInt8) (ip : Option (List UInt8))
    {argv : List (List UInt8)} (hm : Memory ld k.phys (k.proc p) n) (hargc : argv.length < MAXARG)
    (hlen : ∀ a ∈ argv, a.length < 2 ^ 31) : ∃ r k', exec ld p path ip argv k = .ok (r, k') ∧
      (∀ f img s, ip = some f → loadImage ld.trampoline (k.proc p).trapframe f k.phys = .ok (some img, s) →
        (r = -1 ↔ PGSIZE < argSpace argv)) ∧
      (r ≠ -1 → r = argv.length ∧ ∃ (sp : Nat) (ptrs : List Nat), sp % 16 = 0 ∧
        k'.phys.word ((k'.proc p).trapframe + A1) = sp ∧
        k'.phys.word ((k'.proc p).trapframe + SP) = sp ∧ ptrs.length = argv.length ∧
        (k'.proc p).sz - PGSIZE ≤ sp ∧ sp + 8 * (argv.length + 1) ≤ (k'.proc p).sz ∧
        (∀ (i q : Nat), ptrs[i]? = some q → userWord k'.phys (k'.proc p).pagetable (sp + 8 * i) = some q) ∧
        userWord k'.phys (k'.proc p).pagetable (sp + 8 * argv.length) = some 0 ∧
        (∀ (i : Nat) (a : List UInt8) (q : Nat), argv[i]? = some a → ptrs[i]? = some q →
          StringAt k'.phys (k'.proc p).pagetable q a ∧
          sp + 8 * (argv.length + 1) ≤ q ∧ q + a.length + 1 ≤ (k'.proc p).sz) ∧
        (∀ (i j : Nat) (b : List UInt8) (q q' : Nat), i < j → argv[j]? = some b → ptrs[i]? = some q →
          ptrs[j]? = some q' → q' + b.length + 1 ≤ q) ∧
        ∀ va, (k'.proc p).sz - 2 * PGSIZE ≤ va → va < (k'.proc p).sz - PGSIZE →
          ¬Accessible k'.phys (k'.proc p).pagetable va) := by
  obtain ⟨r, k', hrun, h⟩ := (exec_spec path ip hm hargc hlen).returns
  refine ⟨r, k', hrun, fun f img s hip hload => ?_, fun e => ?_⟩
  · rcases h with ⟨er, -, -, hfull⟩ | ⟨er, hfit, -⟩
    · exact ⟨fun _ => hfull f img s hip hload, fun _ => er⟩
    · constructor <;> intro <;> omega
  · rcases h with ⟨er, -⟩ | ⟨er, hfit, n', h⟩
    · exact absurd er e
    obtain ⟨sp, ptrs, hargs, hbase, ha1, hspw⟩ := h.args
    have htf : (k'.proc p).trapframe = (k.proc p).trapframe := by
      obtain ⟨name, pt, sz, hk⟩ := h.rest
      rw [hk]
      simp
    have hlength := hargs.strings.length
    have harray := hargs.array
    have h1 : n' * PGSIZE - PGSIZE = (n' - 1) * PGSIZE := by rw [Nat.sub_mul, Nat.one_mul]
    have h2 : n' * PGSIZE - 2 * PGSIZE = (n' - 2) * PGSIZE := by rw [Nat.sub_mul]
    rw [h.size, h1, h2]
    refine ⟨er, sp, ptrs, hargs.aligned, by rw [htf]; exact ha1, by rw [htf]; exact hspw, hlength, ?_, ?_,
      fun i q hq => ?_, ?_, fun i a q ha hq => ?_,
      fun i j b q q' hij hb hq hq' => hargs.strings.descending hij hq hq' hb, h.guard⟩
    · exact hbase
    · omega
    · refine hargs.words i q ?_
      rw [List.getElem?_append_left (List.getElem?_eq_some_iff.1 hq).1]
      exact hq
    · refine hargs.words _ 0 ?_
      rw [List.getElem?_append_right (by omega), hlength, Nat.sub_self]
      rfl
    · obtain ⟨q', h1, h2, h3, h4⟩ := hargs.strings.string ha
      obtain rfl := Option.some.inj (h1.symm.trans hq)
      exact ⟨h4, by omega, by omega⟩

theorem exec_stack_tinyElf : ∃ k k', first boot = .ok (0, k) ∧ tinyExec k = .ok (1, k') ∧ ∃ sp q,
    k'.phys.word ((k'.proc slot0).trapframe + A1) = sp ∧
    userWord k'.phys (k'.proc slot0).pagetable sp = some q ∧
    userWord k'.phys (k'.proc slot0).pagetable (sp + 8) = some 0 ∧
    StringAt k'.phys (k'.proc slot0).pagetable q [104, 105] := by
  obtain ⟨k, k1, hk, hmem, h1⟩ := tinyExec_returns
  obtain ⟨r, k', h, -, hok⟩ := exec_stack [97] (some tinyElf) hmem tinyArgv_fits.1 tinyArgv_fits.2.2.1
  obtain ⟨rfl, rfl⟩ := Prod.mk.inj (Except.ok.inj (h1.symm.trans h))
  obtain ⟨-, sp, ptrs, -, ha1, -, hlen, -, -, hptr, hnull, hstr, -⟩ := hok (by decide)
  obtain ⟨q, hq⟩ : ∃ q, ptrs = [q] := List.length_eq_one_iff.1 hlen
  refine ⟨k, k1, hk, h1, sp, q, ha1, hptr 0 q (by rw [hq]; rfl), hnull, ?_⟩
  exact (hstr 0 _ q rfl (by rw [hq]; rfl)).1

end Xv6.Image
