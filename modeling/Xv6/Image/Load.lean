import Xv6.Fs.Content
import Xv6.Vm.Fill

/-!
# Loading a program (`kernel/exec.c`, up to the arguments)

`loadImage` is the part of `exec` that reads the file: it makes a page table,
allocates and fills every segment, and adds the guard page and the stack. All
fields of the headers are the file's, so any value may turn up in them; sums
are taken modulo `2^64` and some fields are cut to 32 bits on the way.

* `readi_file`: a file without holes is the byte array that `readi` reads.
* `loadseg_spec`: every page of the segment is there, whatever the file says.
* `loadImage_spec`: an address space with a guard page and a stack on top, or
  nothing.
-/
namespace Xv6.Image
open Xv6.Vm

/-! ## Files -/

/-- What `readi` reads from a file with the given contents. -/
def readFile (content : List UInt8) (off n : Nat) : List UInt8 :=
  if off ≤ content.length ∧ off + n < 2 ^ 32 then (content.drop off).take n else []

theorem readi_file {sb : Fs.Superblock} {ip : Fin Fs.NINODE} {s : Fs.St} (h : Fs.NoHole s.blk (s.inode ip).d)
    (off n : UInt32) {bytes : List UInt8}
    (hb : bytes = readFile (Fs.contents s.blk (s.inode ip).d) off.toNat n.toNat) :
    Fs.readi sb ip none off n s = .ok ((bytes.length, bytes), s) := by
  refine Wp.eq_ok ((Fs.readi_spec h rfl).post fun r s' hr => ⟨?_, hr.1⟩)
  rw [hr.2, hb, readFile, show (Fs.contents s.blk (s.inode ip).d).length =
    (s.inode ip).d.size by simp [Fs.contents]]
  split_ifs <;> simp [Fs.contents]

/-! ## kernel/elf.h -/

/-- A little-endian field of a struct. -/
def field (b : List UInt8) (off k : Nat) : Nat := Bytes.readLE (fun i => b.getD i 0) off k

def ELF_MAGIC : Nat := 0x464C457F
def ELF_PROG_LOAD : Nat := 1

/-- The fields of `struct elfhdr` that `exec` looks at. -/
structure Elfhdr where
  magic : Nat
  entry : Nat
  phoff : Nat
  phnum : Nat

/-- `sizeof(struct elfhdr)` -/
def ELFHDRSZ : Nat := 64

def Elfhdr.ofBytes (b : List UInt8) : Elfhdr := ⟨field b 0 4, field b 24 8, field b 32 8, field b 56 2⟩

/-- The fields of `struct proghdr` that `exec` looks at. -/
structure Proghdr where
  type : Nat
  flags : Nat
  off : Nat
  vaddr : Nat
  filesz : Nat
  memsz : Nat

/-- `sizeof(struct proghdr)` -/
def PROGHDRSZ : Nat := 56

def Proghdr.ofBytes (b : List UInt8) : Proghdr :=
  ⟨field b 0 4, field b 4 4, field b 8 8, field b 16 8, field b 32 8, field b 40 8⟩

/-! ## kernel/exec.c -/

/-- The loop of `loadseg`. The counter is an `unsigned int`: for a segment of
almost `2^32` bytes it would wrap and the loop would not end, but no address
space is that large; the model stops after `passes`.
mirrors kernel/exec.c:153-163 -/
def loadsegLoop (pagetable va : Nat) (ip : List UInt8) (offset sz : Nat) : Nat → Nat → M Int
  | 0, _ => Prog.panic .loadsegAddress
  | fuel + 1, i =>
    if i < sz then do
      let pa ← walkaddr pagetable ((va + i) % 2 ^ 64)
      if pa = 0 then Prog.panic .loadsegAddress
      else do
        let n := if sz - i < PGSIZE then sz - i else PGSIZE
        let data := readFile ip ((offset + i) % 2 ^ 32) n
        storeBytes pa data
        if data.length ≠ n then pure (-1)
        else loadsegLoop pagetable va ip offset sz fuel ((i + PGSIZE) % 2 ^ 32)
    else pure 0

/-- mirrors kernel/exec.c:147-166 -/
def loadseg (pagetable va : Nat) (ip : List UInt8) (offset sz : Nat) : M Int :=
  loadsegLoop pagetable va ip (offset % 2 ^ 32) (sz % 2 ^ 32) passes 0

/-- The loop over the program headers, with `n` of them to go: whether it came
to the end, and `sz`. The offset is an `int`, which `readi` takes for an
`unsigned int`.
mirrors kernel/exec.c:53-70 -/
def loadSegments (ip : List UInt8) (pagetable : Nat) : Nat → Nat → Nat → M (Bool × Nat)
  | 0, _, sz => pure (true, sz)
  | n + 1, off, sz =>
    let b := readFile ip off PROGHDRSZ
    let ph := Proghdr.ofBytes b
    let next := (off + PROGHDRSZ) % 2 ^ 32
    if b.length ≠ PROGHDRSZ then pure (false, sz)
    else if ph.type ≠ ELF_PROG_LOAD then loadSegments ip pagetable n next sz
    else if ph.memsz < ph.filesz then pure (false, sz)
    else if (ph.vaddr + ph.memsz) % 2 ^ 64 < ph.vaddr then pure (false, sz)
    else if ph.vaddr % PGSIZE ≠ 0 then pure (false, sz)
    else do
      let sz1 ← uvmalloc pagetable sz ((ph.vaddr + ph.memsz) % 2 ^ 64) (flags2perm ph.flags)
      if sz1 = 0 then pure (false, sz)
      else do
        let r ← loadseg pagetable ph.vaddr ip ph.off ph.filesz
        if r < 0 then pure (false, sz1)
        else loadSegments ip pagetable n next sz1

/-- The new table, its `sz` and `elf.entry`. -/
structure Loaded where
  pagetable : Nat
  sz : Nat
  entry : Nat

/-- mirrors kernel/exec.c:133-135 -/
def bad (pagetable sz : Nat) : M (Option Loaded) := do
  procFreepagetable pagetable sz
  pure none

/-- mirrors kernel/exec.c:40-86 -/
def loadImage (trampoline trapframe : Nat) (ip : List UInt8) : M (Option Loaded) :=
  let b := readFile ip 0 ELFHDRSZ
  let elf := Elfhdr.ofBytes b
  if b.length ≠ ELFHDRSZ then pure none
  else if elf.magic ≠ ELF_MAGIC then pure none
  else do
    let pagetable ← procPagetable trampoline trapframe
    if pagetable = 0 then pure none
    else do
      let r ← loadSegments ip pagetable elf.phnum (elf.phoff % 2 ^ 32) 0
      if r.1 = false then bad pagetable r.2
      else do
        let sz := pgRoundUp r.2
        let sz1 ← uvmalloc pagetable sz ((sz + 2 * PGSIZE) % 2 ^ 64) PTE_W
        if sz1 = 0 then bad pagetable sz
        else do
          uvmclear pagetable (sz1 - 2 * PGSIZE)
          pure (some ⟨pagetable, sz1, elf.entry⟩)

/-! ## loadseg -/

section
variable {s0 s : Phys} {pt n trampoline trapframe : Nat}

/-- Every page is the user's. -/
def AllUser (s : Phys) (pt n : Nat) : Prop := ∀ va, va < n * PGSIZE → leaf s pt va &&& PTE_U ≠ 0

variable {s' : Phys} {va offset sz : Nat} {ip : List UInt8}

theorem AllUser.same (h : AllUser s pt n) (hs : SameTree pt s s') : AllUser s' pt n := by
  intro va hv
  rw [hs.leaves.leaf]
  exact h va hv

theorem Building.accessible (h : Building s0 s pt n trampoline trapframe) (hv : va < n * PGSIZE)
    (hu : leaf s pt va &&& PTE_U ≠ 0) : Accessible s pt va ∧ leafPte s pt va = leaf s pt va := by
  have hsp := h.made.space
  have hlow := hsp.low
  have hmax := hsp.mapped_low hv
  have he := leafPte_eq hsp.table hsp.free hmax
  refine ⟨⟨hmax, ?_, by rw [he]; exact hu⟩, he⟩
  rw [he]
  exact (hsp.mapped va (by omega)).2 hv

theorem loadsegLoop_spec (hva : va % PGSIZE = 0) (hend : va + sz ≤ n * PGSIZE)
    (fuel : Nat) : ∀ {j : Nat} {s : Phys}, Building s0 s pt n trampoline trapframe → AllUser s pt n →
    j ≤ n → NPAGE < fuel + j → Wp (loadsegLoop pt va ip offset sz fuel (j * PGSIZE)) s
      (fun _ s' => Building s0 s' pt n trampoline trapframe ∧ SameTree pt s s') fun _ => False := by
  induction fuel with
  | zero =>
    intro j s h _ hj hfuel
    have := h.made.space.small
    omega
  | succ fuel ih =>
    intro j s h hu hj hfuel
    have hsmall := h.made.space.small
    unfold loadsegLoop
    rw [wp_ite]
    refine ⟨fun hlt => ?_, fun _ => (wp_pure _).2 ⟨h, SameTree.refl h.made.space.table⟩⟩
    have hin : va + j * PGSIZE < n * PGSIZE := by omega
    have hmod : (va + j * PGSIZE) % 2 ^ 64 = va + j * PGSIZE := by
      simp only [NPAGE, PGSIZE] at *
      omega
    have hnext : (j * PGSIZE + PGSIZE) % 2 ^ 32 = (j + 1) * PGSIZE := by
      simp only [NPAGE, PGSIZE] at *
      omega
    obtain ⟨hacc, hpte⟩ := Building.accessible h hin (hu _ hin)
    obtain ⟨hk, -, -⟩ := h.made.space.user_page hin
    have hpa : pageAt s pt (va + j * PGSIZE) = pte2pa (leaf s pt (va + j * PGSIZE)) := by
      rw [pageAt_eq, if_pos hacc, hpte]
    have h0 : pte2pa (leaf s pt (va + j * PGSIZE)) ≠ 0 := by
      have h1 := h.made.space.free.kend
      have h2 := hk.2.1
      omega
    rw [hmod, hnext, wp_bind, wp_walkaddr, hpa, if_neg h0, wp_bind, wp_storeBytes]
    obtain ⟨hb, hsame⟩ := h.write (page_mem hin) _
    rw [wp_ite]
    refine ⟨fun _ => (wp_pure _).2 ⟨hb, hsame⟩, fun _ => ?_⟩
    have hjn : j + 1 ≤ n := by
      simp only [PGSIZE] at hin
      omega
    exact (ih hb (hu.same hsame) hjn (by omega)).post fun _ s' hs => ⟨hs.1, hsame.trans hs.2⟩

theorem loadseg_spec (h : Building s0 s pt n trampoline trapframe)
    (hu : AllUser s pt n) (hva : va % PGSIZE = 0) (hend : va + sz ≤ n * PGSIZE) :
    Wp (loadseg pt va ip offset sz) s
    (fun _ s' => Building s0 s' pt n trampoline trapframe ∧ SameTree pt s s')
      fun _ => False := by
  have hpass : NPAGE < passes + 0 := by decide
  have hrun : Wp (loadsegLoop pt va ip (offset % 2 ^ 32) (sz % 2 ^ 32) passes (0 * PGSIZE)) s _ _ :=
    loadsegLoop_spec hva (by omega) passes h hu (Nat.zero_le n) hpass
  rwa [Nat.zero_mul] at hrun

/-! ## The program headers -/

theorem flags2perm_ok (flags : Nat) : PermOk (PTE_R ||| PTE_U ||| flags2perm flags) ∧
    (PTE_R ||| PTE_U ||| flags2perm flags ||| PTE_V) &&& PTE_U ≠ 0 := by
  unfold flags2perm PermOk
  split <;> split <;> decide

theorem field_lt (b : List UInt8) (off k : Nat) : field b off k < 256 ^ k := Bytes.readLE_lt _ _ _

/-- User pages stay the user's, and new ones are. -/
theorem AllUser.resize {m perm : Nat} (h : AllUser s pt n) (hr : Resize pt s n s' m)
    (hf : Fresh s' pt n m perm) (hp : (perm ||| PTE_V) &&& PTE_U ≠ 0) : AllUser s' pt m := by
  intro va hv
  by_cases hold : va < n * PGSIZE
  · rw [(hr.low va hold hv).1]
    exact h va hold
  · rw [and_flags _ (by decide), (hf va (by omega) hv).1]
    exact hp

/-- An image that is being loaded, of size `sz`. -/
structure Loading (s0 s : Phys) (pt sz trampoline trapframe n : Nat) : Prop where
  build : Building s0 s pt n trampoline trapframe
  size : Pages sz n
  user : AllUser s pt n

theorem loadSegments_spec (k : Nat) : ∀ {off sz n : Nat} {s : Phys},
    Loading s0 s pt sz trampoline trapframe n → Wp (loadSegments ip pt k off sz) s (fun r s' =>
      ∃ n', Loading s0 s' pt r.2 trampoline trapframe n') fun _ => False := by
  induction k with
  | zero =>
    intro off sz n s h
    unfold loadSegments
    rw [wp_pure]
    exact ⟨n, h⟩
  | succ k ih =>
    intro off sz n s h
    unfold loadSegments
    have hm : (Proghdr.ofBytes (readFile ip off PROGHDRSZ)).memsz < 2 ^ 64 := field_lt _ _ _
    dsimp only
    generalize Proghdr.ofBytes (readFile ip off PROGHDRSZ) = ph at *
    rw [wp_ite]
    refine ⟨fun _ => (wp_pure _).2 ⟨n, h⟩, fun _ => ?_⟩
    rw [wp_ite]
    refine ⟨fun _ => ih h, fun _ => ?_⟩
    rw [wp_ite]
    refine ⟨fun _ => (wp_pure _).2 ⟨n, h⟩, fun hmem => ?_⟩
    rw [wp_ite]
    refine ⟨fun _ => (wp_pure _).2 ⟨n, h⟩, fun hwrap => ?_⟩
    rw [wp_ite]
    refine ⟨fun _ => (wp_pure _).2 ⟨n, h⟩, fun halign => ?_⟩
    have hsum : (ph.vaddr + ph.memsz) % 2 ^ 64 = ph.vaddr + ph.memsz := by omega
    rw [hsum]
    obtain ⟨hperm, huser⟩ := flags2perm_ok ph.flags
    -- the segment lies in the pages of `sz1`
    have hseg : ∀ {s1 sz1 n1}, Loading s0 s1 pt sz1 trampoline trapframe n1 → ph.vaddr + ph.memsz ≤ sz1 →
        Wp (do
          let r ← loadseg pt ph.vaddr ip ph.off ph.filesz
          if r < 0 then pure (false, sz1)
          else loadSegments ip pt k ((off + PROGHDRSZ) % 2 ^ 32) sz1) s1
          (fun r s' => ∃ n', Loading s0 s' pt r.2 trampoline trapframe n') fun _ => False := by
      intro s1 sz1 n1 h1 hle
      have hsz := h1.size.1
      refine (loadseg_spec h1.build h1.user (by omega) (by omega)).bind fun r s2 h2 => ?_
      have hload : Loading s0 s2 pt sz1 trampoline trapframe n1 := ⟨h2.1, h1.size, h1.user.same h2.2⟩
      rw [wp_ite]
      exact ⟨fun _ => (wp_pure _).2 ⟨n1, hload⟩, fun _ => ih hload⟩
    by_cases hback : ph.vaddr + ph.memsz < sz
    · -- a segment that ends below `sz` adds nothing
      unfold uvmalloc
      rw [if_pos hback, wp_bind, wp_pure, if_neg (by omega)]
      exact hseg h (by omega)
    obtain ⟨m, hpages⟩ := exists_pages (ph.vaddr + ph.memsz)
    refine (uvmalloc_spec h.build.made.space h.size hpages (by omega) hperm).bind fun r s1 hr => ?_
    rw [wp_ite]
    refine ⟨fun h0 => ?_, fun h0 => ?_⟩
    · rw [wp_pure]
      rcases hr with ⟨-, hres⟩ | ⟨e, hres, hfresh⟩
      · refine ⟨n, h.build.resize hres, h.size, fun va hva => ?_⟩
        rw [(hres.low va hva hva).1]
        exact h.user va hva
      · have hsz : sz = ph.vaddr + ph.memsz := by omega
        exact ⟨m, h.build.resize hres, by rw [hsz]; exact hpages, h.user.resize hres hfresh huser⟩
    · rcases hr with ⟨e, -⟩ | ⟨e, hres, hfresh⟩
      · exact absurd e h0
      · rw [e]
        exact hseg ⟨h.build.resize hres, hpages, h.user.resize hres hfresh huser⟩ (Nat.le_refl _)

/-! ## loadImage -/

/-- An image with a guard page and a stack on top. -/
structure Stacked (s0 s : Phys) (img : Loaded) (trampoline trapframe n : Nat) : Prop where
  build : Building s0 s img.pagetable n trampoline trapframe
  size : img.sz = n * PGSIZE
  room : 2 ≤ n
  guard : ∀ va, (n - 2) * PGSIZE ≤ va → va < (n - 1) * PGSIZE → leaf s img.pagetable va &&& PTE_U = 0
  stack : ∀ va, (n - 1) * PGSIZE ≤ va → va < n * PGSIZE → leaf s img.pagetable va &&& PTE_U ≠ 0
  entry : img.entry < 2 ^ 64

theorem bad_spec (h : Building s0 s pt n trampoline trapframe) (hsz : Pages sz n) :
    Wp (bad pt sz) s (fun r s' => r = none ∧ Freed s0 s' fun _ => False) fun _ => False := by
  unfold bad
  refine (procFreepagetable_spec h.made.space hsz h.high).bind fun _ s' hs => ?_
  rw [wp_pure]
  exact ⟨rfl, h.made.freed hs⟩

theorem loadImage_spec (hf : FreeOk s0) (ht : trampoline < 2 ^ 56) (hp : trapframe < 2 ^ 56)
    (ip : List UInt8) : Wp (loadImage trampoline trapframe ip) s0 (fun r s =>
      match r with
      | none => Freed s0 s fun _ => False
      | some img => ∃ n, Stacked s0 s img trampoline trapframe n) fun _ => False := by
  unfold loadImage
  dsimp only
  rw [wp_ite]
  refine ⟨fun _ => (wp_pure _).2 (Freed.refl hf), fun _ => ?_⟩
  rw [wp_ite]
  refine ⟨fun _ => (wp_pure _).2 (Freed.refl hf), fun _ => ?_⟩
  have hentry : (Elfhdr.ofBytes (readFile ip 0 ELFHDRSZ)).entry < 2 ^ 64 := field_lt _ _ _
  generalize Elfhdr.ofBytes (readFile ip 0 ELFHDRSZ) = elf at *
  refine (procPagetable_spec hf ht hp).bind fun pt s1 h1 => ?_
  rcases h1 with ⟨e, hfr⟩ | ⟨hne, hmade, hhigh⟩
  · rw [if_pos e, wp_pure]
    exact hfr
  rw [if_neg hne]
  have hnew : Loading s0 s1 pt 0 trampoline trapframe 0 :=
    ⟨⟨hmade, hhigh, ht, hp⟩, Pages.whole 0, fun va hv => absurd hv (by omega)⟩
  refine (loadSegments_spec elf.phnum hnew).bind fun r s2 h2 => ?_
  obtain ⟨n, hload⟩ := h2
  have hsmall := hload.build.made.space.small
  have hround := hload.size.roundUp hsmall
  rw [wp_ite]
  refine ⟨fun _ => ?_, fun _ => ?_⟩
  · exact (bad_spec hload.build hload.size).post fun r s' hs => by rw [hs.1]; exact hs.2
  have hsum : (n * PGSIZE + 2 * PGSIZE) % 2 ^ 64 = (n + 2) * PGSIZE := by
    simp only [NPAGE, PGSIZE] at *
    omega
  rw [hround, hsum]
  refine (uvmalloc_spec hload.build.made.space (Pages.whole n) (Pages.whole (n + 2))
    (by simp only [PGSIZE]; omega)
    (show PermOk (PTE_R ||| PTE_U ||| PTE_W) from ⟨by decide, by decide⟩)).bind fun sz1 s3 h3 => ?_
  rw [wp_ite]
  refine ⟨fun h0 => ?_, fun h0 => ?_⟩
  · rcases h3 with ⟨-, hres⟩ | ⟨e, -, -⟩
    · exact (bad_spec (hload.build.resize hres) (Pages.whole n)).post fun r s' hs => by rw [hs.1]; exact hs.2
    · simp only [PGSIZE] at e
      omega
  rcases h3 with ⟨e, -⟩ | ⟨e, hres, hfresh⟩
  · exact absurd e h0
  rw [e, show (n + 2) * PGSIZE - 2 * PGSIZE = n * PGSIZE by simp only [PGSIZE]; omega]
  have hbuild := hload.build.resize hres
  have huser := hload.user.resize hres hfresh (by decide)
  refine (hbuild.clear (show n * PGSIZE < (n + 2) * PGSIZE by simp only [PGSIZE]; omega)).bind
    fun _ s4 h4 => ?_
  obtain ⟨hb4, hleaf, -⟩ := h4
  have hmax : ∀ va, va < (n + 2) * PGSIZE → va < MAXVA := fun va hv => hbuild.made.space.mapped_low hv
  rw [wp_pure]
  refine ⟨n + 2, hb4, rfl, by omega, fun va h1 h2 => ?_, fun va h1 h2 => ?_, hentry⟩
  · rw [show n + 2 - 2 = n by omega] at h1
    rw [show n + 2 - 1 = n + 1 by omega] at h2
    have heq : va / PGSIZE = n * PGSIZE / PGSIZE := by
      simp only [PGSIZE] at h1 h2 ⊢
      omega
    rw [hleaf va (hmax va (Nat.lt_of_lt_of_le h2 (Nat.mul_le_mul_right _ (Nat.le_succ _)))), if_pos heq]
    exact (clear_pte (leaf_lt _ _ _)).2.2.1
  · rw [show n + 2 - 1 = n + 1 by omega] at h1
    have hne : va / PGSIZE ≠ n * PGSIZE / PGSIZE := by
      simp only [PGSIZE] at h1 h2 ⊢
      omega
    rw [hleaf va (hmax va h2), if_neg hne]
    exact huser va h2

end

end Xv6.Image
