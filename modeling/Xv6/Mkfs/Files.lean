import Xv6.Mkfs.Image

/-!
# The files on the image, and what the kernel may read

* `main_built`: when `mkfs` finishes, the root directory has the entries of
  the files in order, and each file has its contents.
* `image_safe`: every inode is mapped below its size, so that reading never
  allocates, if and only if the number of entries of the root directory is not
  a multiple of 64.
* `root_hole`: 62 files, which make 64 entries, fill a block; the size of the
  root directory is then rounded up to a block that is not there.
-/
namespace Xv6.Mkfs
open Function (update update_self update_of_ne)
open Fs (Dinode Dirent Rep Live NoHole NDIRECT MAXFILE ROOTINO DIRSIZ DESIZE)

/-- The name of a file in the root directory. -/
def nameOf (arg : List UInt8) : List UInt8 := Fs.strncpy DIRSIZ (withoutBar (withoutUser arg))

def rootEntries (files : List (List UInt8 × List UInt8)) : List Dirent :=
  ⟨1, Fs.strncpy DIRSIZ [46]⟩ :: ⟨1, Fs.strncpy DIRSIZ [46, 46]⟩ :: files.mapIdx
    fun i f => ⟨i + 2, nameOf f.1⟩

/-- The blocks that the files take, with the root directory. -/
def blocksFor (files : List (List UInt8 × List UInt8)) : Nat :=
  nblocks (DESIZE * (files.length + 2)) + (files.map fun f => nblocks f.2.length).sum

/-- The image with the root directory and some of the files. -/
structure Built (files : List (List UInt8 × List UInt8)) (m : Mk) : Prop where
  ok : Ok m
  count : m.freeinode = files.length + 2
  root : (inodes m.img ROOTINO).type = .dir
  nlink : (inodes m.img ROOTINO).nlink = 1
  entries : Fs.contents (blocks m) (inodes m.img ROOTINO) = (rootEntries files).flatMap direntBytes
  file : ∀ i, i < files.length → (inodes m.img (i + 2)).type = .file
  data : ∀ i (hi : i < files.length), Fs.contents (blocks m) (inodes m.img (i + 2)) = files[i].2
  low : ∀ b, b < inodestart → m.img b = start.img b
  taken : m.freeblock = sb.nmeta + blocksFor files

/-! ## Appending a file -/

/-- The loop over the pieces of a file. Each piece begins where the last one ended, so their blocks add up. -/
theorem appendFile_spec {inum : Nat} (passes : Nat) :
    ∀ {m : Mk} {data : List UInt8}, Ok m → 1 ≤ inum → inum < m.freeinode → data.length ≤ passes →
    Wp (appendFile inum passes data) m (fun _ m' => Ok m' ∧ Appended inum data m m')
      fun _ => FSSIZE + nblocks (inodes m.img inum).size <
      m.freeblock + nblocks ((inodes m.img inum).size + data.length) ∨
        MAXFILE * BSIZE < (inodes m.img inum).size + data.length := by
  induction passes with
  | zero =>
    intro m data h _ _ hp
    have h0 : data = [] := List.eq_nil_of_length_eq_zero (by omega)
    unfold appendFile
    rw [wp_pure, h0]
    exact ⟨h, .refl inum m⟩
  | succ passes ih =>
    intro m data h h1 h2 hp
    unfold appendFile
    rw [wp_ite]
    refine ⟨fun h0 => ?_, fun h0 => ?_⟩
    · rw [wp_pure, h0]
      exact ⟨h, .refl inum m⟩
    have hB : 0 < BSIZE := by decide
    have hlen : (data.take BSIZE).length = min BSIZE data.length := List.length_take ..
    have hlen' : (data.drop BSIZE).length = data.length - BSIZE := List.length_drop ..
    refine ((iappend_spec h h1 h2 (data.take BSIZE)).panics fun _ he => ?_).bind fun _ m1 ha => ?_
    · have hmono : nblocks ((inodes m.img inum).size + (data.take BSIZE).length) ≤
          nblocks ((inodes m.img inum).size + data.length) := nblocks_mono (by omega)
      omega
    obtain ⟨hok, ha⟩ := ha
    refine (ih hok h1 (by rw [ha.freeinode]; exact h2) (by omega)).mono
      (fun _ m' hb => ⟨hb.1, ?_⟩) fun _ he => ?_
    · have := ha.trans hb.2
      rwa [List.take_append_drop] at this
    · have htaken := ha.taken
      have hsum : (inodes m.img inum).size + (data.take BSIZE).length + (data.drop BSIZE).length =
          (inodes m.img inum).size + data.length := by omega
      rw [ha.size, hsum] at he
      omega

theorem length_direntBytes (de : Dirent) : (direntBytes de).length = DESIZE := by simp [direntBytes]

theorem length_flatMap_direntBytes (l : List Dirent) :
    (l.flatMap direntBytes).length = DESIZE * l.length := by
  induction l with
  | nil => rfl
  | cons de l ih =>
    rw [List.flatMap_cons, List.length_append, length_direntBytes, ih, List.length_cons,
      Nat.mul_succ, Nat.add_comm]

theorem rootEntries_concat (files : List (List UInt8 × List UInt8)) (f : List UInt8 × List UInt8) :
    rootEntries (files ++ [f]) = rootEntries files ++ [⟨files.length + 2, nameOf f.1⟩] := by
  simp [rootEntries, List.mapIdx_append]

theorem length_rootEntries (files : List (List UInt8 × List UInt8)) :
    (rootEntries files).length = files.length + 2 := by
  simp [rootEntries]

variable {files : List (List UInt8 × List UInt8)} {m : Mk}

theorem Built.root_size (h : Built files m) :
    (inodes m.img ROOTINO).size = DESIZE * (files.length + 2) := by
  have hlen := congrArg List.length h.entries
  rw [length_flatMap_direntBytes, length_rootEntries] at hlen
  simpa [Fs.contents] using hlen

theorem blocksFor_concat (files : List (List UInt8 × List UInt8)) (f : List UInt8 × List UInt8) :
    blocksFor (files ++ [f]) + nblocks (DESIZE * (files.length + 2)) =
      blocksFor files + nblocks (DESIZE * (files.length + 2) + DESIZE) + nblocks f.2.length := by
  have hsize : DESIZE * ((files ++ [f]).length + 2) = DESIZE * (files.length + 2) + DESIZE := by
    rw [List.length_append, List.length_singleton, ← Nat.mul_succ, Nat.add_right_comm]
  unfold blocksFor
  rw [hsize, List.map_append, List.sum_append, List.map_singleton, List.sum_singleton]
  omega

theorem blocksFor_le (files rest : List (List UInt8 × List UInt8)) :
    blocksFor files ≤ blocksFor (files ++ rest) := by
  have hmono : nblocks (DESIZE * (files.length + 2)) ≤ nblocks (DESIZE * ((files ++ rest).length + 2)) :=
    nblocks_mono (Nat.mul_le_mul_left _ (by rw [List.length_append]; omega))
  unfold blocksFor
  rw [List.map_append, List.sum_append]
  omega

/-- A file that `mkfs` does not accept. -/
def Rejected (f : List UInt8 × List UInt8) : Prop := Fs.SLASH ∈ withoutUser f.1 ∨ MAXFILE * BSIZE < f.2.length

theorem addFile_spec (h : Built files m) (f : List UInt8 × List UInt8)
    (hroom : files.length + 2 < NINODES) :
    Wp (addFile f) m (fun _ m' => Built (files ++ [f]) m')
      fun _ => Rejected f ∨ FSSIZE < sb.nmeta + blocksFor (files ++ [f]) := by
  have hN : NINODES = 200 := rfl
  unfold addFile
  rw [wp_ite]
  refine ⟨fun hs => (wp_panic _).2 (.inl (.inl hs)), fun _ => ?_⟩
  refine ((ialloc_spec h.ok (by rw [h.count]; exact hroom) .file (by decide)).never).bind fun inum m1 ha => ?_
  obtain ⟨hinum, hok1, ha⟩ := ha
  have hnew : inum = files.length + 2 := hinum.trans h.count
  have hroot : ROOTINO ≠ inum := by rw [hnew]; exact Nat.ne_of_lt (by show 1 < _; omega)
  have hsame : ∀ j, j ≠ inum → inodes m1.img j = inodes m.img j := by
    intro j hj
    rw [ha.inodes]
    exact update_of_ne (by rw [← hinum]; exact hj) ..
  have hself : inodes m1.img inum = made .file := by
    rw [ha.inodes, hinum]
    exact update_self ..
  have hcount1 : m1.freeinode = files.length + 3 := by rw [ha.freeinode, h.count]
  -- the entry in the root directory
  have hsize : (inodes m1.img ROOTINO).size =
      DESIZE * (files.length + 2) := by rw [hsame _ hroot, h.root_size]
  have happ : Wp (iappend ROOTINO (direntBytes ⟨inum, nameOf f.1⟩)) m1 _ _ :=
    iappend_spec hok1 (show 1 ≤ ROOTINO by decide) (show 1 < m1.freeinode by omega) _
  rw [hsize, length_direntBytes, ha.freeblock, h.taken] at happ
  have hcost := blocksFor_concat files f
  refine (happ.panics fun _ he => ?_).bind fun _ m2 hb => ?_
  · right
    have hmax : MAXFILE * BSIZE = 274432 := rfl
    simp only [DESIZE] at he hcost
    omega
  obtain ⟨hok2, hb⟩ := hb
  -- its data
  have hsize2 : (inodes m2.img inum).size = 0 := by rw [hb.other _ hroot.symm, hself]; rfl
  have htaken2 := hb.taken
  rw [hsize, length_direntBytes, ha.freeblock, h.taken] at htaken2
  refine (appendFile_spec f.2.length hok2 (by omega) (by rw [hb.freeinode]; omega) (Nat.le_refl _)).mono
    (fun _ m3 hc => ?_) fun _ he => ?_
  · obtain ⟨hok3, hc⟩ := hc
    have htaken3 := hc.taken
    rw [hsize2, Nat.zero_add, show nblocks 0 = 0 from rfl] at htaken3
    have hlive : ∀ j, 1 ≤ j → j < files.length + 3 → Live sb (inodes m1.img) j ∧ Live sb (inodes m2.img) j :=
      fun j h1 h2 => ⟨hok1.isLive h1 (by omega), hok2.isLive h1 (by rw [hb.freeinode]; omega)⟩
    refine ⟨hok3, ?_, ?_, ?_, ?_, fun i hi => ?_, fun i hi => ?_, fun b hb' => ?_, by omega⟩
    · rw [hc.freeinode, hb.freeinode, hcount1, List.length_append]
      rfl
    · rw [hc.type, hb.type, hsame _ hroot]
      exact h.root
    · rw [hc.nlink, hb.nlink, hsame _ hroot]
      exact h.nlink
    · rw [hc.contents_other (hlive _ (show 1 ≤ ROOTINO by decide) (show 1 < _ by omega)).2 hroot, hb.contents,
        ha.contents (by rw [← hinum]; exact hroot), h.entries, rootEntries_concat, List.flatMap_append, hnew]
      simp
    · rw [List.length_append] at hi
      rw [hc.type, hb.type]
      by_cases e : i + 2 = inum
      · rw [e, hself]
        rfl
      · rw [hsame _ e]
        exact h.file i (by simp only [List.length_singleton] at hi; omega)
    · rw [List.length_append] at hi
      by_cases e : i + 2 = inum
      · have hi' : i = files.length := by omega
        rw [e, hc.contents, hb.contents_other (hlive _ (by omega) (by omega)).1 hroot.symm, hself]
        simp [hi', Fs.contents, made]
      · have hi' : i < files.length := by simp only [List.length_singleton] at hi; omega
        rw [hc.contents_other (hlive _ (by omega) (by omega)).2 e,
          hb.contents_other (hlive _ (by omega) (by omega)).1 (by show i + 2 ≠ 1; omega),
          ha.contents (by rw [← hinum]; exact e), h.data i hi', List.getElem_append_left hi']
    · rw [hc.low b hb', hb.low b hb', ha.low b hb', h.low b hb']
  · rw [hsize2, Nat.zero_add, show nblocks 0 = 0 from rfl] at he
    unfold Rejected
    omega

theorem addFiles_spec (rest : List (List UInt8 × List UInt8)) :
    ∀ {files : List (List UInt8 × List UInt8)} {m : Mk}, Built files m →
    files.length + rest.length + 1 < NINODES → Wp (addFiles rest) m (fun _ m' => Built (files ++ rest) m')
      fun _ => (∃ f ∈ rest, Rejected f) ∨ FSSIZE < sb.nmeta + blocksFor (files ++ rest) := by
  induction rest with
  | nil =>
    intro files m h _
    unfold addFiles
    rw [wp_pure, List.append_nil]
    exact h
  | cons f rest ih =>
    intro files m h hroom
    rw [List.length_cons] at hroom
    have happ : files ++ [f] ++ rest = files ++ f :: rest := by rw [List.append_assoc, List.singleton_append]
    unfold addFiles
    refine ((addFile_spec h f (by omega)).panics fun _ he => ?_).bind fun _ m1 h1 => ?_
    · rcases he with hr | hr
      · exact .inl ⟨f, List.mem_cons_self, hr⟩
      · right
        have hle := blocksFor_le (files ++ [f]) rest
        rw [happ] at hle
        omega
    · refine (ih h1 (by rw [List.length_append, List.length_singleton]; omega)).mono
        (fun _ m' h2 => ?_) fun _ he => ?_
      · rwa [happ] at h2
      · rw [happ] at he
        rcases he with ⟨g, hg, hr⟩ | hr
        · exact .inl ⟨g, List.mem_cons_of_mem f hg, hr⟩
        · exact .inr hr

/-! ## The root directory -/

theorem start_img {b : Nat} (h : b ≠ 1) : start.img b = Bytes.zero := by
  show update (fun _ => Bytes.zero) 1 superblock b = _
  exact update_of_ne h ..

theorem inodes_start (i : Nat) (hi : i < NINODES) : (inodes start.img i).type = .free := by
  have hne : iblock i ≠ 1 := by
    have := (iblock_lt hi).1
    have : inodestart = 32 := rfl
    omega
  unfold inodes dinodeAt
  rw [if_pos hi, start_img hne]
  show tyOf ((Bytes.zero : Block).getLE _ 2) = .free
  rw [Bytes.getLE_zero]
  rfl

theorem ok_start : Ok start := by
  have hn : sb.nmeta = 46 := rfl
  have hgood : Good start := by
    refine ⟨Nat.le_refl _, by decide, fun b hb => start_img ?_⟩
    have hb : 46 ≤ b := hb
    omega
  have hdead : ∀ i, ¬Live sb (inodes start.img) i := fun i hl => hl.2.2 (inodes_start i hl.2.1)
  have hcell : ∀ c, Fs.cell sb (blocks start) (inodes start.img) c = none := fun c => Fs.cell_dead (hdead c.1)
  refine ⟨hgood,
    ⟨⟨fun k r h => ?_, fun k r h => ?_, fun k l r h => ?_, fun _ r hr hu => ?_⟩, fun b hb => ?_⟩, by decide,
    fun i h1 h2 => ?_, fun i hl => absurd hl (hdead i)⟩
  · rw [hcell] at h; cases h
  · rw [hcell] at h; cases h
  · rw [hcell] at h; cases h
  · rw [used_blocks hgood hr.2] at hu
    exact absurd (of_decide_eq_true hu) (Nat.not_lt.2 hr.1)
  · rw [used_blocks hgood (by show b < 2000; omega)]
    exact decide_eq_true hb
  · exact iff_of_false (fun h => h (inodes_start i h2)) (Nat.not_lt.2 h1)

theorem makeRoot_spec : Wp makeRoot start (fun _ m => Built [] m) fun _ => False := by
  unfold makeRoot
  refine (ialloc_spec ok_start (by decide) .dir (by decide)).bind fun inum m1 ha => ?_
  obtain ⟨hinum, hok1, ha⟩ := ha
  have hinum : inum = ROOTINO := hinum
  have hself : inodes m1.img ROOTINO = made .dir := by
    rw [ha.inodes]
    exact update_self ..
  have hfb : m1.freeblock = 46 := ha.freeblock
  have hcount : m1.freeinode = 2 := ha.freeinode
  rw [wp_ite]
  refine ⟨fun hne => absurd hinum hne, fun _ => ?_⟩
  rw [hinum]
  have hFS : FSSIZE = 2000 := rfl
  have hmax : MAXFILE * BSIZE = 274432 := rfl
  have hD : DESIZE = 16 := rfl
  have hsize1 : (inodes m1.img ROOTINO).size = 0 := by rw [hself]; rfl
  have happ1 : Wp (iappend ROOTINO (direntBytes ⟨ROOTINO, Fs.strncpy DIRSIZ [46]⟩)) m1 _ _ :=
    iappend_spec hok1 (show 1 ≤ ROOTINO by decide) (show 1 < m1.freeinode by omega) _
  rw [length_direntBytes, hsize1, show nblocks 0 = 0 from rfl,
    show nblocks (0 + DESIZE) = 1 from rfl] at happ1
  refine (happ1.panics fun _ he => by omega).bind fun _ m2 hb => ?_
  obtain ⟨hok2, hb⟩ := hb
  have hsize2 : (inodes m2.img ROOTINO).size =
      DESIZE := by rw [hb.size, hsize1, length_direntBytes, Nat.zero_add]
  have htaken2 := hb.taken
  rw [hsize1, length_direntBytes, show nblocks 0 = 0 from rfl,
    show nblocks (0 + DESIZE) = 1 from rfl] at htaken2
  have happ2 : Wp (iappend ROOTINO (direntBytes ⟨ROOTINO, Fs.strncpy DIRSIZ [46, 46]⟩)) m2 _ _ :=
    iappend_spec hok2 (show 1 ≤ ROOTINO by decide) (show 1 < m2.freeinode by rw [hb.freeinode]; omega) _
  rw [length_direntBytes, hsize2, show nblocks DESIZE = 1 from rfl,
    show nblocks (DESIZE + DESIZE) = 1 from rfl] at happ2
  refine happ2.mono (fun _ m3 hc => ?_) fun _ he => by omega
  obtain ⟨hok3, hc⟩ := hc
  have htaken3 := hc.taken
  rw [hsize2, length_direntBytes, show nblocks DESIZE = 1 from rfl,
    show nblocks (DESIZE + DESIZE) = 1 from rfl] at htaken3
  refine ⟨hok3, ?_, ?_, ?_, ?_, fun i hi => absurd hi (Nat.not_lt_zero _),
    fun i hi => absurd hi (Nat.not_lt_zero _), fun b hb' => ?_, by show _ = 46 + 1; omega⟩
  · rw [hc.freeinode, hb.freeinode, hcount]
    rfl
  · rw [hc.type, hb.type, hself]
    rfl
  · rw [hc.nlink, hb.nlink, hself]
    rfl
  · rw [hc.contents, hb.contents, hself]
    simp [Fs.contents, made, rootEntries, ROOTINO]
  · rw [hc.low b hb', hb.low b hb', ha.low b hb']

/-! ## The finished image -/

/-- The size of the root directory on the finished image. -/
def roundUp (size : Nat) : Nat := (size / BSIZE + 1) * BSIZE

/-- The image with the size of the root directory and the bitmap written. -/
def finished (m : Mk) : Mk :=
  { m with img := update (putInode m.img ROOTINO
      { inodes m.img ROOTINO with size := roundUp (inodes m.img ROOTINO).size }) sb.bmapstart (firstBits
        m.freeblock) }

theorem main_built (files : List (List UInt8 × List UInt8)) (hn : files.length + 1 < NINODES) :
    Wp (main files) start (fun _ m => ∃ m0, Built files m0 ∧ m = finished m0)
      fun _ => (∃ f ∈ files, Rejected f) ∨ FSSIZE < sb.nmeta + blocksFor files := by
  unfold main
  refine (makeRoot_spec.never).bind fun _ m1 h1 => ?_
  refine (addFiles_spec files h1 (by simpa using hn)).bind fun _ m2 h2 => ?_
  have hroot : ROOTINO < NINODES := by decide
  unfold fixRoot
  rw [wp_bind, wp_bind, wp_rinode hroot, wp_winode hroot, wp_bind, wp_get]
  unfold balloc
  have hused : m2.freeblock < BSIZE * 8 := Nat.lt_of_le_of_lt h2.ok.good.fits (by decide)
  rw [if_pos hused, wsect, wp_modify]
  exact ⟨m2, h2, rfl⟩

theorem mkfs_built (h : mkfs files = .ok m)
    (hn : files.length + 1 < NINODES) : ∃ m0, Built files m0 ∧ m = finished m0 := by
  unfold mkfs at h
  cases hrun : main files start with
  | error e =>
    rw [hrun] at h
    cases h
  | ok r =>
    rw [hrun] at h
    cases h
    exact (main_built files hn).of_ok hrun

/-- `mkfs` finishes if it accepts every file and there are enough blocks. -/
theorem mkfs_finishes (hn : files.length + 1 < NINODES)
    (hok : ∀ f ∈ files, ¬Rejected f) (hroom : sb.nmeta + blocksFor files ≤ FSSIZE) :
    ∃ m, mkfs files = .ok m := by
  unfold mkfs
  cases hrun : main files start with
  | error e =>
    rcases (main_built files hn).of_error hrun with ⟨f, hf, hr⟩ | hlt
    · exact absurd hr (hok f hf)
    · exact absurd hroom (Nat.not_le.2 hlt)
  | ok r => exact ⟨r.2, rfl⟩

theorem inodes_eq (img : Nat → Block) {i : Nat} (hi : i < NINODES) :
    inodes img i = dinodeAt img i := if_pos hi

section Finished
variable {files : List (List UInt8 × List UInt8)} {m : Mk} (h : Built files m)
include h

theorem Built.length_lt : files.length + 2 ≤ NINODES := by
  rw [← h.count]
  exact h.ok.count.2

theorem Built.inodes_finished : inodes (finished m).img =
    update (inodes m.img) ROOTINO
      { inodes m.img ROOTINO with size := roundUp (inodes m.img ROOTINO).size } := by
  have hroot : ROOTINO < NINODES := by decide
  have hcanon : Canon { inodes m.img ROOTINO with size := roundUp (inodes m.img ROOTINO).size } := by
    have hc : Canon (inodes m.img ROOTINO) := by
      rw [inodes_eq _ hroot]
      exact canon_dinodeAt _ _
    refine { hc with size := ?_ }
    have hlen : files.length + 2 ≤ 200 := h.length_lt
    show roundUp _ < 2 ^ 32
    rw [h.root_size]
    unfold roundUp
    simp only [DESIZE, BSIZE]
    omega
  rw [← inodes_put m.img hroot hcanon]
  funext i
  by_cases hi : i < NINODES
  · rw [inodes_eq _ hi, inodes_eq _ hi, dinodeAt, dinodeAt]
    have hne : iblock i ≠ sb.bmapstart := Nat.ne_of_lt (iblock_lt hi).2
    have hblk : (finished m).img (iblock i) = putInode m.img ROOTINO
        { inodes m.img ROOTINO with size := roundUp (inodes m.img ROOTINO).size }
        (iblock i) := update_of_ne hne _ _
    rw [hblk]
  · unfold inodes
    rw [if_neg hi, if_neg hi]

omit h in
theorem blocks_finished (m : Mk) {b : Nat} (hb : sb.bmapstart ≤ b) : (finished m).img b = blocks m b := by
  have hn : sb.nmeta = sb.bmapstart + 1 := rfl
  show update _ sb.bmapstart _ b = _
  by_cases e : b = sb.bmapstart
  · rw [e, update_self, blocks, if_pos rfl]
  · have hlt := (iblock_lt (show ROOTINO < NINODES by decide)).2
    rw [update_of_ne e, blocks_data (by omega), putInode, update_of_ne (by omega)]

theorem Built.live_finished (i : Nat) : Live sb (dinodeAt (finished m).img) i ↔ Live sb (inodes m.img) i := by
  have hfin := h.inodes_finished
  constructor
  · intro hl
    refine ⟨hl.1, hl.2.1, ?_⟩
    have ht := hl.2.2
    rw [← inodes_eq _ hl.2.1, hfin] at ht
    by_cases e : i = ROOTINO
    · rw [e, h.root]
      decide
    · rwa [update_of_ne e] at ht
  · intro hl
    refine ⟨hl.1, hl.2.1, ?_⟩
    rw [← inodes_eq _ hl.2.1, hfin]
    by_cases e : i = ROOTINO
    · rw [e, update_self]
      show (inodes m.img ROOTINO).type ≠ .free
      rw [h.root]
      decide
    · rw [update_of_ne e]
      exact hl.2.2

/-- The block addresses on the finished image. -/
theorem Built.slot_finished {i : Nat} (hl : Live sb (inodes m.img) i) (t : Nat) :
    Fs.slot (finished m).img (dinodeAt (finished m).img i) t = Fs.slot (blocks m) (inodes m.img i) t := by
  have haddrs : (dinodeAt (finished m).img i).addrs = (inodes m.img i).addrs := by
    rw [← inodes_eq _ hl.2.1, h.inodes_finished]
    by_cases e : i = ROOTINO
    · rw [e, update_self]
    · rw [update_of_ne e]
  have hind : (inodes m.img i).addrs NDIRECT ≠ 0 →
      (finished m).img ((inodes m.img i).addrs NDIRECT) = blocks m ((inodes m.img i).addrs NDIRECT) := by
    intro h0
    have hcell : Fs.cell sb (blocks m) (inodes m.img) (i, NDIRECT) = some ((inodes m.img i).addrs NDIRECT) :=
      Fs.cell_some.2 ⟨hl, Fs.slot_direct _ (Nat.le_refl _), h0⟩
    have hplace := (h.ok.rep.ledger.in_pool _ _ hcell).1
    have hn : sb.nmeta = sb.bmapstart + 1 := rfl
    exact blocks_finished m (by omega)
  rw [← Fs.slot_congr hind]
  unfold Fs.slot
  rw [haddrs]

end Finished

/-- An image that the kernel can read: the blocks of an inode are all there
up to its size, they are data blocks that `mkfs` has handed out, each to one
place, the bitmap says which these are, and reading allocates nothing. -/
structure Safe (m : Mk) : Prop where
  mapped : ∀ i, Live sb (dinodeAt m.img) i → ∀ bn, bn < ((dinodeAt m.img i).size + BSIZE - 1) / BSIZE →
    Fs.slot m.img (dinodeAt m.img i) (Fs.dataSlot bn) ≠ 0
  place : ∀ i, Live sb (dinodeAt m.img) i → ∀ t, Fs.slot m.img (dinodeAt m.img i) t ≠ 0 →
    sb.nmeta ≤ Fs.slot m.img (dinodeAt m.img i) t ∧ Fs.slot m.img (dinodeAt m.img i) t < m.freeblock
  distinct : ∀ i j t u, Live sb (dinodeAt m.img) i → Live sb (dinodeAt m.img) j →
    Fs.slot m.img (dinodeAt m.img i) t ≠ 0 →
    Fs.slot m.img (dinodeAt m.img i) t = Fs.slot m.img (dinodeAt m.img j) u → i = j ∧ t = u
  bitmap : ∀ b, b < FSSIZE → (Fs.used sb m.img b = true ↔ b < m.freeblock)
  reads : ∀ i, Live sb (dinodeAt m.img) i → ∀ (s : Fs.St) ip room off n (sb' : Fs.Superblock), s.blk = m.img →
    (s.inode ip).d = dinodeAt m.img i → ∃ r, Fs.readi sb' ip room off n s = .ok (r, s)

section Safety
variable {files : List (List UInt8 × List UInt8)} {m : Mk} (h : Built files m)
include h

variable {i : Nat}

/-- The root directory is the only inode whose size is not that of its contents. -/
theorem Built.size_finished (hi : i < NINODES) : (dinodeAt (finished m).img i).size =
    if i = ROOTINO then roundUp (DESIZE * (files.length + 2)) else (inodes m.img i).size := by
  rw [← inodes_eq _ hi, h.inodes_finished]
  by_cases e : i = ROOTINO
  · rw [e, update_self, if_pos rfl]
    show roundUp _ = _
    rw [h.root_size]
  · rw [update_of_ne e, if_neg e]

/-- Rounding the size of the root directory up makes no hole if it had not filled its last block. -/
theorem Built.mapped (h64 : (files.length + 2) % 64 ≠ 0) (hl : Live sb (inodes m.img) i) {bn : Nat}
    (hbn : bn < ((dinodeAt (finished m).img i).size + BSIZE - 1) / BSIZE) :
    Fs.slot (blocks m) (inodes m.img i) (Fs.dataSlot bn) ≠ 0 := by
  intro h0
  refine (h.ok.fine i hl).whole bn ?_ (Fs.file_none.2 h0)
  rw [h.size_finished hl.2.1] at hbn
  split at hbn
  · rename_i e
    rw [e, h.root_size]
    unfold roundUp at hbn
    simp only [DESIZE, BSIZE] at hbn ⊢
    omega
  · simp only [BSIZE] at hbn ⊢
    omega

theorem Built.safe (h64 : (files.length + 2) % 64 ≠ 0) : Safe (finished m) := by
  have hmapped : ∀ i, Live sb (dinodeAt (finished m).img) i → ∀ bn,
      bn < ((dinodeAt (finished m).img i).size + BSIZE - 1) / BSIZE →
      Fs.slot (finished m).img (dinodeAt (finished m).img i) (Fs.dataSlot bn) ≠ 0 := by
    intro i hl bn hbn
    have hl := (h.live_finished i).1 hl
    rw [h.slot_finished hl]
    exact h.mapped h64 hl hbn
  have hcell : ∀ i t, Live sb (dinodeAt (finished m).img) i →
    Fs.slot (finished m).img (dinodeAt (finished m).img i) t ≠ 0 →
      Fs.cell sb (blocks m) (inodes m.img) (i, t) =
      some (Fs.slot (finished m).img (dinodeAt (finished m).img i) t) := by
    intro i t hl h0
    have hl := (h.live_finished i).1 hl
    rw [h.slot_finished hl] at h0 ⊢
    exact Fs.cell_of_slot hl h0
  refine ⟨hmapped, fun i hl t h0 => ?_, fun i j t u hi hj h0 e => ?_, fun b hb => ?_,
    fun i hl s ip room off n sb' hs hd => ?_⟩
  · have hc := hcell i t hl h0
    have hdata := h.ok.rep.ledger.in_pool _ _ hc
    have hused := h.ok.rep.ledger.in_use _ _ hc
    rw [used_blocks h.ok.good hdata.2] at hused
    exact ⟨hdata.1, of_decide_eq_true hused⟩
  · have hc := hcell i t hi h0
    have hc' := hcell j u hj (by rw [← e]; exact h0)
    rw [← e] at hc'
    have := h.ok.rep.ledger.inj _ _ _ hc hc'
    rwa [Prod.mk.injEq] at this
  · have hbit : Fs.used sb (finished m).img b = Fs.used sb (blocks m) b := by
      unfold Fs.used
      rw [blocks_finished m (show sb.bmapstart ≤ sb.bblock b from Nat.le_add_left _ _)]
    rw [hbit, used_blocks h.ok.good hb]
    exact decide_eq_true_iff
  · have hwhole : NoHole s.blk (s.inode ip).d := by
      rw [hs, hd]
      exact Fs.noHole_iff.2 (hmapped i hl)
    have hread : Wp (Fs.readi sb' ip room off n) s _ fun _ => False := Fs.readi_whole hwhole room off n
    obtain ⟨r, s', hrun, hs', _⟩ := hread.returns
    rw [hs'] at hrun
    exact ⟨r, hrun⟩

/-- If it had, the size takes in one block that is not there. -/
theorem Built.hole (h64 : (files.length + 2) % 64 = 0) : Live sb (dinodeAt (finished m).img) ROOTINO ∧
    (files.length + 2) / 64 < ((dinodeAt (finished m).img ROOTINO).size + BSIZE - 1) / BSIZE ∧
    Fs.slot (finished m).img (dinodeAt (finished m).img ROOTINO)
      (Fs.dataSlot ((files.length + 2) / 64)) = 0 := by
  have hl : Live sb (inodes m.img) ROOTINO :=
    h.ok.isLive (by decide) (by rw [h.count]; exact Nat.le_add_left ..)
  refine ⟨(h.live_finished _).2 hl, ?_, ?_⟩
  · rw [h.size_finished (by decide), if_pos rfl]
    simp only [roundUp, DESIZE, BSIZE]
    omega
  · rw [h.slot_finished hl]
    refine Fs.file_none.1 ((h.ok.fine _ hl).tight _ ?_)
    rw [h.root_size]
    simp only [DESIZE, BSIZE]
    omega

end Safety

/-- The root directory has two entries more than there are files. The finished image is safe if and only if
these do not fill its last block exactly. -/
theorem image_safe {files : List (List UInt8 × List UInt8)} {m : Mk} (h : mkfs files = .ok m)
    (hn : files.length + 1 < NINODES) : Safe m ↔ (files.length + 2) % 64 ≠ 0 := by
  obtain ⟨m0, hb, rfl⟩ := mkfs_built h hn
  refine ⟨fun hs h64 => ?_, hb.safe⟩
  obtain ⟨hl, hbn, h0⟩ := hb.hole h64
  exact hs.mapped _ hl _ hbn h0

/-- One empty file. -/
def oneFile : List (List UInt8 × List UInt8) := [([95, 97], [])]

theorem image_safe_oneFile : ∃ m, mkfs oneFile = .ok m ∧ Safe m := by
  have hfin : ∃ m, mkfs oneFile = .ok m := mkfs_finishes (by decide) (by unfold Rejected; decide) (by decide)
  obtain ⟨m, hm⟩ := hfin
  exact ⟨m, hm, (image_safe hm (by decide)).2 (by decide)⟩

/-- Sixty-two empty files. -/
def sixtyTwo : List (List UInt8 × List UInt8) := List.replicate 62 ([97], [])

/-- The size of the root directory is 2048, but block 1 of it is not there. -/
theorem root_hole : ∃ m, mkfs sixtyTwo = .ok m ∧ Live sb (dinodeAt m.img) ROOTINO ∧
    (dinodeAt m.img ROOTINO).size = 2 * BSIZE ∧
    Fs.slot m.img (dinodeAt m.img ROOTINO) (Fs.dataSlot 1) = 0 := by
  have hfin : ∃ m, mkfs sixtyTwo = .ok m := mkfs_finishes (by decide) (by unfold Rejected; decide) (by decide)
  obtain ⟨m, hm⟩ := hfin
  obtain ⟨m0, hb, rfl⟩ := mkfs_built hm (by decide)
  obtain ⟨hl, -, h0⟩ := hb.hole (by decide)
  refine ⟨_, hm, hl, ?_, h0⟩
  rw [hb.size_finished (by decide), if_pos rfl]
  decide

end Xv6.Mkfs
