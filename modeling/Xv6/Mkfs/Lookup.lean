import Xv6.Fs.Walk
import Xv6.Mkfs.Files

/-!
# The kernel finds the files (`mkfs/mkfs.c` and `kernel/fs.c`)

The kernel starts from the image with an empty inode table, or with one that
nobody is using. `namei` reads the root directory up to the entry that it
looks for, so that the hole at the end of the directory (`root_hole`) is never
reached.

* `Built.entry_finished`: the entries of the root directory as the kernel
  decodes them.
* `image_lookup`: every file is found under its name, with its contents.
-/
namespace Xv6.Mkfs
open Fs (Dinode Dirent NDIRECT MAXFILE ROOTINO DIRSIZ DESIZE SLASH NINODE Live)

/-- The name under which `mkfs` stores a file, before it is cut to `DIRSIZ` bytes. -/
def shortname (arg : List UInt8) : List UInt8 := withoutBar (withoutUser arg)

/-- `struct superblock` as the kernel reads it.
mirrors kernel/fs.h:14-23, kernel/fs.c:31-38 -/
structure RawSuper where
  magic : UInt32
  size : UInt32
  nblocks : UInt32
  ninodes : UInt32
  nlog : UInt32
  logstart : UInt32
  inodestart : UInt32
  bmapstart : UInt32
  deriving DecidableEq

def readsb (img : Nat → Block) : RawSuper :=
  ⟨(img 1).word 0, (img 1).word 1, (img 1).word 2, (img 1).word 3, (img 1).word 4, (img 1).word 5,
    (img 1).word 6, (img 1).word 7⟩

/-- What the kernel is to read: the layout `sb` that its functions use. -/
def rawSuper : RawSuper where
  magic := UInt32.ofNat FSMAGIC
  size := UInt32.ofNat sb.size
  nblocks := UInt32.ofNat (sb.size - sb.nmeta)
  ninodes := UInt32.ofNat sb.ninodes
  nlog := UInt32.ofNat sb.nlog
  logstart := 2
  inodestart := UInt32.ofNat inodestart
  bmapstart := UInt32.ofNat sb.bmapstart

/-- The kernel has mounted the image and is in no call: two entries of the inode table are free. -/
structure Mounted (m : Mk) (s : Fs.St) : Prop where
  blk : s.blk = m.img
  dinode : ∀ i, i < NINODES → s.dinode i = dinodeAt m.img i
  quiet : Fs.Quiet s
  free : ∃ k l, k ≠ l ∧ (s.inode k).ref = 0 ∧ (s.inode l).ref = 0

/-- The files that `mkfs` is called with. The names on the command line are C strings. -/
structure Accepted (files : List (List UInt8 × List UInt8)) : Prop where
  string : ∀ f ∈ files, 0 ∉ f.1
  nonempty : ∀ f ∈ files, shortname f.1 ≠ []
  slash : ∀ f ∈ files, SLASH ∉ shortname f.1
  dot : ∀ f ∈ files, shortname f.1 ≠ [46]
  dotdot : ∀ f ∈ files, shortname f.1 ≠ [46, 46]
  distinct : files.Pairwise fun f g => (shortname f.1).take DIRSIZ ≠ (shortname g.1).take DIRSIZ
  length : ∀ f ∈ files, f.2.length ≤ MAXFILE * BSIZE
  inodes : files.length + 1 < NINODES
  fits : sb.nmeta + blocksFor files ≤ FSSIZE

/-! ## Names -/

variable {b : UInt8} {name : List UInt8}

theorem mem_withoutUser {arg : List UInt8} (h : b ∈ withoutUser arg) : b ∈ arg := by
  unfold withoutUser at h
  split at h
  · exact List.mem_of_mem_drop h
  · exact h

theorem mem_withoutBar (h : b ∈ withoutBar name) : b ∈ name := by
  unfold withoutBar at h
  split at h
  · exact List.mem_of_mem_drop h
  · exact h

/-- A slash is not taken off with the bar. -/
theorem slash_withoutBar (h : SLASH ∉ withoutBar name) : SLASH ∉ name := by
  unfold withoutBar at h
  split at h
  · rename_i hbar
    cases name with
    | nil => exact h
    | cons a l =>
      have ha : a = 95 := hbar
      intro hmem
      rcases List.mem_cons.1 hmem with e | e
      · rw [ha] at e
        exact absurd e (by decide)
      · exact h e
  · exact h

section Names
variable {files : List (List UInt8 × List UInt8)} (h : Accepted files)
include h

variable {f : List UInt8 × List UInt8}

theorem Accepted.not_rejected (hf : f ∈ files) : ¬Rejected f := by
  rintro (hs | hl)
  · exact slash_withoutBar (h.slash f hf) hs
  · exact Nat.not_lt.2 (h.length f hf) hl

theorem Accepted.noNul (hf : f ∈ files) : 0 ∉ shortname f.1 :=
  fun h0 => h.string f hf (mem_withoutUser (mem_withoutBar h0))

end Names

/-- When `dirlookup` takes an entry that `mkfs` has written for `name`. -/
theorem called_iff {stored : List UInt8} {inum : Nat} (hn : 0 ∉ name) (hs : 0 ∉ stored) (hi : inum ≠ 0) :
    Fs.Called (name.take DIRSIZ) ⟨inum, Fs.strncpy DIRSIZ stored⟩ ↔ name.take DIRSIZ =
    stored.take DIRSIZ := by
  have hcmp := Fs.strncmp_strncpy DIRSIZ (p := name.take DIRSIZ) (q := stored)
    (fun h => hn (List.mem_of_mem_take h)) hs
  rw [List.take_take, Nat.min_self] at hcmp
  unfold Fs.Called Fs.namecmp
  rw [hcmp]
  exact and_iff_right hi

theorem eq_of_take {l : List UInt8} (hl : l.length < DIRSIZ) (h : name.take DIRSIZ = l) : name = l := by
  have hlen := congrArg List.length h
  rw [List.length_take] at hlen
  rwa [List.take_of_length_le (by omega)] at h

/-! ## The root directory -/

theorem getElem?_flatMap_direntBytes (l : List Dirent) (j : Nat) {i : Nat} (hi : i < DESIZE) :
    (l.flatMap direntBytes)[DESIZE * j + i]? = l[j]?.map (·.encode i) := by
  induction l generalizing j with
  | nil => simp
  | cons de l ih =>
    rw [List.flatMap_cons]
    cases j with
    | zero =>
      rw [Nat.mul_zero, Nat.zero_add, List.getElem?_append_left (by rw [length_direntBytes]; exact hi)]
      simp [direntBytes, hi]
    | succ j =>
      rw [List.getElem?_append_right (by rw [length_direntBytes, Nat.mul_succ]; omega), length_direntBytes,
        List.getElem?_cons_succ, ← ih j]
      congr 1
      rw [Nat.mul_succ]
      omega

section Image
variable {files : List (List UInt8 × List UInt8)} {m : Mk} (h : Built files m)
include h

/-- The blocks of an inode on the finished image. -/
theorem Built.file_finished {i : Nat} (hl : Live sb (inodes m.img) i) (bn : Nat) :
    Fs.file (finished m).img (dinodeAt (finished m).img i) bn = Fs.file (blocks m) (inodes m.img i) bn := by
  have hslot := h.slot_finished hl (Fs.dataSlot bn)
  refine Fs.file_congr hslot fun h0 => ?_
  have hcell : Fs.cell sb (blocks m) (inodes m.img) (i, Fs.dataSlot bn) =
      some (Fs.slot (blocks m) (inodes m.img i) (Fs.dataSlot bn)) :=
    Fs.cell_of_slot hl h0
  have hplace := (h.ok.rep.ledger.in_pool _ _ hcell).1
  have hn : sb.nmeta = sb.bmapstart + 1 := rfl
  exact blocks_finished m (by omega)

theorem Built.live_root : Live sb (inodes m.img) ROOTINO :=
  h.ok.isLive (by decide) (by rw [h.count]; show 1 < _; omega)

theorem Built.size_root : DESIZE * (files.length + 2) ≤ (dinodeAt (finished m).img ROOTINO).size := by
  rw [h.size_finished (by decide), if_pos rfl]
  unfold roundUp
  simp only [DESIZE, BSIZE]
  omega

/-- The entries that `mkfs` has written, as the kernel decodes them. -/
theorem Built.entry_finished {j : Nat} {de : Dirent} (hj : (rootEntries files)[j]? = some de)
    (hlen : de.name.length = DIRSIZ)
    (hinum : de.inum < 2 ^ 16) : Fs.entry (finished m).img (dinodeAt (finished m).img ROOTINO) j = de := by
  refine Fs.entry_encode hlen hinum fun i hi => ?_
  have hlt : j < files.length + 2 := by
    rw [← length_rootEntries]
    exact (List.getElem?_eq_some_iff.1 hj).1
  have hbyte : (Fs.contents (blocks m) (inodes m.img ROOTINO))[DESIZE * j + i]? = some (de.encode i) := by
    rw [h.entries, getElem?_flatMap_direntBytes _ _ hi, hj]
    rfl
  rw [Fs.byteAt_congr (h.file_finished h.live_root _)]
  have hin : DESIZE * j + i < (inodes m.img ROOTINO).size := by
    rw [h.root_size]
    simp only [DESIZE] at hi ⊢
    omega
  simpa [Fs.contents, hin] using hbyte

/-- The root directory is mapped up to its last entry. -/
theorem Built.mapped_root {k : Nat} (hk : k < DESIZE * (files.length + 2)) :
    Fs.slot (finished m).img (dinodeAt (finished m).img ROOTINO) (Fs.dataSlot (k / BSIZE)) ≠ 0 := by
  rw [h.slot_finished h.live_root]
  exact (h.ok.fine _ h.live_root).whole.slot_ne (by rw [h.root_size]; exact hk)

/-- Block 1 has the super block, and the log is empty. -/
theorem Built.low_finished {b : Nat} (hb : b < inodestart) : (finished m).img b = start.img b := by
  have hroot := (iblock_lt (show ROOTINO < NINODES by decide)).1
  have hmap : inodestart < sb.bmapstart := by decide
  rw [← h.low b hb]
  show Function.update (putInode m.img ROOTINO _) sb.bmapstart _ b = _
  rw [Function.update_of_ne (by omega)]
  exact Function.update_of_ne (by omega) ..

end Image

/-! ## Looking up -/

section Lookup
variable {files : List (List UInt8 × List UInt8)} {m : Mk}

variable {i : Nat}

theorem rootEntries_file (hi : i < files.length) :
    (rootEntries files)[i + 2]? = some ⟨i + 2, Fs.strncpy DIRSIZ (shortname files[i].1)⟩ := by
  simp [rootEntries, hi, nameOf, shortname]

/-- The entries before that of file `i`: the two of the directory itself, and those of other files. -/
theorem Accepted.other_name (h : Accepted files) {j : Nat} (hi : i < files.length) (hj : j < i + 2) :
    ∃ inum stored, (rootEntries files)[j]? = some ⟨inum, Fs.strncpy DIRSIZ stored⟩ ∧ inum ≠ 0 ∧
    inum < 2 ^ 16 ∧ 0 ∉ stored ∧
      (shortname files[i].1).take DIRSIZ ≠ stored.take DIRSIZ := by
  have hmem := List.getElem_mem hi
  match j, hj with
  | 0, _ =>
    exact ⟨1, [46], rfl, by decide, by decide, by decide, fun e => h.dot _ hmem (eq_of_take (by decide) e)⟩
  | 1, _ =>
    exact ⟨1, [46, 46], rfl, by decide, by decide, by decide,
      fun e => h.dotdot _ hmem (eq_of_take (by decide) e)⟩
  | j + 2, hj =>
    have hlt : j < i := by omega
    have hN : files.length + 1 < 200 := h.inodes
    refine ⟨j + 2, shortname files[j].1, rootEntries_file (by omega), by omega, by omega,
      h.noNul (List.getElem_mem _), ?_⟩
    exact Ne.symm (List.pairwise_iff_getElem.1 h.distinct j i (by omega) hi hlt)

theorem Built.firstOf (h : Built files m) {e : Nat} {inum : Nat} (hn : 0 ∉ name)
    (he : e < files.length + 2) (hlt : files.length + 1 < NINODES)
    (hself : (rootEntries files)[e]? = some ⟨inum, Fs.strncpy DIRSIZ name⟩) (hi : inum ≠ 0)
    (hi' : inum < 2 ^ 16) (hfirst : ∀ j, j < e → ∃ inum stored, (rootEntries files)[j]? =
    some ⟨inum, Fs.strncpy DIRSIZ stored⟩ ∧ inum ≠ 0 ∧
      inum < 2 ^ 16 ∧ 0 ∉ stored ∧ name.take DIRSIZ ≠ stored.take DIRSIZ) :
    Fs.FirstOf (finished m).img (dinodeAt (finished m).img ROOTINO) (name.take DIRSIZ) e ∧
      (Fs.entry (finished m).img (dinodeAt (finished m).img ROOTINO) e).inum = inum := by
  have hlt : files.length + 1 < 200 := hlt
  have hin : DESIZE * e + DESIZE ≤ DESIZE * (files.length + 2) := by
    simp only [DESIZE]
    omega
  have hentry := h.entry_finished hself (Fs.length_strncpy _ _) hi'
  refine ⟨⟨Nat.le_trans hin h.size_root, ?_, fun k hk => h.mapped_root (by omega), ?_, fun j hj => ?_⟩, ?_⟩
  · simp only [DESIZE] at hin ⊢
    omega
  · rw [hentry]
    exact (called_iff hn hn hi).2 rfl
  · obtain ⟨inum', stored, hj', h1, h2, h3, h4⟩ := hfirst j hj
    rw [h.entry_finished hj' (Fs.length_strncpy _ _) h2]
    exact fun hc => h4 ((called_iff hn h3 h1).1 hc)
  · rw [hentry]

end Lookup

/-- What the kernel finds on an image. -/
structure Agrees (files : List (List UInt8 × List UInt8)) (m : Mk) : Prop where
  super : readsb m.img = rawSuper
  /-- the header of the log says that there is nothing to install -/
  log : (m.img rawSuper.logstart.toNat).word 0 = 0
  file : ∀ s cwd, Mounted m s → ∀ i (hi : i < files.length), ∃ ip s1 s2,
    Fs.namei sb cwd (SLASH :: shortname files[i].1) s = .ok (some ip, s1) ∧ Fs.ilock ip s1 = .ok ((), s2) ∧
    (s2.inode ip).d.type = .file ∧ (s2.inode ip).d.size = files[i].2.length ∧
    Fs.readi sb ip none 0 (UInt32.ofNat (s2.inode ip).d.size) s2 = .ok ((files[i].2.length, files[i].2), s2)
  root : ∀ s cwd, Mounted m s → ∀ path ∈ [[SLASH], [SLASH, 46], [SLASH, 46, 46]], ∃ ip s1 s2,
    Fs.namei sb cwd path s = .ok (some ip, s1) ∧ Fs.ilock ip s1 = .ok ((), s2) ∧
    (s2.inode ip).inum = ROOTINO ∧ (s2.inode ip).d.type = .dir

section Agree
variable {files : List (List UInt8 × List UInt8)} {m : Mk} {s : Fs.St}

theorem Built.root_inode (h : Built files m) : (dinodeAt (finished m).img ROOTINO).type = .dir ∧
    (dinodeAt (finished m).img ROOTINO).nlink ≠ 0 := by
  rw [← inodes_eq _ (by decide), h.inodes_finished, Function.update_self]
  refine ⟨h.root, ?_⟩
  show (inodes m.img ROOTINO).nlink ≠ 0
  rw [h.nlink]
  decide

variable {i inum : Nat} {path : List UInt8}

/-- The inode of a file on the finished image. -/
theorem Built.file_inode (h : Built files m) (hi : i < files.length) :
    (dinodeAt (finished m).img (i + 2)).type = .file ∧
      Fs.contents (finished m).img (dinodeAt (finished m).img (i + 2)) = files[i].2 ∧
      Fs.NoHole (finished m).img (dinodeAt (finished m).img (i + 2)) := by
  have hl : Live sb (inodes m.img) (i + 2) := h.ok.isLive (by omega) (by rw [h.count]; omega)
  have heq : dinodeAt (finished m).img (i + 2) = inodes m.img (i + 2) := by
    rw [← inodes_eq _ hl.2.1, h.inodes_finished,
      Function.update_of_ne (show i + 2 ≠ ROOTINO from Nat.ne_of_gt (show 1 < i + 2 by omega))]
  have hfile := h.file_finished hl
  rw [heq] at hfile ⊢
  refine ⟨h.file i hi, ?_, fun bn hbn => ?_⟩
  · rw [← h.data i hi]
    exact Fs.contents_congr rfl hfile
  · rw [hfile]
    exact (h.ok.fine _ hl).whole bn hbn

/-- The inode under a name in the root directory. -/
structure Found (m : Mk) (s : Fs.St) (cwd : Fin NINODE) (path : List UInt8) (inum : Nat)
    (ip : Fin NINODE) (s1 s2 : Fs.St) : Prop where
  run : Fs.namei sb cwd path s = .ok (some ip, s1)
  lock : Fs.ilock ip s1 = .ok ((), s2)
  inum_eq : (s2.inode ip).inum = inum
  d : (s2.inode ip).d = dinodeAt m.img inum
  blk : s2.blk = m.img

/-- An inode that `namei` returns is read from the image. -/
theorem Mounted.found (h : Mounted m s) {cwd : Fin NINODE}
    (hrun : Wp (Fs.namei sb cwd path) s
    (fun r s' => ∃ ip, r = some ip ∧ Fs.Reached inum ip s s') fun _ => False)
    (hi : inum < NINODES) (ht : (dinodeAt m.img inum).type ≠ .free) :
    ∃ ip s1 s2, Found m s cwd path inum ip s1 s2 := by
  obtain ⟨r, s1, hrun, ip, rfl, hreach⟩ := hrun.returns
  have hd : s1.dinode (s1.inode ip).inum =
      dinodeAt m.img inum := by rw [hreach.inum_eq, hreach.dinode, h.dinode _ hi]
  have hself : (Fs.lockedAt s1 ip).inode ip =
      { s1.inode ip with locked := true, valid := true, d := dinodeAt m.img inum } := by
    rw [← hd]
    exact Function.update_self ..
  refine ⟨ip, s1, Fs.lockedAt s1 ip, hrun, Fs.ilock_quiet hreach.quiet hreach.ref (by rw [hd]; exact ht),
    ?_, by rw [hself], hreach.blk.trans h.blk⟩
  rw [hself]
  exact hreach.inum_eq

theorem Built.found (h : Built files m) (hs : Mounted (finished m) s) (cwd : Fin NINODE) {e : Nat}
    (hne : name ≠ []) (hslash : SLASH ∉ name)
    (hfirst : Fs.FirstOf (finished m).img (dinodeAt (finished m).img ROOTINO) (name.take DIRSIZ) e)
    (hinum : (Fs.entry (finished m).img (dinodeAt (finished m).img ROOTINO) e).inum = inum)
    (hlt : inum < NINODES) (ht : (dinodeAt (finished m).img inum).type ≠ .free) :
    ∃ ip s1 s2, Found (finished m) s cwd (SLASH :: name) inum ip s1 s2 := by
  obtain ⟨hdir, hlinks⟩ := h.root_inode
  have hroot := hs.dinode ROOTINO (by decide)
  have hrun := Fs.namei_entry sb hs.quiet hs.free (by rw [hroot]; exact hdir)
    (by rw [hroot]; exact hlinks) hne hslash (by rw [hs.blk, hroot]; exact hfirst) cwd
  rw [hs.blk, hroot, hinum] at hrun
  exact hs.found hrun hlt ht

/-- "/", "/." and "/..". -/
theorem Built.found_root (h : Built files m) (hn : files.length + 1 < NINODES) (hs : Mounted (finished m) s)
    (cwd : Fin NINODE) (hpath : path ∈ [[SLASH], [SLASH, 46], [SLASH, 46, 46]]) :
    ∃ ip s1 s2, Found (finished m) s cwd path ROOTINO ip s1 s2 := by
  have hlt : ROOTINO < NINODES := by decide
  have ht : (dinodeAt (finished m).img ROOTINO).type ≠ .free := by
    rw [h.root_inode.1]
    decide
  simp only [List.mem_cons, List.not_mem_nil, or_false] at hpath
  rcases hpath with rfl | rfl | rfl
  · obtain ⟨k, l, -, hk, -⟩ := hs.free
    exact hs.found (Fs.namei_root sb hs.quiet ⟨k, hk⟩ cwd) hlt ht
  · obtain ⟨hfirst, hinum⟩ := h.firstOf (by decide) (by omega) hn
      (show (rootEntries files)[0]? = some ⟨1, Fs.strncpy DIRSIZ [46]⟩ from rfl) (by decide) (by decide)
      fun j hj => absurd hj (Nat.not_lt_zero j)
    exact h.found hs cwd (by decide) (by decide) hfirst hinum hlt ht
  · obtain ⟨hfirst, hinum⟩ := h.firstOf (by decide) (by omega) hn
      (show (rootEntries files)[1]? = some ⟨1, Fs.strncpy DIRSIZ [46, 46]⟩ from rfl) (by decide)
      (by decide) fun j hj => by
        rw [Nat.lt_one_iff.1 hj]
        exact ⟨1, [46], rfl, by decide, by decide, by decide, by decide⟩
    exact h.found hs cwd (by decide) (by decide) hfirst hinum hlt ht

theorem Built.found_file (h : Built files m) (ha : Accepted files)
    (hs : Mounted (finished m) s) (cwd : Fin NINODE) (hi : i < files.length) :
    ∃ ip s1 s2, Found (finished m) s cwd (SLASH :: shortname files[i].1) (i + 2) ip s1 s2 := by
  have hmem := List.getElem_mem hi
  have hN : files.length + 1 < 200 := ha.inodes
  obtain ⟨hfirst, hinum⟩ :=
    h.firstOf (ha.noNul hmem) (show i + 2 < files.length + 2 by omega) ha.inodes (rootEntries_file hi)
    (by omega) (by omega) fun j hj => ha.other_name hi hj
  exact h.found hs cwd (ha.nonempty _ hmem) (ha.slash _ hmem) hfirst hinum (show i + 2 < 200 by omega)
    (by rw [(h.file_inode hi).1]; decide)

theorem Built.agrees (h : Built files m) (ha : Accepted files) : Agrees files (finished m) := by
  refine ⟨?_, ?_, fun s cwd hs i hi => ?_, fun s cwd hs path hpath => ?_⟩
  · unfold readsb
    rw [h.low_finished (by decide)]
    decide +kernel
  · rw [h.low_finished (by decide), start_img (by decide)]
    exact Bytes.word_zero _
  · obtain ⟨ip, s1, s2, hf⟩ := h.found_file ha hs cwd hi
    obtain ⟨htype, hcontents, hwhole⟩ := h.file_inode hi
    have hsize : (s2.inode ip).d.size = files[i].2.length := by
      rw [hf.d, ← hcontents]
      simp [Fs.contents]
    have hle := ha.length _ (List.getElem_mem hi)
    have hmax : MAXFILE * BSIZE < 2 ^ 32 := by decide
    have hn : (UInt32.ofNat (s2.inode ip).d.size).toNat = files[i].2.length := by
      rw [UInt32.toNat_ofNat', hsize]
      exact Nat.mod_eq_of_lt (by omega)
    refine ⟨ip, s1, s2, hf.run, hf.lock, by rw [hf.d]; exact htype, hsize, Wp.eq_ok ?_⟩
    refine (Fs.readi_spec (by rw [hf.d, hf.blk]; exact hwhole) rfl).post fun r s' hr => ?_
    obtain ⟨hs', hr⟩ := hr
    rw [hn, hsize, if_pos ⟨Nat.zero_le _, by simpa using Nat.lt_of_le_of_lt hle hmax⟩, hf.blk,
      hf.d, hcontents] at hr
    refine ⟨?_, hs'⟩
    rw [hr]
    simp
  · obtain ⟨ip, s1, s2, hf⟩ := h.found_root ha.inodes hs cwd hpath
    exact ⟨ip, s1, s2, hf.run, hf.lock, hf.inum_eq, by rw [hf.d]; exact h.root_inode.1⟩

end Agree

/-- The kernel finds what `mkfs` was given. -/
theorem image_lookup {files : List (List UInt8 × List UInt8)} (h : Accepted files) :
    ∃ m, mkfs files = .ok m ∧ Agrees files m := by
  obtain ⟨m, hm⟩ := mkfs_finishes h.inodes (fun f hf => h.not_rejected hf) h.fits
  obtain ⟨m0, hb, hm0⟩ := mkfs_built hm h.inodes
  rw [hm0] at hm
  exact ⟨finished m0, hm, hb.agrees h⟩

/-- "user/_cat" with two bytes, and "README". -/
def twoFiles : List (List UInt8 × List UInt8) :=
  [([117, 115, 101, 114, 47, 95, 99, 97, 116], [1, 2]), ([82, 69, 65, 68, 77, 69], [])]

/-- The kernel after `iinit`, with the image as its disk. -/
def mounted (m : Mk) : Fs.St where
  blk := m.img
  dinode := dinodeAt m.img
  inode _ := ⟨0, 0, false, false, Fs.fresh .free⟩
  gen _ := 0

theorem mounted_fresh (m : Mk) : Mounted m (mounted m) :=
  ⟨rfl, fun _ _ => rfl, ⟨fun _ => rfl, fun _ h => absurd h (Int.lt_irrefl 0)⟩, ⟨0, by decide⟩,
    ⟨1, by decide⟩, by decide, rfl, rfl⟩

/-- The kernel opens "/cat" and reads the two bytes. -/
theorem image_lookup_twoFiles : ∃ m ip s1 s2, mkfs twoFiles = .ok m ∧ Agrees twoFiles m ∧
    Fs.namei sb ⟨0, by decide⟩ [SLASH, 99, 97, 116] (mounted m) = .ok (some ip, s1) ∧
    Fs.ilock ip s1 = .ok ((), s2) ∧ Fs.readi sb ip none 0 2 s2 = .ok ((2, [1, 2]), s2) := by
  obtain ⟨m, hm, h⟩ := @image_lookup twoFiles
    ⟨by decide, by decide, by decide, by decide, by decide, by decide, by decide, by decide, by decide⟩
  obtain ⟨ip, s1, s2, hname, hlock, -, hsize, hread⟩ :=
    h.file (mounted m) ⟨0, by decide⟩ (mounted_fresh m) 0 (by decide)
  rw [hsize] at hread
  exact ⟨m, ip, s1, s2, hm, h, hname, hlock, hread⟩

end Xv6.Mkfs
