import Xv6.Fs.Blocks
import Xv6.Fs.Sysfile

/-!
# No holes, and reading never allocates

`bmap` allocates on demand, and readers call it as well as writers. A reader
never gets to `balloc` because no inode has a hole, which every call keeps:
the ones of `Xv6.Fs.Blocks`, `readi`, and the write of `sys_unlink` that
clears an entry. As the system calls have it, `writei` is called on files and
devices only.

* `reads_never_allocate`: from a consistent file system without holes, in
  every state reached there are none, a read changes nothing and is complete
  unless its copy fails, and no read of a directory entry is short.
* `short_or_holed`: a file whose data block is its indirect block gets a hole
  by a write; and a read of `n` bytes with `off + n ≥ 2 ^ 32` is short.
-/
namespace Xv6.Fs
open Function (update update_self update_of_ne)

variable {sb : Superblock} {ip dp : Fin NINODE} {s s' : St}

/-! ## The calls -/

inductive Call where
  | op (o : Op)
  | readi (ip : Fin NINODE) (room : Option Nat) (off n : UInt32)
  /-- `sys_unlink` clears entry `e` -/
  | clear (dp : Fin NINODE) (e : Nat)

def Call.run (sb : Superblock) : Call → M Unit
  | op o => o.run sb
  | readi ip room off n => do let _ ← Fs.readi sb ip room off n
  | clear dp e => clearEntry sb dp (DESIZE * e)

/-- `filewrite` does not get to a directory. -/
def Op.onFile (s : St) : Op → Bool
  | writei ip _ _ _ _ => (s.inode ip).d.type ≠ .dir
  | _ => true

def Call.allowed (sb : Superblock) (s : St) : Call → Bool
  | op o => o.allowed sb s && o.onFile s
  | readi ip _ _ _ => (s.inode ip).locked
  | clear dp e => (s.inode dp).locked ∧ (s.inode dp).d.type = .dir ∧ DESIZE * e + DESIZE ≤ (s.inode dp).d.size

def callStep (sb : Superblock) (s : St) (c : Call) : Option St :=
  if c.allowed sb s then (c.run sb s).toOption.map Prod.snd else none

/-! ## No holes -/

/-- No block below the size is missing, and directories consist of entries. -/
structure Whole (blk : Nat → Block) (d : Dinode) : Prop where
  size_le : d.size ≤ MAXFILE * BSIZE
  mapped : ∀ bn, bn < (d.size + BSIZE - 1) / BSIZE → slot blk d (dataSlot bn) ≠ 0
  entries : d.type = .dir → d.size % DESIZE = 0

/-- All allocated inodes, as the kernel sees them. -/
def AllWhole (sb : Superblock) (s : St) : Prop := ∀ i, Live sb (current s) i → Whole s.blk (current s i)

/-- A consistent file system without holes. -/
structure WholeStart (sb : Superblock) (s : St) : Prop where
  bitmap : BitmapOk sb s
  once : Once sb s
  inside : Inside sb s
  synced : Synced sb s
  whole : AllWhole sb s

def callLts (sb : Superblock) (start : St → Prop) : LTS St Call where
  init := start
  step s c s' := callStep sb s c = some s'

variable {blk : Nat → Block} {d : Dinode} {e : Nat} {R : Panic → Prop}

theorem noHole_iff :
    NoHole blk d ↔ ∀ bn, bn < (d.size + BSIZE - 1) / BSIZE → slot blk d (dataSlot bn) ≠ 0 := by
  have hdiv : ∀ bn, bn < (d.size + BSIZE - 1) / BSIZE ↔ bn * BSIZE < d.size := by
    intro bn
    simp only [BSIZE]
    omega
  unfold NoHole
  simp only [hdiv, Ne, file_none]

theorem Whole.noHole (h : Whole blk d) : NoHole blk d := noHole_iff.2 h.mapped

theorem Whole.of_noHole (h : NoHole blk d) (he : d.type = .dir → d.size % DESIZE = 0) :
    Whole blk d := ⟨h.size_le, noHole_iff.1 h, he⟩

theorem Whole.of_empty (h : d.size = 0) : Whole blk d := by
  refine .of_noHole (fun bn hbn => ?_) (fun _ => by rw [h]; rfl)
  rw [h] at hbn
  exact absurd hbn (Nat.not_lt_zero _)

/-- The invariant: between the calls the inodes cached are those on disk, so it is about these. -/
structure WholeInv (sb : Superblock) (s : St) : Prop where
  block : BlockInv sb s
  whole : ∀ i, Live sb s.dinode i → Whole s.blk (s.dinode i)

theorem BlockInv.current_eq (h : BlockInv sb s) : current s = s.dinode :=
  Fs.current_eq fun k h1 h2 => (h.inv.cached k h1 h2).1

theorem WholeStart.inv (h : WholeStart sb s) : WholeInv sb s := by
  have hcur : current s = s.dinode := Fs.current_eq fun k h1 h2 => (h.synced.cached k h1 h2).1
  have hw := h.whole
  unfold AllWhole at hw
  rw [hcur] at hw
  have hdirs : DirsWhole sb s := fun i hl _ => (hw i hl).noHole
  exact ⟨Start.inv { h with whole := hdirs }, hw⟩

theorem WholeInv.inode (h : WholeInv sb s) (hl : (s.inode ip).locked = true) :
    Whole s.blk (s.inode ip).d := by
  have hh := h.block.locked ip hl
  rw [h.block.inv.inode_eq hh]
  exact h.whole _ (h.block.inv.live hh)

/-! ## Steps -/

theorem SameDisk.whole (hd : SameDisk s s') (h : ∀ i, Live sb s.dinode i → Whole s.blk (s.dinode i)) :
    ∀ i, Live sb s'.dinode i → Whole s'.blk (s'.dinode i) := by
  rw [hd.blk, hd.dinode]
  exact h

/-- Only inode `i` has changed. -/
theorem Touches.whole {i : Nat} (ht : Touches sb i s s')
    (h : ∀ j, Live sb s.dinode j → Whole s.blk (s.dinode j))
    (hi : Live sb s'.dinode i → Whole s'.blk (s'.dinode i)) :
    ∀ j, Live sb s'.dinode j → Whole s'.blk (s'.dinode j) := by
  intro j hj
  by_cases e : j = i
  · rw [e] at hj ⊢
    exact hi hj
  · have hl := (ht.live e).1 hj
    have hw := h j hl
    refine .of_noHole (ht.noHole e hl hw.noHole) ?_
    rw [ht.dinode j e]
    exact hw.entries

/-- The inode in entry `ip` is the only one that has changed. -/
theorem WholeInv.touch (h : WholeInv sb s) (hinv : Inv sb s') (hh : Held s ip)
    (ht : Touches sb (s.inode ip).inum s s') (htags : SameTags s s') (hi : Whole s'.blk (s'.inode ip).d) :
    ∀ j, Live sb s'.dinode j → Whole s'.blk (s'.dinode j) := by
  refine ht.whole h.whole fun _ => ?_
  have hh' : Held s' ip := by
    unfold Held
    rw [(htags ip).2.1, (htags ip).2.2.2]
    exact hh
  rw [← (htags ip).1, ← hinv.inode_eq hh']
  exact hi

theorem writei_noHole (src : Nat → UInt8) (room : Option Nat) (off n : UInt32)
    (hinv : Inv sb s) (hh : Held s ip) (hn : NoHole s.blk (s.inode ip).d) :
    Wp (writei sb ip src room off n) s (fun _ s' => NoHole s'.blk (s'.inode ip).d) fun _ => False := by
  have hview := hinv.view hh
  refine (writei_spec src room off n (by rw [hview]; exact hinv.rep) (by rw [hview]; exact hinv.live hh)).post
    fun r s' h => ?_
  rcases h with ⟨-, hs, -⟩ | ⟨k, t, -, href, hw, hs⟩
  · rw [hs]
    exact hn
  · rw [hs]
    unfold Refused at href
    exact hw.noHole hn (by omega)

/-- What a directory write leaves: the same size, or one entry more. -/
theorem dir_whole (h : WholeInv sb s) (hinv : Inv sb s') (hdir : IsDir sb s dp) {size : Nat} {f : Nat → Nat}
    (hother : ∀ k, k ≠ dp → s'.inode k = s.inode k) (ht : Touches sb (s.inode dp).inum s s')
    (hself : s'.inode dp = { s.inode dp with d := { (s.inode dp).d with size := size, addrs := f } })
    (hsize : size % DESIZE = 0) : ∀ j, Live sb s'.dinode j → Whole s'.blk (s'.dinode j) := by
  have htags := sameTags_of_d hother hself
  have hdir' : IsDir sb s' dp := by
    refine ⟨hinv, ?_, ?_⟩
    · unfold Held
      rw [(htags dp).2.1, (htags dp).2.2.2]
      exact hdir.held
    · rw [hself]
      exact hdir.type
  refine h.touch hinv hdir.held ht htags (.of_noHole hdir'.noHole fun _ => ?_)
  rw [hself]
  exact hsize

theorem Unmoved.whole (h : WholeInv sb s) (hinv : Inv sb s') (hdir : IsDir sb s dp)
    (hu : Unmoved sb dp s s') : ∀ j, Live sb s'.dinode j → Whole s'.blk (s'.dinode j) := by
  obtain ⟨f, hf⟩ := hu.self
  refine dir_whole h hinv hdir hu.other hu.touches hf ?_
  have hw := h.whole _ (hdir.inv.live hdir.held)
  rw [← hdir.inv.inode_eq hdir.held] at hw
  exact hw.entries hdir.type

theorem Stored.whole {de : Dirent} (h : WholeInv sb s) (hinv : Inv sb s') (hdir : IsDir sb s dp)
    (hst : Stored sb dp e de s s') : ∀ j, Live sb s'.dinode j → Whole s'.blk (s'.dinode j) := by
  obtain ⟨f, hf⟩ := hst.self
  refine dir_whole h hinv hdir hst.other hst.touches hf ?_
  have hw := h.whole _ (hdir.inv.live hdir.held)
  rw [← hdir.inv.inode_eq hdir.held] at hw
  have hmod := hw.entries hdir.type
  simp only [DESIZE] at hmod ⊢
  omega

theorem op_whole (op : Op) (h : WholeInv sb s) (hop : op.allowed sb s = true) (hfile : op.onFile s = true) :
    Wp (op.run sb) s (fun _ s' => ∀ i, Live sb s'.dinode i → Whole s'.blk (s'.dinode i)) fun _ => True := by
  have hinv := h.block.inv
  cases op with
  | iget inum =>
    refine ((iget_spec s inum).panics fun _ _ => trivial).bind fun ip s' hg => ?_
    exact (wp_pure _).2 (hg.toSameDisk.whole h.whole)
  | idup ip =>
    refine ((idup_spec s ip).panics fun _ _ => trivial).bind fun r s' hd => ?_
    exact (wp_pure _).2 (hd.2.1.whole h.whole)
  | ilock ip =>
    refine (ilock_spec hinv (h.block.range ip)).mono (fun _ s' hl => ?_) fun _ _ => trivial
    exact hl.toSameDisk.whole h.whole
  | iunlock ip =>
    exact (iunlock_spec s ip).mono (fun _ s' hu => hu.1.whole h.whole) fun _ _ => trivial
  | ialloc type =>
    refine ((ialloc_spec s type).panics fun _ _ => trivial).bind fun r s' ha => ?_
    rw [wp_pure]
    rcases ha with ⟨-, hs⟩ | ⟨ip, i, -, ha⟩
    · rw [hs]
      exact h.whole
    · have ht : Touches sb i s s' := by
        refine ⟨fun j hj => ?_, fun j _ _ bn => by rw [ha.got.blk]⟩
        rw [ha.dinode]
        exact update_of_ne hj ..
      refine ht.whole h.whole fun _ => .of_empty ?_
      rw [ha.dinode, update_self]
      rfl
  | writei ip src room off n =>
    have hh := h.block.locked ip hop
    have hw := h.inode hop
    refine (((writei_inv src room off n hinv hh).and (writei_noHole src room off n hinv hh hw.noHole)).mono
      (fun _ _ => id) fun _ _ => trivial).bind fun r s' hr => ?_
    rw [wp_pure]
    obtain ⟨⟨hinv', hcase⟩, hn⟩ := hr
    rcases hcase with ⟨-, hs, -⟩ | ⟨k, -, -, w⟩
    · rw [hs]
      exact h.whole
    · obtain ⟨f, hf⟩ := w.self
      refine h.touch hinv' hh w.touches (sameTags_of_d w.other hf) (.of_noHole hn fun hd => ?_)
      -- not a directory
      rw [hf] at hd
      simp only [Op.onFile, ne_eq, decide_not, Bool.not_eq_true', decide_eq_false_iff_not] at hfile
      exact absurd hd hfile
  | dirlink dp name inum =>
    have hh := h.block.locked dp hop
    by_cases ht : (s.inode dp).d.type = .dir
    · have hdir : IsDir sb s dp := ⟨hinv, hh, ht⟩
      refine ((dirlink_spec hdir name inum).panics fun _ _ => trivial).bind fun r s' hl => ?_
      rw [wp_pure]
      obtain ⟨hinv', hl⟩ := hl
      cases hl with
      | taken e _ _ hd => exact hd.whole h.whole
      | full hu => exact hu.whole h hinv' hdir
      | added e hst => exact hst.whole h hinv' hdir
    · simp only [Op.run, Fs.dirlink, Fs.dirlookup, wp_bind, wp_getInode]
      rw [if_pos ht, wp_panic]
      trivial
  | itrunc ip =>
    have hh := h.block.locked ip hop
    refine (itrunc_inv hinv hh).mono (fun _ s' ht => ?_) fun _ _ => trivial
    obtain ⟨f, -, hf⟩ := ht.self
    refine (ht.touches hinv.rep).whole h.whole fun _ => .of_empty ?_
    rw [ht.dinode_self, hf]
  | iput ip =>
    refine (iput_spec hinv).mono (fun _ s' hp => ?_) fun _ _ => trivial
    obtain ⟨-, ⟨hd, -⟩ | hf⟩ := hp
    · exact hd.whole h.whole
    · exact hf.touches.whole h.whole fun hl => absurd hf.free hl.2.2
  | iupdate ip major minor nlink =>
    have hw := h.inode hop
    simp only [Op.run, Fs.iupdate, wp_bind, wp_setInode, wp_modify, update_self]
    refine Touches.whole
      (put_touches (d := { (s.inode ip).d with major := major, minor := minor, nlink := nlink }))
      h.whole fun _ => ?_
    rw [put_dinode]
    exact ⟨hw.size_le, hw.mapped, hw.entries⟩

theorem clear_encode : Dirent.encode ⟨0, List.replicate DIRSIZ 0⟩ = fun _ => 0 := by
  funext i
  unfold Dirent.encode
  split
  · rename_i hi
    rcases (show i = 0 ∨ i = 1 by omega) with e | e <;> rw [e] <;> rfl
  · by_cases hi : i - 2 < DIRSIZ
    · rw [List.getD_eq_getElem _ _ (by simpa using hi), List.getElem_replicate]
    · rw [List.getD_eq_default _ _ (by simpa using Nat.le_of_not_lt hi)]

theorem clear_spec (h : WholeInv sb s) (hl : (s.inode dp).locked = true) (hdir : (s.inode dp).d.type = .dir)
    (hin : DESIZE * e + DESIZE ≤ (s.inode dp).d.size) :
    Wp (clearEntry sb dp (DESIZE * e)) s (fun _ s' => WholeInv sb s') (· = .unlinkWritei) := by
  have hh := h.block.locked dp hl
  have hd : IsDir sb s dp := ⟨h.block.inv, hh, hdir⟩
  have hsize := hd.noHole.size_le
  have hmax : MAXFILE * BSIZE < 2 ^ 32 := by decide
  unfold clearEntry
  rw [← clear_encode]
  refine ((writeEntry_spec h.block.inv hh (by omega) (List.length_replicate ..) (by decide)).never).bind
    fun r s' hr => ?_
  obtain ⟨hinv', hr⟩ := hr
  rw [wp_ite]
  refine ⟨fun _ => (wp_panic _).2 rfl, fun hok => (wp_pure _).2 ?_⟩
  rcases hr with ⟨hno, -⟩ | ⟨-, -, hst⟩
  · exact absurd hno hok
  · obtain ⟨f, hf⟩ := hst.self
    exact ⟨(sameTags_of_d hst.other hf).blockInv h.block hinv', hst.whole h hinv' hd⟩

/-! ## Reading -/

/-- What `readi` returns: all that is asked for, -1 if it cannot be copied, or 0 for a range that starts past
the end or wraps around. -/
def Complete (d : Dinode) (room : Option Nat) (off n : UInt32) (r : Int) : Prop :=
  if 2 ^ 32 ≤ off.toNat + n.toNat then r = 0
  else r = ((min n.toNat (d.size - off.toNat) : Nat) : Int) ∨
    r = -1 ∧ fits room (min n.toNat (d.size - off.toNat)) = false

theorem readi_whole (h : NoHole s.blk (s.inode ip).d) (room : Option Nat) (off n : UInt32) :
    Wp (readi sb ip room off n) s (fun r s' => s' = s ∧ Complete (s.inode ip).d room off n r.1) R := by
  refine (readi_outcome h room off n).post fun r s' hr => ⟨hr.1, ?_⟩
  have hr := hr.2
  unfold Complete
  by_cases hwrap : 2 ^ 32 ≤ off.toNat + n.toNat
  · rw [if_neg (by omega)] at hr
    rw [if_pos hwrap, hr]
  rw [if_neg hwrap]
  split_ifs at hr with hin hfit
  · exact .inl (by rw [hr])
  · exact .inr ⟨hr, by simpa using hfit⟩
  · rw [hr, show min n.toNat ((s.inode ip).d.size - off.toNat) = 0 by omega]
    exact .inl rfl

/-! ## Panics -/

/-- No entry of a directory has been read in part. -/
def ReadsWhole (e : Panic) : Prop := e ≠ .dirlookupRead ∧ e ≠ .dirlinkRead ∧ e ≠ .isdiremptyReadi

theorem NoInodes.reads {e : Panic} (h : NoInodes s e) : ReadsWhole e := by
  rw [h.1]
  exact ⟨by simp, by simp, by simp⟩

theorem DirPanic.reads {e : Panic} (h : DirPanic dp s e)
    (hmod : (s.inode dp).d.size % DESIZE = 0) : ReadsWhole e :=
  (h.noInodes hmod).reads

theorem isdiremptyLoop_reads (h : Whole s.blk (s.inode dp).d)
    (hdir : (s.inode dp).d.type = .dir) (passes : Nat) :
    ∀ e, Wp (isdiremptyLoop sb dp passes (DESIZE * e)) s (fun _ s' => s' = s) ReadsWhole := by
  induction passes with
  | zero => exact fun e => (wp_pure _).2 rfl
  | succ passes ih =>
    intro e
    unfold isdiremptyLoop
    rw [wp_bind, wp_getInode, wp_ite]
    refine ⟨fun hlt => ?_, fun _ => (wp_pure _).2 rfl⟩
    refine (readEntry_noHole h.noHole hlt).bind fun r s' hr => ?_
    obtain ⟨hs, hin, -⟩ := hr
    have hmod := h.entries hdir
    rw [hs, if_neg (not_not.2 (hin.2 (by simp only [DESIZE] at *; omega))), wp_ite]
    exact ⟨fun _ => (wp_pure _).2 rfl, fun _ => ih (e + 1)⟩

section
variable (h : WholeInv sb s) (hl : (s.inode dp).locked = true)
include h hl

theorem WholeInv.isDir (hdir : (s.inode dp).d.type = .dir) :
    IsDir sb s dp := ⟨h.block.inv, h.block.locked dp hl, hdir⟩

theorem dirlookup_reads (name : List UInt8) :
    Wp (dirlookup sb dp name) s (fun _ _ => (s.inode dp).d.type = .dir) ReadsWhole := by
  by_cases hdir : (s.inode dp).d.type = .dir
  · exact (dirlookup_spec (h.isDir hl hdir) name).mono (fun _ _ _ => hdir)
      fun _ he => he.reads ((h.inode hl).entries hdir)
  · unfold dirlookup
    rw [wp_bind, wp_getInode, if_pos hdir]
    exact (wp_panic _).2 ⟨by simp, by simp, by simp⟩

theorem dirlink_reads (name : List UInt8) (inum : Nat) :
    Wp (dirlink sb dp name inum) s (fun _ _ => True) ReadsWhole := by
  by_cases hdir : (s.inode dp).d.type = .dir
  · exact (dirlink_spec (h.isDir hl hdir) name inum).mono (fun _ _ _ => trivial)
      fun _ he => he.reads ((h.inode hl).entries hdir)
  · exact (dirlookup_reads h hl name).bind fun _ _ hr => absurd hr hdir

theorem isdirempty_reads (hdir : (s.inode dp).d.type = .dir) :
    Wp (isdirempty sb dp) s (fun _ s' => s' = s) ReadsWhole := by
  unfold isdirempty
  rw [wp_bind, wp_getInode, Nat.mul_comm]
  exact isdiremptyLoop_reads (h.inode hl) hdir _ 2

end

/-! ## The whole run -/

theorem call_whole (c : Call) (h : WholeInv sb s) (hc : c.allowed sb s = true) :
    ∀ r s', c.run sb s = .ok (r, s') → WholeInv sb s' := by
  intro r s' hrun
  cases c with
  | op o =>
    simp only [Call.allowed, Bool.and_eq_true] at hc
    exact ⟨(op_blockInv o h.block hc.1).of_ok hrun, (op_whole o h hc.1 hc.2).of_ok hrun⟩
  | readi ip room off n =>
    have hw : Wp (readi sb ip room off n) s _ fun _ => True := readi_whole (h.inode hc).noHole room off n
    have hs : Wp (Call.run sb (.readi ip room off n)) s (fun _ s' => s' = s) fun _ => True :=
      hw.bind fun _ _ hr => (wp_pure _).2 hr.1
    have hs := hs.of_ok hrun
    rw [hs]
    exact h
  | clear dp e =>
    simp only [Call.allowed, decide_eq_true_eq] at hc
    exact (clear_spec h hc.1 hc.2.1 hc.2.2).of_ok hrun

theorem callStep_some {c : Call} (h : callStep sb s c = some s') :
    c.allowed sb s = true ∧ ∃ r, c.run sb s = .ok (r, s') := by
  unfold callStep at h
  split at h
  · rename_i hc
    cases hrun : c.run sb s with
    | ok r =>
      rw [hrun] at h
      cases h
      exact ⟨hc, r.1, rfl⟩
    | error e =>
      rw [hrun] at h
      cases h
  · cases h

theorem wholeInv_reachable (h : (callLts sb (WholeStart sb)).Reachable s) : WholeInv sb s := by
  refine LTS.Inductive.reachable (M := callLts sb (WholeStart sb))
    ⟨fun _ h0 => h0.inv, fun s c s' hs hstep => ?_⟩ h
  obtain ⟨hc, r, hrun⟩ := callStep_some hstep
  exact call_whole c hs hc r s' hrun

/-- From a consistent file system without holes, in every state reached no allocated inode has one. So for
every block below the size `bmap` finds its address, whatever the bitmap, `readi` changes nothing and is
complete unless its copy fails, and the entries of a directory are never read in part. -/
theorem reads_never_allocate (h : (callLts sb (WholeStart sb)).Reachable s) :
    AllWhole sb s ∧
    (∀ ip, (s.inode ip).locked = true → ∀ sb' : Superblock,
      (∀ bn, bn < ((s.inode ip).d.size + BSIZE - 1) / BSIZE →
        slot s.blk (s.inode ip).d (dataSlot bn) ≠ 0 ∧
        bmap sb' ip bn s = .ok (slot s.blk (s.inode ip).d (dataSlot bn), s)) ∧
      ∀ room off n, ∃ r, readi sb' ip room off n s = .ok (r, s) ∧ Complete (s.inode ip).d room off n r.1) ∧
    ∀ dp, (s.inode dp).locked = true →
      (∀ name e, dirlookup sb dp name s = .error e → ReadsWhole e) ∧
      (∀ name inum e, dirlink sb dp name inum s = .error e → ReadsWhole e) ∧
      ((s.inode dp).d.type = .dir → ∀ e, isdirempty sb dp s = .error e → ReadsWhole e) := by
  have hinv := wholeInv_reachable h
  refine ⟨?_, fun ip hl sb' => ⟨fun bn hbn => ?_, fun room off n => ?_⟩, fun dp hl => ⟨?_, ?_, ?_⟩⟩
  · unfold AllWhole
    rw [hinv.block.current_eq]
    exact hinv.whole
  · have hne := (hinv.inode hl).mapped bn hbn
    have hbmap : Wp (bmap sb' ip bn) s _ fun _ => False := bmap_mapped hne
    obtain ⟨a, s', hrun, ha, hs⟩ := hbmap.returns
    rw [hrun, ha, hs]
    exact ⟨hne, rfl⟩
  · have hread : Wp (readi sb' ip room off n) s _ fun _ => False :=
      readi_whole (hinv.inode hl).noHole room off n
    obtain ⟨r, s', hrun, hs, hr⟩ := hread.returns
    rw [hs] at hrun
    exact ⟨r, hrun, hr⟩
  · exact fun name e herr => (dirlookup_reads hinv hl name).of_error herr
  · exact fun name inum e herr => (dirlink_reads hinv hl name inum).of_error herr
  · exact fun hdir e herr => (isdirempty_reads hinv hl hdir).of_error herr

/-! ## Runs on a small disk -/

theorem run_of_calls {cs : List Call} (h : (cs.foldlM (callStep sb) s).isSome = true) (start : St → Prop) :
    (callLts sb start).Run s cs ((cs.foldlM (callStep sb) s).getD s) := by
  obtain ⟨t, ht⟩ := Option.isSome_iff_exists.1 h
  refine .of_foldlM (fun _ _ _ => id) ?_
  rw [ht]; rfl

theorem allWhole_tinyWith {bits : UInt8} {x : Block} (h : Whole (tinyWith bits d x).blk d) :
    AllWhole tiny (tinyWith bits d x) := by
  intro i hl
  rw [Fs.current_eq fun k hk => absurd hk (Int.lt_irrefl 0)] at hl ⊢
  have e : i = 1 := by
    have h1 := hl.1
    have h2 : i < 2 := hl.2.1
    omega
  rw [e]
  exact h

theorem emptyFile_wholeStart : WholeStart tiny emptyFile :=
  { emptyFile_start with whole := allWhole_tinyWith (.of_empty rfl) }

/-- A file of two blocks is written. -/
def writeTwo : List Call := [.op (.iget 1), .op (.ilock 0), .op (.writei 0 (fun _ => 7) none 0 2000)]

def written : St := (writeTwo.foldlM (callStep tiny) emptyFile).getD emptyFile

theorem written_reachable : (callLts tiny (WholeStart tiny)).Reachable written :=
  ⟨emptyFile, writeTwo, emptyFile_wholeStart, run_of_calls (by decide +kernel) _⟩

/-- The file is read, and read again with only 100 bytes of the destination
mapped: nothing is allocated, and the second read fails. -/
theorem reads_never_allocate_written : (callLts tiny (WholeStart tiny)).Reachable written ∧
    (∃ bs, readi tiny 0 none 0 2000 written = .ok ((2000, bs), written)) ∧
    ∃ bs, readi tiny 0 (some 100) 0 2000 written = .ok ((-1, bs), written) := by
  obtain ⟨-, hread, -⟩ := reads_never_allocate written_reachable
  obtain ⟨-, hread⟩ := hread 0 (by decide +kernel) tiny
  obtain ⟨⟨n, bs⟩, hrun, -⟩ := hread none 0 2000
  obtain ⟨⟨n', bs'⟩, hrun', -⟩ := hread (some 100) 0 2000
  have hn : (readi tiny 0 none 0 2000 written).map (·.1.1) = .ok 2000 := by decide +kernel
  have hn' : (readi tiny 0 (some 100) 0 2000 written).map (·.1.1) = .ok (-1) := by decide +kernel
  rw [hrun] at hn
  rw [hrun'] at hn'
  obtain rfl : n = 2000 := Except.ok.inj hn
  obtain rfl : n' = -1 := Except.ok.inj hn'
  exact ⟨written_reachable, ⟨bs, hrun⟩, bs', hrun'⟩

/-- A file of 13 blocks, all of them block 5, which is also its indirect block. -/
def looped : St :=
  tinyWith 0x3f { unused with size := 13 * BSIZE, addrs := fun t => if t ≤ NDIRECT then 5 else 0 }
  ((Bytes.zero : Block).setWord 0 5)

def zeroWord : List Call := [.op (.iget 1), .op (.ilock 0), .op (.writei 0 (fun _ => 0) none 0 4)]

def holed : St := (zeroWord.foldlM (callStep tiny) looped).getD looped

/-- A file without holes gets one, because its indirect block is one of its data blocks; and a read at 1 of 2
^ 32 - 1 bytes from a file of 2000, in a consistent file system, returns nothing. -/
theorem short_or_holed :
    (AllWhole tiny looped ∧ Synced tiny looped ∧ (callLts tiny (AllWhole tiny)).Run looped zeroWord holed ∧
      ¬AllWhole tiny holed) ∧
    ((callLts tiny (WholeStart tiny)).Reachable written ∧ (written.inode 0).locked = true ∧
      (written.inode 0).d.size = 2000 ∧
      (readi tiny 0 none 1 0xffffffff written).map Prod.fst = .ok (0, [])) := by
  refine ⟨⟨allWhole_tinyWith ⟨by decide, ?_, fun h => by cases h⟩, synced_tinyWith _ _ _,
    run_of_calls (by decide +kernel) _, fun hw => ?_⟩,
    written_reachable, by decide +kernel, by decide +kernel, by decide +kernel⟩
  · have h13 : ∀ bn, bn < 13 → slot looped.blk (looped.dinode 1) (dataSlot bn) ≠ 0 := by decide +kernel
    exact h13
  · have hl : Live tiny (current holed) 1 := by decide +kernel
    have hsize : 12 < ((current holed 1).size + BSIZE - 1) / BSIZE := by decide +kernel
    have hslot : slot holed.blk (current holed 1) (dataSlot 12) = 0 := by decide +kernel
    exact (hw 1 hl).mapped 12 hsize hslot

end Xv6.Fs
