import Mathlib.Data.List.TakeWhile
import Xv6.Fs.Entries

/-!
# Looking up a name in a directory that is in use by nobody (`kernel/fs.c`)

`namei` of a path with one element, from a state in which no inode is locked.
Unlike `dirlookup_spec` this does not ask that the whole directory is mapped:
only the entries up to the one that is found are read.

* `lookupLoop_first`: the loop of `dirlookup` stops at the first entry of the
  name.
* `namei_entry`, `namei_root`: the inode of that entry, or of the root.
-/
namespace Xv6.Fs
open Function (update update_self update_of_ne)

/-! ## Names -/

theorem strncmp_eq_zero (n : Nat) : ∀ p q : List UInt8,
    strncmp n p q = 0 ↔ (p.take n).takeWhile (· ≠ 0) = (q.take n).takeWhile (· ≠ 0) := by
  induction n with
  | zero => simp [strncmp]
  | succ n ih =>
    intro p q
    -- past its end a string is NULs
    have hnil : ∀ (b : UInt8) (l : List UInt8),
        ((b.toNat : Int) = 0 ↔ ((b :: l).take (n + 1)).takeWhile (· ≠ 0) = []) := by
      intro b l
      by_cases hb : b = 0
      · simp [hb]
      · have : b.toNat ≠ 0 := fun e => hb (UInt8.toNat_inj.1 e)
        simp [hb, this]
    cases p with
    | nil =>
      cases q with
      | nil => simp [strncmp]
      | cons b q =>
        have h := hnil b q
        simp only [strncmp, List.headD_nil, List.headD_cons, ne_eq, not_true_eq_false, false_and, if_false]
        simp only [UInt8.toNat_zero, Nat.cast_zero, zero_sub, neg_eq_zero, List.take_nil, List.takeWhile_nil]
        exact h.trans eq_comm
    | cons a p =>
      by_cases ha : a = 0
      · cases q with
        | nil => simp [strncmp, ha]
        | cons b q =>
          have h := hnil b q
          simp only [strncmp, List.headD_cons, ha, ne_eq, not_true_eq_false, false_and, if_false,
            UInt8.toNat_zero, Nat.cast_zero,
            zero_sub, neg_eq_zero, List.take_succ_cons, List.takeWhile_cons, decide_false, Bool.false_eq_true]
          simp only [List.take_succ_cons, List.takeWhile_cons] at h
          exact h.trans eq_comm
      · have ha' : a.toNat ≠ 0 := fun e => ha (UInt8.toNat_inj.1 e)
        cases q with
        | nil => simp [strncmp, ha, ha']
        | cons b q =>
          by_cases e : a = b
          · simp [strncmp, ← e, ha, ih]
          · have hne : (a.toNat : Int) - b.toNat ≠ 0 := fun h => e (UInt8.toNat_inj.1 (by omega))
            by_cases hb : b = 0
            · simp [strncmp, ha, hb, ha']
            · simp [strncmp, ha, hb, e, hne]

theorem takeWhile_strncpy (n : Nat) :
    ∀ t : List UInt8, (strncpy n t).takeWhile (· ≠ 0) = (t.take n).takeWhile (· ≠ 0) := by
  induction n with
  | zero => simp [strncpy]
  | succ n ih =>
    intro t
    cases t with
    | nil => simp [strncpy, List.replicate_succ]
    | cons a t =>
      by_cases ha : a = 0
      · simp [strncpy, ha, List.replicate_succ]
      · rw [strncpy, if_neg (by simpa using ha)]
        simpa [ha] using ih t

/-- `strncmp` with a name that `strncpy` has stored. -/
theorem strncmp_strncpy (n : Nat) {p q : List UInt8} (hp : 0 ∉ p) (hq : 0 ∉ q) :
    strncmp n p (strncpy n q) = 0 ↔ p.take n = q.take n := by
  have hall : ∀ l : List UInt8, 0 ∉ l → (l.take n).takeWhile (· ≠ 0) = l.take n := fun l hl =>
    List.takeWhile_eq_self_iff.2 fun a ha => by simpa using fun e : a = 0 => hl (e ▸ List.mem_of_mem_take ha)
  rw [strncmp_eq_zero, hall p hp, List.take_of_length_le (Nat.le_of_eq (length_strncpy ..)),
    takeWhile_strncpy, hall q hq]

/-- A path of one element. -/
theorem skipelem_one {name : List UInt8} (hne : name ≠ []) (hslash : SLASH ∉ name) :
    skipelem (SLASH :: name) = some ([], name.take DIRSIZ) := by
  have hhead : ∀ l : List UInt8, SLASH ∉ l → l.dropWhile (· = SLASH) = l := by
    intro l hl
    cases l with
    | nil => rfl
    | cons a l => exact List.dropWhile_cons_of_neg (by simpa using fun e : a = SLASH => hl (by simp [e]))
  have hdrop : (SLASH :: name).dropWhile (· = SLASH) = name := by
    rw [List.dropWhile_cons_of_pos (by simp), hhead name hslash]
  have hall : ∀ a ∈ name, decide (a ≠ SLASH) = true := fun a ha => decide_eq_true fun e => hslash (e ▸ ha)
  unfold skipelem
  simp only [hdrop]
  rw [if_neg hne, List.dropWhile_eq_nil_iff.2 hall, List.takeWhile_eq_self_iff.2 hall]
  rfl

/-! ## Entries -/

section Lookup
variable {sb : Superblock} {dp ip : Fin NINODE} {s s' : St}

theorem iget_room (hfree : ∃ k, (s.inode k).ref = 0) (inum : Nat) :
    Wp (iget inum) s (fun ip s' => Got inum ip s s') fun _ => False :=
  (iget_spec s inum).panics fun _ he => hfree.elim he.2

/-- Entry `e` is the first one of the directory `d` that
is called `name`, and the directory is mapped so far. -/
structure FirstOf (blk : Nat → Block) (d : Dinode) (name : List UInt8) (e : Nat) : Prop where
  in_dir : DESIZE * e + DESIZE ≤ d.size
  lt : DESIZE * e + DESIZE < 2 ^ 32
  mapped : ∀ k, k < DESIZE * e + DESIZE → slot blk d (dataSlot (k / BSIZE)) ≠ 0
  called : Called name (entry blk d e)
  first : ∀ j, j < e → ¬Called name (entry blk d j)

section First
variable {blk : Nat → Block} {d : Dinode} {name : List UInt8} {e i : Nat}

/-- A search does not get past entry `e`. -/
theorem FirstOf.le (h : FirstOf blk d name e) (hi : ∀ j, j < i → ¬Called name (entry blk d j)) : i ≤ e :=
  Nat.le_of_not_lt fun hlt => hi e hlt h.called

theorem FirstOf.searchable (h : FirstOf blk d name e) : Searchable blk d name := fun i hi _ => by
  have hmul : DESIZE * i ≤ DESIZE * e := Nat.mul_le_mul_left _ (h.le hi)
  have hlt := h.lt
  exact ⟨by omega, fun k hk _ => h.mapped k (by omega)⟩

end First

/-- The loop stops at entry `e`, which is the first of that name. -/
theorem lookupLoop_first (sb : Superblock) {name : List UInt8} {e : Nat}
    (h : FirstOf s.blk (s.inode dp).d name e)
    (hfree : ∃ k, (s.inode k).ref = 0) {passes : Nat} (hp : (s.inode dp).d.size ≤ DESIZE * passes) :
    Wp (lookupLoop sb dp name passes 0) s
      (fun r s' => ∃ ip, r = some (ip, DESIZE * e) ∧ Got (entry s.blk (s.inode dp).d e).inum ip s s')
      fun _ => False := by
  have hin := h.in_dir
  have hpos : 0 < DESIZE := by decide
  refine (lookupLoop_spec h.searchable passes (e := 0) (by rwa [Nat.zero_add]) fun i hi => by omega).mono
    (fun r s' hr => ?_) fun err herr => ?_
  · rcases hr with ⟨-, -, hno⟩ | ⟨ip, i, hr, hf⟩
    · exact absurd h.called (hno e (by omega))
    · obtain rfl : i = e :=
        Nat.le_antisymm (h.le hf.first) (Nat.le_of_not_lt fun hlt => h.first i hlt hf.called)
      exact ⟨ip, hr, hf.toGot⟩
  · rcases herr with ⟨-, i, -, hcut, hi⟩ | hno
    · have : DESIZE * i ≤ DESIZE * e := Nat.mul_le_mul_left _ (h.le hi)
      omega
    · exact hfree.elim hno.2

end Lookup

/-! ## namei -/

/-- No inode is locked, and the table has what is on disk. -/
structure Quiet (s : St) : Prop where
  unlocked : ∀ k, (s.inode k).locked = false
  cached : ∀ k, 0 < (s.inode k).ref → (s.inode k).valid = true → (s.inode k).d = s.dinode (s.inode k).inum

section Namei
variable {sb : Superblock} {dp ip : Fin NINODE} {s s' : St} {inum : Nat}

theorem Got.locked (h : Got inum ip s s') (k : Fin NINODE) : (s'.inode k).locked = (s.inode k).locked := by
  by_cases e : k = ip
  · rcases h.self with ⟨_, _, hs⟩ | ⟨_, _, hs⟩ <;> rw [e, hs]
  · rw [h.other k e]

/-- An entry that is valid was so before. -/
theorem Got.valid (h : Got inum ip s s') {k : Fin NINODE} (hr : 0 < (s'.inode k).ref)
    (hv : (s'.inode k).valid = true) :
    0 < (s.inode k).ref ∧ (s.inode k).valid = true ∧ (s'.inode k).d = (s.inode k).d ∧
    (s'.inode k).inum = (s.inode k).inum := by
  by_cases e : k = ip
  · rw [e] at hr hv ⊢
    rcases h.self with ⟨h1, _, hs⟩ | ⟨_, _, hs⟩ <;> rw [hs] at hv ⊢
    · exact ⟨h1, hv, rfl, rfl⟩
    · cases hv
  · rw [h.other k e] at hr hv ⊢
    exact ⟨hr, hv, rfl, rfl⟩

theorem Got.quiet (h : Got inum ip s s') (hq : Quiet s) : Quiet s' := by
  refine ⟨fun k => (h.locked k).trans (hq.unlocked k), fun k h1 h2 => ?_⟩
  obtain ⟨hr, hv, hd, hi⟩ := h.valid h1 h2
  rw [hd, hi, h.dinode]
  exact hq.cached k hr hv

/-- `s` with `ip` locked and read from disk. -/
def lockedAt (s : St) (ip : Fin NINODE) : St :=
  { s with
    inode := update s.inode ip
      { s.inode ip with locked := true, valid := true, d := s.dinode (s.inode ip).inum } }

theorem ilock_quiet (hq : Quiet s) (hr : 0 < (s.inode ip).ref)
    (ht : (s.dinode (s.inode ip).inum).type ≠ .free) : ilock ip s = .ok ((), lockedAt s ip) := by
  refine Wp.eq_ok ?_
  unfold ilock lockedAt
  rw [wp_bind, wp_getInode, if_neg (by omega), if_neg (by rw [hq.unlocked]; decide), wp_ite]
  refine ⟨fun hv => ?_, fun hv => ?_⟩
  · rw [wp_setInode, ← hq.cached ip hr hv, ← hv]
    exact ⟨rfl, rfl⟩
  · rw [wp_bind, wp_get, wp_bind, wp_setInode, if_neg ht, wp_pure]
    exact ⟨rfl, rfl⟩

/-- `iunlockput` of a directory that has links. -/
theorem iunlockput_linked (hl : (s.inode ip).locked = true) (hr : 0 < (s.inode ip).ref)
    (hn : (s.inode ip).d.nlink ≠ 0) : iunlockput sb ip s = .ok ((), { s with
      inode := update s.inode ip { s.inode ip with locked := false, ref := (s.inode ip).ref - 1 } }) := by
  refine Wp.eq_ok ?_
  unfold iunlockput iunlock iput
  have hok : ¬((s.inode ip).locked = false ∨ (s.inode ip).ref < 1) := by
    rw [hl]
    rintro (h | h)
    · cases h
    · omega
  simp only [wp_bind, wp_getInode, if_neg hok, wp_setInode, update_self]
  rw [if_neg fun h => hn h.2.2, wp_setInode]
  simp

/-- `namei` has found inode `inum`. -/
structure Reached (inum : Nat) (ip : Fin NINODE) (s s' : St) : Prop extends SameDisk s s' where
  quiet : Quiet s'
  ref : 0 < (s'.inode ip).ref
  inum_eq : (s'.inode ip).inum = inum

/-- The directory `dp` is released once the inode of one of its entries is known. -/
theorem Got.release (sb : Superblock) (hg : Got inum ip (lockedAt s dp) s') (hq : Quiet s)
    (hr : 0 < (s.inode dp).ref) (hlinks : (s.dinode (s.inode dp).inum).nlink ≠ 0) :
    ∃ s'', iunlockput sb dp s' = .ok ((), s'') ∧ Reached inum ip s s'' := by
  have hself : (lockedAt s dp).inode dp =
      { s.inode dp with locked := true, valid := true, d := s.dinode (s.inode dp).inum } := update_self ..
  have hother : ∀ k, k ≠ dp → (lockedAt s dp).inode k = s.inode k := fun k hk => update_of_ne hk ..
  obtain ⟨n, hn, hdp⟩ := hg.kept (k := dp) (by rw [hself]; exact hr)
  rw [hself] at hdp
  -- the directory itself may be what was found
  have htwo : ip = dp → 1 < n := by
    intro e
    have href := congrArg Inode.ref hdp
    rcases hg.self with ⟨hr2, _, hs⟩ | ⟨hr2, _⟩
    · rw [e] at hr2 hs
      rw [hs] at href
      have href : ((lockedAt s dp).inode dp).ref + 1 = n := href
      omega
    · rw [e, hself] at hr2
      have hr2 : (s.inode dp).ref = 0 := hr2
      omega
  refine ⟨_, iunlockput_linked (by rw [hdp]) (by rw [hdp]; exact hn) (by rw [hdp]; exact hlinks),
    ⟨hg.blk, hg.dinode, hg.gen⟩, ⟨fun k => ?_, fun k h1 h2 => ?_⟩, ?_, ?_⟩
  · show (update s'.inode dp _ k).locked = false
    by_cases e : k = dp
    · rw [e, update_self]
    · rw [update_of_ne e, hg.locked, hother k e]
      exact hq.unlocked k
  · have h1 : 0 < (update s'.inode dp _ k).ref := h1
    have h2 : (update s'.inode dp _ k).valid = true := h2
    show (update s'.inode dp _ k).d = s'.dinode (update s'.inode dp _ k).inum
    rw [hg.dinode]
    by_cases e : k = dp
    · rw [e, update_self, hdp]
      rfl
    · rw [update_of_ne e] at h1 h2 ⊢
      obtain ⟨hr, hv, hd, hi⟩ := hg.valid h1 h2
      rw [hother k e] at hr hv hd hi
      rw [hd, hi]
      exact hq.cached k hr hv
  · show 0 < (update s'.inode dp _ ip).ref
    by_cases e : ip = dp
    · rw [e, update_self, hdp]
      show 0 < n - 1
      omega
    · rw [update_of_ne e]
      exact hg.ref_pos
  · show (update s'.inode dp _ ip).inum = inum
    rw [← hg.inum_eq]
    by_cases e : ip = dp
    · rw [e, update_self]
    · rw [update_of_ne e]

/-- The inode of the root. -/
theorem namei_root (sb : Superblock) (hq : Quiet s) (hfree : ∃ k, (s.inode k).ref = 0) (cwd : Fin NINODE) :
    Wp (namei sb cwd [SLASH]) s (fun r s' => ∃ ip, r = some ip ∧ Reached ROOTINO ip s s') fun _ => False := by
  unfold namei namex namexStart
  rw [if_pos (List.head?_cons ..), wp_bind, wp_bind]
  refine (iget_room hfree ROOTINO).post fun ip s1 hg => ?_
  unfold namexLoop
  have hskip : skipelem [SLASH] = none := rfl
  simp only [hskip, wp_pure, Bool.false_eq_true, if_false]
  exact ⟨ip, rfl, hg.toSameDisk, hg.quiet hq, hg.ref_pos, hg.inum_eq⟩

/-- The inode of an entry of the root directory. -/
theorem namei_entry (sb : Superblock) {name : List UInt8} {e : Nat} (hq : Quiet s)
    (hfree : ∃ k l, k ≠ l ∧ (s.inode k).ref = 0 ∧ (s.inode l).ref = 0) (hdir : (s.dinode ROOTINO).type = .dir)
    (hlinks : (s.dinode ROOTINO).nlink ≠ 0) (hne : name ≠ []) (hslash : SLASH ∉ name)
    (hentry : FirstOf s.blk (s.dinode ROOTINO) (name.take DIRSIZ) e) (cwd : Fin NINODE) :
    Wp (namei sb cwd (SLASH :: name)) s (fun r s' => ∃ ip, r = some ip ∧
      Reached (entry s.blk (s.dinode ROOTINO) e).inum ip s s') fun _ => False := by
  obtain ⟨k, l, hkl, hk, hl⟩ := hfree
  unfold namei namex namexStart
  rw [if_pos (List.head?_cons ..), wp_bind, wp_bind]
  refine (iget_room ⟨k, hk⟩ ROOTINO).post fun dp s1 hg => ?_
  have hq1 := hg.quiet hq
  have hroot : s1.dinode (s1.inode dp).inum = s.dinode ROOTINO := by rw [hg.inum_eq, hg.dinode]
  have hd : ((lockedAt s1 dp).inode dp).d = s.dinode ROOTINO := by
    rw [← hroot]
    exact congrArg Inode.d (update_self dp _ s1.inode)
  have hblk : (lockedAt s1 dp).blk = s.blk := hg.blk
  -- one of the two free entries of the table is still free
  have hfree : ∃ j, ((lockedAt s1 dp).inode j).ref = 0 := by
    have hstays : ∀ j, j ≠ dp → (lockedAt s1 dp).inode j = s.inode j := fun j hj =>
      (update_of_ne hj ..).trans (hg.other j hj)
    by_cases e : k = dp
    · exact ⟨l, by rw [hstays l fun h => hkl (e.trans h.symm)]; exact hl⟩
    · exact ⟨k, by rw [hstays k e]; exact hk⟩
  have hloop := lookupLoop_first sb (by rw [hd, hblk]; exact hentry) hfree
    (show _ ≤ DESIZE * ((s.dinode ROOTINO).size / DESIZE + 1) by rw [hd]; simp only [DESIZE]; omega)
  unfold namexLoop dirlookup
  simp only [skipelem_one hne hslash]
  rw [wp_bind, wp_ok (ilock_quiet hq1 hg.ref_pos (by rw [hroot, hdir]; decide)), wp_bind, wp_getInode, hd,
    if_neg (by rw [hdir]; decide), if_neg (by simp), wp_bind, wp_bind, wp_getInode, hd,
    if_neg (by rw [hdir]; decide)]
  refine hloop.post fun r s3 hr => ?_
  obtain ⟨ip, rfl, hg3⟩ := hr
  rw [hd, hblk] at hg3
  obtain ⟨s4, hput, hreach⟩ := hg3.release sb hq1 hg.ref_pos (by rw [hroot]; exact hlinks)
  have hskip : skipelem [] = none := rfl
  rw [wp_bind, wp_ok hput]
  unfold namexLoop
  simp only [List.length_cons, hskip, Bool.false_eq_true, if_false, wp_pure]
  exact ⟨ip, rfl, hg.toSameDisk.trans hreach.toSameDisk, hreach.quiet, hreach.ref, hreach.inum_eq⟩

end Namei
end Xv6.Fs
