import Xv6.Fs.Content
import Xv6.Fs.Dir
import Xv6.Fs.Trunc

/-!
# The inode table (`kernel/fs.c`)

`Inv` is what holds of the file system between the functions of `fs.c`: the
blocks are owned as in `Xv6.Fs.Own`, a valid entry of the inode table that is
in use is the inode on disk, no inode has two entries, and no directory has a
hole. The functions are specified over it: each keeps it, and says which
inode and which entry it touches.

* `iget_spec`, `ilock_spec`, `iput_spec`, `ialloc_spec`, `writei_inv`: one
  for each function that the directory layer calls.
-/
namespace Xv6.Fs
open Function (update update_self update_of_ne update_idem)

variable {sb : Superblock} {ip : Fin NINODE}

structure Inv (sb : Superblock) (s : St) : Prop where
  rep : Rep sb True s.blk s.dinode
  cached : ∀ k, 0 < (s.inode k).ref → (s.inode k).valid = true →
    (s.inode k).d = s.dinode (s.inode k).inum ∧ Live sb s.dinode (s.inode k).inum
  uniq : ∀ k l, 0 < (s.inode k).ref → 0 < (s.inode l).ref → (s.inode k).inum = (s.inode l).inum → k = l
  noHole : ∀ i, Live sb s.dinode i → (s.dinode i).type = .dir → NoHole s.blk (s.dinode i)

/-- `ip` is a valid entry in use. -/
def Held (s : St) (ip : Fin NINODE) : Prop := 0 < (s.inode ip).ref ∧ (s.inode ip).valid = true

/-- Panics other than the two that a damaged file system leads to. -/
def Benign (e : Panic) : Prop := e ≠ .freeingFreeBlock ∧ e ≠ .ilockNoType

/-- `iget` has found no free entry. -/
def NoInodes (s : St) (e : Panic) : Prop := e = .igetNoInodes ∧ ∀ k, (s.inode k).ref ≠ 0

theorem NoInodes.benign {s : St} {e : Panic} (h : NoInodes s e) : Benign e := by
  rw [h.1]
  exact ⟨by simp, by simp⟩

section Basic
variable {s s' : St}

theorem Inv.inode_eq (h : Inv sb s) (hh : Held s ip) : (s.inode ip).d = s.dinode (s.inode ip).inum :=
  (h.cached ip hh.1 hh.2).1

theorem Inv.live (h : Inv sb s) (hh : Held s ip) : Live sb s.dinode (s.inode ip).inum :=
  (h.cached ip hh.1 hh.2).2

theorem Inv.view (h : Inv sb s) (hh : Held s ip) : view s ip = s.dinode := by
  rw [Fs.view, h.inode_eq hh]
  exact Function.update_eq_self ..

/-- No other entry in use holds the inode of an entry in use. -/
theorem Inv.inum_ne (h : Inv sb s) {k l : Fin NINODE} (hk : 0 < (s.inode k).ref) (hl : 0 < (s.inode l).ref)
    (hne : k ≠ l) : (s.inode k).inum ≠ (s.inode l).inum := fun e => hne (h.uniq k l hk hl e)

/-- What is on disk is as before. -/
structure SameDisk (s s' : St) : Prop where
  blk : s'.blk = s.blk
  dinode : s'.dinode = s.dinode
  gen : s'.gen = s.gen

theorem SameDisk.trans {t : St} (h : SameDisk s t) (h' : SameDisk t s') : SameDisk s s' :=
  ⟨h'.blk.trans h.blk, h'.dinode.trans h.dinode, h'.gen.trans h.gen⟩

section
variable (h : Inv sb s) (hd : SameDisk s s') (hother : ∀ k, k ≠ ip → s'.inode k = s.inode k)
include h hd hother

/-- Only the entry `ip` of the table is new; if in use and valid, it was so
before or it has just been read. -/
theorem Inv.table
    (hself : 0 < (s'.inode ip).ref → (s'.inode ip).valid = true →
      (s'.inode ip).d = s.dinode (s'.inode ip).inum ∧ Live sb s.dinode (s'.inode ip).inum)
    (huniq : 0 < (s'.inode ip).ref → ∀ k, k ≠ ip → 0 < (s.inode k).ref →
    (s.inode k).inum ≠ (s'.inode ip).inum) : Inv sb s' := by
  refine ⟨by rw [hd.blk, hd.dinode]; exact h.rep, fun k h1 h2 => ?_, fun k l hk hl e => ?_,
    by rw [hd.blk, hd.dinode]; exact h.noHole⟩
  · rw [hd.dinode]
    by_cases e : k = ip
    · rw [e] at h1 h2 ⊢; exact hself h1 h2
    · rw [hother k e] at h1 h2 ⊢; exact h.cached k h1 h2
  · by_cases ek : k = ip <;> by_cases el : l = ip
    · rw [ek, el]
    · rw [ek] at hk e
      rw [hother l el] at hl e
      exact absurd e.symm (huniq hk l el hl)
    · rw [el] at hl e
      rw [hother k ek] at hk e
      exact absurd e (huniq hl k ek hk)
    · rw [hother k ek] at hk e
      rw [hother l el] at hl e
      exact h.uniq k l hk hl e

/-- An entry in use changes in its reference count and lock only. -/
theorem Inv.retag {r : Int} {l : Bool}
    (hself : s'.inode ip = { s.inode ip with ref := r, locked := l })
    (hr : 0 < r → 0 < (s.inode ip).ref) : Inv sb s' := by
  refine h.table hd hother (fun h1 h2 => ?_) (fun h1 k hne hk => ?_)
  · rw [hself] at h1 h2 ⊢
    exact h.cached ip (hr h1) h2
  · rw [hself] at h1 ⊢
    exact h.inum_ne hk (hr h1) hne

end

end Basic

/-! ## References -/

/-- `iget` of `inum` has returned `ip`: an entry that was in use for it, or
a free one. -/
structure Got (inum : Nat) (ip : Fin NINODE) (s s' : St) : Prop extends SameDisk s s' where
  other : ∀ k, k ≠ ip → s'.inode k = s.inode k
  self : (0 < (s.inode ip).ref ∧ (s.inode ip).inum = inum ∧
      s'.inode ip = { s.inode ip with ref := (s.inode ip).ref + 1 }) ∨
    ((s.inode ip).ref = 0 ∧ (∀ k, 0 < (s.inode k).ref → (s.inode k).inum ≠ inum) ∧
      s'.inode ip = { s.inode ip with inum := inum, ref := 1, valid := false })

section Refs
variable {s s' : St} {inum : Nat}

section
variable (h : Got inum ip s s')
include h

theorem Got.inum_eq : (s'.inode ip).inum = inum := by
  rcases h.self with ⟨_, h1, h2⟩ | ⟨_, _, h2⟩
  · rw [h2]; exact h1
  · rw [h2]

theorem Got.ref_pos : 0 < (s'.inode ip).ref := by
  rcases h.self with ⟨h1, _, h2⟩ | ⟨_, _, h2⟩
  · rw [h2]; show 0 < (s.inode ip).ref + 1; omega
  · rw [h2]; exact Int.one_pos

variable {k : Fin NINODE}

/-- An entry in use keeps all but its reference count. -/
theorem Got.kept (hk : 0 < (s.inode k).ref) :
    ∃ r, 0 < r ∧ s'.inode k = { s.inode k with ref := r } := by
  by_cases e : k = ip
  · rw [e] at hk ⊢
    rcases h.self with ⟨h1, _, h2⟩ | ⟨h1, _⟩
    · exact ⟨_, by omega, h2⟩
    · omega
  · exact ⟨_, hk, h.other k e⟩

theorem Got.inv (hinv : Inv sb s) : Inv sb s' := by
  rcases h.self with ⟨h1, _, h2⟩ | ⟨_, h1, h2⟩
  · exact hinv.retag h.toSameDisk h.other (l := (s.inode ip).locked) h2 (fun _ => h1)
  · refine hinv.table h.toSameDisk h.other (fun _ hv => ?_) (fun _ k _ hk => ?_)
    · rw [h2] at hv; cases hv
    · rw [h2]; exact h1 k hk

end

theorem findInode_some (h : findInode s inum = some k) :
    0 < (s.inode k).ref ∧ (s.inode k).inum = inum := by
  have := List.find?_some h
  simpa using this

theorem findInode_none (h : findInode s inum = none) (k : Fin NINODE) (hk : 0 < (s.inode k).ref) :
    (s.inode k).inum ≠ inum := by
  have := List.find?_eq_none.1 h k (List.mem_finRange k)
  simp only [decide_eq_true_eq, not_and] at this
  exact this hk

theorem findEmpty_some (h : findEmpty s = some k) : (s.inode k).ref = 0 := by
  have := List.find?_some h
  simpa using this

theorem iget_spec (s : St) (inum : Nat) :
    Wp (iget inum) s (fun ip s' => Got inum ip s s') (NoInodes s) := by
  unfold iget
  rw [wp_bind, wp_get]
  cases hf : findInode s inum with
  | some ip =>
    obtain ⟨h1, h2⟩ := findInode_some hf
    simp only [wp_bind, wp_setInode, wp_pure]
    exact ⟨⟨rfl, rfl, rfl⟩, fun k hk => update_of_ne hk .., .inl ⟨h1, h2, update_self ..⟩⟩
  | none =>
    cases he : findEmpty s with
    | some ip =>
      simp only [wp_bind, wp_setInode, wp_pure]
      exact ⟨⟨rfl, rfl, rfl⟩, fun k hk => update_of_ne hk ..,
        .inr ⟨findEmpty_some he, findInode_none hf, update_self ..⟩⟩
    | none =>
      rw [wp_panic]
      exact ⟨rfl, fun k hk => by simpa [hk] using List.find?_eq_none.1 he k (List.mem_finRange k)⟩

theorem idup_spec (s : St) (ip : Fin NINODE) :
    Wp (idup ip) s (fun r s' => r = ip ∧ SameDisk s s' ∧ (∀ k, k ≠ ip → s'.inode k = s.inode k) ∧
      s'.inode ip = { s.inode ip with ref := (s.inode ip).ref + 1 }) (fun _ => False) := by
  unfold idup
  rw [wp_bind, wp_setInode, wp_pure]
  exact ⟨rfl, ⟨rfl, rfl, rfl⟩, fun k hk => update_of_ne hk .., update_self ..⟩

/-- `ilock` has locked `ip` and read it from disk if it was not valid. -/
structure Locked (sb : Superblock) (ip : Fin NINODE) (s s' : St) : Prop extends SameDisk s s' where
  other : ∀ k, k ≠ ip → s'.inode k = s.inode k
  ref : 0 < (s.inode ip).ref
  free : (s.inode ip).locked = false
  live : Live sb s.dinode (s.inode ip).inum
  self : s'.inode ip = { s.inode ip with locked := true, valid := true, d := s.dinode (s.inode ip).inum }

theorem Locked.held (h : Locked sb ip s s') : Held s' ip := by
  unfold Held
  rw [h.self]
  exact ⟨h.ref, rfl⟩

theorem Locked.inv (h : Locked sb ip s s') (hinv : Inv sb s) : Inv sb s' := by
  refine hinv.table h.toSameDisk h.other (fun _ _ => ?_) (fun _ k hne hk => ?_)
  · rw [h.self]; exact ⟨rfl, h.live⟩
  · rw [h.self]; exact hinv.inum_ne hk h.ref hne

theorem ilock_spec (hinv : Inv sb s)
    (hrange : 0 < (s.inode ip).ref → 1 ≤ (s.inode ip).inum ∧ (s.inode ip).inum < sb.ninodes) :
    Wp (ilock ip) s (fun _ s' => Locked sb ip s s')
      (fun e => e ≠ .freeingFreeBlock ∧ (e = .ilockNoType → (s.dinode (s.inode ip).inum).type = .free)) := by
  unfold ilock
  rw [wp_bind, wp_getInode, wp_ite]
  refine ⟨fun _ => ?_, fun href => ?_⟩
  · rw [wp_panic]; exact ⟨by simp, by simp⟩
  rw [wp_ite]
  refine ⟨fun _ => ?_, fun hfree => ?_⟩
  · rw [wp_panic]; exact ⟨by simp, by simp⟩
  have href : 0 < (s.inode ip).ref := by omega
  have hfree : (s.inode ip).locked = false := by simpa using hfree
  rw [wp_ite]
  refine ⟨fun hv => ?_, fun hv => ?_⟩
  · obtain ⟨hd, hl⟩ := hinv.cached ip href hv
    rw [wp_setInode]
    refine ⟨⟨rfl, rfl, rfl⟩, fun k hk => update_of_ne hk .., href, hfree, hl, ?_⟩
    rw [← hd, ← hv]
    exact update_self ..
  · rw [wp_bind, wp_get, wp_bind, wp_setInode, wp_ite]
    refine ⟨fun ht => ?_, fun ht => ?_⟩
    · rw [wp_panic]; exact ⟨by simp, fun _ => ht⟩
    · rw [wp_pure]
      exact ⟨⟨rfl, rfl, rfl⟩, fun k hk => update_of_ne hk .., href, hfree,
        ⟨(hrange href).1, (hrange href).2, ht⟩, update_self ..⟩

theorem iunlock_spec (s : St) (ip : Fin NINODE) :
    Wp (iunlock ip) s (fun _ s' => SameDisk s s' ∧ (∀ k, k ≠ ip → s'.inode k = s.inode k) ∧
      0 < (s.inode ip).ref ∧ s'.inode ip = { s.inode ip with locked := false }) Benign := by
  unfold iunlock
  rw [wp_bind, wp_getInode, wp_ite]
  refine ⟨fun _ => ?_, fun h => ?_⟩
  · rw [wp_panic]; exact ⟨by simp, by simp⟩
  · rw [wp_setInode]
    exact ⟨⟨rfl, rfl, rfl⟩, fun k hk => update_of_ne hk .., by omega, update_self ..⟩

end Refs

/-! ## Changes to one inode -/

/-- Inode `i` is the only one whose copy on disk or whose content changes. -/
structure Touches (sb : Superblock) (i : Nat) (s s' : St) : Prop where
  dinode : ∀ j, j ≠ i → s'.dinode j = s.dinode j
  file : ∀ j, Live sb s.dinode j → j ≠ i →
    ∀ bn, Fs.file s'.blk (s.dinode j) bn = Fs.file s.blk (s.dinode j) bn

section Touch
variable {s s' : St}

variable {i j : Nat}

theorem Touches.live (h : Touches sb i s s') (hj : j ≠ i) : Live sb s'.dinode j ↔ Live sb s.dinode j := by
  unfold Live
  rw [h.dinode j hj]

theorem Touches.noHole (h : Touches sb i s s') (hj : j ≠ i) (hl : Live sb s.dinode j)
    (hn : NoHole s.blk (s.dinode j)) : NoHole s'.blk (s'.dinode j) := by
  intro bn hbn
  rw [h.dinode j hj] at hbn ⊢
  rw [h.file j hl hj]
  exact hn bn hbn

/-- The blocks of the data area are as before. -/
theorem Touches.of_blk (hrep : Rep sb True s.blk s.dinode) (hd : ∀ j, j ≠ i → s'.dinode j = s.dinode j)
    (hb : ∀ c, sb.nmeta ≤ c → s'.blk c = s.blk c) : Touches sb i s s' := by
  refine ⟨hd, fun j hl hj bn => ?_⟩
  have hslot : slot s'.blk (s.dinode j) (dataSlot bn) = slot s.blk (s.dinode j) (dataSlot bn) :=
    slot_frees hb (hrep.indirect_meta hl) _
  refine file_congr hslot (fun h0 => hb _ ?_)
  exact (hrep.ledger.in_pool _ _ (cell_of_slot hl h0)).1

/-- Inode `i` is new on disk and in its entry of the table. -/
theorem Inv.touch (h : Inv sb s) (ht : Touches sb i s s') (hrep : Rep sb True s'.blk s'.dinode)
    (hentry : ∀ k, s'.inode k = s.inode k ∨ ((s'.inode k).inum = i ∧ (s.inode k).inum = i ∧
      (0 < (s'.inode k).ref → 0 < (s.inode k).ref)))
    (hcached : ∀ k, (s'.inode k).inum = i → 0 < (s'.inode k).ref → (s'.inode k).valid = true →
      (s'.inode k).d = s'.dinode i ∧ Live sb s'.dinode i)
    (hhole : Live sb s'.dinode i → (s'.dinode i).type = .dir → NoHole s'.blk (s'.dinode i)) : Inv sb s' := by
  have hinum : ∀ k, (s'.inode k).inum = (s.inode k).inum ∧ (0 < (s'.inode k).ref → 0 < (s.inode k).ref) := by
    intro k
    rcases hentry k with e | ⟨e1, e2, e3⟩
    · rw [e]; exact ⟨rfl, id⟩
    · exact ⟨e1.trans e2.symm, e3⟩
  refine ⟨hrep, fun k h1 h2 => ?_, fun k l hk hl e => ?_, fun j hj hd => ?_⟩
  · by_cases e : (s'.inode k).inum = i
    · rw [e]; exact hcached k e h1 h2
    · rcases hentry k with hk | ⟨hk, _⟩
      · rw [hk] at h1 h2 e ⊢
        obtain ⟨h3, h4⟩ := h.cached k h1 h2
        rw [ht.dinode _ e]
        exact ⟨h3, (ht.live e).2 h4⟩
      · exact absurd hk e
  · apply h.uniq k l ((hinum k).2 hk) ((hinum l).2 hl)
    rw [← (hinum k).1, ← (hinum l).1, e]
  · by_cases e : j = i
    · rw [e] at hj hd ⊢; exact hhole hj hd
    · have hl := (ht.live e).1 hj
      exact ht.noHole e hl (h.noHole j hl (by rw [← ht.dinode j e]; exact hd))

/-- The same, where that entry is `ip`. -/
theorem Inv.touch_entry (h : Inv sb s) (href : 0 < (s.inode ip).ref) (hi : (s.inode ip).inum = i)
    (ht : Touches sb i s s')
    (hrep : Rep sb True s'.blk s'.dinode) (hother : ∀ k, k ≠ ip → s'.inode k = s.inode k)
    (hinum : (s'.inode ip).inum = i)
    (hcached : 0 < (s'.inode ip).ref → (s'.inode ip).d = s'.dinode i ∧ Live sb s'.dinode i)
    (hhole : Live sb s'.dinode i → (s'.dinode i).type = .dir → NoHole s'.blk (s'.dinode i)) : Inv sb s' := by
  refine h.touch ht hrep (fun k => ?_) (fun k e hr _ => ?_) hhole
  · by_cases e : k = ip
    · subst e
      exact .inr ⟨hinum, hi, fun _ => href⟩
    · exact .inl (hother k e)
  · by_cases e' : k = ip
    · subst e'
      exact hcached hr
    · rw [hother k e'] at e hr
      exact absurd (e.trans hi.symm) (h.inum_ne hr href e')

/-- The inode keeps its type. -/
theorem Inv.live_of_type (h : Inv sb s) (hh : Held s ip)
    (ht : (s'.dinode (s.inode ip).inum).type = (s.inode ip).d.type) :
    Live sb s'.dinode (s.inode ip).inum := by
  obtain ⟨h1, h2, h3⟩ := h.live hh
  exact ⟨h1, h2, by rw [ht, h.inode_eq hh]; exact h3⟩

end Touch

variable {blk : Nat → Block}

/-- An inode without blocks may change in any other way. -/
theorem Rep.blank {full : Prop} {cur cur' : Nat → Dinode} {i : Nat} (h : Rep sb full blk cur)
    (hother : ∀ j, j ≠ i → cur' j = cur j) (hz : ∀ t, cell sb blk cur (i, t) = none)
    (hz' : ∀ t, slot blk (cur' i) t = 0) : Rep sb full blk cur' := by
  refine ⟨h.ledger.congr (fun l => ?_) (fun _ _ => Iff.rfl), h.metadata⟩
  by_cases e : l.1 = i
  · rw [show l = (i, l.2) from Prod.ext e rfl, hz]
    by_cases hl : Live sb cur' i
    · rw [cell_live hl, hz', if_pos rfl]
    · exact cell_dead hl
  · have hlive : Live sb cur' l.1 ↔ Live sb cur l.1 := by unfold Live; rw [hother _ e]
    by_cases hl : Live sb cur l.1
    · rw [cell_live hl, cell_live (hlive.2 hl), hother _ e]
    · rw [cell_dead hl, cell_dead (fun hh => hl (hlive.1 hh))]

theorem slot_blank {d : Dinode} (h : ∀ t, t ≤ NDIRECT → d.addrs t = 0) (t : Nat) : slot blk d t = 0 := by
  unfold slot
  split
  · exact h t ‹_›
  · rw [if_pos (h NDIRECT (Nat.le_refl _))]

section Changes
variable {s s' : St}

/-- The fields of the copy of the inode, written to disk. -/
def put (s : St) (ip : Fin NINODE) (d : Dinode) : St :=
  { s with
    inode := update s.inode ip { s.inode ip with d := d }
    dinode := update s.dinode (s.inode ip).inum d }

variable {d : Dinode} {full : Prop} {i : Nat} {type : Ty}

theorem put_self : (put s ip d).inode ip = { s.inode ip with d := d } := update_self ..

theorem put_dinode : (put s ip d).dinode (s.inode ip).inum = d := update_self ..

theorem put_touches : Touches sb (s.inode ip).inum s (put s ip d) :=
  ⟨fun _ hj => update_of_ne hj .., fun _ _ _ _ => rfl⟩

theorem put_inv (h : Inv sb s) (hh : Held s ip) (htype : d.type = (s.inode ip).d.type)
    (hsize : d.size = (s.inode ip).d.size) (haddrs : d.addrs = (s.inode ip).d.addrs) :
    Inv sb (put s ip d) := by
  have hd := h.inode_eq hh
  have hi := h.live hh
  have hcur : ∀ j, ((put s ip d).dinode j).type = (s.dinode j).type ∧
      ((put s ip d).dinode j).addrs = (s.dinode j).addrs := by
    intro j
    by_cases e : j = (s.inode ip).inum
    · rw [e, put_dinode, htype, haddrs, hd]; exact ⟨rfl, rfl⟩
    · have : (put s ip d).dinode j = s.dinode j := update_of_ne e ..
      rw [this]; exact ⟨rfl, rfl⟩
  have hlive : ∀ j, Live sb (put s ip d).dinode j ↔ Live sb s.dinode j := by
    intro j
    unfold Live
    rw [(hcur j).1]
  refine h.touch_entry hh.1 rfl put_touches ?_ (fun k hk => update_of_ne hk ..)
    (by rw [put_self]) (fun _ => ?_) (fun _ htd => ?_)
  · refine h.rep.congr hlive (fun j _ t => ?_) (fun _ _ => rfl)
    unfold slot
    rw [(hcur j).2]
    rfl
  · rw [put_self, put_dinode]
    exact ⟨rfl, (hlive _).2 hi⟩
  · rw [put_dinode] at htd ⊢
    intro bn hbn
    have := h.noHole _ hi (by rw [← hd, ← htype]; exact htd) bn
    rw [hsize, hd] at hbn
    have hf : file (put s ip d).blk d bn = file s.blk (s.dinode (s.inode ip).inum) bn := by
      unfold file slot
      rw [haddrs, hd]
      rfl
    rw [hf]
    exact this hbn

theorem Truncated.touches (h : Truncated sb full ip s s') (hrep : Rep sb True s.blk s.dinode) :
    Touches sb (s.inode ip).inum s s' :=
  Touches.of_blk hrep (fun j hj => by rw [h.dinode]; exact update_of_ne hj ..) h.blk

theorem Truncated.dinode_self (h : Truncated sb full ip s s') :
    s'.dinode (s.inode ip).inum = (s'.inode ip).d := by
  rw [h.dinode]; exact update_self ..

theorem Truncated.inv (h : Truncated sb True ip s s') (hinv : Inv sb s) (hh : Held s ip) : Inv sb s' := by
  obtain ⟨f, -, hself⟩ := h.self
  refine hinv.touch_entry hh.1 rfl (h.touches hinv.rep) h.rep h.inode (by rw [hself])
    (fun _ => ⟨h.dinode_self.symm, hinv.live_of_type hh (by rw [h.dinode_self, hself])⟩) fun _ _ bn hbn => ?_
  rw [h.dinode_self, hself] at hbn
  simp at hbn

theorem itrunc_inv (hinv : Inv sb s) (hh : Held s ip) :
    Wp (itrunc sb ip) s (fun _ s' => Truncated sb True ip s s') (fun _ => False) := by
  apply itrunc_spec
  · rw [hinv.view hh]; exact hinv.rep
  · rw [hinv.view hh]; exact hinv.live hh

/-! ## iput -/

/-- The last reference to an inode without links is gone, and so is the
inode. -/
structure Freed (sb : Superblock) (ip : Fin NINODE) (s s' : St) : Prop where
  held : Held s ip
  last : (s.inode ip).ref = 1
  nlink : (s.dinode (s.inode ip).inum).nlink = 0
  other : ∀ k, k ≠ ip → s'.inode k = s.inode k
  ref : (s'.inode ip).ref = 0
  inum : (s'.inode ip).inum = (s.inode ip).inum
  unlocked : (s'.inode ip).locked = false
  touches : Touches sb (s.inode ip).inum s s'
  free : (s'.dinode (s.inode ip).inum).type = .free
  gen : s'.gen = update s.gen (s.inode ip).inum (s.gen (s.inode ip).inum + 1)

theorem iput_spec (hinv : Inv sb s) :
    Wp (iput sb ip) s (fun _ s' => Inv sb s' ∧
      ((SameDisk s s' ∧ (∀ k, k ≠ ip → s'.inode k = s.inode k) ∧
        s'.inode ip = { s.inode ip with ref := (s.inode ip).ref - 1 } ∧
        ¬((s.inode ip).ref = 1 ∧ (s.inode ip).valid = true ∧ (s.inode ip).d.nlink = 0)) ∨
        Freed sb ip s s')) Benign := by
  unfold iput
  rw [wp_bind, wp_getInode, wp_ite]
  refine ⟨fun hlast => ?_, fun hmore => ?_⟩
  · obtain ⟨href, hv, hnl⟩ := hlast
    have hh : Held s ip := ⟨by omega, hv⟩
    rw [wp_ite]
    refine ⟨fun _ => ?_, fun hfree => ?_⟩
    · rw [wp_panic]; exact ⟨by simp, by simp⟩
    refine ((itrunc_inv hinv hh).never).bind (fun _ s1 ht => ?_)
    have hinv1 := ht.inv hinv hh
    obtain ⟨f, hf, hself⟩ := ht.self
    have hinum : (s1.inode ip).inum = (s.inode ip).inum := by rw [hself]
    have hzero : ∀ t, (s1.inode ip).d.addrs t = f t := by intro t; rw [hself]
    have hh1 : Held s1 ip := by unfold Held; rw [hself]; exact hh
    rw [wp_bind, wp_setInode, wp_bind, iupdate, wp_modify, wp_bind, wp_modify, wp_setInode]
    simp only [update_self]
    rw [hinum, update_idem]
    have hd1 := hinv1.inode_eq hh1
    have hl1 := hinv1.live hh1
    rw [hinum] at hd1 hl1
    have hdj : ∀ j, j ≠ (s.inode ip).inum →
        update s1.dinode (s.inode ip).inum { (s1.inode ip).d with type := .free } j = s1.dinode j :=
      fun j hj => update_of_ne hj ..
    refine ⟨hinv1.touch_entry hh1.1 hinum ⟨hdj, fun _ _ _ _ => rfl⟩
      (hinv1.rep.blank hdj (fun t => ?_) (slot_blank ?_))
      (fun k hk => update_of_ne hk ..) ?_ (fun hr => ?_) (fun hl => ?_), .inr ⟨hh, href, ?_,
      fun k hk => (update_of_ne hk ..).trans (ht.inode k hk), ?_, ?_, ?_, ?_,
      ?_, by rw [ht.gen]⟩⟩ <;> try dsimp only
    · rw [cell_live hl1, if_pos]
      rw [← hd1]
      exact slot_blank (fun t ht => by rw [hzero]; exact hf t ht) t
    · intro t ht
      rw [update_self]
      exact (hzero t).trans (hf t ht)
    · rw [update_self]
    · have : 0 < (s.inode ip).ref - 1 := by simpa [hself] using hr
      omega
    · have := hl.2.2
      simp at this
    · rw [← hinv.inode_eq hh]; exact hnl
    · simp [hself, href]
    · rw [update_self]
    · rw [update_self, hself]; simpa using hfree
    · exact ⟨fun j hj => (hdj j hj).trans ((ht.touches hinv.rep).dinode j hj), (ht.touches hinv.rep).file⟩
    · rw [update_self]
  · rw [wp_setInode]
    have hd : SameDisk s { s with
        inode := update s.inode ip { s.inode ip with ref := (s.inode ip).ref - 1 } } := ⟨rfl, rfl, rfl⟩
    have hother := fun k (hk : k ≠ ip) =>
      update_of_ne hk { s.inode ip with ref := (s.inode ip).ref - 1 } s.inode
    exact ⟨hinv.retag hd hother (l := (s.inode ip).locked) (update_self ..) (fun h => by omega),
      .inl ⟨hd, hother, update_self .., hmore⟩⟩

/-! ## ialloc -/

theorem findFree_some {passes inum : Nat} (h : findFree s passes inum = some i) :
    inum ≤ i ∧ i < inum + passes ∧ (s.dinode i).type = .free := by
  induction passes generalizing inum with
  | zero => cases h
  | succ passes ih =>
    unfold findFree at h
    split at h
    · rename_i hfree
      cases h
      exact ⟨Nat.le_refl _, by omega, hfree⟩
    · obtain ⟨h1, h2, h3⟩ := ih h
      exact ⟨by omega, by omega, h3⟩

/-- The inode that `ialloc` writes. -/
def fresh (type : Ty) : Dinode :=
  { type := type, major := 0, minor := 0, nlink := 0, size := 0, addrs := fun _ => 0 }

/-- `ialloc` has made the free inode `i` one of type `type`. -/
structure Allocated (sb : Superblock) (type : Ty) (i : Nat) (ip : Fin NINODE) (s s' : St) : Prop where
  pos : 1 ≤ i
  lt : i < sb.ninodes
  free : (s.dinode i).type = .free
  got : Got i ip { s with dinode := update s.dinode i (fresh type) } s'

theorem Allocated.dinode (h : Allocated sb type i ip s s') : s'.dinode = update s.dinode i (fresh type) :=
  h.got.dinode

theorem Allocated.inv (h : Allocated sb type i ip s s') (hinv : Inv sb s) : Inv sb s' := by
  refine h.got.inv ?_
  have hdj : ∀ j, j ≠ i → update s.dinode i (fresh type) j = s.dinode j := fun j hj => update_of_ne hj ..
  refine hinv.touch (i := i) ⟨hdj, fun _ _ _ _ => rfl⟩ ?_ (fun k => .inl rfl) (fun k e hr hv => ?_)
    (fun _ _ bn hbn => ?_)
  · refine hinv.rep.blank hdj (fun t => cell_dead (fun hl => hl.2.2 h.free)) (slot_blank (fun t _ => ?_))
    dsimp only
    rw [update_self]
    rfl
  · have := (hinv.cached k hr hv).2
    rw [show (s.inode k).inum = i from e] at this
    exact absurd h.free this.2.2
  · simp [fresh] at hbn

theorem ialloc_spec (s : St) (type : Ty) :
    Wp (ialloc sb type) s (fun r s' => (r = none ∧ s' = s) ∨ ∃ ip i, r = some ip ∧
      Allocated sb type i ip s s') Benign := by
  unfold ialloc
  rw [wp_bind, wp_get]
  cases hf : findFree s (sb.ninodes - 1) 1 with
  | none => exact (wp_pure _).2 (.inl ⟨rfl, rfl⟩)
  | some i =>
    obtain ⟨h1, h2, h3⟩ := findFree_some hf
    simp only [wp_bind, wp_modify]
    refine (iget_spec _ i).mono (fun ip s' hg => ?_) (fun _ he => he.benign)
    rw [wp_pure]
    exact .inr ⟨ip, i, rfl, h1, by omega, h3, hg⟩

/-! ## writei -/

/-- `writei` has written `k` of `n` bytes at `off`. -/
structure Wrote (sb : Superblock) (ip : Fin NINODE) (src : Nat → UInt8) (room : Option Nat)
    (off n k : Nat) (s s' : St) : Prop where
  touches : Touches sb (s.inode ip).inum s s'
  other : ∀ l, l ≠ ip → s'.inode l = s.inode l
  gen : s'.gen = s.gen
  self : ∃ f, s'.inode ip =
    { s.inode ip with d := { (s.inode ip).d with size := max (s.inode ip).d.size (off + k), addrs := f } }
  le : k ≤ n
  new : ∀ j, off ≤ j → j < off + k → byteAt s'.blk (s'.inode ip).d j = src (j - off)
  old : ∀ j, j < off ∨ off + n ≤ j → byteAt s'.blk (s'.inode ip).d j = byteAt s.blk (s.inode ip).d j
  rest : fits room n = true → ∀ j, off + k ≤ j →
    byteAt s'.blk (s'.inode ip).d j = byteAt s.blk (s.inode ip).d j
  whole : fits room n = true → k < n → k = 0 ∨ (off + k) % BSIZE = 0

theorem Written.wrote {src : Nat → UInt8} {room : Option Nat} {off n k : Nat} {t : St}
    (hinv : Inv sb s) (hh : Held s ip) (w : Written sb True ip src room off 0 n k s t) :
    Wrote sb ip src room off n k s (closed t ip (off + k)) := by
  have hview := hinv.view hh
  have hinum := w.toReaddress.inum
  obtain ⟨f, hf⟩ := w.self
  have hself : (closed t ip (off + k)).inode ip =
      { t.inode ip with d := { (t.inode ip).d with size := max (t.inode ip).d.size (off + k) } } :=
    closed_self
  have hbyte : ∀ j, byteAt (closed t ip (off + k)).blk ((closed t ip (off + k)).inode ip).d j =
      byteAt t.blk (t.inode ip).d j := fun j => by rw [hself]; rfl
  have hdj : ∀ j, j ≠ (s.inode ip).inum → (closed t ip (off + k)).dinode j = s.dinode j := by
    intro j hj
    rw [← w.dinode]
    exact update_of_ne (by rw [hinum]; exact hj) ..
  refine ⟨⟨hdj, fun j hl hj bn => ?_⟩, fun l hl => ?_, w.gen, ⟨f, ?_⟩, w.le,
    fun j h1 h2 => ?_, fun j hj => ?_, fun hr j hj => ?_, fun hr => w.whole (by rw [Nat.zero_add]; exact hr)⟩
  · have := w.file_other j (by rw [hview]; exact hl) hj bn
    rw [w.toReaddress.other hj, hview] at this
    exact this
  · rw [← w.inode l hl]; exact update_of_ne hl ..
  · rw [hself, hf]
  · rw [hbyte, w.new j h1 h2, Nat.zero_add]
  · rw [hbyte, w.old j hj]
  · rw [hbyte, w.rest (by rw [Nat.zero_add]; exact hr) j hj]

theorem writei_inv (src : Nat → UInt8) (room : Option Nat) (off n : UInt32)
    (hinv : Inv sb s) (hh : Held s ip) : Wp (writei sb ip src room off n) s (fun r s' => Inv sb s' ∧
      ((r = -1 ∧ s' = s ∧ Refused (s.inode ip).d off n) ∨
        ∃ k : Nat, r = k ∧ ¬Refused (s.inode ip).d off n ∧ Wrote sb ip src room off.toNat n.toNat k s s'))
      (fun _ => False) := by
  have hview := hinv.view hh
  have hl := hinv.live hh
  refine (writei_spec src room off n (by rw [hview]; exact hinv.rep) (by rw [hview]; exact hl)).post
    fun r s' h => ?_
  rcases h with ⟨h1, h2, h3⟩ | ⟨k, t, hr, href, hw, hs'⟩
  · rw [h2]
    exact ⟨hinv, .inl ⟨h1, rfl, h3⟩⟩
  have hwrote := hw.wrote hinv hh
  rw [hs']
  refine ⟨?_, .inr ⟨k, hr, href, hwrote⟩⟩
  obtain ⟨f, hself⟩ := hwrote.self
  have hv : view (closed t ip (off.toNat + k)) ip = (closed t ip (off.toNat + k)).dinode := closed_view
  have hdi : (closed t ip (off.toNat + k)).dinode (s.inode ip).inum =
      ((closed t ip (off.toNat + k)).inode ip).d := by
    rw [← hv, ← view_self, hself]
  refine hinv.touch_entry hh.1 rfl hwrote.touches ?_ hwrote.other (by rw [hself])
    (fun _ => ⟨hdi.symm, hinv.live_of_type hh (by rw [hdi, hself])⟩) (fun _ hd => ?_)
  · rw [← hv]; exact closed_rep hw.rep
  · rw [hdi] at hd ⊢
    have htype : (s.dinode (s.inode ip).inum).type = .dir := by
      rw [hself] at hd
      rw [← hinv.inode_eq hh]; exact hd
    have hhole := hinv.noHole _ hl htype
    rw [← hinv.inode_eq hh] at hhole
    unfold Refused at href
    exact hw.noHole hhole (by omega)

end Changes

end Xv6.Fs
