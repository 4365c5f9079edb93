import Xv6.Fs.Walk
import Xv6.Fs.Whole

/-!
# The references a call holds (`kernel/fs.c`)

A system call takes references to inodes and locks them, and gives them back
before it returns. `Holds sb s own lk t`: the call started in `s` and in `t`
it holds the references `own` and the locks `lk`; the other references are
those of `s`.

* `iget_holds`, `Holds.idup`, `Holds.ilock`, `Holds.iunlock`, `Holds.iput`:
  each function of `fs.c` changes what is held by one, and does not panic
  except as said.
-/
namespace Xv6.Fs
open Function (update update_self update_of_ne)

variable {sb : Superblock} {s t t' : St} {own lk : List (Fin NINODE)} {ip dp : Fin NINODE}

def InRange (sb : Superblock) (i : Nat) : Prop := 1 ≤ i ∧ i < sb.ninodes

structure Holds (sb : Superblock) (s : St) (own lk : List (Fin NINODE)) (t : St) : Prop where
  inv : Inv sb t
  nonneg : ∀ k, 0 ≤ (s.inode k).ref
  ref : ∀ k, (t.inode k).ref = (s.inode k).ref + own.count k
  inum : ∀ k, 0 < (s.inode k).ref → (t.inode k).inum = (s.inode k).inum
  range : ∀ k, 0 < (t.inode k).ref → InRange sb (t.inode k).inum
  locked : ∀ k, (t.inode k).locked = true ↔ k ∈ lk

/-- No call is running. -/
structure Calm (sb : Superblock) (s : St) : Prop where
  inv : Inv sb s
  nonneg : ∀ k, 0 ≤ (s.inode k).ref
  range : ∀ k, 0 < (s.inode k).ref → InRange sb (s.inode k).inum
  unlocked : ∀ k, (s.inode k).locked = false

theorem Calm.holds (h : Calm sb s) : Holds sb s [] [] s :=
  ⟨h.inv, h.nonneg, fun k => by simp, fun _ _ => rfl, h.range, fun k => by simp [h.unlocked]⟩

theorem Holds.calm (h : Holds sb s own [] t) : Calm sb t := by
  refine ⟨h.inv, fun k => ?_, h.range, fun k => ?_⟩
  · rw [h.ref]
    have := h.nonneg k
    omega
  · have := h.locked k
    simpa using this

theorem Holds.ref_le (h : Holds sb s own lk t) (k : Fin NINODE) : (s.inode k).ref ≤ (t.inode k).ref := by
  rw [h.ref]
  omega

theorem Holds.ref_pos (h : Holds sb s own lk t) (hip : ip ∈ own) : 0 < (t.inode ip).ref := by
  have h1 := h.nonneg ip
  have h2 := List.count_pos_iff.2 hip
  rw [h.ref]
  omega

theorem Holds.perm {own' lk' : List (Fin NINODE)} (h : Holds sb s own lk t)
    (ho : own.Perm own') (hl : lk.Perm lk') : Holds sb s own' lk' t :=
  { h with ref := fun k => by rw [h.ref, ho.count_eq], locked := fun k => by rw [h.locked, hl.mem_iff] }

/-! ## iget and idup -/

theorem Got.holds {i : Nat} (hg : Got i ip t t') (h : Holds sb s own lk t) (hi : InRange sb i) :
    Holds sb s (ip :: own) lk t' := by
  have href : ∀ k, (t'.inode k).ref = (t.inode k).ref + if k = ip then 1 else 0 := by
    intro k
    by_cases e : k = ip
    · rw [if_pos e, e]
      rcases hg.self with ⟨_, _, hs⟩ | ⟨h0, _, hs⟩
      · rw [hs]
      · rw [hs, h0]
        rfl
    · rw [if_neg e, hg.other k e, Int.add_zero]
  refine ⟨hg.inv h.inv, h.nonneg, fun k => ?_, fun k hk => ?_, fun k hk => ?_,
    fun k => by rw [hg.locked, h.locked]⟩
  · rw [href, h.ref, List.count_cons]
    by_cases e : k = ip
    · rw [if_pos e, if_pos (by simpa using e.symm)]
      push_cast
      ring
    · rw [if_neg e, if_neg (by simpa using fun e' => e e'.symm)]
      push_cast
      ring
  · obtain ⟨r, -, hr⟩ := hg.kept (k := k) (Int.lt_of_lt_of_le hk (h.ref_le k))
    rw [hr]
    exact h.inum k hk
  · by_cases e : k = ip
    · rw [e, hg.inum_eq]
      exact hi
    · rw [hg.other k e] at hk ⊢
      exact h.range k hk

theorem iget_holds {i : Nat} (h : Holds sb s own lk t) (hi : InRange sb i) :
    Wp (iget i) t (fun ip t' => Got i ip t t' ∧ Holds sb s (ip :: own) lk t') (NoInodes t) :=
  (iget_spec t i).post fun _ _ hg => ⟨hg, hg.holds h hi⟩

/-- `idup` of an entry in use is `iget` of its inode. -/
theorem idup_got (hr : 0 < (t.inode ip).ref) :
    Wp (idup ip) t (fun r t' => r = ip ∧ Got (t.inode ip).inum ip t t') fun _ => False := by
  refine (idup_spec t ip).post fun r t' hd => ?_
  obtain ⟨h1, h2, h3, h4⟩ := hd
  exact ⟨h1, h2, h3, .inl ⟨hr, rfl, h4⟩⟩

/-! ## ilock and iunlock -/

theorem ilock_panics (hr : 0 < (t.inode ip).ref) (hl : (t.inode ip).locked = false) :
    Wp (ilock ip) t (fun _ _ => True) (· = .ilockNoType) := by
  unfold ilock
  rw [wp_bind, wp_getInode, if_neg (by omega), if_neg (by rw [hl]; decide), wp_ite]
  refine ⟨fun _ => (wp_setInode _ _).2 trivial, fun _ => ?_⟩
  rw [wp_bind, wp_get, wp_bind, wp_setInode, wp_ite]
  exact ⟨fun _ => (wp_panic _).2 rfl, fun _ => (wp_pure _).2 trivial⟩

theorem Locked.holds (hk : Locked sb ip t t') (h : Holds sb s own lk t) : Holds sb s own (ip :: lk) t' := by
  have hsame : ∀ k, (t'.inode k).ref = (t.inode k).ref ∧ (t'.inode k).inum = (t.inode k).inum := by
    intro k
    by_cases e : k = ip
    · rw [e, hk.self]
      exact ⟨rfl, rfl⟩
    · rw [hk.other k e]
      exact ⟨rfl, rfl⟩
  refine ⟨hk.inv h.inv, h.nonneg, fun k => by rw [(hsame k).1, h.ref],
    fun k hr => by rw [(hsame k).2, h.inum k hr], fun k hr => ?_, fun k => ?_⟩
  · rw [(hsame k).1] at hr
    rw [(hsame k).2]
    exact h.range k hr
  · by_cases e : k = ip
    · rw [e, hk.self]
      simp
    · rw [hk.other k e, h.locked]
      simp [e]

/-- `ilock` panics if the inode is not allocated. -/
theorem Holds.ilock (h : Holds sb s own lk t) (hip : ip ∈ own) (hlk : ip ∉ lk) :
    Wp (ilock ip) t (fun _ t' => Locked sb ip t t' ∧ Holds sb s own (ip :: lk) t')
      fun e => e = .ilockNoType ∧ (t.dinode (t.inode ip).inum).type = .free := by
  have hr := h.ref_pos hip
  have hl : (t.inode ip).locked = false := by
    have := (h.locked ip).not.2 hlk
    simpa using this
  refine ((ilock_spec h.inv (h.range ip)).both (ilock_panics hr hl)).mono
    (fun _ t' hk => ⟨hk.1, hk.1.holds h⟩) fun e he => ?_
  exact ⟨he.2, he.1.2 he.2⟩

theorem Holds.iunlock (h : Holds sb s own (ip :: lk) t) (hip : ip ∈ own) (hlk : ip ∉ lk) :
    Wp (iunlock ip) t (fun _ t' => SameDisk t t' ∧
      (∀ k, t'.inode k = { t.inode k with locked := (t'.inode k).locked }) ∧
      Holds sb s own lk t') fun _ => False := by
  have hr := h.ref_pos hip
  have hl : (t.inode ip).locked = true := (h.locked ip).2 (List.mem_cons_self ..)
  have hok : ¬((t.inode ip).locked = false ∨ (t.inode ip).ref < 1) := by
    rw [hl]
    rintro (h | h)
    · cases h
    · omega
  have hrun : Wp (Fs.iunlock ip) t (fun _ _ => True) fun _ => False := by
    unfold Fs.iunlock
    rw [wp_bind, wp_getInode, if_neg hok, wp_setInode]
    trivial
  refine ((iunlock_spec t ip).fails hrun).post fun _ t' hu => ?_
  obtain ⟨hd, hother, -, hself⟩ := hu
  have hsame : ∀ k, t'.inode k = { t.inode k with locked := (t'.inode k).locked } := by
    intro k
    by_cases e : k = ip
    · rw [e, hself]
    · rw [hother k e]
  refine ⟨hd, hsame, h.inv.retag hd hother (r := (t.inode ip).ref) hself fun _ => hr, h.nonneg,
    fun k => ?_, fun k hk => ?_, fun k hk => ?_, fun k => ?_⟩
  · rw [hsame k]
    exact h.ref k
  · rw [hsame k]
    exact h.inum k hk
  · rw [hsame k] at hk ⊢
    exact h.range k hk
  · by_cases e : k = ip
    · rw [e, hself]
      simpa using hlk
    · rw [hother k e, h.locked]
      simp [e]

/-! ## iput -/

theorem iput_unlocked (hinv : Inv sb t) (hl : (t.inode ip).locked = false) :
    Wp (iput sb ip) t (fun _ _ => True) fun _ => False := by
  unfold iput
  rw [wp_bind, wp_getInode, wp_ite]
  refine ⟨fun hlast => ?_, fun _ => (wp_setInode _ _).2 trivial⟩
  have hh : Held t ip := ⟨by omega, hlast.2.1⟩
  rw [if_neg (by rw [hl]; decide)]
  refine (itrunc_inv hinv hh).bind fun _ s1 _ => ?_
  simp only [wp_bind, wp_setInode, iupdate, wp_modify]

/-- A reference to `ip` is gone; what is on disk is as before. -/
structure Dropped (ip : Fin NINODE) (t t' : St) : Prop extends SameDisk t t' where
  other : ∀ k, k ≠ ip → t'.inode k = t.inode k
  self : t'.inode ip = { t.inode ip with ref := (t.inode ip).ref - 1 }

/-- `iput` gives a reference back. The inode goes with it if that was the last one and it has no links. -/
theorem Holds.iput (h : Holds sb s (ip :: own) lk t) (hlk : ip ∉ lk) :
    Wp (iput sb ip) t (fun _ t' => Holds sb s own lk t' ∧
      ((Dropped ip t t' ∧ ¬((t.inode ip).ref = 1 ∧ (t.inode ip).valid = true ∧ (t.inode ip).d.nlink = 0)) ∨
        Freed sb ip t t')) fun _ => False := by
  have hl : (t.inode ip).locked = false := by
    have := (h.locked ip).not.2 hlk
    simpa using this
  refine ((iput_spec h.inv).fails (iput_unlocked h.inv hl)).post fun _ t' hp => ?_
  obtain ⟨hinv, hcase⟩ := hp
  have hother : ∀ k, k ≠ ip → t'.inode k = t.inode k := by
    rcases hcase with ⟨-, ho, -⟩ | hf
    · exact ho
    · exact hf.other
  have hself : (t'.inode ip).ref = (t.inode ip).ref - 1 ∧ (t'.inode ip).inum = (t.inode ip).inum ∧
      (t'.inode ip).locked = false := by
    rcases hcase with ⟨-, -, hs, -⟩ | hf
    · rw [hs]
      exact ⟨rfl, rfl, hl⟩
    · exact ⟨by rw [hf.ref, hf.last]; rfl, hf.inum, hf.unlocked⟩
  have hinum : ∀ k, (t'.inode k).inum = (t.inode k).inum := by
    intro k
    by_cases e : k = ip
    · rw [e, hself.2.1]
    · rw [hother k e]
  refine ⟨⟨hinv, h.nonneg, fun k => ?_, fun k hk => by rw [hinum, h.inum k hk],
    fun k hk => ?_, fun k => ?_⟩, ?_⟩
  · have hk := h.ref k
    rw [List.count_cons] at hk
    by_cases e : k = ip
    · rw [e, hself.1]
      rw [e, if_pos (by simp)] at hk
      omega
    · rw [hother k e, hk, if_neg (by simpa using fun e' => e e'.symm), Nat.add_zero]
  · rw [hinum]
    refine h.range k ?_
    by_cases e : k = ip
    · rw [e, hself.1] at hk
      rw [e]
      omega
    · rw [hother k e] at hk
      exact hk
  · by_cases e : k = ip
    · rw [e, hself.2.2]
      simpa using hlk
    · rw [hother k e, h.locked]
  · rcases hcase with ⟨hd, ho, hs, hn⟩ | hf
    · exact .inl ⟨⟨hd, ho, hs⟩, hn⟩
    · exact .inr hf

end Xv6.Fs
