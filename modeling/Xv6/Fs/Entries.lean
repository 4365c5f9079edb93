import Xv6.Fs.Table

/-!
# Directory entries (`kernel/fs.c`)

A directory is an array of entries of `DESIZE` bytes. `entry blk d e` is the
`e`th as the kernel reads it; an entry is called `name` if `dirlookup` takes
it for one.

* `dirlookup_spec`: the first entry of that name, and a reference to its
  inode.
* `dirlink_spec`: a new entry in a free place, or nothing is changed.
-/
namespace Xv6.Fs
open Function (update update_self update_of_ne)

variable {sb : Superblock} {dp ip : Fin NINODE} {s s' : St}

def entry (blk : Nat → Block) (d : Dinode) (e : Nat) : Dirent :=
  Dirent.decode ((List.range DESIZE).map fun i => byteAt blk d (DESIZE * e + i))

/-- An entry that `dirlookup` of `name` stops at. -/
def Called (name : List UInt8) (de : Dirent) : Prop := de.inum ≠ 0 ∧ namecmp name de.name = 0

variable {blk : Nat → Block} {d : Dinode} {e : Nat} {de : Dirent}

theorem entry_congr {blk' : Nat → Block} {d' : Dinode}
    (h : ∀ i, i < DESIZE → byteAt blk' d' (DESIZE * e + i) = byteAt blk d (DESIZE * e + i)) :
    entry blk' d' e = entry blk d e := by
  unfold entry
  rw [List.map_congr_left (fun i hi => h i (List.mem_range.1 hi))]

theorem leByte_pair (n : Nat) : (Bytes.leByte n 0).toNat + 256 * (Bytes.leByte n 1).toNat = n % 2 ^ 16 := by
  have h0 := Bytes.leByte_zero n
  have h1 := Bytes.leByte_zero (n / 256)
  rw [← Bytes.leByte_succ] at h1
  rw [h0, h1]
  omega

theorem entry_encode (hlen : de.name.length = DIRSIZ)
    (hinum : de.inum < 2 ^ 16) (h : ∀ i, i < DESIZE → byteAt blk d (DESIZE * e + i) = de.encode i) :
    entry blk d e = de := by
  have hbytes : ((List.range DESIZE).map fun i => byteAt blk d (DESIZE * e + i)) =
      (List.range DESIZE).map de.encode :=
    List.map_congr_left (fun i hi => h i (List.mem_range.1 hi))
  have hname : (((List.range DESIZE).map de.encode).drop 2).take DIRSIZ = de.name := by
    apply List.ext_getElem
    · simp [hlen, DESIZE, DIRSIZ]
    · intro i h1 h2
      have hi : ¬2 + i < 2 := by omega
      simp only [List.getElem_take, List.getElem_drop, List.getElem_map, List.getElem_range,
        Dirent.encode, if_neg hi,
        Nat.add_sub_cancel_left, List.getD_eq_getElem?_getD, List.getElem?_eq_getElem h2, Option.getD_some]
  have hnum : de.encode 0 = Bytes.leByte de.inum 0 ∧ de.encode 1 = Bytes.leByte de.inum 1 := ⟨rfl, rfl⟩
  unfold entry
  rw [hbytes]
  unfold Dirent.decode
  rw [hname]
  have h0 : ((List.range DESIZE).map de.encode).getD 0 0 = de.encode 0 := rfl
  have h1 : ((List.range DESIZE).map de.encode).getD 1 0 = de.encode 1 := rfl
  rw [h0, h1, hnum.1, hnum.2, leByte_pair, Nat.mod_eq_of_lt hinum]

theorem length_strncpy (n : Nat) (t : List UInt8) : (strncpy n t).length = n := by
  induction n generalizing t with
  | zero => rfl
  | succ n ih =>
    unfold strncpy
    split
    · simp
    · simp [ih]

/-- `dp` is a directory in memory. -/
structure IsDir (sb : Superblock) (s : St) (dp : Fin NINODE) : Prop where
  inv : Inv sb s
  held : Held s dp
  type : (s.inode dp).d.type = .dir

theorem IsDir.noHole (h : IsDir sb s dp) : NoHole s.blk (s.inode dp).d := by
  have := h.inv.noHole _ (h.inv.live h.held) (by rw [← h.inv.inode_eq h.held]; exact h.type)
  rwa [← h.inv.inode_eq h.held] at this

/-! ## Reading entries -/

/-- Entry `e`, which is mapped, is read as a whole unless the directory ends in the middle of it. -/
theorem readEntry_spec (hlt : DESIZE * e + DESIZE < 2 ^ 32) (he : DESIZE * e < (s.inode dp).d.size)
    (hmap : ∀ k, k < DESIZE * e + DESIZE → k < (s.inode dp).d.size →
    slot s.blk (s.inode dp).d (dataSlot (k / BSIZE)) ≠ 0) {R : Panic → Prop} :
    Wp (readi sb dp none (UInt32.ofNat (DESIZE * e)) (UInt32.ofNat DESIZE)) s (fun r s' => s' = s ∧
      (r.1 = DESIZE ↔ DESIZE * e + DESIZE ≤ (s.inode dp).d.size) ∧
      (r.1 = DESIZE → Dirent.decode r.2 = entry s.blk (s.inode dp).d e)) R := by
  have hoff : (UInt32.ofNat (DESIZE * e)).toNat = DESIZE * e := by
    rw [UInt32.toNat_ofNat']; exact Nat.mod_eq_of_lt (by omega)
  have hn : (UInt32.ofNat DESIZE).toNat = DESIZE := rfl
  unfold readi
  rw [wp_bind, wp_getInode, wp_ite, add_wraps, hoff, hn]
  refine ⟨fun hout => by omega, fun _ => ?_⟩
  generalize hm :
    (if (s.inode dp).d.size < DESIZE * e + DESIZE then (s.inode dp).d.size - DESIZE * e else DESIZE) = m
  have hle : m ≤ DESIZE ∧ DESIZE * e + m ≤ (s.inode dp).d.size ∧
      (m = DESIZE ↔ DESIZE * e + DESIZE ≤ (s.inode dp).d.size) := by
    split at hm <;> omega
  refine (readLoop_spec m (Nat.le_refl _) (fun k _ hk => hmap k (by omega) (by omega)) rfl).post
    fun r s' hr => ⟨hr.1, ?_⟩
  have hr := hr.2
  rw [if_pos (show fits none _ = true from rfl), List.length_nil, Nat.zero_add] at hr
  rw [hr, Nat.cast_inj]
  refine ⟨hle.2.2, fun e => ?_⟩
  rw [e]
  rfl

/-- Any entry of a directory without holes. -/
theorem readEntry_noHole (h : NoHole s.blk (s.inode dp).d) (he : DESIZE * e < (s.inode dp).d.size)
    {R : Panic → Prop} :
    Wp (readi sb dp none (UInt32.ofNat (DESIZE * e)) (UInt32.ofNat DESIZE)) s (fun r s' => s' = s ∧
      (r.1 = DESIZE ↔ DESIZE * e + DESIZE ≤ (s.inode dp).d.size) ∧
      (r.1 = DESIZE → Dirent.decode r.2 = entry s.blk (s.inode dp).d e)) R := by
  have hmax : MAXFILE * BSIZE + DESIZE < 2 ^ 32 := by decide
  have hsize := h.size_le
  exact readEntry_spec (by omega) he fun k _ hk => h.slot_ne hk

/-- What a search for `name` reads of a directory is mapped. -/
def Searchable (blk : Nat → Block) (d : Dinode) (name : List UInt8) : Prop :=
  ∀ i, (∀ j, j < i → ¬Called name (entry blk d j)) → DESIZE * i < d.size → DESIZE * i + DESIZE < 2 ^ 32 ∧
    ∀ k, k < DESIZE * i + DESIZE → k < d.size → slot blk d (dataSlot (k / BSIZE)) ≠ 0

theorem IsDir.searchable (h : IsDir sb s dp) (name : List UInt8) : Searchable s.blk (s.inode dp).d name := by
  have hmax : MAXFILE * BSIZE + DESIZE < 2 ^ 32 := by decide
  have hsize := h.noHole.size_le
  exact fun i _ hi => ⟨by omega, fun k _ hk => h.noHole.slot_ne hk⟩

/-- `dirlookup` has found entry `e`. -/
structure Found (name : List UInt8) (dp ip : Fin NINODE) (e : Nat) (s s' : St) : Prop
    extends Got (entry s.blk (s.inode dp).d e).inum ip s s' where
  in_dir : DESIZE * e + DESIZE ≤ (s.inode dp).d.size
  called : Called name (entry s.blk (s.inode dp).d e)
  first : ∀ i, i < e → ¬Called name (entry s.blk (s.inode dp).d i)

/-- The panics of a search: it gets to an entry that is
cut off by the end of the directory, or `iget` fails. -/
def SearchPanic (name : List UInt8) (dp : Fin NINODE) (s : St) (e : Panic) : Prop :=
  (e = .dirlookupRead ∧ ∃ i, DESIZE * i < (s.inode dp).d.size ∧ (s.inode dp).d.size < DESIZE * i + DESIZE ∧
    ∀ j, j < i → ¬Called name (entry s.blk (s.inode dp).d j)) ∨ NoInodes s e

theorem lookupLoop_spec {name : List UInt8} (h : Searchable s.blk (s.inode dp).d name) (passes : Nat) :
    ∀ {e : Nat}, (s.inode dp).d.size ≤ DESIZE * (e + passes) →
    (∀ i, i < e → ¬Called name (entry s.blk (s.inode dp).d i)) →
    Wp (lookupLoop sb dp name passes (DESIZE * e)) s (fun r s' =>
      (r = none ∧ s' = s ∧ ∀ i, DESIZE * i < (s.inode dp).d.size →
        ¬Called name (entry s.blk (s.inode dp).d i)) ∨
      ∃ ip i, r = some (ip, DESIZE * i) ∧ Found name dp ip i s s') (SearchPanic name dp s) := by
  induction passes with
  | zero =>
    intro e hsize hbefore
    unfold lookupLoop
    rw [wp_pure]
    refine .inl ⟨rfl, rfl, fun i hi => hbefore i ?_⟩
    simp only [DESIZE] at hi hsize
    omega
  | succ passes ih =>
    intro e hsize hbefore
    have hnext : (s.inode dp).d.size ≤ DESIZE * (e + 1 + passes) := by
      rw [show e + 1 + passes = e + (passes + 1) by omega]; exact hsize
    have hskip : ¬Called name (entry s.blk (s.inode dp).d e) →
        ∀ i, i < e + 1 → ¬Called name (entry s.blk (s.inode dp).d i) := by
      intro hno i hi
      rcases Nat.lt_succ_iff_lt_or_eq.1 hi with hlt | heq
      · exact hbefore i hlt
      · rw [heq]; exact hno
    unfold lookupLoop
    rw [wp_bind, wp_getInode, wp_ite]
    refine ⟨fun hlt => ?_, fun hge => ?_⟩
    · obtain ⟨hlow, hmap⟩ := h e hbefore hlt
      refine (readEntry_spec hlow hlt hmap).bind (fun r s1 hr => ?_)
      obtain ⟨hs, hin, hdec⟩ := hr
      rw [hs, wp_ite]
      refine ⟨fun hcut => (wp_panic _).2 (.inl ⟨rfl, e, hlt, Nat.not_le.1 (mt hin.2 hcut), hbefore⟩),
        fun hok => ?_⟩
      have hok := not_not.1 hok
      rw [hdec hok, ← Nat.mul_succ, wp_ite]
      refine ⟨fun h0 => ih hnext (hskip (fun hc => hc.1 h0)), fun h0 => ?_⟩
      rw [wp_ite]
      refine ⟨fun hcmp => ?_, fun hcmp => ih hnext (hskip (fun hc => hcmp hc.2))⟩
      refine ((iget_spec s _).panics fun _ => .inr).bind (fun ip s' hg => ?_)
      rw [wp_pure]
      exact .inr ⟨ip, e, rfl, hg, hin.1 hok, ⟨h0, hcmp⟩, hbefore⟩
    · rw [wp_pure]
      refine .inl ⟨rfl, rfl, fun i hi => hbefore i ?_⟩
      simp only [DESIZE] at hi hge
      omega

/-- The panics of a call on directory `dp`: it does not consist of whole entries, or `iget` fails. -/
def DirPanic (dp : Fin NINODE) (s : St) (e : Panic) : Prop :=
  ((s.inode dp).d.size % DESIZE ≠ 0 ∧ (e = .dirlookupRead ∨ e = .dirlinkRead)) ∨ NoInodes s e

theorem DirPanic.noInodes {e : Panic} (h : DirPanic dp s e)
    (hmod : (s.inode dp).d.size % DESIZE = 0) : NoInodes s e :=
  h.resolve_left fun hr => hr.1 hmod

theorem DirPanic.benign {e : Panic} (h : DirPanic dp s e) : Benign e := by
  rcases h with ⟨-, rfl | rfl⟩ | h
  · exact ⟨by simp, by simp⟩
  · exact ⟨by simp, by simp⟩
  · exact h.benign

theorem dirlookup_spec (h : IsDir sb s dp) (name : List UInt8) :
    Wp (dirlookup sb dp name) s (fun r s' =>
      (r = none ∧ s' = s ∧ ∀ i, DESIZE * i < (s.inode dp).d.size →
        ¬Called name (entry s.blk (s.inode dp).d i)) ∨
      ∃ ip i, r = some (ip, DESIZE * i) ∧ Found name dp ip i s s') (DirPanic dp s) := by
  unfold dirlookup
  rw [wp_bind, wp_getInode, if_neg (by rw [h.type]; simp)]
  refine (lookupLoop_spec (h.searchable name) _ (e := 0) ?_ (fun i hi => by omega)).mono (fun _ _ => id)
    fun _ => .imp_left fun ⟨he, i, h1, h2, _⟩ => ⟨?_, .inl he⟩
  · simp only [DESIZE]
    omega
  · simp only [DESIZE] at h1 h2 ⊢
    omega

theorem emptyLoop_spec (h : IsDir sb s dp) (passes : Nat) :
    ∀ {e : Nat}, (s.inode dp).d.size ≤ DESIZE * (e + passes) → DESIZE * e < (s.inode dp).d.size + DESIZE →
    Wp (emptyLoop sb dp passes (DESIZE * e)) s (fun r s' => s' = s ∧ ∃ i, r = DESIZE * i ∧
      DESIZE * i < (s.inode dp).d.size + DESIZE ∧
      ((DESIZE * i + DESIZE ≤ (s.inode dp).d.size ∧ (entry s.blk (s.inode dp).d i).inum = 0) ∨
        (s.inode dp).d.size ≤ DESIZE * i)) (DirPanic dp s) := by
  induction passes with
  | zero =>
    intro e hsize hlast
    unfold emptyLoop
    rw [wp_pure]
    exact ⟨rfl, e, rfl, hlast, .inr hsize⟩
  | succ passes ih =>
    intro e hsize hlast
    unfold emptyLoop
    rw [wp_bind, wp_getInode, wp_ite]
    refine ⟨fun hlt => ?_, fun hge => (wp_pure _).2 ⟨rfl, e, rfl, hlast, .inr (by omega)⟩⟩
    refine (readEntry_noHole h.noHole hlt).bind (fun r s1 hr => ?_)
    obtain ⟨hs, hin, hdec⟩ := hr
    rw [hs, wp_ite]
    refine ⟨fun hcut => (wp_panic _).2 (.inl ⟨?_, .inr rfl⟩), fun hok => ?_⟩
    · have := mt hin.2 hcut
      simp only [DESIZE] at hlt this ⊢
      omega
    have hok := not_not.1 hok
    rw [hdec hok, wp_ite]
    refine ⟨fun h0 => (wp_pure _).2 ⟨rfl, e, rfl, hlast, .inl ⟨hin.1 hok, h0⟩⟩, fun _ => ?_⟩
    apply ih (e := e + 1)
    · rw [show e + 1 + passes = e + (passes + 1) by omega]; exact hsize
    · rw [Nat.mul_succ]; omega

/-! ## Writing entries -/

/-- Blocks may have been allocated for `dp`, but its entries and those of the
other directories are as before. -/
structure Unmoved (sb : Superblock) (dp : Fin NINODE) (s s' : St) : Prop where
  touches : Touches sb (s.inode dp).inum s s'
  other : ∀ k, k ≠ dp → s'.inode k = s.inode k
  gen : s'.gen = s.gen
  self : ∃ f, s'.inode dp = { s.inode dp with d := { (s.inode dp).d with addrs := f } }
  entry : ∀ i, Fs.entry s'.blk (s'.inode dp).d i = Fs.entry s.blk (s.inode dp).d i

/-- Entry `e` of `dp` is `de` now. -/
structure Stored (sb : Superblock) (dp : Fin NINODE) (e : Nat) (de : Dirent) (s s' : St) : Prop where
  touches : Touches sb (s.inode dp).inum s s'
  other : ∀ k, k ≠ dp → s'.inode k = s.inode k
  gen : s'.gen = s.gen
  self : ∃ f, s'.inode dp =
    { s.inode dp with
      d := { (s.inode dp).d with size := max (s.inode dp).d.size (DESIZE * e + DESIZE), addrs := f } }
  entry : ∀ i, Fs.entry s'.blk (s'.inode dp).d i = if i = e then de else Fs.entry s.blk (s.inode dp).d i

theorem Unmoved.refl (sb : Superblock) (dp : Fin NINODE) (s : St) : Unmoved sb dp s s :=
  ⟨⟨fun _ _ => rfl, fun _ _ _ _ => rfl⟩, fun _ _ => rfl, rfl, ⟨_, rfl⟩, fun _ => rfl⟩

theorem Wrote.unmoved {src : Nat → UInt8} {off n : Nat} (w : Wrote sb dp src none off n 0 s s')
    (hoff : off ≤ (s.inode dp).d.size) : Unmoved sb dp s s' := by
  obtain ⟨f, hf⟩ := w.self
  refine ⟨w.touches, w.other, w.gen, ⟨f, ?_⟩, fun i => entry_congr (fun j _ => ?_)⟩
  · rw [hf, Nat.add_zero, Nat.max_eq_left hoff]
  · by_cases hlt : DESIZE * i + j < off
    · exact w.old _ (.inl hlt)
    · exact w.rest rfl _ (by omega)

theorem Wrote.stored (w : Wrote sb dp de.encode none (DESIZE * e) DESIZE DESIZE s s')
    (hlen : de.name.length = DIRSIZ) (hinum : de.inum < 2 ^ 16) : Stored sb dp e de s s' := by
  refine { w with entry := fun i => ?_ }
  by_cases hi : i = e
  · rw [if_pos hi, hi]
    refine entry_encode hlen hinum (fun j hj => ?_)
    rw [w.new _ (by omega) (by omega), Nat.add_sub_cancel_left]
  · rw [if_neg hi]
    refine entry_congr (fun j hj => w.old _ ?_)
    simp only [DESIZE] at hj ⊢
    omega

theorem writeEntry_spec (hinv : Inv sb s) (hh : Held s dp) (hoff : DESIZE * e < 2 ^ 32)
    (hlen : de.name.length = DIRSIZ) (hinum : de.inum < 2 ^ 16) :
    Wp (writei sb dp de.encode none (UInt32.ofNat (DESIZE * e)) (UInt32.ofNat DESIZE)) s
    (fun r s' => Inv sb s' ∧
      ((r ≠ DESIZE ∧ Unmoved sb dp s s') ∨
        (r = DESIZE ∧ DESIZE * e ≤ (s.inode dp).d.size ∧ Stored sb dp e de s s'))) (fun _ => False) := by
  have hoff' : (UInt32.ofNat (DESIZE * e)).toNat = DESIZE * e := by
    rw [UInt32.toNat_ofNat']; exact Nat.mod_eq_of_lt hoff
  have hn : (UInt32.ofNat DESIZE).toNat = DESIZE := rfl
  refine (writei_inv de.encode none _ _ hinv hh).post fun r s' h => ?_
  obtain ⟨hinv', h⟩ := h
  refine ⟨hinv', ?_⟩
  rcases h with ⟨hr, hs, -⟩ | ⟨k, hr, href, w⟩
  · rw [hr, hs]
    exact .inl ⟨by decide, Unmoved.refl sb dp s⟩
  · unfold Refused at href
    rw [hoff', hn] at w
    rw [hoff', hn] at href
    have hle := w.le
    by_cases hk : k = DESIZE
    · rw [hk] at w hr
      exact .inr ⟨hr, by omega, w.stored hlen hinum⟩
    · -- an entry does not cross a block boundary
      have hk0 : k = 0 := by
        rcases w.whole rfl (by omega) with h0 | h0
        · exact h0
        · simp only [DESIZE, BSIZE] at h0 hle hk
          omega
      rw [hk0] at w hr
      refine .inl ⟨by rw [hr]; decide, w.unmoved (by omega)⟩

/-- The reference that `dirlookup` has just taken is not the last one. -/
theorem Got.iput_quiet {i : Nat} (hg : Got i ip s s') :
    Wp (iput sb ip) s' (fun _ _ => True) fun _ => False := by
  unfold iput
  rw [wp_bind, wp_getInode, if_neg, wp_setInode]
  · trivial
  · rintro ⟨h1, h2, -⟩
    rcases hg.self with ⟨hr, -, hs⟩ | ⟨-, -, hs⟩ <;> rw [hs] at h1 h2
    · exact absurd h1 (by dsimp only; omega)
    · cases h2

/-- `iget` and at once `iput`. -/
theorem Got.back {inum : Nat} (hg : Got inum ip s s') (hinv : Inv sb s) :
    Wp (iput sb ip) s' (fun _ t => Inv sb t ∧ SameDisk s t ∧
      (∀ k, 0 < (s.inode k).ref → t.inode k = s.inode k) ∧
      ∀ k, (t.inode k).ref = (s.inode k).ref ∧ (t.inode k).locked = (s.inode k).locked) fun _ => False := by
  refine ((iput_spec (hg.inv hinv)).fails hg.iput_quiet).post fun _ t h => ?_
  obtain ⟨hinv', h⟩ := h
  rcases h with ⟨h1, h2, h3, -⟩ | h
  · have hsame : ∀ k, 0 < (s.inode k).ref → t.inode k = s.inode k := by
      intro k hk
      by_cases e : k = ip
      · rw [e] at hk ⊢
        rcases hg.self with ⟨_, _, g⟩ | ⟨g, _⟩
        · rw [h3, g]
          show ({ s.inode ip with ref := (s.inode ip).ref + 1 - 1 } : Inode) = _
          rw [Int.add_sub_cancel]
        · omega
      · rw [h2 k e, hg.other k e]
    refine ⟨hinv', hg.toSameDisk.trans h1, hsame, fun k => ?_⟩
    by_cases e : k = ip
    · rcases hg.self with ⟨g, _⟩ | ⟨g, _, g'⟩
      · rw [hsame k (by rw [e]; exact g)]; exact ⟨rfl, rfl⟩
      · rw [e, h3, g', g]; exact ⟨rfl, rfl⟩
    · rw [h2 k e, hg.other k e]; exact ⟨rfl, rfl⟩
  · -- the reference is not the last one, or the entry is not valid
    exfalso
    have h1 := h.last
    have h2 := h.held.2
    rcases hg.self with ⟨g1, _, g⟩ | ⟨_, _, g⟩
    · rw [g] at h1
      have : (s.inode ip).ref + 1 = 1 := h1
      omega
    · rw [g] at h2; cases h2

/-- `inum` is stored as a `ushort`. -/
theorem encode_mod (inum : Nat) (name : List UInt8) :
    Dirent.encode ⟨inum, name⟩ = Dirent.encode ⟨inum % 2 ^ 16, name⟩ := by
  funext i
  unfold Dirent.encode
  by_cases hi : i < 2
  · rw [if_pos hi, if_pos hi]
    apply UInt8.toNat_inj.1
    rcases (show i = 0 ∨ i = 1 by omega) with e | e
    · rw [e, Bytes.leByte_zero, Bytes.leByte_zero]
      show inum % 256 = inum % 2 ^ 16 % 256
      omega
    · rw [e, Bytes.leByte_succ, Bytes.leByte_succ, Bytes.leByte_zero, Bytes.leByte_zero]
      show inum / 256 % 256 = inum % 2 ^ 16 / 256 % 256
      omega
  · rw [if_neg hi, if_neg hi]

theorem dirappend_spec (h : IsDir sb s dp) (name : List UInt8) (inum : Nat) :
    Wp (dirappend sb dp name inum) s (fun r s' => Inv sb s' ∧
      ((r = -1 ∧ Unmoved sb dp s s') ∨
        (r = 0 ∧ ∃ e, Stored sb dp e ⟨inum % 2 ^ 16, strncpy DIRSIZ name⟩ s s' ∧
        ((DESIZE * e + DESIZE ≤ (s.inode dp).d.size ∧ (entry s.blk (s.inode dp).d e).inum = 0) ∨
          (s.inode dp).d.size = DESIZE * e)))) (DirPanic dp s) := by
  have hsize := h.noHole.size_le
  have hmax : MAXFILE * BSIZE + DESIZE < 2 ^ 32 := by decide
  unfold dirappend
  rw [wp_bind, wp_getInode]
  have hpasses : (s.inode dp).d.size ≤ DESIZE * (0 + ((s.inode dp).d.size / DESIZE + 1)) := by
    simp only [DESIZE]; omega
  refine (emptyLoop_spec h _ hpasses (by simp only [DESIZE]; omega)).bind (fun off s1 hr => ?_)
  obtain ⟨hs, e, hoff, hlast, hplace⟩ := hr
  rw [hs, hoff, encode_mod]
  have hmod : inum % 2 ^ 16 < 2 ^ 16 := Nat.mod_lt _ (by decide)
  refine ((writeEntry_spec h.inv h.held (by omega) (length_strncpy _ _) hmod).never).bind (fun r s' hw => ?_)
  obtain ⟨hinv', hw⟩ := hw
  rw [wp_ite]
  refine ⟨fun hr => ?_, fun hr => ?_⟩
  · rw [wp_pure]
    rcases hw with ⟨_, hu⟩ | ⟨hr', _⟩
    · exact ⟨hinv', .inl ⟨rfl, hu⟩⟩
    · exact absurd hr' hr
  · rw [wp_pure]
    rcases hw with ⟨hr', _⟩ | ⟨_, hin, hst⟩
    · exact absurd hr' hr
    · refine ⟨hinv', .inr ⟨rfl, e, hst, ?_⟩⟩
      rcases hplace with hp | hp
      · exact .inl hp
      · exact .inr (by omega)

/-- The outcomes of `dirlink`: the name is taken, there is no space, or there
is a new entry. -/
inductive Linked (sb : Superblock) (dp : Fin NINODE) (name : List UInt8) (inum : Nat)
    (s s' : St) : Int → Prop where
  | taken (e : Nat) (in_dir : DESIZE * e + DESIZE ≤ (s.inode dp).d.size)
      (called : Called name (entry s.blk (s.inode dp).d e)) (disk : SameDisk s s')
      (kept : ∀ k, 0 < (s.inode k).ref → s'.inode k = s.inode k)
      (tags : ∀ k, (s'.inode k).ref = (s.inode k).ref ∧ (s'.inode k).locked = (s.inode k).locked) :
      Linked sb dp name inum s s' (-1)
  | full (unmoved : Unmoved sb dp s s') : Linked sb dp name inum s s' (-1)
  | added (e : Nat) (stored : Stored sb dp e ⟨inum % 2 ^ 16, strncpy DIRSIZ name⟩ s s')
      (place : (DESIZE * e + DESIZE ≤ (s.inode dp).d.size ∧ (entry s.blk (s.inode dp).d e).inum = 0) ∨
        (s.inode dp).d.size = DESIZE * e)
      (fresh : ∀ i, DESIZE * i < (s.inode dp).d.size → ¬Called name (entry s.blk (s.inode dp).d i)) :
      Linked sb dp name inum s s' 0

theorem dirlink_spec (h : IsDir sb s dp) (name : List UInt8) (inum : Nat) :
    Wp (dirlink sb dp name inum) s (fun r s' => Inv sb s' ∧ Linked sb dp name inum s s' r)
      (DirPanic dp s) := by
  unfold dirlink
  refine (dirlookup_spec h name).bind (fun r s1 hr => ?_)
  rcases hr with ⟨hr, hs, hno⟩ | ⟨ip, e, hr, hf⟩
  · rw [hr, hs]
    refine (dirappend_spec h name inum).post fun r s' h => ?_
    obtain ⟨hinv', ⟨hr, hu⟩ | ⟨hr, e, hst, hp⟩⟩ := h
    · rw [hr]; exact ⟨hinv', .full hu⟩
    · rw [hr]; exact ⟨hinv', .added e hst hp hno⟩
  · rw [hr]
    refine ((hf.toGot.back h.inv).never).bind (fun _ s' hb => ?_)
    obtain ⟨hinv', hd, hk, ht⟩ := hb
    rw [wp_pure]
    exact ⟨hinv', .taken e hf.in_dir hf.called hd hk ht⟩

end Xv6.Fs
