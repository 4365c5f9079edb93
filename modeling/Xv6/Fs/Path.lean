import Xv6.Fs.Fsck
import Xv6.Fs.Names

/-!
# Path lookup (`kernel/fs.c`)

A directory maps names to inode numbers, and a path is looked up one
component after the other. `walk` and `parent` say so for the inodes on disk;
`namex` does it with references, locks and a buffer for the name.

* `namex_spec`: from a state in which no call is running `namex` finds what
  the fold finds, and the table has one more reference, to the inode
  returned.
* `path_lookup`: so do `namei` and `nameiparent` in every directory tree, if
  `iget` finds a free entry whenever it needs one.
* `dirlink_lookup`: `dirlink` adds one name to the map of one directory.
-/
namespace Xv6.Fs
open Function (update update_self update_of_ne)

variable {sb : Superblock} {s t t' : St} {own lk : List (Fin NINODE)} {ip dp : Fin NINODE}

/-! ## The fold -/

/-- The first entry of that name in directory `i`. -/
def seek (s : St) (i : Nat) (name : List UInt8) : Option Nat :=
  (List.range ((s.dinode i).size / DESIZE)).find? fun e =>
    decide ((entry s.blk (s.dinode i) e).inum ≠ 0 ∧ key (entry s.blk (s.dinode i) e).name = key name)

def lookup (s : St) (i : Nat) (name : List UInt8) : Option Nat :=
  (seek s i name).map fun e => (entry s.blk (s.dinode i) e).inum

/-- One component: the inode called `name` in `i`, if `i` is a directory. -/
def child (s : St) (i : Nat) (name : List UInt8) : Option Nat :=
  if (s.dinode i).type = .dir then lookup s i name else none

def walk (s : St) (i : Nat) (names : List (List UInt8)) : Option Nat := names.foldlM (child s) i

/-- The directory that all but the last component lead to, and the last component. -/
def parent (s : St) (i : Nat) (names : List (List UInt8)) : Option (Nat × List UInt8) :=
  match names.getLast? with
  | none => none
  | some name => (walk s i names.dropLast).bind fun j =>
    if (s.dinode j).type = .dir then some (j, name) else none

theorem walk_cons (i : Nat) (name : List UInt8) (names : List (List UInt8)) :
    walk s i (name :: names) = (child s i name).bind (walk s · names) := rfl

theorem parent_one (i : Nat) (name : List UInt8) :
    parent s i [name] = if (s.dinode i).type = .dir then some (i, name) else none := rfl

theorem parent_cons (i : Nat) (name next : List UInt8) (names : List (List UInt8)) :
    parent s i (name :: next :: names) = (child s i name).bind (parent s · (next :: names)) := by
  unfold parent
  rw [List.getLast?_cons_cons, List.dropLast_cons_cons]
  cases h : (next :: names).getLast? with
  | none => simp at h
  | some last =>
    simp only [walk_cons]
    cases child s i name with
    | none | some => rfl

/-! ## dirlookup -/

variable {i e inum : Nat} {name : List UInt8} {cwd : Fin NINODE}

theorem seek_eq_none
    (h : ∀ e, DESIZE * e < (s.dinode i).size → ¬Called name (entry s.blk (s.dinode i) e)) :
    seek s i name = none := by
  refine List.find?_eq_none.2 fun e he => ?_
  rw [List.mem_range] at he
  rw [decide_eq_true_eq, ← called_iff]
  refine h e ?_
  simp only [DESIZE] at he ⊢
  omega

theorem seek_eq_some (hin : DESIZE * e + DESIZE ≤ (s.dinode i).size)
    (hc : Called name (entry s.blk (s.dinode i) e))
    (hfirst : ∀ j, j < e → ¬Called name (entry s.blk (s.dinode i) j)) : seek s i name = some e := by
  refine List.find?_range_eq_some.2 ⟨decide_eq_true ((called_iff _ _).1 hc), ?_, fun j hj => ?_⟩
  · rw [List.mem_range]
    simp only [DESIZE] at hin ⊢
    omega
  · rw [Bool.not_eq_true', decide_eq_false_iff_not, ← called_iff]
    exact hfirst j hj

/-! ## Between the calls -/

/-- A link or a reference keeps inode `i`. -/
def Kept (s : St) (i : Nat) : Prop := (s.dinode i).nlink ≠ 0 ∨ ∃ k, 0 < (s.inode k).ref ∧ (s.inode k).inum = i

/-- `de` is in use in directory `i`. -/
def EntryOf (sb : Superblock) (s : St) (i : Nat) (de : Dirent) : Prop :=
  Live sb s.dinode i ∧ (s.dinode i).type = .dir ∧ de.inum ≠ 0 ∧
    ∃ e, DESIZE * e + DESIZE ≤ (s.dinode i).size ∧ entry s.blk (s.dinode i) e = de

/-- A file system in which no call is running. -/
structure Rest (sb : Superblock) (s : St) : Prop extends Calm sb s where
  kept : ∀ i, Live sb s.dinode i → Kept s i
  sizes : ∀ i, Live sb s.dinode i → (s.dinode i).type = .dir → (s.dinode i).size % DESIZE = 0
  ranged : ∀ i de, EntryOf sb s i de → de.inum < sb.ninodes

/-- At most one entry of the inode table is free. -/
def Crowded (s : St) : Prop := ∀ k l, (s.inode k).ref = 0 → (s.inode l).ref = 0 → k = l

/-- Every entry names an inode. -/
def NoDangling (sb : Superblock) (s : St) : Prop := ∀ i de, EntryOf sb s i de → Live sb s.dinode de.inum

theorem NoInodes.crowded {e : Panic} (hn : NoInodes t e) (h : Holds sb s [ip] lk t) : Crowded s := by
  have hused : ∀ k, (s.inode k).ref = 0 → k = ip := by
    intro k hk
    by_contra hne
    refine hn.2 k ?_
    rw [h.ref, hk, List.count_singleton, if_neg (by simpa using fun e => hne e.symm)]
    rfl
  exact fun k l hk hl => (hused k hk).trans (hused l hl).symm

section
variable (hr : Rest sb s) (hd : SameDisk s t)
include hr hd

/-- The inode of a reference is not freed when the reference is given back. -/
theorem Rest.iput (h : Holds sb s (ip :: own) lk t) (hlk : ip ∉ lk) :
    Wp (iput sb ip) t (fun _ t' => SameDisk s t' ∧ Holds sb s own lk t' ∧
      ∀ k, (t'.inode k).inum = (t.inode k).inum) fun _ => False := by
  refine (h.iput hlk).post fun _ t' hp => ?_
  obtain ⟨hh, ⟨hdrop, -⟩ | hf⟩ := hp
  · refine ⟨hd.trans hdrop.toSameDisk, hh, fun k => ?_⟩
    by_cases e : k = ip
    · rw [e, hdrop.self]
    · rw [hdrop.other k e]
  · exfalso
    have hlive := h.inv.live hf.held
    rw [hd.dinode] at hlive
    have hnlink := hf.nlink
    rw [hd.dinode] at hnlink
    rcases hr.kept _ hlive with hk | ⟨k, hk, hi⟩
    · exact hk hnlink
    · -- the entry is in use by someone else
      have hkt := Int.lt_of_lt_of_le hk (h.ref_le k)
      have e : k = ip := h.inv.uniq k ip hkt hf.held.1 (by rw [h.inum k hk, hi])
      have href := h.ref ip
      rw [hf.last, List.count_cons_self] at href
      rw [e] at hk
      omega

theorem Rest.iunlockput (h : Holds sb s (ip :: own) (ip :: lk) t) (hlk : ip ∉ lk) :
    Wp (iunlockput sb ip) t (fun _ t' => SameDisk s t' ∧ Holds sb s own lk t' ∧
      ∀ k, (t'.inode k).inum = (t.inode k).inum) fun _ => False := by
  unfold Fs.iunlockput
  refine (h.iunlock (List.mem_cons_self ..) hlk).bind fun _ t1 hu => ?_
  obtain ⟨hd1, hsame, h1⟩ := hu
  refine (hr.iput (hd.trans hd1) h1 hlk).post fun _ t' hp => ⟨hp.1, hp.2.1, fun k => ?_⟩
  rw [hp.2.2, hsame k]

/-- `dirlookup` in a directory that is locked. -/
theorem Rest.dirlookup (h : Holds sb s [ip] [ip] t) (hv : Held t ip)
    (ht : (t.inode ip).d.type = .dir) (name : List UInt8) :
    Wp (dirlookup sb ip name) t (fun r t' => SameDisk s t' ∧
      ((r = none ∧ t' = t ∧ lookup s (t.inode ip).inum name = none) ∨
        ∃ next e, r = some (next, DESIZE * e) ∧ seek s (t.inode ip).inum name = some e ∧
          EntryOf sb s (t.inode ip).inum (entry s.blk (s.dinode (t.inode ip).inum) e) ∧
          Got (entry s.blk (s.dinode (t.inode ip).inum) e).inum next t t' ∧ Holds sb s [next, ip] [ip] t'))
      fun e => e = .igetNoInodes ∧ Crowded s := by
  have hdir : IsDir sb t ip := ⟨h.inv, hv, ht⟩
  have hlive := h.inv.live hv
  have hcur := h.inv.inode_eq hv
  rw [hd.dinode] at hlive hcur
  have hmod : (t.inode ip).d.size % DESIZE = 0 := by
    rw [hcur]
    exact hr.sizes _ hlive (by rw [← hcur]; exact ht)
  refine (dirlookup_spec hdir name).mono (fun r t' hr' => ?_) fun e he =>
    ⟨(he.noInodes hmod).1, (he.noInodes hmod).crowded h⟩
  rw [hcur, hd.blk] at hr'
  rcases hr' with ⟨hr', hs, hno⟩ | ⟨next, e, hr', hf⟩
  · refine ⟨by rw [hs]; exact hd, .inl ⟨hr', hs, ?_⟩⟩
    unfold lookup
    rw [seek_eq_none hno]
    rfl
  · have hin := hf.in_dir
    have hcalled := hf.called
    have hfirst := hf.first
    have hgot := hf.toGot
    rw [hcur] at hin
    rw [hcur, hd.blk] at hcalled hfirst hgot
    have hof : EntryOf sb s (t.inode ip).inum (entry s.blk (s.dinode (t.inode ip).inum) e) :=
      ⟨hlive, by rw [← hcur]; exact ht, hcalled.1, e, hin, rfl⟩
    refine ⟨hd.trans hgot.toSameDisk,
      .inr ⟨next, e, hr', seek_eq_some hin hcalled hfirst, hof, hgot, hgot.holds h ?_⟩⟩
    exact ⟨Nat.one_le_iff_ne_zero.2 hcalled.1, hr.ranged _ _ hof⟩

end

/-! ## namex -/

/-- What `namex` returns, by the inode numbers of its result. -/
structure Resolved (sb : Superblock) (nameiparent : Bool) (i : Nat) (names : List (List UInt8)) (s : St)
    (r : Option (Fin NINODE × List UInt8)) (t : St) : Prop where
  disk : SameDisk s t
  holds : Holds sb s (r.map Prod.fst).toList [] t
  namei : nameiparent = false → r.map (fun x => (t.inode x.1).inum) = walk s i names
  parent : nameiparent = true → r.map (fun x => ((t.inode x.1).inum, x.2)) = parent s i names

/-- The panics of `namex` started at inode `i`. -/
def WalkStops (sb : Superblock) (s : St) (i : Nat) (e : Panic) : Prop :=
  (e = .igetNoInodes ∧ Crowded s) ∨ (e = .ilockNoType ∧ ¬(Live sb s.dinode i ∧ NoDangling sb s))

theorem namexLoop_spec (hr : Rest sb s) (nameiparent : Bool) (passes : Nat) :
    ∀ {t : St} {ip : Fin NINODE} {path : List UInt8} (name : List UInt8), SameDisk s t →
    Holds sb s [ip] [] t → path.length < passes →
    Wp (namexLoop sb nameiparent passes ip path name) t
      (Resolved sb nameiparent (t.inode ip).inum (components path) s) (WalkStops sb s (t.inode ip).inum) := by
  induction passes with
  | zero =>
    intro t ip path name _ _ hlen
    omega
  | succ passes ih =>
    intro t ip path name hd h hlen
    unfold namexLoop
    cases hskip : skipelem path with
    | none =>
      rw [skipelem_none hskip]
      cases nameiparent with
      | true =>
        refine ((hr.iput hd h (List.not_mem_nil)).never).bind fun _ t' hp => ?_
        exact (wp_pure _).2 ⟨hp.1, hp.2.1, fun hb => Bool.noConfusion hb, fun _ => rfl⟩
      | false =>
        exact (wp_pure _).2 ⟨hd, h, fun _ => rfl, fun hb => Bool.noConfusion hb⟩
    | some r =>
      obtain ⟨rest, elem⟩ := r
      obtain ⟨hcomp, hshort, hlast⟩ := skipelem_some hskip
      rw [hcomp]
      refine ((h.ilock (List.mem_cons_self ..) List.not_mem_nil).panics fun e he => ?_).bind
        fun _ t1 hk => ?_
      · refine .inr ⟨he.1, fun hl => hl.1.2.2 ?_⟩
        rw [← hd.dinode]
        exact he.2
      obtain ⟨hk, h1⟩ := hk
      have hd1 : SameDisk s t1 := hd.trans hk.toSameDisk
      have hinum : (t1.inode ip).inum = (t.inode ip).inum := by rw [hk.self]
      have hcur : (t1.inode ip).d = s.dinode (t.inode ip).inum := by rw [hk.self, hd.dinode]
      rw [wp_bind, wp_getInode, hcur, wp_ite]
      refine ⟨fun hnot => ?_, fun hdir => ?_⟩
      · -- not a directory
        refine ((hr.iunlockput hd1 h1 List.not_mem_nil).never).bind fun _ t' hp => ?_
        refine (wp_pure _).2 ⟨hp.1, hp.2.1, fun _ => ?_, fun _ => ?_⟩
        · rw [walk_cons, child, if_neg hnot]
          rfl
        · cases hrest : components rest with
          | nil => rw [parent_one, if_neg hnot]; rfl
          | cons next names => rw [parent_cons, child, if_neg hnot]; rfl
      have hdir := not_not.1 hdir
      rw [wp_ite]
      refine ⟨fun hstop => ?_, fun hgo => ?_⟩
      · -- one level early
        obtain ⟨hpar, hrest⟩ := hstop
        refine ((h1.iunlock (List.mem_cons_self ..) List.not_mem_nil).never).bind
          fun _ t' hu => ?_
        obtain ⟨hd', hsame, h'⟩ := hu
        refine (wp_pure _).2 ⟨hd1.trans hd', h', fun hb => ?_, fun _ => ?_⟩
        · rw [hpar] at hb
          cases hb
        · rw [hlast.1 hrest, parent_one, if_pos hdir, ← hinum]
          show some ((t'.inode ip).inum, elem) = _
          rw [hsame ip]
      · -- the recursive result, for the two kinds of call
        have hwalk : walk s (t.inode ip).inum (elem :: components rest) =
            (lookup s (t.inode ip).inum elem).bind (walk s · (components rest)) := by
          rw [walk_cons, child, if_pos hdir]
        have hparent : nameiparent = true → parent s (t.inode ip).inum (elem :: components rest) =
            (lookup s (t.inode ip).inum elem).bind (parent s · (components rest)) := by
          intro hb
          cases hrest : components rest with
          | nil => exact absurd ⟨hb, hlast.2 hrest⟩ hgo
          | cons next names => rw [parent_cons, child, if_pos hdir]
        refine ((hr.dirlookup hd1 h1 hk.held (by rw [hcur]; exact hdir) elem).panics fun e he => .inl he).bind
          fun r t2 hf => ?_
        rw [hinum] at hf
        obtain ⟨hd2, ⟨hnone, hs, hno⟩ | ⟨next, e, hsome, hseek, hof, hgot, h2⟩⟩ := hf
        · rw [hnone, hs]
          refine ((hr.iunlockput hd1 h1 List.not_mem_nil).never).bind fun _ t' hp => ?_
          refine (wp_pure _).2 ⟨hp.1, hp.2.1, fun _ => ?_, fun hb => ?_⟩
          · rw [hwalk, hno]
            rfl
          · rw [hparent hb, hno]
            rfl
        · rw [hsome]
          have hlook : lookup s (t.inode ip).inum elem =
              some (entry s.blk (s.dinode (t.inode ip).inum) e).inum := by
            rw [lookup, hseek]
            rfl
          have hswap : Holds sb s [ip, next] [ip] t2 := h2.perm (List.Perm.swap ..) (List.Perm.refl _)
          refine ((hr.iunlockput hd2 hswap List.not_mem_nil).never).bind fun _ t3 hp => ?_
          obtain ⟨hd3, h3, hsame⟩ := hp
          have hnext : (t3.inode next).inum = (entry s.blk (s.dinode (t.inode ip).inum) e).inum := by
            rw [hsame, hgot.inum_eq]
          refine (ih elem hd3 h3 (by omega)).mono (fun r t' hres => ?_) fun e' he => ?_
          · rw [hnext] at hres
            refine ⟨hres.disk, hres.holds, fun hb => ?_, fun hb => ?_⟩
            · rw [hwalk, hlook, hres.namei hb]
              rfl
            · rw [hparent hb, hlook, hres.parent hb]
              rfl
          · rw [hnext] at he
            rcases he with he | ⟨he, hno⟩
            · exact .inl he
            · exact .inr ⟨he, fun hall => hno ⟨hall.2 _ _ hof, hall.2⟩⟩

/-- Where a path starts. -/
def start (s : St) (cwd : Fin NINODE) (path : List UInt8) : Nat :=
  if path.head? = some SLASH then ROOTINO else (s.inode cwd).inum

theorem namex_spec (hr : Rest sb s) (hcwd : 0 < (s.inode cwd).ref) (path : List UInt8)
    (nameiparent : Bool) :
    Wp (namex sb cwd path nameiparent) s (Resolved sb nameiparent (start s cwd path) (components path) s)
      (WalkStops sb s (start s cwd path)) := by
  have h := hr.toCalm.holds
  have hstart : Wp (namexStart cwd path) s (fun ip t => Got (start s cwd path) ip s t ∧ Holds sb s [ip] [] t)
      (fun e => e = .igetNoInodes ∧ Crowded s) := by
    unfold namexStart start
    split
    · refine (iget_holds h ⟨Nat.le_refl _, sb.ninodes_gt⟩).panics fun e he => ⟨he.1, fun k _ hk => ?_⟩
      exact absurd hk (he.2 k)
    · refine (idup_got hcwd).mono (fun ip t hg => ?_) fun _ => False.elim
      obtain ⟨rfl, hg⟩ := hg
      exact ⟨hg, hg.holds h (hr.range _ hcwd)⟩
  unfold namex
  refine (hstart.panics fun e he => .inl he).bind fun ip t hg => ?_
  rw [← hg.1.inum_eq]
  exact namexLoop_spec hr nameiparent _ [] hg.1.toSameDisk hg.2 (Nat.lt_succ_self _)

/-! ## Directory trees -/

/-- A directory tree: every entry names an inode, and so does every reference. -/
structure Tree (sb : Superblock) (s : St) : Prop extends Rest sb s where
  root : Live sb s.dinode ROOTINO
  used : ∀ k, 0 < (s.inode k).ref → Live sb s.dinode (s.inode k).inum
  named : NoDangling sb s

/-- What is on disk is as before, no inode is locked, and the table has one more reference: to `r`. -/
structure OneMore (sb : Superblock) (s : St) (r : Option (Fin NINODE)) (t : St) : Prop where
  disk : SameDisk s t
  calm : Calm sb t
  ref : ∀ k, (t.inode k).ref = (s.inode k).ref + if r = some k then 1 else 0
  inum : ∀ k, 0 < (s.inode k).ref → (t.inode k).inum = (s.inode k).inum

theorem Resolved.oneMore {nameiparent : Bool} {names : List (List UInt8)}
    {r : Option (Fin NINODE × List UInt8)}
    (h : Resolved sb nameiparent i names s r t) : OneMore sb s (r.map Prod.fst) t := by
  refine ⟨h.disk, h.holds.calm, fun k => ?_, h.holds.inum⟩
  rw [h.holds.ref]
  cases r with
  | none => rfl
  | some x =>
    by_cases e : x.1 = k
    · simp [e]
    · simp [e]

theorem Tree.start_live (h : Tree sb s) (hcwd : 0 < (s.inode cwd).ref) (path : List UInt8) :
    Live sb s.dinode (start s cwd path) := by
  unfold start
  split
  · exact h.root
  · exact h.used cwd hcwd

theorem Tree.namex (h : Tree sb s) (hcwd : 0 < (s.inode cwd).ref) (path : List UInt8) (nameiparent : Bool) :
    Wp (namex sb cwd path nameiparent) s (Resolved sb nameiparent (start s cwd path) (components path) s)
      fun e => e = .igetNoInodes ∧ Crowded s := by
  refine (namex_spec h.toRest hcwd path nameiparent).panics fun e he => ?_
  rcases he with he | ⟨-, hno⟩
  · exact he
  · exact absurd ⟨h.start_live hcwd path, h.named⟩ hno

/-- In every directory tree `namei` returns the inode that the components of the path lead to, or 0 if there
is none, and `nameiparent` the directory that all but the last lead to, with the last; the only change is the
reference returned. They stop the machine only if the inode table is full or has one free entry. -/
theorem path_lookup (h : Tree sb s) {cwd : Fin NINODE} (hcwd : 0 < (s.inode cwd).ref) (path : List UInt8) :
    Wp (namei sb cwd path) s (fun r t =>
        r.map (fun ip => (t.inode ip).inum) = walk s (start s cwd path) (components path) ∧ OneMore sb s r t)
      (fun e => e = .igetNoInodes ∧ Crowded s) ∧
    Wp (nameiparent sb cwd path) s (fun r t =>
        r.map (fun x => ((t.inode x.1).inum, x.2)) = parent s (start s cwd path) (components path) ∧
          OneMore sb s (r.map Prod.fst) t)
      fun e => e = .igetNoInodes ∧ Crowded s := by
  constructor
  · unfold namei
    refine (h.namex hcwd path false).bind fun r t hr => (wp_pure _).2 ⟨?_, hr.oneMore⟩
    rw [← hr.namei rfl, Option.map_map]
    rfl
  · exact (h.namex hcwd path true).post fun r t hr => ⟨hr.parent rfl, hr.oneMore⟩

/-! ## A small tree -/

/-- The root with a file "a", inode 2; and `n` files that
have been unlinked while open, with the inodes after it. -/
def openFiles (n : Nat) : St where
  blk b := if b = 9 then firstUsed 11 else if b = 10 then direntBlock [⟨1, [46]⟩, ⟨1, [46, 46]⟩, ⟨2, [97]⟩]
    else Bytes.zero
  dinode i :=
    if i = 1 then { fresh .dir with nlink := 1, size := 48, addrs := fun t => if t = 0 then 10 else 0 }
    else if i = 2 then { fresh .file with nlink := 1 }
    else if i ≤ n + 2 then fresh .file
    else fresh .free
  inode k :=
    { inum := if k.1 = 0 then 1 else k.1 + 2, ref := if k.1 ≤ n then 1 else 0,
      locked := false, valid := false, d := fresh .free }
  gen _ := 0

def NamedOk (sb : Superblock) (s : St) (i : Nat) : Prop :=
  ∀ e, e < (s.dinode i).size / DESIZE → (entry s.blk (s.dinode i) e).inum ≠ 0 →
    Live sb s.dinode (entry s.blk (s.dinode i) e).inum

instance (i : Nat) : Decidable (NamedOk sb s i) := by unfold NamedOk; infer_instance
instance (i : Nat) : Decidable (Kept s i) := by unfold Kept; infer_instance

theorem Fsck.tree (owner : Nat → Nat × Nat) (h : Fsck sb s owner) (hroot : Live sb s.dinode ROOTINO)
    (hkept : ∀ i, i < sb.ninodes → Live sb s.dinode i → Kept s i)
    (hnamed : ∀ i, i < sb.ninodes → Live sb s.dinode i → (s.dinode i).type = .dir → NamedOk sb s i) :
    Tree sb s := by
  have hlive : NoDangling sb s := by
    rintro i de ⟨hl, hd, hne, e, hin, rfl⟩
    refine hnamed i hl.2.1 hl hd e ?_ hne
    simp only [DESIZE] at hin ⊢
    omega
  refine ⟨⟨h.calm, fun i hl => hkept i hl.2.1 hl, fun i hl hd => (h.dirs i hl.2.1 hl hd).2.1,
    fun i de hof => (hlive i de hof).2.1⟩, hroot, fun k hk => ((h.table k).2.2.2 hk).1, hlive⟩

theorem openFiles_tree : Tree small (openFiles 1) :=
  Fsck.tree (fun _ => (1, 0)) ⟨by decide +kernel, by decide +kernel, by decide +kernel, by decide +kernel⟩
    (by decide +kernel) (by decide +kernel) (by decide +kernel)

/-- The path "a//" from the root. -/
theorem path_lookup_openFiles :
    Tree small (openFiles 1) ∧ ∃ r t, namei small 0 [97, 47, 47] (openFiles 1) = .ok (r, t) ∧
    r.map (fun ip => (t.inode ip).inum) = some 2 ∧ OneMore small (openFiles 1) r t := by
  have hroom : ¬Crowded (openFiles 1) := fun h => absurd (h 2 3 rfl rfl) (by decide)
  have hcwd : 0 < ((openFiles 1).inode 0).ref := by decide
  have hrun : Wp (namei small 0 [97, 47, 47]) (openFiles 1) _ fun _ => False :=
    (path_lookup openFiles_tree hcwd [97, 47, 47]).1.panics fun e he => hroom he.2
  obtain ⟨r, t, hm, hr, hone⟩ := hrun.returns
  exact ⟨openFiles_tree, r, t, hm, hr.trans (by decide +kernel), hone⟩

theorem openFiles_full : Tree small (openFiles 49) :=
  Fsck.tree (fun _ => (1, 0)) ⟨by decide +kernel, by decide +kernel, by decide +kernel, by decide +kernel⟩
    (by decide +kernel) (by decide +kernel) (by decide +kernel)

/-- The root and 49 open files fill the inode table, and "a" is not looked up. -/
theorem namei_no_inodes : Tree small (openFiles 49) ∧ 0 < ((openFiles 49).inode 0).ref ∧
    walk (openFiles 49) (start (openFiles 49) 0 [97]) (components [97]) = some 2 ∧
    namei small 0 [97] (openFiles 49) = .error .igetNoInodes :=
  ⟨openFiles_full, by decide, by decide +kernel, Prog.eq_error (by decide +kernel)⟩

/-! ## A new name -/

theorem Touches.lookup {j : Nat} (h : Touches sb i s t) (hl : Live sb s.dinode j)
    (hj : j ≠ i) (name : List UInt8) : lookup t j name = lookup s j name := by
  have he : ∀ e, entry t.blk (s.dinode j) e = entry s.blk (s.dinode j) e := fun e =>
    entry_congr fun k _ => by rw [byteAt, byteAt, h.file j hl hj]
  simp only [Fs.lookup, seek, h.dinode j hj, he]

/-- Directory `i` has a new entry in a free place. -/
theorem lookup_added (h0 : inum ≠ 0) (hmod : (s.dinode i).size % DESIZE = 0)
    (hsize : (t.dinode i).size = max (s.dinode i).size (DESIZE * e + DESIZE))
    (hentry : ∀ j, entry t.blk (t.dinode i) j = if j =
    e then ⟨inum, strncpy DIRSIZ name⟩ else entry s.blk (s.dinode i) j)
    (hplace : (DESIZE * e + DESIZE ≤ (s.dinode i).size ∧ (entry s.blk (s.dinode i) e).inum = 0) ∨
    (s.dinode i).size = DESIZE * e)
    (hfresh : ∀ j, DESIZE * j < (s.dinode i).size → ¬Called name (entry s.blk (s.dinode i) j))
    (other : List UInt8) :
    lookup t i other = if key other = key name then some inum else lookup s i other := by
  have hkey := key_strncpy name
  simp only [called_iff] at hfresh
  have hseek : seek t i other = if key other = key name then some e else seek s i other := by
    ext a
    split <;> simp only [seek, List.find?_range_eq_some, hentry, List.mem_range] <;> grind [DESIZE]
  rw [lookup, hseek]
  split
  · rw [Option.map_some, hentry, if_pos rfl]
  · cases hs : seek s i other with
    | none => rw [lookup, hs]; rfl
    | some a =>
      have := List.find?_range_eq_some.1 hs
      rw [lookup, hs, Option.map_some, hentry, if_neg (by grind [DESIZE])]; rfl

/-- `dirlink` adds the name to the directory, or leaves all names of all directories as they are; it stops the
machine only if the inode table is full. -/
theorem dirlink_lookup (h : IsDir sb s dp) (hmod : (s.inode dp).d.size % DESIZE = 0) (name : List UInt8)
    (h0 : inum ≠ 0) (hlt : inum < 2 ^ 16) :
    Wp (dirlink sb dp name inum) s (fun r t => IsDir sb t dp ∧ (t.inode dp).d.size % DESIZE = 0 ∧
        (r = 0 ∧ lookup s (s.inode dp).inum name = none ∨ r = -1) ∧
        ∀ j other, Live sb s.dinode j → lookup t j other =
          if r = 0 ∧ j = (s.inode dp).inum ∧ key other = key name then some inum else lookup s j other)
      (NoInodes s) := by
  refine (dirlink_spec h name inum).mono (fun r t hr => ?_) fun _ he => he.noInodes hmod
  obtain ⟨hinv, hr⟩ := hr
  have hcur := h.inv.inode_eq h.held
  have hself : ∀ {d : Dinode}, t.inode dp = { s.inode dp with d := d } → d.type = (s.inode dp).d.type →
      IsDir sb t dp ∧ d = t.dinode (s.inode dp).inum := fun hf ht => by
    have hh : Held t dp := by rw [Held, hf]; exact h.held
    have := hinv.inode_eq hh
    rw [hf] at this
    exact ⟨⟨hinv, hh, by rw [hf]; exact ht.trans h.type⟩, this⟩
  cases hr with
  | taken e _ _ hd hkept _ =>
    have hdp := hkept dp h.held.1
    refine ⟨(hself hdp rfl).1, by rw [hdp]; exact hmod, .inr rfl, fun j other _ => ?_⟩
    simp [lookup, seek, hd.blk, hd.dinode]
  | full hu =>
    obtain ⟨f, hf⟩ := hu.self
    obtain ⟨hdir, hd⟩ := hself hf rfl
    refine ⟨hdir, by rw [hf]; exact hmod, .inr rfl, fun j other hl => ?_⟩
    rw [if_neg (by simp)]
    by_cases e : j = (s.inode dp).inum
    · have he := hu.entry
      simp only [hf] at he
      simp only [e, lookup, seek, ← hd, ← hcur, he]
    · exact hu.touches.lookup hl e other
  | added e hst hplace hfresh =>
    obtain ⟨f, hf⟩ := hst.self
    obtain ⟨hdir, hd⟩ := hself hf rfl
    have he := hst.entry
    rw [Nat.mod_eq_of_lt hlt, hf] at he
    rw [hcur] at hplace hfresh hmod
    have hadd := lookup_added h0 hmod (by rw [← hd, ← hcur]) (by rw [← hd, ← hcur]; exact he) hplace hfresh
    refine ⟨hdir, ?_, .inl ⟨rfl, ?_⟩, fun j other hl => ?_⟩
    · rw [hf, hcur]
      simp only [DESIZE] at *
      omega
    · rw [lookup, seek_eq_none hfresh]; rfl
    · by_cases e : j = (s.inode dp).inum
      · rw [e, hadd]; simp
      · rw [if_neg (by simp [e])]; exact hst.touches.lookup hl e other

/-- A second name for the file of the small tree. -/
theorem dirlink_lookup_openFiles : ∃ s t, IsDir small s 0 ∧ dirlink small 0 [98] 2 s = .ok (0, t) ∧
    lookup t 1 [98] = some 2 ∧ lookup t 1 [97] = some 2 := by
  have hcalm := openFiles_tree.toCalm
  have hlock : ilock 0 (openFiles 1) = _ :=
    ilock_quiet ⟨hcalm.unlocked, fun _ _ hv => by cases hv⟩ (by decide) (by decide)
  have hinv := ((ilock_spec hcalm.inv (hcalm.range 0)).of_ok hlock).inv hcalm.inv
  have hdir : IsDir small (lockedAt (openFiles 1) 0) 0 := ⟨hinv, ⟨by decide, rfl⟩, rfl⟩
  have hw := dirlink_lookup hdir (by decide) [98] (by decide : 2 ≠ 0) (by decide)
  obtain ⟨r, t, hm, -, -, -, hl⟩ := (hw.panics fun e he => he.2 2 rfl).returns
  have hr : (dirlink small 0 [98] 2 (lockedAt (openFiles 1) 0)).toOption.map Prod.fst =
      some 0 := by decide +kernel
  rw [hm] at hr
  cases hr
  exact ⟨_, t, hdir, hm, (hl 1 [98] (by decide)).trans (by decide +kernel),
    (hl 1 [97] (by decide)).trans (by decide +kernel)⟩

end Xv6.Fs
