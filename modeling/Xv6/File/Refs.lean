import Xv6.Core.Count
import Xv6.File.Table
import Mathlib.Algebra.Group.Pi.Basic

/-!
# References to open files are exact (`kernel/file.c`, `kernel/sysfile.c`)

Inside a call there may be references that are in no descriptor, or, in
`sys_dup` and `exit`, descriptors that are not counted; `Inv e` has the
difference in `e`, and between calls it is zero. Each function of `file.c`
changes `e` at one file by one, so the paths of a system call add up.

* `inv_call`: a call keeps `Inv 0`, on every path.
* `file_refs`: references, ends of pipes and pages of pipes in every run.
-/
namespace Xv6.File
open Function (update update_self update_of_ne)

/-- The page of the pipe and the end of it (`true` to write) that a struct file in use refers to. -/
def endOf (x : File) : Option (Nat × Bool) :=
  if 0 < x.ref ∧ x.type = .pipe then some (x.pipe, x.writable) else none

/-- `writeopen` or `readopen` -/
def endOpen (pi : Pipe) (w : Bool) : Bool := if w then pi.writeopen else pi.readopen

/-- The number of descriptors that point to `f`. -/
def refs (s : Table) (f : Fin NFILE) : Nat := count (fun x => decide (x = some f)) s.ofile

structure Inv (e : Fin NFILE → Int) (s : Table) : Prop where
  ref_eq : ∀ f, (s.file f).ref = refs s f + e f
  nonneg : ∀ f, 0 ≤ (s.file f).ref
  unused : ∀ f, (s.file f).ref = 0 → (s.file f).type = .none
  one : ∀ x f g, endOf (s.file f) = some x → endOf (s.file g) = some x → f = g
  ends : ∀ pa pi, s.pipe pa = some pi → ∀ w, endOpen pi w = true ↔ ∃ f, endOf (s.file f) = some (pa, w)
  used : ∀ pa pi, s.pipe pa = some pi → ∃ w, endOpen pi w = true
  gone : ∀ pa w f, s.pipe pa = none → endOf (s.file f) ≠ some (pa, w)
  idle : ∀ p fd, s.proc p ≠ .live → s.ofile (p, fd) = none
  pages : ∀ pa, s.kallocs pa = s.kfrees pa + (s.pipe pa).isSome.toNat

theorem endOf_none {x : File} (h : x.type ≠ .pipe) : endOf x = none := if_neg fun hx => h hx.2

/-- What a descriptor counts for `f`. -/
def tally (x : Option (Fin NFILE)) (f : Fin NFILE) : Int := if x = some f then 1 else 0

@[simp] theorem tally_self (f : Fin NFILE) : tally (some f) f = 1 := if_pos rfl

@[simp] theorem tally_none (f : Fin NFILE) : tally none f = 0 := if_neg (by simp)

theorem tally_ne {f g : Fin NFILE} (h : g ≠ f) :
    tally (some f) g = 0 := if_neg fun e => h (Option.some.inj e).symm

section
variable {e : Fin NFILE → Int} {s : Table} {f : Fin NFILE}

theorem Inv.congr {e' : Fin NFILE → Int} (h : Inv e s) (he : ∀ f, e' f = e f) : Inv e' s := by
  have : e' = e := funext he
  rw [this]
  exact h

variable {x : File} {pa : Nat} {p initproc : Fin NPROC} {mem : Option Nat}

theorem ref_update (s : Table) (f : Fin NFILE) (x : File) (g : Fin NFILE) : (update s.file f x g).ref =
    (s.file g).ref + (x.ref - (s.file f).ref) * tally (some f) g := by
  by_cases e : g = f
  · rw [e, update_self, tally_self]
    omega
  · rw [update_of_ne e, tally_ne e, Int.mul_zero, Int.add_zero]

theorem Inv.nonneg_update (h : Inv e s) (hpos : 0 ≤ x.ref) (g : Fin NFILE) : 0 ≤ (update s.file f x g).ref :=
  (Function.forall_update_iff s.file fun _ y => 0 ≤ y.ref).2 ⟨hpos, fun g _ => h.nonneg g⟩ g

theorem Inv.unused_update (h : Inv e s) (hnone : x.ref = 0 → x.type = .none) (g : Fin NFILE) :
    (update s.file f x g).ref = 0 → (update s.file f x g).type = .none :=
  (Function.forall_update_iff s.file fun _ y => y.ref = 0 → y.type = .none).2 ⟨hnone, fun g _ => h.unused g⟩ g

/-- A file may change, but not the end of the pipe that it is. -/
theorem Inv.setFile (h : Inv e s) (hend : endOf x = endOf (s.file f)) (hpos : 0 ≤ x.ref)
    (hnone : x.ref = 0 → x.type = .none) :
    Inv (fun g => e g + (x.ref - (s.file f).ref) * tally (some f) g)
      { s with file := update s.file f x } := by
  have hends : ∀ g, endOf (update s.file f x g) = endOf (s.file g) :=
    (Function.forall_update_iff s.file fun g y => endOf y = endOf (s.file g)).2 ⟨hend, fun _ _ => rfl⟩
  refine ⟨fun g => ?_, h.nonneg_update hpos, h.unused_update hnone, fun y g g' => ?_,
    fun pa pi hpi w => ?_, h.used, fun pa w g hpa => ?_, h.idle, h.pages⟩
  · show (update s.file f x g).ref = refs s g + _
    rw [ref_update, h.ref_eq g, Int.add_assoc]
  · rw [hends g, hends g']
    exact h.one y g g'
  · simp only [hends]
    exact h.ends pa pi hpi w
  · rw [hends g]
    exact h.gone pa w g hpa

/-- A descriptor may change. -/
theorem Inv.setSlot (p : Fin NPROC) (fd : Fin NOFILE) (x : Option (Fin NFILE)) (h : Inv e s)
    (hlive : x ≠ none → s.proc p = .live) :
    Inv (fun g => e g + tally (s.ofile (p, fd)) g - tally x g)
      { s with ofile := update s.ofile (p, fd) x } := by
  refine { h with ref_eq := fun g => ?_, idle := fun q fd' hq => ?_ }
  · have hcount := count_update (fun y => decide (y = some g)) s.ofile (p, fd) x
    have hb : ∀ y : Option (Fin NFILE), ((decide (y = some g)).toNat : Int) = tally y g := by
      intro y
      unfold tally
      by_cases e : y = some g <;> simp [e]
    have hg := h.ref_eq g
    rw [← hb, ← hb]
    show (s.file g).ref = (count (fun y => decide (y = some g)) (update s.ofile (p, fd) x) : Int) + _
    unfold refs at hg
    omega
  · show update s.ofile (p, fd) x (q, fd') = none
    by_cases e : (q, fd') = (p, fd)
    · cases e
      rw [update_self]
      by_contra hx
      exact hq (hlive hx)
    · rw [update_of_ne e]
      exact h.idle q fd' hq

/-- What the functions of `file.c` leave alone. -/
def Kept (s s' : Table) : Prop := s'.ofile = s.ofile ∧ s'.proc = s.proc

/-- Struct files and the pipe at `pa` change, and what they say of each other
holds at `pa`; the ends at the other pages stay. -/
theorem Inv.atPage (pa : Nat) {e' : Fin NFILE → Int} {t : Table} (h : Inv e s) (hk : Kept s t)
    (href : ∀ g, (t.file g).ref = (s.file g).ref + (e' g - e g)) (hpos : ∀ g, 0 ≤ (t.file g).ref)
    (hnone : ∀ g, (t.file g).ref = 0 → (t.file g).type = .none)
    (hpages : ∀ a, a ≠ pa → t.pipe a = s.pipe a ∧ t.kallocs a = s.kallocs a ∧ t.kfrees a = s.kfrees a)
    (hother : ∀ a, a ≠ pa → ∀ w g, endOf (t.file g) = some (a, w) ↔ endOf (s.file g) = some (a, w))
    (hone : ∀ w g g', endOf (t.file g) = some (pa, w) → endOf (t.file g') = some (pa, w) → g = g')
    (hends : ∀ pi, t.pipe pa = some pi → (∀ w, endOpen pi w = true ↔ ∃ g, endOf (t.file g) = some (pa, w)) ∧
      ∃ w, endOpen pi w = true)
    (hgone : t.pipe pa = none → ∀ w g, endOf (t.file g) ≠ some (pa, w))
    (hpage : t.kallocs pa = t.kfrees pa + (t.pipe pa).isSome.toNat) : Inv e' t := by
  refine ⟨fun g => ?_, hpos, hnone, fun ⟨a, w⟩ g g' hg hg' => ?_, fun a pi hpi w => ?_, fun a pi hpi => ?_,
    fun a w g ha => ?_, fun p fd hp => ?_, fun a => ?_⟩
  · have hrefs : refs t g = refs s g := congrArg (count fun x => decide (x = some g)) hk.1
    have := href g
    have := h.ref_eq g
    omega
  · by_cases ea : a = pa
    · subst ea
      exact hone w g g' hg hg'
    · exact h.one _ g g' ((hother a ea w g).1 hg) ((hother a ea w g').1 hg')
  · by_cases ea : a = pa
    · subst ea
      exact (hends pi hpi).1 w
    · rw [(hpages a ea).1] at hpi
      rw [h.ends a pi hpi w]
      exact exists_congr fun g => (hother a ea w g).symm
  · by_cases ea : a = pa
    · subst ea
      exact (hends pi hpi).2
    · rw [(hpages a ea).1] at hpi
      exact h.used a pi hpi
  · by_cases ea : a = pa
    · subst ea
      exact hgone ha w g
    · rw [(hpages a ea).1] at ha
      exact fun hg => h.gone a w g ha ((hother a ea w g).1 hg)
  · rw [hk.1]
    exact h.idle p fd (hk.2 ▸ hp)
  · by_cases ea : a = pa
    · subst ea
      exact hpage
    · rw [(hpages a ea).1, (hpages a ea).2.1, (hpages a ea).2.2]
      exact h.pages a

theorem filealloc_spec (h : Inv e s) :
    Wp filealloc s (fun r s' => Kept s s' ∧
      match r with
      | none => s' = s
      | some f => Inv (fun g => e g + tally (some f) g) s' ∧ (s'.file f).ref = 1 ∧ (s'.file f).type = .none ∧
        (s.file f).ref = 0 ∧ s'.pipe = s.pipe ∧ ∀ g, g ≠ f → s'.file g = s.file g) fun _ => False := by
  unfold filealloc File.setFile
  rw [wp_bind, wp_get]
  split
  · rw [wp_pure]
    exact ⟨⟨rfl, rfl⟩, rfl⟩
  · rename_i f hf
    have hzero : (s.file f).ref = 0 := by simpa using List.find?_some hf
    have htype := h.unused f hzero
    rw [wp_bind, wp_modify, wp_pure]
    refine ⟨⟨rfl, rfl⟩, ?_, ?_, ?_, hzero, rfl, fun g hg => update_of_ne hg _ _⟩
    · have hnot : (s.file f).type ≠ .pipe := by rw [htype]; decide
      refine (h.setFile (f := f) (x := { s.file f with ref := 1 }) ?_ (show (0 : Int) ≤ 1 by decide)
        fun h1 => absurd h1 (show ¬(1 : Int) = 0 by decide)).congr fun g => ?_
      · rw [endOf_none hnot]
        exact endOf_none hnot
      · rw [hzero, Int.sub_zero, Int.one_mul]
    · show (update s.file f _ f).ref = 1
      rw [update_self]
    · show (update s.file f _ f).type = .none
      rw [update_self]
      exact htype

theorem filedup_spec (h : Inv e s) (hpos : 0 < (s.file f).ref) :
    Wp (filedup f) s (fun r s' => r = f ∧ Kept s s' ∧ Inv (fun g => e g + tally (some f) g) s')
    fun _ => False := by
  unfold filedup File.setFile
  rw [wp_bind, wp_get, if_neg (by omega), wp_bind, wp_modify, wp_pure]
  refine ⟨rfl, ⟨rfl, rfl⟩, ?_⟩
  refine (h.setFile (f := f) (x := { s.file f with ref := (s.file f).ref + 1 }) ?_ ?_ fun h0 => ?_).congr
    fun g => ?_
  · have hiff : 0 < (s.file f).ref + 1 ↔ 0 < (s.file f).ref := by omega
    unfold endOf
    simp only [hiff]
  · dsimp only
    omega
  · dsimp only at h0
    omega
  · rw [show (s.file f).ref + 1 - (s.file f).ref = 1 by omega, Int.one_mul]

/-- The last reference to an end of a pipe goes. -/
theorem pipeclose_spec {w : Bool} (h : Inv e s) (hend : endOf (s.file f) = some (pa, w))
    (hx : x.ref = 0) (hxt : x.type = .none) :
    Wp (pipeclose pa w) { s with file := update s.file f x }
      (fun _ s' => Kept s s' ∧ s'.file = update s.file f x ∧ (∃ y, s'.pipe = update s.pipe pa y) ∧
        (s.pipe pa).isSome ∧ Inv (fun g => e g - (s.file f).ref * tally (some f) g) s')
      fun _ => False := by
  have hgone : endOf x = none := endOf_none (by rw [hxt]; decide)
  -- the other ends are as before
  have hends : ∀ g y, endOf (update s.file f x g) = some y ↔ g ≠ f ∧ endOf (s.file g) = some y := by
    intro g y
    by_cases e : g = f
    · rw [e, update_self, hgone]
      simp
    · rw [update_of_ne e]
      simp [e]
  obtain ⟨pi, hpi⟩ : ∃ pi, s.pipe pa = some pi := by
    cases hp : s.pipe pa with
    | none => exact absurd hend (h.gone pa w f hp)
    | some pi => exact ⟨pi, rfl⟩
  have hshut : ∀ w', endOpen (pi.shut w) w' = true ↔ ∃ g, endOf (update s.file f x g) = some (pa, w') := by
    intro w'
    simp only [hends]
    by_cases e : w' = w
    · rw [e]
      refine iff_of_false ?_ fun ⟨g, hg, hg'⟩ => hg (h.one _ g f hg' hend)
      cases w <;> simp [Pipe.shut, endOpen]
    · have hsame : endOpen (pi.shut w) w' = endOpen pi w' := by
        cases w <;> cases w' <;> simp_all [Pipe.shut, endOpen]
      rw [hsame, h.ends pa pi hpi w']
      refine exists_congr fun g => ⟨fun hg => ⟨fun eg => ?_, hg⟩, fun hg => hg.2⟩
      rw [eg, hend] at hg
      cases hg
      exact e rfl
  have hother : ∀ a, a ≠ pa → ∀ w' g, endOf (update s.file f x g) = some (a, w') ↔
      endOf (s.file g) = some (a, w') := by
    intro a ha w' g
    rw [hends]
    refine ⟨fun hg => hg.2, fun hg => ⟨fun eg => ?_, hg⟩⟩
    rw [eg, hend] at hg
    cases hg
    exact ha rfl
  -- whatever becomes of the pipe
  have hpage : ∀ {t : Table} {y : Option Pipe}, Kept s t → t.file = update s.file f x →
    t.pipe = update s.pipe pa y →
      (∀ a, a ≠ pa → t.kallocs a = s.kallocs a ∧ t.kfrees a = s.kfrees a) →
      (∀ pi', y = some pi' → pi' = pi.shut w ∧ ∃ w', endOpen pi' w' = true) →
      (y = none → ∀ w', endOpen (pi.shut w) w' ≠ true) → t.kallocs pa = t.kfrees pa + y.isSome.toNat →
      Inv (fun g => e g - (s.file f).ref * tally (some f) g) t := by
    intro t y hk hfile hpipe hghost hopen hclosed hcount
    have hat : t.pipe pa = y := by rw [hpipe, update_self]
    refine h.atPage pa hk (fun g => ?_) ?_ ?_ (fun a ha => ⟨by rw [hpipe, update_of_ne ha], hghost a ha⟩) ?_
      (fun w' g g' hg hg' => ?_) (fun pi' hpi' => ?_) (fun hn w' g hg => ?_)
      (by rw [hat]; exact hcount) <;> try rw [hfile]
    · rw [ref_update, hx, Int.zero_sub, Int.neg_mul]
      omega
    · exact h.nonneg_update hx.ge
    · exact h.unused_update fun _ => hxt
    · exact hother
    · rw [hfile, hends] at hg hg'
      exact h.one _ g g' hg.2 hg'.2
    · obtain ⟨rfl, hw⟩ := hopen pi' (hat.symm.trans hpi')
      exact ⟨hshut, hw⟩
    · rw [hfile] at hg
      exact hclosed (hat.symm.trans hn) w' ((hshut w').2 ⟨g, hg⟩)
  have hcount := h.pages pa
  rw [hpi] at hcount
  unfold pipeclose
  rw [wp_bind, wp_get]
  rw [hpi]
  dsimp only
  split
  · -- both ends are closed: the page is freed
    rename_i hboth
    rw [wp_modify]
    refine ⟨⟨rfl, rfl⟩, rfl, ⟨none, rfl⟩, rfl,
      hpage (y := none) ⟨rfl, rfl⟩ rfl rfl (fun a ha => ?_) (fun _ e => by cases e) (fun _ w' => ?_) ?_⟩
    · exact ⟨rfl, update_of_ne ha _ _⟩
    · cases w' <;> simp [endOpen, hboth]
    · simpa using hcount
  · rename_i hopen
    rw [wp_modify]
    refine ⟨⟨rfl, rfl⟩, rfl, ⟨_, rfl⟩, rfl,
      hpage (y := some (pi.shut w)) ⟨rfl, rfl⟩ rfl rfl (fun _ _ => ⟨rfl, rfl⟩)
      (fun pi' e => ⟨(Option.some.inj e).symm, ?_⟩) (fun e => by cases e) hcount⟩
    cases e
    by_contra hno
    push Not at hno
    refine hopen ⟨?_, ?_⟩
    · simpa [endOpen] using hno false
    · simpa [endOpen] using hno true

theorem fileclose_spec (h : Inv e s) (hpos : 0 < (s.file f).ref) :
    Wp (fileclose f) s (fun _ s' => Kept s s' ∧ (∀ g, g ≠ f → s'.file g = s.file g) ∧
      Inv (fun g => e g - tally (some f) g) s' ∧
      (s'.pipe = s.pipe ∨ (∃ y, s'.pipe = update s.pipe (s.file f).pipe y) ∧ (s.pipe (s.file f).pipe).isSome))
      fun _ => False := by
  unfold fileclose File.setFile
  rw [wp_bind, wp_get]
  rw [if_neg (by omega)]
  split
  · rename_i hmore
    rw [wp_modify]
    refine ⟨⟨rfl, rfl⟩, fun g hg => update_of_ne hg _ _, ?_, .inl rfl⟩
    refine (h.setFile (f := f) (x := { s.file f with ref := (s.file f).ref - 1 }) ?_ ?_ fun h0 => ?_).congr
      fun g => ?_
    · have hiff : 0 < (s.file f).ref - 1 ↔ 0 < (s.file f).ref := by omega
      unfold endOf
      simp only [hiff]
    · dsimp only
      omega
    · dsimp only at h0
      omega
    · rw [show (s.file f).ref - 1 - (s.file f).ref = -1 by omega, Int.neg_one_mul, Int.sub_eq_add_neg]
  · rename_i hlast
    have hone : (s.file f).ref = 1 := by omega
    rw [wp_bind, wp_modify]
    split
    · rename_i htype
      have hend : endOf (s.file f) = some ((s.file f).pipe, (s.file f).writable) := if_pos ⟨hpos, htype⟩
      refine (pipeclose_spec h hend rfl rfl).post fun _ t ht => ?_
      obtain ⟨hk, hfile, hpipe, hsome, hi⟩ := ht
      refine ⟨hk, fun g hg => by rw [hfile, update_of_ne hg], hi.congr fun g => ?_, .inr ⟨hpipe, hsome⟩⟩
      rw [hone, Int.one_mul]
    · rename_i htype
      rw [wp_pure]
      refine ⟨⟨rfl, rfl⟩, fun g hg => update_of_ne hg _ _, ?_, .inl rfl⟩
      refine (h.setFile (f := f) (x := { s.file f with ref := 0, type := .none }) ?_ (Int.le_refl _)
        fun _ => rfl).congr fun g => ?_
      · rw [endOf_none htype, endOf_none (by dsimp only; decide)]
      · rw [show 0 - (s.file f).ref = -1 by omega, Int.neg_one_mul, Int.sub_eq_add_neg]

theorem fdalloc_spec (h : Inv e s) (hlive : s.proc p = .live) (f : Fin NFILE) :
    Wp (fdalloc p f) s (fun r s' => s'.file = s.file ∧ s'.proc = s.proc ∧ s'.pipe = s.pipe ∧
      match r with
      | none => s' = s
      | some fd => s.ofile (p, fd) = none ∧ s'.ofile = update s.ofile (p, fd) (some f) ∧
        Inv (fun g => e g - tally (some f) g) s') fun _ => False := by
  unfold fdalloc File.setSlot
  rw [wp_bind, wp_get]
  split
  · rw [wp_pure]
    exact ⟨rfl, rfl, rfl, rfl⟩
  · rename_i fd hfd
    have hnone : s.ofile (p, fd) = none := by simpa using List.find?_some hfd
    rw [wp_bind, wp_modify, wp_pure]
    refine ⟨rfl, rfl, rfl, hnone, rfl, ?_⟩
    refine (h.setSlot p fd (some f) fun _ => hlive).congr fun g => ?_
    rw [hnone, tally_none, Int.add_zero]

theorem refs_pos {x : Fin NPROC × Fin NOFILE} (hx : s.ofile x = some f) : 0 < refs s f := by
  refine Nat.pos_of_ne_zero fun h0 => ?_
  have := count_eq_zero.1 h0 x
  simp [hx] at this

/-- A file in a descriptor is in use. -/
theorem Inv.ref_pos {x : Fin NPROC × Fin NOFILE} (h : Inv 0 s) (hx : s.ofile x = some f) :
    0 < (s.file f).ref := by
  have href := h.ref_eq f
  have hpos := refs_pos hx
  simp only [Pi.zero_apply] at href
  omega

/-- An end of the pipe at `pa`. -/
def asEnd (x : File) (pa : Nat) (w : Bool) : File :=
  { x with type := .pipe, readable := !w, writable := w, pipe := pa }

/-- A new pipe at `pa`, and its two ends. -/
def Table.withPipe (s : Table) (f0 f1 : Fin NFILE) (pa : Nat) : Table :=
  let file := update s.file f0 ((s.file f0).asEnd pa false)
  { s with
    pipe := update s.pipe pa (some newPipe)
    kallocs := update s.kallocs pa (s.kallocs pa + 1)
    file := update file f1 ((file f1).asEnd pa true) }

theorem Inv.newPipe {f0 f1 : Fin NFILE} (h : Inv e s) (hne : f0 ≠ f1)
    (h0 : 0 < (s.file f0).ref ∧ (s.file f0).type = .none)
    (h1 : 0 < (s.file f1).ref ∧ (s.file f1).type = .none)
    (hpa : s.pipe pa = none) : Inv e (s.withPipe f0 f1 pa) ∧
    ∀ g, ((s.withPipe f0 f1 pa).file g).ref = (s.file g).ref := by
  set t := s.withPipe f0 f1 pa
  have hfile : t.file = update (update s.file f0 _) f1 _ := rfl
  have e0 : t.file f0 = (s.file f0).asEnd pa false := by rw [hfile, update_of_ne hne, update_self]
  have e1 : t.file f1 = (s.file f1).asEnd pa true := by rw [hfile, update_self, update_of_ne (Ne.symm hne)]
  have eo : ∀ g, g ≠ f0 → g ≠ f1 → t.file g = s.file g := fun g hg0 hg1 => by
    rw [hfile, update_of_ne hg1, update_of_ne hg0]
  have hrefs : ∀ g, (t.file g).ref = (s.file g).ref := by
    intro g
    by_cases e : g = f0
    · rw [e, e0]
      rfl
    · by_cases e' : g = f1
      · rw [e', e1]
        rfl
      · rw [eo g e e']
  have hends : ∀ g y, endOf (t.file g) = some y ↔
      g = f0 ∧ y = (pa, false) ∨ g = f1 ∧ y = (pa, true) ∨ endOf (s.file g) = some y := by
    intro g y
    by_cases e : g = f0
    · rw [e, e0, endOf_none (show (s.file f0).type ≠ .pipe by rw [h0.2]; decide), endOf, if_pos ⟨h0.1, rfl⟩]
      simp [hne, eq_comm, asEnd]
    · by_cases e' : g = f1
      · rw [e', e1, endOf_none (show (s.file f1).type ≠ .pipe by rw [h1.2]; decide),
          endOf, if_pos ⟨h1.1, rfl⟩]
        simp [Ne.symm hne, eq_comm, asEnd]
      · rw [eo g e e']
        simp [e, e']
  have hnew : ∀ w g, endOf (s.file g) ≠ some (pa, w) := fun w g => h.gone pa w g hpa
  have hat : t.pipe pa = some File.newPipe := update_self _ _ _
  refine ⟨h.atPage pa ⟨rfl, rfl⟩ (fun g => ?_) (fun g => ?_) (fun g hg => ?_)
    (fun a ha => ?_) (fun a ha w g => ?_)
    (fun w g g' hg hg' => ?_) (fun pi hpi => ?_) (fun hn => ?_) ?_, hrefs⟩
  · rw [hrefs g]
    omega
  · rw [hrefs g]
    exact h.nonneg g
  · rw [hrefs g] at hg
    have hg0 : g ≠ f0 := fun e => by rw [e] at hg; omega
    have hg1 : g ≠ f1 := fun e => by rw [e] at hg; omega
    rw [eo g hg0 hg1]
    exact h.unused g hg
  · exact ⟨update_of_ne ha _ _, update_of_ne ha _ _, rfl⟩
  · rw [hends]
    simp [ha]
  · rw [hends] at hg hg'
    cases w <;> simp_all
  · cases hat.symm.trans hpi
    refine ⟨fun w => ?_, true, rfl⟩
    cases w
    · exact iff_of_true rfl ⟨f0, (hends _ _).2 (.inl ⟨rfl, rfl⟩)⟩
    · exact iff_of_true rfl ⟨f1, (hends _ _).2 (.inr (.inl ⟨rfl, rfl⟩))⟩
  · cases hat.symm.trans hn
  · have hcount := h.pages pa
    rw [hpa] at hcount
    rw [hat]
    exact (update_self _ _ _).trans (congrArg (· + 1) hcount)

theorem pipealloc_spec (h : Inv e s) (hmem : ∀ pa, mem = some pa → s.pipe pa = none) :
    Wp (pipealloc mem) s (fun r s' => Kept s s' ∧
      match r with
      | none => Inv e s'
      | some (f0, f1) => Inv (fun g => e g + tally (some f0) g + tally (some f1) g) s' ∧ f0 ≠ f1 ∧
        0 < (s'.file f0).ref ∧ 0 < (s'.file f1).ref) fun _ => False := by
  unfold pipealloc
  refine (filealloc_spec h).bind fun r0 s0 hr0 => ?_
  cases r0 with
  | none =>
    refine (wp_pure _).2 ⟨hr0.1, ?_⟩
    rw [hr0.2]
    exact h
  | some f0 =>
    obtain ⟨hk0, hi0, href0, htype0, -, hpipe0, -⟩ := hr0
    refine (filealloc_spec hi0).bind fun r1 s1 hr1 => ?_
    cases r1 with
    | none =>
      obtain ⟨-, hs1⟩ := hr1
      rw [hs1]
      refine (fileclose_spec hi0 (by rw [href0]; decide)).bind fun _ t ht => ?_
      refine (wp_pure _).2 ⟨⟨ht.1.1.trans hk0.1, ht.1.2.trans hk0.2⟩, ht.2.2.1.congr fun g => ?_⟩
      omega
    | some f1 =>
      obtain ⟨hk1, hi1, href1, htype1, hold1, hpipe1, hother1⟩ := hr1
      have hne : f0 ≠ f1 := by
        intro e
        rw [← e, href0] at hold1
        cases hold1
      have hf0 : s1.file f0 = s0.file f0 := hother1 f0 hne
      have hkept : Kept s s1 := ⟨hk1.1.trans hk0.1, hk1.2.trans hk0.2⟩
      cases mem with
      | none =>
        refine (fileclose_spec hi1 (by rw [hf0, href0]; decide)).bind fun _ t ht => ?_
        refine (fileclose_spec ht.2.2.1 (by rw [ht.2.1 f1 (Ne.symm hne), href1]; decide)).bind
          fun _ u hu => ?_
        refine (wp_pure _).2 ⟨⟨hu.1.1.trans (ht.1.1.trans hkept.1), hu.1.2.trans (ht.1.2.trans hkept.2)⟩,
          hu.2.2.1.congr fun g => ?_⟩
        omega
      | some pa =>
        have hpa : s1.pipe pa = none := by rw [hpipe1, hpipe0, hmem pa rfl]
        have h0 : 0 < (s1.file f0).ref ∧ (s1.file f0).type = .none := by
          rw [hf0, href0, htype0]
          exact ⟨by decide, rfl⟩
        have h1 : 0 < (s1.file f1).ref ∧ (s1.file f1).type = .none := by
          rw [href1, htype1]
          exact ⟨by decide, rfl⟩
        unfold File.setFile
        rw [wp_bind, wp_modify, wp_bind, wp_get, wp_bind, wp_modify, wp_bind, wp_get,
          wp_bind, wp_modify, wp_pure]
        obtain ⟨hi, hrefs⟩ := hi1.newPipe hne h0 h1 hpa
        exact ⟨hkept, hi, hne, (hrefs f0).symm ▸ h0.1, (hrefs f1).symm ▸ h1.1⟩

/-! ## Calls -/

theorem argfd_spec (p : Fin NPROC) (fd : Int) : Wp (argfd p fd) s (fun r s' => s' = s ∧
    ∀ fd' f, r = some (fd', f) → s.ofile (p, fd') = some f) fun _ => False := by
  unfold argfd
  rw [wp_bind, wp_get]
  split
  · split
    · rw [wp_pure]
      exact ⟨rfl, fun _ _ e => by cases e⟩
    · rename_i hf
      rw [wp_pure]
      refine ⟨rfl, fun fd' f e => ?_⟩
      cases e
      exact hf
  · rw [wp_pure]
    exact ⟨rfl, fun _ _ e => by cases e⟩

theorem sysDup_inv (h : Inv 0 s) (hlive : s.proc p = .live) (fd : Int) :
    Wp (sysDup p fd) s (fun _ s' => Inv 0 s') fun _ => False := by
  unfold sysDup
  refine (argfd_spec p fd).bind fun r t ht => ?_
  obtain ⟨rfl, hslot⟩ := ht
  rcases r with _ | ⟨fd', f⟩
  · exact (wp_pure _).2 h
  · have hpos := h.ref_pos (hslot fd' f rfl)
    refine (fdalloc_spec h hlive f).bind fun r u hu => ?_
    cases r with
    | none =>
      refine (wp_pure _).2 ?_
      rw [hu.2.2.2]
      exact h
    | some fd1 =>
      obtain ⟨hfile, -, -, -, -, hi⟩ := hu
      refine (filedup_spec hi (by rw [hfile]; exact hpos)).bind fun _ v hv => ?_
      refine (wp_pure _).2 (hv.2.2.congr fun g => ?_)
      simp

theorem sysClose_inv (h : Inv 0 s) (fd : Int) :
    Wp (sysClose p fd) s (fun _ s' => Inv 0 s') fun _ => False := by
  unfold sysClose
  refine (argfd_spec p fd).bind fun r t ht => ?_
  obtain ⟨rfl, hslot⟩ := ht
  rcases r with _ | ⟨fd', f⟩
  · exact (wp_pure _).2 h
  · have hf := hslot fd' f rfl
    unfold File.setSlot
    rw [wp_bind, wp_modify]
    have hi := h.setSlot p fd' none fun e => absurd rfl e
    refine (fileclose_spec (f := f) hi (h.ref_pos hf)).bind fun _ u hu => ?_
    refine (wp_pure _).2 (hu.2.2.1.congr fun g => ?_)
    rw [hf]
    simp

theorem endOf_opened (x : File) (omode : UInt32) (nd : Node) : endOf (opened x omode nd) = none := by
  refine endOf_none ?_
  unfold opened
  by_cases hd : nd.type = .device <;> simp [hd]

theorem ref_opened (x : File) (omode : UInt32) (nd : Node) : (opened x omode nd).ref = x.ref := by
  unfold opened
  by_cases hd : nd.type = .device <;> simp [hd]

theorem sysOpen_inv (h : Inv 0 s) (hlive : s.proc p = .live) (omode : UInt32) (node : Option Node) :
    Wp (sysOpen p omode node) s (fun _ s' => Inv 0 s') fun _ => False := by
  unfold sysOpen
  cases node with
  | none => exact (wp_pure _).2 h
  | some nd =>
    dsimp only
    split
    · exact (wp_pure _).2 h
    split
    · exact (wp_pure _).2 h
    refine (filealloc_spec h).bind fun r t ht => ?_
    cases r with
    | none =>
      refine (wp_pure _).2 ?_
      rw [ht.2]
      exact h
    | some f =>
      obtain ⟨hk, hi, href, htype, -, -, -⟩ := ht
      refine (fdalloc_spec hi (by rw [hk.2]; exact hlive) f).bind fun r u hu => ?_
      cases r with
      | none =>
        obtain ⟨-, -, -, hu⟩ := hu
        rw [hu]
        refine (fileclose_spec hi (by rw [href]; decide)).bind fun _ v hv => ?_
        refine (wp_pure _).2 (hv.2.2.1.congr fun g => ?_)
        simp
      | some fd =>
        obtain ⟨hfile, -, -, -, -, hi⟩ := hu
        unfold File.setFile
        rw [wp_bind, wp_get, wp_bind, wp_modify, wp_pure]
        refine (hi.setFile (f := f) (x := opened (u.file f) omode nd) ?_ ?_ fun h0 => ?_).congr fun g => ?_
        · rw [endOf_opened, endOf_none (by rw [hfile, htype]; decide)]
        · rw [ref_opened]
          exact hi.nonneg f
        · rw [ref_opened, hfile, href] at h0
          cases h0
        · rw [ref_opened]
          simp

theorem sysPipe_inv (h : Inv 0 s) (hlive : s.proc p = .live)
    (hmem : ∀ pa, mem = some pa → s.pipe pa = none) (copy0 copy1 : Bool) :
    Wp (sysPipe p mem copy0 copy1) s (fun _ s' => Inv 0 s') fun _ => False := by
  unfold sysPipe
  refine (pipealloc_spec h hmem).bind fun r t ht => ?_
  rcases r with _ | ⟨rf, wf⟩
  · exact (wp_pure _).2 ht.2
  obtain ⟨hk, hi, hne, hrf, hwf⟩ := ht
  have hlive' : t.proc p = .live := by rw [hk.2]; exact hlive
  -- both files are closed
  have hclose : ∀ {e : Fin NFILE → Int} {u : Table}, Inv e u → u.file = t.file →
      (∀ g, e g = tally (some rf) g + tally (some wf) g) →
      Wp (do fileclose rf; fileclose wf; pure (-1) : T Int) u (fun _ s' => Inv 0 s') fun _ => False := by
    intro e u hu hfile he
    refine (fileclose_spec hu (by rw [hfile]; exact hrf)).bind fun _ v hv => ?_
    refine (fileclose_spec hv.2.2.1 (by rw [hv.2.1 wf (Ne.symm hne), hfile]; exact hwf)).bind fun _ w hw => ?_
    refine (wp_pure _).2 (hw.2.2.1.congr fun g => ?_)
    rw [he g, Pi.zero_apply]
    omega
  refine (fdalloc_spec hi hlive' rf).bind fun r u hu => ?_
  cases r with
  | none =>
    obtain ⟨-, -, -, hu⟩ := hu
    rw [hu]
    exact hclose hi rfl fun g => by simp
  | some fd0 =>
    obtain ⟨hfile, hproc, -, hfree, hofile, hi0⟩ := hu
    refine (fdalloc_spec hi0 (by rw [hproc]; exact hlive') wf).bind fun r v hv => ?_
    cases r with
    | none =>
      obtain ⟨-, -, -, hv⟩ := hv
      rw [hv]
      unfold File.setSlot
      rw [wp_bind, wp_modify]
      refine hclose (hi0.setSlot p fd0 none fun e => absurd rfl e) hfile fun g => ?_
      rw [hofile, update_self]
      simp
      omega
    | some fd1 =>
      obtain ⟨hfile1, hproc1, -, hfree1, hofile1, hi1⟩ := hv
      have hfd : fd1 ≠ fd0 := by
        intro e
        rw [e, hofile, update_self] at hfree1
        cases hfree1
      dsimp only
      split
      · unfold File.setSlot
        rw [wp_bind, wp_modify, wp_bind, wp_modify]
        have hi2 := hi1.setSlot p fd0 none fun e => absurd rfl e
        refine hclose (hi2.setSlot p fd1 none fun e => absurd rfl e) (hfile1.trans hfile) fun g => ?_
        dsimp only
        rw [update_of_ne (by simp [hfd]), hofile1, update_self, update_of_ne (by simp [Ne.symm hfd]),
          hofile, update_self]
        simp
      · refine (wp_pure _).2 (hi1.congr fun g => ?_)
        simp

/-- The child's descriptors in `is` are still free, and the parent's stay. -/
theorem forkFiles_inv {np : Fin NPROC} {is : List (Fin NOFILE)} (h : Inv 0 s) (hlive : s.proc np = .live)
    (hnp : ∀ i ∈ is, s.ofile (np, i) = none) (hnd : is.Nodup) :
    Wp (forkFiles p np is) s (fun _ s' => Inv 0 s') fun _ => False := by
  induction is generalizing s with
  | nil => exact (wp_pure _).2 h
  | cons i is ih =>
    have hrest : ∀ j ∈ is, s.ofile (np, j) = none := fun j hj => hnp j (List.mem_cons_of_mem _ hj)
    unfold forkFiles
    rw [wp_bind, wp_get]
    split
    · exact ih h hlive hrest (List.nodup_cons.1 hnd).2
    · rename_i f hf
      refine (filedup_spec h (h.ref_pos hf)).bind fun r t ht => ?_
      obtain ⟨rfl, hk, hi⟩ := ht
      have hlive' : t.proc np = .live := by rw [hk.2]; exact hlive
      unfold File.setSlot
      rw [wp_bind, wp_modify]
      refine ih ?_ hlive' (fun j hj => ?_) (List.nodup_cons.1 hnd).2
      · refine (hi.setSlot np i (some r) fun _ => hlive').congr fun g => ?_
        rw [hk.1, hnp i List.mem_cons_self]
        simp
      · have hne : j ≠ i := fun e => (List.nodup_cons.1 hnd).1 (e ▸ hj)
        show update t.ofile (np, i) _ (np, j) = none
        rw [update_of_ne (by simp [hne]), hk.1]
        exact hrest j hj

/-- All descriptors of `p` in `fds` are closed. -/
theorem exitFiles_inv {fds : List (Fin NOFILE)} (h : Inv 0 s) :
    Wp (exitFiles p fds) s (fun _ s' => Inv 0 s' ∧ s'.proc = s.proc ∧
      ∀ fd, (s.ofile (p, fd) = none ∨ fd ∈ fds) → s'.ofile (p, fd) = none) fun _ => False := by
  induction fds generalizing s with
  | nil => exact (wp_pure _).2 ⟨h, rfl, fun fd hfd => hfd.elim id fun hm => by cases hm⟩
  | cons fd fds ih =>
    unfold exitFiles
    rw [wp_bind, wp_get]
    split
    · rename_i hnone
      refine (ih h).post fun _ t ht => ⟨ht.1, ht.2.1, fun fd' hfd' => ht.2.2 fd' ?_⟩
      rcases hfd' with hn | hm
      · exact .inl hn
      · rcases List.mem_cons.1 hm with e | hm
        · exact .inl (by rw [e]; exact hnone)
        · exact .inr hm
    · rename_i f hf
      refine (fileclose_spec h (h.ref_pos hf)).bind fun _ t ht => ?_
      unfold File.setSlot
      rw [wp_bind, wp_modify]
      have hi : Inv 0 { t with ofile := update t.ofile (p, fd) none } := by
        refine (ht.2.2.1.setSlot p fd none fun e => absurd rfl e).congr fun g => ?_
        rw [ht.1.1, hf]
        simp
      refine (ih hi).post fun _ u hu => ⟨hu.1, hu.2.1.trans ht.1.2, fun fd' hfd' => hu.2.2 fd' ?_⟩
      by_cases e : fd' = fd
      · left
        rw [e]
        exact update_self _ _ _
      · rcases hfd' with hn | hm
        · left
          show update t.ofile (p, fd) none (p, fd') = none
          rw [update_of_ne (by simp [e]), ht.1.1]
          exact hn
        · exact .inr ((List.mem_cons.1 hm).resolve_left e)

theorem Inv.setProc {x : Slot} (h : Inv e s) (hidle : x ≠ .live → ∀ fd, s.ofile (p, fd) = none) :
    Inv e { s with proc := update s.proc p x } := by
  refine { h with idle := fun q fd hq => ?_ }
  have hq : update s.proc p x q ≠ .live := hq
  by_cases e : q = p
  · rw [e, update_self] at hq
    rw [e]
    exact hidle hq fd
  · rw [update_of_ne e] at hq
    exact h.idle q fd hq

theorem fork_inv {np : Option (Fin NPROC)} (h : Inv 0 s)
    (hnp : ∀ q, np = some q → s.proc q = .unused) (mem : Bool) :
    Wp (fork p np mem) s (fun _ s' => Inv 0 s') fun _ => False := by
  unfold fork
  cases np with
  | none => exact (wp_pure _).2 h
  | some np =>
    have hnone : ∀ fd, s.ofile (np, fd) = none := fun fd => h.idle np fd (by rw [hnp np rfl]; decide)
    have hi := h.setProc (p := np) (x := .live) fun e => absurd rfl e
    unfold File.setProc
    rw [wp_bind, wp_modify]
    split
    · rw [wp_modify]
      exact hi.setProc fun _ => hnone
    · exact forkFiles_inv hi (update_self _ _ _) (fun i _ => hnone i) (List.nodup_finRange _)

theorem exit_inv (h : Inv 0 s) :
    Wp (exit initproc p) s (fun _ s' => Inv 0 s') fun e => e = .initExiting := by
  unfold exit
  split
  · exact (wp_panic _).2 rfl
  · refine ((exitFiles_inv (p := p) h).never).bind fun _ t ht => ?_
    unfold File.setProc
    rw [wp_modify]
    exact ht.1.setProc fun _ fd => ht.2.2 fd (.inr (List.mem_finRange fd))

/-- A call keeps the references exact; it does not panic, unless `init` exits. -/
theorem inv_call {l : Call} (h : Inv 0 s) (ha : l.Allowed s) :
    Wp (l.run initproc) s (fun _ s' => Inv 0 s') fun e => e = .initExiting := by
  have hret : ∀ {α : Type} {m : T α}, Wp m s (fun _ s' => Inv 0 s') (fun _ => False) →
      Wp (do let _ ← m : T Unit) s (fun _ s' => Inv 0 s') fun e => e = .initExiting := by
    intro α m hm
    exact (hm.never).bind fun _ t ht => (wp_pure _).2 ht
  cases l with
  | «open» p omode node => exact hret (sysOpen_inv h ha omode node)
  | dup p fd => exact hret (sysDup_inv h ha fd)
  | pipe p mem copy0 copy1 => exact hret (sysPipe_inv h ha.1 ha.2 copy0 copy1)
  | close p fd => exact hret (sysClose_inv h fd)
  | fork p np mem => exact (fork_inv h ha.2 mem).never
  | exit p => exact exit_inv h
  | reap p =>
    refine (wp_modify _).2 (h.setProc fun _ fd => h.idle p fd ?_)
    rw [show s.proc p = .zombie from ha]
    decide

theorem Boot.inv (h : Boot initproc s) : Inv 0 s := by
  have hend : ∀ f, endOf (s.file f) = none := fun f => endOf_none (by rw [(h.file f).2]; decide)
  refine ⟨fun f => ?_, fun f => ?_, fun f _ => (h.file f).2, fun x f g hf => ?_,
    fun pa pi hpi => ?_, fun pa pi hpi => ?_, fun pa w f _ => ?_, fun p fd _ => h.ofile _, fun pa => ?_⟩
  · have hzero : refs s f = 0 := count_eq_zero.2 fun x => by simp [h.ofile x]
    rw [(h.file f).1, hzero]
    rfl
  · rw [(h.file f).1]
  · rw [hend f] at hf
    cases hf
  · rw [h.pipe pa] at hpi
    cases hpi
  · rw [h.pipe pa] at hpi
    cases hpi
  · rw [hend f]
    simp
  · rw [h.kallocs, h.kfrees, h.pipe]
    rfl

end

theorem inv_inductive {initproc : Fin NPROC} : (tableLts initproc).Inductive (Inv 0) where
  init _ h := h.inv
  step _ _ _ h hs := (inv_call h hs.1).of_ok hs.2

/-- What holds between calls. -/
structure Exact (s : Table) : Prop where
  refs : ∀ f, (s.file f).ref = refs s f
  unused : ∀ f, (s.file f).ref = 0 → (s.file f).type = .none
  /-- `readopen` (`writeopen`) is set exactly while some struct file in use is the end to read (to write) -/
  ends : ∀ pa pi, s.pipe pa = some pi →
    (pi.readopen = true ↔ ∃ f, endOf (s.file f) = some (pa, false)) ∧
    (pi.writeopen = true ↔ ∃ f, endOf (s.file f) = some (pa, true))
  /-- a page is used for a pipe exactly while one of its ends is open, and has been freed as often as it has
  been given to a pipe that is gone -/
  page : ∀ pa, (s.pipe pa).isSome ↔ ∃ f w, endOf (s.file f) = some (pa, w)
  freed : ∀ pa, s.kallocs pa = s.kfrees pa + if (s.pipe pa).isSome then 1 else 0

theorem file_refs {initproc : Fin NPROC} {s : Table} (h : (tableLts initproc).Reachable s) :
    Exact s ∧ ∀ (l : Call) e, l.Allowed s → l.run initproc s = .error e → e = .initExiting := by
  have hi := inv_inductive.reachable h
  refine ⟨⟨fun f => ?_, hi.unused,
    fun pa pi hpi => ⟨hi.ends pa pi hpi false, hi.ends pa pi hpi true⟩, fun pa => ?_,
    fun pa => ?_⟩, fun l e ha he => (inv_call hi ha).of_error he⟩
  · have href := hi.ref_eq f
    rwa [Pi.zero_apply, Int.add_zero] at href
  · constructor
    · intro hsome
      obtain ⟨pi, hpi⟩ := Option.isSome_iff_exists.1 hsome
      obtain ⟨w, hw⟩ := hi.used pa pi hpi
      obtain ⟨f, hf⟩ := (hi.ends pa pi hpi w).1 hw
      exact ⟨f, w, hf⟩
    · intro ⟨f, w, hf⟩
      by_contra hnone
      exact hi.gone pa w f (by simpa using hnone) hf
  · have hp := hi.pages pa
    cases hpi : s.pipe pa <;> rw [hpi] at hp <;> simpa using hp

def initproc : Fin NPROC := ⟨0, by decide⟩
def child : Fin NPROC := ⟨1, by decide⟩
def readEnd : Fin NFILE := ⟨0, by decide⟩
def writeEnd : Fin NFILE := ⟨1, by decide⟩

/-- `init` alone. -/
def boot : Table where
  file _ := ⟨.none, 0, false, false, 0, ⟨0, by decide⟩, 0, 0⟩
  ofile _ := none
  pipe _ := none
  proc p := if p = initproc then .live else .unused
  kallocs _ := 0
  kfrees _ := 0

theorem boot_ok : Boot initproc boot :=
  ⟨fun _ => ⟨rfl, rfl⟩, fun _ => rfl, fun _ => rfl, fun _ => rfl, fun _ => rfl, fun _ => rfl⟩

/-- `init` makes a pipe, forks, and closes its end to read. -/
theorem file_refs_pipeFork : ∃ s, (tableLts initproc).Reachable s ∧ (s.file readEnd).ref = 1 ∧
    (s.file writeEnd).ref = 2 ∧ Exact s := by
  have hruns : ∃ s1, Call.run initproc (.pipe initproc (some 0) true true) boot = .ok ((), s1) ∧
      s1.proc initproc = .live ∧ s1.proc child = .unused ∧
      ∃ s2, Call.run initproc (.fork initproc (some child) true) s1 = .ok ((), s2) ∧
      s2.proc initproc = .live ∧
      ∃ s3, Call.run initproc (.close initproc 0) s2 = .ok ((), s3) ∧ (s3.file readEnd).ref = 1 ∧
      (s3.file writeEnd).ref = 2 := ⟨_, rfl, rfl, rfl, _, rfl, rfl, _, rfl, rfl, rfl⟩
  obtain ⟨s1, r1, l1, u1, s2, r2, l2, s3, r3, hr, hw⟩ := hruns
  have hrun : (tableLts initproc).Run boot
      [.pipe initproc (some 0) true true, .fork initproc (some child) true, .close initproc 0] s3 :=
    .cons ⟨⟨rfl, fun _ _ => rfl⟩, r1⟩
    (.cons ⟨⟨l1, fun q e => by cases e; exact u1⟩, r2⟩ (.cons ⟨l2, r3⟩ (.nil _)))
  have hreach : (tableLts initproc).Reachable s3 := ⟨boot, _, boot_ok, hrun⟩
  exact ⟨s3, hreach, hr, hw, (file_refs hreach).1⟩

end Xv6.File
