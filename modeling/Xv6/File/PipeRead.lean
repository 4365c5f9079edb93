import Xv6.File.Read
import Xv6.Vm.Translate

/-!
# Reading a pipe into memory that may fault (`piperead`)

`piperead` takes a byte off the ring and then copies it out. If the copy
fails, the byte is gone: it is neither in user memory nor in the pipe, and
not counted in the result.

* `pipeCopy_drains`: the copy loop stores the oldest bytes up to the first
  address that the user cannot write, and takes one more off the ring if
  there is such an address.
* `piperead_exact`: the call takes off exactly the bytes it stores if and only
  if every address that it stores to is mapped.
* `piperead_loses`: a read of two bytes that ends at the end of user memory.
-/
namespace Xv6
open Function (update update_self update_of_ne)

/-! ## The ring -/

namespace Pipe

/-- `pi->nread++` -/
def advance (pi : Pipe) (c : Nat) : Pipe := { pi with nread := pi.nread + UInt32.ofNat c }

theorem advance_zero (pi : Pipe) : pi.advance 0 = pi := by
  unfold advance
  simp

theorem advance_advance (pi : Pipe) (c d : Nat) : (pi.advance c).advance d = pi.advance (c + d) := by
  unfold advance
  simp only [UInt32.ofNat_add, UInt32.add_assoc]

theorem held_of_empty {pi : Pipe} (h : pi.empty) : pi.held = [] := by
  have e : pi.nread = pi.nwrite := h
  unfold held
  rw [e]
  simp

/-- The oldest byte, and the others. -/
theorem held_cons {pi : Pipe} (h : ¬pi.empty) : pi.held = pi.next :: (pi.advance 1).held := by
  have hne : pi.nread.toNat ≠ pi.nwrite.toNat := fun e => h (UInt32.toNat_inj.1 e)
  have h1 := pi.nread.toNat_lt
  have h2 := pi.nwrite.toNat_lt
  have hone : (pi.nread + 1).toNat = (pi.nread.toNat + 1) % 2 ^ 32 := by
    rw [UInt32.toNat_add]
    rfl
  have hcount : (pi.nwrite - pi.nread).toNat = (pi.nwrite - (pi.nread + 1)).toNat + 1 := by
    rw [UInt32.toNat_sub, UInt32.toNat_sub, hone]
    omega
  unfold held next advance
  rw [hcount, List.range_succ_eq_map, List.map_cons, List.map_map, Nat.add_zero]
  congr 1
  refine List.map_congr_left fun j _ => ?_
  have hpos : (pi.nread.toNat + (j + 1)) % PIPESIZE = ((pi.nread + UInt32.ofNat 1).toNat + j) % PIPESIZE := by
    have : pi.nread + UInt32.ofNat 1 = pi.nread + 1 := rfl
    rw [this, hone]
    simp only [PIPESIZE]
    omega
  simp only [Function.comp, Nat.succ_eq_add_one, hpos]

end Pipe

namespace File

/-! ## The copy loop -/

/-- `c` of the bytes asked for have been stored; one more is off the ring if there should have been more. -/
structure Drained (pt pi addr n : Nat) (k : Kern) (c : Nat) (k' : Kern) : Prop where
  stored : Vm.Wrote k.mem k'.mem pt addr ((k.pipes pi).held.take n) c
  pipes : k'.pipes = update k.pipes pi
    ((k.pipes pi).advance (c + if c < ((k.pipes pi).held.take n).length then 1 else 0))

theorem pipeCopy_drains (pt pi addr : Nat) (n : Nat) :
    ∀ {k : Kern} (i : Nat) (out : List Nat), Vm.UserTable k.mem pt → addr + i < 2 ^ 64 →
    Wp (pipeCopy pt pi addr n i out) k
    (fun r k' => ∃ c, r.1 = ((i + c : Nat) : Int) ∧ Drained pt pi (addr + i) n k c k')
      fun _ => False := by
  induction n with
  | zero =>
    intro k i out _ _
    refine (wp_pure _).2 ⟨0, rfl, Vm.Wrote.nil _ _ _ fun h => absurd h (by simp), ?_⟩
    simp [Pipe.advance_zero]
  | succ n ih =>
    intro k i out hu hlt
    unfold pipeCopy
    rw [wp_bind, wp_get, wp_ite]
    refine ⟨fun hempty => ?_, fun hsome => ?_⟩
    · refine (wp_pure _).2 ⟨0, rfl, Vm.Wrote.nil _ _ _ fun h => absurd h ?_, ?_⟩
      · simp [Pipe.held_of_empty hempty]
      · simp [Pipe.held_of_empty hempty, Pipe.advance_zero]
    have hheld := Pipe.held_cons hsome
    rw [wp_bind, wp_modify, wp_bind, Nat.mod_eq_of_lt hlt, wp_ofVm]
    refine (Vm.copyout_writes hu _ _).post fun r m hr => ?_
    obtain ⟨hw, hok⟩ := hr
    rw [wp_ite]
    refine ⟨fun hr => ?_, fun hr => ?_⟩
    · -- the byte is in user memory, and the loop goes on
      have hlen : r.1.length = 1 := hok.1 hr
      rw [hlen] at hw
      have hlow := (hw.reach 0 (by omega)).1
      refine (ih (i + 1) _ (hw.walk.user hu) (by unfold Vm.MAXVA at hlow; omega)).post fun q k' hq => ?_
      obtain ⟨c, hret, hd⟩ := hq
      have hstored := hd.stored
      have hpipes := hd.pipes
      have hone : { k.pipes pi with nread := (k.pipes pi).nread + 1 } = (k.pipes pi).advance 1 := rfl
      simp only [update_self, hone] at hstored hpipes
      refine ⟨c + 1, by rw [hret]; congr 1; omega, ?_, ?_⟩
      · rw [hheld, List.take_succ_cons, Nat.add_comm c 1]
        have hfirst : Vm.Wrote k.mem m pt (addr + i) [(k.pipes pi).next] [(k.pipes pi).next].length := hw
        exact hfirst.append hstored
      · rw [hpipes, Function.update_idem, Pipe.advance_advance, hheld, List.take_succ_cons, List.length_cons]
        congr 2
        split <;> split <;> omega
    · -- the byte is lost
      have h0 : r.1.length = 0 := by
        have hle := hw.le
        have hne : r.1.length ≠ 1 := fun e => hr (hok.2 e)
        simp only [List.length_singleton] at hle
        omega
      rw [h0] at hw
      refine (wp_pure _).2
        ⟨0, rfl, ⟨hw.kept, hw.walk, Nat.zero_le _, fun j hj => absurd hj (Nat.not_lt_zero j),
        fun _ => hw.stop (by simp), fun j hj => absurd hj (Nat.not_lt_zero j), hw.miss⟩, ?_⟩
      rw [hheld, List.take_succ_cons, List.length_cons, if_pos (Nat.succ_pos _)]
      rfl

/-! ## The call -/

/-- The bytes that a call asks for, of those in the pipe. -/
def wanted (pi : Pipe) (n : Int32) : List UInt8 := pi.held.take n.toInt.toNat

/-- From `k` to `k'` exactly the bytes are off the ring that `r` counts and user memory has got. -/
def Lossless (pt pi addr : Nat) (k : Kern) (r : Int) (k' : Kern) : Prop :=
  (r = -1 ∧ (k'.pipes pi).nread = (k.pipes pi).nread) ∨
    ∃ c : Nat, r = c ∧ k'.pipes = update k.pipes pi ((k.pipes pi).advance c) ∧
      Vm.Wrote k.mem k'.mem pt addr ((k.pipes pi).held.take c) c

section
variable {pt pi addr n : Nat} {k k' : Kern} {c : Nat} (hd : Drained pt pi addr n k c k')
include hd

/-- Once the loop stops early, the counter is one ahead of the value. -/
theorem Drained.lossless_iff : Lossless pt pi addr k c k' ↔ c = ((k.pipes pi).held.take n).length := by
  have hpipes := hd.pipes
  have hst := hd.stored
  refine ⟨fun h => ?_, fun hall => .inr ⟨c, rfl, ?_, ?_⟩⟩
  · rcases h with ⟨h, -⟩ | ⟨d, hdc, hp, -⟩
    · omega
    obtain rfl : c = d := by omega
    by_contra hne
    rw [if_pos (Nat.lt_of_le_of_ne hst.le hne), hp] at hpipes
    have hread := congrArg (fun f : Nat → Pipe => (f pi).nread) hpipes
    simp only [update_self, Pipe.advance, UInt32.ofNat_add, ← UInt32.add_assoc] at hread
    exact absurd (UInt32.left_eq_add.1 hread) (by decide)
  · rwa [if_neg (by rw [hall]; exact Nat.lt_irrefl _), Nat.add_zero] at hpipes
  · have hlen := List.length_take_le n (k.pipes pi).held
    have := hst.take
    rwa [List.take_take, Nat.min_eq_left (by omega)] at this

end

/-- `piperead` waits until `k1`. If it has been killed it returns -1 and leaves
everything as it is; if not, no byte is lost exactly when all the addresses of
the bytes that it wants are mapped, and then it returns their number. -/
theorem piperead_exact {pt pi : Nat} (addr : UInt64) (n : Int32) {ws : List Wake} {k k1 : Kern}
    {w : Option (List Wake)} (hwait : pipeWait pi ws k = .ok (w, k1)) (hu : Vm.UserTable k1.mem pt) :
    ∃ r k', piperead pt pi addr.toNat n ws k = .ok (r, k') ∧
      (w = none → r.1 = -1 ∧ k' = k1) ∧
      (Lossless pt pi addr.toNat k1 r.1 k' ↔
        w = none ∨ ∀ i, i < (wanted (k1.pipes pi) n).length → Vm.Accessible k1.mem pt (addr.toNat + i)) ∧
      (w ≠ none → Lossless pt pi addr.toNat k1 r.1 k' →
        r.1 = (min n.toInt.toNat (k1.pipes pi).held.length : Nat)) := by
  unfold piperead
  rw [bind_ok hwait]
  cases w with
  | none => exact ⟨_, _, rfl, fun _ => ⟨rfl, rfl⟩, ⟨fun _ => .inl rfl, fun _ => .inl ⟨rfl, rfl⟩⟩, nofun⟩
  | some ws' =>
    obtain ⟨r, k', hrun, c, hret, hd⟩ :=
      (pipeCopy_drains pt pi addr.toNat n.toInt.toNat 0 [] hu addr.toNat_lt).returns
    rw [Nat.zero_add] at hret
    rw [Nat.add_zero] at hd
    refine ⟨r, k', hrun, nofun, ?_, fun _ => ?_⟩
    · rw [hret, hd.lossless_iff, or_iff_right (by simp)]
      exact hd.stored.all_iff
    · rw [hret, hd.lossless_iff, List.length_take]
      exact fun hall => congrArg _ hall

/-- A pipe with the bytes 1 and 2, and user memory of one page. -/
def twoBytes : Kern :=
  { hundred with
    pipes := fun _ =>
      { data := fun i => if i = 0 then 1 else 2, nread := 0, nwrite := 2,
        readopen := true, writeopen := true } }

/-- Both bytes are read to the middle of the page. -/
theorem piperead_exact_twoBytes :
    ∃ r k', piperead 0x80010000 0 (100 : UInt64).toNat 2 [] twoBytes = .ok (r, k') ∧
    r.1 = 2 ∧ (k'.pipes 0).nread = 2 ∧ Vm.Wrote Vm.onePage k'.mem 0x80010000 100 [1, 2] 2 := by
  have hmapped : ∀ i, i < 2 → Vm.Accessible Vm.onePage 0x80010000 (100 + i) :=
    fun i hi => Vm.accessible_onePage.2 (by unfold Vm.PGSIZE; omega)
  have hwait : pipeWait 0 [] twoBytes = .ok (some [], twoBytes) := rfl
  obtain ⟨r, k', hrun, -, hiff, hval⟩ := piperead_exact 100 2 hwait Vm.userTable_onePage
  have hno := hiff.2 (.inr hmapped)
  have hret : r.1 = 2 := hval (by simp) hno
  rcases hno with ⟨h, -⟩ | ⟨c, hc, hp, hw⟩
  · rw [h] at hret; cases hret
  obtain rfl : c = 2 := by omega
  exact ⟨r, k', hrun, hret, by rw [hp, update_self]; rfl, hw⟩

/-- The second byte does not fit: the call returns 1, and the pipe is empty. -/
theorem piperead_loses :
    ∃ r k', piperead 0x80010000 0 (4095 : UInt64).toNat 2 [] twoBytes = .ok (r, k') ∧ r.1 = 1 ∧
    (twoBytes.pipes 0).held = [1, 2] ∧ (k'.pipes 0).nread = (twoBytes.pipes 0).nread + 2 ∧
    (k'.pipes 0).held = [] := by
  have h : ((piperead 0x80010000 0 (4095 : UInt64).toNat 2 [] twoBytes).map fun x =>
      (x.1.1, (x.2.pipes 0).nread, (x.2.pipes 0).held)) = .ok (1, 2, []) := by decide +kernel
  obtain ⟨r, k', hrun, hr⟩ := Prog.ok_of_map h
  obtain ⟨h1, h2⟩ := Prod.mk.inj hr
  obtain ⟨h2, h3⟩ := Prod.mk.inj h2
  exact ⟨r, k', hrun, h1, by decide, h2, h3⟩

end File
end Xv6
