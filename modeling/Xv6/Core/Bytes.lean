import Mathlib.Data.Fin.Basic
import Mathlib.Data.Nat.Bitwise
import Mathlib.Tactic.Ring

/-!
# Fixed-size byte arrays with little-endian fields

Disk blocks and physical pages are byte arrays in which the code overlays
words (`(uint*)bp->data`), structures and strings. Everything the code
stores is one operation, `splice` (what `memmove` into the array does);
`getLE` and `setLE` read and write an unsigned little-endian field.

* `get_splice`: a byte after a splice is the source's or the old one.
* `getLE_setLE`: a field reads back the value written, modulo its width.
* `getLE_splice_disjoint`: a field outside the spliced range is unchanged.
* `bit_setBit`, `bit_clearBit`: the array as a bitmap.
-/
namespace Xv6

/-- `uchar data[n]`. -/
abbrev Bytes (n : Nat) := Fin n → UInt8

namespace Bytes
variable {n : Nat}

def zero : Bytes n := fun _ => 0

def get (b : Bytes n) (i : Nat) : UInt8 := if h : i < n then b ⟨i, h⟩ else 0

/-- `memmove(b + off, src, len)`, clipped to the array. -/
def splice (b : Bytes n) (off len : Nat) (src : Nat → UInt8) : Bytes n :=
  fun i => if off ≤ i.1 ∧ i.1 < off + len then src (i.1 - off) else b i

/-- The `k`-byte little-endian number at `off`. -/
def readLE (f : Nat → UInt8) : Nat → Nat → Nat
  | _, 0 => 0
  | off, k + 1 => (f off).toNat + 256 * readLE f (off + 1) k

/-- Byte `i` of the little-endian encoding of `v`. -/
def leByte (v i : Nat) : UInt8 := UInt8.ofNat (v / 256 ^ i)

def getLE (b : Bytes n) (off k : Nat) : Nat := readLE b.get off k

def setLE (b : Bytes n) (off k v : Nat) : Bytes n := b.splice off k (leByte v)

variable {a b : Bytes n} {i off len k off' : Nat}

theorem ext_get (h : ∀ i, i < n → a.get i = b.get i) : a = b := by
  funext i
  have := h i.1 i.2
  simpa [get, i.2] using this

theorem get_of_ge (b : Bytes n) (h : n ≤ i) : b.get i = 0 := by
  simp [get, Nat.not_lt.2 h]

@[simp] theorem get_zero (i : Nat) : (zero : Bytes n).get i = 0 := by
  simp [get, zero]

theorem get_splice (b : Bytes n) (off len i : Nat) (src : Nat → UInt8) :
    (b.splice off len src).get i =
      if off ≤ i ∧ i < off + len ∧ i < n then src (i - off) else b.get i := by
  by_cases hn : i < n <;> simp [get, splice, hn]

theorem get_splice_in (b : Bytes n) (src : Nat → UInt8) (h1 : off ≤ i)
    (h2 : i < off + len) (h3 : i < n) : (b.splice off len src).get i = src (i - off) := by
  rw [get_splice, if_pos ⟨h1, h2, h3⟩]

theorem get_splice_out (b : Bytes n) (src : Nat → UInt8)
    (h : i < off ∨ off + len ≤ i) : (b.splice off len src).get i = b.get i := by
  rw [get_splice, if_neg (by omega)]

theorem splice_congr (b : Bytes n) {src src' : Nat → UInt8} (h : ∀ i, i < len → src i = src' i) :
    b.splice off len src = b.splice off len src' := by
  funext i
  unfold splice
  split
  · exact h _ (by omega)
  · rfl

/-! ## Little-endian numbers -/

theorem readLE_congr {f g : Nat → UInt8} (h : ∀ i, i < k → f (off + i) = g (off + i)) :
    readLE f off k = readLE g off k := by
  induction k generalizing off with
  | zero => rfl
  | succ k ih =>
    have h0 : f off = g off := h 0 (by omega)
    have hs : readLE f (off + 1) k = readLE g (off + 1) k :=
      ih (fun i hi => by have := h (i + 1) (by omega); rwa [← Nat.add_assoc, Nat.add_right_comm] at this)
    simp only [readLE, h0, hs]

theorem readLE_lt (f : Nat → UInt8) (off k : Nat) : readLE f off k < 256 ^ k := by
  induction k generalizing off with
  | zero => simp [readLE]
  | succ k ih =>
    have h1 := (f off).toNat_lt
    have h2 := ih (off + 1)
    simp only [readLE, Nat.pow_succ]
    omega

theorem leByte_zero (v : Nat) : (leByte v 0).toNat = v % 256 := by
  simp [leByte]

theorem leByte_succ (v i : Nat) : leByte v (i + 1) = leByte (v / 256) i := by
  rw [leByte, leByte, Nat.pow_succ', Nat.div_div_eq_div_mul]

theorem readLE_leByte (v off k : Nat) :
    readLE (fun j => leByte v (j - off)) off k = v % 256 ^ k := by
  induction k generalizing v off with
  | zero => simp [readLE, Nat.mod_one]
  | succ k ih =>
    have hs : readLE (fun j => leByte v (j - off)) (off + 1) k =
        readLE (fun j => leByte (v / 256) (j - (off + 1))) (off + 1) k := by
      apply readLE_congr
      intro i _
      rw [show off + 1 + i - off = i + 1 by omega, show off + 1 + i - (off + 1) = i by omega, leByte_succ]
    rw [readLE, Nat.sub_self, leByte_zero, hs, ih, Nat.pow_succ', Nat.mod_mul]

/-! ## Fields -/

theorem getLE_lt (b : Bytes n) (off k : Nat) : b.getLE off k < 256 ^ k := readLE_lt _ _ _

theorem getLE_congr (h : ∀ i, off ≤ i → i < off + k → a.get i = b.get i) :
    a.getLE off k = b.getLE off k :=
  readLE_congr (fun i hi => h (off + i) (by omega) (by omega))

theorem getLE_setLE (b : Bytes n) (v : Nat) (h : off + k ≤ n) :
    (b.setLE off k v).getLE off k = v % 256 ^ k := by
  rw [← readLE_leByte v off k]
  apply readLE_congr
  intro i hi
  rw [setLE, get_splice_in _ _ (by omega) (by omega) (by omega)]

theorem getLE_splice_disjoint (b : Bytes n) (src : Nat → UInt8)
    (h : off' + k ≤ off ∨ off + len ≤ off') :
    (b.splice off len src).getLE off' k = b.getLE off' k :=
  getLE_congr (fun i h1 h2 => get_splice_out _ _ (by omega))

theorem getLE_setLE_disjoint (b : Bytes n) {k' : Nat} (v : Nat)
    (h : off' + k' ≤ off ∨ off + k ≤ off') :
    (b.setLE off k v).getLE off' k' = b.getLE off' k' :=
  getLE_splice_disjoint b _ h

theorem getLE_zero (off k : Nat) : (zero : Bytes n).getLE off k = 0 := by
  rw [getLE, show readLE (zero : Bytes n).get off k = readLE (fun j => leByte 0 (j - off)) off k from
    readLE_congr (fun i _ => by simp [leByte]), readLE_leByte, Nat.zero_mod]

/-! ## 32-bit words -/

/-- `((uint*)b)[i]`. -/
def word (b : Bytes n) (i : Nat) : UInt32 := UInt32.ofNat (b.getLE (4 * i) 4)

/-- `((uint*)b)[i] = v`. -/
def setWord (b : Bytes n) (i : Nat) (v : UInt32) : Bytes n := b.setLE (4 * i) 4 v.toNat

theorem word_setWord (b : Bytes n) (v : UInt32) (h : 4 * i + 4 ≤ n) :
    (b.setWord i v).word i = v := by
  have hv := v.toNat_lt
  rw [word, setWord, getLE_setLE b v.toNat h, Nat.mod_eq_of_lt (by simpa using hv)]
  simp

theorem word_setWord_ne (b : Bytes n) {j : Nat} (v : UInt32) (h : i ≠ j) :
    (b.setWord i v).word j = b.word j := by
  rw [word, setWord, getLE_setLE_disjoint b v.toNat (by omega)]; rfl

@[simp] theorem word_zero (i : Nat) : (zero : Bytes n).word i = 0 := by
  rw [word, getLE_zero]; rfl

/-! ## Bits -/

/-- `1 << (i % 8)` -/
def bitMask (i : Nat) : UInt8 := 1 <<< UInt8.ofNat (i % 8)

/-- `(b[i/8] & (1 << (i % 8))) != 0` -/
def bit (b : Bytes n) (i : Nat) : Bool := b.get (i / 8) &&& bitMask i != 0

/-- `b[i/8] |= 1 << (i % 8)` -/
def setBit (b : Bytes n) (i : Nat) : Bytes n := b.splice (i / 8) 1 fun _ => b.get (i / 8) ||| bitMask i

/-- `b[i/8] &= ~(1 << (i % 8))` -/
def clearBit (b : Bytes n) (i : Nat) : Bytes n := b.splice (i / 8) 1 fun _ => b.get (i / 8) &&& ~~~bitMask i

theorem bitMask_toNat (i : Nat) : (bitMask i).toNat = 2 ^ (i % 8) := by
  have h : ∀ k, k < 8 → ((1 : UInt8) <<< UInt8.ofNat k).toNat = 2 ^ k := by decide
  exact h (i % 8) (Nat.mod_lt _ (by decide))

theorem and_bitMask_ne (x : UInt8) (i : Nat) : (x &&& bitMask i != 0) = x.toBitVec.getLsbD (i % 8) := by
  have h : (x &&& bitMask i).toNat = (x.toNat.testBit (i % 8)).toNat * 2 ^ (i % 8) := by
    rw [UInt8.toNat_and, bitMask_toNat, Nat.and_two_pow]
  have h0 : (x &&& bitMask i = 0) ↔ (x &&& bitMask i).toNat = 0 := by
    rw [← UInt8.toNat_inj]; rfl
  show _ = x.toNat.testBit (i % 8)
  cases hb : x.toNat.testBit (i % 8) with
  | true =>
    rw [bne_iff_ne, Ne, h0, h, hb]
    simp
  | false =>
    rw [bne_eq_false_iff_eq, h0, h, hb]
    simp

theorem bitMask_getLsbD (i j : Nat) : (bitMask i).toBitVec.getLsbD j = decide (i % 8 = j) := by
  show (bitMask i).toNat.testBit j = _
  rw [bitMask_toNat, Nat.testBit_two_pow]

theorem bit_setBit (b : Bytes n) (h : i / 8 < n) (j : Nat) :
    (b.setBit i).bit j = (decide (i = j) || b.bit j) := by
  unfold bit setBit
  by_cases e : i / 8 = j / 8
  · rw [get_splice_in _ _ (by omega) (by omega) (by omega), e, and_bitMask_ne,
      and_bitMask_ne, UInt8.toBitVec_or, BitVec.getLsbD_or, bitMask_getLsbD, Bool.or_comm]
    congr 1
    have : i % 8 = j % 8 ↔ i = j := by omega
    simp [this]
  · have hne : ¬i = j := fun e' => e (by rw [e'])
    rw [get_splice_out _ _ (by omega)]
    simp [hne]

theorem bit_clearBit (b : Bytes n) (h : i / 8 < n) (j : Nat) :
    (b.clearBit i).bit j = (!decide (i = j) && b.bit j) := by
  have hj : j % 8 < 8 := Nat.mod_lt _ (by decide)
  unfold bit clearBit
  by_cases e : i / 8 = j / 8
  · rw [get_splice_in _ _ (by omega) (by omega) (by omega), e, and_bitMask_ne,
      and_bitMask_ne, UInt8.toBitVec_and,
      UInt8.toBitVec_not, BitVec.getLsbD_and, BitVec.getLsbD_not, bitMask_getLsbD, Bool.and_comm]
    congr 1
    have : i % 8 = j % 8 ↔ i = j := by omega
    simp [this, hj]
  · have hne : ¬i = j := fun e' => e (by rw [e'])
    rw [get_splice_out _ _ (by omega)]
    simp [hne]

end Bytes
end Xv6
