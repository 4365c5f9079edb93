import Mathlib.Data.List.Basic
import Mathlib.Tactic.Ring
import Mathlib.Data.UInt

/-!
# Formatted output (`user/printf.c`)

The format is the list of its bytes before the NUL. The output is what `putc`
writes, in order. A store past `printint`'s buffer, or an argument of another type than `va_arg`
asks for, has no result.

* `readNat`: reading a numeral back; `digitLoop_left` and `hexLoop_read` say that it undoes the two loops.
* `printint_signed`: the sign is split off without loss, at the least `int` too.
* `numeral_le`: a numeral without leading zeros is the shortest one.
* `vprintf_prints`: every directive denotes its argument if and only if no argument of `%l` needs more
  than 32 bits.
* `long_truncated`: an argument of `%l` goes through the `int` parameter of `printint`.
-/
namespace Xv6.Printf

def ch (c : Char) : UInt8 := c.toUInt8

/-! ## The code -/

/-- mirrors user/printf.c:7 -/
def digits : List UInt8 := "0123456789ABCDEF".toList.map ch

def digit (i : Nat) : UInt8 := digits.getD i 0

/-- The `do` loop, with so many cells of `buf` left.
mirrors user/printf.c:30-33 -/
def digitLoop (base : UInt32) : Nat → UInt32 → Option (List UInt8)
  | 0, _ => none
  | k + 1, x =>
    let c := digit (x % base).toNat
    if x / base = 0 then some [c] else (digitLoop base k (x / base)).map (c :: ·)

/-- mirrors user/printf.c:15-39 -/
def printint (xx : Int32) (base : UInt32) (sgn : Bool) : Option (List UInt8) := do
  let neg := sgn && decide (xx < 0)
  let x := if neg then (-xx).toUInt32 else xx.toUInt32
  let buf ← digitLoop base 16 x
  let buf ← (if neg then (if buf.length < 16 then some (buf ++ [ch '-']) else none) else some buf)
  some buf.reverse

/-- mirrors user/printf.c:46-47 -/
def hexLoop : Nat → UInt64 → List UInt8
  | 0, _ => []
  | k + 1, x => digit (x >>> 60).toNat :: hexLoop k (x <<< 4)

/-- mirrors user/printf.c:41-48 -/
def printptr (x : UInt64) : List UInt8 := ch '0' :: ch 'x' :: hexLoop 16 x

/-- An argument, of the type that the caller gave it. A `char *` may be null. -/
inductive Arg where
  | int (x : Int32)
  | uint64 (x : UInt64)
  | str (s : Option (List UInt8))
  | uint (c : UInt32)

/-- What is printed for `%` and `c`, and the arguments that are left.
`printint` takes an `int`, whatever is given to it.
mirrors user/printf.c:67-91 -/
def directive (c : UInt8) (ap : List Arg) : Option (List UInt8 × List Arg) :=
  if c = ch 'd' then match ap with
    | .int x :: ap => (printint x 10 true).map (·, ap)
    | _ => none
  else if c = ch 'l' then match ap with
    | .uint64 x :: ap => (printint x.toUInt32.toInt32 10 false).map (·, ap)
    | _ => none
  else if c = ch 'x' then match ap with
    | .int x :: ap => (printint x 16 false).map (·, ap)
    | _ => none
  else if c = ch 'p' then match ap with
    | .uint64 x :: ap => some (printptr x, ap)
    | _ => none
  else if c = ch 's' then match ap with
    | .str s :: ap => some (s.getD ("(null)".toList.map ch), ap)
    | _ => none
  else if c = ch 'c' then match ap with
    | .uint c :: ap => some ([c.toUInt8], ap)
    | _ => none
  else if c = ch '%' then some ([c], ap)
  else some ([ch '%', c], ap)

/-- The loop over the format; `state` is `'%'` after a `%`.
mirrors user/printf.c:58-95 -/
def vprintf : (state : Bool) → (fmt : List UInt8) → (ap : List Arg) → Option (List UInt8)
  | _, [], _ => some []
  | false, c :: fmt, ap => if c = ch '%' then vprintf true fmt ap else (vprintf false fmt ap).map (c :: ·)
  | true, c :: fmt, ap => do
    let (out, ap) ← directive c ap
    (vprintf false fmt ap).map (out ++ ·)

/-! ## Numerals -/

/-- `v` is the value of what has been read. -/
def readFrom (b : Nat) (v : Nat) (ds : List UInt8) : Option Nat :=
  ds.foldlM (fun v c => (digits.idxOf? c).bind fun d => if d < b then some (b * v + d) else none) v

def readNat (b : Nat) (ds : List UInt8) : Option Nat := readFrom b 0 ds

/-- A numeral without leading zeros. -/
structure Numeral (b : Nat) (v : Nat) (ds : List UInt8) : Prop where
  ne_nil : ds ≠ []
  read : readNat b ds = some v
  lead : ds.head? = some (ch '0') → ds = [ch '0']

variable {d b v k : Nat} {xx : Int32}

theorem idxOf_digit (h : d < 16) : digits.idxOf? (digit d) = some d := by
  revert h; revert d; decide

theorem digit_zero (h : d < 16) : digit d = ch '0' ↔ d = 0 := by
  revert h; revert d; decide

theorem readFrom_cons (hd : d < b) (hb : b ≤ 16) (ds : List UInt8) :
    readFrom b v (digit d :: ds) = readFrom b (b * v + d) ds := by
  simp [readFrom, idxOf_digit (Nat.lt_of_lt_of_le hd hb), hd]

theorem readNat_append (hd : d < b) (hb : b ≤ 16) {ds : List UInt8} (h : readNat b ds = some v) :
    readNat b (ds ++ [digit d]) = some (b * v + d) := by
  rw [readNat, readFrom] at *
  simp [h, idxOf_digit (Nat.lt_of_lt_of_le hd hb), hd]

theorem getElem?_of_idxOf {l : List UInt8} {c : UInt8} (h : l.idxOf? c = some d) : l[d]? = some c := by
  rw [List.idxOf?, List.findIdx?_eq_some_iff_getElem] at h
  obtain ⟨hlt, he, -⟩ := h
  rw [List.getElem?_eq_getElem hlt, eq_of_beq he]

theorem readFrom_cons_some {r : Nat} {c : UInt8} {ds : List UInt8} (h : readFrom b v (c :: ds) = some r) :
    ∃ d, digits.idxOf? c = some d ∧ d < b ∧ readFrom b (b * v + d) ds = some r := by
  rw [readFrom, List.foldlM_cons] at h
  obtain ⟨w, hw, hr⟩ := Option.bind_eq_some_iff.1 h
  obtain ⟨d, hd, hw⟩ := Option.bind_eq_some_iff.1 hw
  split at hw
  · cases hw; exact ⟨d, hd, ‹_›, hr⟩
  · cases hw

/-- The value of so many digits after those of `v`. -/
theorem readFrom_bounds {r : Nat} {ds : List UInt8} (h : readFrom b v ds = some r) :
    v * b ^ ds.length ≤ r ∧ r < (v + 1) * b ^ ds.length := by
  induction ds generalizing v with
  | nil =>
    cases h
    simp
  | cons c ds ih =>
    obtain ⟨d, -, hd, h⟩ := readFrom_cons_some h
    obtain ⟨h1, h2⟩ := ih h
    have hlo : v * b ≤ b * v + d := by rw [Nat.mul_comm]; omega
    have hhi : b * v + d + 1 ≤ (v + 1) * b := by rw [Nat.add_mul, Nat.mul_comm]; omega
    rw [List.length_cons, Nat.pow_succ', ← Nat.mul_assoc, ← Nat.mul_assoc]
    exact ⟨Nat.le_trans (Nat.mul_le_mul_right _ hlo) h1, Nat.lt_of_lt_of_le h2 (Nat.mul_le_mul_right _ hhi)⟩

/-- Without leading zeros a numeral is no longer than one of a larger number. -/
theorem numeral_le {w : Nat} {ds es : List UInt8} (h1 : 1 < b) (h : Numeral b v ds) (h' : Numeral b w es)
    (hle : v ≤ w) : ds.length ≤ es.length := by
  cases ds with
  | nil => exact Nat.zero_le _
  | cons c ds =>
    obtain ⟨d, hc, -, hr⟩ := readFrom_cons_some h.read
    have hpos := List.length_pos_iff.2 h'.ne_nil
    by_cases hd : d = 0
    · have hzero : c = ch '0' := by
        have := getElem?_of_idxOf hc
        rw [hd] at this
        exact (Option.some.inj this).symm
      rw [h.lead (by rw [hzero]; rfl)]
      exact hpos
    · have hlo := (readFrom_bounds hr).1
      have hhi := (readFrom_bounds h'.read).2
      have hone : 1 * b ^ ds.length ≤ (b * 0 + d) * b ^ ds.length := Nat.mul_le_mul_right _ (by omega)
      rw [Nat.zero_add, Nat.one_mul] at hhi
      rw [Nat.one_mul] at hone
      have := (Nat.pow_lt_pow_iff_right h1).1 (show b ^ ds.length < b ^ es.length by omega)
      rw [List.length_cons]
      omega

/-- What the loop leaves in `buf` for `x`, backwards. -/
structure Left (b : Nat) (x : UInt32) (k : Nat) (buf : List UInt8) : Prop where
  fits : buf.length ≤ k
  ne_nil : buf ≠ []
  read : readNat b buf.reverse = some x.toNat
  lead : x = 0 ∧ buf = [ch '0'] ∨ buf.reverse.head? ≠ some (ch '0')

theorem Left.numeral {x : UInt32} {buf : List UInt8} (h : Left b x k buf) : Numeral b x.toNat buf.reverse :=
  ⟨by simpa using h.ne_nil, h.read, fun e => h.lead.elim (fun h => by rw [h.2]; rfl) (absurd e)⟩

section
variable {base x : UInt32} {free k : Nat} {buf : List UInt8}

section
variable (h1 : 1 < base.toNat)
include h1

theorem div_zero_iff : x / base = 0 ↔ x.toNat < base.toNat := by
  rw [← UInt32.toNat_inj, UInt32.toNat_div]
  exact Nat.div_eq_zero_iff_lt (by omega)

theorem digitLoop_one (h16 : base.toNat ≤ 16) (hx : x.toNat < base.toNat) (free : Nat) :
    digitLoop base (free + 1) x = some [digit x.toNat] ∧ Left base.toNat x 1 [digit x.toNat] := by
  refine ⟨?_, by simp, by simp, ?_, ?_⟩
  · simp [digitLoop, (div_zero_iff h1).2 hx, Nat.mod_eq_of_lt hx]
  · simpa using readNat_append hx h16 (show readNat base.toNat [] = some 0 from rfl)
  · by_cases h0 : x = 0
    · exact .inl ⟨h0, by rw [h0]; rfl⟩
    · refine .inr ?_
      rw [← UInt32.toNat_inj] at h0
      simpa [digit_zero (Nat.lt_of_lt_of_le hx h16)] using h0

theorem digitLoop_more (h16 : base.toNat ≤ 16) (hx : ¬x.toNat < base.toNat)
    (h : digitLoop base free (x / base) = some buf) (hl : Left base.toNat (x / base) k buf) :
    digitLoop base (free + 1) x = some (digit (x.toNat % base.toNat) :: buf) ∧
      Left base.toNat x (k + 1) (digit (x.toNat % base.toNat) :: buf) := by
  have hne : x / base ≠ 0 := mt (div_zero_iff h1).1 hx
  refine ⟨?_, by simpa using hl.fits, by simp, ?_, .inr ?_⟩
  · simp [digitLoop, hne, h]
  · rw [List.reverse_cons, readNat_append (Nat.mod_lt _ (by omega)) h16 hl.read,
      UInt32.toNat_div, Nat.div_add_mod]
  · rw [List.reverse_cons, List.head?_append_of_ne_nil _ (by simpa using hl.ne_nil)]
    exact hl.lead.resolve_left fun h => hne h.1

/-- The loop ends within as many cells as the number may have digits. -/
theorem digitLoop_left (h16 : base.toNat ≤ 16) (free : Nat) (hx : x.toNat < base.toNat ^ (k + 1)) :
    ∃ buf, digitLoop base (k + 1 + free) x = some buf ∧ Left base.toNat x (k + 1) buf := by
  induction k generalizing x with
  | zero =>
    rw [Nat.add_comm (0 + 1)]
    exact ⟨_, digitLoop_one h1 h16 (by simpa using hx) free⟩
  | succ k ih =>
    rw [show k + 1 + 1 + free = k + 1 + free + 1 by omega]
    by_cases hlt : x.toNat < base.toNat
    · obtain ⟨e, hl⟩ := digitLoop_one h1 h16 hlt (k + 1 + free)
      exact ⟨_, e, Nat.le_trans hl.fits (by omega), hl.ne_nil, hl.read, hl.lead⟩
    · obtain ⟨buf, e, hl⟩ := ih (x := x / base) (by
        rw [UInt32.toNat_div, Nat.div_lt_iff_lt_mul (by omega)]
        rwa [Nat.pow_succ] at hx)
      exact ⟨_, digitLoop_more h1 h16 hlt e hl⟩

end

end

theorem toInt_eq (xx : Int32) :
    xx.toInt = if 2 * xx.toUInt32.toNat <
    2 ^ 32 then (xx.toUInt32.toNat : Int) else xx.toUInt32.toNat - 2 ^ 32 :=
  BitVec.toInt_eq_toNat_cond _

/-- `-xx` wraps for the least `int`, to the bits of its magnitude. -/
theorem neg_toNat (h : xx.toInt < 0) : ((-xx).toUInt32.toNat : Int) = -xx.toInt := by
  have e := toInt_eq xx
  rw [Int32.toUInt32_neg, UInt32.toNat_neg, show UInt32.size = 2 ^ 32 from rfl]
  split at e <;> omega

theorem toNat_of_nonneg (h : ¬xx.toInt < 0) : (xx.toUInt32.toNat : Int) = xx.toInt := by
  have hlt := xx.toUInt32.toNat_lt
  have e := toInt_eq xx
  split at e <;> omega

/-- What is read back from a numeral with a sign in front. -/
def SignedNumeral (v : Int) (out : List UInt8) : Prop :=
  if v < 0 then ∃ ds, out = ch '-' :: ds ∧ Numeral 10 v.natAbs ds else Numeral 10 v.toNat out

/-- 32 bits never fill the buffer. -/
theorem loop_ten (x : UInt32) : ∃ buf, digitLoop 10 16 x = some buf ∧ Left 10 x 10 buf :=
  digitLoop_left (show 1 < (10 : UInt32).toNat by decide) (by decide) 6 (by have := x.toNat_lt; simp; omega)

theorem loop_sixteen (x : UInt32) : ∃ buf, digitLoop 16 16 x = some buf ∧ Left 16 x 8 buf :=
  digitLoop_left (show 1 < (16 : UInt32).toNat by decide) (by decide) 8 (by have := x.toNat_lt; simp; omega)

theorem printint_signed (xx : Int32) :
    ∃ out, printint xx 10 true = some out ∧ SignedNumeral xx.toInt out := by
  have hneg : xx < 0 ↔ xx.toInt < 0 := by rw [Int32.lt_iff_toInt_lt]; rfl
  unfold SignedNumeral
  split
  · rename_i h
    obtain ⟨buf, e, hl⟩ := loop_ten (-xx).toUInt32
    have hlen : buf.length < 16 := Nat.lt_of_le_of_lt hl.fits (by decide)
    refine ⟨ch '-' ::
      buf.reverse, by simp only [printint, hneg, h, decide_true, Bool.and_self, if_true, e]; simp [hlen], ?_⟩
    rw [show xx.toInt.natAbs = (-xx).toUInt32.toNat by have := neg_toNat h; omega]
    exact ⟨_, rfl, hl.numeral⟩
  · rename_i h
    obtain ⟨buf, e, hl⟩ := loop_ten xx.toUInt32
    refine ⟨buf.reverse, by simp [printint, hneg, h, e], ?_⟩
    rw [show xx.toInt.toNat = xx.toUInt32.toNat by have := toNat_of_nonneg h; omega]
    exact hl.numeral

/-- `y` holds the last `k` hexadecimal digits at its upper end. -/
theorem hexLoop_read {r : Nat} {y : UInt64} (hk : k ≤ 16) (hr : r < 16 ^ k)
    (hy : y.toNat = r * 16 ^ (16 - k)) :
    readFrom 16 v (hexLoop k y) = some (v * 16 ^ k + r) ∧ (hexLoop k y).length = k := by
  induction k generalizing r v y with
  | zero => simp_all [hexLoop, readFrom]
  | succ k ih =>
    have hpos : 0 < 16 ^ k := Nat.pow_pos (by decide)
    have hd : r / 16 ^ k < 16 := by
      rw [Nat.div_lt_iff_lt_mul hpos]
      rwa [Nat.pow_succ'] at hr
    have hsplit : ∀ e, k ≤ e → 16 ^ e = 16 ^ k * 16 ^ (e - k) := fun e he => by
      rw [← Nat.pow_add, Nat.add_sub_cancel' he]
    have htop : (y >>> 60).toNat = r / 16 ^ k := by
      rw [UInt64.toNat_shiftRight, hy, show 16 - (k + 1) = 15 - k by omega]
      change _ >>> 60 = _
      rw [Nat.shiftRight_eq_div_pow, show 2 ^ 60 = 16 ^ 15 by rfl, hsplit 15 (by omega),
        Nat.mul_div_mul_right _ _ (Nat.pow_pos (by decide))]
    have hrest : (y <<< 4).toNat = r % 16 ^ k * 16 ^ (16 - k) := by
      rw [UInt64.toNat_shiftLeft, hy]
      change _ <<< 4 % _ = _
      rw [Nat.shiftLeft_eq, Nat.mul_assoc, show 16 ^ (16 - (k + 1)) * 2 ^ 4 = 16 ^ (16 - k) by
        rw [show 16 - k = 16 - (k + 1) + 1 by omega]; rfl,
        show 2 ^ 64 = 16 ^ 16 by rfl, hsplit 16 (by omega), Nat.mul_mod_mul_right]
    obtain ⟨h1, h2⟩ := ih (v := 16 * v + r / 16 ^ k) (by omega) (Nat.mod_lt r hpos) hrest
    refine ⟨?_, by simp [hexLoop, h2]⟩
    rw [hexLoop, htop, readFrom_cons hd (by decide), h1, Option.some.injEq, Nat.pow_succ',
      Nat.add_mul, Nat.add_assoc, Nat.div_add_mod', Nat.mul_right_comm, Nat.mul_comm v]

/-! ## Formats -/

/-- `a` is an argument for the directive `d`. -/
inductive Takes : UInt8 → Arg → Prop
  | d (x : Int32) : Takes (ch 'd') (.int x)
  | x (x : Int32) : Takes (ch 'x') (.int x)
  | l (x : UInt64) : Takes (ch 'l') (.uint64 x)
  | p (x : UInt64) : Takes (ch 'p') (.uint64 x)
  | s (s : Option (List UInt8)) : Takes (ch 's') (.str s)
  | c (c : UInt32) : Takes (ch 'c') (.uint c)

/-- Every `%` of the format is followed by a second one or by a directive that takes its argument. -/
inductive Matches (takes : UInt8 → Arg → Prop) : List UInt8 → List Arg → Prop
  | nil : Matches takes [] []
  | copy {c fmt ap} (h : c ≠ ch '%') (rest : Matches takes fmt ap) : Matches takes (c :: fmt) ap
  | percent {fmt ap} (rest : Matches takes fmt ap) : Matches takes (ch '%' :: ch '%' :: fmt) ap
  | directive {d a fmt ap} (h : takes d a) (rest : Matches takes fmt ap) :
    Matches takes (ch '%' :: d :: fmt) (a :: ap)

/-- `out` gives the argument back. -/
inductive Denotes : UInt8 → Arg → List UInt8 → Prop
  | d {x out} (h : SignedNumeral x.toInt out) : Denotes (ch 'd') (.int x) out
  | x {x out} (h : Numeral 16 x.toUInt32.toNat out) : Denotes (ch 'x') (.int x) out
  | l {x out} (h : Numeral 10 x.toNat out) : Denotes (ch 'l') (.uint64 x) out
  | p {x ds} (len : ds.length = 16) (h : readNat 16 ds = some x.toNat) :
      Denotes (ch 'p') (.uint64 x) (ch '0' :: ch 'x' :: ds)
  | s (s : List UInt8) : Denotes (ch 's') (.str (some s)) s
  | null : Denotes (ch 's') (.str none) ("(null)".toList.map ch)
  | c (c : UInt32) : Denotes (ch 'c') (.uint c) [c.toUInt8]

/-- The output is the format with every directive replaced by what denotes its argument. -/
inductive Prints : List UInt8 → List Arg → List UInt8 → Prop
  | nil : Prints [] [] []
  | copy {c fmt ap out} (h : c ≠ ch '%') (rest : Prints fmt ap out) : Prints (c :: fmt) ap (c :: out)
  | percent {fmt ap out} (rest : Prints fmt ap out) : Prints (ch '%' :: ch '%' :: fmt) ap (ch '%' :: out)
  | directive {d a piece fmt ap out} (h : Denotes d a piece) (rest : Prints fmt ap out) :
      Prints (ch '%' :: d :: fmt) (a :: ap) (piece ++ out)

/-- An argument of `%l` that an `int` does not cut. -/
def Short (d : UInt8) (a : Arg) : Prop := ∀ x, d = ch 'l' → a = .uint64 x → x.toNat < 2 ^ 32

theorem directive_denotes {d : UInt8} {a : Arg} (h : Takes d a) (hs : Short d a) (ap : List Arg) :
    ∃ out, directive d (a :: ap) = some (out, ap) ∧ Denotes d a out := by
  cases h with
  | d x =>
    obtain ⟨out, e, hn⟩ := printint_signed x
    exact ⟨out, by simp [directive, e], .d hn⟩
  | x x =>
    obtain ⟨buf, e, hl⟩ := loop_sixteen x.toUInt32
    refine ⟨buf.reverse, ?_, .x hl.numeral⟩
    simp [directive, printint, e, show ch 'x' ≠ ch 'd' by decide, show ch 'x' ≠ ch 'l' by decide]
  | l x =>
    obtain ⟨buf, e, hl⟩ := loop_ten x.toUInt32
    refine ⟨buf.reverse, by simp [directive, printint, e, show ch 'l' ≠ ch 'd' by decide], .l ?_⟩
    have hx : x.toUInt32.toNat = x.toNat := by simpa using hs x rfl rfl
    exact hx ▸ hl.numeral
  | p x =>
    obtain ⟨h1, h2⟩ := hexLoop_read (k := 16) (v := 0) (y := x) (Nat.le_refl _) x.toNat_lt (by simp)
    exact ⟨printptr x, rfl, .p h2 (by simpa [readNat] using h1)⟩
  | s s =>
    cases s with
    | none => exact ⟨_, rfl, .null⟩
    | some s => exact ⟨s, rfl, .s s⟩
  | c c => exact ⟨_, rfl, .c c⟩

theorem directive_percent (ap : List Arg) : directive (ch '%') ap = some ([ch '%'], ap) := rfl

theorem vprintf_short {fmt : List UInt8} {ap : List Arg}
    (h : Matches (fun d a => Takes d a ∧ Short d a) fmt ap) :
    ∃ out, vprintf false fmt ap = some out ∧ Prints fmt ap out := by
  induction h with
  | nil => exact ⟨[], rfl, .nil⟩
  | copy hc _ ih =>
    obtain ⟨out, e, hp⟩ := ih
    exact ⟨_, by simp [vprintf, hc, e], .copy hc hp⟩
  | percent _ ih =>
    obtain ⟨out, e, hp⟩ := ih
    exact ⟨_, by simp [vprintf, directive_percent, e], .percent hp⟩
  | @directive d a fmt ap hd _ ih =>
    obtain ⟨out, e, hp⟩ := ih
    obtain ⟨piece, e1, hd⟩ := directive_denotes hd.1 hd.2 ap
    exact ⟨_, by simp [vprintf, e1, e], .directive hd hp⟩

theorem denotes_le {d : UInt8} {a : Arg} {out piece : List UInt8} (h : Denotes d a out)
    (h' : Denotes d a piece) : out.length ≤ piece.length := by
  cases h with
  | d h =>
    cases h' with
    | d h' =>
      unfold SignedNumeral at h h'
      split at h
      · rename_i hneg
        rw [if_pos hneg] at h'
        obtain ⟨ds, rfl, hn⟩ := h
        obtain ⟨es, rfl, hn'⟩ := h'
        simpa using numeral_le (by decide) hn hn' (Nat.le_refl _)
      · rename_i hneg
        rw [if_neg hneg] at h'
        exact numeral_le (by decide) h h' (Nat.le_refl _)
  | x h =>
    cases h' with
    | x h' => exact numeral_le (by decide) h h' (Nat.le_refl _)
  | l h =>
    cases h' with
    | l h' => exact numeral_le (by decide) h h' (Nat.le_refl _)
  | p len _ =>
    cases h' with
    | p len' _ => simp [len, len']
  | s | null | c => cases h'; exact Nat.le_refl _

/-- What is printed is never longer than what denotes the
argument, and the same only if no digit is cut off. -/
theorem directive_le {d : UInt8} {a : Arg} (h : Takes d a) (ap : List Arg) :
    ∃ out, directive d (a :: ap) = some (out, ap) ∧
      ∀ piece, Denotes d a piece → out.length ≤ piece.length ∧ (out = piece → Short d a) := by
  by_cases hs : Short d a
  · obtain ⟨out, e, hd⟩ := directive_denotes h hs ap
    exact ⟨out, e, fun piece hp => ⟨denotes_le hd hp, fun _ => hs⟩⟩
  · cases h with
    | l x =>
      obtain ⟨buf, e, hl⟩ := loop_ten x.toUInt32
      have hx : x.toUInt32.toNat = x.toNat % 2 ^ 32 := by simp
      refine ⟨buf.reverse, by simp [directive, printint, e, show ch 'l' ≠ ch 'd' by decide],
        fun piece hp => ?_⟩
      cases hp with
      | l h =>
        refine ⟨numeral_le (by decide) hl.numeral h (by omega), fun e y _ hy => ?_⟩
        cases hy
        have := h.read.symm.trans (e ▸ hl.read)
        rw [Option.some.injEq] at this
        omega
    | _ => exact absurd (fun _ hl _ => absurd hl (by decide)) hs

theorem Takes.ne_percent {d : UInt8} {a : Arg} (h : Takes d a) : d ≠ ch '%' := by
  cases h <;> decide

/-- The pieces are no longer than they should be, so the same output has the same pieces. -/
theorem vprintf_le {fmt : List UInt8} {ap : List Arg} (h : Matches Takes fmt ap) :
    ∃ out, vprintf false fmt ap = some out ∧ ∀ o, Prints fmt ap o → out.length ≤ o.length ∧
      (out = o → Matches (fun d a => Takes d a ∧ Short d a) fmt ap) := by
  induction h with
  | nil => exact ⟨[], rfl, fun o _ => ⟨Nat.zero_le _, fun _ => .nil⟩⟩
  | @copy c _ _ hc _ ih =>
    obtain ⟨out, e, hp⟩ := ih
    refine ⟨c :: out, by simp [vprintf, hc, e], fun o ho => ?_⟩
    cases ho with
    | copy _ rest =>
      obtain ⟨hle, hm⟩ := hp _ rest
      exact ⟨Nat.succ_le_succ hle, fun e => .copy hc (hm (List.cons.inj e).2)⟩
    | percent | directive => exact absurd rfl hc
  | percent _ ih =>
    obtain ⟨out, e, hp⟩ := ih
    refine ⟨ch '%' :: out, by simp [vprintf, directive_percent, e], fun o ho => ?_⟩
    cases ho with
    | copy h _ => exact absurd rfl h
    | percent rest =>
      obtain ⟨hle, hm⟩ := hp _ rest
      exact ⟨Nat.succ_le_succ hle, fun e => .percent (hm (List.cons.inj e).2)⟩
    | directive h _ => cases h
  | @directive d a fmt ap hd _ ih =>
    obtain ⟨out, e, hp⟩ := ih
    obtain ⟨piece, e1, hpiece⟩ := directive_le hd ap
    refine ⟨piece ++ out, by simp [vprintf, e1, e], fun o ho => ?_⟩
    cases ho with
    | copy h _ => exact absurd rfl h
    | percent _ => exact absurd rfl hd.ne_percent
    | directive h rest =>
      obtain ⟨hle, hm⟩ := hp _ rest
      obtain ⟨hle', hs⟩ := hpiece _ h
      rw [List.length_append, List.length_append]
      refine ⟨by omega, fun e => ?_⟩
      have hlen := congrArg List.length e
      rw [List.length_append, List.length_append] at hlen
      obtain ⟨h1, h2⟩ := List.append_inj e (by omega)
      exact .directive ⟨hd, hs h1⟩ (hm h2)

/-- The call returns for every list of arguments that the format asks for; its output is the format with every
directive replaced by what denotes its argument if and only if the arguments of `%l` are less than 2^32. -/
theorem vprintf_prints {fmt : List UInt8} {ap : List Arg} (h : Matches Takes fmt ap) :
    ∃ out, vprintf false fmt ap = some out ∧
      (Prints fmt ap out ↔ Matches (fun d a => Takes d a ∧ Short d a) fmt ap) := by
  obtain ⟨out, e, hle⟩ := vprintf_le h
  refine ⟨out, e, fun hp => (hle out hp).2 rfl, fun hs => ?_⟩
  obtain ⟨out', e', hp⟩ := vprintf_short hs
  cases e.symm.trans e'
  exact hp

/-- `"%d %l"` with -5 and 7. -/
theorem vprintf_prints_two :
    Prints ("%d %l".toList.map ch) [.int (-5), .uint64 7] ("-5 7".toList.map ch) := by
  have hd : Takes (ch 'd') (.int (-5)) := .d _
  have hl : Takes (ch 'l') (.uint64 7) := .l _
  obtain ⟨out, e, hiff⟩ :=
    vprintf_prints (.directive hd (.copy (c := ch ' ') (by decide) (.directive hl .nil)))
  have hout : vprintf false ("%d %l".toList.map ch) [.int (-5), .uint64 7] =
      some ("-5 7".toList.map ch) := by decide
  cases e.symm.trans hout
  refine hiff.2
    (.directive ⟨hd, fun _ _ e => by cases e⟩ (.copy (by decide) (.directive ⟨hl, fun x _ e => ?_⟩ .nil)))
  cases e
  decide

/-- `%l` with 2^32 prints a zero. -/
theorem long_truncated : Matches Takes [ch '%', ch 'l'] [.uint64 (2 ^ 32)] ∧
    vprintf false [ch '%', ch 'l'] [.uint64 (2 ^ 32)] = some [ch '0'] ∧
    ¬Prints [ch '%', ch 'l'] [.uint64 (2 ^ 32)] [ch '0'] := by
  refine ⟨.directive (.l _) .nil, by decide, fun h => ?_⟩
  generalize ho : [ch '0'] = o at h
  cases h with
  | copy h => exact h rfl
  | directive h rest =>
    cases rest
    cases h with
    | l h =>
      rw [List.append_nil] at ho
      subst ho
      exact absurd h.read (by decide)

end Xv6.Printf
