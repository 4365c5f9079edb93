import Mathlib.Data.List.Forall2
import Mathlib.Data.List.TakeWhile

/-!
# The matcher of grep (`user/grep.c`)

A C string is the list of its bytes before the terminating NUL. The pattern
language is stated apart from the matcher: a regular expression is read as an
optional anchor, a list of items and an optional end mark, and a text matches
if some part of it splits into segments, one for each item.

* `matchstar_iff`: the loop of `matchstar` tries every number of repetitions.
* `matchhere_iff`: `matchhere` finds a split if there is one.
* `match_language`: `match` (`matchRe` here) is the pattern language. All three are recursive over
  the pattern and the text, so they terminate.
* `grep_lines`: however `read` splits the input, the loop of `grep` writes the
  lines that match up to the first one of more than 1022 bytes, so a line is
  missing exactly if it comes after such a line. `grep_long_line`: it can.
-/
namespace Xv6.Grep

/-! ## The code -/

/-- `'*'` -/
def STAR : UInt8 := 42
/-- `'.'` -/
def DOT : UInt8 := 46
/-- `'$'` -/
def DOLLAR : UInt8 := 36
/-- `'^'` -/
def CARET : UInt8 := 94

/-- `here` is `matchhere(re, ·)`. A pass of the loop looks at the text from
here on, and goes on past a character that `c` stands for.
mirrors user/grep.c:98-105 -/
def matchstar (c : UInt8) (here : List UInt8 → Bool) : List UInt8 → Bool
  | [] => here []
  | t :: text => here (t :: text) || (decide (t = c ∨ c = DOT) && matchstar c here text)

/-- `*text!='\0' && (re[0]=='.' || re[0]==*text)`, and then the rest.
mirrors user/grep.c:92-94 -/
def matchchar (c : UInt8) (here : List UInt8 → Bool) : List UInt8 → Bool
  | [] => false
  | t :: text => decide (c = DOT ∨ c = t) && here text

/-- Search for `re` at the beginning of the text.
mirrors user/grep.c:84-95 -/
def matchhere : List UInt8 → List UInt8 → Bool
  | [], _ => true
  | [c], text => if c = DOLLAR then text.isEmpty else matchchar c (fun _ => true) text
  | c :: d :: re, text =>
    if d = STAR then matchstar c (matchhere re) text else matchchar c (matchhere (d :: re)) text

/-- The loop of `match`: every place of the text, the end included.
mirrors user/grep.c:76-79 -/
def matchfrom (re : List UInt8) : List UInt8 → Bool
  | [] => matchhere re []
  | t :: text => matchhere re (t :: text) || matchfrom re text

/-- mirrors user/grep.c:71-81 -/
def matchRe (re text : List UInt8) : Bool :=
  if re.head? = some CARET then matchhere re.tail text else matchfrom re text

/-! ## The pattern language -/

/-- A character or `.`, which stands for any one, and whether it is repeated. -/
inductive Item where
  | one (c : UInt8)
  | star (c : UInt8)
  deriving DecidableEq, Repr

/-- `c` stands for the character `t`. -/
def Stands (c t : UInt8) : Prop := c = DOT ∨ t = c

def Item.Matches : Item → List UInt8 → Prop
  | one c, w => ∃ t, w = [t] ∧ Stands c t
  | star c, w => ∀ t ∈ w, Stands c t

structure Pattern where
  anchored : Bool
  items : List Item
  toEnd : Bool

/-- The items from here on, and whether a `$` ends them. -/
def readItems : List UInt8 → List Item × Bool
  | [] => ([], false)
  | [c] => if c = DOLLAR then ([], true) else ([.one c], false)
  | c :: d :: re =>
    if d = STAR then (.star c :: (readItems re).1, (readItems re).2)
    else (.one c :: (readItems (d :: re)).1, (readItems (d :: re)).2)

def Pattern.read (re : List UInt8) : Pattern :=
  let anchored := re.head? = some CARET
  let r := readItems (if anchored then re.tail else re)
  { anchored := anchored, items := r.1, toEnd := r.2 }

/-- `w` splits into consecutive segments, one for each item. -/
def Splits (items : List Item) (w : List UInt8) : Prop :=
  ∃ segments : List (List UInt8), segments.flatten = w ∧ List.Forall₂ Item.Matches items segments

/-- A part of the text matches, with its ends where the pattern asks for them. -/
def Pattern.Matches (p : Pattern) (text : List UInt8) : Prop :=
  ∃ before w after, text = before ++ w ++ after ∧ Splits p.items w ∧
    (p.anchored = true → before = []) ∧ (p.toEnd = true → after = [])

/-! ## Splits -/

variable {w text : List UInt8} {i : Item} {items : List Item} {c : UInt8} {here : List UInt8 → Bool}

theorem splits_nil : Splits [] w ↔ w = [] := by
  constructor
  · rintro ⟨segments, rfl, h⟩
    cases h
    rfl
  · rintro rfl
    exact ⟨[], rfl, .nil⟩

theorem splits_cons :
    Splits (i :: items) w ↔ ∃ u v, w = u ++ v ∧ i.Matches u ∧ Splits items v := by
  constructor
  · rintro ⟨segments, rfl, h⟩
    cases h with
    | cons hi hrest => exact ⟨_, _, rfl, hi, _, rfl, hrest⟩
  · rintro ⟨u, v, rfl, hi, segments, rfl, h⟩
    exact ⟨u :: segments, rfl, .cons hi h⟩

/-- The text starts with a match, which goes to the end if it has to. -/
def Starts (r : List Item × Bool) (text : List UInt8) : Prop :=
  ∃ w after, text = w ++ after ∧ Splits r.1 w ∧ (r.2 = true → after = [])

theorem starts_cons {toEnd : Bool} :
    Starts (i :: items, toEnd) text ↔ ∃ u rest, text = u ++ rest ∧ i.Matches u ∧
    Starts (items, toEnd) rest := by
  constructor
  · rintro ⟨w, after, rfl, hs, he⟩
    obtain ⟨u, v, rfl, hi, hv⟩ := splits_cons.1 hs
    exact ⟨u, v ++ after, List.append_assoc .., hi, v, after, rfl, hv, he⟩
  · rintro ⟨u, rest, rfl, hi, v, after, rfl, hv, he⟩
    exact ⟨u ++ v, after, (List.append_assoc ..).symm, splits_cons.2 ⟨u, v, rfl, hi, hv⟩, he⟩

/-! ## The matcher -/

theorem matchchar_iff :
    matchchar c here text = true ↔ ∃ u rest, text = u ++ rest ∧ (Item.one c).Matches u ∧
    here rest = true := by
  constructor
  · intro h
    cases text with
    | nil => cases h
    | cons t text =>
      simp only [matchchar, Bool.and_eq_true, decide_eq_true_eq] at h
      exact ⟨[t], text, rfl, ⟨t, rfl, h.1.imp_right Eq.symm⟩, h.2⟩
  · rintro ⟨-, rest, rfl, ⟨t, rfl, ht⟩, hr⟩
    simp only [List.singleton_append, matchchar, Bool.and_eq_true, decide_eq_true_eq]
    exact ⟨ht.imp_right Eq.symm, hr⟩

theorem matchstar_iff :
    matchstar c here text = true ↔ ∃ u rest, text = u ++ rest ∧ (Item.star c).Matches u ∧
    here rest = true := by
  induction text with
  | nil =>
    constructor
    · exact fun h => ⟨[], [], rfl, fun _ ht => absurd ht List.not_mem_nil, h⟩
    · rintro ⟨u, rest, e, -, hr⟩
      rw [(List.append_eq_nil_iff.1 e.symm).2] at hr
      exact hr
  | cons t text ih =>
    simp only [matchstar, Bool.or_eq_true, Bool.and_eq_true, decide_eq_true_eq, ih]
    constructor
    · rintro (h | ⟨ht, u, rest, rfl, hu, hr⟩)
      · exact ⟨[], t :: text, rfl, fun _ ht => absurd ht List.not_mem_nil, h⟩
      · refine ⟨t :: u, rest, rfl, fun t' ht' => ?_, hr⟩
        rcases List.mem_cons.1 ht' with rfl | ht'
        · exact ht.symm
        · exact hu t' ht'
    · rintro ⟨u, rest, e, hu, hr⟩
      cases u with
      | nil =>
        rw [List.nil_append] at e
        rw [e]
        exact .inl hr
      | cons t' u =>
        obtain ⟨rfl, rfl⟩ := List.cons.inj e
        exact .inr ⟨(hu t (List.mem_cons_self ..)).symm, u, rest, rfl,
          fun x hx => hu x (List.mem_cons_of_mem _ hx), hr⟩

/-- `matchhere` finds a match at the beginning of the text if there is one. -/
theorem matchhere_iff (re text : List UInt8) : matchhere re text = true ↔ Starts (readItems re) text := by
  -- the recursion of `matchhere` is that of `readItems`
  fun_induction readItems re generalizing text with
  | case1 =>
    simp only [matchhere, true_iff]
    exact ⟨[], text, rfl, splits_nil.2 rfl, fun h => by cases h⟩
  | case2 =>
    simp only [matchhere, if_true, List.isEmpty_iff]
    constructor
    · rintro rfl
      exact ⟨[], [], rfl, splits_nil.2 rfl, fun _ => rfl⟩
    · rintro ⟨w, after, rfl, hw, he⟩
      rw [splits_nil.1 hw, he rfl]
      rfl
  | case3 c hc =>
    rw [matchhere, if_neg hc, matchchar_iff, starts_cons]
    have hlast : ∀ rest, Starts ([], false) rest :=
      fun rest => ⟨[], rest, rfl, splits_nil.2 rfl, fun h => by cases h⟩
    simp only [hlast]
  | case4 c re ih =>
    rw [matchhere, if_pos rfl, matchstar_iff, starts_cons]
    simp only [ih]
  | case5 c d re hd ih =>
    rw [matchhere, if_neg hd, matchchar_iff, starts_cons]
    simp only [ih]

theorem matchfrom_iff (re text : List UInt8) :
    matchfrom re text = true ↔ ∃ before rest, text = before ++ rest ∧ matchhere re rest = true := by
  induction text with
  | nil =>
    constructor
    · exact fun h => ⟨[], [], rfl, h⟩
    · rintro ⟨before, rest, e, h⟩
      rw [(List.append_eq_nil_iff.1 e.symm).2] at h
      exact h
  | cons t text ih =>
    simp only [matchfrom, Bool.or_eq_true, ih]
    constructor
    · rintro (h | ⟨before, rest, rfl, h⟩)
      · exact ⟨[], t :: text, rfl, h⟩
      · exact ⟨t :: before, rest, rfl, h⟩
    · rintro ⟨before, rest, e, h⟩
      cases before with
      | nil =>
        rw [List.nil_append] at e
        rw [e]
        exact .inl h
      | cons t' before =>
        obtain ⟨rfl, rfl⟩ := List.cons.inj e
        exact .inr ⟨before, rest, rfl, h⟩

/-- `match` returns 1 exactly for the texts that the expression matches. -/
theorem match_language (re text : List UInt8) : matchRe re text = true ↔ (Pattern.read re).Matches text := by
  unfold matchRe Pattern.Matches Pattern.read
  by_cases hc : re.head? = some CARET
  · simp only [hc, if_true, decide_true, matchhere_iff, Starts]
    constructor
    · rintro ⟨w, after, rfl, hw, he⟩
      exact ⟨[], w, after, rfl, hw, fun _ => rfl, he⟩
    · rintro ⟨before, w, after, rfl, hw, hb, he⟩
      rw [hb trivial]
      exact ⟨w, after, rfl, hw, he⟩
  · simp only [hc, if_false, decide_false, matchfrom_iff, matchhere_iff, Starts]
    constructor
    · rintro ⟨before, -, rfl, w, after, rfl, hw, he⟩
      exact ⟨before, w, after, (List.append_assoc ..).symm, hw, fun h => Bool.noConfusion h, he⟩
    · rintro ⟨before, w, after, rfl, hw, -, he⟩
      exact ⟨before, w ++ after, List.append_assoc .., w, after, rfl, hw, he⟩

/-! ## The loop over the input

A pointer into `buf` is the list of the bytes from it up to `buf[m]`, which is NUL. -/

/-- `'\n'` -/
def NL : UInt8 := 10

/-- mirrors user/ulib.c:57-64 -/
def strchr (c : UInt8) : List UInt8 → Option Nat
  | [] => none
  | b :: s => if b = 0 then none else if b = c then some 0 else (strchr c s).map (· + 1)

theorem strchr_lt {p : List UInt8} {q : Nat} (h : strchr c p = some q) : q < p.length := by
  induction p generalizing q with
  | nil => cases h
  | cons b p ih =>
    unfold strchr at h
    split_ifs at h with h0 h1
    · cases h; simp
    · obtain ⟨k, hk, rfl⟩ := Option.map_eq_some_iff.1 h
      simpa using ih hk

/-- The inner loop from `p` on: what it writes, and `p` at the end.
mirrors user/grep.c:21-28 -/
def lineLoop (pattern : List UInt8) (p : List UInt8) : List UInt8 × List UInt8 :=
  match h : strchr NL p with
  | none => ([], p)
  | some q =>
    have := strchr_lt h
    let r := lineLoop pattern (p.drop (q + 1))
    (if matchRe pattern (p.take q) then p.take (q + 1) ++ r.1 else r.1, r.2)
termination_by p.length
decreasing_by simp only [List.length_drop]; omega

/-- What a `read` returns: a number from 1 to `request`, the one that is wanted if it can be had, and 0 at the
end of the input or if nothing is asked for. -/
def readCount (want request avail : Nat) : Nat := min (max 1 want) (min request avail)

/-- The bytes in `buf` before a `read`, the input that is left, and the sizes that the next reads would have.
`buf` has 1024 bytes.
mirrors user/grep.c:10-34 -/
def grep (pattern : List UInt8) (wants : Nat → Nat) (buf input : List UInt8) : List UInt8 :=
  let n := readCount (wants 0) (1024 - buf.length - 1) input.length
  if _h : n > 0 then
    let r := lineLoop pattern (buf ++ input.take n)
    r.1 ++ grep pattern (fun i => wants (i + 1)) r.2 (input.drop n)
  else []
termination_by input.length
decreasing_by
  have : n ≤ input.length := by simp only [n, readCount]; omega
  simp only [List.length_drop]; omega

/-! ## Lines -/

/-- The lines of a stream that end with a newline; `l` is the line so far. -/
def lines (l : List UInt8) : List UInt8 → List (List UInt8)
  | [] => []
  | b :: s => if b = NL then l :: lines [] s else lines (l ++ [b]) s

/-- What comes after the last newline. -/
def tail (l : List UInt8) : List UInt8 → List UInt8
  | [] => l
  | b :: s => if b = NL then tail [] s else tail (l ++ [b]) s

/-- The lines that match, each with its newline. -/
def accepted (pattern : List UInt8) (ls : List (List UInt8)) : List UInt8 :=
  (ls.filter (matchRe pattern)).flatMap (· ++ [NL])

section
variable {pattern l : List UInt8}

theorem lines_append (a b : List UInt8) : lines l (a ++ b) = lines l a ++ lines (tail l a) b := by
  induction a generalizing l with
  | nil => rfl
  | cons c a ih => by_cases hc : c = NL <;> simp [lines, tail, hc, ih]

theorem not_mem_tail (h : NL ∉ l) (s : List UInt8) : NL ∉ tail l s := by
  induction s generalizing l with
  | nil => exact h
  | cons b s ih =>
    by_cases hb : b = NL
    · simpa [tail, hb] using ih (l := []) (by simp)
    · simpa [tail, hb] using ih (l := l ++ [b]) (by simpa [Ne.symm hb] using h)

theorem tail_suffix (s : List UInt8) : tail l s <:+ l ++ s := by
  induction s generalizing l with
  | nil => simp [tail]
  | cons b s ih =>
    by_cases hb : b = NL
    · rw [tail, if_pos hb]
      exact (ih (l := [])).trans ((List.suffix_cons b s).trans (List.suffix_append l _))
    · simpa [tail, hb] using ih (l := l ++ [b])

variable {s p : List UInt8}

theorem lines_unended (h : NL ∉ s) : lines l s = [] ∧ tail l s = l ++ s := by
  induction s generalizing l with
  | nil => simp [lines, tail]
  | cons b s ih =>
    obtain ⟨hb, hs⟩ := not_or.1 (mt List.mem_cons.2 h)
    simpa [lines, tail, Ne.symm hb] using ih (l := l ++ [b]) hs

/-- The first line to end begins with what is there. -/
theorem lines_long (s : List UInt8) : ∀ x ∈ (lines l s).head?, l.length ≤ x.length := by
  induction s generalizing l with
  | nil => simp [lines]
  | cons b s ih =>
    by_cases hb : b = NL
    · simp [lines, hb]
    · rw [lines, if_neg hb]
      intro x hx
      have := ih x hx
      rw [List.length_append] at this
      omega

/-- A line that ends and its newline are in the stream. -/
theorem lines_lt (s : List UInt8) : ∀ x ∈ lines l s, x.length < l.length + s.length := by
  induction s generalizing l with
  | nil => simp [lines]
  | cons b s ih =>
    intro x hx
    by_cases hb : b = NL
    · rw [lines, if_pos hb, List.mem_cons] at hx
      rcases hx with rfl | hx
      · simp
      · have := ih x hx
        simp only [List.length_nil, List.length_cons] at this ⊢
        omega
    · rw [lines, if_neg hb] at hx
      have := ih x hx
      simp only [List.length_append, List.length_cons, List.length_nil] at this ⊢
      omega

theorem not_mem_lines (h : NL ∉ l) (s : List UInt8) : ∀ x ∈ lines l s, NL ∉ x := by
  induction s generalizing l with
  | nil => simp [lines]
  | cons b s ih =>
    by_cases hb : b = NL
    · simpa [lines, hb, h] using ih (l := []) (by simp)
    · simpa [lines, hb] using ih (l := l ++ [b]) (by simpa [Ne.symm hb] using h)

/-- The lines of what is written. -/
theorem lines_accepted {ls : List (List UInt8)} (h : ∀ x ∈ ls, NL ∉ x) :
    lines [] (accepted pattern ls) = ls.filter (matchRe pattern) := by
  induction ls with
  | nil => rfl
  | cons x ls ih =>
    have ih := ih fun y hy => h y (List.mem_cons_of_mem _ hy)
    obtain ⟨hnone, htail⟩ := lines_unended (l := []) (h x (List.mem_cons_self ..))
    cases hm : matchRe pattern x with
    | false => simpa [accepted, hm] using ih
    | true =>
      have e : accepted pattern (x :: ls) = x ++ NL :: accepted pattern ls := by simp [accepted, hm]
      rw [e, lines_append, hnone, htail, List.filter_cons_of_pos hm, List.nil_append, List.nil_append, lines,
        if_pos rfl, ih]

theorem strchr_none (h0 : 0 ∉ l) (h : NL ∉ l) : strchr NL l = none := by
  induction l with
  | nil => rfl
  | cons b l ih =>
    simp only [List.mem_cons, not_or] at h0 h
    simp [strchr, Ne.symm h0.1, Ne.symm h.1, ih h0.2 h.2]

theorem strchr_end (h0 : 0 ∉ l) (h : NL ∉ l) (s : List UInt8) : strchr NL (l ++ NL :: s) = some l.length := by
  induction l with
  | nil => rfl
  | cons b l ih =>
    simp only [List.mem_cons, not_or] at h0 h
    simp [strchr, Ne.symm h0.1, Ne.symm h.1, ih h0.2 h.2]

theorem lineLoop_none (h : strchr NL p = none) : lineLoop pattern p = ([], p) := by
  unfold lineLoop
  split
  · rfl
  · rename_i hq
    rw [h] at hq; cases hq

theorem lineLoop_some {q : Nat} (h : strchr NL p = some q) :
    lineLoop pattern p =
    ((if matchRe pattern (p.take q) then p.take (q + 1) ++ (lineLoop pattern (p.drop (q + 1))).1
      else (lineLoop pattern (p.drop (q + 1))).1), (lineLoop pattern (p.drop (q + 1))).2) := by
  rw [lineLoop]
  split
  · rename_i hq
    rw [h] at hq; cases hq
  · rename_i hq
    rw [h] at hq; cases hq
    rfl

/-- The inner loop finds the lines that end in the buffer. -/
theorem lineLoop_eq (h : NL ∉ l) (s : List UInt8) (h0 : 0 ∉ l ++ s) :
    lineLoop pattern (l ++ s) = (accepted pattern (lines l s), tail l s) := by
  induction s generalizing l with
  | nil =>
    rw [List.append_nil] at h0 ⊢
    exact lineLoop_none (strchr_none h0 h)
  | cons b s ih =>
    by_cases hb : b = NL
    · subst hb
      obtain ⟨hl, -, hs⟩ : 0 ∉ l ∧ 0 ≠ NL ∧ 0 ∉ s := by simpa [and_assoc] using h0
      have e := ih (l := []) (by simp) hs
      have hq : (l ++ [NL]).length = l.length + 1 := by simp
      have htake : (l ++ [NL] ++ s).take (l.length + 1) = l ++ [NL] := List.take_left' hq
      have hdrop : (l ++ [NL] ++ s).drop (l.length + 1) = s := List.drop_left' hq
      rw [List.nil_append] at e
      rw [List.append_assoc, List.singleton_append] at htake hdrop
      rw [lineLoop_some (strchr_end hl h s), htake, hdrop, e, List.take_left]
      cases hm : matchRe pattern l <;> simp [lines, tail, accepted, hm]
    · have e := ih (l := l ++ [b]) (by simpa [Ne.symm hb] using h) (by simpa using h0)
      simpa [lines, tail, hb] using e

theorem grep_stop {wants : Nat → Nat} (h : s = [] ∨ l.length = 1023) : grep pattern wants l s = [] := by
  rw [grep]
  refine dif_neg ?_
  rcases h with rfl | h <;> simp [readCount, *]

theorem grep_pass (pattern : List UInt8) (wants : Nat → Nat) (hl : l.length < 1023) (hs : s ≠ []) :
    ∃ n, 0 < n ∧ n ≤ s.length ∧ l.length + n ≤ 1023 ∧
      grep pattern wants l s = (lineLoop pattern (l ++ s.take n)).1 ++
        grep pattern (fun i => wants (i + 1)) (lineLoop pattern (l ++ s.take n)).2 (s.drop n) := by
  have := List.length_pos_iff.2 hs
  have hn : readCount (wants 0) (1024 - l.length - 1) s.length > 0 := by simp only [readCount]; omega
  refine ⟨_, hn, ?_, ?_, ?_⟩
  · simp only [readCount]; omega
  · simp only [readCount]; omega
  · rw [grep]
    exact dif_pos hn

/-- A line that has room in the buffer with its newline. -/
def short (x : List UInt8) : Bool := decide (x.length ≤ 1022)

/-- Once the line at hand fills the buffer, nothing more is read. -/
theorem grep_from (wants : Nat → Nat) (h : NL ∉ l) (hl : l.length ≤ 1023) (s : List UInt8) (h0 : 0 ∉ l ++ s) :
    grep pattern wants l s = accepted pattern ((lines l s).takeWhile short) := by
  induction hn : s.length using Nat.strongRecOn generalizing l s wants with
  | ind n ih =>
    by_cases hstop : s = [] ∨ l.length = 1023
    · rw [grep_stop hstop]
      rcases hstop with rfl | hfull
      · rfl
      · have hlong := lines_long (l := l) s
        cases hls : lines l s with
        | nil => rfl
        | cons x ls =>
          have : ¬short x := by
            have := hlong x (by rw [hls]; rfl)
            simp only [short, decide_eq_true_eq]
            omega
          rw [List.takeWhile_cons_of_neg this]
          rfl
    · obtain ⟨hs, hne⟩ := not_or.1 hstop
      obtain ⟨k, hpos, hk, hroom, e⟩ := grep_pass pattern wants (show l.length < 1023 by omega) hs
      have hsplit := List.take_append_drop k s
      have hlines : lines l s = lines l (s.take k) ++ lines (tail l (s.take k)) (s.drop k) := by
        rw [← lines_append, hsplit]
      obtain ⟨hdata, hdrop⟩ : 0 ∉ l ++ s.take k ∧ 0 ∉ s.drop k := by
        rw [← hsplit, ← List.append_assoc] at h0
        exact not_or.1 (mt List.mem_append.2 h0)
      have hsuffix := tail_suffix (l := l) (s.take k)
      have hlen := hsuffix.length_le
      rw [List.length_append, List.length_take, Nat.min_eq_left hk] at hlen
      -- the lines that end in the buffer have room in it
      have hshort : ∀ x ∈ lines l (s.take k), short x = true := by
        intro x hx
        have := lines_lt _ x hx
        rw [List.length_take, Nat.min_eq_left hk] at this
        simp only [short, decide_eq_true_eq]
        omega
      rw [hlines, List.takeWhile_append_of_pos hshort, e, lineLoop_eq h _ hdata,
        ih (s.drop k).length (by rw [List.length_drop]; omega) _ (not_mem_tail h _) (by omega) _
          (by rw [List.mem_append]; exact not_or.2 ⟨fun hm => hdata (hsuffix.subset hm), hdrop⟩) rfl]
      simp [accepted]

end

/-- What a search up to the first element without `p` misses. -/
theorem filter_takeWhile_iff {α : Type} (p q : α → Bool) (ls : List α) :
    (ls.takeWhile p).filter q = (ls.filter p).filter q ↔
      ls.Pairwise fun x y => p x = false → p y = true → q y = false := by
  induction ls with
  | nil => simp
  | cons x ls ih =>
    rw [List.pairwise_cons]
    by_cases hx : p x = true
    · simp only [List.takeWhile_cons_of_pos hx, List.filter_cons_of_pos hx, hx]
      by_cases hq : q x = true
      · simpa [List.filter_cons_of_pos hq] using ih
      · simpa [List.filter_cons_of_neg hq] using ih
    · rw [List.takeWhile_cons_of_neg hx, List.filter_cons_of_neg hx, List.filter_nil, eq_comm,
        List.filter_eq_nil_iff]
      simp only [List.mem_filter, Bool.not_eq_true] at hx ⊢
      refine ⟨fun h => ⟨fun y hy _ hp => h y ⟨hy, hp⟩, ?_⟩, fun h y hy => h.1 y hy.1 hx hy.2⟩
      exact List.pairwise_of_forall_mem_list fun _ _ y hy _ hp => h y ⟨hy, hp⟩

/-- However the reads split the input, `grep` writes the lines that match up to the first of more than 1022
bytes. Its output has every line of at most 1022 bytes that matches, once and in order, and no other of that
length, exactly if none of them comes after a longer line. -/
theorem grep_lines (pattern : List UInt8) (wants : Nat → Nat) (s : List UInt8) (h0 : 0 ∉ s) :
    grep pattern wants [] s = accepted pattern ((lines [] s).takeWhile short) ∧
    ((lines [] (grep pattern wants [] s)).filter short =
      ((lines [] s).filter short).filter (matchRe pattern) ↔
      (lines [] s).Pairwise fun x y => short x = false → short y = true → matchRe pattern y = false) := by
  have hgrep : grep pattern wants [] s = accepted pattern ((lines [] s).takeWhile short) :=
    grep_from wants (by simp) (by simp) s h0
  have hnl : ∀ x ∈ (lines [] s).takeWhile short, NL ∉ x :=
    fun x hx => not_mem_lines (by simp) s x (List.takeWhile_subset _ hx)
  refine ⟨hgrep, ?_⟩
  rw [hgrep, lines_accepted hnl, List.filter_filter, ← filter_takeWhile_iff]
  have hshort : ((lines [] s).takeWhile short).filter (fun x => short x && matchRe pattern x) =
      ((lines [] s).takeWhile short).filter (matchRe pattern) :=
    List.filter_congr fun x hx => by rw [List.mem_takeWhile_imp hx, Bool.true_and]
  rw [hshort]

/-- Three lines, read two bytes at a time, of which two match. -/
theorem grep_lines_three : grep [97] (fun _ => 2) [] [97, NL, 98, NL, 99, 97, NL] = [97, NL, 99, 97, NL] ∧
    (lines [] (grep [97] (fun _ => 2) [] [97, NL, 98, NL, 99, 97, NL])).filter short = [[97], [99, 97]] := by
  obtain ⟨h, hiff⟩ := grep_lines [97] (fun _ => 2) [97, NL, 98, NL, 99, 97, NL] (by decide)
  exact ⟨h.trans (by decide), (hiff.2 (by decide)).trans (by decide)⟩

/-- 1023 bytes without a newline fill the buffer: `grep` asks
for no more, gets none and stops, whatever comes after. -/
theorem grep_full {pattern a s : List UInt8} (wants : Nat → Nat) (h : NL ∉ a) (ha : 1023 ≤ a.length)
    (h0 : 0 ∉ a ++ NL :: s) : grep pattern wants [] (a ++ NL :: s) = [] := by
  obtain ⟨hnone, htail⟩ := lines_unended (l := []) h
  have hlines : lines [] (a ++ NL :: s) = a :: lines [] s := by
    rw [lines_append, hnone, htail, List.nil_append, List.nil_append, lines, if_pos rfl]
  have hlong : ¬short a := by
    simp only [short, decide_eq_true_eq]
    omega
  rw [grep_from (l := []) wants (by simp) (by simp) (a ++ NL :: s) h0, hlines,
    List.takeWhile_cons_of_neg hlong]
  rfl

/-- A line of 1023 bytes, and one that matches after it, which is not written. -/
theorem grep_long_line : 0 ∉ List.replicate 1023 97 ++ [NL, 98, NL] ∧
    [98] ∈ lines [] (List.replicate 1023 97 ++ [NL, 98, NL]) ∧ matchRe [98] [98] = true ∧
    ∀ wants, grep [98] wants [] (List.replicate 1023 97 ++ [NL, 98, NL]) = [] := by
  have hmem : ∀ b, b ≠ 97 → b ∉ List.replicate 1023 (97 : UInt8) :=
    fun b hb h => hb (List.eq_of_mem_replicate h)
  have h0 : 0 ∉ List.replicate 1023 97 ++ [NL, 98, NL] := by
    rw [List.mem_append]; exact not_or.2 ⟨hmem _ (by decide), by decide⟩
  refine ⟨h0, ?_, by decide, fun wants => grep_full wants (hmem _ (by decide))
    (by rw [List.length_replicate]) h0⟩
  rw [lines_append, (lines_unended (hmem _ (by decide))).2]
  exact List.mem_append_right _ (List.mem_cons_of_mem _ (List.mem_cons_self ..))

end Xv6.Grep
