import Mathlib.Data.List.TakeWhile
import Mathlib.Algebra.Group.Nat.Defs

/-!
# The growing string of the test library (`user/rhtest.c`)

A block from `malloc` is the list of its bytes, of any content at first. A store
or a read outside a block has no result, so a run that has one touches only
the blocks it owns. `free` has no effect here.

* `strlen_text`, `strcpy_text`: the C loops on a block that holds a text.
* `Holds`: length, size and content as one statement; `append_holds` is the step,
  below, at and above the length at which the buffer is replaced.
* `rhstring_consistent`: every sequence of appends.
-/
namespace Xv6.Rhstring

def RHSTRING_MAX : Int32 := 256

/-! ## The code -/

/-- `b[i] = v` -/
def store (b : List UInt8) (i : Int) (v : UInt8) : Option (List UInt8) :=
  if 0 ≤ i ∧ i < b.length then some (b.set i.toNat v) else none

/-- mirrors user/ulib.c:36-44 -/
def strlen : List UInt8 → Option Nat
  | [] => none
  | c :: s => if c = 0 then some 0 else (strlen s).map (· + 1)

/-- `strcpy(b + off, t)`, where `t` is what can be read from the pointer on.
mirrors user/ulib.c:17-26 -/
def strcpy (b : List UInt8) (off : Nat) : List UInt8 → Option (List UInt8)
  | [] => none
  | c :: t => do
    let b ← store b off c
    if c = 0 then some b else strcpy b (off + 1) t

/-- `malloc(n)`, when it succeeds: `n` bytes of any content. -/
def malloc (junk : Nat → UInt8) (n : Int32) : List UInt8 := (List.range n.toUInt32.toNat).map junk

structure Str where
  length : Int32
  size : Int32
  buffer : List UInt8

/-- `rhstring_new`, with the block of the structure itself left out.
mirrors user/rhtest.c:31-44 -/
def rhstringInit (junk : Nat → UInt8) : Option Str := do
  let buffer ← store (malloc junk RHSTRING_MAX) 0 0
  some ⟨0, RHSTRING_MAX, buffer⟩

/-- mirrors user/rhtest.c:70-82 -/
def rhstringResize (junk : Nat → UInt8) (str : Str) (newSize : Int32) : Option Str := do
  let buff ← strcpy (malloc junk newSize) 0 str.buffer
  let buff ← store buff str.length.toInt 0
  some { str with buffer := buff, size := newSize }

/-- A string that is not null; `text` may be.
mirrors user/rhtest.c:46-59 -/
def rhstringAppend (junk : Nat → UInt8) (str : Str) : Option (List UInt8) → Option Str
  | none => some str
  | some text => do
    let len := Int32.ofNat (← strlen text)
    let str ← (if str.length + len + 1 ≥ str.size then
        rhstringResize junk str (str.length + len + 1 + RHSTRING_MAX)
      else some str)
    let buffer ← strcpy str.buffer (← strlen str.buffer) text
    some { str with length := str.length + len, buffer := buffer }

/-- mirrors user/rhtest.c:61-68 -/
def rhstringAppendChar (junk : Nat → UInt8) (str : Str) (ch : UInt8) : Option Str :=
  rhstringAppend junk str (some [ch, 0])

/-- What can be read from a `char *`: a text, its NUL, and anything after it. -/
structure Chars where
  bytes : List UInt8
  nul : 0 ∈ bytes

def textOf (bytes : List UInt8) : List UInt8 := bytes.takeWhile (· ≠ 0)

inductive Call
  | append (text : Option Chars)
  | appendChar (ch : UInt8)

/-- What a call appends. -/
def Call.text : Call → List UInt8
  | .append none => []
  | .append (some t) => textOf t.bytes
  | .appendChar ch => if ch = 0 then [] else [ch]

def Call.exec (junk : Nat → UInt8) (str : Str) : Call → Option Str
  | .append text => rhstringAppend junk str (text.map Chars.bytes)
  | .appendChar ch => rhstringAppendChar junk str ch

/-- A new string and the calls on it, each with the content that a new block would have. -/
def run (junk : Nat → UInt8) (calls : List (Call × (Nat → UInt8))) : Option Str := do
  calls.foldlM (fun str c => c.1.exec c.2 str) (← rhstringInit junk)

/-! ## Blocks that hold a text -/

theorem textOf_split {b : List UInt8} (h : 0 ∈ b) : ∃ rest, b = textOf b ++ 0 :: rest := by
  induction b with
  | nil => cases h
  | cons c b ih =>
    by_cases hc : c = 0
    · exact ⟨b, by simp [textOf, hc]⟩
    · obtain ⟨rest, e⟩ := ih (by simpa [Ne.symm hc] using h)
      refine ⟨rest, ?_⟩
      simpa [textOf, hc] using e

theorem nul_textOf (b : List UInt8) : 0 ∉ textOf b := fun h => by simpa using List.mem_takeWhile_imp h

theorem strlen_text (h : 0 ∉ t) (rest : List UInt8) : strlen (t ++ 0 :: rest) = some t.length := by
  induction t with
  | nil => simp [strlen]
  | cons c t ih =>
    obtain ⟨hc, ht⟩ : c ≠ 0 ∧ 0 ∉ t := by simpa [eq_comm] using h
    simp [strlen, hc, ih ht]

theorem store_mid (pre post : List UInt8) (c v : UInt8) :
    store (pre ++ c :: post) pre.length v = some (pre ++ v :: post) := by
  have hin : pre.length < (pre ++ c :: post).length := by rw [List.length_append, List.length_cons]; omega
  rw [store, if_pos ⟨by omega, by omega⟩]
  simp

/-- The text and its NUL go where they fit; what is before and behind stays. -/
theorem strcpy_text (h : 0 ∉ t) (rest pre old post : List UInt8) (c : UInt8)
    (hl : old.length = t.length) :
    strcpy (pre ++ (old ++ c :: post)) pre.length (t ++ 0 :: rest) = some (pre ++ (t ++ 0 :: post)) := by
  induction t generalizing pre old with
  | nil =>
    obtain rfl := List.eq_nil_of_length_eq_zero hl
    simp [strcpy, store_mid]
  | cons d t ih =>
    obtain ⟨hd, ht⟩ : d ≠ 0 ∧ 0 ∉ t := by simpa [eq_comm] using h
    obtain ⟨o, old, rfl⟩ := List.exists_cons_of_length_eq_add_one hl
    have := ih ht (pre ++ [d]) old (by simpa using hl)
    simpa [strcpy, store_mid, hd] using this

/-! ## The string -/

/-- `str` holds `text`. -/
structure Holds (str : Str) (text : List UInt8) : Prop where
  nul : 0 ∉ text
  length : str.length = .ofNat text.length
  size : str.size = .ofNat str.buffer.length
  small : str.buffer.length < 2 ^ 31
  content : ∃ rest, str.buffer = text ++ 0 :: rest

variable (junk : Nat → UInt8) {str : Str} {text t : List UInt8}

variable {n k : Nat}

theorem malloc_length (h : n < 2 ^ 31) : (malloc junk (.ofNat n)).length = n := by
  simp [malloc]; omega

theorem split_at {l : List UInt8} (h : k < l.length) : ∃ old c post, l = old ++ c :: post ∧ old.length = k :=
  ⟨l.take k, l[k], l.drop (k + 1), by simp, by simp; omega⟩

theorem ofNat_le {a b : Nat} (ha : a < 2 ^ 31) (hb : b < 2 ^ 31) : Int32.ofNat a ≤ .ofNat b ↔ a ≤ b := by
  rw [Int32.le_iff_toInt_le, Int32.toInt_ofNat_of_lt ha, Int32.toInt_ofNat_of_lt hb]
  omega

theorem init_holds : ∃ str, rhstringInit junk = some str ∧ Holds str [] := by
  obtain ⟨old, c, post, e, hl⟩ := split_at (l := malloc junk RHSTRING_MAX) (k := 0)
    (by rw [show RHSTRING_MAX = .ofNat 256 from rfl, malloc_length junk (by decide)]; decide)
  obtain rfl := List.eq_nil_of_length_eq_zero hl
  have hlen := malloc_length junk (n := 256) (by decide)
  refine ⟨⟨0, RHSTRING_MAX, 0 :: post⟩, ?_, ⟨by simp, rfl, ?_, ?_, post, rfl⟩⟩
  · have := store_mid [] post c 0
    simp_all [rhstringInit]
  all_goals
    rw [show Int32.ofNat 256 = RHSTRING_MAX from rfl, e] at hlen
    simp only [List.nil_append, List.length_cons] at hlen ⊢
    rw [hlen]; decide

section
variable (h : Holds str text)
include h

/-- The text is carried over to a larger buffer. -/
theorem resize_holds (hn : text.length < n) (hs : n < 2 ^ 31) :
    ∃ str', rhstringResize junk str (.ofNat n) = some str' ∧ Holds str' text ∧ str'.buffer.length = n := by
  obtain ⟨rest, hb⟩ := h.content
  have hlen := malloc_length junk hs
  obtain ⟨old, c, post, e, hl⟩ := split_at (hlen.symm ▸ hn)
  have hcopy := strcpy_text h.nul rest [] old post c hl
  have hstore := store_mid text post 0 0
  have hsize : (text ++ 0 :: post).length = n := by rw [← hlen, e]; simp [hl]
  refine ⟨{ str with buffer := text ++ 0 :: post, size := .ofNat n }, ?_,
    ⟨h.nul, h.length, ?_, ?_, post, rfl⟩, hsize⟩
  · have hi : str.length.toInt = text.length := by
      rw [h.length, Int32.toInt_ofNat_of_lt (Nat.lt_trans hn hs)]
    rw [rhstringResize, hb, e, show strcpy (old ++ c :: post) 0 (text ++ 0 :: rest) = _ from hcopy]
    simp [hi, hstore]
  · simp [hsize]
  · simp only [hsize]; exact hs

/-- Room is made when it is needed: the NUL and `t` then fit behind the text. -/
theorem room (hs : text.length + k + 257 < 2 ^ 31) :
    ∃ str', (if str.length + .ofNat k + 1 ≥ str.size
      then rhstringResize junk str (str.length + .ofNat k + 1 + RHSTRING_MAX)
      else some str) = some str' ∧ Holds str' text ∧ text.length + k + 1 ≤ str'.buffer.length := by
  have hsum : str.length + .ofNat k + 1 = .ofNat (text.length + k + 1) := by rw [h.length]; simp
  have hcmp := ofNat_le h.small (show text.length + k + 1 < 2 ^ 31 by omega)
  rw [hsum, h.size]
  split_ifs with hc
  · have hnew : Int32.ofNat (text.length + k + 1) + RHSTRING_MAX = .ofNat (text.length + k + 1 + 256) := by
      rw [Int32.ofNat_add (text.length + k + 1)]; rfl
    obtain ⟨str', e, h', hl⟩ := resize_holds junk h (n := text.length + k + 1 + 256) (by omega) (by omega)
    exact ⟨str', hnew ▸ e, h', by omega⟩
  · exact ⟨str, rfl, h, by have := mt hcmp.2 hc; omega⟩

theorem append_holds (ht : 0 ∉ t) (rest : List UInt8) (hs : (text ++ t).length < 2 ^ 31 - 257) :
    ∃ str', rhstringAppend junk str (some (t ++ 0 :: rest)) = some str' ∧ Holds str' (text ++ t) := by
  rw [List.length_append] at hs
  obtain ⟨str', e, h', hroom⟩ := room junk h (k := t.length) (by omega)
  obtain ⟨tail, hb⟩ := h'.content
  obtain ⟨old, c, post, hold, hl⟩ := split_at (l := 0 :: tail) (k := t.length) (by
    rw [hb, List.length_append] at hroom; omega)
  have hcopy := strcpy_text ht rest text old post c hl
  have hsize : (text ++ (t ++ 0 :: post)).length = str'.buffer.length := by rw [hb, hold]; simp [hl]
  refine ⟨{ str' with length := str'.length + .ofNat t.length, buffer := text ++ (t ++ 0 :: post) }, ?_, ?_⟩
  · simp only [rhstringAppend, Option.bind_eq_bind, strlen_text ht, Option.bind_some, e]
    rw [hb, strlen_text h'.nul, hold, Option.bind_some, hcopy, Option.bind_some]
  · refine ⟨by simp [h'.nul, ht], ?_, ?_, ?_, post, by simp⟩
    · simp [h'.length]
    · rw [hsize]; exact h'.size
    · rw [hsize]; exact h'.small

theorem exec_holds (c : Call) (hs : (text ++ c.text).length < 2 ^ 31 - 257) :
    ∃ str', c.exec junk str = some str' ∧ Holds str' (text ++ c.text) := by
  cases c with
  | append bytes =>
    cases bytes with
    | none => exact ⟨str, rfl, by simpa [Call.text] using h⟩
    | some b =>
      obtain ⟨rest, e⟩ := textOf_split b.nul
      obtain ⟨str', he, h'⟩ := append_holds junk h (nul_textOf b.bytes) rest hs
      exact ⟨str', by rw [← e] at he; exact he, h'⟩
  | appendChar ch =>
    by_cases hc : ch = 0
    · simpa [Call.exec, Call.text, rhstringAppendChar, hc] using
        append_holds junk h (t := []) (by simp) [0] (by simpa [Call.text, hc] using hs)
    · simpa [Call.exec, Call.text, rhstringAppendChar, hc] using
        append_holds junk h (t := [ch]) (by simpa using Ne.symm hc) [] (by simpa [Call.text, hc] using hs)

def appended (calls : List (Call × (Nat → UInt8))) : List UInt8 := calls.flatMap (·.1.text)

theorem calls_hold (calls : List (Call × (Nat → UInt8)))
    (hs : (text ++ appended calls).length < 2 ^ 31 - 257) :
    ∃ str', calls.foldlM (fun str c => c.1.exec c.2 str) str = some str' ∧
    Holds str' (text ++ appended calls) := by
  induction calls generalizing str text with
  | nil => exact ⟨str, rfl, by simpa [appended] using h⟩
  | cons c calls ih =>
    have e : text ++ appended (c :: calls) = text ++ c.1.text ++ appended calls := by simp [appended]
    rw [e] at hs ⊢
    obtain ⟨str1, he, h1⟩ := exec_holds c.2 h c.1 (by rw [List.length_append] at hs; omega)
    rw [List.foldlM_cons, he]
    exact ih h1 hs

end

/-- Every sequence of calls has a result, so every store of it was inside its block; what is said here of the
whole sequence holds after each call of it, since the calls up to there are a sequence too. -/
theorem rhstring_consistent (calls : List (Call × (Nat → UInt8)))
    (hs : (appended calls).length < 2 ^ 31 - 257) :
    ∃ str, run junk calls = some str ∧ strlen str.buffer = some str.length.toInt.toNat ∧
      0 ≤ str.length.toInt ∧ str.length.toInt + 1 ≤ str.size.toInt ∧
      str.size.toInt = str.buffer.length ∧ textOf str.buffer = appended calls := by
  obtain ⟨str0, e0, h0⟩ := init_holds junk
  obtain ⟨str, e, h⟩ := calls_hold h0 calls hs
  rw [List.nil_append] at h
  obtain ⟨rest, hb⟩ := h.content
  have hl : str.length.toInt = (appended calls).length := by rw [h.length, Int32.toInt_ofNat_of_lt (by omega)]
  have hz : str.size.toInt = str.buffer.length := by rw [h.size, Int32.toInt_ofNat_of_lt h.small]
  refine ⟨str, by simp only [run, e0]; exact e, ?_, by omega, ?_, hz, ?_⟩
  · rw [hb, strlen_text h.nul, hl]; rfl
  · rw [hl, hz, hb, List.length_append, List.length_cons]; omega
  · rw [hb, textOf, List.takeWhile_append_of_pos (by simpa using fun a ha (e : a = 0) => h.nul (e ▸ ha))]
    simp

/-- With its NUL as long as the first buffer. -/
def long : List UInt8 := List.replicate 255 65

/-- A null text, a text for which the buffer is replaced, and a character. -/
def grow : List (Call × (Nat → UInt8)) :=
  [(.append none, fun _ => 2),
    (.append (some ⟨long ++ [0], List.mem_append_right _ List.mem_cons_self⟩), fun _ => 3),
    (.appendChar 66, fun _ => 4)]

theorem rhstring_consistent_two :
    ∃ str, run (fun _ => 1) grow = some str ∧ str.size = 512 ∧
    strlen str.buffer = some str.length.toInt.toNat ∧
      0 ≤ str.length.toInt ∧ str.length.toInt + 1 ≤ str.size.toInt ∧ str.size.toInt = str.buffer.length ∧
      textOf str.buffer = long ++ [66] := by
  have hsize : (run (fun _ => 1) grow).map (·.size) = some 512 := by decide +kernel
  have happ : appended grow = long ++ [66] := by decide +kernel
  obtain ⟨str, hrun, h⟩ := rhstring_consistent (fun _ => 1) grow (by decide +kernel)
  rw [hrun] at hsize
  rw [happ] at h
  exact ⟨str, hrun, Option.some.inj hsize, h⟩

end Xv6.Rhstring
