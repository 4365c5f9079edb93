import Xv6.Fs.Walk

/-!
# Names and path components (`kernel/fs.c`, `kernel/string.c`)

What a name and a path mean, apart from how the code scans them. Two names
are the same if they agree in their first `DIRSIZ` bytes up to a NUL. The
components of a path are its maximal runs of characters other than `/`.

* `namecmp_eq_zero`: `namecmp` compares names.
* `key_strncpy`: `strncpy` stores a name.
* `skipelem_none`, `skipelem_some`: `skipelem` takes off the first component.
-/
namespace Xv6.Fs

/-! ## Names -/

/-- What counts of a name. -/
def key (name : List UInt8) : List UInt8 := (name.take DIRSIZ).takeWhile (· ≠ 0)

/-- `namecmp` returns 0 for the same name. -/
theorem namecmp_eq_zero (s t : List UInt8) : namecmp s t = 0 ↔ key s = key t := strncmp_eq_zero DIRSIZ s t

/-- The name that `dirlink` stores. -/
theorem key_strncpy (name : List UInt8) : key (strncpy DIRSIZ name) = key name := by
  unfold key
  rw [List.take_of_length_le (Nat.le_of_eq (length_strncpy _ _))]
  exact takeWhile_strncpy DIRSIZ name

theorem called_iff (name : List UInt8) (de : Dirent) :
    Called name de ↔ de.inum ≠ 0 ∧ key de.name = key name := by
  unfold Called
  rw [namecmp_eq_zero, eq_comm]

/-! ## Components -/

/-- The maximal runs of characters other than `/`, cut to `DIRSIZ` bytes. -/
def components (path : List UInt8) : List (List UInt8) :=
  ((path.splitOnP (· = SLASH)).filter (· ≠ [])).map (List.take DIRSIZ)

@[simp] theorem components_nil : components [] = [] := rfl

theorem components_slash (path : List UInt8) : components (SLASH :: path) = components path := by
  unfold components
  rw [List.splitOnP_cons_eq_if_modifyHead, if_pos (by simp), List.filter_cons_of_neg (by simp)]

theorem components_dropWhile (path : List UInt8) :
    components (path.dropWhile (· = SLASH)) = components path := by
  induction path with
  | nil => rfl
  | cons a path ih =>
    by_cases h : a = SLASH
    · rw [List.dropWhile_cons_of_pos (by simpa using h), ih, h, components_slash]
    · rw [List.dropWhile_cons_of_neg (by simpa using h)]

/-- A run, and what comes after it. -/
theorem components_run {run rest : List UInt8} (hne : run ≠ []) (hrun : ∀ a ∈ run, a ≠ SLASH)
    (hrest : rest = [] ∨ rest.head? = some SLASH) :
    components (run ++ rest) = run.take DIRSIZ :: components rest := by
  have hnot : ∀ a ∈ run, decide (a = SLASH) = false := fun a ha => by simpa using hrun a ha
  unfold components
  rcases hrest with rfl | hrest
  · rw [List.append_nil, List.splitOnP_eq_singleton hnot]
    simp [hne]
  · cases rest with
    | nil => cases hrest
    | cons b rest =>
      obtain rfl : b = SLASH := by simpa using hrest
      rw [List.splitOnP_append_cons_of_forall_mem hnot SLASH (by simp) rest,
        List.splitOnP_cons_eq_if_modifyHead, if_pos (by simp)]
      simp [hne]

/-- The first run of a path that does not start with a slash. -/
theorem components_cons {a : UInt8} (path : List UInt8) (ha : a ≠ SLASH) :
    components (a :: path) = ((a :: path).takeWhile (· ≠ SLASH)).take DIRSIZ ::
      components ((a :: path).dropWhile (· ≠ SLASH)) := by
  have hne : (a :: path).takeWhile (fun b => decide (b ≠ SLASH)) ≠ [] := by
    rw [List.takeWhile_cons_of_pos (by simpa using ha)]
    exact List.cons_ne_nil _ _
  have hhead : (a :: path).dropWhile (fun b => decide (b ≠ SLASH)) = [] ∨
      ((a :: path).dropWhile (fun b => decide (b ≠ SLASH))).head? = some SLASH := by
    have h := List.head?_dropWhile_not (fun b => decide (b ≠ SLASH)) (a :: path)
    generalize (a :: path).dropWhile (fun b => decide (b ≠ SLASH)) = tail at h
    cases tail with
    | nil => exact .inl rfl
    | cons b l => exact .inr (by simpa using h)
  conv_lhs => rw [← List.takeWhile_append_dropWhile (p := fun b => decide (b ≠ SLASH)) (l := a :: path)]
  exact components_run hne (fun b hb => by simpa using List.mem_takeWhile_imp hb) hhead

/-- Without its leading slashes a path is empty or starts a run. -/
theorem dropWhile_slash (path : List UInt8) :
    path.dropWhile (· = SLASH) = [] ∨ ∃ a l, a ≠ SLASH ∧ path.dropWhile (· = SLASH) = a :: l := by
  have h := List.head?_dropWhile_not (fun b => decide (b = SLASH)) path
  generalize path.dropWhile (fun b => decide (b = SLASH)) = p at h
  cases p with
  | nil => exact .inl rfl
  | cons a l => exact .inr ⟨a, l, by simpa using h, rfl⟩

theorem components_eq_nil (path : List UInt8) : components path = [] ↔ path.dropWhile (· = SLASH) = [] := by
  rw [← components_dropWhile]
  rcases dropWhile_slash path with e | ⟨a, l, ha, e⟩
  · simp [e]
  · simp [e, components_cons l ha]

theorem skipelem_none {path : List UInt8} (h : skipelem path = none) : components path = [] := by
  rw [components_eq_nil]
  unfold skipelem at h
  simp only at h
  split at h
  · assumption
  · cases h

theorem skipelem_some {path rest name : List UInt8} (h : skipelem path = some (rest, name)) :
    components path = name :: components rest ∧ rest.length < path.length ∧
    (rest = [] ↔ components rest = []) := by
  have hle := (List.dropWhile_suffix (l := path) (fun a => decide (a = SLASH))).length_le
  unfold skipelem at h
  rcases dropWhile_slash path with e | ⟨a, l, ha, e⟩
  · simp [e] at h
  · have hcomp := components_cons l ha
    rw [← e, components_dropWhile, e] at hcomp
    have htail := List.takeWhile_append_dropWhile (p := fun b => decide (b ≠ SLASH)) (l := a :: l)
    have hrun : 0 < ((a :: l).takeWhile fun b => decide (b ≠ SLASH)).length := by
      rw [List.takeWhile_cons_of_pos (by simpa using ha)]
      exact Nat.succ_pos _
    simp only [e, List.cons_ne_nil, if_false, Option.some.injEq, Prod.mk.injEq] at h
    obtain ⟨rfl, rfl⟩ := h
    generalize (a :: l).dropWhile (fun b => decide (b ≠ SLASH)) = tail at *
    refine ⟨?_, ?_, ?_⟩
    · rw [components_dropWhile, hcomp]
    · have h1 := (List.dropWhile_suffix (l := tail) (fun b => decide (b = SLASH))).length_le
      have h2 := congrArg List.length htail
      rw [List.length_append] at h2
      rw [e] at hle
      omega
    · rw [components_dropWhile, components_eq_nil]

end Xv6.Fs
