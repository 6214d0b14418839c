import EmbeddedCourse.Lib.CString
import EmbeddedCourse.Lib.Occurrences

/-! # Finding a substring

`Home_Work_3/lib/lib.c`. A pointer into a string is what is left of its buffer;
a read behind the buffer has no meaning (`none`).
-/

namespace EmbeddedCourse.HomeWork.FindSubstring

open CString Occurrences

def mystrlen : Bytes → Option ℕ
  | [] => none
  | b :: str => if b ≠ 0 ∧ b ≠ 10 then (mystrlen str).map (· + 1) else some 0

/-- The inner loop of `find_substring`: `res`, `temp_str` and `temp_substr` behind it. -/
def compareLoop : Bytes → Bytes → Option (Bool × Bytes × Bytes)
  | _, [] => none
  | temp_str, b :: temp_substr =>
    if b = 0 then some (true, temp_str, b :: temp_substr)
    else match temp_str with
      | [] => none
      | a :: temp_str =>
        if a = 0 then some (true, a :: temp_str, b :: temp_substr)
        else if a ≠ b then some (false, a :: temp_str, b :: temp_substr)
        else compareLoop temp_str temp_substr

/-- `*temp_str == 0 || *temp_substr == 0` -/
def ranOut (temp_str temp_substr : Bytes) : Option Bool := do
  let a ← temp_str.head?
  if a = 0 then some true
  else
    let b ← temp_substr.head?
    some (b = 0)

/-- One turn of the outer loop: whether `ptr` is set to `str`. -/
def stopsAt (str sub_str : Bytes) : Option Bool := do
  let (res, temp_str, temp_substr) ← compareLoop str sub_str
  if res = true then ranOut temp_str temp_substr else some false

/-- The outer loop: the offset of `ptr` from `str`, or NULL. -/
def searchLoop (sub_str : Bytes) : Bytes → Option (Option ℕ)
  | [] => none
  | c :: str =>
    if c = 0 then some none
    else do
      let stops ← stopsAt (c :: str) sub_str
      if stops = true then some (some 0)
      else
        let ptr ← searchLoop sub_str str
        some (ptr.map (· + 1))

def findSubstring (str sub_str : Bytes) : Option (Option ℕ) := do
  let size ← mystrlen str
  let subSize ← mystrlen sub_str
  if size < subSize then some none else searchLoop sub_str str

/-! ## The two lengths -/

/-- A text up to its first newline. -/
def firstLine (s : Bytes) : Bytes := s.takeWhile (· ≠ 10)

theorem mystrlen_terminated {s : Bytes} (hs : NoNul s) (r : Bytes) :
    mystrlen (s ++ 0 :: r) = some (firstLine s).length := by
  induction s with
  | nil => rfl
  | cons b s ih =>
    have hb : b ≠ 0 := fun h => hs (by simp [h])
    have htail := ih fun h => hs (List.mem_cons_of_mem b h)
    rw [List.cons_append, mystrlen, htail]
    by_cases hnl : b = 10
    · simp [hnl, firstLine]
    · simp [hb, hnl, firstLine]

theorem firstLine_eq_self {t : Bytes} (h : 10 ∉ t) : firstLine t = t := by
  rw [firstLine, List.takeWhile_eq_self_iff]
  intro b hb
  have hne : b ≠ 10 := fun heq => h (heq ▸ hb)
  simpa using hne

/-! ## What the loops accept -/

/-- An end of the text where the search stops: `t` starts there, or the text runs out
in a beginning of `t`. -/
def accepted (t : Bytes) (u : Bytes) : Bool := decide (u ≠ [] ∧ (t <+: u ∨ u <+: t))

theorem accepted_iff (t u : Bytes) : accepted t u = true ↔ u ≠ [] ∧ (t <+: u ∨ u <+: t) := by
  rw [accepted, decide_eq_true_eq]

theorem stopsAt_terminated {s t : Bytes} (hs : NoNul s) (ht : NoNul t) (r r' : Bytes) :
    stopsAt (s ++ 0 :: r) (t ++ 0 :: r') = some (decide (t <+: s ∨ s <+: t)) := by
  induction t generalizing s with
  | nil =>
    cases s with
    | nil => rfl
    | cons a s =>
      have ha : a ≠ 0 := fun h => hs (by simp [h])
      simp [stopsAt, compareLoop, ranOut]
  | cons b t ih =>
    have hb : b ≠ 0 := fun h => ht (by simp [h])
    cases s with
    | nil => simp [stopsAt, compareLoop, ranOut, hb]
    | cons a s =>
      have ha : a ≠ 0 := fun h => hs (by simp [h])
      by_cases hab : a = b
      · have htail := ih (fun h => hs (List.mem_cons_of_mem a h))
          (fun h => ht (List.mem_cons_of_mem b h))
        subst hab
        simpa [stopsAt, compareLoop, ha] using htail
      · have hba : b ≠ a := Ne.symm hab
        simp [stopsAt, compareLoop, ha, hb, hab, hba]

theorem searchLoop_terminated {s t : Bytes} (hs : NoNul s) (ht : NoNul t) (r r' : Bytes) :
    searchLoop (t ++ 0 :: r') (s ++ 0 :: r) = some (firstEnd (accepted t) s) := by
  induction s with
  | nil => simp [searchLoop, accepted]
  | cons a s ih =>
    have ha : a ≠ 0 := fun h => hs (by simp [h])
    have htail := ih fun h => hs (List.mem_cons_of_mem a h)
    have hstop := stopsAt_terminated hs ht r r'
    rw [List.cons_append] at hstop ⊢
    rw [firstEnd_cons, searchLoop, if_neg ha, htail, hstop]
    by_cases hacc : t <+: a :: s ∨ a :: s <+: t
    · simp [accepted, hacc]
    · simp [accepted, hacc]

/-- What `find_substring` returns. -/
theorem findSubstring_terminated {s t : Bytes} (hs : NoNul s) (ht : NoNul t) (hnl : 10 ∉ t)
    (r r' : Bytes) :
    findSubstring (s ++ 0 :: r) (t ++ 0 :: r') =
      some (if (firstLine s).length < t.length then none else firstEnd (accepted t) s) := by
  rw [findSubstring, mystrlen_terminated hs, mystrlen_terminated ht, firstLine_eq_self hnl,
    searchLoop_terminated hs ht]
  simp only [Option.bind_eq_bind, Option.bind_some]
  split_ifs with hlt
  · rfl
  · rfl

/-! ## The first occurrence -/

/-- The result points to the first occurrence of `t` in `s`, and is NULL exactly where
there is none. -/
def Finds (s t : Bytes) (result : Option ℕ) : Prop :=
  (∀ p, result = some p → FirstAt t s p) ∧ (result = none ↔ ¬ t <:+: s)

theorem finds_iff {s t : Bytes} {result : Option ℕ} : Finds s t result ↔ result = strstr s t := by
  constructor
  · intro h
    cases result with
    | none => exact (strstr_eq_none_iff.mpr (h.2.mp rfl)).symm
    | some p => exact (strstr_eq_some_iff.mpr (h.1 p rfl)).symm
  · rintro rfl
    constructor
    · intro p hp
      exact strstr_eq_some_iff.mp hp
    · exact strstr_eq_none_iff

/-- The texts that `find_substring` is right about: the first line has room for an
occurrence that is there, and no end of the text is taken for one that is not. -/
def Searchable (s t : Bytes) : Prop :=
  (t <:+: s → t.length ≤ (firstLine s).length) ∧
    (¬ t <:+: s → t.length ≤ (firstLine s).length → ∀ u, u <:+ s → u <+: t → u = [])

/-- `find_substring` finds the first occurrence, and nothing where there is none,
exactly for these texts. -/
theorem findSubstring_finds_iff {s t : Bytes} (hs : NoNul s) (ht : NoNul t) (hne : t ≠ [])
    (hnl : 10 ∉ t) (r r' : Bytes) :
    (∃ result, findSubstring (s ++ 0 :: r) (t ++ 0 :: r') = some result ∧ Finds s t result) ↔
      Searchable s t := by
  have hres : (∃ result, findSubstring (s ++ 0 :: r) (t ++ 0 :: r') = some result ∧
      Finds s t result) ↔
      (if (firstLine s).length < t.length then none else firstEnd (accepted t) s) = strstr s t := by
    rw [findSubstring_terminated hs ht hnl]
    simp [finds_iff]
  rw [hres, Searchable]
  by_cases hin : t <:+: s
  · -- `sub_str` is there: only the test of the lengths can miss it
    rw [firstEnd_or_begins hne (accepted_iff t) hin]
    have hfound : strstr s t ≠ none := fun h => strstr_eq_none_iff.mp h hin
    split_ifs with hlt
    · constructor
      · intro h
        exact absurd h.symm hfound
      · intro h
        have := h.1 hin
        omega
    · constructor
      · intro _
        exact ⟨fun _ => Nat.le_of_not_lt hlt, fun h => absurd hin h⟩
      · intro _
        rfl
  · -- it is not there: an end of `str` may still be taken for it
    rw [strstr_eq_none_iff.mpr hin]
    split_ifs with hlt
    · constructor
      · intro _
        exact ⟨fun h => absurd h hin, fun _ h => absurd hlt (Nat.not_lt.mpr h)⟩
      · intro _
        rfl
    · rw [firstEnd_or_begins_none (accepted_iff t) hin]
      constructor
      · intro h
        exact ⟨fun h' => absurd h' hin, fun _ _ => h⟩
      · intro h
        exact h.2 hin (Nat.le_of_not_lt hlt)

/-- "abc" in "ababc". -/
theorem findSubstring_finds_abc :
    ∃ result, findSubstring (ascii ['a', 'b', 'a', 'b', 'c'] ++ 0 :: [])
      (ascii ['a', 'b', 'c'] ++ 0 :: []) = some result ∧
        Finds (ascii ['a', 'b', 'a', 'b', 'c']) (ascii ['a', 'b', 'c']) result := by
  have hthere : ascii ['a', 'b', 'c'] <:+: ascii ['a', 'b', 'a', 'b', 'c'] := by decide
  exact (findSubstring_finds_iff (by decide) (by decide) (by decide) (by decide) [] []).mpr
    ⟨fun _ => by decide, fun hnot => absurd hthere hnot⟩

/-- The end "c" of "abc" is taken for "cd". -/
theorem findSubstring_takes_end :
    findSubstring (ascii ['a', 'b', 'c'] ++ [0]) (ascii ['c', 'd'] ++ [0]) = some (some 2) ∧
      ¬ Finds (ascii ['a', 'b', 'c']) (ascii ['c', 'd']) (some 2) := by
  constructor
  · decide
  · intro h
    have hnone : strstr (ascii ['a', 'b', 'c']) (ascii ['c', 'd']) = none := by decide
    rw [finds_iff, hnone] at h
    exact absurd h (by decide)

end EmbeddedCourse.HomeWork.FindSubstring
