import Mathlib.Data.List.Basic
import Mathlib.Data.List.Infix
import Mathlib.Data.List.TakeDrop

/-! # Searching a list for another one

Where one list stands in another, as the offset of the first end of the longer
list that passes a test. With "begins with `t`" as the test this is `strstr`.
-/

namespace EmbeddedCourse.Occurrences

variable {α : Type*}

/-- The offset of the first end of `s` that passes the test. -/
def firstEnd (P : List α → Bool) (s : List α) : Option ℕ := s.tails.findIdx? P

@[simp] theorem firstEnd_nil (P : List α → Bool) :
    firstEnd P [] = if P [] = true then some 0 else none := by
  simp [firstEnd]

theorem firstEnd_cons (P : List α → Bool) (a : α) (s : List α) :
    firstEnd P (a :: s) = if P (a :: s) = true then some 0 else (firstEnd P s).map (· + 1) := by
  rw [firstEnd, List.tails_cons, List.findIdx?_cons]
  rfl

theorem firstEnd_eq_some_iff (P : List α → Bool) (s : List α) (p : ℕ) :
    firstEnd P s = some p ↔
      p ≤ s.length ∧ P (s.drop p) = true ∧ ∀ q < p, ¬ P (s.drop q) = true := by
  rw [firstEnd, List.findIdx?_eq_some_iff_getElem]
  simp only [List.length_tails, List.getElem_tails]
  constructor
  · intro ⟨hlt, hp, hq⟩
    exact ⟨by omega, hp, hq⟩
  · intro ⟨hle, hp, hq⟩
    exact ⟨by omega, hp, hq⟩

theorem firstEnd_eq_none_iff (P : List α → Bool) (s : List α) :
    firstEnd P s = none ↔ ∀ p ≤ s.length, ¬ P (s.drop p) = true := by
  rw [firstEnd, List.findIdx?_eq_none_iff_findIdx_eq, List.findIdx_eq_length]
  constructor
  · intro h p hp
    have hmem : s.drop p ∈ s.tails := (List.mem_tails _ _).mpr (List.drop_suffix p s)
    rw [h _ hmem]
    exact Bool.false_ne_true
  · intro h u hu
    have hsuf : u <:+ s := (List.mem_tails _ _).mp hu
    have hdrop : s.drop (s.length - u.length) = u := (List.suffix_iff_eq_drop.mp hsuf).symm
    have hno := h (s.length - u.length) (Nat.sub_le _ _)
    rw [hdrop] at hno
    exact Bool.eq_false_iff.mpr hno

/-! ## Occurrences -/

/-- `t` stands in `s` at `p` and nowhere before. -/
structure FirstAt (t s : List α) (p : ℕ) : Prop where
  le : p ≤ s.length
  here : t <+: s.drop p
  before : ∀ q < p, ¬ t <+: s.drop q

theorem infix_iff_exists_drop {t s : List α} : t <:+: s ↔ ∃ p ≤ s.length, t <+: s.drop p := by
  constructor
  · rintro ⟨u, v, h⟩
    refine ⟨u.length, ?_, v, ?_⟩
    · rw [← h, List.append_assoc, List.length_append]
      omega
    · rw [← h, List.append_assoc, List.drop_left]
  · rintro ⟨p, -, hp⟩
    exact hp.isInfix.trans (List.drop_suffix p s).isInfix

/-- What stands at an offset fits behind it. -/
theorem add_length_le {t s : List α} {p : ℕ} (hp : p ≤ s.length) (h : t <+: s.drop p) :
    p + t.length ≤ s.length := by
  have hle := h.length_le
  rw [List.length_drop] at hle
  omega

/-- Where `t` is not in `s` such a search still fails only if no non-empty end
of `s` is a beginning of `t`. -/
theorem firstEnd_or_begins_none {P : List α → Bool} {s t : List α}
    (hP : ∀ u, P u = true ↔ u ≠ [] ∧ (t <+: u ∨ u <+: t)) (h : ¬ t <:+: s) :
    firstEnd P s = none ↔ ∀ u, u <:+ s → u <+: t → u = [] := by
  rw [firstEnd_eq_none_iff]
  constructor
  · intro hno u hsuf hpre
    by_contra hne
    have hdrop : s.drop (s.length - u.length) = u := (List.suffix_iff_eq_drop.mp hsuf).symm
    exact hno (s.length - u.length) (Nat.sub_le _ _)
      (by rw [hdrop]; exact (hP u).mpr ⟨hne, Or.inr hpre⟩)
  · intro hno p hp hacc
    have hacc := (hP _).mp hacc
    rcases hacc.2 with hin | hend
    · exact h (infix_iff_exists_drop.mpr ⟨p, hp, hin⟩)
    · exact hacc.1 (hno _ (List.drop_suffix p s) hend)

variable [DecidableEq α]

/-- `strstr(s, t)`, as an offset into `s`. -/
def strstr (s t : List α) : Option ℕ := firstEnd (fun u => decide (t <+: u)) s

theorem strstr_eq_some_iff {s t : List α} {p : ℕ} : strstr s t = some p ↔ FirstAt t s p := by
  rw [strstr, firstEnd_eq_some_iff]
  simp only [decide_eq_true_eq]
  constructor
  · intro ⟨hle, hp, hq⟩
    exact ⟨hle, hp, hq⟩
  · intro h
    exact ⟨h.le, h.here, h.before⟩

theorem strstr_eq_none_iff {s t : List α} : strstr s t = none ↔ ¬ t <:+: s := by
  rw [strstr, firstEnd_eq_none_iff, infix_iff_exists_drop]
  simp only [decide_eq_true_eq]
  push Not
  rfl

/-- A search that also takes an end of `s` that `t` begins with finds `t` where
`t` is in `s`: those ends are too short to stand before it. -/
theorem firstEnd_or_begins {P : List α → Bool} {s t : List α} (ht : t ≠ [])
    (hP : ∀ u, P u = true ↔ u ≠ [] ∧ (t <+: u ∨ u <+: t)) (h : t <:+: s) :
    firstEnd P s = strstr s t := by
  cases hfind : strstr s t with
  | none => exact absurd h (strstr_eq_none_iff.mp hfind)
  | some p =>
    have hfirst := strstr_eq_some_iff.mp hfind
    have hfit := add_length_le hfirst.le hfirst.here
    have hpos := List.length_pos_of_ne_nil ht
    rw [firstEnd_eq_some_iff]
    refine ⟨hfirst.le, ?_, ?_⟩
    · have hne : s.drop p ≠ [] := by
        intro hnil
        exact ht (List.prefix_nil.mp (hnil ▸ hfirst.here))
      exact (hP _).mpr ⟨hne, Or.inl hfirst.here⟩
    · intro q hq hacc
      rcases ((hP _).mp hacc).2 with hin | hend
      · exact hfirst.before q hq hin
      · have hle := hend.length_le
        rw [List.length_drop] at hle
        omega

end EmbeddedCourse.Occurrences
