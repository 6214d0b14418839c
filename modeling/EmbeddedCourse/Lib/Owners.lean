import Mathlib.Data.List.Basic

/-! # Names and their owners

Names (descriptors, addresses) that are in use as long as somebody owns them. A
name may be used again after it has been given back; what an owner relies on is
that, while it owns a name, the name is in use and nobody else owns it.
-/

namespace EmbeddedCourse

variable {ω ν : Type*}

/-- The names in use are those owned, each by one owner. -/
structure Owned (owns : ω → ν → Prop) (used : ν → Prop) : Prop where
  used_iff : ∀ n, used n ↔ ∃ w, owns w n
  unique : ∀ w w' n, owns w n → owns w' n → w = w'

namespace Owned

variable {owns owns' : ω → ν → Prop} {used used' : ν → Prop} {w w' : ω} {n : ν}

theorem used_of_owns (h : Owned owns used) (hw : owns w n) : used n := (h.used_iff n).mpr ⟨w, hw⟩

theorem congr (h : Owned owns used) (ho : ∀ w n, owns' w n ↔ owns w n) (hu : ∀ n, used' n ↔ used n) :
    Owned owns' used' where
  used_iff := by
    intro n
    rw [hu, h.used_iff]
    exact exists_congr fun w => (ho w n).symm
  unique := by
    intro w w' n hw hw'
    exact h.unique w w' n ((ho w n).mp hw) ((ho w' n).mp hw')

/-- A name that is not in use is taken. -/
theorem acquire (h : Owned owns used) (hn : ¬ used n)
    (ho : ∀ v m, owns' v m ↔ owns v m ∨ v = w ∧ m = n) (hu : ∀ m, used' m ↔ used m ∨ m = n) :
    Owned owns' used' where
  used_iff := by
    intro m
    rw [hu, h.used_iff]
    constructor
    · rintro (⟨v, hv⟩ | rfl)
      · exact ⟨v, (ho v m).mpr (Or.inl hv)⟩
      · exact ⟨w, (ho w m).mpr (Or.inr ⟨rfl, rfl⟩)⟩
    · rintro ⟨v, hv⟩
      rcases (ho v m).mp hv with hv | ⟨-, rfl⟩
      · exact Or.inl ⟨v, hv⟩
      · exact Or.inr rfl
  unique := by
    intro v v' m hv hv'
    rcases (ho v m).mp hv with hv | ⟨rfl, rfl⟩
    · rcases (ho v' m).mp hv' with hv' | ⟨-, rfl⟩
      · exact h.unique v v' m hv hv'
      · exact absurd (h.used_of_owns hv) hn
    · rcases (ho v' m).mp hv' with hv' | ⟨rfl, -⟩
      · exact absurd (h.used_of_owns hv') hn
      · rfl

/-- A name is given back. -/
theorem release (h : Owned owns used) (ho : ∀ v m, owns' v m ↔ owns v m ∧ m ≠ n)
    (hu : ∀ m, used' m ↔ used m ∧ m ≠ n) : Owned owns' used' where
  used_iff := by
    intro m
    rw [hu, h.used_iff]
    constructor
    · rintro ⟨⟨v, hv⟩, hm⟩
      exact ⟨v, (ho v m).mpr ⟨hv, hm⟩⟩
    · rintro ⟨v, hv⟩
      exact ⟨⟨v, ((ho v m).mp hv).1⟩, ((ho v m).mp hv).2⟩
  unique := by
    intro v v' m hv hv'
    exact h.unique v v' m ((ho v m).mp hv).1 ((ho v' m).mp hv').1

/-- All that `w` owns goes to `w'`, who owns nothing. -/
theorem handOver (h : Owned owns used) (w w' : ω) (hnone : ∀ m, ¬ owns w' m)
    (ho : ∀ v m, owns' v m ↔ (v ≠ w ∧ owns v m) ∨ v = w' ∧ owns w m) (hu : ∀ m, used' m ↔ used m) :
    Owned owns' used' where
  used_iff := by
    intro m
    rw [hu, h.used_iff]
    constructor
    · rintro ⟨v, hv⟩
      by_cases hvw : v = w
      · exact ⟨w', (ho w' m).mpr (Or.inr ⟨rfl, hvw ▸ hv⟩)⟩
      · exact ⟨v, (ho v m).mpr (Or.inl ⟨hvw, hv⟩)⟩
    · rintro ⟨v, hv⟩
      rcases (ho v m).mp hv with ⟨-, hv⟩ | ⟨-, hv⟩
      · exact ⟨v, hv⟩
      · exact ⟨w, hv⟩
  unique := by
    intro v v' m hv hv'
    rcases (ho v m).mp hv with ⟨hne, hv⟩ | ⟨rfl, hv⟩
    · rcases (ho v' m).mp hv' with ⟨-, hv'⟩ | ⟨-, hv'⟩
      · exact h.unique v v' m hv hv'
      · exact absurd (h.unique v w m hv hv') hne
    · rcases (ho v' m).mp hv' with ⟨hne, hv'⟩ | ⟨rfl, -⟩
      · exact absurd (h.unique v' w m hv' hv) hne
      · rfl

end Owned

end EmbeddedCourse
