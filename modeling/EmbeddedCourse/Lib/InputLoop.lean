import Mathlib.Data.List.Basic

/-! # A loop over an input

A loop whose passes read from one input, of any kind of symbols. Each pass gets something
from its surroundings, too (`ε`): what memory holds, or where it is allocated. A pass that
has no result (`none`) does not come back.
-/

namespace EmbeddedCourse.InputLoop

variable {σ ε α : Type*}

/-- What is there after a pass: the end of the loop, or the state with the rest of the
input. -/
inductive Turn (σ α : Type*) where
  | done
  | go (s : σ) (rest : List α)

/-- What is there after `n` passes. -/
def after (pass : ε → σ → List α → Option (Turn σ α)) (env : ℕ → ε) (s : σ) (input : List α) :
    ℕ → Option (Turn σ α)
  | 0 => some (.go s input)
  | n + 1 => (after pass env s input n).bind fun t =>
      match t with
      | .done => some .done
      | .go s rest => pass (env n) s rest

/-- The loop makes finitely many passes. -/
def Ends (pass : ε → σ → List α → Option (Turn σ α)) (env : ℕ → ε) (s : σ) (input : List α) : Prop :=
  ∃ n, after pass env s input n = some .done

/-- What a pass gets is acceptable where it gets it. -/
def Admissible (pass : ε → σ → List α → Option (Turn σ α)) (ok : ε → σ → Prop) (env : ℕ → ε)
    (s : σ) (input : List α) : Prop :=
  ∀ n t rest, after pass env s input n = some (.go t rest) → ok (env n) t

/-- A loop that eats its input up: from a state in which `inv` holds a pass comes back, in such
a state again, and has read something if there was something to read; without input it
changes nothing. -/
structure Eats (pass : ε → σ → List α → Option (Turn σ α)) (ok : ε → σ → Prop) (inv : σ → Prop) :
    Prop where
  idle : ∀ e s, inv s → ok e s → pass e s [] = some (.go s [])
  comes_back : ∀ e s input, inv s → ok e s → input ≠ [] →
    pass e s input = some .done ∨
      ∃ s' rest, pass e s input = some (.go s' rest) ∧ inv s' ∧ rest.length < input.length

variable {pass : ε → σ → List α → Option (Turn σ α)} {ok : ε → σ → Prop} {inv : σ → Prop}
  {env : ℕ → ε} {s : σ} {input : List α}

/-- After `n` passes the loop has ended or has used up its input, or `n` symbols at least are
read. -/
theorem after_cases (h : Eats pass ok inv) (hs : inv s) (hok : Admissible pass ok env s input)
    (n : ℕ) :
    after pass env s input n = some .done ∨
      ∃ s' rest, after pass env s input n = some (.go s' rest) ∧ inv s' ∧
        (rest = [] ∨ rest.length + n ≤ input.length) := by
  induction n with
  | zero => exact Or.inr ⟨s, input, rfl, hs, Or.inr (Nat.le_refl _)⟩
  | succ n ih =>
    rcases ih with hdone | ⟨t, rest, hgo, ht, hrest⟩
    · left
      rw [after, hdone]
      rfl
    · have hokn := hok n t rest hgo
      have hstep : after pass env s input (n + 1) = pass (env n) t rest := by
        rw [after, hgo]
        rfl
      rw [hstep]
      by_cases hnil : rest = []
      · -- no input is left, and the pass is an idle one
        subst hnil
        exact Or.inr ⟨t, [], h.idle _ t ht hokn, ht, Or.inl rfl⟩
      · rcases h.comes_back _ t rest ht hokn hnil with hdone | ⟨s', rest', hpass, hs', hlt⟩
        · exact Or.inl hdone
        · refine Or.inr ⟨s', rest', hpass, hs', Or.inr ?_⟩
          rcases hrest with hempty | hle
          · exact absurd hempty hnil
          · omega

/-- Once the input is used up nothing changes any more. -/
theorem after_stuck (h : Eats pass ok inv) (hs : inv s) (hok : Admissible pass ok env s input)
    {n : ℕ} {t : σ} (hn : after pass env s input n = some (.go t [])) (k : ℕ) :
    after pass env s input (n + k) = some (.go t []) := by
  induction k with
  | zero => exact hn
  | succ k ih =>
    have hokt := hok (n + k) t [] ih
    -- `t` is where the loop has come to, so the invariant holds of it
    have hinv : inv t := by
      rcases after_cases h hs hok (n + k) with hdone | ⟨s', rest, hgo, hs', -⟩
      · rw [ih] at hdone
        exact absurd hdone (by simp)
      · rw [ih] at hgo
        injection hgo with hgo
        injection hgo with hstate
        exact hstate ▸ hs'
    rw [← Nat.add_assoc, after, ih]
    exact h.idle _ t hinv hokt

theorem after_done {n : ℕ} (hn : after pass env s input n = some .done) (k : ℕ) :
    after pass env s input (n + k) = some .done := by
  induction k with
  | zero => exact hn
  | succ k ih =>
    rw [← Nat.add_assoc, after, ih]
    rfl

/-- Such a loop ends if and only if no pass begins with the input used up. -/
theorem ends_iff (h : Eats pass ok inv) (hs : inv s) (hok : Admissible pass ok env s input) :
    Ends pass env s input ↔ ∀ n t, after pass env s input n ≠ some (.go t []) := by
  constructor
  · rintro ⟨m, hm⟩ n t hn
    have hstuck := after_stuck h hs hok hn m
    rw [Nat.add_comm, after_done hm] at hstuck
    exact absurd hstuck (by simp)
  · intro hno
    -- by then every symbol would have been read
    refine ⟨input.length, ?_⟩
    rcases after_cases h hs hok input.length with hdone | ⟨t, rest, hgo, -, hrest⟩
    · exact hdone
    · have hempty : rest = [] := by
        rcases hrest with hempty | hle
        · exact hempty
        · exact List.length_eq_zero_iff.mp (by omega)
      exact absurd (hempty ▸ hgo) (hno _ t)

/-- A loop that changes nothing without input does not end there. -/
theorem not_ends_nil (h : ∀ e, pass e s [] = some (.go s [])) : ¬ Ends pass env s ([] : List α) := by
  have hsame : ∀ n, after pass env s [] n = some (.go s []) := by
    intro n
    induction n with
    | zero => rfl
    | succ n ih =>
      rw [after, ih]
      exact h (env n)
  rintro ⟨n, hn⟩
  rw [hsame n] at hn
  exact absurd hn (by simp)

end EmbeddedCourse.InputLoop
