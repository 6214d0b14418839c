import Mathlib.Data.Nat.ModEq

/-! # One's complement sums

A number is folded by adding the part above the last digit to that digit until one
digit of the base is left. The digit is the residue modulo `b - 1`, where a sum
that is not zero has the residue `b - 1` in place of 0. So the complement of a
folded sum, added to the sum, folds to `b - 1`.
-/

namespace EmbeddedCourse.OnesComplement

theorem carried_lt {b n : ℕ} (hb : 2 ≤ b) (hn : b ≤ n) : n % b + n / b < n := by
  have hpos : 0 < n / b := Nat.div_pos hn (by omega)
  have hle : 2 * (n / b) ≤ b * (n / b) := Nat.mul_le_mul_right _ hb
  have hsplit := Nat.div_add_mod n b
  omega

/-- Add the carries to the last digit until there are none. -/
def fold (b n : ℕ) : ℕ := if 2 ≤ b ∧ b ≤ n then fold b (n % b + n / b) else n
termination_by n
decreasing_by
  rename_i h
  exact carried_lt h.1 h.2

theorem fold_of_lt {b n : ℕ} (h : n < b) : fold b n = n := by
  rw [fold, if_neg (by omega)]

section

variable {b : ℕ} (hb : 2 ≤ b)

include hb

theorem fold_of_le {n : ℕ} (h : b ≤ n) : fold b n = fold b (n % b + n / b) := by
  rw [fold, if_pos ⟨hb, h⟩]

theorem fold_lt (n : ℕ) : fold b n < b := by
  induction n using Nat.strong_induction_on with
  | _ n ih =>
    rcases Nat.lt_or_ge n b with hn | hn
    · rw [fold_of_lt hn]
      exact hn
    · rw [fold_of_le hb hn]
      exact ih _ (carried_lt hb hn)

theorem fold_eq_zero_iff (n : ℕ) : fold b n = 0 ↔ n = 0 := by
  induction n using Nat.strong_induction_on with
  | _ n ih =>
    rcases Nat.lt_or_ge n b with hn | hn
    · rw [fold_of_lt hn]
    · have hpos : 0 < n / b := Nat.div_pos hn (by omega)
      rw [fold_of_le hb hn, ih _ (carried_lt hb hn)]
      omega

/-- A number and its folded sum have one residue modulo `b - 1`. -/
theorem fold_modEq (n : ℕ) : fold b n ≡ n [MOD b - 1] := by
  induction n using Nat.strong_induction_on with
  | _ n ih =>
    rcases Nat.lt_or_ge n b with hn | hn
    · rw [fold_of_lt hn]
    · rw [fold_of_le hb hn]
      have hbase : (b - 1) * (n / b) + (n % b + n / b) = n := by
        have hsucc : b * (n / b) = (b - 1) * (n / b) + n / b := by
          rw [← Nat.succ_mul]
          congr 1
          omega
        have hsplit := Nat.div_add_mod n b
        omega
      have hmul : 0 ≡ (b - 1) * (n / b) [MOD b - 1] :=
        (Nat.modEq_zero_iff_dvd.mpr (Nat.dvd_mul_right _ _)).symm
      calc fold b (n % b + n / b)
          ≡ n % b + n / b [MOD b - 1] := ih _ (carried_lt hb hn)
        _ = 0 + (n % b + n / b) := (Nat.zero_add _).symm
        _ ≡ (b - 1) * (n / b) + (n % b + n / b) [MOD b - 1] := hmul.add_right _
        _ = n := hbase

/-- With its complement added to it, a sum folds to `b - 1`. -/
theorem fold_complement (n : ℕ) : fold b (n + (b - 1 - fold b n)) = b - 1 := by
  have hlt := fold_lt hb n
  have hlt' := fold_lt hb (n + (b - 1 - fold b n))
  have hne : fold b (n + (b - 1 - fold b n)) ≠ 0 := by
    intro hzero
    have hsum := (fold_eq_zero_iff hb _).mp hzero
    have hn : n = 0 := by omega
    have hfold := (fold_eq_zero_iff hb n).mpr hn
    omega
  -- the residue of the sum is that of `b - 1`, and 0 is not taken
  have hres : fold b (n + (b - 1 - fold b n)) ≡ 0 [MOD b - 1] := by
    calc fold b (n + (b - 1 - fold b n))
        ≡ n + (b - 1 - fold b n) [MOD b - 1] := fold_modEq hb _
      _ ≡ fold b n + (b - 1 - fold b n) [MOD b - 1] := (fold_modEq hb n).symm.add_right _
      _ = b - 1 := by omega
      _ ≡ 0 [MOD b - 1] := Nat.modEq_zero_iff_dvd.mpr (Nat.dvd_refl _)
  have hdvd := Nat.modEq_zero_iff_dvd.mp hres
  have hle := Nat.le_of_dvd (Nat.pos_of_ne_zero hne) hdvd
  omega

end

end EmbeddedCourse.OnesComplement
