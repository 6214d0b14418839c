import EmbeddedCourse.Lib.CString
import EmbeddedCourse.HomeWork.Snail
import Mathlib.Order.Fin.Basic

/-! # Reversing an array

`Home_Work_2/src/main2.c`: two elements are exchanged through their sum. A value
outside of `int` has no meaning (`none`), nor has an index outside of the array.
-/

namespace EmbeddedCourse.HomeWork.SwapArray

open CString Snail.Grid

/-- An `int`. -/
abbrev CInt := {v : ℤ // IsInt v}

/-- The value of an `int` expression. -/
def cInt (v : ℤ) : Option CInt := if h : IsInt v then some ⟨v, h⟩ else none

variable {n : ℕ}

/-- The body of the loop of `swap_array`. -/
def exchange (i j : Fin n) (array : Fin n → CInt) : Option (Fin n → CInt) := do
  let sum ← cInt (array i + array j)
  let array := Function.update array i sum
  let first ← cInt (array i - array j)
  let array := Function.update array j first
  let second ← cInt (array i - array j)
  some (Function.update array i second)

def swapLoop (i j : ℤ) (array : Fin n → CInt) : Option (Fin n → CInt) :=
  if i < j then do
    let p ← subscript n i
    let q ← subscript n j
    let array ← exchange p q array
    swapLoop (i + 1) (j - 1) array
  else some array
termination_by (j - i).toNat

def swapArray (array : Fin n → CInt) : Option (Fin n → CInt) := swapLoop 0 (n - 1) array

/-! ## One exchange -/

theorem cInt_of_isInt {v : ℤ} (h : IsInt v) : cInt v = some ⟨v, h⟩ := dif_pos h

theorem cInt_of_not_isInt {v : ℤ} (h : ¬ IsInt v) : cInt v = none := dif_neg h

/-- The elements change places, if their sum is an `int`. -/
theorem exchange_eq {i j : Fin n} (hij : i ≠ j) (array : Fin n → CInt) :
    exchange i j array =
      if IsInt (array i + array j) then some (array ∘ Equiv.swap i j) else none := by
  by_cases hsum : IsInt (array i + array j)
  · have hfirst : ((array i : ℤ) + array j) - array j = array i := by omega
    have hsecond : ((array i : ℤ) + array j) - array i = array j := by omega
    rw [exchange, cInt_of_isInt hsum, if_pos hsum]
    simp only [Option.bind_eq_bind, Option.bind_some, Function.update_self,
      Function.update_of_ne hij.symm, hfirst, cInt_of_isInt (array i).property,
      Function.update_of_ne hij, hsecond, cInt_of_isInt (array j).property]
    congr 1
    funext k
    by_cases hki : k = i
    · rw [hki, Function.update_self, Function.comp_apply, Equiv.swap_apply_left]
    · by_cases hkj : k = j
      · rw [hkj, Function.update_of_ne hij.symm, Function.update_self, Function.comp_apply,
          Equiv.swap_apply_right]
      · rw [Function.update_of_ne hki, Function.update_of_ne hkj, Function.update_of_ne hki,
          Function.comp_apply, Equiv.swap_apply_of_ne_of_ne hki hkj]
  · rw [exchange, cInt_of_not_isInt hsum, if_neg hsum]
    rfl

/-! ## The array from both ends -/

/-- The array with the first and the last `i` elements reversed. -/
def mirrored {α : Type*} (array : Fin n → α) (i : ℕ) : Fin n → α :=
  fun k => if k < i ∨ n ≤ k + i then array k.rev else array k

theorem mirrored_zero {α : Type*} (array : Fin n → α) : mirrored array 0 = array := by
  funext k
  exact if_neg (by omega)

theorem mirrored_half {α : Type*} (array : Fin n → α) {i : ℕ} (h : n ≤ 2 * i + 1) :
    mirrored array i = array ∘ Fin.rev := by
  funext k
  unfold mirrored
  split_ifs with hk
  · rfl
  · have hrev : k.rev = k := by
      apply Fin.ext
      rw [Fin.val_rev]
      omega
    rw [Function.comp_apply, hrev]

/-- One more pair from the ends. -/
theorem mirrored_succ {α : Type*} (array : Fin n → α) {p : Fin n} (hp : 2 * (p : ℕ) + 1 < n) :
    mirrored array p ∘ Equiv.swap p p.rev = mirrored array (p + 1) := by
  have hrev := Fin.val_rev p
  funext k
  rw [Function.comp_apply]
  by_cases hkp : k = p
  · rw [hkp, Equiv.swap_apply_left, mirrored, mirrored, if_neg (by omega), if_pos (by omega)]
  · by_cases hkq : k = p.rev
    · rw [hkq, Equiv.swap_apply_right, mirrored, mirrored, if_neg (by omega), if_pos (by omega),
        Fin.rev_rev]
    · -- an element outside the pair stays where it is
      have hvp : (k : ℕ) ≠ p := fun h => hkp (Fin.ext h)
      have hvq : (k : ℕ) ≠ p.rev := fun h => hkq (Fin.ext h)
      rw [Equiv.swap_apply_of_ne_of_ne hkp hkq, mirrored, mirrored]
      by_cases hk : k < (p : ℕ) ∨ n ≤ k + p
      · rw [if_pos hk, if_pos (by omega)]
      · rw [if_neg hk, if_neg (by omega)]

/-! ## The loop -/

/-- The mirrored pairs from `i` on have an `int` as their sum. -/
def SumsFit (array : Fin n → CInt) (i : ℕ) : Prop :=
  ∀ k : Fin n, i ≤ k → 2 * (k : ℕ) + 1 < n → IsInt (array k + array k.rev)

instance (array : Fin n → CInt) (i : ℕ) : Decidable (SumsFit array i) :=
  inferInstanceAs (Decidable (∀ _ : Fin n, _ → _ → IsInt _))

theorem subscript_val (p : Fin n) : subscript n p = some p := by
  rw [subscript, dif_pos (by omega)]
  rfl

theorem sumsFit_iff (array : Fin n → CInt) {p : Fin n} (hp : 2 * (p : ℕ) + 1 < n) :
    SumsFit array p ↔ IsInt (array p + array p.rev) ∧ SumsFit array (p + 1) := by
  constructor
  · intro h
    exact ⟨h p le_rfl hp, fun k hk => h k (by omega)⟩
  · rintro ⟨hsum, h⟩ k hk hk2
    by_cases hkp : k = p
    · rw [hkp]
      exact hsum
    · have hne : (k : ℕ) ≠ p := fun heq => hkp (Fin.ext heq)
      exact h k (by omega) hk2

/-- The loop at the pair `i`, `n - 1 - i`. -/
theorem swapLoop_eq (array : Fin n → CInt) (i : ℕ) :
    swapLoop i (n - 1 - i) (mirrored array i) =
      if SumsFit array i then some (array ∘ Fin.rev) else none := by
  by_cases hlt : 2 * i + 1 < n
  · have hnext := swapLoop_eq array (i + 1)
    obtain ⟨p, rfl⟩ : ∃ p : Fin n, (p : ℕ) = i := ⟨⟨i, by omega⟩, rfl⟩
    have hrev := Fin.val_rev p
    have hj : (n : ℤ) - 1 - (p : ℕ) = (p.rev : ℕ) := by omega
    have hne : p ≠ p.rev := by
      intro h
      have hval := congrArg Fin.val h
      omega
    have hleft : mirrored array p p = array p := if_neg (by omega)
    have hright : mirrored array p p.rev = array p.rev := if_neg (by omega)
    rw [swapLoop, if_pos (by omega), hj, subscript_val, subscript_val]
    simp only [Option.bind_eq_bind, Option.bind_some, sumsFit_iff array hlt]
    rw [exchange_eq hne, hleft, hright]
    by_cases hsum : IsInt (array p + array p.rev)
    · have hi : ((p : ℕ) : ℤ) + 1 = ((p + 1 : ℕ) : ℤ) := by omega
      have hj' : ((p.rev : ℕ) : ℤ) - 1 = n - 1 - ((p + 1 : ℕ) : ℤ) := by omega
      rw [if_pos hsum, Option.bind_some, mirrored_succ array hlt, hi, hj', hnext]
      simp only [hsum, true_and]
    · rw [if_neg hsum, if_neg fun h => hsum h.1, Option.bind_none]
  · -- the two indices have met, and no pair is left
    have hfit : SumsFit array i := by
      intro k hk hk2
      omega
    rw [swapLoop, if_neg (by omega), if_pos hfit, mirrored_half array (by omega)]
termination_by n - i

/-- `swap_array` reverses the array without overflow exactly where each sum of two
mirrored elements is an `int`. -/
theorem swapArray_reverses_iff (array : Fin n → CInt) :
    (∃ array', swapArray array = some array' ∧ ∀ i, array' i = array i.rev) ↔
      ∀ i : Fin n, 2 * (i : ℕ) + 1 < n → IsInt (array i + array i.rev) := by
  have hloop := swapLoop_eq array 0
  rw [mirrored_zero] at hloop
  have hswap : swapArray array = if SumsFit array 0 then some (array ∘ Fin.rev) else none := by
    rw [← hloop, swapArray]
    congr 1
    omega
  rw [hswap]
  constructor
  · rintro ⟨array', hsome, -⟩ i hi
    by_cases hfit : SumsFit array 0
    · exact hfit i (Nat.zero_le _) hi
    · rw [if_neg hfit] at hsome
      exact absurd hsome (by simp)
  · intro h
    have hfit : SumsFit array 0 := fun k _ => h k
    exact ⟨array ∘ Fin.rev, if_pos hfit, fun i => rfl⟩

/-- The largest `int` and 1. -/
def largest : Fin 2 → CInt
  | 0 => ⟨2147483647, by decide⟩
  | 1 => ⟨1, by decide⟩

theorem swapArray_largest :
    ¬ ∃ array', swapArray largest = some array' ∧ ∀ i, array' i = largest i.rev := by
  rintro ⟨array', hsome, -⟩
  have hnone : swapArray largest = none := by
    rw [swapArray, swapLoop]
    rfl
  rw [hnone] at hsome
  exact absurd hsome (by simp)

end EmbeddedCourse.HomeWork.SwapArray
