import EmbeddedCourse.Lib.CString
import Mathlib.Data.Nat.Digits.Lemmas

/-! # Fields of a packet

Reading some bytes of a buffer where they are all in it, 16-bit numbers in
network byte order, and numbers printed in decimal.
-/

namespace EmbeddedCourse.Fields

open CString

/-! ## Reading bytes -/

/-- The `n` bytes from `i` on; none when they are not all in the buffer. -/
def peek (buf : Bytes) (i n : ℕ) : Option Bytes :=
  if i + n ≤ buf.length then some ((buf.drop i).take n) else none

/-- Bytes of the first part are read there. -/
theorem peek_append {a : Bytes} {i n : ℕ} (h : i + n ≤ a.length) (b : Bytes) :
    peek (a ++ b) i n = some ((a.drop i).take n) := by
  have hle : i + n ≤ (a ++ b).length := by
    rw [List.length_append]
    omega
  rw [peek, if_pos hle, List.drop_append_of_le_length (by omega),
    List.take_append_of_le_length (by rw [List.length_drop]; omega)]

/-! ## Network byte order -/

/-- The bytes of a 16-bit number in a packet. -/
def htons (v : UInt16) : Bytes := [UInt8.ofNat (v.toNat / 256), UInt8.ofNat (v.toNat % 256)]

/-- The 16-bit number that two bytes of a packet are. -/
def ntohs (b : Bytes) : UInt16 := UInt16.ofNat (256 * (b.getD 0 0).toNat + (b.getD 1 0).toNat)

@[simp] theorem length_htons (v : UInt16) : (htons v).length = 2 := rfl

@[simp] theorem ntohs_htons (v : UInt16) : ntohs (htons v) = v := by
  have hv := v.toNat_lt
  have hhigh : (UInt8.ofNat (v.toNat / 256)).toNat = v.toNat / 256 := by
    rw [UInt8.toNat_ofNat']
    omega
  have hlow : (UInt8.ofNat (v.toNat % 256)).toNat = v.toNat % 256 := by
    rw [UInt8.toNat_ofNat']
    omega
  have hsum : 256 * (v.toNat / 256) + v.toNat % 256 = v.toNat := by omega
  show UInt16.ofNat (256 * (UInt8.ofNat (v.toNat / 256)).toNat +
    (UInt8.ofNat (v.toNat % 256)).toNat) = v
  rw [hhigh, hlow, hsum, UInt16.ofNat_toNat]

/-! ## Decimal -/

/-- The digits of a number, the first one first. -/
def digits (n : ℕ) : Bytes :=
  if n = 0 then [48] else (Nat.digits 10 n).reverse.map fun d => UInt8.ofNat (48 + d)

/-- `%d`. -/
def decimal (v : Int) : Bytes := if v < 0 then 45 :: digits v.natAbs else digits v.natAbs

/-- A digit is a byte from 48 on. -/
theorem le_of_mem_digits {n : ℕ} {b : UInt8} (h : b ∈ digits n) : 48 ≤ b.toNat := by
  unfold digits at h
  split_ifs at h
  · obtain rfl := List.mem_singleton.mp h
    decide
  · rcases List.mem_map.mp h with ⟨d, hd, rfl⟩
    have hlt : d < 10 := Nat.digits_lt_base (by decide) (List.mem_reverse.mp hd)
    rw [UInt8.toNat_ofNat']
    omega

theorem noNul_digits (n : ℕ) : NoNul (digits n) := by
  intro hmem
  exact absurd (le_of_mem_digits hmem) (by decide)

theorem noNul_decimal (v : Int) : NoNul (decimal v) := by
  unfold decimal
  split_ifs
  · intro hmem
    rcases List.mem_cons.mp hmem with h | h
    · exact absurd h (by decide)
    · exact noNul_digits _ h
  · exact noNul_digits _

/-- A negative number prints differently from every other one. -/
theorem decimal_ne {v w : Int} (hv : v < 0) (hw : 0 ≤ w) : decimal v ≠ decimal w := by
  intro he
  rw [decimal, if_pos hv, decimal, if_neg (Int.not_lt.mpr hw)] at he
  have hmem : (45 : UInt8) ∈ digits w.natAbs := by
    rw [← he]
    exact List.mem_cons_self
  exact absurd (le_of_mem_digits hmem) (by decide)

theorem length_digits_le {n k : ℕ} (hk : 0 < k) (hn : n < 10 ^ k) : (digits n).length ≤ k := by
  unfold digits
  split_ifs
  · exact hk
  · rw [List.length_map, List.length_reverse]
    exact (Nat.digits_length_le_iff (by decide) n).mpr hn

/-- An `int` prints at most eleven characters. -/
theorem length_decimal_le {v : Int} (h : v.natAbs ≤ 2 ^ 31) : (decimal v).length ≤ 11 := by
  have hlen : (digits v.natAbs).length ≤ 10 :=
    length_digits_le (by decide) (Nat.lt_of_le_of_lt h (by norm_num))
  unfold decimal
  split_ifs
  · rw [List.length_cons]
    omega
  · omega

end EmbeddedCourse.Fields
