import EmbeddedCourse.Lib.CString
import EmbeddedCourse.Lib.OnesComplement

/-! # The checksum of an IP header

`calculate_checksum` of `Sockets/Task_4/client_2.c` and `client_3.c`. The words of
the buffer are in the byte order of the host, which is little-endian; a last byte
without a partner counts as it is. `wordSum` is the sum as a natural number.
-/

namespace EmbeddedCourse.Sockets

open CString

/-- `while (len > 1)`, and the last byte. -/
def sumWords : Bytes → UInt32 → UInt32
  | a :: b :: buffer, sum => sumWords buffer (sum + (a.toUInt32 + 256 * b.toUInt32))
  | [a], sum => sum + a.toUInt32
  | [], sum => sum

theorem toNat_carried (sum : UInt32) :
    ((sum &&& (0xFFFF : UInt32)) + (sum >>> 16)).toNat = sum.toNat % 65536 + sum.toNat / 65536 := by
  have hlt := sum.toNat_lt
  have hlow : (sum &&& (0xFFFF : UInt32)).toNat = sum.toNat % 65536 := by
    rw [UInt32.toNat_and]
    exact Nat.and_two_pow_sub_one_eq_mod sum.toNat 16
  have hhigh : (sum >>> 16).toNat = sum.toNat / 65536 := by
    rw [UInt32.toNat_shiftRight]
    exact Nat.shiftRight_eq_div_pow sum.toNat 16
  rw [UInt32.toNat_add, hlow, hhigh]
  omega

theorem shiftRight_eq_zero_iff (sum : UInt32) : sum >>> 16 = 0 ↔ sum.toNat < 65536 := by
  have hhigh : (sum >>> 16).toNat = sum.toNat / 65536 := by
    rw [UInt32.toNat_shiftRight]
    exact Nat.shiftRight_eq_div_pow sum.toNat 16
  rw [← UInt32.toNat_inj, hhigh]
  exact Nat.div_eq_zero_iff_lt (by decide)

/-- `while (sum >> 16)` -/
def foldCarries (sum : UInt32) : UInt32 :=
  if sum >>> 16 = 0 then sum else foldCarries ((sum &&& (0xFFFF : UInt32)) + (sum >>> 16))
termination_by sum.toNat
decreasing_by
  rename_i h
  rw [toNat_carried]
  apply OnesComplement.carried_lt (by decide)
  rw [shiftRight_eq_zero_iff] at h
  omega

/-- `calculate_checksum`, on a buffer of `len` bytes. -/
def calculateChecksum (buffer : Bytes) : UInt16 := (~~~ foldCarries (sumWords buffer 0)).toUInt16

/-- The assignment of a word at an offset. -/
def storeWord (buffer : Bytes) (k : ℕ) (v : UInt16) : Bytes :=
  (buffer.set k (UInt8.ofNat (v.toNat % 256))).set (k + 1) (UInt8.ofNat (v.toNat / 256))

/-- The sum of the words. -/
def wordSum : Bytes → ℕ
  | a :: b :: buffer => a.toNat + 256 * b.toNat + wordSum buffer
  | [a] => a.toNat
  | [] => 0

/-- No addition of a call wraps: the sum is exact after any part of the buffer, and
the carries are folded as those of a natural number. -/
structure Exact (buffer : Bytes) : Prop where
  sum : ∀ n, (sumWords (buffer.take n) 0).toNat = wordSum (buffer.take n)
  fold : (foldCarries (sumWords buffer 0)).toNat = OnesComplement.fold 65536 (wordSum buffer)

/-! ## The sum -/

theorem wordSum_le (buffer : Bytes) : wordSum buffer ≤ 65535 * ((buffer.length + 1) / 2) := by
  induction buffer using wordSum.induct with
  | case1 a b buffer ih =>
    have ha := a.toNat_lt
    have hb := b.toNat_lt
    have hlen : ((a :: b :: buffer).length + 1) / 2 = (buffer.length + 1) / 2 + 1 := by
      rw [List.length_cons, List.length_cons]
      omega
    rw [wordSum, hlen]
    omega
  | case2 a =>
    have ha := a.toNat_lt
    rw [wordSum, List.length_singleton]
    omega
  | case3 => exact Nat.zero_le _

theorem toNat_sumWords (buffer : Bytes) (sum : UInt32) (h : sum.toNat + wordSum buffer < 2 ^ 32) :
    (sumWords buffer sum).toNat = sum.toNat + wordSum buffer := by
  induction buffer, sum using sumWords.induct with
  | case1 a b buffer sum ih =>
    have ha := a.toNat_lt
    have hb := b.toNat_lt
    have hword : (sum + (a.toUInt32 + 256 * b.toUInt32)).toNat = sum.toNat + (a.toNat + 256 * b.toNat) := by
      rw [wordSum] at h
      rw [UInt32.toNat_add, UInt32.toNat_add, UInt32.toNat_mul, UInt8.toNat_toUInt32, UInt8.toNat_toUInt32]
      have h256 : (256 : UInt32).toNat = 256 := rfl
      rw [h256]
      omega
    rw [wordSum] at h ⊢
    rw [sumWords, ih (by rw [hword]; omega), hword]
    omega
  | case2 a sum =>
    rw [wordSum] at h ⊢
    rw [sumWords, UInt32.toNat_add, UInt8.toNat_toUInt32]
    omega
  | case3 sum => rfl

theorem toNat_foldCarries (sum : UInt32) :
    (foldCarries sum).toNat = OnesComplement.fold 65536 sum.toNat := by
  induction sum using foldCarries.induct with
  | case1 sum h =>
    rw [foldCarries, if_pos h, OnesComplement.fold_of_lt ((shiftRight_eq_zero_iff sum).mp h)]
  | case2 sum h ih =>
    have hle : 65536 ≤ sum.toNat := Nat.le_of_not_lt fun hlt => h ((shiftRight_eq_zero_iff sum).mpr hlt)
    rw [foldCarries, if_neg h, ih, toNat_carried, OnesComplement.fold_of_le (by decide) hle]

theorem exact_of_length {buffer : Bytes} (h : buffer.length ≤ 65535) : Exact buffer := by
  have hsum : ∀ part : Bytes, part.length ≤ 65535 → (sumWords part 0).toNat = wordSum part := by
    intro part hpart
    have hle := wordSum_le part
    rw [toNat_sumWords part 0 (by rw [UInt32.toNat_zero]; omega), UInt32.toNat_zero, Nat.zero_add]
  constructor
  · intro n
    apply hsum
    rw [List.length_take]
    omega
  · rw [toNat_foldCarries, hsum buffer h]

/-- The result is the complement of the folded sum. -/
theorem toNat_calculateChecksum {buffer : Bytes} (h : Exact buffer) :
    (calculateChecksum buffer).toNat = 65535 - OnesComplement.fold 65536 (wordSum buffer) := by
  have hlt := OnesComplement.fold_lt (b := 65536) (by decide) (wordSum buffer)
  have hsize : UInt32.size = 4294967296 := rfl
  rw [calculateChecksum, UInt32.toNat_toUInt16, UInt32.toNat_not, h.fold]
  omega

/-! ## The word of the checksum -/

theorem length_storeWord (buffer : Bytes) (k : ℕ) (v : UInt16) :
    (storeWord buffer k v).length = buffer.length := by
  unfold storeWord
  rw [List.length_set, List.length_set]

/-- A word stored in the place of a zero adds to the sum what it is. -/
theorem wordSum_storeWord (v : UInt16) {buffer : Bytes} {j : ℕ} (hlow : buffer[2 * j]? = some 0)
    (hhigh : buffer[2 * j + 1]? = some 0) :
    wordSum (storeWord buffer (2 * j) v) = wordSum buffer + v.toNat := by
  induction j generalizing buffer with
  | zero =>
    cases buffer with
    | nil => cases hlow
    | cons a buffer =>
      cases buffer with
      | nil => cases hhigh
      | cons b buffer =>
        -- the two bytes are those of the zero word
        obtain rfl := Option.some.inj hlow
        obtain rfl := Option.some.inj hhigh
        have hv := v.toNat_lt
        have hstore : storeWord (0 :: 0 :: buffer) (2 * 0) v =
            UInt8.ofNat (v.toNat % 256) :: UInt8.ofNat (v.toNat / 256) :: buffer := rfl
        rw [hstore, wordSum, wordSum, UInt8.toNat_ofNat', UInt8.toNat_ofNat', UInt8.toNat_zero]
        omega
  | succ j ih =>
    -- the word stands behind the first one
    have hidx : 2 * (j + 1) = 2 * j + 1 + 1 := by omega
    rw [hidx] at hlow hhigh ⊢
    cases buffer with
    | nil => cases hlow
    | cons a buffer =>
      cases buffer with
      | nil => cases hlow
      | cons b buffer =>
        have hstore : storeWord (a :: b :: buffer) (2 * j + 1 + 1) v =
            a :: b :: storeWord buffer (2 * j) v := rfl
        rw [hstore, wordSum, wordSum, ih hlow hhigh]
        omega

/-- For every buffer of at most 65535 bytes and every aligned word in it that is
zero: no sum wraps, and with the checksum in the place of the word the checksum is 0. -/
theorem checksum_verifies (buffer : Bytes) (hlen : buffer.length ≤ 65535) (k : ℕ) (heven : k % 2 = 0)
    (hin : k + 1 < buffer.length) (hzero : buffer[k]? = some 0 ∧ buffer[k + 1]? = some 0) :
    Exact buffer ∧ Exact (storeWord buffer k (calculateChecksum buffer)) ∧
      calculateChecksum (storeWord buffer k (calculateChecksum buffer)) = 0 := by
  have hexact := exact_of_length hlen
  have hexact' : Exact (storeWord buffer k (calculateChecksum buffer)) := by
    apply exact_of_length
    rw [length_storeWord]
    exact hlen
  obtain ⟨j, rfl⟩ : ∃ j, k = 2 * j := ⟨k / 2, by omega⟩
  have hsum := wordSum_storeWord (calculateChecksum buffer) hzero.1 hzero.2
  rw [toNat_calculateChecksum hexact] at hsum
  refine ⟨hexact, hexact', ?_⟩
  rw [← UInt16.toNat_inj, toNat_calculateChecksum hexact', hsum,
    OnesComplement.fold_complement (b := 65536) (by decide)]
  rfl

/-- The IP header of `client_3`, with the checksum at the offset 10. -/
def ipHeader : Bytes := [69, 0, 0, 39, 30, 97, 64, 0, 64, 17, 0, 0, 192, 168, 31, 125, 192, 168, 31, 189]

theorem checksum_verifies_ipHeader :
    Exact ipHeader ∧ Exact (storeWord ipHeader 10 (calculateChecksum ipHeader)) ∧
      calculateChecksum (storeWord ipHeader 10 (calculateChecksum ipHeader)) = 0 :=
  checksum_verifies ipHeader (by decide) 10 rfl (by decide) ⟨rfl, rfl⟩

end EmbeddedCourse.Sockets
