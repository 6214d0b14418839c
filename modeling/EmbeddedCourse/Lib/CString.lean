import EmbeddedCourse.Lib.Cells
import Mathlib.Algebra.Ring.Int.Defs
import Mathlib.Algebra.Ring.Nat
import Mathlib.Data.List.Basic
import Mathlib.Data.List.GetD
import Mathlib.Data.List.TakeDrop
import Mathlib.Data.List.TakeWhile

/-! # C strings in fixed buffers

Byte buffers and the `<string.h>` / `<stdio.h>` functions that write them. A
buffer is the list of its bytes; the C string in it is what stands before the
first NUL (`cstr`). The writers overlay a buffer from its start and leave the
bytes behind the written part as they were, which is what a later reader of
the buffer sees when no terminator was written.
-/

namespace EmbeddedCourse.CString

/-- A byte buffer, or the bytes of a string. -/
abbrev Bytes := List UInt8

/-- The bytes of a literal. -/
def ascii (cs : List Char) : Bytes := cs.map fun c => UInt8.ofNat c.toNat

/-- The C string at the start of a buffer: the bytes before the first NUL
(the whole buffer when it has none). -/
def cstr (buf : Bytes) : Bytes := buf.takeWhile (· != 0)

/-- `strncpy(dst, src, n)`: exactly `n` bytes are written, the string and then
NUL padding; no terminator when the string has `n` bytes or more. -/
def strncpy (dst src : Bytes) (n : ℕ) : Bytes := (cstr src).takeD n 0 ++ dst.drop n

/-- `sprintf(dst, "%s", s)`: the string and its terminator. -/
def sprintf (dst s : Bytes) : Bytes := s ++ 0 :: dst.drop (s.length + 1)

/-- Write `s` over the start of `dst`; what would fall behind `dst` is lost. -/
def overlay (dst s : Bytes) : Bytes := s.take dst.length ++ dst.drop s.length

/-- The `n` bytes of an integer in memory (two's complement, little endian). -/
def leBytes (n : ℕ) (v : Int) : Bytes :=
  (List.range n).map fun i => UInt8.ofNat (v / 256 ^ i % 256).toNat

/-- The integer that a little endian field holds. -/
def ofLeBytes (b : Bytes) : Int :=
  let u : ℕ := b.foldr (fun x acc => x.toNat + 256 * acc) 0
  if 2 * u < 256 ^ b.length then u else (u : Int) - 256 ^ b.length

/-- `strcmp` of two strings, as the difference of the first bytes that differ. -/
def strcmp : Bytes → Bytes → Int
  | [], [] => 0
  | a :: _, [] => a.toNat
  | [], b :: _ => -b.toNat
  | a :: s, b :: t => if a = b then strcmp s t else (a.toNat : Int) - b.toNat

/-- A text: bytes without NUL. -/
def NoNul (s : Bytes) : Prop := 0 ∉ s

instance (s : Bytes) : Decidable (NoNul s) := inferInstanceAs (Decidable (0 ∉ s))

/-! ## The string in a buffer -/

@[simp] theorem cstr_nil : cstr [] = [] := rfl

theorem noNul_cstr (buf : Bytes) : NoNul (cstr buf) := by
  intro h
  have h0 := List.mem_takeWhile_imp h
  simp at h0

theorem cstr_of_noNul {s : Bytes} (h : NoNul s) : cstr s = s := by
  rw [cstr, List.takeWhile_eq_self_iff]
  intro b hb
  have hne : b ≠ 0 := fun h0 => h (h0 ▸ hb)
  simpa using hne

@[simp] theorem cstr_cstr (buf : Bytes) : cstr (cstr buf) = cstr buf :=
  cstr_of_noNul (noNul_cstr buf)

/-- A text at the start of a buffer runs on into what stands behind it. -/
theorem cstr_append {s : Bytes} (h : NoNul s) (t : Bytes) : cstr (s ++ t) = s ++ cstr t := by
  rw [cstr, List.takeWhile_append_of_pos]
  · rfl
  · intro b hb
    have hne : b ≠ 0 := fun h0 => h (h0 ▸ hb)
    simpa using hne

@[simp] theorem cstr_zero_cons (t : Bytes) : cstr (0 :: t) = [] := rfl

theorem cstr_replicate_zero (n : ℕ) : cstr (List.replicate n 0) = [] := by
  cases n with
  | zero => rfl
  | succ n => rw [List.replicate_succ, cstr_zero_cons]

theorem cstr_cons {b : UInt8} (hb : b ≠ 0) (t : Bytes) : cstr (b :: t) = b :: cstr t := by
  simp [cstr, hb]

theorem cstr_terminated {s : Bytes} (h : NoNul s) (t : Bytes) : cstr (s ++ 0 :: t) = s := by
  rw [cstr_append h, cstr_zero_cons, List.append_nil]

/-- A NUL behind the bytes ends the string that is in them at the latest. -/
theorem cstr_append_zero (s t : Bytes) : cstr (s ++ 0 :: t) = cstr s := by
  induction s with
  | nil => rfl
  | cons b s ih =>
    by_cases hb : b = 0
    · rw [hb, List.cons_append, cstr_zero_cons, cstr_zero_cons]
    · rw [List.cons_append, cstr_cons hb, cstr_cons hb, ih]

theorem length_cstr_le (buf : Bytes) : (cstr buf).length ≤ buf.length :=
  (List.takeWhile_prefix _).length_le

/-- A buffer with a NUL in it is its string, the terminator, and what stands behind. -/
theorem exists_cstr {buf : Bytes} (h : 0 ∈ buf) : ∃ r, buf = cstr buf ++ 0 :: r := by
  induction buf with
  | nil => exact absurd h (by simp)
  | cons b t ih =>
    by_cases hb : b = 0
    · exact ⟨t, by rw [hb, cstr_zero_cons, List.nil_append]⟩
    · rcases List.mem_cons.mp h with h | h
      · exact absurd h.symm hb
      · rcases ih h with ⟨r, hr⟩
        refine ⟨r, ?_⟩
        rw [cstr_cons hb, List.cons_append, ← hr]

/-- The string is empty exactly when the buffer does not start with a byte
other than NUL. -/
theorem cstr_eq_nil_iff {buf : Bytes} : cstr buf = [] ↔ buf.head?.getD 0 = 0 := by
  cases buf with
  | nil => simp
  | cons b t =>
    by_cases hb : b = 0
    · simp [hb]
    · simp [cstr, hb]

theorem cstr_drop_eq_nil_iff (buf : Bytes) (n : ℕ) :
    cstr (buf.drop n) = [] ↔ buf.getD n 0 = 0 := by
  rw [cstr_eq_nil_iff, List.head?_drop, List.getD_eq_getElem?_getD]

/-- A text reads as NUL from its end on and nowhere before. -/
theorem NoNul.getD_eq_zero_iff {s : Bytes} (h : NoNul s) (j : ℕ) :
    s.getD j 0 = 0 ↔ s.length ≤ j := by
  constructor
  · intro hj
    by_contra hlt
    rw [List.getD_eq_getElem _ _ (by omega)] at hj
    exact h (hj ▸ List.getElem_mem _)
  · exact fun hj => List.getD_eq_default _ _ hj

theorem cstr_take (buf : Bytes) (n : ℕ) : cstr (buf.take n) = (cstr buf).take n := by
  induction buf generalizing n with
  | nil => simp
  | cons b t ih =>
    cases n with
    | zero => simp
    | succ n =>
      by_cases hb : b = 0
      · simp [hb]
      · rw [List.take_succ_cons, cstr_cons hb, cstr_cons hb, List.take_succ_cons, ih]

theorem NoNul.append {s t : Bytes} (hs : NoNul s) (ht : NoNul t) : NoNul (s ++ t) := by
  intro h
  rcases List.mem_append.mp h with h | h
  · exact hs h
  · exact ht h

theorem NoNul.take {s : Bytes} (hs : NoNul s) (n : ℕ) : NoNul (s.take n) :=
  fun h => hs (List.mem_of_mem_take h)

/-- `strcmp` orders texts as lists of bytes. -/
theorem strcmp_pos_iff {s t : Bytes} (hs : NoNul s) : 0 < strcmp s t ↔ t < s := by
  induction s generalizing t with
  | nil => cases t <;> simp [strcmp]
  | cons a s ih =>
    have ha : a ≠ 0 := fun h => hs (by simp [h])
    have hpos : 0 < a.toNat := Nat.pos_of_ne_zero fun h => ha (UInt8.toNat_inj.mp h)
    cases t with
    | nil => simpa [strcmp] using hpos
    | cons b t =>
      have htail : 0 < strcmp s t ↔ t < s := ih fun h => hs (List.mem_cons_of_mem a h)
      rw [strcmp, List.cons_lt_cons_iff, UInt8.lt_iff_toNat_lt]
      split_ifs with hab
      · subst hab
        rw [htail]
        simp
      · constructor
        · intro hlt
          exact Or.inl (by omega)
        · rintro (hlt | ⟨heq, -⟩)
          · omega
          · exact absurd heq.symm hab

/-! ## Overlays -/

/-- What fits the buffer is written in front of the rest of it. -/
theorem overlay_of_le {dst s : Bytes} (h : s.length ≤ dst.length) :
    overlay dst s = s ++ dst.drop s.length := by
  rw [overlay, List.take_of_length_le h]

/-- Behind what is written the buffer is as before. -/
theorem drop_overlay {dst s : Bytes} (h : s.length ≤ dst.length) {n : ℕ} (hn : s.length ≤ n) :
    (overlay dst s).drop n = dst.drop n := by
  rw [overlay_of_le h, List.drop_append, List.drop_of_length_le hn, List.nil_append, List.drop_drop]
  congr 1
  omega

/-! ## Padding -/

/-- A padded text reads back as the text, cut at the width of the field. -/
theorem cstr_takeD {s : Bytes} (h : NoNul s) (n : ℕ) : cstr (s.takeD n 0) = s.take n := by
  rw [Cells.takeD_eq_append, cstr_append (h.take n)]
  cases hk : n - s.length with
  | zero => simp
  | succ k => simp [List.replicate_succ]

/-- The byte of a padded text at `j`. -/
theorem getD_takeD (s : Bytes) {n j : ℕ} (hj : j < n) : (s.takeD n 0).getD j 0 = s.getD j 0 := by
  induction n generalizing s j with
  | zero => omega
  | succ n ih =>
    cases s with
    | nil =>
      rw [List.takeD_nil]
      simp [List.getD_eq_getElem?_getD, hj]
    | cons b t =>
      cases j with
      | zero => simp
      | succ j => simpa using ih t (by omega)

/-- Zeros behind a text are not told apart from its end. -/
theorem getD_append_zeros (s : Bytes) (n j : ℕ) :
    (s ++ List.replicate n 0).getD j 0 = s.getD j 0 := by
  by_cases hj : j < s.length
  · exact List.getD_append _ _ _ _ hj
  · have hge : s.length ≤ j := Nat.le_of_not_lt hj
    rw [List.getD_append_right _ _ _ _ hge, List.getD_eq_default s 0 hge]
    simp [List.getD_eq_getElem?_getD]

/-! ## `strncpy` and `sprintf` -/

/-- The first `n` bytes after `strncpy` are the padded source. -/
theorem take_strncpy (dst src : Bytes) (n : ℕ) :
    (strncpy dst src n).take n = (cstr src).takeD n 0 := by
  rw [strncpy, List.take_left' (List.takeD_length ..)]

/-- A field of `n` bytes filled by `strncpy` reads back as the source cut at `n`. -/
theorem cstr_take_strncpy (dst src : Bytes) (n : ℕ) :
    cstr ((strncpy dst src n).take n) = (cstr src).take n := by
  rw [take_strncpy, cstr_takeD (noNul_cstr src)]

/-- A NUL behind the copied field ends the string that was cut to fit it. -/
theorem cstr_strncpy_terminated {dst t : Bytes} (src : Bytes) {n : ℕ} (h : dst.drop n = 0 :: t) :
    cstr (strncpy dst src n) = (cstr src).take n := by
  rw [strncpy, h, Cells.takeD_eq_append, List.append_assoc, cstr_append ((noNul_cstr src).take n)]
  cases n - (cstr src).length with
  | zero => simp
  | succ k => simp [List.replicate_succ]

/-- `strncpy(dst, s, strlen(s))` writes the text without its terminator. -/
theorem strncpy_strlen {s : Bytes} (h : NoNul s) (dst : Bytes) :
    strncpy dst s s.length = s ++ dst.drop s.length := by
  rw [strncpy, cstr_of_noNul h, List.takeD_eq_take 0 le_rfl, List.take_length]

/-- A copy with the terminator. -/
theorem strncpy_string {s : Bytes} (h : NoNul s) (rest : Bytes) :
    strncpy [] (s ++ 0 :: rest) (s.length + 1) = s ++ 0 :: [] := by
  rw [strncpy, cstr_terminated h, Cells.takeD_eq_append, List.take_of_length_le (by omega)]
  simp

/-- What a reader sees after an unterminated copy: the text and then the old
content of the buffer behind it. -/
theorem cstr_strncpy_strlen {s : Bytes} (h : NoNul s) (dst : Bytes) :
    cstr (strncpy dst s s.length) = s ++ cstr (dst.drop s.length) := by
  rw [strncpy_strlen h, cstr_append h]

/-- Byte `j` after `strncpy`. -/
theorem getD_strncpy (dst src : Bytes) (n j : ℕ) :
    (strncpy dst src n).getD j 0 = if j < n then (cstr src).getD j 0 else dst.getD j 0 := by
  split_ifs with hj
  · rw [strncpy, List.getD_append _ _ _ _ (by rw [List.takeD_length]; exact hj), getD_takeD _ hj]
  · rw [strncpy, List.getD_append_right _ _ _ _ (by rw [List.takeD_length]; omega),
      List.takeD_length]
    simp only [List.getD_eq_getElem?_getD, List.getElem?_drop]
    congr 2
    omega

theorem length_strncpy {dst : Bytes} {n : ℕ} (h : n ≤ dst.length) (src : Bytes) :
    (strncpy dst src n).length = dst.length := by
  rw [strncpy, List.length_append, List.takeD_length, List.length_drop]
  omega

/-- A part of a string that is copied and terminated. -/
theorem cstr_strncpy_set {dst src : Bytes} {n : ℕ} (hsrc : n ≤ (cstr src).length)
    (hdst : n < dst.length) : cstr ((strncpy dst src n).set n 0) = (cstr src).take n := by
  have hlen : ((cstr src).take n).length = n := by
    rw [List.length_take]
    omega
  rw [strncpy, List.takeD_eq_take 0 hsrc, List.drop_eq_getElem_cons hdst, Cells.set_middle hlen,
    cstr_terminated ((noNul_cstr src).take n)]

/-! ## Numbers in memory -/

theorem ofLeBytes_four (x₀ x₁ x₂ x₃ : UInt8) :
    ofLeBytes [x₀, x₁, x₂, x₃] =
      if x₃.toNat < 128 then
        (x₀.toNat + 256 * x₁.toNat + 65536 * x₂.toNat + 16777216 * x₃.toNat : Int)
      else x₀.toNat + 256 * x₁.toNat + 65536 * x₂.toNat + 16777216 * x₃.toNat - 4294967296 := by
  have h₀ := x₀.toNat_lt
  have h₁ := x₁.toNat_lt
  have h₂ := x₂.toNat_lt
  have hfold : [x₀, x₁, x₂, x₃].foldr (fun x acc => x.toNat + 256 * acc) 0 =
      x₀.toNat + 256 * x₁.toNat + 65536 * x₂.toNat + 16777216 * x₃.toNat := by
    simp only [List.foldr_cons, List.foldr_nil]
    omega
  have hlen : [x₀, x₁, x₂, x₃].length = 4 := rfl
  unfold ofLeBytes
  dsimp only
  rw [hfold, hlen]
  clear hfold
  by_cases hsign : x₃.toNat < 128
  · rw [if_pos hsign, if_pos (by omega)]
    push_cast
    rfl
  · rw [if_neg hsign, if_neg (by omega)]
    push_cast
    rfl

theorem leBytes_four (v : Int) :
    leBytes 4 v = [UInt8.ofNat (v % 256).toNat, UInt8.ofNat (v / 256 % 256).toNat,
      UInt8.ofNat (v / 65536 % 256).toNat, UInt8.ofNat (v / 16777216 % 256).toNat] := by
  simp [leBytes, List.range_succ]

/-- What an `int` holds. -/
def IsInt (v : Int) : Prop := -2147483648 ≤ v ∧ v < 2147483648

instance (v : Int) : Decidable (IsInt v) := inferInstanceAs (Decidable (_ ∧ _))

theorem ofLeBytes_leBytes {v : Int} (h : IsInt v) : ofLeBytes (leBytes 4 v) = v := by
  have hbyte : ∀ w : Int, 0 ≤ w → w < 256 → ((UInt8.ofNat w.toNat).toNat : Int) = w := by
    intro w hlo hhi
    rw [UInt8.toNat_ofNat']
    omega
  have h₀ := hbyte (v % 256) (by omega) (by omega)
  have h₁ := hbyte (v / 256 % 256) (by omega) (by omega)
  have h₂ := hbyte (v / 65536 % 256) (by omega) (by omega)
  have h₃ := hbyte (v / 16777216 % 256) (by omega) (by omega)
  rw [leBytes_four, ofLeBytes_four]
  unfold IsInt at h
  split_ifs with hsign <;> omega

/-- The two low bytes of a number in memory. -/
theorem ofLeBytes_low (x₀ x₁ x₂ x₃ : UInt8) :
    IsInt (ofLeBytes [x₀, x₁, x₂, x₃]) ∧ ofLeBytes [x₀, x₁, x₂, x₃] / 256 % 256 = x₁.toNat ∧
      (x₁ = 0 → x₂ = 0 → x₃ = 0 → ofLeBytes [x₀, x₁, x₂, x₃] = x₀.toNat) := by
  have h₀ := x₀.toNat_lt
  have h₁ := x₁.toNat_lt
  have h₂ := x₂.toNat_lt
  have h₃ := x₃.toNat_lt
  rw [ofLeBytes_four]
  unfold IsInt
  refine ⟨?_, ?_, ?_⟩
  · split_ifs with hsign <;> omega
  · split_ifs with hsign <;> omega
  · rintro rfl rfl rfl
    simp

theorem length_leBytes (n : ℕ) (v : Int) : (leBytes n v).length = n := by
  simp [leBytes]

/-- A write over two fields, seen from the second one. -/
theorem drop_overlay_append (a b s : Bytes) :
    (overlay (a ++ b) s).drop a.length = overlay b (s.drop a.length) := by
  have hsum : a.length - (s.take (a ++ b).length).length + s.length = a.length + (s.length - a.length) := by
    rw [List.length_take, List.length_append]
    omega
  unfold overlay
  rw [List.drop_append, List.drop_drop, Nat.add_comm s.length, hsum, ← List.drop_drop, List.drop_left,
    List.drop_take, List.length_append, Nat.add_sub_cancel_left, List.length_drop]

/-- A short text over four bytes. -/
theorem overlay_four (y₀ y₁ y₂ y₃ : UInt8) (d : Bytes) :
    overlay [y₀, y₁, y₂, y₃] d = [d.getD 0 y₀, d.getD 1 y₁, d.getD 2 y₂, d.getD 3 y₃] := by
  rcases d with _ | ⟨b₀, _ | ⟨b₁, _ | ⟨b₂, _ | ⟨b₃, d⟩⟩⟩⟩ <;> simp [overlay]

end EmbeddedCourse.CString
