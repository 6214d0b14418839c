import EmbeddedCourse.Lib.OpenFile

/-! # A file written and read back

`Home_Work_9/Write_and_ride_file.c`: a text is written into `output.txt`, and the file is
read backwards from its end. A file that is there is opened without being cut.
-/

namespace EmbeddedCourse.HomeWork.RideFile

open CString OpenFile

/-- `str` of `write_file` -/
def str : Bytes :=
  ascii ['S', 't', 'r', 'i', 'n', 'g', ' ', 'f', 'r', 'o', 'm', ' ', 'f', 'i', 'l', 'e']

/-- The bytes of `output.txt` behind `write_file`; without a previous file an empty one
is made. -/
def writeFile (previous : Option Bytes) : Bytes :=
  (File.write ⟨previous.getD [], 0⟩ (str.take 16)).content

/-- `n` turns of the loop of `ride_file`: what is printed. At the end of the file `ch`
is not set. -/
def rideLoop : ℕ → File → Option Bytes
  | 0, _ => some []
  | n + 1, f =>
    match f.read 1 with
    | ([ch], f) => (rideLoop n (f.seekCur (-2))).map (ch :: ·)
    | _ => none

def rideFile (content : Bytes) : Option Bytes := rideLoop 16 (File.seekEnd ⟨content, 0⟩ (-1))

/-- The output of `main`. -/
def main (previous : Option Bytes) : Option Bytes := rideFile (writeFile previous)

/-! ## Reading backwards -/

/-- From the offset `p` on `n` bytes are printed backwards. -/
theorem rideLoop_eq (content : Bytes) (n p : ℕ) (hp : p < content.length) (hn : n ≤ p + 1) :
    rideLoop n ⟨content, p⟩ = some ((content.take (p + 1)).drop (p + 1 - n)).reverse := by
  induction n generalizing p with
  | zero => simp [rideLoop]
  | succ n ih =>
    have hlast : (content.take (p + 1)).drop (p + 1 - (n + 1)) =
        (content.take p).drop (p - n) ++ [content[p]] := by
      rw [List.take_succ_eq_append_getElem hp, List.drop_append_of_le_length, Nat.add_sub_add_right]
      rw [List.length_take]
      omega
    rw [rideLoop, File.read_one hp, hlast, List.reverse_append]
    cases n with
    | zero =>
      -- the seek behind the last byte printed is not looked at any more
      have hnil : (content.take p).drop (p - 0) = [] := by
        rw [Nat.sub_zero, List.drop_take_self]
      rw [hnil]
      rfl
    | succ n =>
      have hback : ((p + 1 : ℕ) : ℤ) + -2 = (p - 1 : ℕ) := by omega
      have hseek : File.seekCur ⟨content, p + 1⟩ (-2) = ⟨content, p - 1⟩ := File.seek_eq hback
      have hrest := ih (p - 1) (by omega) (by omega)
      have hp1 : p - 1 + 1 = p := by omega
      rw [hp1] at hrest
      simp only [hseek, hrest]
      rfl

/-- `ride_file` prints the last 16 bytes backwards. -/
theorem rideFile_eq {content : Bytes} (h : 16 ≤ content.length) :
    rideFile content = some (content.drop (content.length - 16)).reverse := by
  have hback : (content.length : ℤ) + -1 = (content.length - 1 : ℕ) := by omega
  have hseek : File.seekEnd ⟨content, 0⟩ (-1) = ⟨content, content.length - 1⟩ := File.seek_eq hback
  rw [rideFile, hseek, rideLoop_eq content 16 _ (by omega) (by omega)]
  have hlen : content.length - 1 + 1 = content.length := by omega
  rw [hlen, List.take_length]

theorem writeFile_eq (previous : Option Bytes) :
    writeFile previous = str ++ (previous.getD []).drop 16 := File.content_write_zero _ _

/-! ## What is left of the previous file -/

theorem length_str : str.length = 16 := rfl

/-- No end of the text is a beginning of it: its first byte is not met again. -/
theorem drop_str_ne {k : ℕ} (hpos : 0 < k) (hk : k < 16) (s : Bytes) : str.drop k ++ s ≠ str := by
  intro h
  have hfirst : ∀ k < 16, 0 < k → str[k]? ≠ str[0]? := by decide
  have hzero := congrArg (·[0]?) h
  rw [List.getElem?_append_left (by rw [List.length_drop, length_str]; omega),
    List.getElem?_drop] at hzero
  exact hfirst k hk hpos hzero

/-- What was written stands at the end of the file if nothing of a previous file is left
behind it, or if that ends with the text, too. -/
theorem drop_writeFile_iff (old : Bytes) :
    (str ++ old.drop 16).drop ((str ++ old.drop 16).length - 16) = str ↔
      old.length ≤ 16 ∨ (32 ≤ old.length ∧ old.drop (old.length - 16) = str) := by
  rw [List.length_append, length_str, List.length_drop]
  rcases Nat.lt_or_ge 16 old.length with hlong | hshort
  · rcases Nat.lt_or_ge old.length 32 with hlt | hge
    · -- the last 16 bytes begin inside the text that was written
      have hne := drop_str_ne (k := old.length - 16) (by omega) (by omega) (old.drop 16)
      have hlen : 16 + (old.length - 16) - 16 = old.length - 16 := by omega
      rw [hlen, List.drop_append_of_le_length (by rw [length_str]; omega)]
      constructor
      · intro h
        exact absurd h hne
      · rintro (h | h)
        · omega
        · omega
    · -- they all belong to the previous file
      have hlen : 16 + (old.length - 16) - 16 = str.length + (old.length - 32) := by
        rw [length_str]
        omega
      have hsum : 16 + (old.length - 32) = old.length - 16 := by omega
      rw [hlen, List.drop_length_add_append, List.drop_drop, hsum]
      constructor
      · intro h
        exact Or.inr ⟨hge, h⟩
      · rintro (h | ⟨-, h⟩)
        · omega
        · exact h
  · have hlen : 16 + (old.length - 16) - 16 = 0 := by omega
    rw [hlen, List.drop_eq_nil_of_le hshort]
    constructor
    · intro _
      exact Or.inl hshort
    · intro _
      rfl

/-- What is printed is the written text backwards exactly where the previous file has at
most 16 bytes, or at least 32 with the text at its end. -/
theorem main_prints_iff (previous : Option Bytes) :
    main previous = some str.reverse ↔
      (previous.getD []).length ≤ 16 ∨
        (32 ≤ (previous.getD []).length ∧
          (previous.getD []).drop ((previous.getD []).length - 16) = str) := by
  have hlen : 16 ≤ (str ++ (previous.getD []).drop 16).length := by
    rw [List.length_append, length_str]
    omega
  rw [main, writeFile_eq, rideFile_eq hlen, ← drop_writeFile_iff, Option.some_inj,
    List.reverse_inj]

/-- A longer file keeps its last byte. -/
theorem main_long_file : main (some (List.replicate 17 120)) ≠ some str.reverse := by
  decide

end EmbeddedCourse.HomeWork.RideFile
