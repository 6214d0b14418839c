import EmbeddedCourse.Lib.CString

/-! # Lines from the standard input

What the prompts of the two subscriber directories read: `fgets` into a buffer
of 100 bytes in the one, `my_getline` in the other. The echo client reads with
`fgets`, too. `stale` stands for what the buffer holds when nothing could be read.
-/

namespace EmbeddedCourse.Directory

open CString

/-- At most `n` bytes, up to and with the first newline. -/
def takeLine : ℕ → Bytes → Bytes
  | 0, _ => []
  | _ + 1, [] => []
  | n + 1, b :: stdin => if b = 10 then [b] else b :: takeLine n stdin

/-- `fgets(buf, n, stdin)`: the string in the buffer, and the rest of the input. -/
def fgets (stale : Bytes) (n : ℕ) (stdin : Bytes) : Bytes × Bytes :=
  let line := takeLine (n - 1) stdin
  (if line = [] then stale else cstr line, stdin.drop line.length)

/-- A prompt of the array directory: `fgets(buf, 100, stdin)`, cut at the newline. -/
def prompt (stale stdin : Bytes) : Bytes × Bytes :=
  let (buf, rest) := fgets stale 100 stdin
  (buf.takeWhile (· != 10), rest)

/-- `my_getline`. When the string is empty the access to the byte in front of it
is left out. -/
def myGetline (stale stdin : Bytes) : Bytes × Bytes :=
  let line := takeLine stdin.length stdin
  let str := if line = [] then stale else cstr line
  (if str.getLast? = some 10 then str.dropLast else str, stdin.drop line.length)

/-- What can be typed in one line. -/
structure Typed (l : Bytes) : Prop where
  noNul : NoNul l
  noNewline : 10 ∉ l

instance (l : Bytes) : Decidable (Typed l) :=
  decidable_of_iff (NoNul l ∧ 10 ∉ l) ⟨fun h => ⟨h.1, h.2⟩, fun h => ⟨h.noNul, h.noNewline⟩⟩

theorem takeLine_typed {l : Bytes} (h : 10 ∉ l) (rest : Bytes) {n : ℕ} (hn : l.length < n) :
    takeLine n (l ++ 10 :: rest) = l ++ [10] := by
  induction l generalizing n with
  | nil =>
    rcases Nat.exists_eq_succ_of_ne_zero (Nat.ne_of_gt hn) with ⟨m, rfl⟩
    simp [takeLine]
  | cons b l ih =>
    rcases Nat.exists_eq_succ_of_ne_zero (Nat.ne_of_gt (Nat.zero_lt_of_lt hn)) with ⟨m, rfl⟩
    have hb : b ≠ 10 := fun he => h (by simp [he])
    have htail := ih (n := m) (fun hmem => h (List.mem_cons_of_mem b hmem)) (by simpa using hn)
    simp [takeLine, hb, htail]

/-- A line as long as the buffer is read without its newline. -/
theorem takeLine_full {l : Bytes} (h : 10 ∉ l) (rest : Bytes) {n : ℕ} (hn : l.length = n) :
    takeLine n (l ++ rest) = l := by
  subst hn
  induction l with
  | nil => rfl
  | cons b l ih =>
    have hb : b ≠ 10 := fun he => h (by simp [he])
    have htail := ih fun hmem => h (List.mem_cons_of_mem b hmem)
    simp [takeLine, hb, htail]

theorem takeWhile_line {l : Bytes} (h : 10 ∉ l) : l.takeWhile (· != 10) = l := by
  rw [List.takeWhile_eq_self_iff]
  intro b hb
  have hne : b ≠ 10 := fun he => h (he ▸ hb)
  simpa using hne

theorem drop_typed (l rest : Bytes) : (l ++ 10 :: rest).drop (l ++ [(10 : UInt8)]).length = rest := by
  have hcons : l ++ 10 :: rest = (l ++ [10]) ++ rest := by simp
  rw [hcons, List.drop_left]

theorem Typed.noNul_newline {l : Bytes} (h : Typed l) : NoNul (l ++ [10]) :=
  h.noNul.append (by decide)

/-- The string in a line, with the newline cut off. -/
theorem takeWhile_cstr {l : Bytes} (h : 10 ∉ l) : (cstr (l ++ [10])).takeWhile (· != 10) = cstr l := by
  induction l with
  | nil => rfl
  | cons b l ih =>
    have hb : b ≠ 10 := fun he => h (by simp [he])
    by_cases h0 : b = 0
    · simp [h0]
    · have hbne : (b != 10) = true := by simpa using hb
      rw [List.cons_append, cstr_cons h0, cstr_cons h0, List.takeWhile_cons, hbne, if_pos rfl,
        ih fun hmem => h (List.mem_cons_of_mem b hmem)]

/-- A line that fits the buffer is read up to its first NUL. -/
theorem prompt_line {l : Bytes} (h : 10 ∉ l) (hlen : l.length ≤ 98) (stale rest : Bytes) :
    prompt stale (l ++ 10 :: rest) = (cstr l, rest) := by
  have hline : takeLine 99 (l ++ 10 :: rest) = l ++ [10] := takeLine_typed h rest (by omega)
  have hne : l ++ [(10 : UInt8)] ≠ [] := by simp
  simp only [prompt, fgets, hline, if_neg hne, takeWhile_cstr h, drop_typed]

/-- A line that fits the buffer is read as it was typed. -/
theorem prompt_typed {l : Bytes} (h : Typed l) (hlen : l.length ≤ 98) (stale rest : Bytes) :
    prompt stale (l ++ 10 :: rest) = (l, rest) := by
  rw [prompt_line h.noNewline hlen, cstr_of_noNul h.noNul]

/-- `my_getline` reads a line of any length as it was typed. -/
theorem myGetline_typed {l : Bytes} (h : Typed l) (stale rest : Bytes) :
    myGetline stale (l ++ 10 :: rest) = (l, rest) := by
  have hline : takeLine (l ++ 10 :: rest).length (l ++ 10 :: rest) = l ++ [10] :=
    takeLine_typed h.noNewline rest (by simp)
  have hne : l ++ [(10 : UInt8)] ≠ [] := by simp
  simp only [myGetline, hline, if_neg hne, cstr_of_noNul h.noNul_newline, drop_typed]
  simp

end EmbeddedCourse.Directory
