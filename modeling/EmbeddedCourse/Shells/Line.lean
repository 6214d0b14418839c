import EmbeddedCourse.Directory.Input
import EmbeddedCourse.Lib.Tokens

/-! # The line buffer of the shells

What both shells do before they look for commands: `fgets` into a buffer that is
kept from one round to the next, and the cut at the newline. The arguments of a
command are pointers into this buffer.
-/

namespace EmbeddedCourse.Shells

open CString Tokens

/-- `MAX_LENGTH_INPUT_STRING` -/
def maxLengthInputString : ℕ := 1024

/-- `MAX_NUMBER_ARGUMENTS` -/
def maxNumberArguments : ℕ := 64

def space : Bytes := ascii [' ']

theorem zero_notMem_space : (0 : UInt8) ∉ space := by decide

def wordExit : Bytes := ascii ['e', 'x', 'i', 't']

/-- `fgets(line, n, stdin)` on the bytes of the buffer; at the end of the input it
leaves them as they are. -/
def fgets (line : Bytes) (n : ℕ) (stdin : Bytes) : Bytes × Bytes :=
  let read := Directory.takeLine (n - 1) stdin
  (if read = [] then line else sprintf line read, stdin.drop read.length)

/-- `fgets`, and `line[strcspn(line, "\n")] = '\0'`. -/
def readLine (line stdin : Bytes) : Bytes × Bytes :=
  let r := fgets line maxLengthInputString stdin
  (r.1.set (strcspn r.1 [10]) 0, r.2)

/-- An element of an array of arguments: not yet written, NULL, or a pointer into the line. -/
inductive Arg where
  | indeterminate
  | null
  | token (start : ℕ)
deriving DecidableEq, Repr

/-- Why a shell does not come to the end of a round. -/
inductive Stop where
  | exited
  | undefined
deriving DecidableEq, Repr

/-- The strings of an array of arguments up to its NULL; `none` when it has none. -/
def argv (line : Bytes) : List Arg → Option (List Bytes)
  | .token start :: args => (argv line args).map (cstr (line.drop start) :: ·)
  | .null :: _ => some []
  | .indeterminate :: _ | [] => none

/-- A line up to its first NUL, with the bytes that are left behind it. -/
theorem readLine_line {l : Bytes} (h : 10 ∉ l) (hlen : l.length ≤ 1022) (line rest : Bytes) :
    ∃ r, readLine line (l ++ 10 :: rest) = (cstr l ++ 0 :: r, rest) := by
  have hread : Directory.takeLine (maxLengthInputString - 1) (l ++ 10 :: rest) = l ++ [10] :=
    Directory.takeLine_typed h rest (by unfold maxLengthInputString; omega)
  have hne : l ++ [(10 : UInt8)] ≠ [] := by simp
  have hbuf : sprintf line (l ++ [10]) = l ++ 10 :: 0 :: line.drop (l.length + 2) := by
    simp [sprintf]
  simp only [readLine, fgets, hread, if_neg hne, hbuf, Directory.drop_typed]
  -- the string ends in the newline or in an earlier NUL
  obtain ⟨b, t, hb, hsplit⟩ : ∃ b t, (b = 0 ∨ b ∈ [(10 : UInt8)]) ∧
      l ++ 10 :: 0 :: line.drop (l.length + 2) = cstr l ++ b :: t := by
    by_cases h0 : 0 ∈ l
    · rcases exists_cstr h0 with ⟨r, hr⟩
      refine ⟨0, r ++ 10 :: 0 :: line.drop (l.length + 2), Or.inl rfl, ?_⟩
      nth_rewrite 1 [hr]
      simp
    · exact ⟨10, _, Or.inr (by simp), by rw [cstr_of_noNul h0]⟩
  have hstop : strcspn (cstr l ++ b :: t) [10] = (cstr l).length := by
    apply strcspn_stop (noNul_cstr l) _ hb
    intro a ha hmem
    obtain rfl : a = 10 := by simpa using hmem
    exact h (List.takeWhile_subset _ ha)
  refine ⟨t, ?_⟩
  rw [hsplit, hstop, Cells.set_middle rfl]

/-- At the end of the input the string in the buffer stays, up to a newline in it. -/
theorem readLine_nil {l : Bytes} (h : Directory.Typed l) (rest : Bytes) :
    readLine (l ++ 0 :: rest) [] = (l ++ 0 :: rest, []) := by
  have hstop : strcspn (l ++ 0 :: rest) [10] = l.length := by
    apply strcspn_stop h.noNul _ (Or.inl rfl)
    intro b hb hmem
    obtain rfl : b = 10 := by simpa using hmem
    exact h.noNewline hb
  simp [readLine, fgets, Directory.takeLine, maxLengthInputString, hstop, Cells.set_middle rfl]

/-- The string in the line has the words `ws`. -/
def Holds (line : Bytes) (ws : List Bytes) : Prop :=
  ∃ l r, line = l ++ 0 :: r ∧ Directory.Typed l ∧ words space l = ws

/-- The string that the loop over the tokens leaves is a line with one word. -/
theorem holds_first {l l' rest : Bytes} (h : Directory.Typed l)
    (hagain : Lexed space (cstr (l' ++ 0 :: rest)) ((words space l).take 1)) :
    Holds (l' ++ 0 :: rest) ((words space l).take 1) := by
  rcases exists_cstr (show (0 : UInt8) ∈ l' ++ 0 :: rest by simp) with ⟨r, hr⟩
  refine ⟨cstr (l' ++ 0 :: rest), r, hr, ⟨noNul_cstr _, ?_⟩, hagain.words_eq⟩
  intro h10
  rcases hagain.mem h10 with hspace | ⟨w, hw, hin⟩
  · exact absurd hspace (by decide)
  · exact h.noNewline ((lexed_words l).mem_of_word (List.mem_of_mem_take hw) hin)

/-- The strings of pointers in front of a NULL. -/
theorem argv_tokens (line : Bytes) (starts : List ℕ) (t : List Arg) :
    argv line (starts.map Arg.token ++ .null :: t) =
      some (starts.map fun a => cstr (line.drop a)) := by
  induction starts with
  | nil => rfl
  | cons a starts ih => rw [List.map_cons, List.cons_append, argv, ih, Option.map_some, List.map_cons]

/-- The words of tokens that stand in the line. -/
theorem argv_row {line : Bytes} {es : List (ℕ × Bytes)}
    (hline : ∀ e ∈ es, cstr (line.drop e.1) = e.2) (t : List Arg) :
    argv line (es.map (fun e => Arg.token e.1) ++ .null :: t) = some (es.map Prod.snd) := by
  have htokens : es.map (fun e => Arg.token e.1) = (es.map Prod.fst).map Arg.token := by simp
  rw [htokens, argv_tokens, List.map_map]
  congr 1
  exact List.map_congr_left hline

end EmbeddedCourse.Shells
