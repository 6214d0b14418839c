import EmbeddedCourse.Directory.Input
import EmbeddedCourse.Taxi.Commands

/-! # Numbers from the standard input

`scanf("%d", …)` and the `clean_buffer` behind it. The number is read as `sscanf` reads it;
what is not read stays on the input.
-/

namespace EmbeddedCourse.Directory

open CString Taxi

/-- The number, if there is one, and the rest of the input. Blanks are read in any case, and
a sign that no digit follows, too. -/
def scanfInt (stdin : Bytes) : Option Int × Bytes :=
  match scanInt stdin with
  | some (v, rest) => (some v, rest)
  | none =>
    let text := stdin.dropWhile isSpace
    (none, if text.head? = some 45 ∨ text.head? = some 43 then text.tail else text)

/-- Up to and with the next newline. -/
def cleanBuffer (stdin : Bytes) : Bytes := (stdin.dropWhile (· != 10)).tail

/-! ## What is left -/

theorem length_dropWhile_le (p : UInt8 → Bool) (b : Bytes) : (b.dropWhile p).length ≤ b.length :=
  (List.dropWhile_suffix p).length_le

theorem length_tail_le (b : Bytes) : b.tail.length ≤ b.length := by
  rw [List.length_tail]
  exact Nat.sub_le _ _

/-- The digits of a number are behind its sign. -/
theorem length_drop_digits_lt (text : Bytes) {rest : Bytes} {n : ℕ} {w v : Int} (htext : text.length ≤ n)
    (h : (if text.takeWhile isDigit = [] then none
      else some (w, text.drop (text.takeWhile isDigit).length)) = some (v, rest)) :
    rest.length < n := by
  split_ifs at h with hnone
  obtain rfl := (Prod.mk.inj (Option.some.inj h)).2
  have hpos := List.length_pos_of_ne_nil hnone
  have hdigits : (text.takeWhile isDigit).length ≤ text.length := (List.takeWhile_prefix _).length_le
  rw [List.length_drop]
  omega

/-- A number has a digit at least. -/
theorem length_scanInt_lt {stdin rest : Bytes} {v : Int} (h : scanInt stdin = some (v, rest)) :
    rest.length < stdin.length := by
  unfold scanInt at h
  dsimp only at h
  have hblank := length_dropWhile_le isSpace stdin
  refine length_drop_digits_lt _ ?_ h
  split
  -- a sign in front of the digits
  · rename_i text htext
    rw [htext, List.length_cons] at hblank
    exact Nat.le_of_succ_le hblank
  · rename_i text htext
    rw [htext, List.length_cons] at hblank
    exact Nat.le_of_succ_le hblank
  · exact hblank

theorem length_scanfInt_le (stdin : Bytes) : (scanfInt stdin).2.length ≤ stdin.length := by
  unfold scanfInt
  cases hscan : scanInt stdin with
  | some out =>
    obtain ⟨v, rest⟩ := out
    exact (length_scanInt_lt hscan).le
  | none =>
    have hblank := length_dropWhile_le isSpace stdin
    have hsign := length_tail_le (stdin.dropWhile isSpace)
    dsimp only
    split_ifs
    · omega
    · exact hblank

theorem length_scanfInt_lt {stdin rest : Bytes} {v : Int} (h : scanfInt stdin = (some v, rest)) :
    rest.length < stdin.length := by
  unfold scanfInt at h
  cases hscan : scanInt stdin with
  | some out =>
    obtain ⟨w, rest'⟩ := out
    rw [hscan] at h
    obtain rfl := (Prod.mk.inj h).2
    exact length_scanInt_lt hscan
  | none =>
    rw [hscan] at h
    exact absurd (Prod.mk.inj h).1 (by simp)

/-- A rest of the input is shorter behind `clean_buffer`. -/
theorem length_cleanBuffer_lt {stdin rest : Bytes} (hne : stdin ≠ [])
    (hrest : rest.length ≤ stdin.length) : (cleanBuffer rest).length < stdin.length := by
  have hpos := List.length_pos_of_ne_nil hne
  have hdrop := length_dropWhile_le (· != 10) rest
  rw [cleanBuffer, List.length_tail]
  omega

/-! ## What the prompts leave -/

theorem length_fgets_le (stale : Bytes) (n : ℕ) (stdin : Bytes) :
    (fgets stale n stdin).2.length ≤ stdin.length := by
  simp only [fgets, List.length_drop]
  omega

theorem length_prompt_le (stale stdin : Bytes) : (prompt stale stdin).2.length ≤ stdin.length :=
  length_fgets_le stale 100 stdin

theorem length_myGetline_le (stale stdin : Bytes) :
    (myGetline stale stdin).2.length ≤ stdin.length := by
  simp only [myGetline, List.length_drop]
  omega

end EmbeddedCourse.Directory
