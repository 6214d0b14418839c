import Mathlib.Algebra.GroupWithZero.Nat
import Mathlib.Algebra.Ring.Int.Defs
import Mathlib.Data.List.Basic
import Mathlib.Data.List.GetD
import Mathlib.Data.List.TakeDrop

/-! # Arrays as lists of cells

A C array with a fill counter is a list and the length of its used front. The
lemmas say what is read and written behind the front, and what the front is
after a reallocation that pads the array.
-/

namespace EmbeddedCourse.Cells

variable {α : Type*}

theorem takeD_eq_append (l : List α) (n : ℕ) (d : α) :
    l.takeD n d = l.take n ++ List.replicate (n - l.length) d := by
  induction n generalizing l with
  | zero => simp
  | succ n ih =>
    cases l with
    | nil => simp [List.replicate_succ]
    | cons b t => simp [ih]

/-- Padding keeps what a wide enough array starts with. -/
theorem take_takeD (l : List α) {n k : ℕ} (d : α) (hk : k ≤ l.length) (hn : k ≤ n) :
    (l.takeD n d).take k = l.take k := by
  rw [takeD_eq_append, List.take_append_of_le_length (by simp; omega), List.take_take,
    Nat.min_eq_left hn]

/-- The cell behind the front `l`. -/
theorem getD_middle {l : List α} {n : ℕ} (h : l.length = n) (x : α) (r : List α) (d : α) :
    (l ++ x :: r).getD n d = x := by
  rw [List.getD_append_right _ _ _ _ (Nat.le_of_eq h), h, Nat.sub_self]
  rfl

/-- Writing the cell behind the front `l`. -/
theorem set_middle {l : List α} {n : ℕ} (h : l.length = n) (x y : α) (r : List α) :
    (l ++ x :: r).set n y = l ++ y :: r := by
  rw [List.set_append_right _ _ (Nat.le_of_eq h), h, Nat.sub_self, List.set_cons_zero]

/-- Writing the first free cell extends the used front by it. -/
theorem take_set_succ {l : List α} {n : ℕ} (h : n < l.length) (x : α) :
    (l.set n x).take (n + 1) = l.take n ++ [x] := by
  have hlen : (l.take n).length = n := List.length_take_of_le (by omega)
  rw [List.take_set, List.take_succ_eq_append_getElem h, set_middle hlen]

/-- A cell of the padded array is written and read. -/
theorem getElem?_set_takeD {l : List α} {i n : ℕ} (hi : i < n) (d x : α) :
    ((l.takeD n d).set i x)[i]? = some x :=
  List.getElem?_set_self (by rwa [List.takeD_length])

/-- Writing what stands there already. -/
theorem set_of_getElem? {l : List α} {i : ℕ} {a : α} (h : l[i]? = some a) : l.set i a = l := by
  rcases List.getElem?_eq_some_iff.mp h with ⟨hi, rfl⟩
  exact List.set_getElem_self hi

theorem getElem?_concat (l : List α) (x : α) (i : ℕ) :
    (l ++ [x])[i]? = if i = l.length then some x else l[i]? := by
  rw [List.getElem?_append]
  by_cases hlt : i < l.length
  · have hne : i ≠ l.length := by omega
    rw [if_pos hlt, if_neg hne]
  · rw [if_neg hlt, List.getElem?_singleton]
    by_cases hi : i = l.length
    · simp [hi]
    · have hpos : ¬ i - l.length = 0 := by omega
      rw [if_neg hpos, if_neg hi, List.getElem?_eq_none (Nat.le_of_not_lt hlt)]

/-- Replacing one entry replaces its summand. -/
theorem sum_map_set (f : α → ℕ) {l : List α} {i : ℕ} {a : α} (h : l[i]? = some a) (b : α) :
    ((l.set i b).map f).sum + f a = (l.map f).sum + f b := by
  induction l generalizing i with
  | nil => simp at h
  | cons x l ih =>
    cases i with
    | zero =>
      obtain rfl : x = a := by simpa using h
      simp only [List.set_cons_zero, List.map_cons, List.sum_cons]
      omega
    | succ i =>
      have hrest := ih (i := i) (by simpa using h)
      simp only [List.set_cons_succ, List.map_cons, List.sum_cons]
      omega

/-- Replacing one entry replaces its part. -/
theorem flatMap_set {β : Type*} (f : α → List β) {l : List α} {i : ℕ} {a : α} (h : l[i]? = some a)
    (b : α) : ∃ A B, l.flatMap f = A ++ f a ++ B ∧ (l.set i b).flatMap f = A ++ f b ++ B := by
  rcases List.getElem?_eq_some_iff.mp h with ⟨hlt, rfl⟩
  refine ⟨(l.take i).flatMap f, (l.drop (i + 1)).flatMap f, ?_, ?_⟩
  · nth_rewrite 1 [← List.take_append_drop i l]
    rw [List.flatMap_append, List.drop_eq_getElem_cons hlt, List.flatMap_cons, List.append_assoc]
  · rw [List.set_eq_take_append_cons_drop, if_pos hlt, List.flatMap_append, List.flatMap_cons,
      List.append_assoc]

/-! ## Writing several cells -/

/-- Write the elements `xs` from index `k` on, one after the other. -/
def writeFrom (l : List α) (k : ℕ) (xs : List α) : List α :=
  (xs.zipIdx k).foldl (fun l e => l.set e.2 e.1) l

/-- Elements that find room behind `a` are put there. -/
theorem writeFrom_append (a b xs : List α) (hroom : xs.length ≤ b.length) :
    writeFrom (a ++ b) a.length xs = a ++ xs ++ b.drop xs.length := by
  unfold writeFrom
  induction xs generalizing a b with
  | nil => simp
  | cons x xs ih =>
    cases b with
    | nil => simp at hroom
    | cons y b =>
      have hcons : a ++ x :: b = (a ++ [x]) ++ b := by simp
      have hrest := ih (a ++ [x]) b (by simpa using hroom)
      rw [List.length_append, List.length_singleton] at hrest
      rw [List.zipIdx_cons, List.foldl_cons, set_middle rfl, hcons, hrest]
      simp

/-! ## Shifting cells down -/

/-- `n` rounds of `l[i] = l[i + 1]`, `i` going up. -/
def shiftDown (d : α) : List α → ℕ → ℕ → List α
  | l, _, 0 => l
  | l, i, n + 1 => shiftDown d (l.set i (l.getD (i + 1) d)) (i + 1) n

/-- The cells `b` come to stand where `x` was, and some cell is left over behind them. -/
theorem shiftDown_middle (d : α) (a : List α) (x : α) (b r : List α) :
    ∃ y, shiftDown d (a ++ x :: (b ++ r)) a.length b.length = a ++ b ++ y :: r := by
  induction b generalizing a x with
  | nil => exact ⟨x, by simp [shiftDown]⟩
  | cons z b ih =>
    rcases ih (a ++ [z]) z with ⟨y, hy⟩
    refine ⟨y, ?_⟩
    have hget : (a ++ x :: (z :: b ++ r)).getD (a.length + 1) d = z := by
      have hcons : a ++ x :: (z :: b ++ r) = (a ++ [x]) ++ z :: (b ++ r) := by simp
      rw [hcons, getD_middle (by simp)]
    have hset : a ++ z :: (z :: b ++ r) = (a ++ [z]) ++ z :: (b ++ r) := by simp
    have hlen : a.length + 1 = (a ++ [z]).length := by simp
    rw [List.length_cons, shiftDown, hget, set_middle rfl, hset, hlen, hy]
    simp

end EmbeddedCourse.Cells
