import EmbeddedCourse.Lib.Cells
import Mathlib.Data.Nat.ModEq

/-! # Ring buffers

What a circular buffer holds: the cells from its front on, around its end. A
write behind them appends to the list, and moving the front on takes the first
one off it.
-/

namespace EmbeddedCourse.Ring

variable {α : Type*}

/-- The `n` cells from `front` on. -/
def contents (cells : List α) (d : α) (front n : ℕ) : List α :=
  (List.range n).map fun k => cells.getD ((front + k) % cells.length) d

/-- Different places of the content are different cells. -/
theorem index_ne (front : ℕ) {m k n : ℕ} (hk : k < n) (hn : n < m) : (front + k) % m ≠ (front + n) % m := by
  intro he
  have hmod : k ≡ n [MOD m] := Nat.ModEq.add_left_cancel' front he
  exact absurd (hmod.eq_of_lt_of_lt (hk.trans hn) hn) (Nat.ne_of_lt hk)

/-- A cell behind the content is written. -/
theorem contents_set {cells : List α} {n : ℕ} (hn : n < cells.length) (d : α) (front : ℕ) (x : α) :
    contents (cells.set ((front + n) % cells.length) x) d front (n + 1) =
      contents cells d front n ++ [x] := by
  have hlt : (front + n) % cells.length < cells.length := Nat.mod_lt _ (Nat.zero_lt_of_lt hn)
  rw [contents, contents, List.range_succ, List.map_append, List.map_singleton, List.length_set]
  congr 1
  · apply List.map_congr_left
    intro k hk
    have hne := index_ne front (List.mem_range.mp hk) hn
    rw [List.getD_eq_getElem?_getD, List.getElem?_set_ne hne.symm, List.getD_eq_getElem?_getD]
  · rw [List.getD_eq_getElem?_getD, List.getElem?_set_self hlt, Option.getD_some]

/-- The front is the first cell of the content, and the rest stands behind it. -/
theorem contents_succ {cells : List α} {front : ℕ} (hfront : front < cells.length) (d : α) (n : ℕ) :
    contents cells d front (n + 1) =
      cells.getD front d :: contents cells d ((front + 1) % cells.length) n := by
  rw [contents, contents, List.range_succ_eq_map, List.map_cons, Nat.add_zero,
    Nat.mod_eq_of_lt hfront, List.map_map]
  congr 1
  apply List.map_congr_left
  intro k _
  have hindex : (front + (k + 1)) % cells.length = ((front + 1) % cells.length + k) % cells.length := by
    rw [Nat.mod_add_mod, Nat.add_assoc, Nat.add_comm 1 k]
  exact congrArg (cells.getD · d) hindex

end EmbeddedCourse.Ring
