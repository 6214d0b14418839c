import Mathlib.Tactic.Ring
import Mathlib.Tactic.Linarith
import Mathlib.Data.Fintype.Prod

/-! # The spiral in a square

A square of `n * n` cells is its rings, one inside the other. The spiral numbers the
cells of a ring clockwise from its upper left corner, the outer rings first. Who
walks along it turns right in the last cell of each side (`Corner`), which is the
cell with no cell of the square or an earlier one in front of it (`corner_iff`), and
so comes to the next number (`next_onward`).
-/

namespace EmbeddedCourse.Spiral

/-! ## Rings and numbers -/

/-- The cell is in the square. -/
def InSquare (n i j : ℤ) : Prop := 0 ≤ i ∧ i < n ∧ 0 ≤ j ∧ j < n

instance (n i j : ℤ) : Decidable (InSquare n i j) := inferInstanceAs (Decidable (_ ∧ _))

/-- How far the cell is from the border. -/
def ring (n i j : ℤ) : ℤ := min (min i j) (min (n - 1 - i) (n - 1 - j))

/-- The number of cells outside of ring `r`. -/
def before (n r : ℤ) : ℤ := 4 * r * (n - r)

/-- The number of the cell. -/
def number (n i j : ℤ) : ℤ :=
  let r := ring n i j
  let m := n - 2 * r
  let b := before n r
  if i = r then b + 1 + (j - r)
  else if j = n - 1 - r then b + m + (i - r)
  else if i = n - 1 - r then b + 2 * m - 1 + (n - 1 - r - j)
  else b + 3 * m - 2 + (n - 1 - r - i)

inductive Heading where
  | right
  | down
  | left
  | up
deriving DecidableEq, Repr

def Heading.turn : Heading → Heading
  | .right => .down
  | .down => .left
  | .left => .up
  | .up => .right

/-- The row and the column of the cell in front. -/
def Heading.row : Heading → ℤ → ℤ
  | .down, i => i + 1
  | .up, i => i - 1
  | _, i => i

def Heading.column : Heading → ℤ → ℤ
  | .right, j => j + 1
  | .left, j => j - 1
  | _, j => j

/-- The heading with which the cell is reached. -/
def side (n i j : ℤ) : Heading :=
  let r := ring n i j
  if i = r then .right else if j = n - 1 - r then .down else if i = n - 1 - r then .left else .up

/-- The last cell on a side of ring `r`. -/
def Heading.Last (n r i j : ℤ) : Heading → Prop
  | .right => j = n - 1 - r
  | .down => i = n - 1 - r
  | .left => j = r
  | .up => i = r + 1

instance (n r i j : ℤ) (h : Heading) : Decidable (h.Last n r i j) := by
  cases h <;> exact inferInstanceAs (Decidable (_ = _))

/-- The cell is the last one on its side. -/
def Corner (n i j : ℤ) : Prop := (side n i j).Last n (ring n i j) i j

instance (n i j : ℤ) : Decidable (Corner n i j) :=
  inferInstanceAs (Decidable ((side n i j).Last n (ring n i j) i j))

/-- The heading with which the cell is left. -/
def onward (n i j : ℤ) : Heading := if Corner n i j then (side n i j).turn else side n i j

theorem before_succ (n r : ℤ) : before n (r + 1) = before n r + 4 * (n - 2 * r) - 4 := by
  unfold before
  ring

theorem before_eq (n r : ℤ) : before n r = n * n - (n - 2 * r) * (n - 2 * r) := by
  unfold before
  ring

theorem before_nonneg {n r : ℤ} (h0 : 0 ≤ r) (hn : r ≤ n) : 0 ≤ before n r :=
  mul_nonneg (by omega) (by omega)

/-! ## The four sides -/

/-- Where a cell stands on its ring, with what follows for it. -/
structure At (n i j r b : ℤ) (h : Heading) : Prop where
  ring_eq : ring n i j = r
  number_eq : number n i j = b
  side_eq : side n i j = h

variable {n i j r : ℤ}

theorem at_top (hi : i = r) (hj : r ≤ j) (hj' : j ≤ n - 1 - r) :
    At n i j r (before n r + 1 + (j - r)) .right := by
  have hring : ring n i j = r := by
    unfold ring
    omega
  refine ⟨hring, ?_, ?_⟩
  · simp only [number, hring, if_pos hi]
  · simp only [side, hring, if_pos hi]

theorem at_right (hj : j = n - 1 - r) (hi : r < i) (hi' : i ≤ n - 1 - r) :
    At n i j r (before n r + (n - 2 * r) + (i - r)) .down := by
  have hring : ring n i j = r := by
    unfold ring
    omega
  have hne : i ≠ r := by omega
  refine ⟨hring, ?_, ?_⟩
  · simp only [number, hring, if_neg hne, if_pos hj]
  · simp only [side, hring, if_neg hne, if_pos hj]

theorem at_bottom (hi : i = n - 1 - r) (hr : r < i) (hj : r ≤ j) (hj' : j < n - 1 - r) :
    At n i j r (before n r + 2 * (n - 2 * r) - 1 + (n - 1 - r - j)) .left := by
  have hring : ring n i j = r := by
    unfold ring
    omega
  have hne : i ≠ r := by omega
  have hne' : j ≠ n - 1 - r := by omega
  refine ⟨hring, ?_, ?_⟩
  · simp only [number, hring, if_neg hne, if_neg hne', if_pos hi]
  · simp only [side, hring, if_neg hne, if_neg hne', if_pos hi]

theorem at_left (hj : j = r) (hi : r < i) (hi' : i < n - 1 - r) :
    At n i j r (before n r + 3 * (n - 2 * r) - 2 + (n - 1 - r - i)) .up := by
  have hring : ring n i j = r := by
    unfold ring
    omega
  have hne : i ≠ r := by omega
  have hne' : j ≠ n - 1 - r := by omega
  have hne'' : i ≠ n - 1 - r := by omega
  refine ⟨hring, ?_, ?_⟩
  · simp only [number, hring, if_neg hne, if_neg hne', if_neg hne'']
  · simp only [side, hring, if_neg hne, if_neg hne', if_neg hne'']

/-- The side of ring `r` that a cell is on. -/
inductive OnSide (n i j r : ℤ) : Prop where
  | top : i = r → r ≤ j → j ≤ n - 1 - r → At n i j r (before n r + 1 + (j - r)) .right →
      OnSide n i j r
  | right : j = n - 1 - r → r < i → i ≤ n - 1 - r →
      At n i j r (before n r + (n - 2 * r) + (i - r)) .down → OnSide n i j r
  | bottom : i = n - 1 - r → r < i → r ≤ j → j < n - 1 - r →
      At n i j r (before n r + 2 * (n - 2 * r) - 1 + (n - 1 - r - j)) .left → OnSide n i j r
  | left : j = r → r < i → i < n - 1 - r →
      At n i j r (before n r + 3 * (n - 2 * r) - 2 + (n - 1 - r - i)) .up → OnSide n i j r

/-- Every cell is on one side of a ring. -/
theorem InSquare.onSide (h : InSquare n i j) : ∃ r, 0 ≤ r ∧ 2 * r < n ∧ OnSide n i j r := by
  unfold InSquare at h
  obtain ⟨r, h0, hn, hi, hi', hj, hj', hside⟩ : ∃ r, 0 ≤ r ∧ 2 * r < n ∧ r ≤ i ∧ i ≤ n - 1 - r ∧
      r ≤ j ∧ j ≤ n - 1 - r ∧ (i = r ∨ j = n - 1 - r ∨ i = n - 1 - r ∨ j = r) := by
    refine ⟨ring n i j, ?_⟩
    unfold ring
    omega
  refine ⟨r, h0, hn, ?_⟩
  by_cases htop : i = r
  · exact .top htop hj hj' (at_top htop hj hj')
  · have hlt : r < i := lt_of_le_of_ne hi (Ne.symm htop)
    by_cases hright : j = n - 1 - r
    · exact .right hright hlt hi' (at_right hright hlt hi')
    · have hlt' : j < n - 1 - r := lt_of_le_of_ne hj' hright
      by_cases hbottom : i = n - 1 - r
      · exact .bottom hbottom hlt hj hlt' (at_bottom hbottom hlt hj hlt')
      · have hleft : j = r := by omega
        have hlt'' : i < n - 1 - r := lt_of_le_of_ne hi' hbottom
        exact .left hleft hlt hlt'' (at_left hleft hlt hlt'')

/-- The numbers of a ring come behind those of the rings outside of it. -/
theorem OnSide.number_mem (h : OnSide n i j r) :
    before n r < number n i j ∧
      (number n i j ≤ before n (r + 1) ∨ n = 2 * r + 1 ∧ number n i j = before n r + 1) := by
  have hnext := before_succ n r
  cases h with
  | top hi hj hj' hat =>
    rw [hat.number_eq]
    omega
  | right hj hi hi' hat =>
    rw [hat.number_eq]
    omega
  | bottom hi hr hj hj' hat =>
    rw [hat.number_eq]
    omega
  | left hj hi hi' hat =>
    rw [hat.number_eq]
    omega

theorem InSquare.number_pos (h : InSquare n i j) : 1 ≤ number n i j := by
  rcases h.onSide with ⟨r, h0, hn, hside⟩
  have hlt := hside.number_mem.1
  have hnonneg := before_nonneg h0 (show r ≤ n by omega)
  omega

theorem InSquare.number_le (h : InSquare n i j) : number n i j ≤ n * n := by
  rcases h.onSide with ⟨r, h0, hn, hside⟩
  rcases hside.number_mem with ⟨-, hle | ⟨hn, heq⟩⟩
  · rw [before_eq] at hle
    have hsquare := mul_self_nonneg (n - 2 * (r + 1))
    omega
  · have hone : n - 2 * r = 1 := by omega
    rw [before_eq, hone] at heq
    omega

/-! ## Walking along the spiral -/

section

variable {b : ℤ} {h : Heading} (hat : At n i j r b h)

include hat

theorem At.corner_iff : Corner n i j ↔ h.Last n r i j := by rw [Corner, hat.side_eq, hat.ring_eq]

theorem At.onward_turn (hlast : h.Last n r i j) : onward n i j = h.turn := by
  rw [onward, if_pos (hat.corner_iff.mpr hlast), hat.side_eq]

theorem At.onward_straight (hlast : ¬ h.Last n r i j) : onward n i j = h := by
  rw [onward, if_neg (mt hat.corner_iff.mp hlast), hat.side_eq]

end

/-- The next cell of the spiral, reached as the cell is left. -/
structure Next (n i j i' j' : ℤ) : Prop where
  inSquare : InSquare n i' j'
  number_eq : number n i' j' = number n i j + 1
  side_eq : side n i' j' = onward n i j

theorem At.next {i' j' r' b b' : ℤ} {h h' : Heading} (hat : At n i j r b h) (hat' : At n i' j' r' b' h')
    (hin : InSquare n i' j') (honward : onward n i j = h') (hb : b' = b + 1) : Next n i j i' j' := by
  refine ⟨hin, ?_, ?_⟩
  · rw [hat.number_eq, hat'.number_eq, hb]
  · rw [hat'.side_eq, honward]

/-- On a side the walk goes straight on. -/
theorem next_straight (h : InSquare n i j) (hcorner : ¬ Corner n i j) :
    Next n i j ((side n i j).row i) ((side n i j).column j) := by
  rcases h.onSide with ⟨r, h0, hn, hside⟩
  cases hside with
  | top hi hj hj' hat =>
    -- to the right, until the last column of the ring
    have hlast : j ≠ n - 1 - r := mt hat.corner_iff.mpr hcorner
    have hright : Next n i j i (j + 1) := hat.next (at_top hi (by omega) (by omega))
      (by unfold InSquare; omega) (hat.onward_straight hlast) (by omega)
    rw [hat.side_eq]
    exact hright
  | right hj hi hi' hat =>
    -- down, until its last row
    have hlast : i ≠ n - 1 - r := mt hat.corner_iff.mpr hcorner
    have hdown : Next n i j (i + 1) j := hat.next (at_right hj (by omega) (by omega))
      (by unfold InSquare; omega) (hat.onward_straight hlast) (by omega)
    rw [hat.side_eq]
    exact hdown
  | bottom hi hr hj hj' hat =>
    -- to the left, until its first column
    have hlast : j ≠ r := mt hat.corner_iff.mpr hcorner
    have hleft : Next n i j i (j - 1) := hat.next (at_bottom hi hr (by omega) (by omega))
      (by unfold InSquare; omega) (hat.onward_straight hlast) (by omega)
    rw [hat.side_eq]
    exact hleft
  | left hj hi hi' hat =>
    -- up, until the row under the start
    have hlast : i ≠ r + 1 := mt hat.corner_iff.mpr hcorner
    have hup : Next n i j (i - 1) j := hat.next (at_left hj (by omega) (by omega))
      (by unfold InSquare; omega) (hat.onward_straight hlast) (by omega)
    rw [hat.side_eq]
    exact hup

/-- In a corner it turns, when the square has a cell left. -/
theorem next_turn (h : InSquare n i j) (hcorner : Corner n i j) (hlt : number n i j < n * n) :
    Next n i j ((side n i j).turn.row i) ((side n i j).turn.column j) := by
  rcases h.onSide with ⟨r, h0, hn, hside⟩
  have hb := before_eq n r
  cases hside with
  | top hi hj hj' hat =>
    have hlast : j = n - 1 - r := hat.corner_iff.mp hcorner
    rw [hat.number_eq] at hlt
    -- a ring of one cell has no right side
    have hbelow : r < n - 1 - r := by
      by_contra hnot
      have hone : n - 2 * r = 1 := by omega
      rw [hone] at hb
      omega
    have hdown : Next n i j (i + 1) j := hat.next (at_right hlast (by omega) (by omega))
      (by unfold InSquare; omega) (hat.onward_turn hlast) (by omega)
    rw [hat.side_eq]
    exact hdown
  | right hj hi hi' hat =>
    have hlast : i = n - 1 - r := hat.corner_iff.mp hcorner
    have hleft : Next n i j i (j - 1) := hat.next (at_bottom hlast hi (by omega) (by omega))
      (by unfold InSquare; omega) (hat.onward_turn hlast) (by omega)
    rw [hat.side_eq]
    exact hleft
  | bottom hi hr hj hj' hat =>
    have hlast : j = r := hat.corner_iff.mp hcorner
    rw [hat.number_eq] at hlt
    -- a ring of two by two cells has no left side
    have habove : r < i - 1 := by
      by_contra hnot
      have htwo : n - 2 * r = 2 := by omega
      rw [htwo] at hb
      omega
    have hup : Next n i j (i - 1) j := hat.next (at_left hlast habove (by omega))
      (by unfold InSquare; omega) (hat.onward_turn hlast) (by omega)
    rw [hat.side_eq]
    exact hup
  | left hj hi hi' hat =>
    have hlast : i = r + 1 := hat.corner_iff.mp hcorner
    have hnext := before_succ n r
    -- the next ring starts to the right
    have hright : Next n i j i (j + 1) := hat.next (at_top hlast (by omega) (by omega))
      (by unfold InSquare; omega) (hat.onward_turn hlast) (by omega)
    rw [hat.side_eq]
    exact hright

/-- The cell in front has the next number, and is reached as the cell is left. -/
theorem next_onward (h : InSquare n i j) (hlt : number n i j < n * n) :
    Next n i j ((onward n i j).row i) ((onward n i j).column j) := by
  by_cases hcorner : Corner n i j
  · have hturn := next_turn h hcorner hlt
    rwa [onward, if_pos hcorner]
  · have hstraight := next_straight h hcorner
    rwa [onward, if_neg hcorner]

/-- The cell ahead of a corner is no cell of the square, or an earlier one. -/
theorem number_lt_of_corner (h : InSquare n i j) (hcorner : Corner n i j)
    (hin : InSquare n ((side n i j).row i) ((side n i j).column j)) :
    number n ((side n i j).row i) ((side n i j).column j) < number n i j := by
  rcases h.onSide with ⟨r, h0, hn, hside⟩
  have houter := before_succ n (r - 1)
  rw [sub_add_cancel] at houter
  cases hside with
  | top hi hj hj' hat =>
    have hlast : j = n - 1 - r := hat.corner_iff.mp hcorner
    rw [hat.side_eq] at hin ⊢
    have hin' : InSquare n i (j + 1) := hin
    unfold InSquare at hin'
    -- the cell ahead is on the ring outside, which has been walked before
    have hahead : At n i (j + 1) (r - 1) _ .down := at_right (by omega) (by omega) (by omega)
    show number n i (j + 1) < number n i j
    rw [hahead.number_eq, hat.number_eq]
    omega
  | right hj hi hi' hat =>
    have hlast : i = n - 1 - r := hat.corner_iff.mp hcorner
    rw [hat.side_eq] at hin ⊢
    have hin' : InSquare n (i + 1) j := hin
    unfold InSquare at hin'
    have hahead : At n (i + 1) j (r - 1) _ .left := at_bottom (by omega) (by omega) (by omega) (by omega)
    show number n (i + 1) j < number n i j
    rw [hahead.number_eq, hat.number_eq]
    omega
  | bottom hi hr hj hj' hat =>
    have hlast : j = r := hat.corner_iff.mp hcorner
    rw [hat.side_eq] at hin ⊢
    have hin' : InSquare n i (j - 1) := hin
    unfold InSquare at hin'
    have hahead : At n i (j - 1) (r - 1) _ .up := at_left (by omega) (by omega) (by omega)
    show number n i (j - 1) < number n i j
    rw [hahead.number_eq, hat.number_eq]
    omega
  | left hj hi hi' hat =>
    have hlast : i = r + 1 := hat.corner_iff.mp hcorner
    rw [hat.side_eq]
    -- above the last corner is the start of the same ring
    have hahead : At n (i - 1) j r _ .right := at_top (by omega) (by omega) (by omega)
    show number n (i - 1) j < number n i j
    rw [hahead.number_eq, hat.number_eq]
    omega

/-- The walk turns where the cell ahead is outside of the square, or an earlier one. -/
theorem corner_iff (h : InSquare n i j) : Corner n i j ↔
    ¬ InSquare n ((side n i j).row i) ((side n i j).column j) ∨
      number n ((side n i j).row i) ((side n i j).column j) < number n i j := by
  by_cases hcorner : Corner n i j
  · refine iff_of_true hcorner ?_
    by_cases hin : InSquare n ((side n i j).row i) ((side n i j).column j)
    · exact Or.inr (number_lt_of_corner h hcorner hin)
    · exact Or.inl hin
  · refine iff_of_false hcorner ?_
    rcases next_straight h hcorner with ⟨hin, hnumber, -⟩
    rintro (hout | hlt)
    · exact hout hin
    · omega

/-! ## Every number once -/

theorem before_le {r' : ℤ} (h : r + 1 ≤ r') (hn : 2 * r' ≤ n) : before n (r + 1) ≤ before n r' := by
  unfold before
  nlinarith

/-- An outer ring has the smaller numbers. -/
theorem OnSide.number_lt {i' j' r' : ℤ} (h : OnSide n i j r) (h' : OnSide n i' j' r') (hr : r < r')
    (hn : 2 * r' < n) : number n i j < number n i' j' := by
  have hlt := h'.number_mem.1
  rcases h.number_mem with ⟨-, hle | ⟨hone, -⟩⟩
  · have hmono := before_le (Int.add_one_le_of_lt hr) hn.le
    omega
  · omega

theorem number_inj {i' j' : ℤ} (h : InSquare n i j) (h' : InSquare n i' j')
    (heq : number n i j = number n i' j') : i = i' ∧ j = j' := by
  rcases h.onSide with ⟨r, -, hn, hside⟩
  rcases h'.onSide with ⟨r', -, hn', hside'⟩
  obtain rfl : r = r' := by
    rcases lt_trichotomy r r' with hlt | hr | hlt
    · exact absurd heq (hside.number_lt hside' hlt hn').ne
    · exact hr
    · exact absurd heq (hside'.number_lt hside hlt hn).ne'
  -- on one ring the numbers of the sides are apart, and grow along each side
  cases hside with
  | top hi hj hj' hat =>
    rw [hat.number_eq] at heq
    cases hside' with
    | top _ _ _ hat' | right _ _ _ hat' | bottom _ _ _ _ hat' | left _ _ _ hat' =>
      rw [hat'.number_eq] at heq
      omega
  | right hj hi hi' hat =>
    rw [hat.number_eq] at heq
    cases hside' with
    | top _ _ _ hat' | right _ _ _ hat' | bottom _ _ _ _ hat' | left _ _ _ hat' =>
      rw [hat'.number_eq] at heq
      omega
  | bottom hi hr hj hj' hat =>
    rw [hat.number_eq] at heq
    cases hside' with
    | top _ _ _ hat' | right _ _ _ hat' | bottom _ _ _ _ hat' | left _ _ _ hat' =>
      rw [hat'.number_eq] at heq
      omega
  | left hj hi hi' hat =>
    rw [hat.number_eq] at heq
    cases hside' with
    | top _ _ _ hat' | right _ _ _ hat' | bottom _ _ _ _ hat' | left _ _ _ hat' =>
      rw [hat'.number_eq] at heq
      omega

theorem inSquare_fin {n : ℕ} (p : Fin n × Fin n) : InSquare n p.1 p.2 := by
  unfold InSquare
  omega

/-- The number of a cell, counted from zero. -/
def index (n : ℕ) (p : Fin n × Fin n) : Fin (n * n) where
  val := (number n p.1 p.2 - 1).toNat
  isLt := by
    have hpos := (inSquare_fin p).number_pos
    have hle := (inSquare_fin p).number_le
    omega

theorem index_val {n : ℕ} (p : Fin n × Fin n) : ((index n p : ℕ) : ℤ) = number n p.1 p.2 - 1 := by
  have hpos := (inSquare_fin p).number_pos
  exact Int.toNat_of_nonneg (by omega)

/-- There are as many numbers as cells. -/
theorem index_bijective (n : ℕ) : Function.Bijective (index n) := by
  rw [Fintype.bijective_iff_injective_and_card]
  constructor
  · intro p q hpq
    have hp := index_val p
    have hq := index_val q
    rw [hpq] at hp
    rcases number_inj (inSquare_fin p) (inSquare_fin q) (by omega) with ⟨hfst, hsnd⟩
    exact Prod.ext (Fin.ext (by omega)) (Fin.ext (by omega))
  · rw [Fintype.card_prod, Fintype.card_fin, Fintype.card_fin]

/-- Each number from 1 to `n * n` is the number of one cell. -/
theorem existsUnique_number (n : ℕ) {v : ℤ} (h1 : 1 ≤ v) (hv : v ≤ n * n) :
    ∃! p : Fin n × Fin n, number n p.1 p.2 = v := by
  have hlt : (v - 1).toNat < n * n := by omega
  have hiff : ∀ p : Fin n × Fin n, number n p.1 p.2 = v ↔ index n p = ⟨(v - 1).toNat, hlt⟩ := by
    intro p
    have hval := index_val p
    rw [Fin.ext_iff]
    constructor
    · intro hp
      show (index n p : ℕ) = (v - 1).toNat
      omega
    · intro hp
      have hp' : (index n p : ℕ) = (v - 1).toNat := hp
      omega
  simp only [hiff]
  exact (index_bijective n).existsUnique _

end EmbeddedCourse.Spiral
