import EmbeddedCourse.Lib.Run
import EmbeddedCourse.Lib.Spiral

/-! # The snail

`Home_Work_2/src/main4.c`: the numbers of one array are laid into another one, which is
walked through from its upper left corner. The walk turns when there is no free cell
ahead; a free cell holds -1. An index outside of an array and an `int` that overflows
have no meaning; only `num` and `n * n` can get that far.
-/

namespace EmbeddedCourse.HomeWork.Snail

open Spiral

def intMax : ℤ := 2147483647

/-- `int array[n][n]` -/
def Grid (n : ℕ) : Type := Fin n → Fin n → ℤ

namespace Grid

variable {n : ℕ}

def subscript (n : ℕ) (i : ℤ) : Option (Fin n) :=
  if h : 0 ≤ i ∧ i < n then some ⟨i.toNat, by omega⟩ else none

/-- `array[i][j]` -/
def get (array : Grid n) (i j : ℤ) : Option ℤ := do
  let row ← subscript n i
  let column ← subscript n j
  some (array row column)

def put (array : Grid n) (row column : Fin n) (value : ℤ) : Grid n :=
  fun x y => if x = row ∧ y = column then value else array x y

/-- `array[i][j] = value` -/
def set (array : Grid n) (i j value : ℤ) : Option (Grid n) := do
  let row ← subscript n i
  let column ← subscript n j
  some (array.put row column value)

end Grid

/-- The arrays and `num` in `initial_array`. -/
structure Numbering (n : ℕ) where
  array : Grid n
  arrayRes : Grid n
  num : ℤ

/-- The body of the loops of `initial_array`. -/
def initialCell {n : ℕ} (i j : ℕ) (a : Numbering n) : Option (Numbering n) := do
  let arrayRes ← a.arrayRes.set i j (-1)
  let array ← a.array.set i j a.num
  if a.num < intMax then some { array := array, arrayRes := arrayRes, num := a.num + 1 } else none

def initialArray {n : ℕ} (a : Numbering n) : Option (Numbering n) :=
  (List.range n).foldlM (fun a i => (List.range n).foldlM (fun a j => initialCell i j a) a) a

def check (direction : ℤ) : ℤ := direction.tmod 4 + 1

/-- The variables of the loop of `snail_array`, without its counter. -/
structure State (n : ℕ) where
  i : ℤ
  j : ℤ
  k : ℤ
  l : ℤ
  direction : ℤ
  flagI : Bool
  arrayRes : Grid n

variable {n : ℕ}

/-- `(edge || array_res[i][j] != -1) && direction == heading` -/
def wall (s : State n) (edge : Bool) (i j heading : ℤ) : Option Bool :=
  (if edge then some true else (s.arrayRes.get i j).map (· != -1)).map (· && s.direction == heading)

/-- `a || b`; the right side is evaluated when the left one is false. -/
def either (a b : Option Bool) : Option Bool := a.bind fun a => if a then some true else b

/-- The condition under which the walk turns. -/
def blocked (s : State n) : Option Bool :=
  either (wall s (s.i + 1 == n) (s.i + 1) s.j 2)
    (either (wall s (s.j + 1 == n) s.i (s.j + 1) 1)
      (either (wall s (s.i - 1 == -1) (s.i - 1) s.j 4)
        (wall s (s.j - 1 == -1) s.i (s.j - 1) 3)))

/-- The body of the loop of `snail_array`. -/
def step (array : Grid n) (s : State n) : Option (State n) := do
  let turn ← blocked s
  let direction := if turn then check s.direction else s.direction
  let flagI := if turn then !s.flagI else s.flagI
  let value ← array.get s.l s.k
  let arrayRes ← s.arrayRes.set s.i s.j value
  some {
    i := if flagI then (if direction = 2 then s.i + 1 else s.i - 1) else s.i
    j := if flagI then s.j else if direction = 1 then s.j + 1 else s.j - 1
    k := if s.k = n - 1 then 0 else s.k + 1
    l := if s.k = n - 1 then s.l + 1 else s.l
    direction := direction
    flagI := flagI
    arrayRes := arrayRes }

def steps (array : Grid n) : ℕ → State n → Option (State n)
  | 0, s => some s
  | m + 1, s => (step array s).bind (steps array m)

/-- `snail_array(n, array, array_res)`, with both arrays as it leaves them. -/
def snailArray (array arrayRes : Grid n) : Option (Grid n × Grid n) := do
  let a ← initialArray { array := array, arrayRes := arrayRes, num := 1 }
  if intMax < n * n then none
  else
    let s ← steps a.array (n * n)
      { i := 0, j := 0, k := 0, l := 0, direction := 1, flagI := false, arrayRes := a.arrayRes }
    some (a.array, s.arrayRes)

/-! ## Arrays -/

/-- The cell of the array. -/
def Grid.cell {i j : ℤ} (h : InSquare n i j) : Fin n × Fin n where
  fst := ⟨i.toNat, by unfold InSquare at h; omega⟩
  snd := ⟨j.toNat, by unfold InSquare at h; omega⟩

theorem Grid.subscript_eq {i j : ℤ} (h : InSquare n i j) :
    subscript n i = some (cell h).1 ∧ subscript n j = some (cell h).2 := by
  rcases h with ⟨hi, hi', hj, hj'⟩
  unfold subscript
  rw [dif_pos ⟨hi, hi'⟩, dif_pos ⟨hj, hj'⟩]
  exact ⟨rfl, rfl⟩

theorem Grid.cell_eq_iff {i j x y : ℤ} (h : InSquare n i j) (hxy : InSquare n x y) :
    (cell hxy).1 = (cell h).1 ∧ (cell hxy).2 = (cell h).2 ↔ x = i ∧ y = j := by
  unfold cell
  unfold InSquare at h hxy
  rw [Fin.mk.injEq, Fin.mk.injEq]
  omega

theorem Grid.get_eq (array : Grid n) {i j : ℤ} (h : InSquare n i j) :
    array.get i j = some (array (cell h).1 (cell h).2) := by
  unfold get
  rw [(subscript_eq h).1, (subscript_eq h).2]
  rfl

theorem Grid.get_fin (array : Grid n) (i j : Fin n) : array.get i j = some (array i j) := by
  have hin : InSquare n i j := by
    unfold InSquare
    omega
  rw [get_eq _ hin]
  rfl

/-- A store in the square, and what is read afterwards. -/
theorem Grid.set_ok (array : Grid n) {i j : ℤ} (h : InSquare n i j) (value : ℤ) :
    ∃ array', array.set i j value = some array' ∧
      ∀ x y, InSquare n x y → array'.get x y = if x = i ∧ y = j then some value else array.get x y := by
  refine ⟨array.put (cell h).1 (cell h).2 value, ?_, ?_⟩
  · unfold set
    rw [(subscript_eq h).1, (subscript_eq h).2]
    rfl
  · intro x y hxy
    rw [get_eq _ hxy, get_eq _ hxy, put, ← apply_ite some]
    simp only [cell_eq_iff h hxy]

/-! ## The numbered array -/

/-- The cells in front of `array[i][j]`, in the order of the loops. -/
def Done (i j x y : ℤ) : Prop := x < i ∨ x = i ∧ y < j

/-- The cells that `initial_array` has come to hold their numbers, and -1. -/
structure Numbered (i j : ℤ) (a : Numbering n) : Prop where
  num : a.num = 1 + i * n + j
  array : ∀ x y, InSquare n x y → Done i j x y → a.array.get x y = some (1 + x * n + y)
  arrayRes : ∀ x y, InSquare n x y → Done i j x y → a.arrayRes.get x y = some (-1)

/-- A cell gets the next number. -/
theorem initialCell_numbered {i j : ℕ} (hi : i < n) (hj : j < n) (hint : n * n < intMax)
    {a : Numbering n} (h : Numbered i j a) :
    ∃ a', initialCell i j a = some a' ∧ Numbered i (j + 1) a' := by
  have hin : InSquare n i j := by
    unfold InSquare
    omega
  rcases Grid.set_ok a.arrayRes hin (-1) with ⟨arrayRes, hres, hresget⟩
  rcases Grid.set_ok a.array hin a.num with ⟨array, harr, harrget⟩
  -- the number of a cell is below `n * n`, so that `num++` is an `int`
  have hnum : a.num < intMax := by
    have hrow : (i + 1 : ℤ) * n ≤ n * n := by nlinarith
    rw [h.num]
    nlinarith
  refine ⟨⟨array, arrayRes, a.num + 1⟩, ?_, ?_, ?_, ?_⟩
  · rw [initialCell, hres, harr]
    show (if a.num < intMax then _ else _) = _
    rw [if_pos hnum]
  · show a.num + 1 = _
    rw [h.num]
    ring
  · intro x y hxy hdone
    rw [harrget x y hxy]
    split
    · rename_i heq
      rw [h.num, heq.1, heq.2]
    · exact h.array x y hxy (by unfold Done at hdone ⊢; omega)
  · intro x y hxy hdone
    rw [hresget x y hxy]
    split
    · rfl
    · exact h.arrayRes x y hxy (by unfold Done at hdone ⊢; omega)

theorem initialArray_numbered (hint : n * n < intMax) {a : Numbering n} (hnum : a.num = 1) :
    ∃ a', initialArray a = some a' ∧ Numbered n 0 a' := by
  have hstart : Numbered (n := n) (0 : ℕ) 0 a := by
    refine ⟨by rw [hnum]; simp, ?_, ?_⟩
    · intro x y hxy hdone
      unfold InSquare at hxy
      unfold Done at hdone
      omega
    · intro x y hxy hdone
      unfold InSquare at hxy
      unfold Done at hdone
      omega
  refine Machine.exec_range (fun i a => Numbered i 0 a) n ?_ hstart
  intro i hi b hb
  rcases Machine.exec_range (fun j a => Numbered i j a) n
    (fun j hj c hc => initialCell_numbered hi hj hint hc) hb with ⟨b', hrow, hb'⟩
  refine ⟨b', hrow, ?_, ?_, ?_⟩
  · rw [hb'.num]
    push_cast
    ring
  · intro x y hxy hdone
    exact hb'.array x y hxy (by unfold InSquare at hxy; unfold Done at hdone ⊢; omega)
  · intro x y hxy hdone
    exact hb'.arrayRes x y hxy (by unfold InSquare at hxy; unfold Done at hdone ⊢; omega)

/-- The first array holds the numbers row by row, and the second one is free. -/
theorem initialArray_ok (hint : n * n < intMax) {a : Numbering n} (hnum : a.num = 1) :
    ∃ a', initialArray a = some a' ∧
      (∀ x y, InSquare n x y → a'.array.get x y = some (1 + x * n + y)) ∧
      ∀ x y, InSquare n x y → a'.arrayRes.get x y = some (-1) := by
  rcases initialArray_numbered hint hnum with ⟨a', ha', hnumbered⟩
  refine ⟨a', ha', ?_, ?_⟩
  · intro x y hxy
    exact hnumbered.array x y hxy (Or.inl hxy.2.1)
  · intro x y hxy
    exact hnumbered.arrayRes x y hxy (Or.inl hxy.2.1)

/-! ## The walk -/

/-- The number that stands for a heading. -/
def code : Heading → ℤ
  | .right => 1
  | .down => 2
  | .left => 3
  | .up => 4

def vertical : Heading → Bool
  | .right | .left => false
  | .down | .up => true

theorem check_code (h : Heading) : check (code h) = code h.turn := by cases h <;> rfl

theorem vertical_turn (h : Heading) : vertical h.turn = !vertical h := by cases h <;> rfl

/-- After `c` rounds: the walk is at the cell with the next number, reached with the
heading of its side, and the array holds the numbers up to `c`. -/
structure Walked (c : ℤ) (s : State n) : Prop where
  source : s.l * n + s.k = c
  l_nonneg : 0 ≤ s.l
  k_nonneg : 0 ≤ s.k
  k_lt : s.k < n
  position : c < n * n → InSquare n s.i s.j ∧ number n s.i s.j = c + 1 ∧
    s.direction = code (side n s.i s.j) ∧ s.flagI = vertical (side n s.i s.j)
  filled : ∀ x y, InSquare n x y →
    s.arrayRes.get x y = some (if number n x y ≤ c then number n x y else -1)

/-- There is no free cell. -/
def Closed (n : ℕ) (c x y : ℤ) : Prop := ¬ InSquare n x y ∨ number n x y ≤ c

instance (n : ℕ) (c x y : ℤ) : Decidable (Closed n c x y) := inferInstanceAs (Decidable (_ ∨ _))

@[simp] theorem either_some (a b : Bool) : either (some a) (some b) = some (a || b) := by
  cases a <;> rfl

/-- A test of a cell next to the walk finds whether it is free. -/
theorem wall_eq {c : ℤ} {s : State n} (h : Walked c s) {edge : Bool} {x y : ℤ}
    (hedge : edge = false ↔ InSquare n x y) (heading : ℤ) :
    wall s edge x y heading = some (decide (Closed n c x y) && s.direction == heading) := by
  cases edge with
  | true =>
    have hout : ¬ InSquare n x y := fun hin => absurd (hedge.mpr hin) (by decide)
    simp [wall, Closed, hout]
  | false =>
    have hin := hedge.mp rfl
    have hpos := hin.number_pos
    rw [wall, h.filled x y hin]
    by_cases hle : number n x y ≤ c
    · have hne : number n x y ≠ -1 := by omega
      simp [Closed, hle, hne]
    · simp [Closed, hle, hin]

/-- The walk turns in the corners. -/
theorem blocked_eq {c : ℤ} {s : State n} (h : Walked c s) (hc : c < n * n) :
    blocked s = some (decide (Corner n s.i s.j)) := by
  rcases h.position hc with ⟨hin, hnumber, hdirection, -⟩
  have hcorner : Corner n s.i s.j ↔
      Closed n c ((side n s.i s.j).row s.i) ((side n s.i s.j).column s.j) := by
    rw [corner_iff hin, hnumber, Int.lt_add_one_iff]
    rfl
  have hin' := hin
  unfold InSquare at hin'
  have hdown : (s.i + 1 == n) = false ↔ InSquare n (s.i + 1) s.j := by
    unfold InSquare
    rw [beq_eq_false_iff_ne]
    omega
  have hright : (s.j + 1 == n) = false ↔ InSquare n s.i (s.j + 1) := by
    unfold InSquare
    rw [beq_eq_false_iff_ne]
    omega
  have hup : (s.i - 1 == -1) = false ↔ InSquare n (s.i - 1) s.j := by
    unfold InSquare
    rw [beq_eq_false_iff_ne]
    omega
  have hleft : (s.j - 1 == -1) = false ↔ InSquare n s.i (s.j - 1) := by
    unfold InSquare
    rw [beq_eq_false_iff_ne]
    omega
  rw [blocked, wall_eq h hdown, wall_eq h hright, wall_eq h hup, wall_eq h hleft, hdirection]
  -- only the test of the cell ahead counts
  cases hside : side n s.i s.j <;> simp [hcorner, hside, code, Heading.row, Heading.column]

/-- How a cell is left, in the variables of the loop. -/
theorem onward_eq (s : State n) (hdirection : s.direction = code (side n s.i s.j))
    (hflag : s.flagI = vertical (side n s.i s.j)) :
    (if decide (Corner n s.i s.j) then check s.direction else s.direction) = code (onward n s.i s.j) ∧
      (if decide (Corner n s.i s.j) then !s.flagI else s.flagI) = vertical (onward n s.i s.j) := by
  unfold onward
  rw [hdirection, hflag]
  by_cases hcorner : Corner n s.i s.j
  · simp [hcorner, check_code, vertical_turn]
  · simp [hcorner]

theorem row_eq (h : Heading) (i : ℤ) :
    (if vertical h then (if code h = 2 then i + 1 else i - 1) else i) = h.row i := by
  cases h <;> rfl

theorem column_eq (h : Heading) (j : ℤ) :
    (if vertical h then j else if code h = 1 then j + 1 else j - 1) = h.column j := by
  cases h <;> rfl

section

variable {array : Grid n} (harray : ∀ x y, InSquare n x y → array.get x y = some (1 + x * n + y))

include harray

/-- One round takes the walk to the next cell. -/
theorem step_walked {c : ℤ} (hc : c < n * n) {s : State n} (h : Walked c s) :
    ∃ s', step array s = some s' ∧ Walked (c + 1) s' := by
  rcases h.position hc with ⟨hin, hnumber, hdirection, hflag⟩
  have hsource : InSquare n s.l s.k := by
    have hl : s.l < n := by nlinarith [h.source, h.k_nonneg]
    exact ⟨h.l_nonneg, hl, h.k_nonneg, h.k_lt⟩
  have hvalue : array.get s.l s.k = some (c + 1) := by
    rw [harray _ _ hsource, ← h.source]
    ring_nf
  rcases Grid.set_ok s.arrayRes hin (c + 1) with ⟨arrayRes, hset, hget⟩
  rcases onward_eq s hdirection hflag with ⟨hcode, hvertical⟩
  refine ⟨⟨(onward n s.i s.j).row s.i, (onward n s.i s.j).column s.j,
    if s.k = n - 1 then 0 else s.k + 1, if s.k = n - 1 then s.l + 1 else s.l,
    code (onward n s.i s.j), vertical (onward n s.i s.j), arrayRes⟩, ?_, ?_⟩
  · rw [step, blocked_eq h hc]
    dsimp only [bind, Option.bind]
    rw [hcode, hvertical, hvalue]
    dsimp only
    rw [hset]
    dsimp only
    rw [row_eq, column_eq]
  · have hk := h.k_nonneg
    have hk' := h.k_lt
    have hl := h.l_nonneg
    refine ⟨?_, ?_, ?_, ?_, ?_, ?_⟩
    · -- the source is read row by row
      dsimp only
      split
      · rename_i hlast
        rw [← h.source, hlast]
        ring
      · rw [← h.source]
        ring
    · dsimp only
      split <;> omega
    · dsimp only
      split <;> omega
    · dsimp only
      split <;> omega
    · intro hc'
      have hnext := next_onward hin (by rw [hnumber]; exact hc')
      refine ⟨hnext.inSquare, ?_, ?_, ?_⟩
      · dsimp only
        rw [hnext.number_eq, hnumber]
      · rw [hnext.side_eq]
      · rw [hnext.side_eq]
    · intro x y hxy
      rw [hget x y hxy, h.filled x y hxy]
      by_cases heq : x = s.i ∧ y = s.j
      · rw [if_pos heq, heq.1, heq.2, hnumber, if_pos le_rfl]
      · -- no other cell has this number
        have hne : number n x y ≠ c + 1 := by
          intro hnum
          exact heq (number_inj hxy hin (hnum.trans hnumber.symm))
        have hiff : number n x y ≤ c + 1 ↔ number n x y ≤ c := by omega
        rw [if_neg heq]
        simp only [hiff]

/-- The rounds that are left fill the square. -/
theorem steps_walked (m : ℕ) {c : ℤ} (hc : c + m = n * n) {s : State n} (h : Walked c s) :
    ∃ s', steps array m s = some s' ∧ Walked (n * n) s' := by
  induction m generalizing c s with
  | zero =>
    obtain rfl : c = n * n := by simpa using hc
    exact ⟨s, rfl, h⟩
  | succ m ih =>
    push_cast at hc
    rcases step_walked harray (by omega) h with ⟨t, ht, hwalked⟩
    rcases ih (by omega) hwalked with ⟨s', hs', hend⟩
    refine ⟨s', ?_, hend⟩
    rw [steps, ht]
    exact hs'

end

/-- The walk starts in the upper left corner of the free array. -/
theorem walked_start (hn : 1 ≤ n) {arrayRes : Grid n}
    (hfree : ∀ x y, InSquare n x y → arrayRes.get x y = some (-1)) :
    Walked 0 (⟨0, 0, 0, 0, 1, false, arrayRes⟩ : State n) := by
  have hat : At n 0 0 0 _ .right := at_top rfl le_rfl (by omega)
  have hpos : (0 : ℤ) < n := by omega
  refine ⟨by simp, le_rfl, le_rfl, hpos, ?_, ?_⟩
  · intro _
    refine ⟨⟨le_rfl, hpos, le_rfl, hpos⟩, ?_, ?_, ?_⟩
    · rw [hat.number_eq]
      simp [before]
    · rw [hat.side_eq]
      rfl
    · rw [hat.side_eq]
      rfl
  · intro x y hxy
    have hpos := hxy.number_pos
    rw [if_neg (by omega)]
    exact hfree x y hxy

/-- `n * n` is not the largest `int`. -/
theorem lt_intMax (hint : n * n ≤ intMax) : n * n < intMax := by
  unfold intMax at hint ⊢
  rcases Nat.lt_or_ge n 46341 with hlt | hge
  · have hle : n * n ≤ 46340 * 46340 := Nat.mul_le_mul (by omega) (by omega)
    omega
  · have hle : 46341 * 46341 ≤ n * n := Nat.mul_le_mul hge hge
    omega

/-- For every `n` whose square is an `int`, and whatever the arrays hold: no index leaves
the arrays, `array_res` has the number of the spiral in each cell, and each number from 1
to `n * n` in one cell. -/
theorem snailArray_spiral (hn : 1 ≤ n) (hint : n * n ≤ intMax) (array arrayRes : Grid n) :
    ∃ array' arrayRes', snailArray array arrayRes = some (array', arrayRes') ∧
      (∀ i j : Fin n, arrayRes' i j = number n i j) ∧
      ∀ v : ℤ, 1 ≤ v → v ≤ n * n → ∃! p : Fin n × Fin n, arrayRes' p.1 p.2 = v := by
  have hlt := lt_intMax hint
  rcases initialArray_ok hlt (a := ⟨array, arrayRes, 1⟩) rfl with ⟨a, ha, harray, hfree⟩
  rcases steps_walked harray (n * n) (by push_cast; ring) (walked_start hn hfree) with ⟨s, hs, hwalked⟩
  have hfilled : ∀ i j : Fin n, s.arrayRes i j = number n i j := by
    intro i j
    have hin := inSquare_fin (i, j)
    have hget := hwalked.filled i j hin
    rw [if_pos hin.number_le, Grid.get_fin] at hget
    exact Option.some.inj hget
  refine ⟨a.array, s.arrayRes, ?_, hfilled, ?_⟩
  · rw [snailArray, ha]
    show (if intMax < n * n then none else _) = _
    rw [if_neg (by omega), hs]
    rfl
  · intro v h1 hv
    simp only [hfilled]
    exact existsUnique_number n h1 hv

/-- An array of three rows. -/
theorem snailArray_spiral_three :
    ∃ array' arrayRes', snailArray (n := 3) (fun _ _ => 7) (fun _ _ => 7) = some (array', arrayRes') ∧
      arrayRes' 1 0 = 8 ∧ arrayRes' 1 1 = 9 ∧ arrayRes' 2 2 = 5 := by
  rcases snailArray_spiral (n := 3) (by decide) (by decide) (fun _ _ => 7) (fun _ _ => 7)
    with ⟨array', arrayRes', hsnail, hnumber, -⟩
  refine ⟨array', arrayRes', hsnail, ?_, ?_, ?_⟩
  · rw [hnumber]
    decide
  · rw [hnumber]
    decide
  · rw [hnumber]
    decide

end EmbeddedCourse.HomeWork.Snail
