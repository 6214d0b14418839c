import EmbeddedCourse.Directory.Table

/-! # Slots of the array directory

The array as what stands in its slots, whatever was entered: records in use in
front (`C`), the rest (`Z`) not in use. What `find_free_index`, `search`,
`insert` and `delete_abonent` do to it; which records a name is read at depends
on the memory behind each of them.
-/

namespace EmbeddedCourse.Directory.Table

open CString

variable {s : Bytes} {C Z : List Abonent}

theorem not_occupied_zero : ¬ zero.Occupied := by decide

theorem vacant_zero : zero.Vacant := by decide

/-! ## What stands in a slot -/

/-- The fields have ten bytes. -/
structure Abonent.Wide (a : Abonent) : Prop where
  name : a.name.length = 10
  secondName : a.secondName.length = 10
  tel : a.tel.length = 10

theorem wide_zero : zero.Wide := ⟨rfl, rfl, rfl⟩

/-- A field with nothing but zero bytes behind its first NUL. -/
def Padded (f : Bytes) : Prop := f = (cstr f).takeD 10 0

/-- A record as `insert` leaves it. -/
structure Abonent.Padded (a : Abonent) : Prop where
  name : Table.Padded a.name
  secondName : Table.Padded a.secondName
  tel : Table.Padded a.tel

theorem Padded.length {f : Bytes} (h : Padded f) : f.length = 10 := by
  rw [h, List.takeD_length]

theorem Abonent.Padded.wide {a : Abonent} (h : a.Padded) : a.Wide :=
  ⟨h.name.length, h.secondName.length, h.tel.length⟩

/-- A text cut at ten bytes or filled up with zero bytes. -/
theorem padded_takeD {f : Bytes} (h : NoNul f) : Padded (f.takeD 10 0) := by
  have hmin : 10 - min 10 f.length = 10 - f.length := by omega
  rw [Padded, cstr_takeD h, Cells.takeD_eq_append, Cells.takeD_eq_append, List.length_take, hmin,
    List.take_take, Nat.min_self]

/-- `strncpy` fills a field whatever stood there. -/
theorem strncpy_field {f : Bytes} (h : f.length = 10) (src : Bytes) :
    strncpy f src 10 = (cstr src).takeD 10 0 := by
  rw [strncpy, List.drop_eq_nil_of_le (Nat.le_of_eq h), List.append_nil]

theorem insert_wide {a : Abonent} (h : a.Wide) (name secondName tel : Bytes) :
    insert a name secondName tel =
      ⟨(cstr name).takeD 10 0, (cstr secondName).takeD 10 0, (cstr tel).takeD 10 0⟩ := by
  rw [insert, strncpy_field h.name, strncpy_field h.secondName, strncpy_field h.tel]

theorem padded_insert {a : Abonent} (h : a.Wide) (name secondName tel : Bytes) :
    (insert a name secondName tel).Padded := by
  rw [insert_wide h]
  exact ⟨padded_takeD (noNul_cstr _), padded_takeD (noNul_cstr _), padded_takeD (noNul_cstr _)⟩

/-- Clearing a record. -/
theorem insert_clear {a : Abonent} (h : a.Wide) : insert a [] [] [] = zero := insert_wide h [] [] []

/-- Copying a padded record over a zero record. -/
theorem insert_padded {b : Abonent} (hb : b.Padded) : insert zero b.name b.secondName b.tel = b := by
  rw [insert_wide wide_zero, ← hb.name, ← hb.secondName, ← hb.tel]

/-! ## `find_free_index` -/

theorem scan_eq (hC : ∀ a ∈ C, a.Occupied) (hZ : ∀ z ∈ Z.head?, ¬ z.Occupied) (i : ℕ)
    (hi : i + C.length ≤ 100) : scan (C ++ Z) i = i + C.length := by
  induction C generalizing i with
  | nil =>
    cases Z with
    | nil => rfl
    | cons z Z =>
      have hz := hZ z rfl
      simp [scan, hz]
  | cons a C ih =>
    have ha := hC a (by simp)
    rw [List.length_cons] at hi
    rw [List.cons_append, scan, if_pos ⟨ha, by omega⟩,
      ih (fun x hx => hC x (List.mem_cons_of_mem a hx)) _ (by omega), List.length_cons]
    omega

/-- The free index is the number of records in front. -/
theorem findFreeIndex_eq (hC : ∀ a ∈ C, a.Occupied) (hZ : ∀ z ∈ Z.head?, ¬ z.Occupied)
    (hlen : C.length ≤ 100) : findFreeIndex (C ++ Z) = C.length := by
  rw [findFreeIndex, scan_eq hC hZ 0 (by omega), Nat.zero_add]

/-! ## Where a name is read -/

/-- The name at a record depends on nothing in front of it. -/
theorem nameAt_append {A : List Abonent} {i : ℕ} (hi : A.length = i) (B : List Abonent) :
    nameAt (A ++ B) i = nameAt B 0 := by
  rw [nameAt, nameAt, List.drop_left' hi, List.drop_zero]

/-- The first index from `i` on at which the name is read. -/
def firstHit (s : Bytes) (Z : List Abonent) (i : ℕ) : List Abonent → Int
  | [] => -1
  | a :: C => if nameAt (a :: (C ++ Z)) 0 = s then i else firstHit s Z (i + 1) C

/-- How often it is read. -/
def hits (s : Bytes) (Z : List Abonent) : List Abonent → ℕ
  | [] => 0
  | a :: C => if nameAt (a :: (C ++ Z)) 0 = s then hits s Z C + 1 else hits s Z C

/-- The records after the loop of `delete_abonent`. -/
def swept (s : Bytes) (Z : List Abonent) : List Abonent → List Abonent
  | [] => []
  | a :: C => (if nameAt (a :: (C ++ Z)) 0 = s then zero else a) :: swept s Z C

theorem length_swept (s : Bytes) (Z C : List Abonent) : (swept s Z C).length = C.length := by
  induction C with
  | nil => rfl
  | cons a C ih => rw [swept, List.length_cons, List.length_cons, ih]

/-- Only zero records are new among the swept ones. -/
theorem mem_swept {a : Abonent} (ha : a ∈ swept s Z C) : a = zero ∨ a ∈ C := by
  induction C with
  | nil => simp [swept] at ha
  | cons b C ih =>
    rw [swept] at ha
    rcases List.mem_cons.mp ha with ha | ha
    · split_ifs at ha
      · exact Or.inl ha
      · exact Or.inr (by simp [ha])
    · rcases ih ha with ha | ha
      · exact Or.inl ha
      · exact Or.inr (List.mem_cons_of_mem b ha)

/-- Either the name is read nowhere, or there is a first record where it is. -/
theorem hit_cases (s : Bytes) (Z : List Abonent) (i : ℕ) (C : List Abonent) :
    (firstHit s Z i C = -1 ∧ hits s Z C = 0 ∧ swept s Z C = C) ∨
    ∃ C₁ a C₂, C = C₁ ++ a :: C₂ ∧ firstHit s Z i C = ((i + C₁.length : ℕ) : Int) ∧
      0 < hits s Z C ∧ swept s Z C = C₁ ++ zero :: swept s Z C₂ := by
  induction C generalizing i with
  | nil => exact Or.inl ⟨rfl, rfl, rfl⟩
  | cons a C ih =>
    by_cases ha : nameAt (a :: (C ++ Z)) 0 = s
    · exact Or.inr ⟨[], a, C, rfl, if_pos ha, by simp [hits, ha], by simp [swept, ha]⟩
    · rw [firstHit, hits, swept, if_neg ha, if_neg ha, if_neg ha]
      rcases ih (i + 1) with ⟨hfirst, hcount, hswept⟩ | ⟨C₁, b, C₂, rfl, hfirst, hcount, hswept⟩
      · exact Or.inl ⟨hfirst, hcount, by rw [hswept]⟩
      · refine Or.inr ⟨a :: C₁, b, C₂, rfl, ?_, hcount, by rw [hswept]; rfl⟩
        rw [hfirst, List.length_cons]
        congr 1
        omega

/-- The loop of `search`. -/
theorem searchLoop_eq (s : Bytes) (A C Z : List Abonent) :
    searchLoop (A ++ C ++ Z) s A.length C.length = firstHit s Z A.length C := by
  induction C generalizing A with
  | nil => rfl
  | cons a C ih =>
    have hassoc : A ++ a :: C ++ Z = A ++ a :: (C ++ Z) := by simp
    have hcons : A ++ a :: C ++ Z = A ++ [a] ++ C ++ Z := by simp
    have hname : nameAt (A ++ a :: C ++ Z) A.length = nameAt (a :: (C ++ Z)) 0 := by
      rw [hassoc, nameAt_append rfl]
    have hih := ih (A ++ [a])
    rw [List.length_append, List.length_singleton] at hih
    rw [List.length_cons, searchLoop, firstHit, hname, hcons, hih]

/-! ## The loop of `delete_abonent` -/

/-- The loop clears the records where the name is read. -/
theorem foldl_mark (s : Bytes) (hC : ∀ a ∈ C, a.Wide) (A Z : List Abonent) (d : Int) (c : ℕ) :
    (List.range' A.length C.length).foldl (mark s) ⟨A ++ C ++ Z, d, c⟩ =
      ⟨A ++ swept s Z C ++ Z, if d = -1 then firstHit s Z A.length C else d, c + hits s Z C⟩ := by
  induction C generalizing A d c with
  | nil =>
    simp only [List.length_nil, List.range'_zero, List.foldl_nil, swept, firstHit, hits, Nat.add_zero]
    split_ifs with hd
    · rw [hd]
    · rfl
  | cons a C ih =>
    have htail := fun x hx => hC x (List.mem_cons_of_mem a hx)
    have hassoc : A ++ a :: C ++ Z = A ++ a :: (C ++ Z) := by simp
    have hname : nameAt (A ++ a :: C ++ Z) A.length = nameAt (a :: (C ++ Z)) 0 := by
      rw [hassoc, nameAt_append rfl]
    have hgoal : ∀ b : Abonent, A ++ b :: swept s Z C ++ Z = A ++ [b] ++ swept s Z C ++ Z := by
      simp
    rw [List.length_cons, List.range'_succ, List.foldl_cons, mark, hname, swept, firstHit, hits]
    by_cases ha : nameAt (a :: (C ++ Z)) 0 = s
    · -- the record is cleared
      have hget : get (A ++ a :: C ++ Z) A.length = a := by
        rw [get, hassoc, Cells.getD_middle rfl]
      have hset : (A ++ a :: C ++ Z).set A.length zero = (A ++ [zero]) ++ C ++ Z := by
        rw [hassoc, Cells.set_middle rfl]
        simp
      have hih := ih htail (A ++ [zero]) (if d = -1 then (A.length : Int) else d) (c + 1)
      rw [List.length_append, List.length_singleton] at hih
      rw [if_pos ha, hget, insert_clear (hC a (by simp)), hset, hih, if_pos ha, hgoal, if_pos ha,
        if_pos ha]
      -- later passes keep the index that this one sets or finds set
      have hfound : ¬ (if d = -1 then (A.length : Int) else d) = -1 := by
        by_cases hd : d = -1
        · rw [if_pos hd]
          omega
        · rw [if_neg hd]
          exact hd
      rw [if_neg hfound]
      congr 1
      omega
    · have hcons : A ++ a :: C ++ Z = (A ++ [a]) ++ C ++ Z := by simp
      have hih := ih htail (A ++ [a]) d c
      rw [List.length_append, List.length_singleton] at hih
      rw [if_neg ha, hcons, hih, if_neg ha, hgoal, if_neg ha, if_neg ha]

/-- The whole loop. -/
theorem foldl_mark_range (s : Bytes) (hC : ∀ a ∈ C, a.Wide) (Z : List Abonent) :
    (List.range C.length).foldl (mark s) ⟨C ++ Z, -1, 0⟩ =
      ⟨swept s Z C ++ Z, firstHit s Z 0 C, hits s Z C⟩ := by
  have hmark := foldl_mark s hC [] Z (-1) 0
  rw [List.length_nil, List.nil_append, List.nil_append, if_pos rfl, Nat.zero_add,
    ← List.range_eq_range'] at hmark
  exact hmark

/-! ## `delete_` -/

/-- What the pointers of `delete_` are at, with a gap of zero records between them. -/
theorem get_gap (A : List Abonent) (m : ℕ) (b : Abonent) (Y : List Abonent) :
    get (A ++ List.replicate (m + 1) zero ++ b :: Y) A.length = zero ∧
      get (A ++ List.replicate (m + 1) zero ++ b :: Y) (A.length + (m + 1)) = b := by
  have hright : (A ++ List.replicate (m + 1) zero).length = A.length + (m + 1) := by simp
  constructor
  · rw [get, List.replicate_succ, List.append_assoc, List.cons_append, Cells.getD_middle rfl]
  · rw [get, Cells.getD_middle hright]

/-- A zero record behind the gap belongs to it. -/
theorem gap_zero (A : List Abonent) (m : ℕ) (Y : List Abonent) :
    A ++ List.replicate (m + 1) zero ++ zero :: Y = A ++ List.replicate (m + 1 + 1) zero ++ Y := by
  simp [List.replicate_succ' (n := m + 1)]

/-- A record behind the gap is moved in front of it. -/
theorem gap_used (A : List Abonent) (m : ℕ) (b : Abonent) (Y : List Abonent) :
    ((A ++ List.replicate (m + 1) zero ++ b :: Y).set A.length b).set (A.length + (m + 1)) zero =
      A ++ [b] ++ List.replicate (m + 1) zero ++ Y := by
  have hcopy : (A ++ List.replicate (m + 1) zero ++ b :: Y).set A.length b =
      (A ++ b :: List.replicate m zero) ++ b :: Y := by
    rw [List.replicate_succ, List.append_assoc, List.cons_append, Cells.set_middle rfl]
    simp
  have hlen : (A ++ b :: List.replicate m zero).length = A.length + (m + 1) := by simp
  rw [hcopy, Cells.set_middle hlen, List.replicate_succ']
  simp

/-- A zero record behind the right pointer widens the gap. -/
theorem compact_zero (A : List Abonent) (m : ℕ) (Y : List Abonent) {index : ℕ}
    (hgo : A.length + (m + 1) < index) (fuel : ℕ) :
    compact index (fuel + 1) A.length (A.length + (m + 1))
        (A ++ List.replicate (m + 1) zero ++ zero :: Y) =
      compact index fuel A.length (A.length + (m + 1 + 1))
        (A ++ List.replicate (m + 1 + 1) zero ++ Y) := by
  rcases get_gap A m zero Y with ⟨hleft, hright⟩
  rw [compact, if_pos hgo, hleft, if_pos vacant_zero, hright, if_neg not_occupied_zero, gap_zero,
    Nat.add_assoc]

/-- A record in use behind the right pointer goes to the left pointer. -/
theorem compact_used (A : List Abonent) (m : ℕ) {b : Abonent} (hocc : b.Occupied) (hpad : b.Padded)
    (Y : List Abonent) {index : ℕ} (hgo : A.length + (m + 1) < index) (fuel : ℕ) :
    compact index (fuel + 1) A.length (A.length + (m + 1))
        (A ++ List.replicate (m + 1) zero ++ b :: Y) =
      compact index fuel (A ++ [b]).length ((A ++ [b]).length + (m + 1))
        (A ++ [b] ++ List.replicate (m + 1) zero ++ Y) := by
  rcases get_gap A m b Y with ⟨hleft, hright⟩
  have hnext : A.length + (m + 1) + 1 = A.length + 1 + (m + 1) := by omega
  rw [compact, if_pos hgo, hleft, if_pos vacant_zero, hright, if_pos hocc]
  dsimp only
  rw [insert_padded hpad, gap_used, hnext, List.length_append, List.length_singleton]

/-- The loop of `delete_`, with `m` zero records between the pointers, moves the
records in use among the rest together. -/
theorem compact_eq {B : List Abonent} (hB : ∀ b ∈ B, b = zero ∨ b.Occupied ∧ b.Padded)
    (Z A : List Abonent) (m : ℕ) {index : ℕ} (fuel : ℕ) (hm : 0 < m)
    (hindex : index = A.length + m + B.length)
    (hfuel : B.length ≤ fuel) :
    compact index fuel A.length (A.length + m) (A ++ List.replicate m zero ++ B ++ Z) =
      some (A ++ B.filter (fun b => b.Occupied) ++
        List.replicate (m + (B.length - (B.filter fun b => b.Occupied).length)) zero ++ Z) := by
  induction B generalizing A m fuel with
  | nil =>
    have hdone : ¬ A.length + m < index := by
      rw [hindex]
      simp
    cases fuel <;> simp [compact, hdone]
  | cons b B ih =>
    rw [List.length_cons] at hindex hfuel
    rcases Nat.exists_eq_add_one.mpr (Nat.zero_lt_of_lt hfuel) with ⟨fuel, rfl⟩
    rcases Nat.exists_eq_add_one.mpr hm with ⟨m, rfl⟩
    have hgo : A.length + (m + 1) < index := by omega
    have htail := fun x hx => hB x (List.mem_cons_of_mem b hx)
    rw [List.append_assoc _ (b :: B) Z, List.cons_append]
    -- the gap grows with a cleared record and moves on with one in use
    rcases hB b (by simp) with rfl | ⟨hocc, hpad⟩
    · have hih := ih htail A (m + 1 + 1) fuel (by omega) (by omega) (by omega)
      have hle := List.length_filter_le (fun b : Abonent => decide b.Occupied) B
      have hcount : m + 1 + 1 + (B.length - (B.filter fun b => decide b.Occupied).length) =
          m + 1 + (B.length + 1 - (B.filter fun b => decide b.Occupied).length) := by omega
      rw [compact_zero A m (B ++ Z) hgo, ← List.append_assoc, hih,
        List.filter_cons_of_neg (by simpa using not_occupied_zero), List.length_cons, hcount]
    · have hih := ih htail (A ++ [b]) (m + 1) fuel (by omega)
        (by simp only [List.length_append, List.length_singleton]; omega) (by omega)
      have hcount : (b :: B).length - ((b :: B).filter fun b => decide b.Occupied).length =
          B.length - (B.filter fun b => decide b.Occupied).length := by
        rw [List.filter_cons_of_pos (by simpa using hocc), List.length_cons, List.length_cons]
        omega
      rw [compact_used A m hocc hpad (B ++ Z) hgo, ← List.append_assoc, hih, hcount,
        List.filter_cons_of_pos (by simpa using hocc)]
      simp

theorem filter_occupied (hC : ∀ a ∈ C, a.Occupied) : C.filter (fun b => b.Occupied) = C := by
  rw [List.filter_eq_self]
  intro a ha
  simpa using hC a ha

/-- `delete_` from the first zero record on: the records in use move together in front
of the zero records. -/
theorem delete_first_zero {A B : List Abonent} (hA : ∀ a ∈ A, a.Occupied)
    (hB : ∀ b ∈ B, b = zero ∨ b.Occupied ∧ b.Padded) (Z : List Abonent) :
    delete_ (A ++ zero :: B ++ Z) A.length (A ++ zero :: B).length =
      some ((A ++ zero :: B).filter (fun b => b.Occupied) ++
        List.replicate ((A ++ zero :: B).length -
          ((A ++ zero :: B).filter fun b => b.Occupied).length) zero ++ Z) := by
  have hkept : (A ++ zero :: B).filter (fun b => b.Occupied) = A ++ B.filter fun b => b.Occupied := by
    rw [List.filter_append, filter_occupied hA,
      List.filter_cons_of_neg (by simpa using not_occupied_zero)]
  have harray : A ++ zero :: B ++ Z = A ++ List.replicate 1 zero ++ B ++ Z := by simp
  have hlen : (A ++ zero :: B).length = A.length + 1 + B.length := by
    rw [List.length_append, List.length_cons]
    omega
  have hle := List.length_filter_le (fun b : Abonent => decide b.Occupied) B
  have hcount : (A ++ zero :: B).length - (A ++ B.filter fun b => b.Occupied).length =
      1 + (B.length - (B.filter fun b => b.Occupied).length) := by
    rw [hlen, List.length_append]
    omega
  rw [hkept, hcount, delete_, hlen, harray]
  exact compact_eq hB Z A 1 _ (by decide) rfl (by simp; omega)

/-! ## `delete_abonent` -/

/-- The records that a delete leaves, in the first slots. -/
def kept (s : Bytes) (Z C : List Abonent) : List Abonent := (swept s Z C).filter fun b => b.Occupied

/-- The array after a delete. -/
def compacted (s : Bytes) (Z C : List Abonent) : List Abonent :=
  kept s Z C ++ List.replicate (C.length - (kept s Z C).length) zero ++ Z

theorem swept_used (s : Bytes) (Z : List Abonent) (hC : ∀ x ∈ C, x.Occupied ∧ x.Padded) :
    ∀ b ∈ swept s Z C, b = zero ∨ b.Occupied ∧ b.Padded := by
  intro b hb
  rcases mem_swept hb with hzero | hmem
  · exact Or.inl hzero
  · exact Or.inr (hC b hmem)

/-- `delete_` on what the loop of `delete_abonent` leaves, from the first record
that it has cleared. -/
theorem delete_swept {C₁ C₂ : List Abonent} {a : Abonent}
    (hC : ∀ x ∈ C₁ ++ a :: C₂, x.Occupied ∧ x.Padded)
    (hswept : swept s Z (C₁ ++ a :: C₂) = C₁ ++ zero :: swept s Z C₂) :
    delete_ (swept s Z (C₁ ++ a :: C₂) ++ Z) C₁.length (C₁ ++ a :: C₂).length =
      some (compacted s Z (C₁ ++ a :: C₂)) := by
  have hA : ∀ x ∈ C₁, x.Occupied := fun x hx => (hC x (List.mem_append_left _ hx)).1
  have hB := swept_used s Z fun x hx => hC x (List.mem_append_right C₁ (List.mem_cons_of_mem a hx))
  have hlen : (C₁ ++ a :: C₂).length = (C₁ ++ zero :: swept s Z C₂).length := by
    rw [← hswept, length_swept]
  rw [compacted, kept, hswept, hlen]
  exact delete_first_zero hA hB Z

/-- `delete_abonent` keeps the records where the name is not read, in their order. -/
theorem deleteAbonent_eq (hC : ∀ a ∈ C, a.Occupied ∧ a.Padded)
    (hfree : findFreeIndex (C ++ Z) = C.length) (stdin : Bytes) :
    ∃ answer rest, deleteAbonent (C ++ Z) stdin =
      some (answer, compacted (prompt [] stdin).1 Z C, rest) := by
  unfold deleteAbonent
  rw [hfree]
  by_cases hnil : C = []
  · subst hnil
    exact ⟨_, _, rfl⟩
  · have hpos : ¬ C.length = 0 := by simpa using hnil
    rw [if_neg hpos]
    generalize prompt [] stdin = typed
    rcases typed with ⟨s, rest⟩
    dsimp only
    rw [foldl_mark_range s (fun a ha => (hC a ha).2.wide) Z]
    rcases hit_cases s Z 0 C with ⟨-, hcount, hswept⟩ | ⟨C₁, a, C₂, rfl, hfirst, hcount, hswept⟩
    · -- nothing was cleared
      have hkept : kept s Z C = C := by rw [kept, hswept, filter_occupied fun a ha => (hC a ha).1]
      rw [hcount, if_neg (lt_irrefl 0), hswept, compacted, hkept, Nat.sub_self]
      refine ⟨{ code := 0 }, rest, ?_⟩
      rw [List.replicate_zero, List.append_nil]
    · rw [if_pos hcount, hfirst, Nat.zero_add, Int.toNat_natCast, delete_swept hC hswept]
      exact ⟨_, _, rfl⟩

end EmbeddedCourse.Directory.Table
