import EmbeddedCourse.Directory.TableSlots

/-! # The array holds a list of records

With fields of one to nine bytes, and not more records than the array has
room for, the array is the list of the records followed by zero records
(`table`), and every operation does to the list what it should.
-/

namespace EmbeddedCourse.Directory.Table

open CString

/-- The fields of a record in the array. -/
def cells (r : Record) : Abonent :=
  ⟨r.name.takeD 10 0, r.secondName.takeD 10 0, r.tel.takeD 10 0⟩

/-- The array of the records `L`. -/
def table (L : List Record) : List Abonent := L.map cells ++ List.replicate (maxLen - L.length) zero

/-! ## Fields -/

variable {n : ℕ} {f : Bytes} {r : Record} {s : Bytes}

/-- The first byte of a field that is not empty. -/
theorem head_field (h : Field n f) : (f.takeD 10 0).getD 0 0 ≠ 0 := by
  rw [getD_takeD _ (by decide)]
  intro h0
  have hle := (h.noNul.getD_eq_zero_iff 0).mp h0
  have hpos := h.pos
  omega

theorem occupied_cells (h : r.Fits n) : (cells r).Occupied :=
  ⟨head_field h.name, head_field h.secondName, head_field h.tel⟩

/-- A field of up to nine bytes ends within its ten. -/
theorem cstr_field (h : Field 9 f) (t : Bytes) : cstr (f.takeD 10 0 ++ t) = f := by
  have hle := h.le
  have hpad : f.takeD 10 0 = f ++ 0 :: List.replicate (9 - f.length) 0 := by
    rw [Cells.takeD_eq_append, List.take_of_length_le (by omega)]
    have hk : 10 - f.length = (9 - f.length) + 1 := by omega
    rw [hk, List.replicate_succ]
  rw [hpad, List.append_assoc, List.cons_append, cstr_terminated h.noNul]

/-- What is read at a record of short fields. -/
theorem shown_cells (h : r.Fits 9) {A : List Abonent} {i : ℕ} (hi : A.length = i)
    (B : List Abonent) : shown (A ++ cells r :: B) i = r := by
  have hdrop : (A ++ cells r :: B).drop i = cells r :: B := by rw [List.drop_left' hi]
  have hmem : memory (cells r :: B) =
      r.name.takeD 10 0 ++ (r.secondName.takeD 10 0 ++ (r.tel.takeD 10 0 ++ memory B)) := by
    rw [memory, List.flatMap_cons]
    simp only [memory, cells, List.append_assoc]
  have hten : (memory (cells r :: B)).drop 10 =
      r.secondName.takeD 10 0 ++ (r.tel.takeD 10 0 ++ memory B) := by
    rw [hmem, List.drop_left' (List.takeD_length ..)]
  have htwenty : (memory (cells r :: B)).drop 20 = r.tel.takeD 10 0 ++ memory B := by
    have hsplit : (memory (cells r :: B)).drop 20 = ((memory (cells r :: B)).drop 10).drop 10 := by
      rw [List.drop_drop]
    rw [hsplit, hten, List.drop_left' (List.takeD_length ..)]
  rw [shown, nameAt, secondNameAt, telAt, hdrop, hmem, cstr_field h.name, ← hmem, hten,
    cstr_field h.secondName, htwenty, cstr_field h.tel]

theorem nameAt_cells (h : r.Fits 9) {A : List Abonent} {i : ℕ} (hi : A.length = i)
    (B : List Abonent) : nameAt (A ++ cells r :: B) i = r.name :=
  congrArg Record.name (shown_cells h hi B)

/-- Writing such fields over a record. -/
theorem insert_cells (h : r.Fits n) {a : Abonent} (ha : a.Wide) :
    insert a r.name r.secondName r.tel = cells r := by
  rw [insert_wide ha, cstr_of_noNul h.name.noNul, cstr_of_noNul h.secondName.noNul,
    cstr_of_noNul h.tel.noNul, cells]

theorem padded_cells (h : r.Fits n) : (cells r).Padded :=
  ⟨padded_takeD h.name.noNul, padded_takeD h.secondName.noNul, padded_takeD h.tel.noNul⟩

/-! ## `find_free_index` and `search` -/

theorem head_zeros (k : ℕ) : ∀ z ∈ (List.replicate k zero).head?, ¬ z.Occupied := by
  intro z hz
  rw [List.head?_replicate] at hz
  split_ifs at hz
  · simp at hz
  · obtain rfl : zero = z := by simpa using hz
    exact not_occupied_zero

theorem occupied_map {L : List Record} (hL : ∀ r ∈ L, r.Fits n) : ∀ a ∈ L.map cells, a.Occupied := by
  intro a ha
  rcases List.mem_map.mp ha with ⟨r, hr, rfl⟩
  exact occupied_cells (hL r hr)

/-- The free index is the number of records. -/
theorem findFreeIndex_table {L : List Record} (hL : ∀ r ∈ L, r.Fits n) (hlen : L.length ≤ maxLen) :
    findFreeIndex (table L) = L.length := by
  rw [table, findFreeIndex_eq (occupied_map hL) (head_zeros _)
    (by rw [List.length_map]; exact hlen), List.length_map]

/-- The report that `search_abonent` makes of the index it has found. -/
def reportAt (array : List Abonent) (i : Int) : Report :=
  if i = -1 then .absent else .found (i.toNat + 1) (shown array i.toNat)

theorem searchLoop_map {L : List Record} (hL : ∀ r ∈ L, r.Fits 9) (A : List Abonent)
    (Z : List Abonent) :
    reportAt (A ++ L.map cells ++ Z) (searchLoop (A ++ L.map cells ++ Z) s A.length L.length) =
      reportFrom (A.length + 1) s L := by
  induction L generalizing A with
  | nil => rfl
  | cons r L ih =>
    have hr := hL r (by simp)
    have hassoc : A ++ (r :: L).map cells ++ Z = A ++ cells r :: (L.map cells ++ Z) := by simp
    rw [List.length_cons, searchLoop, reportFrom]
    have hname : nameAt (A ++ (r :: L).map cells ++ Z) A.length = r.name := by
      rw [hassoc, nameAt_cells hr rfl]
    rw [hname]
    by_cases hs : r.name = s
    · have hne : ¬ ((A.length : Int) = -1) := by omega
      rw [if_pos hs, if_pos hs, reportAt, if_neg hne, Int.toNat_natCast, hassoc, shown_cells hr rfl]
    · have hih := ih (fun x hx => hL x (List.mem_cons_of_mem r hx)) (A ++ [cells r])
      rw [List.length_append, List.length_singleton] at hih
      have hcons : A ++ (r :: L).map cells ++ Z = A ++ [cells r] ++ L.map cells ++ Z := by simp
      rw [if_neg hs, if_neg hs, hcons]
      exact hih

/-- `search_abonent` reports what the list has. -/
theorem searchAbonent_table {L : List Record} (hL : ∀ r ∈ L, r.Fits 9) (hlen : L.length ≤ maxLen)
    (hs : Typed s) (hs98 : s.length ≤ 98) :
    (searchAbonent (table L) (s ++ [10])).1.report = Op.answer L (.search s) := by
  have hfree := findFreeIndex_table hL hlen
  unfold searchAbonent
  rw [hfree, Op.answer]
  by_cases hnil : L = []
  · subst hnil
    rfl
  · have hpos : ¬ L.length = 0 := by simpa using hnil
    rw [if_neg hpos, if_neg hnil, prompt_typed hs hs98]
    have hloop := searchLoop_map (s := s) hL [] (List.replicate (maxLen - L.length) zero)
    rw [List.nil_append] at hloop
    show some (reportAt (table L) (searchLoop (table L) s 0 (findFreeIndex (table L)))) = _
    rw [hfree]
    exact congrArg some hloop

/-- What `print_all_abonents` prints. -/
theorem listing_table {L : List Record} (hL : ∀ r ∈ L, r.Fits 9) (hlen : L.length ≤ maxLen) :
    listing (table L) = L := by
  rw [listing, findFreeIndex_table hL hlen]
  apply List.ext_getElem
  · simp
  · intro i hi hi'
    rw [List.getElem_map, List.getElem_range]
    have hsplit : table L = (L.take i).map cells ++ cells L[i] ::
        ((L.drop (i + 1)).map cells ++ List.replicate (maxLen - L.length) zero) := by
      have hL' : L.take i ++ L[i] :: L.drop (i + 1) = L := by simp
      have hmap : L.map cells =
          (L.take i).map cells ++ cells L[i] :: (L.drop (i + 1)).map cells := by
        rw [← List.map_cons, ← List.map_append, hL']
      rw [table, hmap, List.append_assoc, List.cons_append]
    rw [hsplit]
    exact shown_cells (hL _ (List.getElem_mem hi')) (by simp; omega) _

/-! ## `insert_abonent` -/

theorem length_field (h : Field n f) (hn : n ≤ 98) : f.length ≤ 98 := h.le.trans hn

/-- `insert_abonent` writes the first zero record. -/
theorem insertAbonent_table {L : List Record} (hL : ∀ r ∈ L, r.Fits n) (hn : n ≤ 98)
    (hlen : L.length < maxLen) (hr : r.Fits n) (stale : Record) :
    (insertAbonent stale (table L) (Op.insert r).input).2.1 = table (L ++ [r]) := by
  have hfree := findFreeIndex_table hL hlen.le
  have hroom : ¬ 100 < L.length := by
    simp only [maxLen] at hlen
    omega
  -- there is a zero record behind the last one
  obtain ⟨k, hk⟩ : ∃ k, maxLen - L.length = k + 1 := ⟨maxLen - L.length - 1, by omega⟩
  have hk' : maxLen - (L ++ [r]).length = k := by
    rw [List.length_append, List.length_singleton]
    omega
  have hend : (L.map cells).length = L.length := List.length_map ..
  have hget : get (table L) L.length = zero := by
    rw [get, table, hk, List.replicate_succ, Cells.getD_middle hend]
  simp only [insertAbonent, hfree, if_neg hroom, Op.input,
    prompt_typed hr.name.toTyped (length_field hr.name hn),
    prompt_typed hr.secondName.toTyped (length_field hr.secondName hn),
    prompt_typed hr.tel.toTyped (length_field hr.tel hn), hget, insert_cells hr wide_zero]
  rw [table, table, hk, hk', List.replicate_succ, Cells.set_middle hend, List.map_append]
  simp

/-! ## `delete_abonent` -/

/-- The name is read at a record exactly when it is the record's. -/
def Reads (s : Bytes) (r : Record) : Prop :=
  ∀ B : List Abonent, nameAt (cells r :: B) 0 = s ↔ r.name = s

/-- Short names are read as they are. -/
theorem reads_short (h : r.Fits 9) (s : Bytes) : Reads s r := by
  intro B
  have hname : nameAt (cells r :: B) 0 = r.name := nameAt_cells h (A := []) rfl B
  rw [hname]

/-- The record in the array after the loop of `delete_abonent`. -/
def blanked (s : Bytes) (r : Record) : Abonent := if r.name = s then zero else cells r

/-- The first index from `i` on with a record of the name. -/
def firstMark (s : Bytes) (i : ℕ) : List Record → Int
  | [] => -1
  | r :: L => if r.name = s then i else firstMark s (i + 1) L

/-- Where the name is read first. -/
theorem firstHit_map {L : List Record} (hs : ∀ r ∈ L, Reads s r) (Z : List Abonent) (i : ℕ) :
    firstHit s Z i (L.map cells) = firstMark s i L := by
  induction L generalizing i with
  | nil => rfl
  | cons r L ih =>
    have hread := hs r (by simp) (L.map cells ++ Z)
    have hih := ih (fun x hx => hs x (List.mem_cons_of_mem r hx)) (i + 1)
    rw [List.map_cons, firstHit, firstMark, hih, if_congr hread rfl rfl]

/-- The loop of `delete_abonent` clears the records with the name. -/
theorem swept_map {L : List Record} (hs : ∀ r ∈ L, Reads s r) (Z : List Abonent) :
    swept s Z (L.map cells) = L.map (blanked s) := by
  induction L with
  | nil => rfl
  | cons r L ih =>
    have hread := hs r (by simp) (L.map cells ++ Z)
    have hih := ih fun x hx => hs x (List.mem_cons_of_mem r hx)
    rw [List.map_cons, List.map_cons, swept, blanked, hih, if_congr hread rfl rfl]

/-- The records in use after that loop. -/
theorem filter_blanked {L : List Record} (hL : ∀ r ∈ L, r.Fits n) :
    (L.map (blanked s)).filter (fun b => b.Occupied) = (remove L s).map cells := by
  induction L with
  | nil => rfl
  | cons r L ih =>
    have hr := occupied_cells (hL r (by simp))
    have hih := ih fun x hx => hL x (List.mem_cons_of_mem r hx)
    rw [List.map_cons, remove_cons, blanked]
    by_cases hs : r.name = s
    · rw [if_pos hs, if_pos hs, List.filter_cons_of_neg (by simpa using not_occupied_zero), hih]
    · rw [if_neg hs, if_neg hs, List.filter_cons_of_pos (by simpa using hr), hih, List.map_cons]

/-- The records that a delete leaves. -/
theorem kept_map {L : List Record} (hL : ∀ r ∈ L, r.Fits n) (hs : ∀ r ∈ L, Reads s r)
    (Z : List Abonent) : kept s Z (L.map cells) = (remove L s).map cells := by
  rw [kept, swept_map hs, filter_blanked hL]

/-- Fewer records are followed by more zero records. -/
theorem compacted_map {L K : List Record} (hlen : L.length ≤ maxLen) (hle : K.length ≤ L.length)
    (hkept : kept s (List.replicate (maxLen - L.length) zero) (L.map cells) = K.map cells) :
    compacted s (List.replicate (maxLen - L.length) zero) (L.map cells) = table K := by
  have hsum : L.length - K.length + (maxLen - L.length) = maxLen - K.length := by omega
  rw [compacted, hkept, List.length_map, List.length_map, List.append_assoc, ← List.replicate_add,
    hsum, table]

/-- `delete_abonent` reports nothing. -/
theorem deleteAbonent_report {array array' : List Abonent} {stdin stdin' : Bytes} {answer : Answer}
    (h : deleteAbonent array stdin = some (answer, array', stdin')) : answer.report = none := by
  unfold deleteAbonent at h
  split_ifs at h
  · rcases Prod.mk.inj (Option.some.inj h) with ⟨rfl, -⟩
    rfl
  · dsimp only at h
    split_ifs at h
    · rcases Option.map_eq_some_iff.mp h with ⟨_, -, heq⟩
      rcases Prod.mk.inj heq with ⟨rfl, -⟩
      rfl
    · rcases Prod.mk.inj (Option.some.inj h) with ⟨rfl, -⟩
      rfl

/-- What `delete_abonent` leaves of the records `L`. -/
theorem deleteAbonent_kept {L K : List Record} (hL : ∀ r ∈ L, r.Fits n) (hlen : L.length ≤ maxLen)
    (hs : Typed s) (hs98 : s.length ≤ 98) (hle : K.length ≤ L.length)
    (hkept : kept s (List.replicate (maxLen - L.length) zero) (L.map cells) = K.map cells) :
    ∃ answer stdin, deleteAbonent (table L) (s ++ [10]) = some (answer, table K, stdin) := by
  have hC : ∀ a ∈ L.map cells, a.Occupied ∧ a.Padded := by
    intro a ha
    rcases List.mem_map.mp ha with ⟨r, hr, rfl⟩
    exact ⟨occupied_cells (hL r hr), padded_cells (hL r hr)⟩
  have hfree : findFreeIndex (L.map cells ++ List.replicate (maxLen - L.length) zero) =
      (L.map cells).length := by
    rw [List.length_map]
    exact findFreeIndex_table hL hlen
  rcases deleteAbonent_eq hC hfree (s ++ [10]) with ⟨answer, stdin, hdel⟩
  rw [prompt_typed hs hs98, compacted_map hlen hle hkept] at hdel
  exact ⟨answer, stdin, hdel⟩

/-- `delete_abonent` leaves the records without the name. -/
theorem deleteAbonent_table {L : List Record} (hL : ∀ r ∈ L, r.Fits n)
    (hreads : ∀ r ∈ L, Reads s r) (hlen : L.length ≤ maxLen) (hs : Typed s) (hs98 : s.length ≤ 98) :
    ∃ answer stdin, deleteAbonent (table L) (s ++ [10]) =
      some (answer, table (remove L s), stdin) :=
  deleteAbonent_kept hL hlen hs hs98 (length_remove_le L s) (kept_map hL hreads _)

/-- Every operation does to the array what it does to the list of records. -/
theorem perform_table {L : List Record} (hL : ∀ r ∈ L, r.Fits 9) (hlen : L.length < maxLen)
    {op : Op} (hop : op.Fits 9) (stale : Record) :
    ∃ answer, perform stale (table L) op = some (answer, table (op.apply L)) ∧
      answer.report = op.answer L := by
  cases op with
  | insert r =>
    refine ⟨(insertAbonent stale (table L) (Op.insert r).input).1, ?_, ?_⟩
    · show some ((insertAbonent stale (table L) (Op.insert r).input).1,
        (insertAbonent stale (table L) (Op.insert r).input).2.1) = _
      rw [insertAbonent_table hL (by decide) hlen hop]
      rfl
    · simp only [insertAbonent]
      split_ifs <;> rfl
  | delete s =>
    obtain ⟨answer, stdin, hdel⟩ := deleteAbonent_table hL
      (fun r hr => reads_short (hL r hr) s) hlen.le hop.1 hop.2
    refine ⟨answer, ?_, ?_⟩
    · show (deleteAbonent (table L) (s ++ [10])).map _ = _
      rw [hdel]
      rfl
    · exact deleteAbonent_report hdel
  | search s => exact ⟨_, rfl, searchAbonent_table hL hlen.le hop.1 hop.2⟩

end EmbeddedCourse.Directory.Table
