import EmbeddedCourse.Directory.TableSlots

/-! # `delete_` on any pattern of holes

The array may have zero records anywhere; what `delete_` leaves below `index` are the
records in use in their order and then zero records.
-/

namespace EmbeddedCourse.Directory.Table

open CString

/-- Every record is all zero bytes or in use, as `insert` leaves it. -/
def Holed (array : List Abonent) : Prop :=
  array.length = maxLen ∧ ∀ a ∈ array, a = zero ∨ a.Occupied ∧ a.Padded

/-- The first zero record below `index` is at `delI`. -/
structure FirstZero (array : List Abonent) (delI index : ℕ) : Prop where
  lt : delI < index
  hole : get array delI = zero
  before : ∀ i < delI, get array i ≠ zero

theorem Holed.occupied {array : List Abonent} (h : Holed array) {a : Abonent} (ha : a ∈ array)
    (hne : a ≠ zero) : a.Occupied := by
  rcases h.2 a ha with hzero | ⟨hocc, -⟩
  · exact absurd hzero hne
  · exact hocc

/-- The records below `index`, split at the first zero record. -/
theorem FirstZero.take_eq {array : List Abonent} {delI index : ℕ} (h : FirstZero array delI index)
    (hindex : index ≤ array.length) :
    array.take index = array.take delI ++ zero :: (array.take index).drop (delI + 1) := by
  have hlt := h.lt
  have hin : delI < (array.take index).length := by
    rw [List.length_take]
    omega
  have hget : (array.take index)[delI] = zero := by
    rw [List.getElem_take, ← h.hole, get, List.getD_eq_getElem]
  have hsplit := (List.take_append_drop delI (array.take index)).symm
  rw [List.drop_eq_getElem_cons hin, hget, List.take_take,
    Nat.min_eq_left hlt.le] at hsplit
  exact hsplit

/-- `delete_` ends, and moves the records in use below `index` together in their order;
behind `index` nothing changes. From `index` on there is nothing to do. -/
theorem delete_compacts {array : List Abonent} {delI index : ℕ} (harray : Holed array)
    (hindex : index ≤ 100) :
    (FirstZero array delI index →
      delete_ array delI index =
        some ((array.take index).filter (fun a => a ≠ zero) ++
          List.replicate (index - ((array.take index).filter fun a => a ≠ zero).length) zero ++
          array.drop index)) ∧
    (index ≤ delI → delete_ array delI index = some array) := by
  have hlen : array.length = 100 := harray.1
  constructor
  · intro h
    have hin : ∀ a ∈ array.take index, a = zero ∨ a.Occupied ∧ a.Padded :=
      fun a ha => harray.2 a (List.mem_of_mem_take ha)
    have hused : (array.take index).filter (fun a => a ≠ zero) =
        (array.take index).filter fun a => a.Occupied := by
      apply List.filter_congr
      intro a ha
      rcases hin a ha with rfl | ⟨hocc, -⟩
      · simp [not_occupied_zero]
      · have hne : a ≠ zero := fun hzero => not_occupied_zero (hzero ▸ hocc)
        simp [hocc, hne]
    -- before the first hole there are only records in use
    have hA : ∀ a ∈ array.take delI, a.Occupied := by
      intro a ha
      rcases List.mem_iff_getElem.mp ha with ⟨i, hi, hai⟩
      rw [List.length_take] at hi
      have hne := h.before i (by omega)
      rw [List.getElem_take] at hai
      rw [get, List.getD_eq_getElem _ _ (by omega), hai] at hne
      exact harray.occupied (List.mem_of_mem_take ha) hne
    have hB : ∀ b ∈ (array.take index).drop (delI + 1), b = zero ∨ b.Occupied ∧ b.Padded :=
      fun b hb => hin b (List.mem_of_mem_drop hb)
    have htake := h.take_eq (by omega)
    have hcompact := delete_first_zero hA hB (array.drop index)
    rw [← htake, List.take_append_drop, List.length_take, List.length_take] at hcompact
    have hlt := h.lt
    have hdel : min delI array.length = delI := by omega
    have hidx : min index array.length = index := by omega
    rw [hdel, hidx] at hcompact
    rw [hused, hcompact]
  · intro hge
    -- the loop is not entered
    have hdone : ¬ delI + 1 < index := by omega
    rw [delete_]
    cases index + array.length with
    | zero => rw [compact, if_neg hdone]
    | succ fuel => rw [compact, if_neg hdone]

/-- A record whose fields are one letter each. -/
def letters (c : Char) : Abonent :=
  ⟨(ascii [c]).takeD 10 0, (ascii [c]).takeD 10 0, (ascii [c]).takeD 10 0⟩

/-- Two records with a hole between them. -/
def oneHole : List Abonent := [letters 'a', zero, letters 'b'] ++ List.replicate 97 zero

theorem delete_oneHole :
    delete_ oneHole 1 3 = some ([letters 'a', letters 'b', zero] ++ List.replicate 97 zero) := by
  have hletters : ∀ c ∈ ['a', 'b'], (letters c).Occupied ∧ (letters c).Padded := by
    intro c hc
    rcases List.mem_pair.mp hc with rfl | rfl
    · exact ⟨by decide, ⟨rfl, rfl, rfl⟩⟩
    · exact ⟨by decide, ⟨rfl, rfl, rfl⟩⟩
  have hholed : Holed oneHole := by
    refine ⟨rfl, ?_⟩
    intro a ha
    rcases List.mem_append.mp ha with ha | ha
    · simp only [List.mem_cons, List.not_mem_nil, or_false] at ha
      rcases ha with rfl | rfl | rfl
      · exact Or.inr (hletters 'a' (by simp))
      · exact Or.inl rfl
      · exact Or.inr (hletters 'b' (by simp))
    · exact Or.inl (List.eq_of_mem_replicate ha)
  have hfirst : FirstZero oneHole 1 3 := by
    refine ⟨by decide, rfl, ?_⟩
    intro i hi
    obtain rfl : i = 0 := by omega
    decide
  exact (delete_compacts hholed (by decide)).1 hfirst

end EmbeddedCourse.Directory.Table
