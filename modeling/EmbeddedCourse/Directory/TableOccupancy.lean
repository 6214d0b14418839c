import EmbeddedCourse.Directory.TableRefines
import EmbeddedCourse.Lib.Run

/-! # Subscribers with an empty field

The array directory has no counter: a record is in use when none of its fields
is empty. `insert_abonent` takes any lines and returns 0; a record with an empty
field is then not in use, is not listed, and is overwritten by the next insert.
A record without one is listed from then on until its name is deleted.
-/

namespace EmbeddedCourse.Directory.Table

open CString

/-- An insert or a delete with any bytes on the input. -/
inductive Request where
  | insert (stale : Record) (stdin : Bytes)
  | delete (stdin : Bytes)
deriving DecidableEq, Repr

def serve (array : List Abonent) : Request → Option (List Abonent)
  | .insert stale stdin => some (insertAbonent stale array stdin).2.1
  | .delete stdin => (deleteAbonent array stdin).map fun (_, array, _) => array

/-- The name that is deleted. -/
def Request.deletes : Request → Option Bytes
  | .insert _ _ => none
  | .delete stdin => some (prompt [] stdin).1

/-- What an accepted insert of `r` has to do: one record more is listed, `r` as
the last one, the others are as they were, and `r` is listed until its name is
deleted. -/
structure Kept (array : List Abonent) (r : Record) (array' : List Abonent) : Prop where
  grows : findFreeIndex array' = findFreeIndex array + 1
  last : (listing array').getLast? = some r
  earlier : ∀ i < findFreeIndex array, get array' i = get array i
  stays : ∀ later array'', Machine.Run serve (fun _ q => q.deletes ≠ some r.name) array' later array'' →
    r ∈ listing array''

/-- A line of at most `n` bytes. -/
structure Line (n : ℕ) (l : Bytes) : Prop where
  noNewline : 10 ∉ l
  le : l.length ≤ n

instance (n : ℕ) (l : Bytes) : Decidable (Line n l) :=
  decidable_of_iff (10 ∉ l ∧ l.length ≤ n) ⟨fun h => ⟨h.1, h.2⟩, fun h => ⟨h.noNewline, h.le⟩⟩

/-! ## The records in use stand in front -/

/-- The records `C` in use, and then the slots `Z` that are not. -/
structure Packed (C Z array : List Abonent) : Prop where
  array : array = C ++ Z
  used : ∀ a ∈ C, a.Occupied ∧ a.Padded
  free : ∀ z ∈ Z, ¬ z.Occupied ∧ z.Wide
  length : C.length + Z.length = 100

variable {C Z array array' : List Abonent} {r : Record} {s : Bytes} {q : Request}

theorem Packed.init : Packed [] (List.replicate maxLen zero) Table.init where
  array := rfl
  used := by simp
  free := by
    intro z hz
    obtain rfl := (List.mem_replicate.mp hz).2
    exact ⟨not_occupied_zero, wide_zero⟩
  length := by simp [maxLen]

theorem Packed.findFreeIndex (h : Packed C Z array) : Table.findFreeIndex array = C.length := by
  have hlen := h.length
  rw [h.array]
  exact findFreeIndex_eq (fun a ha => (h.used a ha).1)
    (fun z hz => (h.free z (List.mem_of_mem_head? hz)).1) (by omega)

/-- What an insert writes, and where. -/
theorem Packed.insert (h : Packed C Z array) (stale : Record) (stdin : Bytes) :
    ∃ name secondName tel : Bytes, (insertAbonent stale array stdin).2.1 =
        array.set C.length (Table.insert (get array C.length) name secondName tel) ∧
      (insertAbonent stale array stdin).1.code = 0 ∧
      name = (prompt stale.name stdin).1 ∧
      secondName = (prompt stale.secondName (prompt stale.name stdin).2).1 ∧
      tel = (prompt stale.tel (prompt stale.secondName (prompt stale.name stdin).2).2).1 := by
  have hlen := h.length
  have hroom : ¬ 100 < C.length := by omega
  unfold insertAbonent
  rw [h.findFreeIndex, if_neg hroom]
  exact ⟨_, _, _, rfl, rfl, rfl, rfl, rfl⟩

/-- A write to the first slot that is not in use. -/
theorem Packed.set {z : Abonent} (h : Packed C (z :: Z) array) (name secondName tel : Bytes) :
    array.set C.length (Table.insert (get array C.length) name secondName tel) =
      C ++ Table.insert z name secondName tel :: Z := by
  rw [get, h.array, Cells.getD_middle rfl, Cells.set_middle rfl]

theorem Packed.concat {z b : Abonent} (h : Packed C (z :: Z) array) (hocc : b.Occupied)
    (hpad : b.Padded) : Packed (C ++ [b]) Z (C ++ b :: Z) where
  array := by simp
  used := by
    intro a ha
    rcases List.mem_append.mp ha with ha | ha
    · exact h.used a ha
    · obtain rfl := List.mem_singleton.mp ha
      exact ⟨hocc, hpad⟩
  free := fun x hx => h.free x (List.mem_cons_of_mem z hx)
  length := by
    have hlen := h.length
    rw [List.length_cons] at hlen
    rw [List.length_append, List.length_singleton]
    omega

theorem Packed.discard {z b : Abonent} (h : Packed C (z :: Z) array) (hocc : ¬ b.Occupied)
    (hwide : b.Wide) : Packed C (b :: Z) (C ++ b :: Z) where
  array := rfl
  used := h.used
  free := by
    intro x hx
    rcases List.mem_cons.mp hx with rfl | hx
    · exact ⟨hocc, hwide⟩
    · exact h.free x (List.mem_cons_of_mem z hx)
  length := by
    have hlen := h.length
    rw [List.length_cons] at hlen ⊢
    exact hlen

theorem mem_kept {a : Abonent} (ha : a ∈ kept s Z C) : a ∈ C := by
  rcases List.mem_filter.mp ha with ⟨hmem, hocc⟩
  rcases mem_swept hmem with rfl | hmem
  · exact absurd (of_decide_eq_true hocc) not_occupied_zero
  · exact hmem

/-- A record where another name is read is kept. -/
theorem kept_of_ne {C₁ C₂ : List Abonent} {a : Abonent} (hocc : a.Occupied)
    (hne : nameAt (a :: (C₂ ++ Z)) 0 ≠ s) : a ∈ kept s Z (C₁ ++ a :: C₂) := by
  rw [kept, List.mem_filter]
  refine ⟨?_, by simpa using hocc⟩
  induction C₁ with
  | nil =>
    rw [List.nil_append, swept, if_neg hne]
    exact List.mem_cons_self
  | cons b C₁ ih =>
    rw [List.cons_append, swept]
    exact List.mem_cons_of_mem _ ih

theorem Packed.delete (h : Packed C Z array) (stdin : Bytes) :
    ∃ answer array' rest Z', deleteAbonent array stdin = some (answer, array', rest) ∧
      Packed (kept (prompt [] stdin).1 Z C) Z' array' := by
  have hfree := h.findFreeIndex
  rw [h.array] at hfree
  rcases deleteAbonent_eq h.used hfree stdin with ⟨answer, rest, hdel⟩
  refine ⟨answer, _, rest, List.replicate (C.length - (kept (prompt [] stdin).1 Z C).length) zero ++ Z,
    by rw [h.array, hdel], ?_, ?_, ?_, ?_⟩
  · rw [compacted, List.append_assoc]
  · exact fun a ha => h.used a (mem_kept ha)
  · intro z hz
    rcases List.mem_append.mp hz with hz | hz
    · obtain rfl := (List.mem_replicate.mp hz).2
      exact ⟨not_occupied_zero, wide_zero⟩
    · exact h.free z hz
  · have hlen := h.length
    have hle : (kept (prompt [] stdin).1 Z C).length ≤ C.length := by
      rw [← length_swept (prompt [] stdin).1 Z C]
      exact List.length_filter_le _ _
    rw [List.length_append, List.length_replicate]
    omega

/-- Whatever is requested, the records in use stand in front; a record stays in
use until the name that is read there is deleted. -/
theorem Packed.serve (h : Packed C Z array) (hs : Table.serve array q = some array') :
    ∃ C' Z', Packed C' Z' array' ∧ ∀ r : Record, r.Fits 9 → q.deletes ≠ some r.name →
      cells r ∈ C → cells r ∈ C' := by
  cases q with
  | insert stale stdin =>
    rcases h.insert stale stdin with ⟨name, secondName, tel, hins, -⟩
    obtain rfl : (insertAbonent stale array stdin).2.1 = array' := Option.some.inj hs
    rw [hins]
    cases Z with
    | nil =>
      -- there is no slot left, and nothing is written
      have hlen : array.length ≤ C.length := by
        rw [h.array]
        simp
      refine ⟨C, [], ?_, fun _ _ _ hmem => hmem⟩
      rw [List.set_eq_of_length_le hlen]
      exact h
    | cons z Z =>
      have hwide := (h.free z (by simp)).2
      have hpad := padded_insert hwide name secondName tel
      rw [h.set]
      by_cases hocc : (Table.insert z name secondName tel).Occupied
      · exact ⟨_, Z, h.concat hocc hpad, fun _ _ _ hmem => List.mem_append_left _ hmem⟩
      · exact ⟨C, _, h.discard hocc hpad.wide, fun _ _ _ hmem => hmem⟩
  | delete stdin =>
    rcases h.delete stdin with ⟨answer, array'', rest, Z', hdel, hpacked⟩
    obtain rfl : array'' = array' := by
      rw [Table.serve, hdel] at hs
      exact Option.some.inj hs
    refine ⟨_, Z', hpacked, ?_⟩
    intro r hfits hne hmem
    rcases List.append_of_mem hmem with ⟨C₁, C₂, rfl⟩
    refine kept_of_ne (occupied_cells hfits) ?_
    have hname : nameAt (cells r :: (C₂ ++ Z)) 0 = r.name := nameAt_cells hfits (A := []) rfl _
    rw [hname]
    exact fun he => hne (congrArg some he.symm)

theorem packed_of_run {ok : List Abonent → Request → Prop} {qs : List Request}
    (hrun : Machine.Run Table.serve ok init qs array) : ∃ C Z, Packed C Z array := by
  apply hrun.invariant fun array => ∃ C Z, Packed C Z array
  · exact ⟨_, _, Packed.init⟩
  · rintro array q array' ⟨C, Z, h⟩ - hs
    rcases h.serve hs with ⟨C', Z', h', -⟩
    exact ⟨C', Z', h'⟩

/-- A short record in use is listed. -/
theorem Packed.mem_listing (h : Packed C Z array) (hfits : r.Fits 9) (hmem : cells r ∈ C) :
    r ∈ listing array := by
  rcases List.append_of_mem hmem with ⟨C₁, C₂, rfl⟩
  have harray : array = C₁ ++ cells r :: (C₂ ++ Z) := by
    rw [h.array]
    simp
  rw [listing, List.mem_map]
  refine ⟨C₁.length, ?_, ?_⟩
  · rw [List.mem_range, h.findFreeIndex, List.length_append, List.length_cons]
    omega
  · rw [harray, shown_cells hfits rfl]

theorem Packed.stays (h : Packed C Z array) (hfits : r.Fits 9) (hmem : cells r ∈ C)
    {later : List Request}
    (hrun : Machine.Run Table.serve (fun _ q => q.deletes ≠ some r.name) array later array') :
    r ∈ listing array' := by
  obtain ⟨C', Z', h', hmem'⟩ : ∃ C Z, Packed C Z array' ∧ cells r ∈ C := by
    apply hrun.invariant fun array => ∃ C Z, Packed C Z array ∧ cells r ∈ C
    · exact ⟨C, Z, h, hmem⟩
    · rintro array q array' ⟨C, Z, h, hmem⟩ hne hs
      rcases h.serve hs with ⟨C', Z', h', hkeep⟩
      exact ⟨C', Z', h', hkeep r hfits hne hmem⟩
  exact h'.mem_listing hfits hmem'

/-! ## What is entered -/

/-- The C strings of three lines. -/
def strings (l₁ l₂ l₃ : Bytes) : Record := ⟨cstr l₁, cstr l₂, cstr l₃⟩

/-- A string of a short line that is not empty is a field. -/
theorem field_cstr {l : Bytes} (h : Line 9 l) (hne : cstr l ≠ []) : Field 9 (cstr l) where
  noNul := noNul_cstr l
  noNewline := fun hmem => h.noNewline ((List.takeWhile_sublist _).subset hmem)
  pos := List.length_pos_iff.mpr hne
  le := ((List.takeWhile_sublist _).length_le).trans h.le

/-- The record is in use exactly when no string is empty. -/
theorem occupied_strings (l₁ l₂ l₃ : Bytes) :
    (cells (strings l₁ l₂ l₃)).Occupied ↔ cstr l₁ ≠ [] ∧ cstr l₂ ≠ [] ∧ cstr l₃ ≠ [] := by
  have hhead : ∀ l : Bytes, ((cstr l).takeD 10 0).getD 0 0 ≠ 0 ↔ cstr l ≠ [] := by
    intro l
    rw [getD_takeD _ (by decide), ne_eq, (noNul_cstr l).getD_eq_zero_iff, Nat.le_zero,
      List.length_eq_zero_iff]
  exact and_congr (hhead l₁) (and_congr (hhead l₂) (hhead l₃))

theorem insert_strings {z : Abonent} (h : z.Wide) (l₁ l₂ l₃ : Bytes) :
    Table.insert z (cstr l₁) (cstr l₂) (cstr l₃) = cells (strings l₁ l₂ l₃) := by
  rw [insert_wide h, cstr_cstr, cstr_cstr, cstr_cstr]
  rfl

/-- The array after three short lines. -/
theorem Packed.insert_lines {z : Abonent} (h : Packed C (z :: Z) array) (stale : Record)
    {l₁ l₂ l₃ : Bytes} (h₁ : Line 9 l₁) (h₂ : Line 9 l₂) (h₃ : Line 9 l₃) (rest : Bytes) :
    (insertAbonent stale array (l₁ ++ 10 :: (l₂ ++ 10 :: (l₃ ++ 10 :: rest)))).2.1 =
      C ++ cells (strings l₁ l₂ l₃) :: Z := by
  have hprompt : ∀ {l : Bytes}, Line 9 l → ∀ stale rest, prompt stale (l ++ 10 :: rest) = (cstr l, rest) :=
    fun hl stale rest => prompt_line hl.noNewline (hl.le.trans (by decide)) stale rest
  obtain ⟨name, secondName, tel, hins, -, rfl, rfl, rfl⟩ :=
    h.insert stale (l₁ ++ 10 :: (l₂ ++ 10 :: (l₃ ++ 10 :: rest)))
  rw [hins, h.set]
  simp only [hprompt h₁, hprompt h₂, hprompt h₃]
  rw [insert_strings (h.free z (by simp)).2]

/-- An accepted subscriber is kept exactly when none of the three strings is empty. -/
theorem accepted_kept_iff (qs : List Request) (array : List Abonent)
    (hrun : Machine.Run serve (fun _ _ => True) init qs array) (hroom : findFreeIndex array ≤ 98)
    (stale : Record) (l₁ l₂ l₃ rest : Bytes) (h₁ : Line 9 l₁) (h₂ : Line 9 l₂) (h₃ : Line 9 l₃) :
    let out := insertAbonent stale array (l₁ ++ 10 :: (l₂ ++ 10 :: (l₃ ++ 10 :: rest)))
    out.1.code = 0 ∧ (Kept array (strings l₁ l₂ l₃) out.2.1 ↔
      cstr l₁ ≠ [] ∧ cstr l₂ ≠ [] ∧ cstr l₃ ≠ []) := by
  rcases packed_of_run hrun with ⟨C, Z, h⟩
  have hlen := h.length
  rw [h.findFreeIndex] at hroom
  obtain ⟨z, Z, rfl⟩ : ∃ z Z', Z = z :: Z' := by
    cases Z with
    | nil =>
      rw [List.length_nil] at hlen
      omega
    | cons z Z => exact ⟨z, Z, rfl⟩
  obtain ⟨-, -, -, -, hcode, -⟩ :=
    h.insert stale (l₁ ++ 10 :: (l₂ ++ 10 :: (l₃ ++ 10 :: rest)))
  refine ⟨hcode, ?_⟩
  rw [h.insert_lines stale h₁ h₂ h₃ rest, ← occupied_strings]
  by_cases hocc : (cells (strings l₁ l₂ l₃)).Occupied
  · -- the record is the last one in use
    refine iff_of_true ?_ hocc
    rcases (occupied_strings l₁ l₂ l₃).mp hocc with ⟨hne₁, hne₂, hne₃⟩
    have hfits : (strings l₁ l₂ l₃).Fits 9 :=
      ⟨field_cstr h₁ hne₁, field_cstr h₂ hne₂, field_cstr h₃ hne₃⟩
    have h' := h.concat hocc (padded_cells hfits)
    refine ⟨?_, ?_, ?_, ?_⟩
    · rw [h'.findFreeIndex, h.findFreeIndex, List.length_append, List.length_singleton]
    · rw [listing, h'.findFreeIndex, List.length_append, List.length_singleton, List.range_succ,
        List.map_append, List.map_singleton, List.getLast?_concat, shown_cells hfits rfl]
    · intro i hi
      rw [h.findFreeIndex] at hi
      rw [get, get, h.array, List.getD_append _ _ _ _ hi, List.getD_append _ _ _ _ hi]
    · intro later array'' hlater
      exact h'.stays hfits (by simp) hlater
  · -- the slot counts as free, and nothing has changed in front of it
    refine iff_of_false ?_ hocc
    intro hkept
    have hwide : (cells (strings l₁ l₂ l₃)).Wide :=
      ⟨List.takeD_length .., List.takeD_length .., List.takeD_length ..⟩
    have hgrows := hkept.grows
    rw [(h.discard hocc hwide).findFreeIndex, h.findFreeIndex] at hgrows
    omega

theorem accepted_kept_ivan : ∃ array,
    Machine.Run serve (fun _ _ => True) init [.insert ⟨[], [], []⟩ (ascii ['A', '\n', 'B', '\n', '1', '\n'])]
      array ∧
    Kept array (strings (ascii ['I', 'v', 'a', 'n']) (ascii ['S']) (ascii ['2']))
      (insertAbonent ⟨[], [], []⟩ array
        (ascii ['I', 'v', 'a', 'n'] ++ 10 :: (ascii ['S'] ++ 10 :: (ascii ['2'] ++ 10 :: [])))).2.1 := by
  have hrun : (Machine.exec (Machine.guarded serve fun _ _ => True) init
      [.insert ⟨[], [], []⟩ (ascii ['A', '\n', 'B', '\n', '1', '\n'])]).map
      (fun array => decide (findFreeIndex array ≤ 98)) = some true := by
    decide +kernel
  rcases Machine.Run.exists_of_exec hrun with ⟨array, hrun, hroom⟩
  have hkept := accepted_kept_iff _ _ hrun (of_decide_eq_true hroom) ⟨[], [], []⟩
    (ascii ['I', 'v', 'a', 'n']) (ascii ['S']) (ascii ['2']) [] (by decide) (by decide) (by decide)
  exact ⟨array, hrun, hkept.2.mpr (by decide)⟩

/-- Without a surname the subscriber is accepted and not kept. -/
theorem accepted_not_kept :
    (insertAbonent ⟨[], [], []⟩ init (ascii ['I', 'v', 'a', 'n', '\n', '\n', '2', '\n'])).1.code = 0 ∧
    findFreeIndex (insertAbonent ⟨[], [], []⟩ init
      (ascii ['I', 'v', 'a', 'n', '\n', '\n', '2', '\n'])).2.1 = 0 ∧
    ¬ Kept init (strings (ascii ['I', 'v', 'a', 'n']) [] (ascii ['2']))
      (insertAbonent ⟨[], [], []⟩ init (ascii ['I', 'v', 'a', 'n', '\n', '\n', '2', '\n'])).2.1 := by
  have hfree : findFreeIndex (insertAbonent ⟨[], [], []⟩ init
      (ascii ['I', 'v', 'a', 'n', '\n', '\n', '2', '\n'])).2.1 = 0 := by
    decide +kernel
  refine ⟨by decide +kernel, hfree, ?_⟩
  intro hkept
  have hgrows := hkept.grows
  rw [hfree] at hgrows
  omega

end EmbeddedCourse.Directory.Table
