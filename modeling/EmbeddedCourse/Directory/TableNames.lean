import EmbeddedCourse.Directory.TableRefines
import EmbeddedCourse.Lib.Run

/-! # Names that fill their field

The prompts of the array directory allow ten characters, and the fields have ten
bytes. A name of ten bytes has no NUL in its field and is read on into the next
one, so it is nobody's; shorter names are read as they were entered. A search or
a delete of a name therefore goes wrong exactly when the name has ten bytes and
a record of that name is held.
-/

namespace EmbeddedCourse.Directory.Table

open CString

/-- A call of the directory with what is typed, and what the buffers hold when
the input ends. -/
structure Call where
  op : Op
  stale : Record
deriving DecidableEq, Repr

def step (array : List Abonent) (c : Call) : Option (List Abonent) :=
  (perform c.stale array c.op).map Prod.snd

/-- Fields and names of one to ten bytes, and no more than 99 records. -/
def Admissible (array : List Abonent) (c : Call) : Prop :=
  match c.op with
  | .insert r => r.Fits 10 ∧ findFreeIndex array < 99
  | .delete s | .search s => Field 10 s

instance (array : List Abonent) : ∀ c : Call, Decidable (Admissible array c)
  | ⟨.insert r, _⟩ => inferInstanceAs (Decidable (r.Fits 10 ∧ findFreeIndex array < 99))
  | ⟨.delete s, _⟩ | ⟨.search s, _⟩ => inferInstanceAs (Decidable (Field 10 s))

/-- The name fills the field of a record that is held. -/
def FullName (array : List Abonent) (s : Bytes) : Prop := s.length = 10 ∧ ∃ a ∈ array, a.name = s

instance (array : List Abonent) (s : Bytes) : Decidable (FullName array s) :=
  inferInstanceAs (Decidable (_ ∧ _))

/-- No full name is deleted. -/
def Short (array : List Abonent) (c : Call) : Prop := ∀ s, c.op = .delete s → ¬ FullName array s

/-- The records that the calls have entered. -/
def inserted (cs : List Call) : List Record :=
  cs.flatMap fun c =>
    match c.op with
    | .insert r => [r]
    | _ => []

/-- A search of the name finds the first of the records `L` with it, and none
exactly when there is none. -/
def SearchesByName (array : List Abonent) (L : List Record) (s : Bytes) : Prop :=
  (search array s = -1 ↔ ∀ r ∈ L, r.name ≠ s) ∧
    ∀ L₁ r L₂, L = L₁ ++ r :: L₂ → (∀ x ∈ L₁, x.name ≠ s) → r.name = s → search array s = L₁.length

/-- A delete of the name leaves exactly the records `L` with another one. -/
def DeletesByName (array : List Abonent) (L : List Record) (s : Bytes) : Prop :=
  ∃ answer rest, deleteAbonent array (s ++ [10]) = some (answer, table (remove L s), rest)

variable {L : List Record} {r : Record} {s : Bytes} {array array' : List Abonent} {c : Call}

/-! ## What is read of a name -/

/-- A name of less than ten bytes is read as it is. -/
theorem nameAt_short (h : r.Fits 10) (hlen : r.name.length ≤ 9) (B : List Abonent) :
    nameAt (cells r :: B) 0 = r.name := by
  have hname : Field 9 r.name := ⟨h.name.toTyped, h.name.pos, hlen⟩
  rw [nameAt, List.drop_zero, memory, List.flatMap_cons, cells]
  simp only [List.append_assoc]
  exact cstr_field hname _

/-- A name of ten bytes is read on into the next field. -/
theorem nameAt_full (h : r.Fits 10) (hlen : r.name.length = 10) (B : List Abonent) :
    10 < (nameAt (cells r :: B) 0).length := by
  have hfull : r.name.takeD 10 0 = r.name := by
    rw [List.takeD_eq_take 0 (Nat.le_of_eq hlen.symm), List.take_of_length_le (Nat.le_of_eq hlen)]
  have hhead := head_field h.secondName
  rw [nameAt, List.drop_zero, memory, List.flatMap_cons, cells]
  simp only [List.append_assoc]
  rw [hfull, cstr_append h.name.noNul, List.length_append, hlen]
  -- the next field does not start with NUL
  have hnext : cstr (r.secondName.takeD 10 0 ++ (r.tel.takeD 10 0 ++
      B.flatMap fun a => a.name ++ (a.secondName ++ a.tel))) ≠ [] := by
    intro hnil
    rw [← List.drop_zero (l := _ ++ _), cstr_drop_eq_nil_iff,
      List.getD_append _ _ _ _ (by rw [List.takeD_length]; decide)] at hnil
    exact hhead hnil
  have hpos := List.length_pos_iff.mpr hnext
  omega

/-- Less than ten bytes are read exactly where they are the name. -/
theorem reads_lt_ten (h : r.Fits 10) (hs : s.length ≤ 9) : Reads s r := by
  intro B
  rcases Nat.lt_or_ge r.name.length 10 with hlt | hge
  · rw [nameAt_short h (Nat.le_of_lt_succ hlt)]
  · have hten : r.name.length = 10 := Nat.le_antisymm h.name.le hge
    have hfull := nameAt_full h hten B
    constructor
    · intro he
      rw [he] at hfull
      omega
    · intro he
      rw [he] at hten
      omega

/-- Ten bytes are read nowhere. -/
theorem nameAt_ne_ten (h : r.Fits 10) (hs : s.length = 10) (B : List Abonent) :
    nameAt (cells r :: B) 0 ≠ s := by
  intro he
  rcases Nat.lt_or_ge r.name.length 10 with hlt | hge
  · rw [nameAt_short h (Nat.le_of_lt_succ hlt)] at he
    rw [he] at hlt
    omega
  · have hfull := nameAt_full h (Nat.le_antisymm h.name.le hge) B
    rw [he] at hfull
    omega

theorem firstHit_ten (hL : ∀ r ∈ L, r.Fits 10) (hs : s.length = 10) (Z : List Abonent) (i : ℕ) :
    firstHit s Z i (L.map cells) = -1 := by
  induction L generalizing i with
  | nil => rfl
  | cons r L ih =>
    rw [List.map_cons, firstHit, if_neg (nameAt_ne_ten (hL r (by simp)) hs _)]
    exact ih (fun x hx => hL x (List.mem_cons_of_mem r hx)) _

theorem kept_ten (hL : ∀ r ∈ L, r.Fits 10) (hs : s.length = 10) (Z : List Abonent) :
    kept s Z (L.map cells) = L.map cells := by
  rcases hit_cases s Z 0 (L.map cells) with ⟨-, -, hswept⟩ | ⟨C₁, a, C₂, -, hfirst, -⟩
  · rw [kept, hswept, filter_occupied (occupied_map hL)]
  · rw [firstHit_ten hL hs] at hfirst
    omega

/-! ## `search` and `delete_abonent` -/

theorem firstMark_absent (L : List Record) (s : Bytes) (i : ℕ) :
    firstMark s i L = -1 ↔ ∀ r ∈ L, r.name ≠ s := by
  induction L generalizing i with
  | nil => simp [firstMark]
  | cons r L ih =>
    rw [firstMark]
    by_cases hs : r.name = s
    · have hne : ¬ ((i : Int) = -1) := by omega
      simp [hs, hne]
    · rw [if_neg hs, ih]
      simp [hs]

theorem firstMark_found {L₁ : List Record} (h₁ : ∀ x ∈ L₁, x.name ≠ s) (hr : r.name = s)
    (L₂ : List Record) (i : ℕ) : firstMark s i (L₁ ++ r :: L₂) = ((i + L₁.length : ℕ) : Int) := by
  induction L₁ generalizing i with
  | nil => simp [firstMark, hr]
  | cons x L₁ ih =>
    have hx := h₁ x (by simp)
    rw [List.cons_append, firstMark, if_neg hx, ih (fun y hy => h₁ y (List.mem_cons_of_mem x hy)),
      List.length_cons]
    congr 1
    omega

/-- The directory holds the records `L`. -/
structure Held (L : List Record) (array : List Abonent) : Prop where
  array : array = table L
  fits : ∀ r ∈ L, r.Fits 10
  room : L.length ≤ 99

theorem Held.init : Held [] Table.init := ⟨rfl, by simp, by simp⟩

theorem Held.le_maxLen (h : Held L array) : L.length ≤ maxLen := h.room.trans (by decide)

theorem Held.search (h : Held L array) (s : Bytes) :
    Table.search array s = firstHit s (List.replicate (maxLen - L.length) zero) 0 (L.map cells) := by
  have hloop := searchLoop_eq s [] (L.map cells) (List.replicate (maxLen - L.length) zero)
  rw [List.nil_append, List.length_map] at hloop
  rw [h.array, Table.search, findFreeIndex_table h.fits h.le_maxLen]
  exact hloop

/-- The records that a delete leaves, with the names that are never read. -/
def leave (L : List Record) (s : Bytes) : List Record := if s.length = 10 then L else remove L s

theorem leave_sublist (L : List Record) (s : Bytes) : (leave L s).Sublist L := by
  unfold leave
  split_ifs
  · exact List.Sublist.refl L
  · exact List.filter_sublist

theorem Held.delete (h : Held L array) (hs : Field 10 s) :
    ∃ answer rest, deleteAbonent array (s ++ [10]) = some (answer, table (leave L s), rest) := by
  have hs98 := length_field hs (by decide)
  rw [h.array]
  refine deleteAbonent_kept h.fits h.le_maxLen hs.toTyped hs98 (leave_sublist L s).length_le ?_
  unfold leave
  split_ifs with hten
  · exact kept_ten h.fits hten _
  · have hle := hs.le
    exact kept_map h.fits (fun r hr => reads_lt_ten (h.fits r hr) (by omega)) _

/-- What is written in a field of ten bytes without NUL. -/
theorem Held.fullName (h : Held L array) (hs : Field 10 s) :
    FullName array s ↔ s.length = 10 ∧ ∃ r ∈ L, r.name = s := by
  rw [FullName, h.array]
  refine and_congr_right fun hten => ?_
  constructor
  · rintro ⟨a, ha, rfl⟩
    rcases List.mem_append.mp ha with ha | ha
    · rcases List.mem_map.mp ha with ⟨r, hr, rfl⟩
      refine ⟨r, hr, ?_⟩
      have hread := cstr_takeD (h.fits r hr).name.noNul 10
      rw [List.take_of_length_le (h.fits r hr).name.le] at hread
      exact hread.symm.trans (cstr_of_noNul hs.noNul)
    · obtain rfl := (List.mem_replicate.mp ha).2
      exact absurd hs.noNul (by decide)
  · rintro ⟨r, hr, rfl⟩
    refine ⟨cells r, List.mem_append_left _ (List.mem_map_of_mem hr), ?_⟩
    rw [cells, List.takeD_eq_take 0 (Nat.le_of_eq hten.symm),
      List.take_of_length_le (Nat.le_of_eq hten)]

/-- A search is right exactly when the name is not a full one. -/
theorem Held.searchesByName_iff (h : Held L array) (hs : Field 10 s) :
    SearchesByName array L s ↔ ¬ FullName array s := by
  rw [h.fullName hs]
  constructor
  · rintro ⟨habsent, -⟩ ⟨hten, r, hr, hname⟩
    rw [h.search, firstHit_ten h.fits hten] at habsent
    exact habsent.mp rfl r hr hname
  · intro hshort
    unfold SearchesByName
    rw [h.search]
    by_cases hten : s.length = 10
    · -- nobody has the name, and it is read nowhere
      have hall : ∀ r ∈ L, r.name ≠ s := fun r hr hname => hshort ⟨hten, r, hr, hname⟩
      rw [firstHit_ten h.fits hten]
      refine ⟨⟨fun _ => hall, fun _ => rfl⟩, ?_⟩
      rintro L₁ r L₂ rfl - hname
      exact absurd hname (hall r (by simp))
    · have hle := hs.le
      have hreads : ∀ r ∈ L, Reads s r := fun r hr => reads_lt_ten (h.fits r hr) (by omega)
      rw [firstHit_map hreads]
      refine ⟨firstMark_absent L s 0, ?_⟩
      rintro L₁ r L₂ rfl h₁ hname
      rw [firstMark_found h₁ hname, Nat.zero_add]

/-- So is a delete. -/
theorem Held.deletesByName_iff (h : Held L array) (hs : Field 10 s) :
    DeletesByName array L s ↔ ¬ FullName array s := by
  rcases h.delete hs with ⟨answer, rest, hdel⟩
  rw [h.fullName hs]
  constructor
  · rintro ⟨answer', rest', hdel'⟩ ⟨hten, r, hr, hname⟩
    -- as many records are left as there were, and one of them should be gone
    have heq : table (leave L s) = table (remove L s) :=
      (Prod.mk.inj (Prod.mk.inj (Option.some.inj (hdel.symm.trans hdel'))).2).1
    have hcount : 0 < L.countP fun r => r.name = s :=
      List.countP_pos_iff.mpr ⟨r, hr, by simpa using hname⟩
    have hlength := length_remove L s
    have hfree := findFreeIndex_table (fun x hx => h.fits x (mem_remove.mp hx).1)
      ((length_remove_le L s).trans h.le_maxLen)
    rw [← heq, leave, if_pos hten, findFreeIndex_table h.fits h.le_maxLen] at hfree
    omega
  · intro hshort
    refine ⟨answer, rest, ?_⟩
    rw [hdel, leave]
    split_ifs with hten
    · rw [remove_of_absent fun r hr hname => hshort ⟨hten, r, hr, hname⟩]
    · rfl

/-! ## Runs -/

/-- The records after a call. -/
def Call.leaves (c : Call) (L : List Record) : List Record :=
  match c.op with
  | .insert r => L ++ [r]
  | .delete s => leave L s
  | .search _ => L

/-- Every admissible call keeps what the array holds. -/
theorem Held.step (h : Held L array) (hok : Admissible array c) (hs : Table.step array c = some array') :
    Held (c.leaves L) array' := by
  rcases c with ⟨op, stale⟩
  cases op with
  | insert r =>
    rcases hok with ⟨hfits, hroom⟩
    have hlen := h.le_maxLen
    rw [h.array, findFreeIndex_table h.fits hlen] at hroom
    -- an insert that is admissible finds a free record
    have hlt : L.length < maxLen := hroom.trans (by decide)
    have hins := insertAbonent_table h.fits (by decide) hlt hfits stale
    refine ⟨?_, ?_, ?_⟩
    · obtain rfl := Option.some.inj hs
      rw [h.array]
      exact hins
    · intro x hx
      rcases List.mem_append.mp hx with hx | hx
      · exact h.fits x hx
      · obtain rfl := List.mem_singleton.mp hx
        exact hfits
    · rw [Call.leaves, List.length_append, List.length_singleton]
      omega
  | delete s =>
    rcases h.delete hok with ⟨answer, rest, hdel⟩
    have hsub := leave_sublist L s
    refine ⟨?_, fun x hx => h.fits x (hsub.subset hx), hsub.length_le.trans h.room⟩
    unfold Table.step perform at hs
    rw [Op.input, hdel] at hs
    exact (Option.some.inj hs).symm
  | search s =>
    obtain rfl := Option.some.inj hs
    exact h

/-- What is held was entered. -/
theorem leaves_sublist (c : Call) {K : List Record} (hsub : L.Sublist K) :
    (c.leaves L).Sublist (K ++ inserted [c]) := by
  rcases c with ⟨op, stale⟩
  cases op with
  | insert r => exact hsub.append (List.Sublist.refl [r])
  | delete s => exact ((leave_sublist L s).trans hsub).trans (List.sublist_append_left _ _)
  | search s => exact hsub.trans (List.sublist_append_left _ _)

theorem held_of_run {cs : List Call} (hrun : Machine.Run step Admissible init cs array) :
    ∃ L, Held L array ∧ L.Sublist (inserted cs) := by
  induction hrun with
  | init => exact ⟨[], Held.init, List.Sublist.refl []⟩
  | @step cs array c array' _ hok hs ih =>
    rcases ih with ⟨L, hheld, hsub⟩
    refine ⟨c.leaves L, hheld.step hok hs, ?_⟩
    rw [inserted, List.flatMap_append]
    exact leaves_sublist c hsub

/-- Without deletes of full names the array holds what a list of records would. -/
theorem held_of_short {cs : List Call}
    (hrun : Machine.Run step (fun array c => Admissible array c ∧ Short array c) init cs array) :
    Held (cs.foldl (fun L c => c.op.apply L) []) array := by
  induction hrun with
  | init => exact Held.init
  | @step cs array c array' _ hok hs ih =>
    have hstep := ih.step hok.1 hs
    rw [List.foldl_append, List.foldl_cons, List.foldl_nil]
    generalize cs.foldl (fun L c => c.op.apply L) [] = L at ih hstep
    have hsame : c.leaves L = c.op.apply L := by
      rcases c with ⟨op, stale⟩
      cases op with
      | insert r => rfl
      | delete s =>
        show leave L s = remove L s
        rw [leave]
        split_ifs with hten
        · have hfull := hok.2 s rfl
          rw [ih.fullName hok.1] at hfull
          exact (remove_of_absent fun r hr hname => hfull ⟨hten, r, hr, hname⟩).symm
        · rfl
      | search s => rfl
    rw [← hsame]
    exact hstep

/-- After every sequence of calls the array holds records that were entered, and
a search of a name and a delete of it go by the entered names exactly when it is
not a full name of a record that is held. As long as no full name is deleted,
the records are those of a list with the same operations. -/
theorem by_entered_name_iff (cs : List Call) (array : List Abonent)
    (hrun : Machine.Run step Admissible init cs array) :
    (∃ L, array = table L ∧ L.Sublist (inserted cs) ∧ ∀ s, Field 10 s →
      (SearchesByName array L s ↔ ¬ FullName array s) ∧
      (DeletesByName array L s ↔ ¬ FullName array s)) ∧
    (Machine.Run step (fun array c => Admissible array c ∧ Short array c) init cs array →
      array = table (cs.foldl (fun L c => c.op.apply L) [])) := by
  refine ⟨?_, fun hshort => (held_of_short hshort).array⟩
  rcases held_of_run hrun with ⟨L, hheld, hsub⟩
  exact ⟨L, hheld.array, hsub, fun s hs =>
    ⟨hheld.searchesByName_iff hs, hheld.deletesByName_iff hs⟩⟩

/-- A subscriber whose name has ten bytes. -/
def fullRecord : Record :=
  ⟨ascii ['A', 'B', 'C', 'D', 'E', 'F', 'G', 'H', 'I', 'J'], ascii ['K'], ascii ['1']⟩

/-- A subscriber whose name has nine. -/
def shortRecord : Record :=
  ⟨ascii ['A', 'B', 'C', 'D', 'E', 'F', 'G', 'H', 'I'], ascii ['K'], ascii ['1']⟩

theorem by_entered_name_short : ∃ array,
    Machine.Run step Admissible init
      [⟨.insert fullRecord, ⟨[], [], []⟩⟩, ⟨.insert shortRecord, ⟨[], [], []⟩⟩] array ∧
    ¬ FullName array shortRecord.name ∧
    ∃ L, array = table L ∧ SearchesByName array L shortRecord.name ∧
      DeletesByName array L shortRecord.name := by
  have hrun : (Machine.exec (Machine.guarded step Admissible) init
      [⟨.insert fullRecord, ⟨[], [], []⟩⟩, ⟨.insert shortRecord, ⟨[], [], []⟩⟩]).map
      (fun array => decide (FullName array shortRecord.name)) = some false := by
    decide +kernel
  rcases Machine.Run.exists_of_exec hrun with ⟨array, hrun, hfull⟩
  have hshort := of_decide_eq_false hfull
  rcases by_entered_name_iff _ _ hrun with ⟨⟨L, harray, -, hnames⟩, -⟩
  rcases hnames shortRecord.name (by decide) with ⟨hsearch, hdelete⟩
  exact ⟨array, hrun, hshort, L, harray, hsearch.mpr hshort, hdelete.mpr hshort⟩

/-- The subscriber with the full name is held and not found. -/
theorem full_name_not_found : ∃ array,
    Machine.Run step Admissible init [⟨.insert fullRecord, ⟨[], [], []⟩⟩] array ∧
    array = table [fullRecord] ∧ search array fullRecord.name = -1 ∧
      ¬ SearchesByName array [fullRecord] fullRecord.name := by
  have hrun : (Machine.exec (Machine.guarded step Admissible) init
      [⟨.insert fullRecord, ⟨[], [], []⟩⟩]).map
      (fun array => (array, search array fullRecord.name)) = some (table [fullRecord], -1) := by
    decide +kernel
  rcases Machine.Run.exists_of_exec hrun with ⟨array, hrun, hf⟩
  rcases Prod.mk.inj hf with ⟨rfl, hsearch⟩
  refine ⟨_, hrun, rfl, hsearch, ?_⟩
  intro h
  exact h.1.mp hsearch fullRecord (by simp) rfl

end EmbeddedCourse.Directory.Table
