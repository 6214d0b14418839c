import EmbeddedCourse.Directory.Input

/-! # A directory as a list of records

What a subscriber directory is for, whatever it keeps its records in: new
records go to the end, a delete takes all records with the name out, a search
gives the first one with its number.
-/

namespace EmbeddedCourse.Directory

open CString

structure Record where
  name : Bytes
  secondName : Bytes
  tel : Bytes
deriving DecidableEq, Repr

/-- What a search prints: the number of a subscriber with the record, or that
there is none. -/
inductive Report where
  | found (number : ℕ) (record : Record)
  | absent
deriving DecidableEq, Repr

/-- The records that a delete leaves. -/
def remove (L : List Record) (s : Bytes) : List Record := L.filter fun r => r.name ≠ s

/-- The number that a search has found, the records counted from `index` on. -/
def reportFrom (index : ℕ) (s : Bytes) : List Record → Report
  | [] => .absent
  | r :: L => if r.name = s then .found index r else reportFrom (index + 1) s L

/-- What a search reports. -/
def report (L : List Record) (s : Bytes) : Report := reportFrom 1 s L

/-- The return code of an operation and, for a search, what it prints. -/
structure Answer where
  code : Int
  report : Option Report := none
deriving DecidableEq, Repr

/-- One operation with the lines that are typed at its prompts. -/
inductive Op where
  | insert (r : Record)
  | delete (s : Bytes)
  | search (s : Bytes)
deriving DecidableEq, Repr

/-- An insert makes a record more. -/
def Op.isInsert : Op → Bool
  | insert _ => true
  | _ => false

/-- The input of an operation. -/
def Op.input : Op → Bytes
  | insert r => r.name ++ 10 :: (r.secondName ++ 10 :: (r.tel ++ [10]))
  | delete s | search s => s ++ [10]

/-- The operation on a list of records. -/
def Op.apply (L : List Record) : Op → List Record
  | insert r => L ++ [r]
  | delete s => remove L s
  | search _ => L

/-- What the directory answers to a search; nobody is asked for a name when it
is empty. -/
def Op.answer (L : List Record) : Op → Option Report
  | search s => if L = [] then none else some (report L s)
  | _ => none

/-- A field of a record: typed, not empty, and at most `n` bytes long. -/
structure Field (n : ℕ) (f : Bytes) : Prop extends Typed f where
  pos : 0 < f.length
  le : f.length ≤ n

instance (n : ℕ) (f : Bytes) : Decidable (Field n f) :=
  decidable_of_iff (Typed f ∧ 0 < f.length ∧ f.length ≤ n)
    ⟨fun h => ⟨h.1, h.2.1, h.2.2⟩, fun h => ⟨h.toTyped, h.pos, h.le⟩⟩

/-- A record of such fields. -/
structure Record.Fits (n : ℕ) (r : Record) : Prop where
  name : Field n r.name
  secondName : Field n r.secondName
  tel : Field n r.tel

instance (n : ℕ) (r : Record) : Decidable (r.Fits n) :=
  decidable_of_iff (Field n r.name ∧ Field n r.secondName ∧ Field n r.tel)
    ⟨fun h => ⟨h.1, h.2.1, h.2.2⟩, fun h => ⟨h.name, h.secondName, h.tel⟩⟩

/-- An operation with such fields, and with names that fit the buffer of 100 bytes. -/
def Op.Fits (n : ℕ) : Op → Prop
  | insert r => r.Fits n
  | delete s | search s => Typed s ∧ s.length ≤ 98

instance (n : ℕ) : ∀ op : Op, Decidable (op.Fits n)
  | .insert r => inferInstanceAs (Decidable (r.Fits n))
  | .delete s | .search s => inferInstanceAs (Decidable (Typed s ∧ s.length ≤ 98))

theorem mem_remove {L : List Record} {s : Bytes} {r : Record} :
    r ∈ remove L s ↔ r ∈ L ∧ r.name ≠ s := by
  simp [remove]

theorem remove_cons (r : Record) (L : List Record) (s : Bytes) :
    remove (r :: L) s = if r.name = s then remove L s else r :: remove L s := by
  by_cases h : r.name = s <;> simp [remove, h]

theorem length_remove_le (L : List Record) (s : Bytes) : (remove L s).length ≤ L.length :=
  List.length_filter_le _ _

/-- A delete of a name that nobody has changes nothing. -/
theorem remove_of_absent {L : List Record} {s : Bytes} (h : ∀ r ∈ L, r.name ≠ s) :
    remove L s = L := by
  rw [remove, List.filter_eq_self]
  intro r hr
  simpa using h r hr

/-- A delete takes out as many records as have the name. -/
theorem length_remove (L : List Record) (s : Bytes) :
    (remove L s).length + L.countP (fun r => r.name = s) = L.length := by
  induction L with
  | nil => rfl
  | cons r L ih =>
    rw [remove_cons]
    by_cases hs : r.name = s
    · rw [if_pos hs, List.countP_cons_of_pos (by simpa using hs), List.length_cons]
      omega
    · rw [if_neg hs, List.countP_cons_of_neg (by simpa using hs), List.length_cons,
        List.length_cons]
      omega

/-! ## What a search reports -/

/-- The first record with the name is reported with its number. -/
theorem reportFrom_found {L₁ : List Record} {r : Record} {s : Bytes}
    (h₁ : ∀ x ∈ L₁, x.name ≠ s) (hr : r.name = s) (L₂ : List Record) (index : ℕ) :
    reportFrom index s (L₁ ++ r :: L₂) = .found (index + L₁.length) r := by
  induction L₁ generalizing index with
  | nil => simp [reportFrom, hr]
  | cons x L₁ ih =>
    have hx := h₁ x (by simp)
    rw [List.cons_append, reportFrom, if_neg hx, ih (fun y hy => h₁ y (List.mem_cons_of_mem x hy)),
      List.length_cons]
    congr 1
    omega

/-- A search reports that there is none exactly when nobody has the name. -/
theorem reportFrom_absent (L : List Record) (s : Bytes) (index : ℕ) :
    reportFrom index s L = .absent ↔ ∀ r ∈ L, r.name ≠ s := by
  induction L generalizing index with
  | nil => simp [reportFrom]
  | cons r L ih =>
    rw [reportFrom]
    by_cases hs : r.name = s
    · simp [hs]
    · rw [if_neg hs, ih]
      simp [hs]

end EmbeddedCourse.Directory
