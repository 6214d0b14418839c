import EmbeddedCourse.Directory.Records

/-! # The array directory: `Subscriber_directory/lib/lib.c`

An array of 100 records with three fields of ten bytes. A record is in use when
none of its fields starts with NUL, the records in use stand in front, and
there is no counter.

A read behind the array, or behind the last field of the array, yields zero
bytes; a write there is dropped.
-/

namespace EmbeddedCourse.Directory.Table

open CString

/-- `struct abonent`. -/
structure Abonent where
  name : Bytes
  secondName : Bytes
  tel : Bytes
deriving DecidableEq, Repr

/-- `MAX_LEN`. -/
def maxLen : ℕ := 100

/-- A record of zero bytes. -/
def zero : Abonent := ⟨List.replicate 10 0, List.replicate 10 0, List.replicate 10 0⟩

/-- `array[i]`. -/
def get (array : List Abonent) (i : ℕ) : Abonent := array.getD i zero

/-- The fields of all records, one after the other as they stand in memory. -/
def memory (array : List Abonent) : Bytes :=
  array.flatMap fun a => a.name ++ a.secondName ++ a.tel

/-- The C string at `array[i].name`; a full field runs on into the next one. -/
def nameAt (array : List Abonent) (i : ℕ) : Bytes := cstr (memory (array.drop i))

/-- The C string at `array[i].second_name`. -/
def secondNameAt (array : List Abonent) (i : ℕ) : Bytes := cstr ((memory (array.drop i)).drop 10)

/-- The C string at `array[i].tel`. -/
def telAt (array : List Abonent) (i : ℕ) : Bytes := cstr ((memory (array.drop i)).drop 20)

/-- What is printed of `array[i]`. -/
def shown (array : List Abonent) (i : ℕ) : Record :=
  ⟨nameAt array i, secondNameAt array i, telAt array i⟩

/-- No field starts with NUL. -/
def Abonent.Occupied (a : Abonent) : Prop :=
  a.name.getD 0 0 ≠ 0 ∧ a.secondName.getD 0 0 ≠ 0 ∧ a.tel.getD 0 0 ≠ 0

/-- Every field starts with NUL. -/
def Abonent.Vacant (a : Abonent) : Prop :=
  a.name.getD 0 0 = 0 ∧ a.secondName.getD 0 0 = 0 ∧ a.tel.getD 0 0 = 0

instance (a : Abonent) : Decidable a.Occupied := inferInstanceAs (Decidable (_ ∧ _))

instance (a : Abonent) : Decidable a.Vacant := inferInstanceAs (Decidable (_ ∧ _))

/-- The loop of `find_free_index`, at the record `index`. -/
def scan : List Abonent → ℕ → ℕ
  | [], index => index
  | a :: array, index => if a.Occupied ∧ index < 100 then scan array (index + 1) else index

/-- `find_free_index`. -/
def findFreeIndex (array : List Abonent) : ℕ := scan array 0

/-- `insert`. -/
def insert (a : Abonent) (name secondName tel : Bytes) : Abonent :=
  { name := strncpy a.name name 10
    secondName := strncpy a.secondName secondName 10
    tel := strncpy a.tel tel 10 }

/-- `insert_abonent`. -/
def insertAbonent (stale : Record) (array : List Abonent) (stdin : Bytes) :
    Answer × List Abonent × Bytes :=
  let index := findFreeIndex array
  -- never taken: the index is at most 100, and 100 is behind the array
  if 100 < index then ({ code := 1 }, array, stdin)
  else
    let (name, stdin) := prompt stale.name stdin
    let (secondName, stdin) := prompt stale.secondName stdin
    let (tel, stdin) := prompt stale.tel stdin
    ({ code := 0 }, array.set index (insert (get array index) name secondName tel), stdin)

/-- The loop of `search`, at `i` with `n` records to go. -/
def searchLoop (array : List Abonent) (name : Bytes) : ℕ → ℕ → Int
  | _, 0 => -1
  | i, n + 1 => if nameAt array i = name then i else searchLoop array name (i + 1) n

/-- `search`. -/
def search (array : List Abonent) (name : Bytes) : Int :=
  searchLoop array name 0 (findFreeIndex array)

/-- `search_abonent`. -/
def searchAbonent (array : List Abonent) (stdin : Bytes) : Answer × Bytes :=
  if findFreeIndex array = 0 then ({ code := -2 }, stdin)
  else
    let (name, stdin) := prompt [] stdin
    let i := search array name
    ({ code := 0
       report := some (if i = -1 then .absent else .found (i.toNat + 1) (shown array i.toNat)) },
      stdin)

/-- What `print_all_abonents` prints. -/
def listing (array : List Abonent) : List Record :=
  (List.range (findFreeIndex array)).map (shown array)

/-- The variables of the loop in `delete_abonent`. -/
structure Marks where
  array : List Abonent
  delI : Int
  countDel : ℕ
deriving DecidableEq, Repr

/-- A pass of that loop. -/
def mark (name : Bytes) (m : Marks) (i : ℕ) : Marks :=
  if nameAt m.array i = name then
    { array := m.array.set i (insert (get m.array i) [] [] [])
      -- the first match is where `delete_` starts
      delI := if m.delI = -1 then i else m.delI
      countDel := m.countDel + 1 }
  else m

/-- The loop of `delete_`; `none` when `fuel` passes were not enough. -/
def compact (index : ℕ) : ℕ → ℕ → ℕ → List Abonent → Option (List Abonent)
  | 0, _, r, array => if r < index then none else some array
  | fuel + 1, l, r, array =>
    if r < index then
      if (get array l).Vacant then
        if (get array r).Occupied then
          -- the record at `r` moves to `l`, its old place is cleared
          let b := get array r
          compact index fuel (l + 1) (r + 1)
            ((array.set l (insert (get array l) b.name b.secondName b.tel)).set r zero)
        else compact index fuel l (r + 1) array
      else compact index fuel (l + 1) r array
    else some array

/-- `delete_`. -/
def delete_ (array : List Abonent) (delI index : ℕ) : Option (List Abonent) :=
  compact index (index + array.length) delI (delI + 1) array

/-- `delete_abonent`. -/
def deleteAbonent (array : List Abonent) (stdin : Bytes) : Option (Answer × List Abonent × Bytes) :=
  if findFreeIndex array = 0 then some ({ code := -2 }, array, stdin)
  else
    let (name, stdin) := prompt [] stdin
    let index := findFreeIndex array
    let m := (List.range index).foldl (mark name) ⟨array, -1, 0⟩
    if 0 < m.countDel then
      (delete_ m.array m.delI.toNat index).map fun array => ({ code := 0 }, array, stdin)
    else some ({ code := 0 }, m.array, stdin)

/-- The directory at the start of `main`. -/
def init : List Abonent := List.replicate maxLen zero

/-- An operation of the menu with its input. -/
def perform (stale : Record) (array : List Abonent) (op : Op) : Option (Answer × List Abonent) :=
  match op with
  | .insert _ =>
    let (answer, array, _) := insertAbonent stale array op.input
    some (answer, array)
  | .delete _ => (deleteAbonent array op.input).map fun (answer, array, _) => (answer, array)
  | .search _ => some ((searchAbonent array op.input).1, array)

end EmbeddedCourse.Directory.Table
