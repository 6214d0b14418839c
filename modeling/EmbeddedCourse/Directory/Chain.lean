import EmbeddedCourse.Directory.Records
import Mathlib.Logic.Function.Basic

/-! # The linked directory: `Subscriber_directory_v.2.0/lib/lib.c`

A doubly linked list on the heap with a counter. The heap maps the addresses of
the nodes that are live to their contents. An access through NULL or to a node
that is not live has no result, and neither has a loop that does not end within
`fuel` passes. `malloc` succeeds; the address it returns is a parameter.
-/

namespace EmbeddedCourse.Directory.Chain

open CString

abbrev Addr := ℕ

/-- `struct list_node`, with the strings that its first three fields point to. -/
structure Node where
  name : Bytes
  secondName : Bytes
  tel : Bytes
  next : Option Addr
  pred : Option Addr
deriving DecidableEq, Repr

/-- The live nodes. -/
abbrev Heap := Addr → Option Node

/-- `Abonent` with the heap. -/
structure Abonent where
  heap : Heap
  node : Option Addr
  size : Int

/-- `*p`. -/
def deref (h : Heap) (p : Option Addr) : Option Node := p.bind h

/-- An assignment to fields of `*p`. -/
def assign (h : Heap) (p : Option Addr) (f : Node → Node) : Option Heap :=
  p.bind fun a => (h a).map fun c => Function.update h a (some (f c))

/-- `free(p)`. -/
def release (h : Heap) : Option Addr → Option Heap
  | none => some h
  | some a => (h a).map fun _ => Function.update h a none

/-- `insert`, with the new value of `*current_node`. -/
def insert (h : Heap) (currentNode : Option Addr) (new : Addr) (name secondName tel : Bytes) :
    Option (Heap × Option Addr) :=
  match currentNode with
  | none => some (Function.update h new (some ⟨name, secondName, tel, none, none⟩), some new)
  | some a =>
    (assign (Function.update h new (some ⟨name, secondName, tel, none, some a⟩)) (some a)
      fun c => { c with next := some new }).map fun h => (h, some a)

/-- The loop of `insert_abonent` to the last node. -/
def lastNode (h : Heap) : ℕ → Option Addr → Option (Option Addr)
  | 0, _ => none
  | fuel + 1, temp =>
    (deref h temp).bind fun c => if c.next = none then some temp else lastNode h fuel c.next

/-- `insert_abonent`. -/
def insertAbonent (fuel : ℕ) (new : Addr) (stale : Record) (array : Abonent) (stdin : Bytes) :
    Option (Answer × Abonent × Bytes) :=
  if 100 < array.size then some ({ code := 1 }, array, stdin)
  else
    let (name, stdin) := myGetline stale.name stdin
    let (secondName, stdin) := myGetline stale.secondName stdin
    let (tel, stdin) := myGetline stale.tel stdin
    if array.node = none then
      (insert array.heap none new name secondName tel).map fun (h, node) =>
        ({ code := 0 }, ⟨h, node, array.size + 1⟩, stdin)
    else
      (lastNode array.heap fuel array.node).bind fun temp =>
        (insert array.heap temp new name secondName tel).map fun (h, _) =>
          ({ code := 0 }, ⟨h, array.node, array.size + 1⟩, stdin)

/-- The loop of `search` and `search_abonent`: where it stops, and the index. -/
def searchLoop (h : Heap) (name : Bytes) : ℕ → Option Addr → ℕ → Option (Option Addr × ℕ)
  | 0, _, _ => none
  | _ + 1, none, index => some (none, index)
  | fuel + 1, some a, index =>
    (h a).bind fun c =>
      if c.name = name then some (some a, index) else searchLoop h name fuel c.next (index + 1)

/-- `search`. -/
def search (fuel : ℕ) (h : Heap) (currentNode : Option Addr) (name : Bytes) : Option ℕ :=
  (searchLoop h name fuel currentNode 1).map Prod.snd

/-- `search_abonent`. -/
def searchAbonent (fuel : ℕ) (stale : Bytes) (array : Abonent) (stdin : Bytes) :
    Option (Answer × Bytes) :=
  if array.size = 0 then some ({ code := -2 }, stdin)
  else
    let (name, stdin) := myGetline stale stdin
    (searchLoop array.heap name fuel array.node 1).bind fun (currentNode, index) =>
      if currentNode = none then some ({ code := 0, report := some .absent }, stdin)
      else
        (deref array.heap currentNode).map fun c =>
          ({ code := 0, report := some (.found index ⟨c.name, c.secondName, c.tel⟩) }, stdin)

/-- What `print_all_abonents` prints. -/
def listing (h : Heap) : ℕ → Option Addr → Option (List Record)
  | 0, _ => none
  | _ + 1, none => some []
  | fuel + 1, some a =>
    (h a).bind fun c =>
      (listing h fuel c.next).map fun records => ⟨c.name, c.secondName, c.tel⟩ :: records

/-- `delete_node`: the node to go on with, the heap, the new value of `*array_node`. -/
def deleteNode (h : Heap) (currentNode arrayNode : Option Addr) :
    Option (Option Addr × Heap × Option Addr) :=
  (deref h currentNode).bind fun c =>
    match c.next, c.pred with
    -- the only node
    | none, none => (release h currentNode).map fun h => (none, h, none)
    -- the last one
    | none, some pred =>
      (release h currentNode).bind fun h =>
        (assign h (some pred) fun c => { c with next := none }).map fun h => (none, h, arrayNode)
    -- the first one, reached for `free` through its successor
    | some next, none =>
      (h next).bind fun n =>
        (release h n.pred).bind fun h =>
          (assign h (some next) fun c => { c with pred := none }).map fun h =>
            (some next, h, some next)
    -- one between two others
    | some next, some pred =>
      (h next).bind fun n =>
        (release h n.pred).bind fun h =>
          (assign h (some pred) fun c => { c with next := some next }).bind fun h =>
            (assign h (some next) fun c => { c with pred := some pred }).map fun h =>
              (some next, h, arrayNode)

/-- The loop of `delete_abonent`. -/
def deleteLoop (name : Bytes) : ℕ → Option Addr → Abonent → Option Abonent
  | 0, _, _ => none
  | _ + 1, none, array => some array
  | fuel + 1, some a, array =>
    (array.heap a).bind fun c =>
      if c.name = name then
        (deleteNode array.heap (some a) array.node).bind fun (currentNode, h, node) =>
          deleteLoop name fuel currentNode ⟨h, node, array.size - 1⟩
      else deleteLoop name fuel c.next array

/-- `delete_abonent`. -/
def deleteAbonent (fuel : ℕ) (stale : Bytes) (array : Abonent) (stdin : Bytes) :
    Option (Answer × Abonent × Bytes) :=
  if array.size = 0 then some ({ code := -2 }, array, stdin)
  else
    let (name, stdin) := myGetline stale stdin
    (search fuel array.heap array.node name).bind fun index =>
      -- the search ends at `size + 1` when nobody has the name
      if array.size < index then some ({ code := -3 }, array, stdin)
      else (deleteLoop name fuel array.node array).map fun array => ({ code := 0 }, array, stdin)

/-- The directory at the start of `main`. -/
def init : Abonent := ⟨fun _ => none, none, 0⟩

/-- An operation of the menu with its input. -/
def perform (fuel : ℕ) (new : Addr) (stale : Record) (array : Abonent) (op : Op) :
    Option (Answer × Abonent) :=
  match op with
  | .insert _ =>
    (insertAbonent fuel new stale array op.input).map fun (answer, array, _) => (answer, array)
  | .delete _ =>
    (deleteAbonent fuel stale.name array op.input).map fun (answer, array, _) => (answer, array)
  | .search _ =>
    (searchAbonent fuel stale.name array op.input).map fun (answer, _) => (answer, array)

end EmbeddedCourse.Directory.Chain
