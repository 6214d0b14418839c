import EmbeddedCourse.Directory.ChainRefines
import EmbeddedCourse.Lib.Run

/-! # The menu of the linked directory

The loop of `main` in `Subscriber_directory_v.2.0`: items of the menu in any
order, each with any bytes on the standard input. Two results about every state
that is reached: the nodes are well formed and the next operation returns, so
none follows a link to a node that is not live (`menu_wellFormed`), and the
operations are those of a list of records (`menu_refines`).
-/

namespace EmbeddedCourse.Directory.Chain

open CString DLinked

/-- `print_all_abonents`: the return code, and what is printed. -/
def printAllAbonents (fuel : ℕ) (array : Abonent) : Option (Int × List Record) :=
  if array.size = 0 then some (-2, [])
  else (listing array.heap fuel array.node).map fun records => (0, records)

/-- The items of the menu. -/
inductive Item where
  | insert
  | delete
  | search
  | print
deriving DecidableEq, Repr

/-- An item that is chosen, with what stands on the input, what the buffers hold
when nothing can be read, and where `malloc` puts a new node. -/
structure Request where
  item : Item
  stdin : Bytes
  stale : Record
  new : Addr
deriving DecidableEq, Repr

/-- A pass of the loop in `main`. -/
def serve (fuel : ℕ) (array : Abonent) (q : Request) : Option Abonent :=
  match q.item with
  | .insert => (insertAbonent fuel q.new q.stale array q.stdin).map fun (_, array, _) => array
  | .delete => (deleteAbonent fuel q.stale.name array q.stdin).map fun (_, array, _) => array
  | .search => (searchAbonent fuel q.stale.name array q.stdin).map fun _ => array
  | .print => (printAllAbonents fuel array).map fun _ => array

/-- `malloc` returns no address that is in use. -/
def Admissible (array : Abonent) (q : Request) : Prop :=
  q.item = .insert → array.heap q.new = none

instance (array : Abonent) (q : Request) : Decidable (Admissible array q) :=
  inferInstanceAs (Decidable (_ → _))

/-! ## What is well formed -/

/-- Following `next` from a link visits the nodes and ends in NULL. -/
inductive Path (h : Heap) : Option Addr → List Addr → Prop where
  | nil : Path h none []
  | cons {a : Addr} {c : Node} {as : List Addr} :
      h a = some c → Path h c.next as → Path h (some a) (a :: as)

/-- The nodes are visited one after the other, each once, link back to the node
before, and are counted. -/
structure WellFormed (array : Abonent) (visited : List Addr) : Prop where
  path : Path array.heap array.node visited
  nodup : visited.Nodup
  pred : ∀ as a bs, visited = as ++ a :: bs →
    ∃ c, array.heap a = some c ∧ c.pred = as.getLast?
  size : array.size = visited.length

variable {h : Heap} {array array' : Abonent} {xs l r : List (Addr × Record)} {fuel : ℕ}

theorem path_of_linked (hl : Linked links h (l ++ r)) : Path h (first r) (r.map Prod.fst) := by
  induction r generalizing l with
  | nil => exact .nil
  | cons p r ih =>
    rcases node_at hl with ⟨c, hc, -, -, hnext⟩
    have htail := ih (linked_concat hl)
    rw [← hnext] at htail
    exact .cons hc htail

theorem last_eq_getLast (l : List (Addr × Record)) : last l = (l.map Prod.fst).getLast? := by
  rw [last, List.getLast?_map]

theorem Holds.wellFormed (ha : Holds array xs) : WellFormed array (xs.map Prod.fst) where
  path := by
    rw [ha.node]
    exact path_of_linked (l := []) ha.linked
  nodup := ha.linked.nodup
  pred := by
    intro as a bs hsplit
    rcases List.map_eq_append_iff.mp hsplit with ⟨l, m, rfl, rfl, hm⟩
    rcases List.map_eq_cons_iff.mp hm with ⟨p, r, rfl, rfl, -⟩
    rcases node_at ha.linked with ⟨c, hc, -, hpred, -⟩
    exact ⟨c, hc, hpred.trans (last_eq_getLast l)⟩
  size := by rw [ha.size, List.length_map]

/-! ## Every request is served -/

theorem printAllAbonents_holds (ha : Holds array xs) (hfuel : xs.length < fuel) :
    ∃ out, printAllAbonents fuel array = some out := by
  unfold printAllAbonents
  by_cases hsize : array.size = 0
  · exact ⟨_, if_pos hsize⟩
  · rw [if_neg hsize, ha.node, listing_eq (l := []) ha.linked hfuel]
    exact ⟨_, rfl⟩

/-- A request has a result, which is a chain again. It is longer only after an
insert into one of no more than 100 nodes. -/
theorem serve_holds (ha : Holds array xs) (hfuel : xs.length < fuel) {q : Request}
    (hok : Admissible array q) :
    ∃ array' xs', serve fuel array q = some array' ∧ Holds array' xs' ∧
      (xs'.length ≤ xs.length ∨
        q.item = .insert ∧ xs.length ≤ 100 ∧ xs'.length = xs.length + 1) := by
  rcases q with ⟨item, stdin, stale, new⟩
  cases item with
  | insert =>
    by_cases hroom : xs.length ≤ 100
    · rcases insertAbonent_entered ha hroom hfuel (hok rfl) stale stdin with ⟨array', hins, hholds⟩
      refine ⟨array', _, ?_, hholds, Or.inr ⟨rfl, hroom, ?_⟩⟩
      · simp only [serve, hins, Option.map_some]
      · rw [List.length_append, List.length_singleton]
    · -- at 101 nodes nothing is asked for
      have hins := insertAbonent_full ha (Nat.lt_of_not_le hroom) fuel new stale stdin
      refine ⟨array, xs, ?_, ha, Or.inl (Nat.le_refl _)⟩
      simp only [serve, hins, Option.map_some]
  | delete =>
    rcases deleteAbonent_cases ha hfuel stale.name stdin with
      ⟨-, hdel⟩ | ⟨-, -, hdel⟩ | ⟨-, -, array', hdel, hholds⟩
    · refine ⟨array, xs, ?_, ha, Or.inl (Nat.le_refl _)⟩
      simp only [serve, hdel, Option.map_some]
    · refine ⟨array, xs, ?_, ha, Or.inl (Nat.le_refl _)⟩
      simp only [serve, hdel, Option.map_some]
    · refine ⟨array', _, ?_, hholds, Or.inl (List.length_filter_le _ _)⟩
      simp only [serve, hdel, Option.map_some]
  | search =>
    rcases searchAbonent_cases ha hfuel stale.name stdin with ⟨-, hsearch⟩ | ⟨-, hsearch⟩
    · refine ⟨array, xs, ?_, ha, Or.inl (Nat.le_refl _)⟩
      simp only [serve, hsearch, Option.map_some]
    · refine ⟨array, xs, ?_, ha, Or.inl (Nat.le_refl _)⟩
      simp only [serve, hsearch, Option.map_some]
  | print =>
    rcases printAllAbonents_holds ha hfuel with ⟨out, hprint⟩
    refine ⟨array, xs, ?_, ha, Or.inl (Nat.le_refl _)⟩
    simp only [serve, hprint, Option.map_some]

/-- Every state that the menu reaches is a chain of no more than 101 nodes. -/
theorem menu_holds (hfuel : 102 ≤ fuel) {qs : List Request}
    (hrun : Machine.Run (serve fuel) Admissible init qs array) :
    ∃ xs, Holds array xs ∧ xs.length ≤ 101 := by
  apply hrun.invariant fun array => ∃ xs, Holds array xs ∧ xs.length ≤ 101
  · exact ⟨[], Holds.init, by decide⟩
  · rintro array q array' ⟨xs, ha, hlen⟩ hok hserve
    rcases serve_holds ha (Nat.lt_of_le_of_lt hlen hfuel) hok with ⟨array'', xs', hserve', ha', hlen'⟩
    obtain rfl : array'' = array' := Option.some.inj (hserve'.symm.trans hserve)
    exact ⟨xs', ha', by omega⟩

/-- In every state that the menu reaches the nodes are well formed, and every
operation returns: it follows no link through NULL or to a node that is not
live, and its loops end. -/
theorem menu_wellFormed (fuel : ℕ) (hfuel : 102 ≤ fuel) (qs : List Request) (array : Abonent)
    (hrun : Machine.Run (serve fuel) Admissible init qs array) :
    (∃ visited, WellFormed array visited) ∧
      ∀ q, Admissible array q → ∃ array', serve fuel array q = some array' := by
  rcases menu_holds hfuel hrun with ⟨xs, ha, hlen⟩
  refine ⟨⟨_, ha.wellFormed⟩, ?_⟩
  intro q hok
  rcases serve_holds ha (Nat.lt_of_le_of_lt hlen hfuel) hok with ⟨array', -, hserve, -⟩
  exact ⟨array', hserve⟩

/-- Three subscribers, two of one name next to each other, who are deleted, and
then the last one. -/
def someRequests : List Request :=
  let none : Record := ⟨[], [], []⟩
  let petr := ascii ['P', '\n', 'S', '\n', '2', '\n']
  let anton := ascii ['A', '\n', 'I', '\n', '1', '\n']
  [⟨.insert, anton, none, 1⟩, ⟨.insert, anton, none, 2⟩, ⟨.insert, petr, none, 3⟩,
    ⟨.delete, ascii ['A', '\n'], none, 4⟩, ⟨.print, [], none, 4⟩,
    ⟨.delete, ascii ['P', '\n'], none, 4⟩, ⟨.insert, anton, none, 1⟩]

theorem menu_wellFormed_some : ∃ array, Machine.Run (serve 102) Admissible init someRequests array ∧
    array.size = 1 ∧ (∃ visited, WellFormed array visited) ∧
      ∀ q, Admissible array q → ∃ array', serve 102 array q = some array' := by
  have hrun : (Machine.exec (Machine.guarded (serve 102) Admissible) init someRequests).map
      Abonent.size = some 1 := by
    decide +kernel
  rcases Machine.Run.exists_of_exec hrun with ⟨array, hrun, hsize⟩
  exact ⟨array, hrun, hsize, menu_wellFormed 102 (by decide) _ _ hrun⟩

/-! ## The operations are those of a list of records -/

/-- What every operation does to a directory with the records `L`. -/
structure Refines (fuel : ℕ) (array : Abonent) (L : List Record) : Prop where
  records : listing array.heap fuel array.node = some L
  insert : ∀ new stale stdin, array.heap new = none → ∃ answer array' rest,
    insertAbonent fuel new stale array stdin = some (answer, array', rest) ∧
      (answer.code = 0 →
        listing array'.heap fuel array'.node = some (L ++ [(entered stale stdin).1])) ∧
      (answer.code ≠ 0 → array' = array)
  delete : ∀ stale stdin, ∃ answer array' rest,
    deleteAbonent fuel stale array stdin = some (answer, array', rest) ∧
      (answer.code = -2 ↔ L = []) ∧
      (answer.code = -3 ↔ L ≠ [] ∧ ∀ r ∈ L, r.name ≠ (myGetline stale stdin).1) ∧
      (answer.code = -2 ∨ answer.code = -3 → array' = array) ∧
      (answer.code ≠ -2 → answer.code ≠ -3 → answer.code = 0 ∧
        listing array'.heap fuel array'.node = some (remove L (myGetline stale stdin).1) ∧
        array'.size = array.size - L.countP fun r => r.name = (myGetline stale stdin).1)
  search : L ≠ [] → ∀ stale stdin, ∃ rep rest,
    searchAbonent fuel stale array stdin = some ({ code := 0, report := some rep }, rest) ∧
      (rep = .absent ↔ ∀ r ∈ L, r.name ≠ (myGetline stale stdin).1) ∧
      ∀ L₁ r L₂, L = L₁ ++ r :: L₂ → (∀ x ∈ L₁, x.name ≠ (myGetline stale stdin).1) →
        r.name = (myGetline stale stdin).1 → rep = .found (L₁.length + 1) r

theorem Holds.listing (ha : Holds array xs) (hfuel : xs.length < fuel) :
    Chain.listing array.heap fuel array.node = some (xs.map Prod.snd) := by
  rw [ha.node, listing_eq (l := []) ha.linked hfuel]

theorem insert_refines (ha : Holds array xs) (hlen : xs.length ≤ 101) (hfuel : 102 ≤ fuel)
    {new : Addr} (hnew : array.heap new = none) (stale : Record) (stdin : Bytes) :
    ∃ answer array' rest, insertAbonent fuel new stale array stdin = some (answer, array', rest) ∧
      (answer.code = 0 → Chain.listing array'.heap fuel array'.node =
        some (xs.map Prod.snd ++ [(entered stale stdin).1])) ∧
      (answer.code ≠ 0 → array' = array) := by
  by_cases hroom : xs.length ≤ 100
  · obtain ⟨array', hins, hholds⟩ := insertAbonent_entered ha hroom
      (show xs.length < fuel by omega) hnew stale stdin
    have hlength : (xs ++ [(new, (entered stale stdin).1)]).length < fuel := by
      rw [List.length_append, List.length_singleton]
      omega
    refine ⟨_, array', _, hins, fun _ => ?_, fun hcode => absurd rfl hcode⟩
    rw [hholds.listing hlength, List.map_append]
    rfl
  · have hins := insertAbonent_full ha (Nat.lt_of_not_le hroom) fuel new stale stdin
    exact ⟨_, array, _, hins, fun hcode => absurd hcode (by decide), fun _ => rfl⟩

theorem delete_refines (ha : Holds array xs) (hfuel : xs.length < fuel) (stale stdin : Bytes) :
    ∃ answer array' rest, deleteAbonent fuel stale array stdin = some (answer, array', rest) ∧
      (answer.code = -2 ↔ xs.map Prod.snd = []) ∧
      (answer.code = -3 ↔ xs.map Prod.snd ≠ [] ∧
        ∀ r ∈ xs.map Prod.snd, r.name ≠ (myGetline stale stdin).1) ∧
      (answer.code = -2 ∨ answer.code = -3 → array' = array) ∧
      (answer.code ≠ -2 → answer.code ≠ -3 → answer.code = 0 ∧
        Chain.listing array'.heap fuel array'.node =
          some (remove (xs.map Prod.snd) (myGetline stale stdin).1) ∧
        array'.size = array.size -
          (xs.map Prod.snd).countP fun r => r.name = (myGetline stale stdin).1) := by
  rcases deleteAbonent_cases ha hfuel stale stdin with
    ⟨rfl, hdel⟩ | ⟨hnil, hall, hdel⟩ | ⟨hnil, hsome, array', hdel, hholds⟩
  · -- the directory is empty
    refine ⟨_, array, _, hdel, by simp, by simp, fun _ => rfl, ?_⟩
    intro hcode
    exact absurd rfl hcode
  · -- nobody has the name
    refine ⟨_, array, _, hdel, by simpa using hnil, ?_, fun _ => rfl, ?_⟩
    · simpa using ⟨hnil, fun r a hr => hall (a, r) hr⟩
    · intro _ hcode
      exact absurd rfl hcode
  · refine ⟨_, array', _, hdel, by simpa using hnil, ?_, by simp, fun _ _ => ⟨rfl, ?_, ?_⟩⟩
    · rcases hsome with ⟨p, hp, hname⟩
      constructor
      · intro hcode
        exact absurd hcode (by decide)
      · rintro ⟨-, hall⟩
        exact absurd hname (hall p.2 (List.mem_map_of_mem hp))
    · have hlength := List.length_filter_le (fun p => decide (p.2.name ≠ (myGetline stale stdin).1)) xs
      rw [hholds.listing (Nat.lt_of_le_of_lt hlength hfuel), map_removeFrom]
    · have hlength := length_remove (xs.map Prod.snd) (myGetline stale stdin).1
      rw [← map_removeFrom, List.length_map, List.length_map] at hlength
      have hsize := ha.size
      have hsize' := hholds.size
      omega

theorem search_refines (ha : Holds array xs) (hfuel : xs.length < fuel) (hnil : xs.map Prod.snd ≠ [])
    (stale stdin : Bytes) :
    ∃ rep rest, searchAbonent fuel stale array stdin =
        some ({ code := 0, report := some rep }, rest) ∧
      (rep = .absent ↔ ∀ r ∈ xs.map Prod.snd, r.name ≠ (myGetline stale stdin).1) ∧
      ∀ L₁ r L₂, xs.map Prod.snd = L₁ ++ r :: L₂ →
        (∀ x ∈ L₁, x.name ≠ (myGetline stale stdin).1) →
          r.name = (myGetline stale stdin).1 → rep = .found (L₁.length + 1) r := by
  rcases searchAbonent_cases ha hfuel stale stdin with ⟨rfl, -⟩ | ⟨-, hsearch⟩
  · exact absurd rfl hnil
  · refine ⟨_, _, hsearch, reportFrom_absent _ _ 1, ?_⟩
    intro L₁ r L₂ hsplit h₁ hr
    rw [hsplit, report, reportFrom_found h₁ hr, Nat.add_comm]

/-- Every directory that the menu reaches is a list of records, and the operations
are those of the list. -/
theorem menu_refines (fuel : ℕ) (hfuel : 102 ≤ fuel) (qs : List Request) (array : Abonent)
    (hrun : Machine.Run (serve fuel) Admissible init qs array) : ∃ L, Refines fuel array L := by
  rcases menu_holds hfuel hrun with ⟨xs, ha, hlen⟩
  have hfuel' : xs.length < fuel := by omega
  exact ⟨xs.map Prod.snd,
    { records := ha.listing hfuel'
      insert := fun new stale stdin hnew => insert_refines ha hlen hfuel hnew stale stdin
      delete := fun stale stdin => delete_refines ha hfuel' stale stdin
      search := fun hnil stale stdin => search_refines ha hfuel' hnil stale stdin }⟩

theorem menu_refines_some : ∃ array, Machine.Run (serve 102) Admissible init someRequests array ∧
    ∃ L, Refines 102 array L := by
  have hrun : (Machine.exec (Machine.guarded (serve 102) Admissible) init someRequests).map
      Abonent.size = some 1 := by
    decide +kernel
  rcases Machine.Run.exists_of_exec hrun with ⟨array, hrun, -⟩
  exact ⟨array, hrun, menu_refines 102 (by decide) _ _ hrun⟩

end EmbeddedCourse.Directory.Chain
