import EmbeddedCourse.Directory.Chain
import EmbeddedCourse.Lib.DLinked

/-! # The nodes hold a list of records

The nodes from `array->node` on are a doubly linked chain, as many as the
counter says (`Holds`), and every operation does to the records in them what
it should. In particular no operation follows a link to a node that is not live.
-/

namespace EmbeddedCourse.Directory.Chain

open CString DLinked

/-- The record in a node. -/
def Node.record (c : Node) : Record := ⟨c.name, c.secondName, c.tel⟩

/-- The links of the nodes. -/
def links : Links Node Addr Record where
  next := Node.next
  pred := Node.pred
  content := Node.record
  setNext := fun c v => { c with next := v }
  setPred := fun c v => { c with pred := v }
  next_setNext := fun _ _ => rfl
  pred_setNext := fun _ _ => rfl
  content_setNext := fun _ _ => rfl
  next_setPred := fun _ _ => rfl
  pred_setPred := fun _ _ => rfl
  content_setPred := fun _ _ => rfl

/-- The directory is the chain `xs` of addresses and records. -/
structure Holds (array : Abonent) (xs : List (Addr × Record)) : Prop where
  linked : Linked links array.heap xs
  node : array.node = first xs
  size : array.size = xs.length

theorem Holds.init : Holds Chain.init [] := ⟨Linked.nil, rfl, rfl⟩

variable {h : Heap} {xs l r : List (Addr × Record)} {p : Addr × Record} {array : Abonent}

/-! ## The loops that only read -/

/-- The node behind `l` in a chain. -/
theorem node_at (hl : Linked links h (l ++ p :: r)) :
    ∃ c, h p.1 = some c ∧ c.record = p.2 ∧ c.pred = last l ∧ c.next = first r := hl.at

theorem linked_concat (hl : Linked links h (l ++ p :: r)) : Linked links h ((l ++ [p]) ++ r) := by
  simpa using hl

/-- The loop of `insert_abonent` ends at the last node. -/
theorem lastNode_eq (hl : Linked links h (l ++ p :: r)) {fuel : ℕ} (hfuel : r.length < fuel) :
    lastNode h fuel (some p.1) = some (last (p :: r)) := by
  induction r generalizing l p fuel with
  | nil =>
    rcases Nat.exists_eq_add_one.mpr (Nat.zero_lt_of_lt hfuel) with ⟨fuel, rfl⟩
    rcases node_at hl with ⟨c, hc, -, -, hnext⟩
    simp [lastNode, deref, hc, hnext, last]
  | cons q r ih =>
    rcases Nat.exists_eq_add_one.mpr (Nat.zero_lt_of_lt hfuel) with ⟨fuel, rfl⟩
    rcases node_at hl with ⟨c, hc, -, -, hnext⟩
    rw [first_cons] at hnext
    have hih := ih (linked_concat hl) (show r.length < fuel by simpa using hfuel)
    have hlast : last (p :: q :: r) = last (q :: r) := by simp [last]
    rw [hlast, ← hih]
    simp [lastNode, deref, hc, hnext]

/-- Where the search loop stops. -/
def foundFrom (s : Bytes) (index : ℕ) : List (Addr × Record) → Option Addr × ℕ
  | [] => (none, index)
  | p :: r => if p.2.name = s then (some p.1, index) else foundFrom s (index + 1) r

/-- The search loop goes along the chain. -/
theorem searchLoop_eq (s : Bytes) (hl : Linked links h (l ++ r)) {fuel : ℕ} (hfuel : r.length < fuel)
    (index : ℕ) : searchLoop h s fuel (first r) index = some (foundFrom s index r) := by
  induction r generalizing l fuel index with
  | nil =>
    rcases Nat.exists_eq_add_one.mpr (Nat.zero_lt_of_lt hfuel) with ⟨fuel, rfl⟩
    rfl
  | cons p r ih =>
    rcases Nat.exists_eq_add_one.mpr (Nat.zero_lt_of_lt hfuel) with ⟨fuel, rfl⟩
    rcases node_at hl with ⟨c, hc, hrec, -, hnext⟩
    have hname : c.name = p.2.name := congrArg Record.name hrec
    rw [first_cons, searchLoop, hc, Option.bind_some, hname, foundFrom, hnext]
    split_ifs with hs
    · rfl
    · exact ih (linked_concat hl) (by simpa using hfuel) _

/-- `print_all_abonents` prints the records. -/
theorem listing_eq (hl : Linked links h (l ++ r)) {fuel : ℕ} (hfuel : r.length < fuel) :
    listing h fuel (first r) = some (r.map Prod.snd) := by
  induction r generalizing l fuel with
  | nil =>
    rcases Nat.exists_eq_add_one.mpr (Nat.zero_lt_of_lt hfuel) with ⟨fuel, rfl⟩
    rfl
  | cons p r ih =>
    rcases Nat.exists_eq_add_one.mpr (Nat.zero_lt_of_lt hfuel) with ⟨fuel, rfl⟩
    rcases node_at hl with ⟨c, hc, hrec, -, hnext⟩
    have hrest := ih (linked_concat hl) (show r.length < fuel by simpa using hfuel)
    rw [first_cons, listing, hc, Option.bind_some, hnext, hrest]
    show some (c.record :: r.map Prod.snd) = _
    rw [hrec]
    rfl

/-! ## `delete_node` -/

theorem update_none (h : Heap) (a : Addr) : Function.update h a none = clear h a := by
  funext x
  by_cases hx : x = a <;> simp [clear, hx]

theorem assign_eq {a : Addr} {c : Node} (hc : h a = some c) (f : Node → Node) :
    assign h (some a) f = some (patch h (some a) f) := by
  rw [assign, Option.bind_some, hc, Option.map_some]
  congr 1
  funext x
  by_cases hx : x = a
  · subst hx
    simp [patch, hc]
  · have hax : ¬ a = x := fun he => hx he.symm
    simp [patch, hx, hax]

theorem release_eq {a : Addr} {c : Node} (hc : h a = some c) :
    release h (some a) = some (clear h a) := by
  rw [release, hc, Option.map_some, update_none]

/-- The nodes in front of a node of the chain are live and other nodes. -/
theorem before_live (hl : Linked links h (l ++ p :: r)) {b : Addr} (hb : last l = some b) :
    b ≠ p.1 ∧ ∃ c, h b = some c := by
  have hmem := mem_of_last hb
  refine ⟨?_, hl.live (by simp [hmem])⟩
  rintro rfl
  have hnodup := hl.nodup
  rw [List.map_append, List.map_cons, List.nodup_middle, List.nodup_cons] at hnodup
  exact hnodup.1 (List.mem_append_left _ hmem)

/-- The node behind a node of the chain is live and another one, and links back to it. -/
theorem after_live {q : Addr × Record} (hl : Linked links h (l ++ p :: q :: r)) :
    q.1 ≠ p.1 ∧ ∃ c, h q.1 = some c ∧ c.pred = some p.1 := by
  rcases node_at (linked_concat hl) with ⟨c, hc, -, hback, -⟩
  rw [last_concat] at hback
  refine ⟨fun he => ?_, c, hc, hback⟩
  have hnodup := hl.nodup
  rw [List.map_append, List.map_cons, List.nodup_middle, List.nodup_cons] at hnodup
  exact hnodup.1 (by simp [← he])

/-- A change of one node keeps the others live. -/
theorem patch_live {x : Addr} {c : Node} (hc : h x = some c) (b : Option Addr) (f : Node → Node) :
    ∃ c', patch h b f x = some c' := by
  by_cases hb : b = some x <;> simp [patch, hb, hc]

/-- `delete_node` unlinks the node and goes on behind it. -/
theorem deleteNode_eq (hl : Linked links h (l ++ p :: r)) (node : Option Addr) :
    deleteNode h (some p.1) node =
      some (first r, unlink links h (last l) (first r) p.1, if l = [] then first r else node) := by
  rcases node_at hl with ⟨c, hc, -, hpred, hnext⟩
  have hrel := release_eq hc
  rw [deleteNode, deref, Option.bind_some, hc, Option.bind_some, hpred, hnext]
  cases hlast : last l with
  | none =>
    have hnil : l = [] := by simpa [last] using hlast
    subst hnil
    cases r with
    | nil =>
      -- the only node
      simp [hrel, unlink]
    | cons q r =>
      -- the first one of several
      rcases after_live hl with ⟨hqp, n, hn, hback⟩
      have hlive : clear h p.1 q.1 = some n := by simp [clear, hqp, hn]
      have hsome : some q.1 ≠ some p.1 := fun he => hqp (Option.some.inj he)
      simp only [first_cons, hn, Option.bind_some, hback, hrel, assign_eq hlive, Option.map_some,
        patch_clear h hsome, if_true]
      simp [unlink, links]
  | some b =>
    rcases before_live hl hlast with ⟨hbp, d, hd⟩
    have hne : l ≠ [] := by
      rintro rfl
      simp at hlast
    have hlive : clear h p.1 b = some d := by simp [clear, hbp, hd]
    have hsome : some b ≠ some p.1 := fun he => hbp (Option.some.inj he)
    cases r with
    | nil =>
      -- the last one of several
      simp only [first_nil, hrel, Option.bind_some, assign_eq hlive, Option.map_some,
        patch_clear h hsome, if_neg hne]
      simp [unlink, links]
    | cons q r =>
      -- one between two others
      rcases after_live hl with ⟨hqp, n, hn, hback⟩
      obtain ⟨n', hn'⟩ := patch_live hn (some b) fun c => { c with next := some q.1 }
      have hlive' : clear (patch h (some b) fun c => { c with next := some q.1 }) p.1 q.1 =
          some n' := by
        rw [clear, if_neg hqp, hn']
      have hsome' : some q.1 ≠ some p.1 := fun he => hqp (Option.some.inj he)
      simp only [first_cons, hn, Option.bind_some, hback, hrel, assign_eq hlive,
        patch_clear h hsome, assign_eq hlive', Option.map_some, patch_clear _ hsome', if_neg hne]
      rfl

/-! ## `delete_abonent` -/

/-- The records that a delete leaves, with their addresses. -/
def removeFrom (s : Bytes) (xs : List (Addr × Record)) : List (Addr × Record) :=
  xs.filter fun p => p.2.name ≠ s

theorem map_removeFrom (s : Bytes) (xs : List (Addr × Record)) :
    (removeFrom s xs).map Prod.snd = remove (xs.map Prod.snd) s := by
  rw [removeFrom, remove, List.filter_map]
  rfl

/-- The loop of `delete_abonent`, with the nodes `l` behind it and `r` ahead. -/
theorem deleteLoop_holds (s : Bytes) (ha : Holds array (l ++ r)) {fuel : ℕ} (hfuel : r.length < fuel) :
    ∃ array', deleteLoop s fuel (first r) array = some array' ∧ Holds array' (l ++ removeFrom s r) := by
  induction r generalizing l array fuel with
  | nil =>
    rcases Nat.exists_eq_add_one.mpr (Nat.zero_lt_of_lt hfuel) with ⟨fuel, rfl⟩
    exact ⟨array, rfl, ha⟩
  | cons p r ih =>
    rcases Nat.exists_eq_add_one.mpr (Nat.zero_lt_of_lt hfuel) with ⟨fuel, rfl⟩
    have hfuel' : r.length < fuel := by simpa using hfuel
    rcases node_at ha.linked with ⟨c, hc, hrec, -, hnext⟩
    have hname : c.name = p.2.name := congrArg Record.name hrec
    rw [first_cons, deleteLoop, hc, Option.bind_some, hname]
    -- the loop goes on behind the node, with or without it in the chain
    by_cases hs : p.2.name = s
    · rw [if_pos hs, deleteNode_eq ha.linked, Option.bind_some]
      have hrem : removeFrom s (p :: r) = removeFrom s r := by simp [removeFrom, hs]
      rw [hrem]
      refine ih ⟨ha.linked.unlink, ?_, ?_⟩ hfuel'
      · show (if l = [] then first r else array.node) = first (l ++ r)
        rw [first_append, ha.node, first_append]
        split_ifs <;> rfl
      · have hsize := ha.size
        simp only [List.length_append, List.length_cons] at hsize ⊢
        omega
    · have hrem : removeFrom s (p :: r) = p :: removeFrom s r := by simp [removeFrom, hs]
      have hcons : l ++ p :: r = (l ++ [p]) ++ r := by simp
      rcases ih (l := l ++ [p]) (hcons ▸ ha) hfuel' with ⟨array', hloop, hholds⟩
      refine ⟨array', by rw [if_neg hs, hnext, hloop], ?_⟩
      rw [hrem]
      simpa using hholds

/-- The index that `search` returns is past the counter exactly when nobody has
the name. -/
theorem foundFrom_index (s : Bytes) (index : ℕ) (r : List (Addr × Record)) :
    index + r.length ≤ (foundFrom s index r).2 ↔ ∀ p ∈ r, p.2.name ≠ s := by
  induction r generalizing index with
  | nil => simp [foundFrom]
  | cons p r ih =>
    rw [foundFrom]
    by_cases hs : p.2.name = s
    · rw [if_pos hs]
      simp [hs]
    · have hih := ih (index + 1)
      rw [if_neg hs, List.length_cons, ← Nat.add_assoc, Nat.add_right_comm, hih]
      simp [hs]

/-- What `delete_abonent` does, whatever is read at its prompt. -/
theorem deleteAbonent_cases (ha : Holds array xs) {fuel : ℕ} (hfuel : xs.length < fuel)
    (stale stdin : Bytes) :
    (xs = [] ∧ deleteAbonent fuel stale array stdin = some ({ code := -2 }, array, stdin)) ∨
    (xs ≠ [] ∧ (∀ p ∈ xs, p.2.name ≠ (myGetline stale stdin).1) ∧
      deleteAbonent fuel stale array stdin =
        some ({ code := -3 }, array, (myGetline stale stdin).2)) ∨
    (xs ≠ [] ∧ (∃ p ∈ xs, p.2.name = (myGetline stale stdin).1) ∧
      ∃ array', deleteAbonent fuel stale array stdin =
          some ({ code := 0 }, array', (myGetline stale stdin).2) ∧
        Holds array' (removeFrom (myGetline stale stdin).1 xs)) := by
  have hsize := ha.size
  unfold deleteAbonent
  by_cases hnil : xs = []
  · left
    subst hnil
    exact ⟨rfl, if_pos (by simpa using hsize)⟩
  · right
    have hne : ¬ array.size = 0 := by
      rw [hsize]
      simpa using hnil
    rw [if_neg hne]
    generalize myGetline stale stdin = typed
    rcases typed with ⟨s, rest⟩
    have hloop := searchLoop_eq s (l := []) ha.linked hfuel 1
    dsimp only
    rw [search, ha.node, hloop, Option.map_some, Option.bind_some]
    by_cases hall : ∀ p ∈ xs, p.2.name ≠ s
    · -- nobody has the name
      have hindex := (foundFrom_index s 1 xs).mpr hall
      exact Or.inl ⟨hnil, hall, if_pos (by omega)⟩
    · have hindex : ¬ 1 + xs.length ≤ (foundFrom s 1 xs).2 := fun h =>
        hall ((foundFrom_index s 1 xs).mp h)
      have hsome : ∃ p ∈ xs, p.2.name = s := by
        push Not at hall
        exact hall
      rcases deleteLoop_holds s (l := []) ha hfuel with ⟨array', hdel, hholds⟩
      refine Or.inr ⟨hnil, hsome, array', ?_, hholds⟩
      rw [if_neg (by omega), hdel, Option.map_some]

/-- A delete of a name that nobody has takes no node out. -/
theorem removeFrom_of_absent {s : Bytes} (h : ∀ p ∈ xs, p.2.name ≠ s) : removeFrom s xs = xs := by
  rw [removeFrom, List.filter_eq_self]
  intro p hp
  simpa using h p hp

/-- `delete_abonent` leaves the records without the name. -/
theorem deleteAbonent_holds {s : Bytes} (hs : Typed s) (ha : Holds array xs) {fuel : ℕ}
    (hfuel : xs.length < fuel) (stale : Bytes) :
    ∃ answer array' stdin, deleteAbonent fuel stale array (s ++ [10]) =
      some (answer, array', stdin) ∧ answer.report = none ∧ Holds array' (removeFrom s xs) := by
  have hcases := deleteAbonent_cases ha hfuel stale (s ++ [10])
  rw [myGetline_typed hs] at hcases
  rcases hcases with ⟨rfl, hdel⟩ | ⟨-, hall, hdel⟩ | ⟨-, -, array', hdel, hholds⟩
  · exact ⟨_, array, _, hdel, rfl, ha⟩
  · refine ⟨_, array, _, hdel, rfl, ?_⟩
    rw [removeFrom_of_absent hall]
    exact ha
  · exact ⟨_, array', _, hdel, rfl, hholds⟩

/-! ## `insert_abonent` and `search_abonent` -/

theorem update_some (h : Heap) (a : Addr) (c : Node) : Function.update h a (some c) = add h a c := by
  funext x
  by_cases hx : x = a <;> simp [add, hx]

/-- `insert` behind the last node adds a node to the chain. -/
theorem insert_eq (hl : Linked links h xs) {new : Addr} (hnew : h new = none) (r : Record) :
    ∃ h', insert h (last xs) new r.name r.secondName r.tel =
        some (h', if xs = [] then some new else last xs) ∧ Linked links h' (xs ++ [(new, r)]) := by
  -- `malloc` returns no address in use
  have hfresh : new ∉ xs.map Prod.fst := by
    intro hmem
    rcases hl.live hmem with ⟨c, hc⟩
    rw [hnew] at hc
    exact absurd hc (by simp)
  have hlink := hl.link hfresh (c := ⟨r.name, r.secondName, r.tel, none, last xs⟩) rfl rfl
  refine ⟨_, ?_, hlink⟩
  cases hlast : last xs with
  | none =>
    have hnil : xs = [] := by simpa [last] using hlast
    rw [insert, update_some, link, patch_none, if_pos hnil]
  | some b =>
    have hmem := mem_of_last hlast
    have hne : xs ≠ [] := by
      rintro rfl
      simp at hlast
    rcases hl.live hmem with ⟨d, hd⟩
    have hbn : b ≠ new := fun he => hfresh (he ▸ hmem)
    have hsome : some b ≠ some new := fun he => hbn (Option.some.inj he)
    have hlive : add h new ⟨r.name, r.secondName, r.tel, none, some b⟩ b = some d := by
      simp [add, hbn, hd]
    rw [insert, update_some, assign_eq hlive, Option.map_some, patch_add h hsome, if_neg hne]
    rfl

/-- What is entered at the prompts of `insert_abonent`, and the rest of the input. -/
def entered (stale : Record) (stdin : Bytes) : Record × Bytes :=
  let (name, stdin) := myGetline stale.name stdin
  let (secondName, stdin) := myGetline stale.secondName stdin
  let (tel, stdin) := myGetline stale.tel stdin
  (⟨name, secondName, tel⟩, stdin)

theorem entered_typed {r : Record} (hname : Typed r.name) (hsecond : Typed r.secondName)
    (htel : Typed r.tel) (stale : Record) : entered stale (Op.insert r).input = (r, []) := by
  simp only [entered, Op.input, myGetline_typed hname, myGetline_typed hsecond,
    myGetline_typed htel]

/-- A full directory takes nobody in. -/
theorem insertAbonent_full (ha : Holds array xs) (hlen : 100 < xs.length) (fuel : ℕ) (new : Addr)
    (stale : Record) (stdin : Bytes) :
    insertAbonent fuel new stale array stdin = some ({ code := 1 }, array, stdin) := by
  have hsize := ha.size
  rw [insertAbonent, if_pos (by omega)]

/-- `insert_abonent` puts the entered record behind the others. -/
theorem insertAbonent_entered (ha : Holds array xs) (hlen : xs.length ≤ 100) {fuel : ℕ}
    (hfuel : xs.length < fuel) {new : Addr} (hnew : array.heap new = none) (stale : Record)
    (stdin : Bytes) :
    ∃ array', insertAbonent fuel new stale array stdin =
        some ({ code := 0 }, array', (entered stale stdin).2) ∧
      Holds array' (xs ++ [(new, (entered stale stdin).1)]) := by
  have hsize := ha.size
  -- the check of the counter lets the insert pass
  have hroom : ¬ 100 < array.size := by omega
  unfold insertAbonent entered
  rw [if_neg hroom]
  generalize myGetline stale.name stdin = name
  rcases name with ⟨name, stdin₁⟩
  dsimp only
  generalize myGetline stale.secondName stdin₁ = secondName
  rcases secondName with ⟨secondName, stdin₂⟩
  dsimp only
  generalize myGetline stale.tel stdin₂ = tel
  rcases tel with ⟨tel, rest⟩
  dsimp only
  have hlength : array.size + 1 = ((xs ++ [(new, (⟨name, secondName, tel⟩ : Record))]).length : Int) := by
    rw [hsize, List.length_append, List.length_singleton]
    rfl
  rcases insert_eq ha.linked hnew ⟨name, secondName, tel⟩ with ⟨h', hins, hlinked⟩
  dsimp only at hins
  rw [ha.node]
  cases xs with
  | nil =>
    rw [last_nil] at hins
    rw [first_nil, if_pos rfl, hins, Option.map_some]
    exact ⟨_, rfl, ⟨hlinked, rfl, hlength⟩⟩
  | cons p xs =>
    -- the loop stops at the last node of the chain
    have hlast := lastNode_eq (l := []) ha.linked
      (show xs.length < fuel by rw [List.length_cons] at hfuel; omega)
    rw [first_cons, if_neg (by simp), hlast, Option.bind_some, hins, Option.map_some]
    exact ⟨_, rfl, ⟨hlinked, rfl, hlength⟩⟩

/-- `insert_abonent` puts a record that is typed behind the others. -/
theorem insertAbonent_holds {r : Record} (hname : Typed r.name) (hsecond : Typed r.secondName)
    (htel : Typed r.tel) (ha : Holds array xs) (hlen : xs.length ≤ 100) {fuel : ℕ}
    (hfuel : xs.length < fuel) {new : Addr} (hnew : array.heap new = none) (stale : Record) :
    ∃ answer array' stdin, insertAbonent fuel new stale array (Op.insert r).input =
      some (answer, array', stdin) ∧ answer.report = none ∧ Holds array' (xs ++ [(new, r)]) := by
  obtain ⟨array', hins, hholds⟩ :=
    insertAbonent_entered ha hlen hfuel hnew stale (Op.insert r).input
  rw [entered_typed hname hsecond htel] at hins hholds
  exact ⟨_, array', _, hins, rfl, hholds⟩

/-- What the node at which the search stops has to do with the report. -/
theorem foundFrom_report (s : Bytes) (hl : Linked links h (l ++ r)) (index : ℕ) :
    (if (foundFrom s index r).1 = none then some Report.absent
      else (deref h (foundFrom s index r).1).map fun c =>
        Report.found (foundFrom s index r).2 c.record) =
      some (reportFrom index s (r.map Prod.snd)) := by
  induction r generalizing l index with
  | nil => rfl
  | cons p r ih =>
    rw [foundFrom, List.map_cons, reportFrom]
    by_cases hs : p.2.name = s
    · rcases node_at hl with ⟨c, hc, hrec, -⟩
      simp [hs, deref, hc, hrec]
    · rw [if_neg hs, if_neg hs]
      exact ih (linked_concat hl) (index + 1)

/-- What `search_abonent` does, whatever is read at its prompt. -/
theorem searchAbonent_cases (ha : Holds array xs) {fuel : ℕ} (hfuel : xs.length < fuel)
    (stale stdin : Bytes) :
    (xs = [] ∧ searchAbonent fuel stale array stdin = some ({ code := -2 }, stdin)) ∨
    (xs ≠ [] ∧ searchAbonent fuel stale array stdin =
      some ({ code := 0, report := some (report (xs.map Prod.snd) (myGetline stale stdin).1) },
        (myGetline stale stdin).2)) := by
  have hsize := ha.size
  unfold searchAbonent
  by_cases hnil : xs = []
  · left
    subst hnil
    exact ⟨rfl, if_pos (by simpa using hsize)⟩
  · right
    have hne : ¬ array.size = 0 := by
      rw [hsize]
      simpa using hnil
    refine ⟨hnil, ?_⟩
    rw [if_neg hne]
    generalize myGetline stale stdin = typed
    rcases typed with ⟨s, rest⟩
    have hloop := searchLoop_eq s (l := []) ha.linked hfuel 1
    -- where the loop stops is what is reported
    have hreport := foundFrom_report s (l := []) ha.linked 1
    dsimp only
    rw [ha.node, hloop, Option.bind_some, report]
    split_ifs at hreport ⊢ with hfound
    · rw [← Option.some.inj hreport]
    · rcases Option.map_eq_some_iff.mp hreport with ⟨c, hc, hrep⟩
      rw [hc, Option.map_some, ← hrep]
      rfl

/-- `search_abonent` reports what the list has. -/
theorem searchAbonent_holds {s : Bytes} (hs : Typed s) (ha : Holds array xs) {fuel : ℕ}
    (hfuel : xs.length < fuel) (stale : Bytes) :
    ∃ answer stdin, searchAbonent fuel stale array (s ++ [10]) = some (answer, stdin) ∧
      answer.report = Op.answer (xs.map Prod.snd) (.search s) := by
  have hcases := searchAbonent_cases ha hfuel stale (s ++ [10])
  rw [myGetline_typed hs] at hcases
  rcases hcases with ⟨rfl, hsearch⟩ | ⟨hnil, hsearch⟩
  · exact ⟨_, _, hsearch, rfl⟩
  · have hne : ¬ xs.map Prod.snd = [] := by simpa using hnil
    refine ⟨_, _, hsearch, ?_⟩
    rw [Op.answer, if_neg hne]

/-- Every operation does to the nodes what it does to the list of records. -/
theorem perform_holds {n : ℕ} {op : Op} (hop : op.Fits n) (ha : Holds array xs)
    (hlen : xs.length ≤ 100) {fuel : ℕ} (hfuel : xs.length < fuel) {new : Addr}
    (hnew : array.heap new = none) (stale : Record) :
    ∃ answer array' xs', perform fuel new stale array op = some (answer, array') ∧
      Holds array' xs' ∧ xs'.map Prod.snd = op.apply (xs.map Prod.snd) ∧
        answer.report = op.answer (xs.map Prod.snd) := by
  cases op with
  | insert r =>
    obtain ⟨answer, array', stdin, hins, hnone, hholds⟩ := insertAbonent_holds hop.name.toTyped
      hop.secondName.toTyped hop.tel.toTyped ha hlen hfuel hnew stale
    refine ⟨answer, array', _, ?_, hholds, by simp [Op.apply], hnone⟩
    rw [perform, hins]
    rfl
  | delete s =>
    obtain ⟨answer, array', stdin, hdel, hnone, hholds⟩ := deleteAbonent_holds hop.1 ha hfuel stale.name
    refine ⟨answer, array', _, ?_, hholds, map_removeFrom s xs, hnone⟩
    show (deleteAbonent fuel stale.name array (s ++ [10])).map _ = _
    rw [hdel]
    rfl
  | search s =>
    rcases searchAbonent_holds hop.1 ha hfuel stale.name with ⟨answer, stdin, hsearch, hrep⟩
    refine ⟨answer, array, xs, ?_, ha, rfl, hrep⟩
    show (searchAbonent fuel stale.name array (s ++ [10])).map _ = _
    rw [hsearch]
    rfl

end EmbeddedCourse.Directory.Chain
