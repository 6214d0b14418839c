import EmbeddedCourse.Lib.Run
import EmbeddedCourse.SharedChat.Permits

/-! # One broadcast and its readers

The server's `write_queue` against any number of reading threads, with nobody
joining or leaving. The permits of `sem_client` are anonymous: between two
writes of the slot as many are taken as there are readers (`Even`), but nothing
keeps one reader from taking two of them.
-/

namespace EmbeddedCourse.SharedChat

open Script Client

/-- A reading thread, with the permits it has taken and the copies it has made
since the slot was written last. -/
structure Reader where
  todo : List ClientOp
  taken : ℕ
  copies : ℕ
deriving DecidableEq, Repr

/-- The server's script, the slot and the readers. At each write of the slot
`log` keeps how often each reader has copied the slot since the write before. -/
structure Hall where
  sem : Sems Sem
  todo : List ServerOp
  outbox : Message
  readers : List Reader
  log : List (List ℕ)

namespace Hall

/-- The server enters `write_queue`, the server or a reader takes a step. -/
inductive Label where
  | call (msg : Message) (s : Server)
  | serve
  | read (i : ℕ)
deriving DecidableEq, Repr

/-- As many acknowledgements as readers. -/
def initSem (n : ℕ) : Sems Sem
  | .server2 => n
  | .mutex1 | .mutex2 => 1
  | _ => 0

def init (n : ℕ) : Hall :=
  { sem := initSem n
    todo := []
    outbox := zeroMessage
    readers := List.replicate n ⟨Client.readQueue, 0, 0⟩
    log := [] }

def serve (s : Hall) : Option Hall :=
  match s.todo with
  | [] => none
  | .act (.publish msg) :: ops =>
    some { s with
      todo := ops
      outbox := msg
      readers := s.readers.map fun r => { r with taken := 0, copies := 0 }
      log := s.log ++ [s.readers.map Reader.copies] }
  | op :: ops => (run s.sem op).map fun v => { s with sem := v, todo := ops }

/-- A wait for a permit. -/
def takes (op : ClientOp) : ℕ := if op = .wait .client then 1 else 0

/-- A copy of the slot. -/
def copying (op : ClientOp) : ℕ := if op = .act .copy then 1 else 0

def read (s : Hall) (i : ℕ) (r : Reader) : Option Hall :=
  match r.todo with
  | [] => none
  | op :: ops =>
    (run s.sem op).map fun v =>
      { s with
        sem := v
        readers := s.readers.set i
          { todo := refill Client.readQueue ops
            taken := r.taken + takes op
            copies := r.copies + copying op } }

def step (s : Hall) : Label → Option Hall
  | .call msg srv =>
    -- a message that `write_queue` broadcasts, to as many clients as there are readers
    if s.todo = [] ∧ ¬ Unanswered msg ∧ srv.roster.sizeInfcl = s.readers.length then
      some { s with todo := writeQueue msg srv }
    else none
  | .serve => s.serve
  | .read i =>
    match s.readers[i]? with
    | none => none
    | some r => s.read i r

/-- What a step can be. -/
inductive Step (s : Hall) : Label → Hall → Prop where
  | call (msg : Message) (srv : Server) (idle : s.todo = []) (answered : ¬ Unanswered msg)
      (size : srv.roster.sizeInfcl = s.readers.length) :
      Step s (.call msg srv) { s with todo := writeQueue msg srv }
  | publish (msg : Message) (ops : List ServerOp) (ht : s.todo = .act (.publish msg) :: ops) :
      Step s .serve { s with
        todo := ops
        outbox := msg
        readers := s.readers.map fun r => { r with taken := 0, copies := 0 }
        log := s.log ++ [s.readers.map Reader.copies] }
  | serve (op : ServerOp) (ops : List ServerOp) (ht : s.todo = op :: ops)
      (hop : ∀ msg, op ≠ .act (.publish msg)) (v : Sems Sem) (hrun : run s.sem op = some v) :
      Step s .serve { s with sem := v, todo := ops }
  | read (i : ℕ) (r : Reader) (hr : s.readers[i]? = some r) (op : ClientOp) (ops : List ClientOp)
      (ht : r.todo = op :: ops) (v : Sems Sem) (hrun : run s.sem op = some v) :
      Step s (.read i) { s with
        sem := v
        readers := s.readers.set i
          { todo := refill Client.readQueue ops
            taken := r.taken + takes op
            copies := r.copies + copying op } }

/-- The kinds of steps are all. -/
theorem step_inv {s s' : Hall} {l : Label} (h : s.step l = some s') : Step s l s' := by
  cases l with
  | call msg srv =>
    simp only [Hall.step] at h
    split_ifs at h with hcall
    obtain rfl := Option.some.inj h
    exact .call msg srv hcall.1 hcall.2.1 hcall.2.2
  | serve =>
    simp only [Hall.step, Hall.serve] at h
    split at h
    · exact absurd h (by simp)
    · next msg ops ht =>
      obtain rfl := Option.some.inj h
      exact .publish msg ops ht
    · next op ops hop ht =>
      rcases Option.map_eq_some_iff.mp h with ⟨v, hrun, rfl⟩
      exact .serve op ops ht (fun msg he => hop msg he) v hrun
  | read i =>
    simp only [Hall.step] at h
    split at h
    · exact absurd h (by simp)
    · next r hr =>
      simp only [Hall.read] at h
      split at h
      · exact absurd h (by simp)
      · next op ops ht =>
        rcases Option.map_eq_some_iff.mp h with ⟨v, hrun, rfl⟩
        exact .read i r hr op ops ht v hrun

end Hall

/-! ## The rounds of `write_queue` -/

/-- The permits given before the slot is written again. -/
def due : List ServerOp → Int
  | [] => 0
  | .act (.publish _) :: _ => 0
  | op :: ops => effect (only Sem.client) op + due ops

/-- Behind each write of the slot stand `n` permits, all before the next write. -/
def Paid (n : ℕ) : List ServerOp → Prop
  | [] => True
  | .act (.publish _) :: ops => load (effect permit) ops = n ∧ due ops = n ∧ Paid n ops
  | _ :: ops => Paid n ops

/-- Whole rounds: acknowledgements, a write, permits. -/
structure Rounds (n : ℕ) (ops : List ServerOp) : Prop where
  paid : Paid n ops
  even : load (effect permit) ops = 0
  due : due ops = 0

theorem due_cons {op : ServerOp} (hop : ∀ msg, op ≠ .act (.publish msg)) (ops : List ServerOp) :
    due (op :: ops) = effect (only Sem.client) op + due ops := by
  rcases op with x | x | (_ | s | m)
  · rfl
  · rfl
  · rfl
  · rfl
  · exact absurd rfl (hop m)

theorem Paid.tail {n : ℕ} {op : ServerOp} {ops : List ServerOp} (h : Paid n (op :: ops)) :
    Paid n ops := by
  rcases op with x | x | (_ | s | m)
  · exact h
  · exact h
  · exact h
  · exact h
  · exact h.2.2

theorem due_append {l l' : List ServerOp} (h : due l' = 0) : due (l ++ l') = due l := by
  induction l with
  | nil => exact h
  | cons op l ih => rcases op with x | x | (_ | s | m) <;> simp [due, ih]

theorem Rounds.nil (n : ℕ) : Rounds n [] := ⟨trivial, rfl, rfl⟩

theorem Rounds.append {n : ℕ} {l l' : List ServerOp} (h : Rounds n l) (h' : Rounds n l') :
    Rounds n (l ++ l') := by
  refine ⟨?_, by rw [load_append, h.even, h'.even]; rfl, by rw [due_append h'.due, h.due]⟩
  have hp := h.paid
  clear h
  induction l with
  | nil => exact h'.paid
  | cons op l ih =>
    rcases op with x | x | (_ | s | m)
    · exact ih hp
    · exact ih hp
    · exact ih hp
    · exact ih hp
    · rcases hp with ⟨hload, hdue, hrest⟩
      refine ⟨?_, ?_, ih hrest⟩
      · show load (effect permit) (l ++ l') = n
        rw [load_append, hload, h'.even, Int.add_zero]
      · show SharedChat.due (l ++ l') = n
        rw [due_append h'.due, hdue]

theorem paid_replicate (n k : ℕ) {op : ServerOp} (hop : ∀ msg, op ≠ .act (.publish msg))
    {ops : List ServerOp} (h : Paid n ops) : Paid n (List.replicate k op ++ ops) := by
  induction k with
  | zero => exact h
  | succ k ih =>
    rcases op with x | x | (_ | s | m)
    · exact ih
    · exact ih
    · exact ih
    · exact ih
    · exact absurd rfl (hop m)

theorem due_replicate (k : ℕ) {op : ServerOp} (hop : ∀ msg, op ≠ .act (.publish msg))
    (ops : List ServerOp) :
    due (List.replicate k op ++ ops) = k * effect (only Sem.client) op + due ops := by
  induction k with
  | zero => simp
  | succ k ih =>
    rw [List.replicate_succ, List.cons_append, due_cons hop, ih]
    push_cast
    rw [Int.add_mul, Int.one_mul]
    omega

/-- One round for a table of `n` clients. -/
theorem rounds_round {n : ℕ} {s : Server} (hn : s.roster.sizeInfcl = n) (msg : Message) :
    Rounds n (acks s ++ publish msg ++ permits s) := by
  have hnat : s.roster.sizeInfcl.toNat = n := by omega
  have hwait : ∀ msg, (.wait .server2 : ServerOp) ≠ .act (.publish msg) := by simp
  have hpost : ∀ msg, (.post .client : ServerOp) ≠ .act (.publish msg) := by simp
  -- the permits are as many as the readers
  have hpermits : due (permits s) = n := by
    have h := due_replicate n hpost []
    rw [List.append_nil] at h
    rw [permits, hnat, h]
    simp [effect, only, due]
  have hpaid : Paid n (permits s) := by
    have h := paid_replicate n n hpost (show Paid n [] from trivial)
    rw [List.append_nil] at h
    rw [permits, hnat]
    exact h
  -- acknowledgements give nothing, and behind the write come all permits
  refine ⟨?_, load_round (c := permit) rfl s msg, ?_⟩
  · rw [List.append_assoc, acks]
    refine paid_replicate n _ hwait ⟨?_, ?_, ?_⟩
    · simp [effect, permit, load_permits, hn]
    · show effect (only Sem.client) (.post .mutex2 : ServerOp) + due (permits s) = n
      rw [hpermits]
      simp [effect, only]
    · exact hpaid
  · rw [List.append_assoc, acks, due_replicate _ hwait]
    simp [publish, due, effect, only]

theorem rounds_replay {n : ℕ} {s : Server} (hn : s.roster.sizeInfcl = n) (msg : Message)
    (lines : List CString.Bytes) : Rounds n (replay s msg lines) := by
  induction lines generalizing msg with
  | nil => exact Rounds.nil n
  | cons line lines ih => exact (rounds_round hn _).append (ih _)

/-- Join, line and leave are all broadcast in whole rounds. -/
theorem rounds_writeQueue {n : ℕ} {s : Server} (hn : s.roster.sizeInfcl = n) {msg : Message}
    (h : ¬ Unanswered msg) : Rounds n (writeQueue msg s) := by
  unfold writeQueue
  by_cases hnew : msg.categoriyMessage = Kind.newClient.code
  · rw [if_pos hnew, ← List.append_assoc, ← List.append_assoc]
    exact (rounds_round hn _).append (rounds_replay hn _ _)
  · by_cases hchat : msg.categoriyMessage = Kind.messageFromClient.code
    · rw [if_neg hnew, if_pos hchat, ← List.append_assoc]
      exact rounds_round hn _
    · by_cases hleave : msg.categoriyMessage = Kind.clientLeave.code
      · have h := (rounds_round hn { msg with
            categoriyMessage := Kind.messageFromServer.code }).append
          (rounds_round hn { msg with categoriyMessage := Kind.clientLeave.code })
        rw [if_neg hnew, if_neg hchat, if_pos hleave]
        simpa only [List.append_assoc] using h
      · exact absurd ⟨hnew, hchat, hleave⟩ h

/-! ## Readers and permits -/

/-- The permit of a reader between its wait and its post. -/
def Reader.held (r : Reader) : Int := load (effect permit) r.todo

/-- The permits taken since the slot was written, as a weight. -/
def Reader.uses (r : Reader) : Int := r.taken

/-- What an operation takes off the copies still due for permits taken. -/
def toCopy (op : ClientOp) : Int := Hall.copying op - Hall.takes op

/-- A reader at the start of its loop holds nothing, elsewhere it holds one permit. -/
theorem toCopy_of_held {ops : List ClientOp} (h : ops <:+ Client.readQueue) :
    0 ≤ load (effect permit) ops ∧ (load (effect permit) ops = 0 → load toCopy ops = 0) := by
  simp only [Client.readQueue, List.suffix_cons_iff, List.suffix_nil] at h
  rcases h with rfl | rfl | rfl | rfl | rfl | rfl <;> decide

theorem effect_client_reader {op : ClientOp} (h : op ∈ Client.readQueue) :
    effect (only Sem.client) op = - Hall.takes op := by
  simp only [Client.readQueue, List.mem_cons, List.not_mem_nil, or_false] at h
  rcases h with rfl | rfl | rfl | rfl | rfl <;> rfl

/-- The permits since the slot was written last are as many as the readers. -/
structure Even (n : ℕ) (s : Hall) : Prop where
  count : s.readers.length = n
  loops : ∀ r ∈ s.readers, r.todo <:+ Client.readQueue
  copies : ∀ r ∈ s.readers, (r.taken : Int) = r.copies + load toCopy r.todo
  paid : Paid n s.todo
  permits : value permit s.sem + load (effect permit) s.todo + load Reader.held s.readers = n
  granted : (s.sem .client : Int) + load Reader.uses s.readers + due s.todo =
    if s.log = [] then 0 else (n : Int)

namespace Even

variable {n : ℕ} {s s' : Hall} {l : Hall.Label}

theorem init : Even n (Hall.init n) where
  count := by simp [Hall.init]
  loops := by
    intro r hr
    obtain rfl := List.eq_of_mem_replicate hr
    exact List.suffix_refl _
  copies := by
    intro r hr
    obtain rfl := List.eq_of_mem_replicate hr
    rfl
  paid := trivial
  permits := by
    have hheld : Reader.held ⟨Client.readQueue, 0, 0⟩ = 0 := rfl
    simp [Hall.init, value_permit, Hall.initSem, hheld]
  granted := by
    have huses : Reader.uses ⟨Client.readQueue, 0, 0⟩ = 0 := rfl
    simp [Hall.init, Hall.initSem, huses, due]

/-- At a write of the slot all readers are at the start of their loops and no
permit is left; all that were given have been turned into copies. -/
theorem at_publish (h : Even n s) {msg : Message} {ops : List ServerOp}
    (ht : s.todo = .act (.publish msg) :: ops) :
    s.sem .client = 0 ∧ s.sem .server2 = 0 ∧ (∀ r ∈ s.readers, r.held = 0 ∧ r.taken = r.copies) := by
  have hper := h.permits
  have hpaid := h.paid
  rw [ht] at hper hpaid
  -- all `n` permits and acknowledgements are still to come from this round
  have hnn : ∀ r ∈ s.readers, 0 ≤ r.held := fun r hr => (toCopy_of_held (h.loops r hr)).1
  have hsum := load_nonneg _ hnn
  have hafter : load (effect permit) (.act (.publish msg) :: ops) = n := by
    rw [load_cons, hpaid.1]
    exact Int.zero_add _
  rw [hafter, value_permit] at hper
  refine ⟨by omega, by omega, ?_⟩
  intro r hr
  have hzero : r.held = 0 := eq_zero_of_load _ hnn (by omega) r hr
  have hcopy := h.copies r hr
  rw [(toCopy_of_held (h.loops r hr)).2 hzero] at hcopy
  exact ⟨hzero, by omega⟩

/-- The permits taken between two writes. -/
theorem uses_at_publish (h : Even n s) {msg : Message} {ops : List ServerOp}
    (ht : s.todo = .act (.publish msg) :: ops) :
    load Reader.uses s.readers = if s.log = [] then 0 else (n : Int) := by
  have hgr := h.granted
  rw [(h.at_publish ht).1, ht] at hgr
  have hdue : due (.act (.publish msg) :: ops) = 0 := rfl
  rw [hdue] at hgr
  omega

/-- The next round starts with nothing taken and all its permits due. -/
theorem publish (h : Even n s) {msg : Message} {ops : List ServerOp}
    (ht : s.todo = .act (.publish msg) :: ops) :
    Even n { s with
      todo := ops
      outbox := msg
      readers := s.readers.map fun r => { r with taken := 0, copies := 0 }
      log := s.log ++ [s.readers.map Reader.copies] } := by
  -- all acknowledgements are in: no reader holds a permit
  rcases h.at_publish ht with ⟨hclient, -, hloops⟩
  have hper := h.permits
  have hpaid := h.paid
  rw [ht] at hper hpaid
  refine ⟨by rw [List.length_map, h.count], ?_, ?_, hpaid.2.2, ?_, ?_⟩
  · intro r hr
    rcases List.mem_map.mp hr with ⟨r₀, hr₀, rfl⟩
    exact h.loops r₀ hr₀
  · intro r hr
    rcases List.mem_map.mp hr with ⟨r₀, hr₀, rfl⟩
    have hzero := (toCopy_of_held (h.loops r₀ hr₀)).2 (hloops r₀ hr₀).1
    show (0 : Int) = 0 + load toCopy r₀.todo
    rw [hzero]
    rfl
  · rw [load_map]
    rw [load_cons] at hper
    have hact : effect permit (.act (.publish msg) : ServerOp) = 0 := rfl
    rw [hact, Int.zero_add] at hper
    exact hper
  · have huses : load Reader.uses
        (s.readers.map fun r => { r with taken := 0, copies := 0 }) = 0 := by
      rw [load_map]
      simp [load, Reader.uses]
    rw [huses, hclient, hpaid.2.1]
    simp

/-- A reader turns what it takes off the semaphores into what it holds. -/
theorem read (h : Even n s) {i : ℕ} {r : Reader} (hr : s.readers[i]? = some r) {op : ClientOp}
    {ops : List ClientOp} (ht : r.todo = op :: ops) {v : Sems Sem} (hrun : run s.sem op = some v) :
    Even n { s with
      sem := v
      readers := s.readers.set i
        { todo := refill Client.readQueue ops
          taken := r.taken + Hall.takes op
          copies := r.copies + Hall.copying op } } := by
  have hper := h.permits
  have hgr := h.granted
  have hmem := List.mem_of_getElem? hr
  have hshape := h.loops r hmem
  have hop : op ∈ Client.readQueue := hshape.subset (by rw [ht]; exact List.mem_cons_self)
  rw [ht] at hshape
  have hval := value_run (only Sem.client) hrun
  rw [value_only, value_only, effect_client_reader hop] at hval
  refine ⟨by rw [List.length_set, h.count], ?_, ?_, h.paid, ?_, ?_⟩
  · exact forall_mem_set h.loops (refill_suffix hshape) i
  · refine forall_mem_set h.copies ?_ i
    have hold := h.copies r hmem
    have hloop : load toCopy Client.readQueue = 0 := rfl
    rw [ht, load_cons, toCopy] at hold
    simp only [load_refill _ hloop]
    push_cast
    omega
  · -- over a whole round of its loop a reader gives back what it takes
    have hloop : load (effect permit) Client.readQueue = 0 := rfl
    have hold : r.held = effect permit op + load (effect permit) ops := by
      rw [Reader.held, ht, load_cons]
    have hnew : Reader.held { todo := refill Client.readQueue ops
                              taken := r.taken + Hall.takes op
                              copies := r.copies + Hall.copying op } =
        load (effect permit) ops := load_refill _ hloop ops
    simp only [load_set _ hr, value_run permit hrun, hold, hnew]
    omega
  · simp only [load_set _ hr, hval, Reader.uses]
    push_cast
    omega

/-- Permits and copies stay even. -/
theorem step (h : Even n s) (hs : s.step l = some s') : Even n s' := by
  have hper := h.permits
  have hgr := h.granted
  cases Hall.step_inv hs with
  | call msg srv idle answered size =>
    rw [idle] at hper hgr
    rw [h.count] at size
    -- the script of a new message is made of whole rounds
    have hr := rounds_writeQueue size answered
    refine ⟨h.count, h.loops, h.copies, hr.paid, ?_, ?_⟩
    · rw [hr.even]
      exact hper
    · rw [hr.due]
      exact hgr
  | publish msg ops ht => exact h.publish ht
  | serve op ops ht hop v hrun =>
    have hpaid := h.paid
    rw [ht] at hper hpaid hgr
    rw [due_cons hop] at hgr
    rw [load_cons] at hper
    have hval := value_run (only Sem.client) hrun
    rw [value_only, value_only] at hval
    refine ⟨h.count, h.loops, h.copies, hpaid.tail, ?_, ?_⟩
    · simp only [value_run permit hrun]
      omega
    · simp only [hval]
      omega
  | read i r hr op ops ht v hrun => exact h.read hr ht hrun

end Even

/-! ## Runs in which no reader takes two permits -/

/-- A reader takes a permit only if it has taken none since the slot was
written last. -/
def Patient (s : Hall) : Hall.Label → Prop
  | .read i => ∀ r ∈ s.readers[i]?, r.todo.head? = some (.wait .client) → r.taken = 0
  | _ => True

instance : ∀ (s : Hall) (l : Hall.Label), Decidable (Patient s l)
  | s, .read i => inferInstanceAs (Decidable (∀ r ∈ s.readers[i]?,
      r.todo.head? = some (.wait .client) → r.taken = 0))
  | _, .call _ _ | _, .serve => inferInstanceAs (Decidable True)

/-- Between any two writes of the slot every reader has copied it once. -/
def Once (n : ℕ) (s : Hall) : Prop := ∀ copies ∈ s.log.tail, copies = List.replicate n 1

theorem takes_eq {op : ClientOp} (h : op ≠ .wait .client) : Hall.takes op = 0 := if_neg h

/-- No reader has taken a second permit. -/
structure Single (n : ℕ) (s : Hall) : Prop extends Even n s where
  single : ∀ r ∈ s.readers, r.taken ≤ 1
  once : Once n s

namespace Single

variable {n : ℕ} {s s' : Hall} {l : Hall.Label}

theorem init : Single n (Hall.init n) where
  toEven := Even.init
  single := by
    intro r hr
    obtain rfl := List.eq_of_mem_replicate hr
    exact Nat.zero_le 1
  once := by simp [Once, Hall.init]

theorem step (h : Single n s) (hok : Patient s l) (hs : s.step l = some s') : Single n s' := by
  have heven := h.toEven.step hs
  cases Hall.step_inv hs with
  | call msg srv idle answered size => exact ⟨heven, h.single, h.once⟩
  | publish msg ops ht =>
    refine ⟨heven, ?_, ?_⟩
    · intro r hr
      rcases List.mem_map.mp hr with ⟨r₀, -, rfl⟩
      exact Nat.zero_le 1
    · intro copies hmem
      by_cases hlog : s.log = []
      · simp [hlog] at hmem
      · rw [List.tail_append_of_ne_nil hlog, List.mem_append, List.mem_singleton] at hmem
        rcases hmem with hold | rfl
        · exact h.once copies hold
        · -- as many permits as readers, and no reader with two of them
          have huses := h.uses_at_publish ht
          rw [if_neg hlog, ← h.count] at huses
          have hone : ∀ r ∈ s.readers, r.uses = 1 :=
            eq_one_of_load _ (fun r hr => Int.ofNat_le.mpr (h.single r hr)) huses.ge
          rw [List.eq_replicate_iff, List.length_map, h.count]
          refine ⟨rfl, ?_⟩
          intro k hk
          rcases List.mem_map.mp hk with ⟨r, hr, rfl⟩
          rw [← ((h.at_publish ht).2.2 r hr).2]
          simpa [Reader.uses] using hone r hr
  | serve op ops ht hop v hrun => exact ⟨heven, h.single, h.once⟩
  | read i r hr op ops ht v hrun =>
    refine ⟨heven, forall_mem_set h.single ?_ i, h.once⟩
    show r.taken + Hall.takes op ≤ 1
    by_cases hop : op = .wait .client
    · rw [hok r hr (by rw [ht, hop]; rfl), hop]
      decide
    · rw [takes_eq hop]
      exact h.single r (List.mem_of_getElem? hr)

end Single

/-! ## Runs in which one does -/

/-- A reader has taken a second permit, or has copied the slot twice between
two writes. -/
def Twice (s : Hall) : Prop :=
  (∃ r ∈ s.readers, 2 ≤ r.taken) ∨ ∃ copies ∈ s.log.tail, ∃ k ∈ copies, 2 ≤ k

theorem twice_of_impatient {s s' : Hall} {l : Hall.Label} (hbad : ¬ Patient s l)
    (hs : s.step l = some s') : Twice s' := by
  cases Hall.step_inv hs with
  | call msg srv idle answered size => exact absurd trivial hbad
  | publish msg ops ht => exact absurd trivial hbad
  | serve op ops ht hop v hrun => exact absurd trivial hbad
  | read i r hr op ops ht v hrun =>
    -- the step against the rule can only be a wait for a second permit
    have hwait : op = .wait .client ∧ r.taken ≠ 0 := by
      by_contra hno
      refine hbad fun r' hr' hhead => ?_
      obtain rfl : r = r' := Option.some.inj (hr.symm.trans hr')
      by_contra htaken
      rw [ht] at hhead
      exact hno ⟨Option.some.inj hhead, htaken⟩
    refine Or.inl ⟨_, List.mem_set (List.getElem?_eq_some_iff.mp hr).1 _, ?_⟩
    show 2 ≤ r.taken + Hall.takes op
    rw [hwait.1]
    have hone : Hall.takes (.wait .client) = 1 := rfl
    omega

/-- The second permit becomes a second copy. -/
theorem twice_step {n : ℕ} {s s' : Hall} {l : Hall.Label} (he : Even n s) (h : Twice s)
    (hs : s.step l = some s') : Twice s' := by
  cases Hall.step_inv hs with
  | call msg srv idle answered size => exact h
  | publish msg ops ht =>
    right
    -- before the first write no permit was given
    rcases h with ⟨r, hr, htwo⟩ | ⟨copies, hmem, k, hk, htwo⟩
    · have hlog : s.log ≠ [] := by
        intro hempty
        have huses := he.uses_at_publish ht
        rw [if_pos hempty] at huses
        have hzero := eq_zero_of_load Reader.uses (fun r _ => Int.natCast_nonneg _) huses.le r hr
        have htaken : r.taken = 0 := by simpa [Reader.uses] using hzero
        omega
      refine ⟨s.readers.map Reader.copies, ?_, r.copies, List.mem_map_of_mem hr, ?_⟩
      · rw [List.tail_append_of_ne_nil hlog]
        exact List.mem_append_right _ (List.mem_singleton_self _)
      · rw [← ((he.at_publish ht).2.2 r hr).2]
        exact htwo
    · have hlog : s.log ≠ [] := by
        rintro hempty
        simp [hempty] at hmem
      refine ⟨copies, ?_, k, hk, htwo⟩
      rw [List.tail_append_of_ne_nil hlog]
      exact List.mem_append_left _ hmem
  | serve op ops ht hop v hrun => exact h
  | read i r hr op ops ht v hrun =>
    rcases h with ⟨r', hr', htwo⟩ | hlogged
    · left
      rcases List.mem_iff_getElem?.mp hr' with ⟨j, hj⟩
      by_cases hij : i = j
      · subst hij
        obtain rfl : r = r' := Option.some.inj (hr.symm.trans hj)
        refine ⟨_, List.mem_set (List.getElem?_eq_some_iff.mp hr).1 _, ?_⟩
        show 2 ≤ r.taken + Hall.takes op
        omega
      · refine ⟨r', List.mem_of_getElem? (i := j) ?_, htwo⟩
        show (s.readers.set i _)[j]? = some r'
        rw [List.getElem?_set_ne hij, hj]
    · exact Or.inr hlogged

/-! ## The result -/

/-- For every number of readers and every run: if no reader takes a second
permit between two writes of the slot, every reader copies the slot exactly
once between any two writes; and a run that ends with a write has that property
only if no reader did. -/
theorem broadcast_once_iff (n : ℕ) (ls : List Hall.Label) (s : Hall)
    (h : Machine.Run Hall.step (fun _ _ => True) (Hall.init n) ls s) :
    (Machine.Run Hall.step Patient (Hall.init n) ls s → Once n s) ∧
      ((∀ r ∈ s.readers, r.taken = 0) →
        (Once n s ↔ Machine.Run Hall.step Patient (Hall.init n) ls s)) := by
  have hclean : Machine.Run Hall.step Patient (Hall.init n) ls s → Once n s := fun hrun =>
    (hrun.invariant (Single n) Single.init fun _ _ _ hi hok hs => hi.step hok hs).once
  refine ⟨hclean, fun hfresh => ⟨fun honce => ?_, hclean⟩⟩
  rcases h.all_or_bad Patient Twice
      (fun _ _ _ _ _ _ hbad hs => twice_of_impatient hbad hs)
      (fun _ _ _ _ hrun htwice _ hs => twice_step
        (hrun.invariant (Even n) Even.init fun _ _ _ hi _ hs => hi.step hs) htwice hs) with
    hrun | ⟨r, hr, htwo⟩ | ⟨copies, hmem, k, hk, htwo⟩
  · exact hrun.mono fun _ _ hok => hok.2
  · have hzero := hfresh r hr
    omega
  · rw [honce copies hmem] at hk
    have hone := List.eq_of_mem_replicate hk
    omega

/-- A table of `n` clients. -/
def tableOf (n : ℕ) : Server := { Server.init with roster := ⟨[], n⟩ }

/-- A line from client `pid`. -/
def line (pid : Int) : Message :=
  { zeroMessage with categoriyMessage := Kind.messageFromClient.code, fromMessage := pid }

/-- Two broadcasts to two readers; the first reader is faster and takes both
permits of the first one. -/
theorem fast_reader_copies_twice :
    ∃ s, Machine.Run Hall.step (fun _ _ => True) (Hall.init 2)
      (List.flatten [[.call (line 1) (tableOf 2)], List.replicate 7 .serve,
        List.replicate 10 (.read 0), [.call (line 1) (tableOf 2)], List.replicate 4 .serve]) s ∧
      s.log = [[0, 0], [2, 0]] := by
  have hrun : (Machine.exec (Machine.guarded Hall.step fun _ _ => True) (Hall.init 2)
      (List.flatten [[.call (line 1) (tableOf 2)], List.replicate 7 .serve,
        List.replicate 10 (.read 0), [.call (line 1) (tableOf 2)], List.replicate 4 .serve])).map
      Hall.log = some [[0, 0], [2, 0]] := by
    decide +kernel
  rcases Machine.Run.exists_of_exec hrun with ⟨s, hs, hlog⟩
  exact ⟨s, hs, hlog⟩

/-- Two broadcasts to two readers of equal speed. -/
theorem broadcast_once_two_readers :
    ∃ s, Machine.Run Hall.step Patient (Hall.init 2)
      (List.flatten [[.call (line 1) (tableOf 2)], List.replicate 7 .serve,
        List.replicate 5 (.read 0), List.replicate 5 (.read 1),
        [.call (line 1) (tableOf 2)], List.replicate 4 .serve]) s ∧
      Once 2 s ∧ s.log.length = 2 := by
  have hrun : (Machine.exec (Machine.guarded Hall.step Patient) (Hall.init 2)
      (List.flatten [[.call (line 1) (tableOf 2)], List.replicate 7 .serve,
        List.replicate 5 (.read 0), List.replicate 5 (.read 1),
        [.call (line 1) (tableOf 2)], List.replicate 4 .serve])).map
      (fun s => s.log.length) = some 2 := by
    decide +kernel
  rcases Machine.Run.exists_of_exec hrun with ⟨s, hpatient, hlog⟩
  exact ⟨s, hpatient, (broadcast_once_iff 2 _ s (hpatient.mono fun _ _ _ => trivial)).1 hpatient, hlog⟩

end EmbeddedCourse.SharedChat
