import EmbeddedCourse.Lib.Run
import EmbeddedCourse.SharedChat.Client

/-! # The shared-memory chat as one system

The server and any number of clients, each client with its two threads, and one
operation of one thread at a time. Beside the program's own state the system
keeps histories: all messages ever written to the server's slot (`sent`), what
each `fetch` has read, with the index of the write it has read (`got`),
`local_msg` and the server's state as each `read_queue` leaves them
(`handled`), and what cancelled threads had still to do (`cancelled`).
-/

namespace EmbeddedCourse.SharedChat

open CString Chat Script Client

/-- A client process: what its two threads still have to do, and whether it has
typed `exit`. -/
structure Process where
  pid : Int
  writer : List ClientOp
  reader : List ClientOp
  left : Bool
deriving DecidableEq, Repr

structure System where
  sem : Sems Sem
  server : Server
  todo : List ServerOp
  inbox : Message
  outbox : Message
  clients : List Process
  sent : List Message
  got : List (ℕ × Message)
  handled : List (Message × Server)
  cancelled : List (List ClientOp)

/-- The steps, by the thread that takes one. -/
inductive Label where
  | start (pid : Int) (name : Bytes)
  | type (i : ℕ) (typed : Bytes)
  | write (i : ℕ)
  | read (i : ℕ)
  | cancel (i : ℕ)
  | serve (past : InfoClients)
deriving DecidableEq, Repr

namespace System

/-- The semaphores as the server opens them. -/
def initSem : Sems Sem
  | .mutex1 | .mutex2 => 1
  | _ => 0

def init : System :=
  { sem := initSem
    server := Server.init
    todo := receive
    inbox := zeroMessage
    outbox := zeroMessage
    clients := []
    sent := []
    got := []
    handled := []
    cancelled := [] }

/-- Replace client `i`. -/
def setClient (s : System) (i : ℕ) (c : Process) : System :=
  { s with clients := s.clients.set i c }

/-- The clients' slot after an operation of the server. -/
def shown (outbox : Message) : ServerOp → Message
  | .act (.publish msg) => msg
  | _ => outbox

/-- The server's next operation; after the last one the loop starts again. -/
def serve (s : System) (past : InfoClients) : Option System :=
  match s.todo with
  | [] => none
  | .act .fetch :: ops =>
    -- what the iteration does from here on is fixed by what stands in the slot
    some { s with
      todo := ops ++ answer past s.inbox s.server
      got := s.got ++ [(s.sent.length - 1, s.inbox)]
      handled := s.handled ++ [(readQueue past s.inbox s.server).2] }
  | op :: ops =>
    (run s.sem op).map fun v =>
      { s with
        sem := v
        server := assigned s.server [op]
        outbox := shown s.outbox op
        todo := refill receive ops }

/-- The next operation of a client's writing thread. -/
def write (s : System) (i : ℕ) (c : Process) : Option System :=
  match c.writer with
  | [] => none
  | .act (.write msg) :: ops =>
    some { s.setClient i { c with writer := ops } with inbox := msg, sent := s.sent ++ [msg] }
  | op :: ops =>
    (run s.sem op).map fun v => { s.setClient i { c with writer := ops } with sem := v }

/-- The next operation of a client's reading thread. -/
def read (s : System) (i : ℕ) (c : Process) : Option System :=
  match c.reader with
  | [] => none
  | op :: ops =>
    (run s.sem op).map fun v =>
      { s.setClient i { c with reader := refill Client.readQueue ops } with sem := v }

def step (s : System) : Label → Option System
  | .start pid name =>
    -- a process id is positive and not in use: earlier processes with it have ended
    if 0 < pid ∧ ∀ c ∈ s.clients, c.pid = pid → c.left ∧ c.reader = [] then
      some { s with
        clients := s.clients ++ [⟨pid, join (newClient pid name), Client.readQueue, false⟩] }
    else none
  | .type i typed =>
    match s.clients[i]? with
    | none => none
    | some c =>
      if c.writer = [] ∧ ¬ c.left then
        let input := inputLine typed
        if input = exitWord then
          some (s.setClient i { c with writer := send (leaveMessage c.pid), left := true })
        else if input ≠ [] then
          some (s.setClient i { c with writer := send (chatMessage c.pid input) })
        else some s
      else none
  | .write i =>
    match s.clients[i]? with
    | none => none
    | some c => s.write i c
  | .read i =>
    match s.clients[i]? with
    | none => none
    | some c => s.read i c
  | .cancel i =>
    -- `main` cancels the reading thread when the writing one has ended
    match s.clients[i]? with
    | none => none
    | some c =>
      if c.left ∧ c.writer = [] then
        some { s.setClient i { c with reader := [] } with cancelled := s.cancelled ++ [c.reader] }
      else none
  | .serve past => s.serve past

/-- What a step of the system can be. -/
inductive Step (s : System) : Label → System → Prop where
  | start (pid : Int) (name : Bytes)
      (fresh : ∀ c ∈ s.clients, c.pid = pid → c.left ∧ c.reader = []) :
      Step s (.start pid name) { s with
        clients := s.clients ++ [⟨pid, join (newClient pid name), Client.readQueue, false⟩] }
  | exit (i : ℕ) (typed : Bytes) (c : Process) (hc : s.clients[i]? = some c) (idle : c.writer = []) :
      Step s (.type i typed)
        (s.setClient i { c with writer := send (leaveMessage c.pid), left := true })
  | chat (i : ℕ) (typed : Bytes) (c : Process) (hc : s.clients[i]? = some c) (idle : c.writer = []) :
      Step s (.type i typed)
        (s.setClient i { c with writer := send (chatMessage c.pid (inputLine typed)) })
  | empty (i : ℕ) (typed : Bytes) : Step s (.type i typed) s
  | put (i : ℕ) (c : Process) (hc : s.clients[i]? = some c) (msg : Message) (ops : List ClientOp)
      (hw : c.writer = .act (.write msg) :: ops) :
      Step s (.write i)
        { s.setClient i { c with writer := ops } with inbox := msg, sent := s.sent ++ [msg] }
  | write (i : ℕ) (c : Process) (hc : s.clients[i]? = some c) (op : ClientOp) (ops : List ClientOp)
      (hw : c.writer = op :: ops) (hop : ∀ msg, op ≠ .act (.write msg)) (v : Sems Sem)
      (hrun : run s.sem op = some v) :
      Step s (.write i) { s.setClient i { c with writer := ops } with sem := v }
  | read (i : ℕ) (c : Process) (hc : s.clients[i]? = some c) (op : ClientOp) (ops : List ClientOp)
      (hr : c.reader = op :: ops) (v : Sems Sem) (hrun : run s.sem op = some v) :
      Step s (.read i)
        { s.setClient i { c with reader := refill Client.readQueue ops } with sem := v }
  | cancel (i : ℕ) (c : Process) (hc : s.clients[i]? = some c) (hleft : c.left)
      (hdone : c.writer = []) :
      Step s (.cancel i)
        { s.setClient i { c with reader := [] } with cancelled := s.cancelled ++ [c.reader] }
  | fetch (past : InfoClients) (ops : List ServerOp) (ht : s.todo = .act .fetch :: ops) :
      Step s (.serve past) { s with
        todo := ops ++ answer past s.inbox s.server
        got := s.got ++ [(s.sent.length - 1, s.inbox)]
        handled := s.handled ++ [(readQueue past s.inbox s.server).2] }
  | serve (past : InfoClients) (op : ServerOp) (ops : List ServerOp) (ht : s.todo = op :: ops)
      (hop : op ≠ .act .fetch) (v : Sems Sem) (hrun : run s.sem op = some v) :
      Step s (.serve past) { s with
        sem := v
        server := assigned s.server [op]
        outbox := shown s.outbox op
        todo := refill receive ops }

theorem serve_inv {s s' : System} {past : InfoClients} (h : s.serve past = some s') :
    Step s (.serve past) s' := by
  unfold System.serve at h
  split at h
  · exact absurd h (by simp)
  · next ops ht =>
    obtain rfl := Option.some.inj h
    exact .fetch past ops ht
  · next op ops hop ht =>
    rcases Option.map_eq_some_iff.mp h with ⟨v, hrun, rfl⟩
    exact .serve past op ops ht (fun he => hop he) v hrun

theorem write_inv {s s' : System} {i : ℕ} {c : Process} (hc : s.clients[i]? = some c)
    (h : s.write i c = some s') : Step s (.write i) s' := by
  unfold System.write at h
  split at h
  · exact absurd h (by simp)
  · next msg ops hw =>
    obtain rfl := Option.some.inj h
    exact .put i c hc msg ops hw
  · next op ops hop hw =>
    rcases Option.map_eq_some_iff.mp h with ⟨v, hrun, rfl⟩
    exact .write i c hc op ops hw (fun msg he => hop msg he) v hrun

theorem read_inv {s s' : System} {i : ℕ} {c : Process} (hc : s.clients[i]? = some c)
    (h : s.read i c = some s') : Step s (.read i) s' := by
  unfold System.read at h
  split at h
  · exact absurd h (by simp)
  · next op ops hr =>
    rcases Option.map_eq_some_iff.mp h with ⟨v, hrun, rfl⟩
    exact .read i c hc op ops hr v hrun

/-- The kinds of steps are all. -/
theorem step_inv {s s' : System} {l : Label} (h : s.step l = some s') : Step s l s' := by
  cases l with
  | start pid name =>
    simp only [System.step] at h
    split_ifs at h with hpid
    obtain rfl := Option.some.inj h
    exact .start pid name hpid.2
  | type i typed =>
    simp only [System.step] at h
    split at h
    · exact absurd h (by simp)
    · next c hc =>
      split_ifs at h with hidle hexit hempty
      · obtain rfl := Option.some.inj h
        exact .exit i typed c hc hidle.1
      · obtain rfl := Option.some.inj h
        exact .chat i typed c hc hidle.1
      · obtain rfl := Option.some.inj h
        exact .empty i typed
  | write i =>
    simp only [System.step] at h
    split at h
    · exact absurd h (by simp)
    · next c hc => exact write_inv hc h
  | read i =>
    simp only [System.step] at h
    split at h
    · exact absurd h (by simp)
    · next c hc => exact read_inv hc h
  | cancel i =>
    simp only [System.step] at h
    split at h
    · exact absurd h (by simp)
    · next c hc =>
      split_ifs at h with hleft
      obtain rfl := Option.some.inj h
      exact .cancel i c hc hleft.1 hleft.2
  | serve past => exact serve_inv h

end System

end EmbeddedCourse.SharedChat
