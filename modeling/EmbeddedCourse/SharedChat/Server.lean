import EmbeddedCourse.Chat.Lines
import EmbeddedCourse.Chat.Roster
import EmbeddedCourse.Lib.Script

/-! # The shared-memory chat: `library.h` and `server.c`

Clients hand a message to the server through one slot of shared memory and the
server hands its answers to the clients through another; five semaphores order
the accesses. A server iteration takes the message out of the first slot
(`receive`, up to the `fetch`), and what it does after that is a script of
operations that the message and the server's state determine: the rest of
`read_queue` and then `write_queue`.
-/

namespace EmbeddedCourse.SharedChat

open CString Chat Script

/-- The message kinds of `library.h`. -/
inductive Kind where
  | messageFromServer
  | messageFromClient
  | newClient
  | clientLeave
  | loadingMessage
deriving DecidableEq, Repr

/-- The values of the enumeration. -/
def Kind.code : Kind → Int
  | messageFromServer => 1
  | messageFromClient => 2
  | newClient => 3
  | clientLeave => 4
  | loadingMessage => 5

@[simp] theorem Kind.code_inj {a b : Kind} : a.code = b.code ↔ a = b := by
  cases a <;> cases b <;> simp [Kind.code]

/-- `struct message`; `mtext` is `char[256]`. -/
structure Message where
  mtext : Bytes
  fromMessage : Int
  categoriyMessage : Int
  toClient : Int
deriving DecidableEq, Repr

/-- `struct message new_msg = {0}`. -/
def zeroMessage : Message :=
  { mtext := List.replicate 256 0, fromMessage := 0, categoriyMessage := 0, toClient := 0 }

/-- `struct storeMessage`; `none` where a cell was never written. -/
structure StoreMessage where
  message : List (Option Bytes)
  size : ℕ
  capacity : ℕ
deriving DecidableEq, Repr

/-- The roster in shared memory and the server's store. -/
structure Server where
  roster : Roster
  storeMsg : StoreMessage
deriving DecidableEq, Repr

/-- The five semaphores. -/
inductive Sem where
  | server
  | client
  | server2
  | mutex1
  | mutex2
deriving DecidableEq, Repr

instance : Fintype Sem where
  elems := {.server, .client, .server2, .mutex1, .mutex2}
  complete := by
    intro x
    cases x <;> simp

/-- What the server does besides waiting and posting: take the message out of
its slot, put the roster and the store into their new state, put a message into
the clients' slot. -/
inductive Action where
  | fetch
  | assign (s : Server)
  | publish (msg : Message)
deriving DecidableEq, Repr

abbrev ServerOp := Op Sem Action

/-! ## The store -/

namespace StoreMessage

/-- `initStoreMessage`. -/
def init : StoreMessage :=
  { message := List.replicate 10 none, size := 0, capacity := 10 }

/-- The `realloc` of `read_queue`. -/
def grow (st : StoreMessage) : StoreMessage :=
  if st.capacity - 1 ≤ st.size then
    { st with
      message := st.message.takeD (st.capacity * 2) none
      capacity := st.capacity * 2 }
  else st

def push (st : StoreMessage) (line : Bytes) : StoreMessage :=
  { st with message := st.message.set st.size (some line), size := st.size + 1 }

/-- The stored lines, `i` from `0` up to `size`. -/
def entries (st : StoreMessage) : List Bytes :=
  (List.range st.size).map fun i => (st.message.getD i none).getD []

end StoreMessage

/-! ## `read_queue` -/

/-- `strncpy(mtext, line, n)`. What does not fit `mtext[256]` runs over the
fields behind it. -/
def Message.copyText (m : Message) (line : Bytes) (n : ℕ) : Message :=
  if n ≤ 256 then { m with mtext := strncpy m.mtext line n }
  else
    let bytes := line.takeD n 0
    let behind := overlay
      (leBytes 8 m.fromMessage ++ leBytes 4 m.categoriyMessage ++ leBytes 4 m.toClient)
      (bytes.drop 256)
    { mtext := bytes.take 256
      fromMessage := ofLeBytes (behind.take 8)
      categoriyMessage := ofLeBytes ((behind.drop 8).take 4)
      toClient := ofLeBytes (behind.drop 12) }

/-- The cell that `find_name_client` points `read_queue` to. -/
def Server.sender (past : InfoClients) (s : Server) (pid : Int) : InfoClients :=
  cell past s.roster.infCl (findNameClient s.roster.infCl pid s.roster.sizeInfcl)

/-- `read_queue` up to the copy of the slot. -/
def receive : List ServerOp := [.wait .server, .wait .mutex1, .act .fetch, .post .mutex1]

/-- What `read_queue` does on the message it has taken out of the slot, with
`local_msg` and the server's state as it leaves them. -/
def readQueue (past : InfoClients) (msg : Message) (s : Server) :
    List ServerOp × Message × Server :=
  if msg.categoriyMessage = Kind.newClient.code then
    -- a full room returns early, between the wait and the post
    if (sizeClients : Int) ≤ s.roster.sizeInfcl then ([.wait .mutex1], msg, s)
    else
      let name := strncpy (List.replicate 20 0) msg.mtext 19
      let s' := { s with roster := s.roster.append ⟨name, msg.fromMessage⟩ }
      ([.wait .mutex1, .act (.assign s'), .post .mutex1], msg, s')
  else if msg.categoriyMessage = Kind.messageFromClient.code then
    -- the store is the server's own: this branch takes no lock
    let line := chatLine (s.sender past msg.fromMessage).name msg.mtext
    let s' := { s with storeMsg := s.storeMsg.grow.push line }
    ([.act (.assign s')], msg.copyText line line.length, s')
  else if msg.categoriyMessage = Kind.clientLeave.code then
    let idx := findNameClient s.roster.infCl msg.fromMessage s.roster.sizeInfcl
    let s' := { s with roster := s.roster.removeAt past idx }
    ([.wait .mutex1, .act (.assign s'), .post .mutex1],
      { msg with mtext := sprintf msg.mtext (leaveLine (s.sender past msg.fromMessage).name) }, s')
  else ([], msg, s)

/-! ## `write_queue` -/

/-- `sem_wait(sem_server2)`, once for each registered client. -/
def acks (s : Server) : List ServerOp := List.replicate s.roster.sizeInfcl.toNat (.wait .server2)

/-- `*shared_msg = *local_msg` under `mutex2`. -/
def publish (msg : Message) : List ServerOp :=
  [.wait .mutex2, .act (.publish msg), .post .mutex2]

/-- `sem_post(sem_client)`, once for each registered client. -/
def permits (s : Server) : List ServerOp := List.replicate s.roster.sizeInfcl.toNat (.post .client)

/-- The history loop for a newcomer: each stored line with its terminator. -/
def replay (s : Server) : Message → List Bytes → List ServerOp
  | _, [] => []
  | msg, line :: lines =>
    -- the copy takes the terminator along
    let msg' := msg.copyText line (line.length + 1)
    acks s ++ publish msg' ++ permits s ++ replay s msg' lines

/-- `write_queue`. -/
def writeQueue (msg : Message) (s : Server) : List ServerOp :=
  acks s ++
    if msg.categoriyMessage = Kind.newClient.code then
      publish msg ++ permits s ++
        replay s { msg with
          categoriyMessage := Kind.loadingMessage.code
          toClient := msg.fromMessage } s.storeMsg.entries
    else if msg.categoriyMessage = Kind.messageFromClient.code then publish msg ++ permits s
    else if msg.categoriyMessage = Kind.clientLeave.code then
      -- two rounds, the second one with acknowledgements of its own
      publish { msg with categoriyMessage := Kind.messageFromServer.code } ++ permits s ++
        (acks s ++ publish { msg with categoriyMessage := Kind.clientLeave.code } ++ permits s)
    else []

/-- What one iteration of the loop in `main` does after the slot is copied. -/
def answer (past : InfoClients) (msg : Message) (s : Server) : List ServerOp :=
  let r := readQueue past msg s
  r.1 ++ writeQueue r.2.1 r.2.2

/-- The server's state after the operations. -/
def assigned (s : Server) : List ServerOp → Server
  | [] => s
  | .act (.assign s') :: ops => assigned s' ops
  | _ :: ops => assigned s ops

theorem assigned_append (s : Server) (ops ops' : List ServerOp) :
    assigned s (ops ++ ops') = assigned (assigned s ops) ops' := by
  induction ops generalizing s with
  | nil => rfl
  | cons op ops ih =>
    rcases op with x | x | (_ | s' | m) <;> exact ih _

theorem assigned_replicate (s : Server) (n : ℕ) {op : ServerOp}
    (h : ∀ s, assigned s [op] = s) : assigned s (List.replicate n op) = s := by
  induction n with
  | zero => rfl
  | succ n ih => rw [List.replicate_succ', assigned_append, ih, h]

@[simp] theorem assigned_acks (s r : Server) : assigned s (acks r) = s :=
  assigned_replicate s _ fun _ => rfl

@[simp] theorem assigned_publish (s : Server) (msg : Message) : assigned s (publish msg) = s := rfl

@[simp] theorem assigned_permits (s r : Server) : assigned s (permits r) = s :=
  assigned_replicate s _ fun _ => rfl

@[simp] theorem assigned_replay (s r : Server) (msg : Message) (lines : List Bytes) :
    assigned s (replay r msg lines) = s := by
  induction lines generalizing msg with
  | nil => rfl
  | cons line lines ih => simp [replay, assigned_append, ih]

/-- `write_queue` leaves the roster and the store alone. -/
@[simp] theorem assigned_writeQueue (s r : Server) (msg : Message) :
    assigned s (writeQueue msg r) = s := by
  rw [writeQueue, assigned_append, assigned_acks]
  split_ifs <;> simp [assigned_append, assigned]

/-- After an iteration the state is the one that `read_queue` has computed. -/
theorem assigned_answer (past : InfoClients) (msg : Message) (s : Server) :
    assigned s (answer past msg s) = (readQueue past msg s).2.2 := by
  rw [answer, assigned_append, assigned_writeQueue]
  unfold readQueue
  split_ifs <;> rfl

/-- `main` before the loop, on fresh shared memory. -/
def Server.init : Server :=
  { roster := { infCl := List.replicate sizeClients ⟨List.replicate 20 0, 0⟩, sizeInfcl := 0 }
    storeMsg := StoreMessage.init }

end EmbeddedCourse.SharedChat
