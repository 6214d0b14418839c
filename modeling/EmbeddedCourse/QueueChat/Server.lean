import EmbeddedCourse.Chat.Lines
import EmbeddedCourse.Chat.Roster
import EmbeddedCourse.Lib.Mailbox

/-! # The message-queue chat: `library.h` and `server.c`

Clients send to the server on queue 0, where `mtype` says what kind of message
it is; the server sends to the clients on queue 1, where `mtype` is the pid of
the receiver. One server iteration receives one message (`readQueue`: update
the roster or the store) and answers it (`writeQueue`: the list of messages put
on queue 1, in order). The one `struct message` of `main` is passed through
both, and `writeQueue` keeps rewriting it between two sends, so what a message
carries depends on what the earlier ones left in the buffer.
-/

namespace EmbeddedCourse.QueueChat

open CString Chat

/-- The message kinds of `library.h`. -/
inductive Kind where
  | messageFromServer
  | messageFromClient
  | newClient
  | clientLeave
deriving DecidableEq, Repr

/-- The values of the enumeration. -/
def Kind.code : Kind → Int
  | messageFromServer => 1
  | messageFromClient => 2
  | newClient => 3
  | clientLeave => 4

@[simp] theorem Kind.code_inj {a b : Kind} : a.code = b.code ↔ a = b := by
  cases a <;> cases b <;> simp [Kind.code]

/-- `struct message`; `mtext` is `char[256]`. -/
structure Message where
  mtype : Int
  mtext : Bytes
  fromMessage : Int
  categoriyMessage : Int
deriving DecidableEq, Repr

/-- `struct storeMessage`: two arrays of `capacity` cells, `none` where a cell
was never written. -/
structure StoreMessage where
  message : List (Option Bytes)
  fromMessage : List (Option Int)
  size : ℕ
  capacity : ℕ
deriving DecidableEq, Repr

/-- The server's roster and store. -/
structure Server where
  roster : Roster
  storeMsg : StoreMessage
deriving DecidableEq, Repr

/-! ## The store -/

namespace StoreMessage

/-- `initStoreMessage`: ten cells from `malloc` and ten zeros from `calloc`. -/
def init : StoreMessage :=
  { message := List.replicate 10 none
    fromMessage := List.replicate 10 (some 0)
    size := 0
    capacity := 10 }

/-- The two `realloc`s of `read_queue`: twice the cells, the old ones kept. -/
def grow (st : StoreMessage) : StoreMessage :=
  if st.capacity - 1 ≤ st.size then
    { st with
      message := st.message.takeD (st.capacity * 2) none
      fromMessage := st.fromMessage.takeD (st.capacity * 2) none
      capacity := st.capacity * 2 }
  else st

/-- Write both cells at `size` and count. -/
def push (st : StoreMessage) (line : Bytes) (from_ : Int) : StoreMessage :=
  { st with
    message := st.message.set st.size (some line)
    fromMessage := st.fromMessage.set st.size (some from_)
    size := st.size + 1 }

/-- The line and the sender at index `i`. -/
def entry (st : StoreMessage) (i : ℕ) : Bytes × Int :=
  ((st.message.getD i none).getD [], (st.fromMessage.getD i none).getD 0)

/-- The stored lines, `i` from `0` up to `size`. -/
def entries (st : StoreMessage) : List (Bytes × Int) := (List.range st.size).map st.entry

end StoreMessage

/-! ## `read_queue` -/

/-- `strncpy(mtext, line, strlen(line))`. A line longer than `mtext[256]` runs
over `from_message` and `categoriy_message`, which stand behind it. -/
def Message.copyText (m : Message) (line : Bytes) : Message :=
  if line.length ≤ 256 then { m with mtext := strncpy m.mtext line line.length }
  else
    let behind := overlay (leBytes 8 m.fromMessage ++ leBytes 4 m.categoriyMessage) (line.drop 256)
    { m with
      mtext := line.take 256
      fromMessage := ofLeBytes (behind.take 8)
      categoriyMessage := ofLeBytes (behind.drop 8) }

/-- The cell that `find_name_client` points `read_queue` to. -/
def Server.sender (past : InfoClients) (s : Server) (pid : Int) : InfoClients :=
  cell past s.roster.infCl (findNameClient s.roster.infCl pid s.roster.sizeInfcl)

/-- `read_queue` after `msgrcv` has filled `local_msg` with `msg`. -/
def readQueue (past : InfoClients) (msg : Message) (s : Server) : Message × Server :=
  if msg.mtype = Kind.newClient.code then
    -- a full room returns early, before the table is touched
    if (sizeClients : Int) ≤ s.roster.sizeInfcl then (msg, s)
    else
      -- `memset` before `strncpy`: the name ends within its 20 bytes
      let name := strncpy (List.replicate 20 0) msg.mtext 19
      (msg, { s with roster := s.roster.append ⟨name, msg.fromMessage⟩ })
  else if msg.mtype = Kind.messageFromClient.code then
    -- the line goes to the store and, without its terminator, back to the buffer
    let line := chatLine (s.sender past msg.fromMessage).name msg.mtext
    (msg.copyText line, { s with storeMsg := s.storeMsg.grow.push line msg.fromMessage })
  else if msg.mtype = Kind.clientLeave.code then
    let idx := findNameClient s.roster.infCl msg.fromMessage s.roster.sizeInfcl
    -- the notice is written before the table is shifted
    ({ msg with mtext := sprintf msg.mtext (leaveLine (s.sender past msg.fromMessage).name) },
      { s with roster := s.roster.removeAt past idx })
  else (msg, s)

section

variable {msg : Message} {s : Server}

theorem readQueue_join (past : InfoClients) (kind : msg.mtype = Kind.newClient.code)
    (hroom : s.roster.sizeInfcl < sizeClients) :
    readQueue past msg s =
      (msg, { s with
        roster := s.roster.append ⟨strncpy (List.replicate 20 0) msg.mtext 19, msg.fromMessage⟩ }) := by
  rw [readQueue, if_pos kind, if_neg (by omega)]

theorem readQueue_full (past : InfoClients) (kind : msg.mtype = Kind.newClient.code)
    (hfull : (sizeClients : Int) ≤ s.roster.sizeInfcl) : readQueue past msg s = (msg, s) := by
  rw [readQueue, if_pos kind, if_pos hfull]

theorem readQueue_chat (past : InfoClients) (kind : msg.mtype = Kind.messageFromClient.code) :
    readQueue past msg s =
      (msg.copyText (chatLine (s.sender past msg.fromMessage).name msg.mtext),
        { s with
          storeMsg := s.storeMsg.grow.push
            (chatLine (s.sender past msg.fromMessage).name msg.mtext) msg.fromMessage }) := by
  simp [readQueue, kind]

theorem readQueue_leave (past : InfoClients) (kind : msg.mtype = Kind.clientLeave.code) :
    readQueue past msg s =
      ({ msg with mtext := sprintf msg.mtext (leaveLine (s.sender past msg.fromMessage).name) },
        { s with
          roster := s.roster.removeAt past
            (findNameClient s.roster.infCl msg.fromMessage s.roster.sizeInfcl) }) := by
  simp [readQueue, kind]

end

/-! ## `write_queue` -/

/-- One `msgsnd` to each of the clients, only `mtype` rewritten in between. -/
def sendEach (msg : Message) (cs : List InfoClients) : List Message :=
  cs.map fun c => { msg with mtype := c.pid }

/-- A loop that rewrites `local_msg` with `f` and sends it, once for each item;
returns `local_msg` as the loop leaves it and the messages sent. -/
def sendLoop {α : Type} (f : Message → α → Message) : Message → List α → Message × List Message
  | msg, [] => (msg, [])
  | msg, a :: as => ((sendLoop f (f msg a) as).1, f msg a :: (sendLoop f (f msg a) as).2)

/-- One round of the roster loop for a newcomer. -/
def putMember (msg : Message) (c : InfoClients) : Message :=
  { msg with mtext := strncpy msg.mtext c.name 19, fromMessage := c.pid }

/-- One round of the history loop: `strlen` bytes, no terminator. -/
def putLine (msg : Message) (e : Bytes × Int) : Message :=
  { msg.copyText e.1 with fromMessage := e.2 }

/-- `write_queue`: the messages put on queue 1. -/
def writeQueue (msg : Message) (s : Server) : List Message :=
  let cs := s.roster.cells
  if msg.mtype = Kind.newClient.code then
    let notice := { msg with categoriyMessage := Kind.newClient.code }
    -- the loop passes over the newcomer, unless it is alone
    let others := cs.filter fun c => ¬ (msg.fromMessage = c.pid ∧ 1 < s.roster.sizeInfcl)
    let toNew := { notice with mtype := msg.fromMessage }
    let members := sendLoop putMember toNew (if 1 < s.roster.sizeInfcl then cs else [])
    -- the buffer goes on as the roster loop leaves it
    let history := { members.1 with categoriyMessage := Kind.messageFromClient.code }
    sendEach notice others ++ members.2 ++ (sendLoop putLine history s.storeMsg.entries).2
  else if msg.mtype = Kind.messageFromClient.code then
    sendEach { msg with categoriyMessage := Kind.messageFromClient.code } cs
  else if msg.mtype = Kind.clientLeave.code then
    -- a text for the chat window, then the notice that changes the tables
    sendEach { msg with categoriyMessage := Kind.messageFromServer.code } cs ++
      sendEach { msg with categoriyMessage := Kind.clientLeave.code } cs
  else []

/-! ## The main loop -/

/-- One iteration of the loop in `main` on the message `msg`: the new server
state and what went to queue 1. -/
def iteration (past : InfoClients) (msg : Message) (s : Server) : Server × List Message :=
  let r := readQueue past msg s
  (r.2, writeQueue r.1 r.2)

/-- `main` before the loop; `infCl` is not initialised. -/
def Server.init (junk : Fin sizeClients → InfoClients) : Server :=
  { roster := { infCl := List.ofFn junk, sizeInfcl := 0 }, storeMsg := StoreMessage.init }

/-- The loop over a list of received messages, each with the value that reads
outside the table yield during its iteration. -/
def serve (s : Server) : List (Message × InfoClients) → Server × List Message
  | [] => (s, [])
  | (msg, past) :: rest =>
    let r := iteration past msg s
    ((serve r.1 rest).1, r.2 ++ (serve r.1 rest).2)

end EmbeddedCourse.QueueChat
