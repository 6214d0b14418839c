import EmbeddedCourse.QueueChat.Server

/-! # The message-queue chat: `client.c`

A client runs two threads. `read_queue` takes the messages of type `pid` from
queue 1 and keeps a local copy of the roster; `write_queue` announces the
client on queue 0, then turns each line typed into a message, and ends on
`exit`. `main` cancels the reading thread when the writing one has ended.
-/

namespace EmbeddedCourse.QueueChat.Client

open CString Chat

/-- `read_queue`: one message received, on the local `(infCl, sizeInfcl)`. The
chat window and the user list on the screen are not part of the state. -/
def readQueue (past : InfoClients) (msg : Message) (r : Roster) : Roster :=
  if msg.categoriyMessage = Kind.newClient.code then
    -- no `memset` here: byte 20 stays what it was
    let old := cell past r.infCl r.sizeInfcl
    r.append ⟨strncpy old.name msg.mtext 19, msg.fromMessage⟩
  else if msg.categoriyMessage = Kind.messageFromClient.code ∨
      msg.categoriyMessage = Kind.messageFromServer.code then r
  else if msg.categoriyMessage = Kind.clientLeave.code then
    r.removeAt past (findNameClient r.infCl msg.fromMessage r.sizeInfcl)
  else r

/-- The messages of a feed, in order, each with the value that reads outside
the local table yield. -/
def readAll (r : Roster) (feed : List (Message × InfoClients)) : Roster :=
  feed.foldl (fun r e => readQueue e.2 e.1 r) r

/-- `{0}`. -/
def zeroRoster : Roster :=
  { infCl := List.replicate sizeClients ⟨List.replicate 20 0, 0⟩, sizeInfcl := 0 }

/-- `struct message local_msg = {0}`. -/
def zeroMessage : Message :=
  { mtype := 0, mtext := List.replicate 256 0, fromMessage := 0, categoriyMessage := 0 }

/-- `new_client`. -/
def newClient (pid : Int) (msg : Message) (name : Bytes) : Message :=
  { mtype := Kind.newClient.code
    categoriyMessage := Kind.newClient.code
    fromMessage := pid
    mtext := (strncpy msg.mtext name 255).set 255 0 }

/-- Whether a client has been started and whether its threads still run. -/
inductive Status where
  | notStarted
  | running
  | left
deriving DecidableEq, Repr

/-- The leave message: `strncpy(mtext, input, 5)`; the category of the last
message stays. -/
def leaveMessage (pid : Int) (msg : Message) : Message :=
  { msg with
    mtext := strncpy msg.mtext exitWord 5
    mtype := Kind.clientLeave.code
    fromMessage := pid }

/-- A chat message. -/
def chatMessage (pid : Int) (msg : Message) (input : Bytes) : Message :=
  { mtext := (strncpy msg.mtext input 255).set 255 0
    mtype := Kind.messageFromClient.code
    categoriyMessage := Kind.messageFromClient.code
    fromMessage := pid }

end EmbeddedCourse.QueueChat.Client
