import EmbeddedCourse.SharedChat.Server

/-! # The shared-memory chat: `client.c`

The writing thread puts one message after the other into the server's slot, the
reading thread copies the clients' slot once for each permit it gets and
acknowledges. What the reading thread shows on the screen is not part of the
model.
-/

namespace EmbeddedCourse.SharedChat.Client

open CString Chat Script

/-- Put a message into the server's slot; copy the clients' slot. -/
inductive Action where
  | write (msg : Message)
  | copy
deriving DecidableEq, Repr

abbrev ClientOp := Op Sem Action

/-- The loop of `read_queue`. -/
def readQueue : List ClientOp :=
  [.wait .client, .wait .mutex2, .act .copy, .post .mutex2, .post .server2]

/-- `new_client` on `new_msg = {0}`. -/
def newClient (pid : Int) (name : Bytes) : Message :=
  { zeroMessage with
    categoriyMessage := Kind.newClient.code
    fromMessage := pid
    mtext := (strncpy zeroMessage.mtext name 255).set 255 0 }

/-- The message of `exit`. -/
def leaveMessage (pid : Int) : Message :=
  { zeroMessage with
    mtext := strncpy zeroMessage.mtext exitWord 5
    categoriyMessage := Kind.clientLeave.code
    fromMessage := pid }

/-- The message of a line. -/
def chatMessage (pid : Int) (input : Bytes) : Message :=
  { zeroMessage with
    mtext := (strncpy zeroMessage.mtext input 255).set 255 0
    categoriyMessage := Kind.messageFromClient.code
    fromMessage := pid }

/-- The first message of `write_queue`, with the extra post for the own reader. -/
def join (msg : Message) : List ClientOp :=
  [.wait .mutex1, .act (.write msg), .post .mutex1, .post .server2, .post .server]

/-- Every later message of `write_queue`. -/
def send (msg : Message) : List ClientOp :=
  [.wait .mutex1, .act (.write msg), .post .mutex1, .post .server]

end EmbeddedCourse.SharedChat.Client
