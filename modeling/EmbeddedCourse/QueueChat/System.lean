import EmbeddedCourse.QueueChat.Client
import EmbeddedCourse.Lib.Run

/-! # The message-queue chat as one system

The server, the two queues and all clients, one step at a time: a client
starts (its `NEW_CLIENT` goes to queue 0), a client's user types a line, the
server runs one iteration on the head of queue 0, or a client receives its next
message from queue 1. Sends always succeed and queues are unbounded.
-/

namespace EmbeddedCourse.QueueChat

open CString Chat Mailbox Client

/-- One client process: `local_msg` of `write_queue`, the local roster of
`read_queue`, and its status. -/
structure Process where
  localMsg : Message
  roster : Roster
  status : Status
deriving DecidableEq, Repr

structure System where
  server : Server
  queue0 : List Message
  queue1 : List Message
  client : Int → Process

/-- The steps, with the arbitrary value of reads outside a table where one can
happen. -/
inductive Label where
  | start (pid : Int) (name : Bytes)
  | type (pid : Int) (typed : Bytes)
  | serve (past : InfoClients)
  | deliver (pid : Int) (past : InfoClients)
deriving DecidableEq, Repr

namespace System

def init (junk : Fin sizeClients → InfoClients) : System :=
  { server := Server.init junk
    queue0 := []
    queue1 := []
    client := fun _ => ⟨zeroMessage, zeroRoster, .notStarted⟩ }

/-- Replace the process of client `pid`. -/
def setClient (s : System) (pid : Int) (c : Process) : System :=
  { s with client := Function.update s.client pid c }

/-- Client `pid` puts `msg`, its `local_msg` from now on, on queue 0. -/
def post (s : System) (pid : Int) (msg : Message) (status : Status) : System :=
  { s.setClient pid { s.client pid with localMsg := msg, status := status } with
    queue0 := s.queue0 ++ [msg] }

def step (s : System) : Label → Option System
  | .start pid name =>
    -- a process id is positive and not in use
    if 0 < pid ∧ (s.client pid).status = .notStarted then
      some (s.post pid (newClient pid (s.client pid).localMsg name) .running)
    else none
  | .type pid typed =>
    if (s.client pid).status = .running then
      let input := inputLine typed
      -- `exit` ends the writing thread; an empty line sends nothing
      if input = exitWord then some (s.post pid (leaveMessage pid (s.client pid).localMsg) .left)
      else if input ≠ [] then
        some (s.post pid (chatMessage pid (s.client pid).localMsg input) .running)
      else some s
    else none
  | .serve past =>
    match s.queue0 with
    | [] => none
    | msg :: rest =>
      let r := iteration past msg s.server
      some { s with server := r.1, queue0 := rest, queue1 := s.queue1 ++ r.2 }
  | .deliver pid past =>
    match receive Message.mtype pid s.queue1 with
    | none => none
    | some (msg, rest) =>
      -- a client that has left may read on until its reading thread is cancelled
      if (s.client pid).status = .notStarted then none
      else
        let c := s.client pid
        some { s.setClient pid { c with roster := Client.readQueue past msg c.roster } with queue1 := rest }

end System

end EmbeddedCourse.QueueChat
