import EmbeddedCourse.Echo.Flight

/-! # The echo server and its clients together

One server and any number of clients on the host, each with its terminal. A datagram
comes to every socket that is open and has room for it; which ones have none is not
up to the programs. A client takes its lines from a terminal that stays open.
-/

namespace EmbeddedCourse.Echo

open CString Directory Fields Machine

/-! ## What the exchange is for -/

/-- The answers to the messages of one client, of which `n` have come since its last `CLOSE`. -/
def numbered : ℕ → List Bytes → List Bytes
  | _, [] => []
  | n, msg :: msgs =>
    if msg = closeWord then numbered 0 msgs
    else answer msg (n + 1 : ℕ) :: numbered (n + 1) msgs

/-- What the client on a port says. -/
def textsOf (port : UInt16) (msgs : List (UInt16 × Bytes)) : List Bytes :=
  (msgs.filter fun m => m.1 = port).map Prod.snd

/-- The answers to the client on a port. -/
def repliesTo (port : UInt16) (msgs : List (UInt16 × Bytes)) : List Bytes :=
  numbered 0 (textsOf port msgs)

/-! ## The programs -/

/-- A client: its port, what is typed but not read, the datagrams at its socket, what
it has sent, and what it has shown. -/
structure Terminal where
  port : UInt16
  stdin : Bytes
  inbox : List Bytes
  isOpen : Bool
  typed : List Bytes
  printed : List Bytes
deriving DecidableEq, Repr

/-- The server, the datagrams at its socket, and the messages in the order in which they were sent. -/
structure System where
  server : Server
  inbox : List Bytes
  terminals : List Terminal
  sent : List (UInt16 × Bytes)
deriving DecidableEq, Repr

/-- What happens: a client has something to read from its terminal or from its socket,
or the server from its own. `hdr` is the header that the kernel puts in front, `missed`
are the sockets without room, of which 0 is that of the server. -/
inductive Event where
  | funcSend (i : ℕ) (stale hdr : Bytes) (missed : List ℕ)
  | funcRead (i : ℕ)
  | serve (hdr : Bytes) (missed : List ℕ)
deriving DecidableEq, Repr

def Event.missed : Event → List ℕ
  | .funcSend _ _ _ missed | .serve _ missed => missed
  | .funcRead _ => []

/-- The header is one of the kernel's. -/
def Event.fromHere : Event → Prop
  | .funcSend _ _ hdr _ | .serve hdr _ => Local hdr
  | .funcRead _ => True

instance : (e : Event) → Decidable e.fromHere
  | .funcSend _ _ hdr _ => inferInstanceAs (Decidable (Local hdr))
  | .serve hdr _ => inferInstanceAs (Decidable (Local hdr))
  | .funcRead _ => inferInstanceAs (Decidable True)

/-- A datagram comes to the socket of a client. -/
def Terminal.receive (t : Terminal) (d : Bytes) : Terminal :=
  if t.isOpen then { t with inbox := t.inbox ++ [d] } else t

namespace System

/-- A datagram comes to the sockets. -/
def post (s : System) (d : Bytes) (missed : List ℕ) : System :=
  { s with
    inbox := if 0 ∈ missed then s.inbox else s.inbox ++ [d]
    terminals := s.terminals.mapIdx fun i t => if i + 1 ∈ missed then t else t.receive d }

/-- A pass of the loop in `main` of the client, for the terminal or for the socket, and
one of that in `main` of the server. An access outside an array has no result. -/
def step (s : System) : Event → Option System
  | .funcSend i stale hdr missed =>
    s.terminals[i]?.bind fun t =>
      if t.isOpen ∧ t.stdin ≠ [] then
        (Echo.funcSend t.port stale t.stdin).map fun (packet, rest, done) =>
          let msg := packet.drop 8
          let t := { t with stdin := rest, isOpen := !done, typed := t.typed ++ [msg] }
          { s with
            terminals := s.terminals.set i t
            sent := s.sent ++ [(t.port, msg)] }.post (hdr ++ packet) missed
      else none
  | .funcRead i =>
    s.terminals[i]?.bind fun t =>
      match t.isOpen, t.inbox with
      | true, d :: inbox =>
        (Echo.funcRead t.port d).map fun shown =>
          { s with
            terminals :=
              s.terminals.set i { t with inbox := inbox, printed := t.printed ++ shown.toList } }
      | _, _ => none
  | .serve hdr missed =>
    match s.inbox with
    | [] => none
    | d :: inbox =>
      (Echo.serve s.server d).map fun (server, reply) =>
        let s := { s with server := server, inbox := inbox }
        match reply with
        | none => s
        | some reply => s.post (hdr ++ reply.packet) missed

/-- Nothing is sent yet; `users` are the ports and the lines that will be typed. -/
def init (buffer : Bytes) (users : List (UInt16 × List Bytes)) : System :=
  { server := Server.init buffer
    inbox := []
    terminals := users.map fun u =>
      { port := u.1
        stdin := u.2.flatMap fun l => l ++ [10]
        inbox := []
        isOpen := true
        typed := []
        printed := [] }
    sent := [] }

/-- All that is left is to wait for somebody to type. -/
def Idle (s : System) : Prop :=
  s.inbox = [] ∧ ∀ t ∈ s.terminals, t.isOpen = true → t.inbox = [] ∧ t.stdin = []

instance (s : System) : Decidable s.Idle := inferInstanceAs (Decidable (_ ∧ _))

end System

/-! ## A step -/

namespace Terminal

/-- A line has been read and sent. -/
def say (t : Terminal) (l rest : Bytes) : Terminal :=
  { t with stdin := rest, isOpen := !decide (l = closeWord), typed := t.typed ++ [l] }

/-- A datagram has been read, and `shown` is what it makes the client show. -/
def print (t : Terminal) (inbox : List Bytes) (shown : Option Bytes) : Terminal :=
  { t with inbox := inbox, printed := t.printed ++ shown.toList }

end Terminal

namespace System

variable {s s' : System} {i : ℕ} {stale hdr d : Bytes} {missed : List ℕ}

theorem step_funcRead (h : s.step (.funcRead i) = some s') :
    ∃ t d inbox shown, s.terminals[i]? = some t ∧ t.isOpen = true ∧ t.inbox = d :: inbox ∧
      Echo.funcRead t.port d = some shown ∧
      s' = { s with terminals := s.terminals.set i (t.print inbox shown) } := by
  rcases Option.bind_eq_some_iff.mp h with ⟨t, ht, hs⟩
  split at hs
  · rename_i hopen hinbox
    rcases Option.map_eq_some_iff.mp hs with ⟨shown, hshown, rfl⟩
    exact ⟨t, _, _, shown, ht, hopen, hinbox, hshown, rfl⟩
  · cases hs

theorem step_serve (h : s.step (.serve hdr missed) = some s') :
    ∃ d inbox server reply, s.inbox = d :: inbox ∧ Echo.serve s.server d = some (server, reply) ∧
      s' = match reply with
        | none => { s with server := server, inbox := inbox }
        | some reply =>
          ({ s with server := server, inbox := inbox } : System).post (hdr ++ reply.packet) missed := by
  rw [step] at h
  split at h
  · cases h
  · rename_i d inbox hinbox
    rcases Option.map_eq_some_iff.mp h with ⟨⟨server, reply⟩, hserve, rfl⟩
    refine ⟨d, inbox, server, reply, hinbox, hserve, ?_⟩
    cases reply <;> rfl

/-- What a line of up to 1022 bytes at the start of the input does. -/
theorem step_funcSend {t : Terminal} {l rest : Bytes} (ht : s.terminals[i]? = some t)
    (hopen : t.isOpen = true) (hl : Typed l) (hlen : l.length ≤ 1022) (hstdin : t.stdin = l ++ 10 :: rest) :
    s.step (.funcSend i stale hdr missed) =
      some (({ s with
        terminals := s.terminals.set i (t.say l rest)
        sent := s.sent ++ [(t.port, l)] } : System).post (hdr ++ clientPacket t.port l) missed) := by
  have hne : t.stdin ≠ [] := by
    rw [hstdin]
    simp
  rw [step, ht, Option.bind_some, if_pos ⟨hopen, hne⟩, hstdin, funcSend_whole t.port hl hlen]
  rfl

end System

/-- A run of the server and the clients, with the headers of the kernel. -/
abbrev SystemRun (buffer : Bytes) (users : List (UInt16 × List Bytes)) :=
  Run System.step (fun _ e => e.fromHere) (System.init buffer users)

end EmbeddedCourse.Echo
