import EmbeddedCourse.Lib.Fields

/-! # The echo server: `Final_Task1/echo_server.c`

A raw socket delivers UDP datagrams with their IP header. The server finds the
UDP header and the text behind it, counts the messages of each client in a
table, and answers with the text and the number. An access outside an array has
no result. The host is little-endian.
-/

namespace EmbeddedCourse.Echo

open CString Fields

/-- `MAX_BUF`. -/
def maxBuf : ℕ := 4096

/-- `MAX_CLIENTS`. -/
def maxClients : ℕ := 100

/-- The port of the server. -/
def serverPort : UInt16 := 7777

/-- `"CLOSE"`. -/
def closeWord : Bytes := ascii ['C', 'L', 'O', 'S', 'E']

/-! ## The headers -/

/-- `ip->ihl * 4`, where the UDP header begins. -/
def udpAt (buffer : Bytes) : ℕ := (buffer.getD 0 0).toNat % 16 * 4

/-- The `uint32_t` that four bytes of the buffer are. -/
def word (b : Bytes) : UInt32 := UInt32.ofNat (b.foldr (fun x acc => x.toNat + 256 * acc) 0)

/-- `data_len` for the length field of the UDP header: the difference is made
in `size_t` and stored in an `int`. -/
def dataLen (len : Bytes) : Int := (ntohs len).toNat - 8

/-- What the server makes of a datagram: the text, the address of the client,
and its port as it stands in the header. -/
inductive Decoded where
  | otherPort
  | message (msg : Bytes) (ip : UInt32) (source : Bytes)
deriving DecidableEq, Repr

/-- The part of `main` from the headers to `msg`. -/
def decode (buffer : Bytes) : Option Decoded :=
  (peek buffer (udpAt buffer + 2) 2).bind fun dest =>
    if ntohs dest ≠ serverPort then some .otherPort
    else
      (peek buffer (udpAt buffer + 4) 2).bind fun len =>
        -- `msg` has 1024 bytes; for `memcpy` a negative length is a huge one
        if dataLen len < 0 ∨ 1023 < dataLen len then none
        else
          (peek buffer (udpAt buffer + 8) (dataLen len).toNat).bind fun data =>
            (peek buffer 12 4).bind fun saddr =>
              (peek buffer (udpAt buffer) 2).map fun source =>
                .message (cstr data) (word saddr) source

/-! ## The table -/

/-- `struct client_info`. -/
structure ClientInfo where
  ip : UInt32
  port : UInt16
  counter : Int
deriving DecidableEq, Repr

/-- A record of zero bytes. -/
def zeroClient : ClientInfo := ⟨0, 0, 0⟩

/-- The buffer of `main` and the table. -/
structure Server where
  buffer : Bytes
  clients : List ClientInfo
  clientCount : ℕ
deriving DecidableEq, Repr

namespace Server

/-- The table is empty, and the buffer not initialised. -/
def init (buffer : Bytes) : Server :=
  { buffer := buffer, clients := List.replicate maxClients zeroClient, clientCount := 0 }

/-- `find_client`. -/
def findClient (s : Server) (ip : UInt32) (port : UInt16) : Option ℕ :=
  (s.clients.take s.clientCount).findIdx? fun c => (c.ip, c.port) = (ip, port)

/-- `add_client`. -/
def addClient (s : Server) (ip : UInt32) (port : UInt16) : Option (ℕ × Server) :=
  if s.clientCount < s.clients.length then
    some (s.clientCount,
      { s with
        clients := s.clients.set s.clientCount ⟨ip, port, 0⟩
        clientCount := s.clientCount + 1 })
  else none

/-- The branch for `CLOSE`: the records behind `idx` move down. -/
def removeClient (s : Server) (idx : ℕ) : Server :=
  { s with
    clients := Cells.shiftDown zeroClient s.clients idx (s.clientCount - 1 - idx)
    clientCount := s.clientCount - 1 }

/-- The index of the record of a client, which is made if there is none. -/
def enter (s : Server) (ip : UInt32) (port : UInt16) : Option (ℕ × Server) :=
  match s.findClient ip port with
  | some idx => some (idx, s)
  | none => s.addClient ip port

/-- `clients[idx].counter++`, with the new value; the counter is an `int`. -/
def countUp (s : Server) (idx : ℕ) : Int × Server :=
  let c := s.clients.getD idx zeroClient
  let counter := (c.counter + 1).bmod (2 ^ 32)
  (counter, { s with clients := s.clients.set idx { c with counter := counter } })

end Server

/-- The text of an answer. -/
def answer (msg : Bytes) (counter : Int) : Bytes := msg ++ 32 :: decimal counter

/-- The packet for the client, whose port `source` is. The length stands in it
in the byte order of the host. -/
def replyPacket (source msg : Bytes) (counter : Int) : Option Bytes :=
  let dataSend := answer msg counter
  -- `sprintf` writes the text and a NUL behind the header
  if 8 + dataSend.length < maxBuf then
    some (htons serverPort ++ (source ++ (leBytes 2 (8 + dataSend.length) ++ ([0, 0] ++ dataSend))))
  else none

/-- What `sendto` is given: where to, and the packet. -/
structure Reply where
  ip : UInt32
  port : Bytes
  packet : Bytes
deriving DecidableEq, Repr

/-- A pass of the loop in `main`, for a datagram `d`. -/
def serve (s : Server) (d : Bytes) : Option (Server × Option Reply) :=
  if d = [] then some (s, none)
  else
    let s := { s with buffer := overlay s.buffer d }
    (decode s.buffer).bind fun decoded =>
      match decoded with
      | .otherPort => some (s, none)
      | .message msg ip source =>
        let port := ntohs source
        if msg = closeWord then
          match s.findClient ip port with
          | none => some (s, none)
          | some idx => some (s.removeClient idx, none)
        else
          (s.enter ip port).bind fun (idx, s) =>
            let (counter, s) := s.countUp idx
            (replyPacket source msg counter).map fun packet => (s, some ⟨ip, source, packet⟩)

end EmbeddedCourse.Echo
