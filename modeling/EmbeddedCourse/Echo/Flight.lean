import EmbeddedCourse.Echo.RoundTrip

/-! # Datagrams on their way

The sockets are raw ones: each of them gets every UDP datagram of the host, and the
program that reads it looks at the destination port. So the server reads its own
answers, and a client the messages of all clients. A datagram is a message for the
server or an answer for one client, and the others do nothing with it.
-/

namespace EmbeddedCourse.Echo

open CString Directory Fields

/-- `127.0.0.1`, the host of all. -/
def loopback : Bytes := [127, 0, 0, 1]

/-- A header that the kernel puts in front of a packet for the host itself. -/
def Local (hdr : Bytes) : Prop := IpHeader hdr ∧ (hdr.drop 12).take 4 = loopback

instance (hdr : Bytes) : Decidable (Local hdr) := inferInstanceAs (Decidable (_ ∧ _))

/-! ## What a program does with the datagrams of the others -/

section

variable {d : Bytes} (hroom : udpAt d + 4 ≤ d.length) (hfits : d.length ≤ maxBuf)

include hroom hfits

/-- The destination port, as it stands in a buffer. -/
theorem peek_dest {buffer : Bytes} (hbuf : buffer.length = maxBuf) :
    peek (overlay buffer d) (udpAt (overlay buffer d) + 2) 2 =
      some ((d.drop (udpAt d + 2)).take 2) := by
  rw [overlay_of_le (by omega), udpAt_append (by omega), peek_append (by omega)]

theorem ne_nil_of_room : d ≠ [] := by
  rintro rfl
  have hzero : udpAt [] + 4 ≤ 0 := hroom
  omega

/-- A client leaves alone what is not for its port. -/
theorem funcRead_other {port : UInt16} (hdest : destOf d ≠ port) : funcRead port d = some none := by
  rw [funcRead, if_neg (ne_nil_of_room hroom hfits)]
  simp only [peek_dest hroom hfits List.length_replicate, Option.bind_some]
  exact if_pos hdest

/-- The server leaves alone what is not for its port; its buffer is another one then. -/
theorem serve_other {s : Server} (hbuf : s.buffer.length = maxBuf) (hdest : destOf d ≠ serverPort) :
    serve s d = some ({ s with buffer := overlay s.buffer d }, none) := by
  have hdecode : decode (overlay s.buffer d) = some .otherPort := by
    rw [decode, peek_dest hroom hfits hbuf, Option.bind_some]
    exact if_pos hdest
  rw [serve, if_neg (ne_nil_of_room hroom hfits)]
  simp only [hdecode, Option.bind_some]

end

/-! ## Messages and answers -/

/-- The message `text` of the client on the port `port`. -/
structure Request (port : UInt16) (text d : Bytes) : Prop where
  wellFormed : WellFormed d
  ip : (keyOf d).1 = word loopback
  source : sourceOf d = htons port
  text : payload d = text

/-- The answer `text` for the client on the port `port`. -/
structure Response (port : UInt16) (text d : Bytes) : Prop where
  dest : destOf d = port
  room : udpAt d + 4 ≤ d.length
  fits : d.length ≤ maxBuf
  read : funcRead port d = some (some text)

/-- Who has sent a message, and what. -/
def messageOf (d : Bytes) : UInt16 × Bytes := (ntohs (sourceOf d), payload d)

/-- What the server hears of a datagram. -/
def requestOf (d : Bytes) : Option (UInt16 × Bytes) :=
  if destOf d = serverPort then some (messageOf d) else none

/-- What a client shows of a datagram. -/
def answerOf (port : UInt16) (d : Bytes) : Option Bytes := (funcRead port d).join

section

variable {port : UInt16} {text d : Bytes}

theorem Request.messageOf (h : Request port text d) : messageOf d = (port, text) := by
  rw [Echo.messageOf, h.source, ntohs_htons, h.text]

theorem Request.key (h : Request port text d) : keyOf d = (word loopback, port) := by
  apply Prod.ext h.ip
  show ntohs (sourceOf d) = port
  rw [h.source, ntohs_htons]

theorem Request.requestOf (h : Request port text d) : requestOf d = some (port, text) := by
  rw [Echo.requestOf, if_pos h.wellFormed.dest, h.messageOf]

/-- A client does nothing with a message. -/
theorem Request.funcRead (h : Request port text d) {q : UInt16} (hq : q ≠ serverPort) :
    funcRead q d = some none := by
  have hudp := h.wellFormed.udp
  have hle := h.wellFormed.length_le
  apply funcRead_other (by omega) (by rw [maxBuf]; omega)
  rw [h.wellFormed.dest]
  exact Ne.symm hq

theorem Response.requestOf (h : Response port text d) (hport : port ≠ serverPort) :
    requestOf d = none := by
  rw [Echo.requestOf, h.dest, if_neg hport]

theorem Response.funcRead (h : Response port text d) (q : UInt16) :
    funcRead q d = some (if q = port then some text else none) := by
  split_ifs with hq
  · rw [hq, h.read]
  · apply funcRead_other h.room h.fits
    rw [h.dest]
    exact Ne.symm hq

end

/-! ## Where they come from -/

/-- What `func_send` makes of a line is a message. -/
theorem request_packet {hdr : Bytes} (hh : Local hdr) (port : UInt16) {l : Bytes} (h : Typed l)
    (hlen : l.length ≤ 1023) : Request port l (hdr ++ clientPacket port l) := by
  rcases wellFormed_packet hh.1 port h.noNul hlen with ⟨hwf, hpay, hsource⟩
  have hmin := hh.1.min
  refine ⟨hwf, ?_, hsource, hpay⟩
  rw [keyOf, List.drop_append_of_le_length (by omega),
    List.take_append_of_le_length (by rw [List.length_drop]; omega), hh.2]

/-- A line of up to 1022 bytes is read with its newline. -/
theorem funcSend_whole (port : UInt16) {l : Bytes} (h : Typed l) (hlen : l.length ≤ 1022)
    (stale rest : Bytes) :
    funcSend port stale (l ++ 10 :: rest) =
      some (clientPacket port l, rest, decide (l = closeWord)) := by
  have hline : takeLine 1023 (l ++ 10 :: rest) = l ++ [10] := takeLine_typed h.noNewline rest (by omega)
  rcases funcSend_line port h (by omega) stale rest with ⟨rest', hsend⟩
  have hrest : rest' = rest := by
    have hread : (fgets stale 1024 (l ++ 10 :: rest)).2 = rest := by
      simp only [fgets, hline]
      exact drop_typed l rest
    rw [funcSend] at hsend
    dsimp only at hsend
    split_ifs at hsend
    rw [← hread]
    exact (congrArg Prod.fst (congrArg Prod.snd (Option.some.inj hsend))).symm
  rw [hsend, hrest]

/-- What the server sends comes from `replyPacket`. -/
theorem replyPacket_of_serve {s s' : Server} {d packet : Bytes} {ip : UInt32} {port : Bytes}
    (hbuf : s.buffer.length = maxBuf) (hd : WellFormed d) (hmsg : payload d ≠ closeWord)
    (hs : serve s d = some (s', some ⟨ip, port, packet⟩)) :
    ∃ n : Int, n.natAbs ≤ 2 ^ 31 ∧ replyPacket (sourceOf d) (payload d) n = some packet := by
  rw [serve_of_message hd.ne_nil (hd.decode hbuf) hmsg] at hs
  rcases Option.bind_eq_some_iff.mp hs with ⟨e, -, he⟩
  rcases Option.map_eq_some_iff.mp he with ⟨packet', hpacket, heq⟩
  obtain rfl : packet' = packet := congrArg Reply.packet (Option.some.inj (congrArg Prod.snd heq))
  exact ⟨_, natAbs_bmod_le _, hpacket⟩

/-- With its header it is the answer for the client. -/
theorem response_packet {hdr : Bytes} (hh : IpHeader hdr) {port : UInt16} {msg : Bytes}
    (hmsg : NoNul msg) (hlen : msg.length ≤ 1023) {n : Int} (hn : n.natAbs ≤ 2 ^ 31) {packet : Bytes}
    (hpacket : replyPacket (htons port) msg n = some packet) :
    Response port (packet.drop 8) (hdr ++ packet) := by
  rcases funcRead_reply hh port hmsg hlen hn with ⟨packet', hpacket', hread⟩
  obtain rfl : packet = packet' := Option.some.inj (hpacket.symm.trans hpacket')
  obtain ⟨packet', hpacket', hlength, hport, htext⟩ := replyPacket_fields (length_htons port) hlen hn
  obtain rfl : packet = packet' := Option.some.inj (hpacket.symm.trans hpacket')
  have hmin := hh.min
  have hmax := udpAt_le hdr
  rw [hh.length] at hmax
  have hans := length_answer_le hlen hn
  have hat : udpAt (hdr ++ packet) = hdr.length := by
    rw [udpAt_append (by omega), hh.length]
  constructor
  · rw [destOf, hat, List.drop_length_add_append, hport, ntohs_htons]
  · rw [hat, List.length_append]
    omega
  · rw [List.length_append, maxBuf]
    omega
  · rw [hread, htext]

end EmbeddedCourse.Echo
