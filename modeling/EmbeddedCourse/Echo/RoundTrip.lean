import EmbeddedCourse.Echo.Client
import EmbeddedCourse.Echo.Numbers

/-! # The round trip

What a client sends is a well-formed datagram, and the answer of the server comes
back as it was made, whatever the lengths of the two IP headers are.
-/

namespace EmbeddedCourse.Echo

open CString Directory Fields

/-! ## The packet of the client -/

/-- With an IP header in front the packet is a well-formed datagram. -/
theorem wellFormed_packet {hdr : Bytes} (hh : IpHeader hdr) (myPort : UInt16) {l : Bytes}
    (h : NoNul l) (hlen : l.length ≤ 1023) :
    WellFormed (hdr ++ clientPacket myPort l) ∧ payload (hdr ++ clientPacket myPort l) = l ∧
      sourceOf (hdr ++ clientPacket myPort l) = htons myPort := by
  have hmin := hh.min
  have hat : udpAt (hdr ++ clientPacket myPort l) = hdr.length := by
    rw [udpAt_append (by omega), hh.length]
  have hdrop : ∀ i,
      (hdr ++ clientPacket myPort l).drop (hdr.length + i) = (clientPacket myPort l).drop i :=
    fun i => List.drop_length_add_append i
  have hpay : payload (hdr ++ clientPacket myPort l) = l := by
    rw [payload, hat, hdrop]
    rfl
  have hlength : (clientPacket myPort l).length = 8 + l.length := by
    simp [clientPacket]
    omega
  refine ⟨?_, hpay, ?_⟩
  · constructor
    · omega
    · rw [destOf, hat, hdrop]
      exact ntohs_htons _
    · -- the length fits its sixteen bits
      have hlen16 : (UInt16.ofNat (8 + l.length)).toNat = 8 + l.length := by
        rw [UInt16.toNat_ofNat']
        omega
      have hfield : udpLen (hdr ++ clientPacket myPort l) = 8 + l.length := by
        rw [udpLen, hat, hdrop, ← hlen16]
        exact congrArg UInt16.toNat (ntohs_htons _)
      rw [hat, hfield, List.length_append, hlength]
    · rw [hat, List.length_append, hlength]
      omega
    · rw [hpay]
      exact hlen
    · rw [hpay]
      exact h
  · rw [sourceOf, hat, List.drop_left]
    rfl

/-! ## The answer -/

theorem noNul_answer {msg : Bytes} (h : NoNul msg) (n : Int) : NoNul (answer msg n) := by
  apply h.append
  intro hmem
  rcases List.mem_cons.mp hmem with h0 | h0
  · exact absurd h0 (by decide)
  · exact noNul_decimal n h0

/-- The zeroed buffer ends the text of a datagram. -/
theorem cstr_zeros {s : Bytes} (h : NoNul s) (n : ℕ) : cstr (s ++ List.replicate n 0) = s := by
  rw [cstr_append h]
  cases n with
  | zero => simp
  | succ n => simp [List.replicate_succ]

/-- With any IP header in front the answer is for the client, and it is printed as it was made. -/
theorem funcRead_reply {hdr : Bytes} (hh : IpHeader hdr) (myPort : UInt16) {msg : Bytes}
    (hmsg : NoNul msg) (hlen : msg.length ≤ 1023) {n : Int} (hn : n.natAbs ≤ 2 ^ 31) :
    ∃ packet, replyPacket (htons myPort) msg n = some packet ∧
      funcRead myPort (hdr ++ packet) = some (some (answer msg n)) := by
  obtain ⟨packet, hpacket, hlength, hport, htext⟩ :=
    replyPacket_fields (length_htons myPort) hlen hn
  refine ⟨packet, hpacket, ?_⟩
  have hmin := hh.min
  have hmax := udpAt_le hdr
  rw [hh.length] at hmax
  have hans := length_answer_le hlen hn
  have hd0 : hdr ++ packet ≠ [] := by
    intro he
    have hlen0 := congrArg List.length he
    rw [List.length_append, List.length_nil] at hlen0
    omega
  have hdrop : ∀ i, (hdr ++ packet).drop (hdr.length + i) = packet.drop i :=
    fun i => List.drop_length_add_append i
  -- behind the datagram the buffer of the client is zero
  have hbuf : overlay (List.replicate maxBuf 0) (hdr ++ packet) =
      hdr ++ packet ++ List.replicate (maxBuf - (hdr ++ packet).length) 0 := by
    rw [overlay_of_le (by rw [List.length_append, List.length_replicate, maxBuf]; omega),
      List.drop_replicate]
  have hat : ∀ r, udpAt (hdr ++ packet ++ r) = hdr.length := by
    intro r
    rw [List.append_assoc, udpAt_append (by omega), hh.length]
  have hdata : (hdr ++ packet ++ List.replicate (maxBuf - (hdr ++ packet).length) 0).drop
      (hdr.length + 8) = answer msg n ++ List.replicate (maxBuf - (hdr ++ packet).length) 0 := by
    rw [List.drop_append_of_le_length (by rw [List.length_append]; omega), hdrop, htext]
  -- the text and its terminator are inside the buffer
  have hfits : hdr.length + 8 + (answer msg n).length < maxBuf := by
    rw [maxBuf]
    omega
  rw [funcRead, if_neg hd0]
  simp only [hbuf, hat, hdata, cstr_zeros (noNul_answer hmsg n)]
  rw [peek_append (by rw [List.length_append]; omega), Option.bind_some, hdrop, hport, ntohs_htons,
    if_neg (by simp), if_pos hfits]

/-! ## There and back -/

/-- A line that fits `msg` and is not `CLOSE` comes to the server as it was typed, from the
client's port, and what the server answers comes back to the client, which prints the line, a
space and the number. No access on the way is outside its array. -/
theorem round_trip {line : Bytes} (hline : Typed line) (hlen : line.length ≤ 1023)
    (hclose : line ≠ closeWord) (myPort : UInt16) (stale rest : Bytes) {hdr hdr' : Bytes}
    (hh : IpHeader hdr) (hh' : IpHeader hdr') {buffer : Bytes} (hbuf : buffer.length = maxBuf)
    {counter : Int} (hlow : -2147483648 ≤ counter) (hhigh : counter ≤ 2147483647) :
    ∃ packet rest' source reply,
      funcSend myPort stale (line ++ 10 :: rest) = some (packet, rest', false) ∧
      decode (overlay buffer (hdr ++ packet)) =
        some (.message line (word ((hdr.drop 12).take 4)) source) ∧
      ntohs source = myPort ∧
      replyPacket source line counter = some reply ∧
      funcRead myPort (hdr' ++ reply) = some (some (line ++ 32 :: decimal counter)) := by
  have hint : counter.natAbs ≤ 2 ^ 31 := by omega
  have hmin := hh.min
  rcases funcSend_line myPort hline hlen stale rest with ⟨rest', hsend⟩
  rcases wellFormed_packet hh myPort hline.noNul hlen with ⟨hwf, hpay, hsource⟩
  rcases funcRead_reply hh' myPort hline.noNul hlen hint with ⟨reply, hreply, hread⟩
  refine ⟨clientPacket myPort line, rest', htons myPort, reply, ?_, ?_, ntohs_htons _, hreply, hread⟩
  · rw [hsend, decide_eq_false hclose]
  · rw [hwf.decode hbuf, hpay, hsource, keyOf, List.drop_append_of_le_length (by omega),
      List.take_append_of_le_length (by rw [List.length_drop]; omega)]

/-- The longest line between the longest headers. -/
theorem round_trip_longest :
    ∃ packet rest' source reply,
      funcSend 8888 [] (List.replicate 1023 97 ++ 10 :: []) = some (packet, rest', false) ∧
      decode (overlay (List.replicate 4096 255) (79 :: List.replicate 59 1 ++ packet)) =
        some (.message (List.replicate 1023 97)
          (word (((79 :: List.replicate 59 1 : Bytes).drop 12).take 4)) source) ∧
      ntohs source = 8888 ∧
      replyPacket source (List.replicate 1023 97) (-2147483648) = some reply ∧
      funcRead 8888 (79 :: List.replicate 59 1 ++ reply) =
        some (some (List.replicate 1023 97 ++ 32 :: decimal (-2147483648))) :=
  round_trip (by decide +kernel) (Nat.le_of_eq List.length_replicate) (by decide +kernel) 8888 [] []
    (by decide +kernel) (by decide +kernel) List.length_replicate (by decide) (by decide)

end EmbeddedCourse.Echo
