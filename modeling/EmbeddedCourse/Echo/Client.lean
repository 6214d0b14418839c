import EmbeddedCourse.Directory.Input
import EmbeddedCourse.Echo.Server

/-! # The echo client: `Final_Task1/echo_client.c`

The client builds the UDP header of a datagram itself; the kernel puts an IP
header in front. What it receives has one too.
-/

namespace EmbeddedCourse.Echo

open CString Directory Fields

/-- The packet of a line. -/
def clientPacket (myPort : UInt16) (msg : Bytes) : Bytes :=
  htons myPort ++ (htons serverPort ++ (htons (UInt16.ofNat (8 + msg.length)) ++ ([0, 0] ++ msg)))

/-- What `func_send` leaves: the packet for `sendto`, the rest of the input, and
whether the client is done. `stale` is what `msg` holds before. -/
def funcSend (myPort : UInt16) (stale stdin : Bytes) : Option (Bytes × Bytes × Bool) :=
  let (buf, rest) := fgets stale 1024 stdin
  let msg := buf.takeWhile (· != 10)
  -- `msg` and its NUL have to fit `msg[1024]` and the packet behind the header
  if msg.length < 1024 ∧ 8 + msg.length < maxBuf then
    some (clientPacket myPort msg, rest, msg = closeWord)
  else none

/-- What `func_read` prints of a datagram, if it is for this client. -/
def funcRead (myPort : UInt16) (d : Bytes) : Option (Option Bytes) :=
  if d = [] then some none
  else
    let buffer := overlay (List.replicate maxBuf 0) d
    (peek buffer (udpAt buffer + 2) 2).bind fun dest =>
      if ntohs dest ≠ myPort then some none
      else
        let data := cstr (buffer.drop (udpAt buffer + 8))
        -- `printf` stops at a NUL, which has to be in the buffer
        if udpAt buffer + 8 + data.length < maxBuf then some (some data) else none

/-- An IP header, as long as it says. -/
structure IpHeader (h : Bytes) : Prop where
  length : udpAt h = h.length
  min : 20 ≤ h.length

instance (h : Bytes) : Decidable (IpHeader h) :=
  decidable_of_iff (udpAt h = h.length ∧ 20 ≤ h.length)
    ⟨fun h => ⟨h.1, h.2⟩, fun h => ⟨h.length, h.min⟩⟩

/-- A line that fits `msg` is sent as it was typed. Of a line of 1023 bytes the newline
is left in the input. -/
theorem funcSend_line (myPort : UInt16) {l : Bytes} (h : Typed l) (hlen : l.length ≤ 1023)
    (stale rest : Bytes) :
    ∃ rest', funcSend myPort stale (l ++ 10 :: rest) =
      some (clientPacket myPort l, rest', decide (l = closeWord)) := by
  have hfits : l.length < 1024 ∧ 8 + l.length < maxBuf := by
    rw [maxBuf]
    omega
  have hread : ((fgets stale 1024 (l ++ 10 :: rest)).1).takeWhile (· != 10) = l := by
    rcases Nat.lt_or_ge l.length 1023 with hlt | hge
    · have hline : takeLine 1023 (l ++ 10 :: rest) = l ++ [10] := takeLine_typed h.noNewline rest hlt
      have hne : l ++ [(10 : UInt8)] ≠ [] := by simp
      simp only [fgets, hline, if_neg hne, takeWhile_cstr h.noNewline, cstr_of_noNul h.noNul]
    · have hline : takeLine 1023 (l ++ 10 :: rest) = l := takeLine_full h.noNewline _ (by omega)
      have hne : l ≠ [] := List.ne_nil_of_length_pos (by omega)
      simp only [fgets, hline, if_neg hne, cstr_of_noNul h.noNul]
      exact takeWhile_line h.noNewline
  refine ⟨(fgets stale 1024 (l ++ 10 :: rest)).2, ?_⟩
  simp only [funcSend, hread, if_pos hfits]

end EmbeddedCourse.Echo
