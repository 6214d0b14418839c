import EmbeddedCourse.Echo.Client
import EmbeddedCourse.Echo.Numbers

/-! # The length field of the two headers

The client writes the length of a request in network byte order, which is how the
server reads it. The server writes the length of an answer in the order of the
host, and the same reading finds the length of the answer there only when its two
bytes are equal.
-/

namespace EmbeddedCourse.Echo

open CString Fields

/-- The data length that a packet has in its header, read as the server reads it. -/
def headerLen (packet : Bytes) : Int := dataLen ((packet.drop 4).take 2)

/-- A number in the order of the host, read in network byte order. -/
theorem ntohs_leBytes {n : ℕ} (hn : n < 65536) :
    (ntohs (leBytes 2 n)).toNat = 256 * (n % 256) + n / 256 := by
  have hlow : (UInt8.ofNat ((n : Int) / 256 ^ 0 % 256).toNat).toNat = n % 256 := by
    rw [UInt8.toNat_ofNat']
    omega
  have hhigh : (UInt8.ofNat ((n : Int) / 256 ^ 1 % 256).toNat).toNat = n / 256 := by
    rw [UInt8.toNat_ofNat']
    omega
  have hbytes : ntohs (leBytes 2 n) = UInt16.ofNat
      (256 * (UInt8.ofNat ((n : Int) / 256 ^ 0 % 256).toNat).toNat +
        (UInt8.ofNat ((n : Int) / 256 ^ 1 % 256).toNat).toNat) := rfl
  rw [hbytes, hlow, hhigh, UInt16.toNat_ofNat']
  omega

theorem headerLen_replyPacket {source : Bytes} (hsource : source.length = 2) {msg packet : Bytes}
    {counter : Int} (h : replyPacket source msg counter = some packet) :
    headerLen packet = dataLen (leBytes 2 (8 + (answer msg counter).length)) ∧
      packet.drop 8 = answer msg counter := by
  have hle : (leBytes 2 (8 + (answer msg counter).length)).length = 2 := rfl
  unfold replyPacket at h
  dsimp only at h
  split_ifs at h
  obtain rfl := Option.some.inj h
  constructor
  · rw [headerLen, ← List.append_assoc, List.drop_left' (by rw [List.length_append, length_htons, hsource]),
      List.take_left' hle]
  · rw [← List.append_assoc, ← List.append_assoc, ← List.append_assoc]
    apply List.drop_left'
    simp [hsource, hle]

/-- For every message and counter: the header of the answer has the length of the
text that is sent behind it, read as the server reads a request, if and only if
257 divides the length of header and text together. -/
theorem reply_length_iff {source : Bytes} (hsource : source.length = 2) {msg : Bytes}
    (hmsg : msg.length ≤ 1023) {counter : Int} (hlow : -2147483648 ≤ counter)
    (hhigh : counter ≤ 2147483647) :
    ∃ packet, replyPacket source msg counter = some packet ∧ packet.drop 8 = answer msg counter ∧
      (headerLen packet = (packet.drop 8).length ↔
        257 ∣ 8 + (msg.length + 1 + (decimal counter).length)) := by
  have hint : counter.natAbs ≤ 2 ^ 31 := by omega
  rcases replyPacket_fields hsource hmsg hint with ⟨packet, hpacket, -⟩
  rcases headerLen_replyPacket hsource hpacket with ⟨hfield, htext⟩
  refine ⟨packet, hpacket, htext, ?_⟩
  have hmax := length_answer_le hmsg hint
  have hlen : (answer msg counter).length = msg.length + 1 + (decimal counter).length := by
    rw [answer, List.length_append, List.length_cons]
    omega
  have hread : (ntohs (leBytes 2 ((8 + (answer msg counter).length : ℕ) : Int))).toNat = _ :=
    ntohs_leBytes (by omega)
  rw [Nat.cast_add, Nat.cast_ofNat] at hread
  rw [hfield, htext, dataLen, hread, ← hlen]
  generalize (answer msg counter).length = n at hmax ⊢
  -- the two bytes of `8 + n` are its quotient and its remainder by 256
  omega

/-- The length 257 of header and text has the same two bytes in either order. -/
theorem reply_length_iff_247 :
    ∃ packet, replyPacket [34, 184] (List.replicate 247 97) 1 = some packet ∧
      packet.drop 8 = answer (List.replicate 247 97) 1 ∧
      headerLen packet = (packet.drop 8).length := by
  rcases @reply_length_iff [34, 184] rfl (List.replicate 247 97) (by decide +kernel) 1 (by decide)
    (by decide) with ⟨packet, hpacket, htext, hiff⟩
  exact ⟨packet, hpacket, htext, hiff.mpr (by decide +kernel)⟩

/-- The length 12 of header and text for `"hi"` reads as 3072. -/
theorem reply_length_hi :
    ∃ packet, replyPacket [34, 184] (ascii ['h', 'i']) 1 = some packet ∧
      (packet.drop 8).length = 4 ∧ headerLen packet = 3064 ∧
      headerLen packet ≠ (packet.drop 8).length := by
  have hpacket : replyPacket [34, 184] (ascii ['h', 'i']) 1 =
      some ([30, 97, 34, 184, 12, 0, 0, 0, 104, 105, 32, 49]) := by
    decide +kernel
  exact ⟨_, hpacket, by decide +kernel, by decide +kernel, by decide +kernel⟩

end EmbeddedCourse.Echo
