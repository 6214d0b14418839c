import EmbeddedCourse.Echo.Numbers

/-! # Malformed datagrams

Neither the length of the IP header nor the one in the UDP header is compared
with the length that `recvfrom` returns or with the size of `msg`. For each
datagram the accesses up to the terminator of `msg` are listed here, and the
condition on the headers under which they stay where they should.
-/

namespace EmbeddedCourse.Echo

open CString Fields

/-- What the decoding does with `buffer` and `msg`. -/
inductive Access where
  | read (i n : ℕ)
  | copy (i : ℕ) (dataLen : Int)
  | terminate (dataLen : Int)
deriving DecidableEq, Repr

/-- The third argument of `memcpy`, a `size_t`. -/
def copySize (dataLen : Int) : ℕ := (dataLen % 2 ^ 64).toNat

/-- The accesses from `ip->ihl` to `msg[data_len] = '\0'`. The reads of `ip->saddr` and
`udp->source` behind them are left out. -/
def accesses (buffer : Bytes) : List Access :=
  .read 0 1 :: .read (udpAt buffer + 2) 2 ::
    if destOf buffer ≠ serverPort then []
    else
      let len := dataLen ((buffer.drop (udpAt buffer + 4)).take 2)
      [.read (udpAt buffer + 4) 2, .copy (udpAt buffer + 8) len, .terminate len]

/-- Only the `len` bytes received are read, and only `msg[1024]` is written. -/
def Access.Safe (len : ℕ) : Access → Prop
  | .read i n => i + n ≤ len
  | .copy i dataLen => 0 ≤ dataLen ∧ dataLen ≤ 1023 ∧ i + copySize dataLen ≤ len
  | .terminate dataLen => 0 ≤ dataLen ∧ dataLen < 1024

instance (len : ℕ) : (a : Access) → Decidable (a.Safe len)
  | .read i n => inferInstanceAs (Decidable (i + n ≤ len))
  | .copy i dataLen =>
    inferInstanceAs (Decidable (0 ≤ dataLen ∧ dataLen ≤ 1023 ∧ i + copySize dataLen ≤ len))
  | .terminate dataLen => inferInstanceAs (Decidable (0 ≤ dataLen ∧ dataLen < 1024))

/-- All accesses for the buffer, of which `len` bytes were received. -/
def Harmless (buffer : Bytes) (len : ℕ) : Prop := ∀ a ∈ accesses buffer, a.Safe len

instance (buffer : Bytes) (len : ℕ) : Decidable (Harmless buffer len) :=
  inferInstanceAs (Decidable (∀ a ∈ accesses buffer, a.Safe len))

/-- The copy and its terminator, for a length `n` in the UDP header. -/
theorem safe_copy_iff (i n len : ℕ) :
    ((Access.copy (i + 8) ((n : Int) - 8)).Safe len ∧ (Access.terminate ((n : Int) - 8)).Safe len) ↔
      8 ≤ n ∧ n ≤ 1031 ∧ i + n ≤ len := by
  show ((0 ≤ (n : Int) - 8 ∧ (n : Int) - 8 ≤ 1023 ∧ i + 8 + ((n - 8 : Int) % 2 ^ 64).toNat ≤ len) ∧
    0 ≤ (n : Int) - 8 ∧ (n : Int) - 8 < 1024) ↔ _
  constructor
  · rintro ⟨⟨hlow, hhigh, hend⟩, -⟩
    rw [Int.emod_eq_of_lt hlow (by omega)] at hend
    omega
  · rintro ⟨hlow, hhigh, hend⟩
    rw [Int.emod_eq_of_lt (by omega) (by omega)]
    omega

/-- A datagram for another port is only looked at. -/
theorem harmless_of_otherPort {buffer : Bytes} (h : destOf buffer ≠ serverPort) (len : ℕ) :
    Harmless buffer len ↔ udpAt buffer + 4 ≤ len := by
  have haccesses : accesses buffer = [.read 0 1, .read (udpAt buffer + 2) 2] := by
    rw [accesses, if_pos h]
  rw [Harmless, haccesses, List.forall_mem_cons, List.forall_mem_singleton]
  show (0 + 1 ≤ len ∧ udpAt buffer + 2 + 2 ≤ len) ↔ _
  omega

/-- A datagram for the server is copied. -/
theorem harmless_of_serverPort {buffer : Bytes} (h : destOf buffer = serverPort) (len : ℕ) :
    Harmless buffer len ↔
      8 ≤ udpLen buffer ∧ udpLen buffer ≤ 1031 ∧ udpAt buffer + udpLen buffer ≤ len := by
  have haccesses : accesses buffer =
      [.read 0 1, .read (udpAt buffer + 2) 2, .read (udpAt buffer + 4) 2,
        .copy (udpAt buffer + 8) ((udpLen buffer : Int) - 8),
        .terminate ((udpLen buffer : Int) - 8)] := by
    rw [accesses, if_neg (not_not_intro h)]
    rfl
  have hcopy := safe_copy_iff (udpAt buffer) (udpLen buffer) len
  rw [Harmless, haccesses, List.forall_mem_cons, List.forall_mem_cons, List.forall_mem_cons,
    List.forall_mem_cons, List.forall_mem_singleton, hcopy]
  show (0 + 1 ≤ len ∧ udpAt buffer + 2 + 2 ≤ len ∧ udpAt buffer + 4 + 2 ≤ len ∧ _) ↔ _
  -- the header lies within the length that it gives
  constructor
  · rintro ⟨-, -, -, hlen⟩
    exact hlen
  · intro hlen
    refine ⟨?_, ?_, ?_, hlen⟩ <;> omega

/-- A datagram is harmless exactly when its destination port was received and, if it is for the
server, the length in its UDP header is at least that of the header itself, at most 1023 more,
and not beyond what was received. -/
theorem harmless_iff (buffer : Bytes) (len : ℕ) :
    Harmless buffer len ↔
      udpAt buffer + 4 ≤ len ∧
      (destOf buffer = serverPort →
        8 ≤ udpLen buffer ∧ udpLen buffer ≤ 1031 ∧ udpAt buffer + udpLen buffer ≤ len) := by
  by_cases hdest : destOf buffer = serverPort
  · rw [harmless_of_serverPort hdest]
    constructor
    · intro hlen
      exact ⟨by omega, fun _ => hlen⟩
    · rintro ⟨-, hlen⟩
      exact hlen hdest
  · rw [harmless_of_otherPort hdest]
    constructor
    · intro hlen
      exact ⟨hlen, fun h => absurd h hdest⟩
    · rintro ⟨hlen, -⟩
      exact hlen

/-- A text of 2000 bytes runs over the end of `msg`. -/
theorem long_text_overruns :
    (datagramFrom 5000 (List.replicate 2000 97)).length = 2028 ∧
    ¬ Harmless (overlay (List.replicate 4096 0) (datagramFrom 5000 (List.replicate 2000 97))) 2028 := by
  decide +kernel

/-! ## The decoding -/

/-- The decoding goes wrong for a datagram to the server whose UDP length does not fit `msg`.
Whatever else is read is in the buffer, though not in what was received. -/
theorem decode_isSome_iff {buffer : Bytes} (hbuf : buffer.length = maxBuf) :
    (decode buffer).isSome ↔
      (destOf buffer = serverPort → 8 ≤ udpLen buffer ∧ udpLen buffer ≤ 1031) := by
  have hat := udpAt_le buffer
  -- the buffer is longer than any offset in the headers
  have hpeek : ∀ {i n : ℕ}, i + n ≤ 4096 → peek buffer i n = some ((buffer.drop i).take n) :=
    fun h => if_pos (hbuf ▸ h)
  have hdata : dataLen ((buffer.drop (udpAt buffer + 4)).take 2) = (udpLen buffer : Int) - 8 := rfl
  have hport : ntohs ((buffer.drop (udpAt buffer + 2)).take 2) = destOf buffer := rfl
  rw [decode, hpeek (by omega), Option.bind_some, hport]
  by_cases hdest : destOf buffer = serverPort
  · rw [if_neg (not_not_intro hdest), hpeek (by omega), Option.bind_some, hdata]
    -- `memcpy` with the length as it is, or with one that does not fit `msg`
    by_cases hfits : (udpLen buffer : Int) - 8 < 0 ∨ 1023 < (udpLen buffer : Int) - 8
    · rw [if_pos hfits]
      constructor
      · intro hnone
        cases hnone
      · intro hlen
        have hle := hlen hdest
        omega
    · rw [if_neg hfits, hpeek (by omega), Option.bind_some, hpeek (by omega), Option.bind_some,
        hpeek (by omega), Option.map_some]
      constructor
      · intro _ _
        omega
      · intro _
        rfl
  · rw [if_pos hdest]
    constructor
    · intro _ h
      exact absurd h hdest
    · intro _
      rfl

/-- A harmless datagram is decoded. -/
theorem Harmless.decode {buffer : Bytes} (hbuf : buffer.length = maxBuf) {len : ℕ}
    (h : Harmless buffer len) : (decode buffer).isSome := by
  rw [decode_isSome_iff hbuf]
  intro hdest
  rcases (harmless_of_serverPort hdest len).mp h with ⟨hlow, hhigh, -⟩
  exact ⟨hlow, hhigh⟩

/-- A well-formed datagram is harmless. -/
theorem WellFormed.harmless {d : Bytes} (h : WellFormed d) {buffer : Bytes}
    (hbuf : buffer.length = maxBuf) : Harmless (overlay buffer d) d.length := by
  have hudp := h.udp
  have hshort := h.short
  have hlength := h.length
  have hover := h.overlay_eq hbuf
  have hat : udpAt (overlay buffer d) = udpAt d := by rw [hover, udpAt_append (by omega)]
  have hfield : ∀ i, i + 2 ≤ 8 →
      ((overlay buffer d).drop (udpAt d + i)).take 2 = (d.drop (udpAt d + i)).take 2 := by
    intro i hi
    rw [hover, List.drop_append_of_le_length (by omega),
      List.take_append_of_le_length (by rw [List.length_drop]; omega)]
  have hdest : destOf (overlay buffer d) = serverPort := by
    rw [destOf, hat, hfield 2 (by omega)]
    exact h.dest
  have hlen : udpLen (overlay buffer d) = udpLen d := by
    rw [udpLen, hat, hfield 4 (by omega)]
    rfl
  rw [harmless_of_serverPort hdest, hat, hlen]
  rw [payload, List.length_drop] at hshort
  omega

end EmbeddedCourse.Echo
