import EmbeddedCourse.Echo.Client
import EmbeddedCourse.Echo.Clients
import EmbeddedCourse.Lib.Run

/-! # The number of a message

For datagrams that are well formed the table is a map from clients to counters,
wherever a client's record has been moved to: the number in an answer is that of
the messages which the client has sent since its last `CLOSE`, as long as an
`int` can hold it.
-/

namespace EmbeddedCourse.Echo

open CString Fields Machine Server

/-! ## Datagrams -/

/-- The text in a datagram. -/
def payload (d : Bytes) : Bytes := d.drop (udpAt d + 8)

/-- The source port as it stands in the header. -/
def sourceOf (d : Bytes) : Bytes := (d.drop (udpAt d)).take 2

/-- The client that has sent a datagram. -/
def keyOf (d : Bytes) : UInt32 × UInt16 := (word ((d.drop 12).take 4), ntohs (sourceOf d))

/-- The port that a datagram is for. -/
def destOf (d : Bytes) : UInt16 := ntohs ((d.drop (udpAt d + 2)).take 2)

/-- The length in the UDP header. -/
def udpLen (d : Bytes) : ℕ := (ntohs ((d.drop (udpAt d + 4)).take 2)).toNat

/-- A datagram to the server, as long as its headers say, with a short text. -/
structure WellFormed (d : Bytes) : Prop where
  header : 20 ≤ udpAt d
  dest : destOf d = serverPort
  length : d.length = udpAt d + udpLen d
  udp : udpAt d + 8 ≤ d.length
  short : (payload d).length ≤ 1023
  noNul : NoNul (payload d)

instance (d : Bytes) : Decidable (WellFormed d) :=
  decidable_of_iff (20 ≤ udpAt d ∧ destOf d = serverPort ∧ d.length = udpAt d + udpLen d ∧
      udpAt d + 8 ≤ d.length ∧ (payload d).length ≤ 1023 ∧ NoNul (payload d))
    ⟨fun h => ⟨h.1, h.2.1, h.2.2.1, h.2.2.2.1, h.2.2.2.2.1, h.2.2.2.2.2⟩,
      fun h => ⟨h.header, h.dest, h.length, h.udp, h.short, h.noNul⟩⟩

/-- The number of messages from the client `k` since its last `CLOSE`. -/
def earlier (k : UInt32 × UInt16) (ds : List Bytes) : ℕ :=
  ((ds.filter fun d => keyOf d = k).reverse.takeWhile fun d => payload d ≠ closeWord).length

theorem earlier_concat (k : UInt32 × UInt16) (ds : List Bytes) (d : Bytes) :
    earlier k (ds ++ [d]) =
      if keyOf d = k then if payload d = closeWord then 0 else earlier k ds + 1
      else earlier k ds := by
  unfold earlier
  by_cases hk : keyOf d = k
  · rw [List.filter_append, List.filter_cons_of_pos (by simpa using hk), List.filter_nil,
      List.reverse_append, List.reverse_singleton, List.singleton_append, if_pos hk,
      List.takeWhile_cons]
    by_cases hclose : payload d = closeWord <;> simp [hclose]
  · rw [List.filter_append, List.filter_cons_of_neg (by simpa using hk), List.filter_nil,
      List.append_nil, if_neg hk]

theorem udpAt_le (buffer : Bytes) : udpAt buffer ≤ 60 := by
  unfold udpAt
  omega

/-- The headers of a datagram are read from the start of the buffer. -/
theorem udpAt_append {d : Bytes} (hd : 0 < d.length) (rest : Bytes) : udpAt (d ++ rest) = udpAt d := by
  rw [udpAt, udpAt, List.getD_append _ _ _ _ hd]

theorem WellFormed.length_le {d : Bytes} (h : WellFormed d) : d.length ≤ 1091 := by
  have hudp := udpAt_le d
  have hshort := h.short
  rw [payload, List.length_drop] at hshort
  omega

/-- It fits the buffer. -/
theorem WellFormed.overlay_eq {d : Bytes} (h : WellFormed d) {buffer : Bytes}
    (hbuf : buffer.length = maxBuf) : overlay buffer d = d ++ buffer.drop d.length := by
  have hle := h.length_le
  apply overlay_of_le
  rw [hbuf, maxBuf]
  omega

/-- A well-formed datagram is taken apart as it was put together. -/
theorem WellFormed.decode {d : Bytes} (h : WellFormed d) {buffer : Bytes}
    (hbuf : buffer.length = maxBuf) :
    Echo.decode (overlay buffer d) =
      some (.message (payload d) (keyOf d).1 (sourceOf d)) := by
  have hhead := h.header
  have hudp := h.udp
  have hshort := h.short
  have hlen := h.length
  have hdest := h.dest
  rw [destOf] at hdest
  have hdata : dataLen ((d.drop (udpAt d + 4)).take 2) = (payload d).length := by
    rw [udpLen] at hlen
    rw [dataLen, payload, List.length_drop]
    omega
  -- the length passes the check of the server
  have hnot : ¬ (dataLen ((d.drop (udpAt d + 4)).take 2) < 0 ∨
      1023 < dataLen ((d.drop (udpAt d + 4)).take 2)) := by
    rw [hdata]
    omega
  have htext : (d.drop (udpAt d + 8)).take (payload d).length = payload d := List.take_length
  have hend : udpAt d + 8 + (payload d).length ≤ d.length := by
    rw [payload, List.length_drop]
    omega
  rw [h.overlay_eq hbuf, Echo.decode, udpAt_append (by omega), peek_append (by omega), Option.bind_some,
    hdest, if_neg (by simp), peek_append (by omega), Option.bind_some, if_neg hnot, hdata,
    Int.toNat_natCast, peek_append hend, Option.bind_some, htext, peek_append (by omega),
    Option.bind_some, peek_append (by omega), Option.map_some, cstr_of_noNul h.noNul]
  rfl

/-! ## One datagram -/

theorem length_answer_le {msg : Bytes} (hmsg : msg.length ≤ 1023) {n : Int} (hn : n.natAbs ≤ 2 ^ 31) :
    (answer msg n).length ≤ 1035 := by
  have hdec := length_decimal_le hn
  rw [answer, List.length_append, List.length_cons]
  omega

/-- The packet of an answer: the port of the client, and the text behind the header. -/
theorem replyPacket_fields {source : Bytes} (hsource : source.length = 2) {msg : Bytes}
    (hmsg : msg.length ≤ 1023) {n : Int} (hn : n.natAbs ≤ 2 ^ 31) :
    ∃ packet, replyPacket source msg n = some packet ∧
      packet.length = 8 + (answer msg n).length ∧ (packet.drop 2).take 2 = source ∧
      packet.drop 8 = answer msg n := by
  have hans := length_answer_le hmsg hn
  have hlen : 8 + (answer msg n).length < maxBuf := by
    rw [maxBuf]
    omega
  have hle : (leBytes 2 (8 + (answer msg n).length)).length = 2 := by simp [leBytes]
  refine ⟨_, if_pos hlen, ?_, ?_, ?_⟩
  · simp [hsource, hle]
    omega
  · rw [List.drop_left' (length_htons _), List.take_left' hsource]
  · rw [← List.append_assoc, ← List.append_assoc, ← List.append_assoc]
    apply List.drop_left'
    simp [hsource, hle]

theorem natAbs_bmod_le (v : Int) : (v.bmod (2 ^ 32)).natAbs ≤ 2 ^ 31 := by
  have hlow := Int.le_bmod (x := v) (m := 2 ^ 32) (by decide)
  have hhigh := Int.bmod_lt (x := v) (m := 2 ^ 32) (by decide)
  omega

section

variable {s : Server} {d msg source : Bytes} {ip : UInt32}

/-- A message is counted for its client, and answered. -/
theorem serve_of_message (hd : d ≠ [])
    (hdecode : decode (overlay s.buffer d) = some (.message msg ip source)) (hmsg : msg ≠ closeWord) :
    serve s d = (({ s with buffer := overlay s.buffer d }).enter ip (ntohs source)).bind fun e =>
      (replyPacket source msg (e.2.countUp e.1).1).map fun packet =>
        ((e.2.countUp e.1).2, some ⟨ip, source, packet⟩) := by
  rw [serve, if_neg hd]
  simp only [hdecode, Option.bind_some, if_neg hmsg]

/-- A `CLOSE` takes the record of its client out, if there is one. -/
theorem serve_of_close (hd : d ≠ [])
    (hdecode : decode (overlay s.buffer d) = some (.message closeWord ip source)) :
    serve s d =
      some
        (match s.findClient ip (ntohs source) with
          | none => { s with buffer := overlay s.buffer d }
          | some idx => ({ s with buffer := overlay s.buffer d }).removeClient idx,
        none) := by
  have hfind : ({ s with buffer := overlay s.buffer d }).findClient ip (ntohs source) =
      s.findClient ip (ntohs source) := rfl
  rw [serve, if_neg hd]
  simp only [hdecode, Option.bind_some, if_true, hfind]
  cases s.findClient ip (ntohs source) <;> rfl

end

theorem WellFormed.ne_nil {d : Bytes} (h : WellFormed d) : d ≠ [] := by
  rintro rfl
  exact absurd h.udp (by simp)

/-- What the table is after a message, and what is answered. -/
theorem Server.Holds.serve_message {s : Server} {L : List ClientInfo} (h : s.Holds L) {d : Bytes}
    (hd : WellFormed d) (hmsg : payload d ≠ closeWord)
    (hfull : s.findClient (keyOf d).1 (keyOf d).2 = none → s.clientCount < maxClients) :
    ∃ s' L' packet n, serve s d = some (s', some ⟨(keyOf d).1, sourceOf d, packet⟩) ∧
      s'.Holds L' ∧ n = ((s.counterOf (keyOf d)).getD 0 + 1).bmod (2 ^ 32) ∧
      packet.drop 8 = answer (payload d) n ∧
      ∀ k, s'.counterOf k = if keyOf d = k then some n else s.counterOf k := by
  have hudp := hd.udp
  have hsource : (sourceOf d).length = 2 := by
    rw [sourceOf, List.length_take, List.length_drop]
    omega
  obtain ⟨idx, s₁, L', henter, hs', hn, hcounts⟩ :=
    (h.receive d).message (keyOf d).1 (keyOf d).2 hfull
  rcases replyPacket_fields hsource hd.short (natAbs_bmod_le _) with ⟨packet, hpacket, -, -, hdrop⟩
  rw [← hn] at hpacket hdrop
  refine ⟨(s₁.countUp idx).2, L', packet, (s₁.countUp idx).1, ?_, hs', hn, hdrop, hcounts⟩
  have henter' : ({ s with buffer := overlay s.buffer d }).enter (keyOf d).1 (ntohs (sourceOf d)) =
      some (idx, s₁) := henter
  rw [serve_of_message hd.ne_nil (hd.decode h.buffer) hmsg, henter', Option.bind_some, hpacket,
    Option.map_some]

/-- What the table is after a `CLOSE`, to which there is no answer. -/
theorem Server.Holds.serve_close {s : Server} {L : List ClientInfo} (h : s.Holds L) {d : Bytes}
    (hd : WellFormed d) (hclose : payload d = closeWord) :
    ∃ s' L', serve s d = some (s', none) ∧ s'.Holds L' ∧
      ∀ k, s'.counterOf k = if keyOf d = k then none else s.counterOf k := by
  have hserve := serve_of_close hd.ne_nil (hclose ▸ hd.decode h.buffer)
  rcases (h.receive d).close (keyOf d).1 (keyOf d).2 with ⟨hfind, hnone⟩ | ⟨idx, L', hfind, hs', hcounts⟩
  · -- the client is not known
    have hfind' : s.findClient (keyOf d).1 (ntohs (sourceOf d)) = none := hfind
    rw [hfind'] at hserve
    refine ⟨_, L, hserve, h.receive d, ?_⟩
    intro k
    split_ifs with hk
    · rw [← hk]
      exact hnone
    · rfl
  · -- its record is taken out
    have hfind' : s.findClient (keyOf d).1 (ntohs (sourceOf d)) = some idx := hfind
    rw [hfind'] at hserve
    exact ⟨_, L', hserve, hs', hcounts⟩

/-! ## Runs -/

/-- A datagram is well formed, and there is room for its client. -/
def Admissible (s : Server) (d : Bytes) : Prop :=
  WellFormed d ∧ (payload d ≠ closeWord → s.findClient (keyOf d).1 (keyOf d).2 = none →
    s.clientCount < maxClients)

instance (s : Server) (d : Bytes) : Decidable (Admissible s d) :=
  inferInstanceAs (Decidable (_ ∧ (_ → _ → _)))

/-- The loop in `main`. -/
def step (s : Server) (d : Bytes) : Option Server := (serve s d).map Prod.fst

/-- The table is the count of the messages in `ds`. -/
def Tallies (s : Server) (ds : List Bytes) : Prop :=
  ∀ k, s.counterOf k =
    if earlier k ds = 0 then none else some ((earlier k ds : Int).bmod (2 ^ 32))

/-- The next number of a client. -/
theorem Tallies.next {s : Server} {ds : List Bytes} (h : Tallies s ds) (k : UInt32 × UInt16) :
    ((s.counterOf k).getD 0 + 1).bmod (2 ^ 32) = ((1 + earlier k ds : ℕ) : Int).bmod (2 ^ 32) := by
  rw [h k]
  split_ifs with h0
  · rw [h0]
    rfl
  · rw [Option.getD_some, Int.bmod_add_bmod]
    congr 1
    omega

/-- One datagram keeps the table, and the table keeps the count. -/
theorem step_tallies {s s' : Server} {L : List ClientInfo} {ds : List Bytes} {d : Bytes}
    (h : s.Holds L) (ht : Tallies s ds) (hd : Admissible s d) (hs : step s d = some s') :
    (∃ L', s'.Holds L') ∧ Tallies s' (ds ++ [d]) := by
  by_cases hclose : payload d = closeWord
  · -- the client's count starts again
    rcases h.serve_close hd.1 hclose with ⟨t, L', hserve, ht', hcounts⟩
    obtain rfl : t = s' := by simpa [step, hserve] using hs
    refine ⟨⟨L', ht'⟩, ?_⟩
    intro k
    rw [hcounts, earlier_concat, if_pos hclose]
    split_ifs with hk h0 h0
    · rfl
    · exact absurd rfl h0
    · rw [ht k, if_pos h0]
    · rw [ht k, if_neg h0]
  · -- the client's count goes up
    obtain ⟨t, L', packet, n, hserve, ht', hn, -, hcounts⟩ := h.serve_message hd.1 hclose (hd.2 hclose)
    obtain rfl : t = s' := by simpa [step, hserve] using hs
    refine ⟨⟨L', ht'⟩, ?_⟩
    intro k
    rw [hcounts, earlier_concat, if_neg hclose]
    by_cases hk : keyOf d = k
    · rw [if_pos hk, if_pos hk, if_neg (Nat.succ_ne_zero _), hn, ht.next, hk, Nat.add_comm]
    · rw [if_neg hk, if_neg hk]
      exact ht k

/-- After every run the table is the count of the run's messages. -/
theorem run_tallies {buffer : Bytes} (hbuf : buffer.length = maxBuf) {ds : List Bytes} {s : Server}
    (h : Run step Admissible (Server.init buffer) ds s) : (∃ L, s.Holds L) ∧ Tallies s ds := by
  induction h with
  | init =>
    have hinit := init_holds hbuf
    refine ⟨⟨[], hinit⟩, ?_⟩
    intro k
    rw [hinit.counterOf]
    rfl
  | step _ hok hs ih =>
    rcases ih with ⟨⟨L, hL⟩, ht⟩
    exact step_tallies hL ht hok hs

/-! ## The number in an answer -/

/-- After every run of well-formed datagrams, with at most `MAX_CLIENTS` clients
at once, no client is registered twice; a message is answered with one plus the
number of the client's earlier messages since its last `CLOSE`, as long as that
is an `int`; and a `CLOSE` is not answered and changes no other client's counter. -/
theorem reply_numbers {buffer : Bytes} (hbuf : buffer.length = maxBuf) {ds : List Bytes} {s : Server}
    (h : Run step Admissible (Server.init buffer) ds s) :
    ((s.clients.take s.clientCount).map fun c => (c.ip, c.port)).Nodup ∧
    ∀ d, Admissible s d →
      (payload d ≠ closeWord → 1 + earlier (keyOf d) ds ≤ 2147483647 →
        ∃ s' packet, serve s d = some (s', some ⟨(keyOf d).1, sourceOf d, packet⟩) ∧
          packet.drop 8 = answer (payload d) (1 + earlier (keyOf d) ds : ℕ)) ∧
      (payload d = closeWord →
        ∃ s', serve s d = some (s', none) ∧
          ∀ k, k ≠ keyOf d → s'.counterOf k = s.counterOf k) := by
  rcases run_tallies hbuf h with ⟨⟨L, hL⟩, ht⟩
  constructor
  · have hnd := hL.nodup
    rw [← hL.registered] at hnd
    exact hnd
  · intro d hd
    constructor
    · intro hmsg hint
      obtain ⟨s', L', packet, n, hserve, -, hn, hdrop, -⟩ := hL.serve_message hd.1 hmsg (hd.2 hmsg)
      -- the counter has not wrapped yet
      have hnum : n = (1 + earlier (keyOf d) ds : ℕ) := by
        rw [hn, ht.next]
        exact Int.bmod_eq_of_le (by omega) (by omega)
      exact ⟨s', packet, hserve, hnum ▸ hdrop⟩
    · intro hclose
      rcases hL.serve_close hd.1 hclose with ⟨s', L', hserve, -, hcounts⟩
      refine ⟨s', hserve, ?_⟩
      intro k hk
      rw [hcounts, if_neg (Ne.symm hk)]

/-- What a client on the port `port` of a host sends. -/
def datagramFrom (port : UInt16) (msg : Bytes) : Bytes :=
  69 :: List.replicate 19 1 ++ clientPacket port msg

/-- Two clients; the record of the second one moves when the first one leaves. -/
theorem reply_numbers_two :
    ∃ s s' packet, Run step Admissible (Server.init (List.replicate 4096 0))
        [datagramFrom 5000 [97], datagramFrom 6000 [98], datagramFrom 6000 [98],
          datagramFrom 5000 closeWord] s ∧
      serve s (datagramFrom 6000 [98]) =
        some (s', some ⟨(keyOf (datagramFrom 6000 [98])).1, sourceOf (datagramFrom 6000 [98]), packet⟩) ∧
      packet.drop 8 = answer [98] 3 := by
  have hex : (exec (guarded step Admissible) (Server.init (List.replicate 4096 0))
      [datagramFrom 5000 [97], datagramFrom 6000 [98], datagramFrom 6000 [98],
        datagramFrom 5000 closeWord]).map
        (fun s => decide (Admissible s (datagramFrom 6000 [98]))) = some true := by
    decide +kernel
  rcases Run.exists_of_exec hex with ⟨s, hrun, hadm⟩
  obtain ⟨s', packet, hserve, hdrop⟩ :=
    ((reply_numbers List.length_replicate hrun).2 _ (of_decide_eq_true hadm)).1 (by decide) (by decide)
  exact ⟨s, s', packet, hrun, hserve, hdrop⟩

/-- A client that sends the same message again and again is always served. -/
theorem replicate_run {buffer : Bytes} (hbuf : buffer.length = maxBuf) {d : Bytes}
    (hd : WellFormed d) (hmsg : payload d ≠ closeWord) (n : ℕ) :
    ∃ s, Run step Admissible (Server.init buffer) (List.replicate n d) s ∧ Admissible s d ∧
      earlier (keyOf d) (List.replicate n d) = n := by
  have hcount : ∀ n, earlier (keyOf d) (List.replicate n d) = n := by
    intro n
    induction n with
    | zero => rfl
    | succ n ih => rw [List.replicate_succ', earlier_concat, if_pos rfl, if_neg hmsg, ih]
  induction n with
  | zero => exact ⟨_, .init, ⟨hd, fun _ _ => Nat.zero_lt_succ 99⟩, rfl⟩
  | succ n ih =>
    rcases ih with ⟨s, hrun, hadm, -⟩
    rcases run_tallies hbuf hrun with ⟨⟨L, hL⟩, ht⟩
    obtain ⟨s', L', packet, m, hserve, hL', -, -, hcounts⟩ := hL.serve_message hd hmsg (hadm.2 hmsg)
    have hstep : step s d = some s' := by rw [step, hserve, Option.map_some]
    refine ⟨s', ?_, ⟨hd, fun _ hfind => ?_⟩, hcount _⟩
    · rw [List.replicate_succ']
      exact hrun.step hadm hstep
    · -- the client is registered after its message
      have hself := hcounts (keyOf d)
      rw [hL'.counterOf_eq_none hfind, if_pos rfl] at hself
      cases hself

/-- After 2147483647 messages the counter overflows, and the next answer has another number. -/
theorem number_overflows :
    ∃ s s' packet, Run step Admissible (Server.init (List.replicate 4096 0))
        (List.replicate 2147483647 (datagramFrom 5000 [97])) s ∧
      Admissible s (datagramFrom 5000 [97]) ∧
      serve s (datagramFrom 5000 [97]) =
        some (s', some ⟨(keyOf (datagramFrom 5000 [97])).1, sourceOf (datagramFrom 5000 [97]), packet⟩) ∧
      earlier (keyOf (datagramFrom 5000 [97])) (List.replicate 2147483647 (datagramFrom 5000 [97])) =
        2147483647 ∧
      packet.drop 8 = answer [97] (-2147483648) ∧
      packet.drop 8 ≠ answer [97] (1 + 2147483647) := by
  have hwf : WellFormed (datagramFrom 5000 [97]) := by decide
  have hmsg : payload (datagramFrom 5000 [97]) ≠ closeWord := by decide
  have hpay : payload (datagramFrom 5000 [97]) = [97] := by decide
  rcases replicate_run List.length_replicate hwf hmsg 2147483647 with ⟨s, hrun, hadm, hcount⟩
  rcases run_tallies List.length_replicate hrun with ⟨⟨L, hL⟩, ht⟩
  rcases hL.serve_message hwf hmsg (hadm.2 hmsg) with ⟨s', L', packet, n, hserve, -, hn, hdrop, -⟩
  -- the counter is at its maximum and wraps
  have hneg : n = -2147483648 := by
    rw [hn, ht.next, hcount]
    rfl
  rw [hpay, hneg] at hdrop
  refine ⟨s, s', packet, hrun, hadm, hserve, hcount, hdrop, ?_⟩
  rw [hdrop]
  intro he
  have hdec := List.tail_eq_of_cons_eq (List.append_cancel_left he)
  exact decimal_ne (by decide) (by decide) hdec

end EmbeddedCourse.Echo
