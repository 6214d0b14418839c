import EmbeddedCourse.Echo.Numbers

/-! # The room in the table of the echo server

`add_client` writes behind the last record and does not ask whether there is
another one. An audience is what the table is for: the clients of which a message
has come since their last `CLOSE`. The server follows it as long as it has no more
than `MAX_CLIENTS` members, and writes `clients[MAX_CLIENTS]` for one more.
-/

namespace EmbeddedCourse.Echo

open CString Fields Keyed

/-- The clients that have been heard, and the buffer in which datagrams are laid over each other. -/
structure Audience where
  buffer : Bytes
  keys : List (UInt32 × UInt16)
deriving DecidableEq, Repr

/-- What a datagram does to the audience; none when it cannot be taken apart inside the arrays. -/
def Audience.hear (a : Audience) (d : Bytes) : Option Audience :=
  if d = [] then some a
  else
    (decode (overlay a.buffer d)).map fun decoded =>
      match decoded with
      | .otherPort => { a with buffer := overlay a.buffer d }
      | .message msg ip source =>
        { buffer := overlay a.buffer d
          keys :=
            if msg = closeWord then a.keys.erase (ip, ntohs source)
            else if (ip, ntohs source) ∈ a.keys then a.keys
            else a.keys ++ [(ip, ntohs source)] }

/-- The indices of `clients` that a pass of the loop writes. -/
def clientsWritten (s : Server) (d : Bytes) : List ℕ :=
  if d = [] then []
  else
    match decode (overlay s.buffer d) with
    | some (.message msg ip source) =>
      match s.findClient ip (ntohs source) with
      | some idx => if msg = closeWord then List.range' idx (s.clientCount - 1 - idx) else [idx]
      | none => if msg = closeWord then [] else [s.clientCount]
    | _ => []

/-- Wherever a sequence of datagrams has come to, the records in use are in the
table, and so is every one that the next datagram writes. -/
def ClientsInTable (buffer : Bytes) (ds : List Bytes) : Prop :=
  ∀ ds' s, ds' <+: ds → Machine.Run step (fun _ _ => True) (Server.init buffer) ds' s →
    s.clientCount ≤ maxClients ∧ ∀ d, ds' ++ [d] <+: ds → ∀ k ∈ clientsWritten s d, k < maxClients

/-- Never are there more than `MAX_CLIENTS` clients in the audience. -/
def Seated (buffer : Bytes) (ds : List Bytes) : Prop :=
  ∀ ds' a, ds' <+: ds → Machine.Run Audience.hear (fun _ _ => True) ⟨buffer, []⟩ ds' a →
    a.keys.length ≤ maxClients

/-- The records in use are those of the audience, in its order. -/
structure Serves (s : Server) (a : Audience) (L : List ClientInfo) : Prop where
  holds : s.Holds L
  buffer : a.buffer = s.buffer
  keys : a.keys = L.map ClientInfo.key

/-! ## The table of a client -/

namespace Server

variable {s : Server} {L : List ClientInfo} {ip : UInt32} {port : UInt16}

theorem Holds.length_le (h : s.Holds L) : L.length ≤ maxClients := by
  rcases h.cells with ⟨spare, hspare⟩
  rw [← h.size, hspare, List.length_append]
  omega

theorem Holds.known (h : s.Holds L) (hin : (ip, port) ∈ L.map ClientInfo.key) :
    ∃ A c B, L = A ++ c :: B ∧ c.key = (ip, port) ∧ (ip, port) ∉ A.map ClientInfo.key ∧
      s.findClient ip port = some A.length := by
  rcases findIdx_cases ClientInfo.key (ip, port) L with ⟨-, hout⟩ | ⟨A, c, B, hL, hc, hA, hsome⟩
  · exact absurd hin hout
  · refine ⟨A, c, B, hL, hc, hA, ?_⟩
    rw [h.findClient, hsome]

theorem Holds.unknown (h : s.Holds L) (hout : (ip, port) ∉ L.map ClientInfo.key) :
    s.findClient ip port = none := by
  rcases findIdx_cases ClientInfo.key (ip, port) L with ⟨hnone, -⟩ | ⟨A, c, B, rfl, hc, -, -⟩
  · rw [h.findClient, hnone]
  · refine absurd ?_ hout
    rw [List.map_append, List.map_cons, hc]
    exact List.mem_append_right _ List.mem_cons_self

/-- Behind the last record of the array there is none. -/
theorem Holds.addClient_full (h : s.Holds L) (hfull : L.length = maxClients) :
    s.addClient ip port = none := by
  have hsize := h.size
  have hcount := h.count
  rw [Server.addClient, if_neg (by omega)]

end Server

/-! ## One datagram -/

theorem decode_message {buffer msg source : Bytes} {ip : UInt32}
    (h : decode buffer = some (.message msg ip source)) : msg.length ≤ 1023 ∧ source.length = 2 := by
  have hpeek : ∀ {i n b}, peek buffer i n = some b → b.length = n := by
    intro i n b hb
    unfold peek at hb
    split_ifs at hb with hle
    rw [← Option.some.inj hb, List.length_take, List.length_drop]
    omega
  unfold decode at h
  rcases Option.bind_eq_some_iff.mp h with ⟨dest, -, h⟩
  -- a datagram for another port has no message
  split_ifs at h with hport
  · cases h
  · rcases Option.bind_eq_some_iff.mp h with ⟨len, -, h⟩
    split_ifs at h with hlen
    rcases Option.bind_eq_some_iff.mp h with ⟨data, hdata, h⟩
    rcases Option.bind_eq_some_iff.mp h with ⟨saddr, -, h⟩
    rcases Option.map_eq_some_iff.mp h with ⟨source', hsource, heq⟩
    obtain ⟨rfl, -, rfl⟩ : cstr data = msg ∧ word saddr = ip ∧ source' = source :=
      Decoded.message.inj heq
    have hcut : (cstr data).length ≤ data.length := (List.takeWhile_sublist _).length_le
    have hdata' := hpeek hdata
    constructor
    · omega
    · exact hpeek hsource

/-- A counter is an `int`. -/
theorem natAbs_counted (c : ClientInfo) : c.counted.counter.natAbs ≤ 2 ^ 31 := natAbs_bmod_le _

section

variable {s : Server} {a : Audience} {L : List ClientInfo}

/-- What a datagram does to the server and to the audience: it cannot be taken
apart; it is served inside the table; or it adds a client to a full one. -/
inductive Heard (s : Server) (a : Audience) (d : Bytes) : Prop
  | broken (hear : a.hear d = none) (serve : step s d = none) (writes : clientsWritten s d = [])
  | served (a' : Audience) (s' : Server) (L' : List ClientInfo) (hear : a.hear d = some a')
      (serve : step s d = some s') (follows : Serves s' a' L')
      (writes : ∀ k ∈ clientsWritten s d, k < maxClients)
  | full (a' : Audience) (hear : a.hear d = some a') (length : maxClients < a'.keys.length)
      (serve : step s d = none) (writes : maxClients ∈ clientsWritten s d)

variable {d msg source : Bytes} {ip : UInt32}

theorem Audience.hear_message (hd : d ≠ [])
    (hdecode : decode (overlay a.buffer d) = some (.message msg ip source)) :
    a.hear d =
      some
        { buffer := overlay a.buffer d
          keys :=
            if msg = closeWord then a.keys.erase (ip, ntohs source)
            else if (ip, ntohs source) ∈ a.keys then a.keys
            else a.keys ++ [(ip, ntohs source)] } := by
  rw [Audience.hear, if_neg hd, hdecode, Option.map_some]

theorem clientsWritten_message (hd : d ≠ [])
    (hdecode : decode (overlay s.buffer d) = some (.message msg ip source)) :
    clientsWritten s d =
      match s.findClient ip (ntohs source) with
      | some idx => if msg = closeWord then List.range' idx (s.clientCount - 1 - idx) else [idx]
      | none => if msg = closeWord then [] else [s.clientCount] := by
  rw [clientsWritten, if_neg hd, hdecode]

/-- The table and the audience after a message of a client whose record is there. -/
theorem Serves.heard_known (h : Serves s a L) (hd : d ≠ [])
    (hdecode : decode (overlay s.buffer d) = some (.message msg ip source)) (hmsg : msg ≠ closeWord)
    (hin : (ip, ntohs source) ∈ L.map ClientInfo.key) : Heard s a d := by
  have hhear := Audience.hear_message hd (h.buffer ▸ hdecode)
  have hserve := serve_of_message hd hdecode hmsg
  have hwrites := clientsWritten_message hd hdecode
  have hr := h.holds.receive d
  rcases hr.known hin with ⟨A, c, B, rfl, hc, hA, hfind⟩
  have hfind' : s.findClient ip (ntohs source) = some A.length := hfind
  have hmem : (ip, ntohs source) ∈ a.keys := by rwa [h.keys]
  rcases decode_message hdecode with ⟨hlen, hsource⟩
  rcases hr.countUp with ⟨hone, hs'⟩
  rcases replyPacket_fields hsource hlen (natAbs_counted c) with ⟨packet, hpacket, -⟩
  rw [if_neg hmsg, if_pos hmem] at hhear
  rw [Server.enter, hfind, Option.bind_some] at hserve
  dsimp only at hserve
  rw [hone, hpacket, Option.map_some] at hserve
  rw [hfind'] at hwrites
  dsimp only at hwrites
  rw [if_neg hmsg] at hwrites
  apply Heard.served _ _ (A ++ c.counted :: B) hhear
  · rw [step, hserve, Option.map_some]
  · constructor
    · exact hs'
    · rw [h.buffer]
      rfl
    · rw [h.keys]
      simp
  · intro k hk
    -- its own record is the only one that is written
    have hle := h.holds.length_le
    rw [List.length_append, List.length_cons] at hle
    rw [hwrites] at hk
    rw [List.mem_singleton.mp hk]
    omega

/-- The first message of a client, for which there may be no record left. -/
theorem Serves.heard_unknown (h : Serves s a L) (hd : d ≠ [])
    (hdecode : decode (overlay s.buffer d) = some (.message msg ip source)) (hmsg : msg ≠ closeWord)
    (hout : (ip, ntohs source) ∉ L.map ClientInfo.key) : Heard s a d := by
  have hhear := Audience.hear_message hd (h.buffer ▸ hdecode)
  have hserve := serve_of_message hd hdecode hmsg
  have hwrites := clientsWritten_message hd hdecode
  have hr := h.holds.receive d
  have hfind := hr.unknown hout
  have hfind' : s.findClient ip (ntohs source) = none := hfind
  have hmem : (ip, ntohs source) ∉ a.keys := by rwa [h.keys]
  have hcount := h.holds.count
  have hle := h.holds.length_le
  rw [if_neg hmsg, if_neg hmem] at hhear
  rw [Server.enter, hfind] at hserve
  dsimp only at hserve
  rw [hfind'] at hwrites
  dsimp only at hwrites
  rw [if_neg hmsg, hcount] at hwrites
  rcases Nat.lt_or_ge L.length maxClients with hroom | hfull
  · obtain ⟨s₁, hadd, hs₁⟩ := hr.addClient (Nat.lt_of_le_of_lt (Nat.le_of_eq hcount) hroom) hout
    rcases hs₁.countUp with ⟨hone, hs'⟩
    rcases decode_message hdecode with ⟨hlen, hsource⟩
    rcases replyPacket_fields hsource hlen (natAbs_counted ⟨ip, ntohs source, 0⟩) with ⟨packet, hpacket, -⟩
    rw [hadd, Option.bind_some] at hserve
    dsimp only at hserve
    rw [hone, hpacket, Option.map_some] at hserve
    apply Heard.served _ _ (L ++ [ClientInfo.counted ⟨ip, ntohs source, 0⟩]) hhear
    · rw [step, hserve, Option.map_some]
    · constructor
      · exact hs'
      · have hbuffer : s₁.buffer = overlay s.buffer d := by
          unfold Server.addClient at hadd
          split_ifs at hadd
          exact congrArg Server.buffer (Prod.mk.inj (Option.some.inj hadd)).2.symm
        change overlay a.buffer d = s₁.buffer
        rw [hbuffer, h.buffer]
      · rw [h.keys, List.map_append, List.map_singleton, ClientInfo.counted_key]
        rfl
    · intro k hk
      rw [hwrites] at hk
      rw [List.mem_singleton.mp hk]
      exact hroom
  · -- the record would be the one behind the table
    rw [hr.addClient_full (Nat.le_antisymm hle hfull)] at hserve
    apply Heard.full _ hhear
    · rw [h.keys, List.length_append, List.length_map, List.length_singleton]
      omega
    · rw [step, hserve]
      rfl
    · rw [hwrites, List.mem_singleton]
      exact Nat.le_antisymm hfull hle

/-- A `CLOSE`, of a client whose record is there or of another one. -/
theorem Serves.heard_close (h : Serves s a L) (hd : d ≠ [])
    (hdecode : decode (overlay s.buffer d) = some (.message closeWord ip source)) : Heard s a d := by
  have hhear := Audience.hear_message hd (h.buffer ▸ hdecode)
  have hserve := serve_of_close hd hdecode
  have hwrites := clientsWritten_message hd hdecode
  have hr := h.holds.receive d
  rw [if_pos rfl] at hhear
  by_cases hin : (ip, ntohs source) ∈ L.map ClientInfo.key
  · -- the records behind its own are moved down
    rcases hr.known hin with ⟨A, c, B, rfl, hc, hA, hfind⟩
    have hfind' : s.findClient ip (ntohs source) = some A.length := hfind
    have hcount := h.holds.count
    have hle := h.holds.length_le
    rw [hfind'] at hserve hwrites
    dsimp only at hserve hwrites
    rw [if_pos rfl] at hwrites
    apply Heard.served _ _ (A ++ B) hhear
    · rw [step, hserve, Option.map_some]
    · constructor
      · exact hr.removeClient
      · rw [h.buffer]
        rfl
      · rw [h.keys, List.map_append, List.map_cons, hc, List.erase_append_right _ hA,
          List.erase_cons_head, List.map_append]
    · intro k hk
      rw [hwrites, List.mem_range'_1] at hk
      omega
  · -- nobody with this name: the table stays as it is
    have hfind' : s.findClient ip (ntohs source) = none := hr.unknown hin
    rw [hfind'] at hserve hwrites
    dsimp only at hserve hwrites
    rw [if_pos rfl] at hwrites
    apply Heard.served _ _ L hhear
    · rw [step, hserve, Option.map_some]
    · constructor
      · exact hr
      · rw [h.buffer]
      · rw [h.keys, List.erase_of_not_mem hin]
    · intro k hk
      rw [hwrites] at hk
      cases hk

theorem Serves.heard (h : Serves s a L) (d : Bytes) : Heard s a d := by
  by_cases hd : d = []
  · subst hd
    apply Heard.served a s L rfl rfl h
    intro k hk
    cases hk
  · cases hdecode : decode (overlay s.buffer d) with
    | none =>
      apply Heard.broken
      · rw [Audience.hear, if_neg hd, h.buffer, hdecode]
        rfl
      · rw [step, serve, if_neg hd]
        dsimp only
        rw [hdecode]
        rfl
      · rw [clientsWritten, if_neg hd, hdecode]
    | some decoded =>
      cases decoded with
      | otherPort =>
        apply Heard.served { a with buffer := overlay a.buffer d } { s with buffer := overlay s.buffer d } L
        · rw [Audience.hear, if_neg hd, h.buffer, hdecode]
          rfl
        · rw [step, serve, if_neg hd]
          dsimp only
          rw [hdecode]
          rfl
        · constructor
          · exact h.holds.receive d
          · rw [h.buffer]
          · exact h.keys
        · intro k hk
          rw [clientsWritten, if_neg hd, hdecode] at hk
          cases hk
      | message msg ip source =>
        by_cases hmsg : msg = closeWord
        · subst hmsg
          exact h.heard_close hd hdecode
        · by_cases hin : (ip, ntohs source) ∈ L.map ClientInfo.key
          · exact h.heard_known hd hdecode hmsg hin
          · exact h.heard_unknown hd hdecode hmsg hin

end

/-! ## Runs -/

/-- Wherever the server comes to, there is an audience that it serves. -/
theorem serves_of_run {buffer : Bytes} (hbuf : buffer.length = maxBuf) {ds : List Bytes} {s : Server}
    (h : Machine.Run step (fun _ _ => True) (Server.init buffer) ds s) :
    ∃ a L, Machine.Run Audience.hear (fun _ _ => True) ⟨buffer, []⟩ ds a ∧ Serves s a L := by
  induction h with
  | init => exact ⟨⟨buffer, []⟩, [], .init, Server.init_holds hbuf, rfl, rfl⟩
  | @step ds s d s' _ _ hs ih =>
    rcases ih with ⟨a, L, ha, hserves⟩
    rcases hserves.heard d with ⟨-, hnone, -⟩ | ⟨a', t, L', hhear, ht, hfollows, -⟩ | ⟨-, -, -, hnone, -⟩
    · rw [hnone] at hs
      cases hs
    · obtain rfl : t = s' := Option.some.inj (ht.symm.trans hs)
      exact ⟨a', L', ha.step trivial hhear, hfollows⟩
    · rw [hnone] at hs
      cases hs

/-- While the table is not overrun, the server serves every audience. -/
theorem run_of_hear {buffer : Bytes} (hbuf : buffer.length = maxBuf) {ds ds' : List Bytes}
    (hin : ClientsInTable buffer ds) (hpre : ds' <+: ds) {a : Audience}
    (h : Machine.Run Audience.hear (fun _ _ => True) ⟨buffer, []⟩ ds' a) :
    ∃ s L, Machine.Run step (fun _ _ => True) (Server.init buffer) ds' s ∧ Serves s a L := by
  induction h with
  | init => exact ⟨Server.init buffer, [], .init, Server.init_holds hbuf, rfl, rfl⟩
  | @step ds' a d a' _ _ ha ih =>
    rcases ih ((List.prefix_append ds' [d]).trans hpre) with ⟨s, L, hs, hserves⟩
    rcases hserves.heard d with ⟨hnone, -, -⟩ | ⟨b, s', L', hhear, hs', hfollows, -⟩ | ⟨-, -, -, -, hwrites⟩
    · rw [hnone] at ha
      cases ha
    · obtain rfl : b = a' := Option.some.inj (hhear.symm.trans ha)
      exact ⟨s', L', hs.step trivial hs', hfollows⟩
    · -- one client too many: its record would be the one behind the table
      have hrun := hin ds' s ((List.prefix_append ds' [d]).trans hpre) hs
      exact absurd (hrun.2 d hpre maxClients hwrites) (Nat.lt_irrefl _)

/-- For every sequence of datagrams: the table of clients is not overrun if and only
if no more than `MAX_CLIENTS` clients are in the audience at any time. -/
theorem clientsInTable_iff {buffer : Bytes} (hbuf : buffer.length = maxBuf) (ds : List Bytes) :
    ClientsInTable buffer ds ↔ Seated buffer ds := by
  constructor
  · intro hin ds' a hpre ha
    rcases run_of_hear hbuf hin hpre ha with ⟨s, L, -, hserves⟩
    rw [hserves.keys, List.length_map]
    exact hserves.holds.length_le
  · intro hseated ds' s hpre hs
    rcases serves_of_run hbuf hs with ⟨a, L, ha, hserves⟩
    constructor
    · rw [hserves.holds.count]
      exact hserves.holds.length_le
    · intro d hpre' k hk
      rcases hserves.heard d with ⟨-, -, hnil⟩ | ⟨a', s', L', -, -, -, hwrites⟩ | ⟨a', hhear, hlong, -, -⟩
      · rw [hnil] at hk
        cases hk
      · exact hwrites k hk
      · have hle := hseated (ds' ++ [d]) a' hpre' (ha.step trivial hhear)
        exact absurd hlong (Nat.not_lt.mpr hle)

theorem Audience.length_hear {a a' : Audience} {d : Bytes} (h : a.hear d = some a') :
    a'.keys.length ≤ a.keys.length + 1 := by
  unfold Audience.hear at h
  split_ifs at h with hd
  · obtain rfl := Option.some.inj h
    omega
  · rcases Option.map_eq_some_iff.mp h with ⟨decoded, -, rfl⟩
    cases decoded with
    | otherPort => exact Nat.le_succ _
    | message msg ip source =>
      dsimp only
      split_ifs
      · exact List.length_erase_le.trans (Nat.le_succ _)
      · exact Nat.le_succ _
      · simp

/-- A hundred datagrams are no crowd. -/
theorem seated_of_length {buffer : Bytes} {ds : List Bytes} (hlen : ds.length ≤ maxClients) :
    Seated buffer ds := by
  intro ds' a hpre ha
  have hkeys : a.keys.length ≤ ds'.length := by
    clear hpre
    induction ha with
    | init => exact Nat.le_refl _
    | step _ _ hs ih =>
      have hone := Audience.length_hear hs
      rw [List.length_append, List.length_singleton]
      omega
  exact hkeys.trans (hpre.length_le.trans hlen)

end EmbeddedCourse.Echo
