import EmbeddedCourse.Lib.CString
import EmbeddedCourse.Lib.Fields

/-! # The receive loop of the raw clients

`Sockets/Task_4/client_1.c` and `client_2.c` have the same loop: packets with their IP
header are received until one is for the port 7777, and its text is printed. The turns
record what is read of `recv`.
-/

namespace EmbeddedCourse.Sockets.RawClient

open CString Fields

/-- What `recvfrom` may return. -/
structure Packet where
  bytes : Bytes
  low : 20 ≤ bytes.length
  high : bytes.length ≤ 4095

/-- A packet, and what stands in `recv` before it is received. -/
structure Delivery where
  recv : Bytes
  packet : Packet
  length_recv : recv.length = 4096

/-- What is printed. -/
inductive Line where
  | notUdp (protocol : ℕ)
  | ports (src dst : UInt16)
  | text (s : Bytes)
deriving DecidableEq

/-- A byte of `recv` that is examined: in a header, or by `printf` in the text. -/
inductive Access where
  | header (i : ℕ)
  | text (i : ℕ)

/-- A turn of the loop. -/
structure Turn where
  reads : List Access
  lines : List Line
  done : Bool

/-- The turn behind the `continue`s, for a UDP packet. -/
def udpTurn (d : Delivery) : Turn :=
  let size := d.packet.bytes.length
  let recv := overlay d.recv d.packet.bytes
  let ipHeaderLen := (recv.getD 0 0).toNat % 16 * 4
  let sizeData : ℤ := size - ipHeaderLen - 8
  let source := ntohs (recv.drop ipHeaderLen)
  let dest := ntohs (recv.drop (ipHeaderLen + 2))
  let header := [.header 0, .header 9, .header ipHeaderLen, .header (ipHeaderLen + 1),
    .header (ipHeaderLen + 2), .header (ipHeaderLen + 3)]
  if dest = 7777 then
    -- `resp_data[size_data] = 0`, at a negative index, too
    let recv := recv.set (ipHeaderLen + 8 + sizeData).toNat 0
    let respData := cstr (recv.drop (ipHeaderLen + 8))
    ⟨header ++ (List.range (respData.length + 1)).map fun i => .text (ipHeaderLen + 8 + i),
      [.ports source dest, .text respData], true⟩
  else ⟨header, [.ports source dest], false⟩

def turn (d : Delivery) : Turn :=
  let recv := overlay d.recv d.packet.bytes
  let version := (recv.getD 0 0).toNat / 16
  let protocol := (recv.getD 9 0).toNat
  if version ≠ 4 then ⟨[.header 0], [], false⟩
  else if protocol ≠ 17 then ⟨[.header 0, .header 9], [.notUdp protocol], false⟩
  else udpTurn d

/-- What the loop has done with the packets: what it has read of each, what it has printed,
and what it does not receive any more when it has stopped. -/
structure Received where
  reads : List (Packet × Access)
  lines : List Line
  rest : Option (List Delivery)

def receiveLoop : List Delivery → Received
  | [] => ⟨[], [], none⟩
  | d :: ds =>
    let t := turn d
    let reads := t.reads.map (d.packet, ·)
    if t.done = true then ⟨reads, t.lines, some ds⟩
    else
      let r := receiveLoop ds
      ⟨reads ++ r.reads, t.lines ++ r.lines, r.rest⟩

/-! ## What a packet says -/

namespace Packet

def ipHeaderLen (p : Packet) : ℕ := (p.bytes.getD 0 0).toNat % 16 * 4

/-- An IPv4 packet with the protocol UDP. -/
def IsUdp (p : Packet) : Prop :=
  (p.bytes.getD 0 0).toNat / 16 = 4 ∧ (p.bytes.getD 9 0).toNat = 17

/-- A UDP packet whose destination port is 7777. -/
def ForPort (p : Packet) : Prop :=
  p.IsUdp ∧ (peek p.bytes (p.ipHeaderLen + 2) 2).map ntohs = some 7777

instance (p : Packet) : Decidable p.IsUdp := inferInstanceAs (Decidable (_ ∧ _))

instance (p : Packet) : Decidable p.ForPort := inferInstanceAs (Decidable ((_ ∧ _) ∧ _))

/-- The payload up to its first NUL. -/
def payload (p : Packet) : Bytes := cstr (p.bytes.drop (p.ipHeaderLen + 8))

/-- The ports of a UDP packet are in it, and all of the UDP header if it is for the port. -/
def Intact (p : Packet) : Prop :=
  p.IsUdp → p.ipHeaderLen + 4 ≤ p.bytes.length ∧ (p.ForPort → p.ipHeaderLen + 8 ≤ p.bytes.length)

end Packet

/-- An access within the bytes received; the text ends at the latest at the NUL that is put
behind them. -/
def Access.Within (size : ℕ) : Access → Prop
  | .header i => i < size
  | .text i => i ≤ size

/-- The texts among the lines. -/
def texts (lines : List Line) : List Bytes :=
  lines.filterMap fun line =>
    match line with
    | .text s => some s
    | _ => none

/-! ## One packet -/

section Turn

variable (d : Delivery)

theorem overlay_packet :
    overlay d.recv d.packet.bytes = d.packet.bytes ++ d.recv.drop d.packet.bytes.length := by
  have hhigh := d.packet.high
  have hrecv := d.length_recv
  exact overlay_of_le (by omega)

theorem getD_overlay {i : ℕ} (h : i < d.packet.bytes.length) :
    (overlay d.recv d.packet.bytes).getD i 0 = d.packet.bytes.getD i 0 := by
  rw [overlay_packet]
  exact List.getD_append _ _ _ _ h

theorem ntohs_overlay {i : ℕ} (h : i + 2 ≤ d.packet.bytes.length) :
    ntohs ((overlay d.recv d.packet.bytes).drop i) =
      ntohs ((d.packet.bytes.drop i).take 2) := by
  have hfirst := getD_overlay d (i := i) (by omega)
  have hsecond := getD_overlay d (i := i + 1) (by omega)
  simp only [List.getD_eq_getElem?_getD] at hfirst hsecond
  simp [ntohs, List.getD_eq_getElem?_getD, hfirst, hsecond]

/-- The text that is printed, if all of the UDP header was received. -/
theorem cstr_set_overlay {n : ℕ} (h : n ≤ d.packet.bytes.length) :
    cstr (((overlay d.recv d.packet.bytes).set d.packet.bytes.length 0).drop n) =
      cstr (d.packet.bytes.drop n) := by
  have hhigh := d.packet.high
  have hrecv := d.length_recv
  cases hrest : d.recv.drop d.packet.bytes.length with
  | nil =>
    rw [List.drop_eq_nil_iff] at hrest
    omega
  | cons x rest =>
    rw [overlay_packet, hrest, Cells.set_middle rfl, List.drop_append_of_le_length h, cstr_append_zero]

/-- What is examined of another packet is in it. -/
theorem turn_not_udp (h : ¬ d.packet.IsUdp) :
    (∀ a ∈ (turn d).reads, a.Within d.packet.bytes.length) ∧ (turn d).done = false ∧
      texts (turn d).lines = [] := by
  have hlow := d.packet.low
  have hzero : Access.Within d.packet.bytes.length (.header 0) := by
    show 0 < _
    omega
  have hnine : Access.Within d.packet.bytes.length (.header 9) := by
    show 9 < _
    omega
  unfold turn
  dsimp only
  rw [getD_overlay d (by omega), getD_overlay d (by omega)]
  split_ifs with hversion hprotocol
  · exact ⟨by simpa using hzero, rfl, rfl⟩
  · exact ⟨by simpa using ⟨hzero, hnine⟩, rfl, rfl⟩
  · exact absurd ⟨not_not.mp hversion, not_not.mp hprotocol⟩ h

theorem turn_udp (h : d.packet.IsUdp) : turn d = udpTurn d := by
  have hlow := d.packet.low
  unfold turn
  dsimp only
  rw [getD_overlay d (by omega), getD_overlay d (by omega), if_neg (not_not.mpr h.1),
    if_neg (not_not.mpr h.2)]

theorem ipHeaderLen_overlay :
    ((overlay d.recv d.packet.bytes).getD 0 0).toNat % 16 * 4 = d.packet.ipHeaderLen := by
  have hlow := d.packet.low
  rw [getD_overlay d (by omega)]
  rfl

/-- The bytes of the header are examined whatever the size is. -/
theorem header_mem_udpTurn : .header (d.packet.ipHeaderLen + 3) ∈ (udpTurn d).reads := by
  unfold udpTurn
  dsimp only
  rw [ipHeaderLen_overlay]
  split_ifs
  · simp
  · simp

theorem forPort_iff (hudp : d.packet.IsUdp)
    (h : d.packet.ipHeaderLen + 4 ≤ d.packet.bytes.length) :
    d.packet.ForPort ↔
      ntohs ((overlay d.recv d.packet.bytes).drop (d.packet.ipHeaderLen + 2)) = 7777 := by
  rw [ntohs_overlay d (by omega), Packet.ForPort, peek, if_pos (by omega), Option.map_some,
    Option.some_inj]
  constructor
  · intro hport
    exact hport.2
  · intro hdest
    exact ⟨hudp, hdest⟩

/-- The header of a UDP packet that has its ports is examined within it. -/
theorem header_within (h : d.packet.ipHeaderLen + 4 ≤ d.packet.bytes.length) :
    ∀ a ∈ [Access.header 0, .header 9, .header d.packet.ipHeaderLen,
      .header (d.packet.ipHeaderLen + 1), .header (d.packet.ipHeaderLen + 2),
      .header (d.packet.ipHeaderLen + 3)], a.Within d.packet.bytes.length := by
  have hlow := d.packet.low
  simp only [List.forall_mem_cons, List.not_mem_nil, false_implies, implies_true, Access.Within,
    and_true]
  omega

theorem udpTurn_other (hudp : d.packet.IsUdp)
    (h : d.packet.ipHeaderLen + 4 ≤ d.packet.bytes.length) (hport : ¬ d.packet.ForPort) :
    (∀ a ∈ (udpTurn d).reads, a.Within d.packet.bytes.length) ∧ (udpTurn d).done = false ∧
      texts (udpTurn d).lines = [] := by
  rw [forPort_iff d hudp h] at hport
  unfold udpTurn
  dsimp only
  rw [ipHeaderLen_overlay, if_neg hport]
  exact ⟨header_within d h, rfl, rfl⟩

/-- The turn for a packet that is for the port. -/
theorem udpTurn_port (hudp : d.packet.IsUdp)
    (h : d.packet.ipHeaderLen + 4 ≤ d.packet.bytes.length) (hport : d.packet.ForPort) :
    ∃ s header src dst,
      s = cstr (((overlay d.recv d.packet.bytes).set d.packet.bytes.length 0).drop
        (d.packet.ipHeaderLen + 8)) ∧
      (∀ a ∈ header, Access.Within d.packet.bytes.length a) ∧
      udpTurn d = ⟨header ++ (List.range (s.length + 1)).map fun i =>
        .text (d.packet.ipHeaderLen + 8 + i), [.ports src dst, .text s], true⟩ := by
  have hsize : ((d.packet.ipHeaderLen : ℤ) + 8 +
      ((d.packet.bytes.length : ℤ) - d.packet.ipHeaderLen - 8)).toNat = d.packet.bytes.length := by
    omega
  rw [forPort_iff d hudp h] at hport
  unfold udpTurn
  dsimp only
  rw [ipHeaderLen_overlay, if_pos hport, hsize]
  exact ⟨_, _, _, _, rfl, header_within d h, rfl⟩

/-- The payload is printed, if all of the UDP header was received. -/
theorem udpTurn_payload (hudp : d.packet.IsUdp)
    (h : d.packet.ipHeaderLen + 8 ≤ d.packet.bytes.length) (hport : d.packet.ForPort) :
    (∀ a ∈ (udpTurn d).reads, a.Within d.packet.bytes.length) ∧ (udpTurn d).done = true ∧
      texts (udpTurn d).lines = [d.packet.payload] := by
  rcases udpTurn_port d hudp (by omega) hport with ⟨s, header, src, dst, hs, hheader, hturn⟩
  rw [cstr_set_overlay d h] at hs
  rw [hturn]
  refine ⟨?_, rfl, by rw [hs]; rfl⟩
  have hlen := length_cstr_le (d.packet.bytes.drop (d.packet.ipHeaderLen + 8))
  rw [← hs, List.length_drop] at hlen
  intro a ha
  rcases List.mem_append.mp ha with ha | ha
  · exact hheader a ha
  · rcases List.mem_map.mp ha with ⟨i, hi, rfl⟩
    rw [List.mem_range] at hi
    show _ ≤ _
    omega

/-! ## Intact packets -/

/-- What a turn does with an intact packet. -/
theorem turn_intact (h : d.packet.Intact) :
    (∀ a ∈ (turn d).reads, a.Within d.packet.bytes.length) ∧
      (turn d).done = decide d.packet.ForPort ∧
      texts (turn d).lines = if d.packet.ForPort then [d.packet.payload] else [] := by
  by_cases hudp : d.packet.IsUdp
  · have hin := h hudp
    rw [turn_udp d hudp]
    by_cases hport : d.packet.ForPort
    · simp only [hport, decide_true, if_true]
      exact udpTurn_payload d hudp (hin.2 hport) hport
    · simp only [hport, decide_false, if_false]
      exact udpTurn_other d hudp hin.1 hport
  · have hport : ¬ d.packet.ForPort := fun hport => hudp hport.1
    simp only [hport, decide_false, if_false]
    exact turn_not_udp d hudp

/-- With a packet that is not intact, a byte behind it is examined. -/
theorem turn_not_intact (h : ¬ d.packet.Intact) :
    ∃ a ∈ (turn d).reads, ¬ a.Within d.packet.bytes.length := by
  have hudp : d.packet.IsUdp := by
    by_contra hnot
    exact h fun hudp => absurd hudp hnot
  rw [turn_udp d hudp]
  by_cases hports : d.packet.ipHeaderLen + 4 ≤ d.packet.bytes.length
  · have hshort : d.packet.ForPort ∧ d.packet.bytes.length < d.packet.ipHeaderLen + 8 := by
      by_contra hnot
      exact h fun _ => ⟨hports, fun hport => Nat.le_of_not_lt fun hlt => hnot ⟨hport, hlt⟩⟩
    rcases udpTurn_port d hudp hports hshort.1 with ⟨s, header, src, dst, -, -, hturn⟩
    refine ⟨.text (d.packet.ipHeaderLen + 8), ?_, ?_⟩
    · rw [hturn]
      refine List.mem_append_right _ (List.mem_map.mpr ⟨0, ?_, rfl⟩)
      simp
    · show ¬ _ ≤ _
      omega
  · refine ⟨_, header_mem_udpTurn d, ?_⟩
    show ¬ _ < _
    omega

end Turn

/-! ## The loop -/

/-- What should be left of the packets: what is behind the first one for the port. -/
def behindFirst (ds : List Delivery) : List Delivery := ds.dropWhile fun d => ¬ d.packet.ForPort

/-- The packets up to the first one for the port. -/
def upToFirst : List Delivery → List Delivery
  | [] => []
  | d :: ds => if d.packet.ForPort then [d] else d :: upToFirst ds

/-- Every access is within its packet; the loop stops at the first packet for the port, whose
payload is all the text it prints, and it goes on waiting as long as there is none. -/
structure Decodes (ds : List Delivery) : Prop where
  within : ∀ x ∈ (receiveLoop ds).reads, x.2.Within x.1.bytes.length
  texts_eq : texts (receiveLoop ds).lines = ((behindFirst ds).head?.map fun d => d.packet.payload).toList
  rest_eq : (receiveLoop ds).rest = match behindFirst ds with
    | [] => none
    | _ :: rest => some rest

theorem texts_append (xs ys : List Line) : texts (xs ++ ys) = texts xs ++ texts ys :=
  List.filterMap_append

theorem reads_turn_subset (d : Delivery) (ds : List Delivery) {a : Access} (ha : a ∈ (turn d).reads) :
    (d.packet, a) ∈ (receiveLoop (d :: ds)).reads := by
  have hmem : (d.packet, a) ∈ (turn d).reads.map (d.packet, ·) := List.mem_map.mpr ⟨a, ha, rfl⟩
  unfold receiveLoop
  dsimp only
  split_ifs
  · exact hmem
  · exact List.mem_append_left _ hmem

/-- Packets up to the first one for the port, all of them intact. -/
theorem decodes_of_intact {ds : List Delivery} (h : ∀ d ∈ upToFirst ds, d.packet.Intact) :
    Decodes ds := by
  induction ds with
  | nil => exact ⟨by simp [receiveLoop], rfl, rfl⟩
  | cons d ds ih =>
    have hd : d.packet.Intact := h d (by unfold upToFirst; split_ifs <;> simp)
    rcases turn_intact d hd with ⟨hwithin, hdone, htexts⟩
    have hreads : ∀ x ∈ (turn d).reads.map (d.packet, ·), x.2.Within x.1.bytes.length := by
      intro x hx
      rcases List.mem_map.mp hx with ⟨a, ha, rfl⟩
      exact hwithin a ha
    by_cases hport : d.packet.ForPort
    · -- the loop ends here
      have hloop : receiveLoop (d :: ds) =
          ⟨(turn d).reads.map (d.packet, ·), (turn d).lines, some ds⟩ := by
        rw [receiveLoop]
        simp [hdone, hport]
      have hbehind : behindFirst (d :: ds) = d :: ds := by simp [behindFirst, hport]
      refine ⟨?_, ?_, ?_⟩
      · rw [hloop]
        exact hreads
      · rw [hloop, hbehind, htexts, if_pos hport]
        rfl
      · rw [hloop, hbehind]
    · have hloop : receiveLoop (d :: ds) =
          ⟨(turn d).reads.map (d.packet, ·) ++ (receiveLoop ds).reads,
            (turn d).lines ++ (receiveLoop ds).lines, (receiveLoop ds).rest⟩ := by
        rw [receiveLoop]
        simp [hdone, hport]
      have hbehind : behindFirst (d :: ds) = behindFirst ds := by simp [behindFirst, hport]
      have hrest := ih fun x hx => h x (by rw [upToFirst, if_neg hport]; exact List.mem_cons_of_mem d hx)
      refine ⟨?_, ?_, ?_⟩
      · rw [hloop]
        intro x hx
        rcases List.mem_append.mp hx with hx | hx
        · exact hreads x hx
        · exact hrest.within x hx
      · rw [hloop, hbehind, texts_append, htexts, if_neg hport, List.nil_append, hrest.texts_eq]
      · rw [hloop, hbehind, hrest.rest_eq]

/-- When all that is read is within its packet, the packets are intact. -/
theorem intact_of_within {ds : List Delivery}
    (h : ∀ x ∈ (receiveLoop ds).reads, x.2.Within x.1.bytes.length) :
    ∀ d ∈ upToFirst ds, d.packet.Intact := by
  induction ds with
  | nil =>
    intro d hd
    exact absurd hd (by simp [upToFirst])
  | cons d ds ih =>
    have hd : d.packet.Intact := by
      by_contra hnot
      rcases turn_not_intact d hnot with ⟨a, ha, hout⟩
      exact hout (h _ (reads_turn_subset d ds ha))
    by_cases hport : d.packet.ForPort
    · -- the loop ends with this packet
      rw [upToFirst, if_pos hport]
      intro x hx
      rw [List.mem_singleton.mp hx]
      exact hd
    · have hdone := (turn_intact d hd).2.1
      -- the rest is read by the rest of the loop
      have htail : ∀ x ∈ (receiveLoop ds).reads, x.2.Within x.1.bytes.length := by
        intro x hx
        apply h x
        rw [receiveLoop]
        simp only [hdone, hport, decide_false, Bool.false_eq_true, if_false]
        exact List.mem_append_right _ hx
      rw [upToFirst, if_neg hport]
      intro x hx
      rcases List.mem_cons.mp hx with rfl | hx
      · exact hd
      · exact ih htail x hx

/-- The payload is decoded, without a look behind a packet, exactly if every packet up to
the first one for the port is intact. -/
theorem receiveLoop_decodes_iff (ds : List Delivery) :
    Decodes ds ↔ ∀ d ∈ upToFirst ds, d.packet.Intact := by
  constructor
  · intro h
    exact intact_of_within h.within
  · intro h
    exact decodes_of_intact h

/-- A UDP packet that ends with its IP header. -/
def bare : Delivery where
  recv := List.replicate 4096 0
  packet := ⟨69 :: List.replicate 8 0 ++ 17 :: List.replicate 10 0, by decide, by decide⟩
  length_recv := List.length_replicate

theorem receiveLoop_bare : ¬ Decodes [bare] := by
  intro h
  have hudp : bare.packet.IsUdp := by decide
  have hmem := header_mem_udpTurn bare
  rw [← turn_udp bare hudp] at hmem
  have hin := h.within _ (reads_turn_subset _ [] hmem)
  have hlt : 23 < 20 := hin
  omega

end EmbeddedCourse.Sockets.RawClient
