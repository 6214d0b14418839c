import EmbeddedCourse.Echo.Server
import EmbeddedCourse.Lib.Keyed

/-! # The table of clients as a map

The records in use are a list with distinct keys in front of the spare ones. The
departure of a client moves the records behind its own, and a message makes a
record or changes one; under a key the same counter is found all the same.
-/

namespace EmbeddedCourse.Echo

open Keyed

/-- What a client is found by. -/
def ClientInfo.key (c : ClientInfo) : UInt32 × UInt16 := (c.ip, c.port)

/-- The record with one more message counted. -/
def ClientInfo.counted (c : ClientInfo) : ClientInfo :=
  { c with counter := (c.counter + 1).bmod (2 ^ 32) }

@[simp] theorem ClientInfo.counted_key (c : ClientInfo) : c.counted.key = c.key := rfl

namespace Server

/-- `clients[0..client_count)`. -/
def registered (s : Server) : List ClientInfo := s.clients.take s.clientCount

/-- The counter of a client, if it is registered. -/
def counterOf (s : Server) (k : UInt32 × UInt16) : Option Int :=
  (lookup ClientInfo.key k s.registered).map ClientInfo.counter

/-- The records in use are `L`, each of another client. -/
structure Holds (s : Server) (L : List ClientInfo) : Prop where
  buffer : s.buffer.length = maxBuf
  cells : ∃ spare, s.clients = L ++ spare
  size : s.clients.length = maxClients
  count : s.clientCount = L.length
  nodup : (L.map ClientInfo.key).Nodup

theorem Holds.registered {s : Server} {L : List ClientInfo} (h : s.Holds L) : s.registered = L := by
  rcases h.cells with ⟨spare, hspare⟩
  rw [Server.registered, hspare, List.take_left' h.count.symm]

theorem Holds.counterOf {s : Server} {L : List ClientInfo} (h : s.Holds L) (k : UInt32 × UInt16) :
    s.counterOf k = (lookup ClientInfo.key k L).map ClientInfo.counter := by
  rw [Server.counterOf, h.registered]

theorem init_holds {buffer : CString.Bytes} (hbuf : buffer.length = maxBuf) :
    (Server.init buffer).Holds [] where
  buffer := hbuf
  cells := ⟨_, rfl⟩
  size := List.length_replicate
  count := rfl
  nodup := List.nodup_nil

/-- A datagram that comes in changes the buffer only. -/
theorem Holds.receive {s : Server} {L : List ClientInfo} (h : s.Holds L) (d : CString.Bytes) :
    { s with buffer := CString.overlay s.buffer d }.Holds L where
  buffer := by
    have hlen : (CString.overlay s.buffer d).length = s.buffer.length := by
      simp only [CString.overlay, List.length_append, List.length_take, List.length_drop]
      omega
    exact hlen.trans h.buffer
  cells := h.cells
  size := h.size
  count := h.count
  nodup := h.nodup

/-- `find_client` searches the records in use. -/
theorem Holds.findClient {s : Server} {L : List ClientInfo} (h : s.Holds L) (ip : UInt32)
    (port : UInt16) :
    s.findClient ip port = L.findIdx? fun c => ClientInfo.key c = (ip, port) := by
  have hreg := h.registered
  rw [Server.registered] at hreg
  rw [Server.findClient, hreg]
  rfl

/-! ## A client leaves -/

/-- The records behind the client's own move down by one. -/
theorem Holds.removeClient {s : Server} {A B : List ClientInfo} {c : ClientInfo}
    (h : s.Holds (A ++ c :: B)) : (s.removeClient A.length).Holds (A ++ B) := by
  rcases h.cells with ⟨spare, hspare⟩
  have hcount := h.count
  rw [List.length_append, List.length_cons] at hcount
  have hmoves : s.clientCount - 1 - A.length = B.length := by omega
  have hcells : s.clients = A ++ c :: (B ++ spare) := by simp [hspare]
  rcases Cells.shiftDown_middle zeroClient A c B spare with ⟨y, hy⟩
  -- the last record of the old table is left behind the counter
  have hshift : (s.removeClient A.length).clients = A ++ B ++ y :: spare := by
    rw [Server.removeClient, hmoves, hcells]
    exact hy
  constructor
  · exact h.buffer
  · exact ⟨_, hshift⟩
  · have hsize := h.size
    rw [hcells] at hsize
    rw [hshift]
    simp only [List.length_append, List.length_cons] at hsize ⊢
    omega
  · show s.clientCount - 1 = (A ++ B).length
    rw [List.length_append]
    omega
  · have hnd := h.nodup
    rw [List.map_append, List.map_cons, List.nodup_middle, List.nodup_cons] at hnd
    rw [List.map_append]
    exact hnd.2

/-! ## A client is counted -/

/-- The counter of a client found in the table goes up. -/
theorem Holds.countUp {s : Server} {A B : List ClientInfo} {c : ClientInfo}
    (h : s.Holds (A ++ c :: B)) :
    (s.countUp A.length).1 = c.counted.counter ∧
    (s.countUp A.length).2.Holds (A ++ c.counted :: B) := by
  rcases h.cells with ⟨spare, hspare⟩
  have hcells : s.clients = A ++ c :: (B ++ spare) := by simp [hspare]
  -- `find_client` has found the record in the middle of the table
  have hget : s.clients.getD A.length zeroClient = c := by
    rw [hcells, Cells.getD_middle rfl]
  have hset : (s.countUp A.length).2.clients = A ++ c.counted :: (B ++ spare) := by
    rw [Server.countUp, hget, hcells]
    exact Cells.set_middle rfl _ _ _
  constructor
  · rw [Server.countUp, hget]
    rfl
  constructor
  · exact h.buffer
  · exact ⟨spare, by simp [hset]⟩
  · have hsize := h.size
    rw [hcells] at hsize
    rw [hset]
    simpa using hsize
  · have hcount := h.count
    show s.clientCount = _
    simpa using hcount
  · have hnd := h.nodup
    simpa using hnd

/-- A new client's record stands behind the others. -/
theorem Holds.addClient {s : Server} {L : List ClientInfo} (h : s.Holds L) {ip : UInt32}
    {port : UInt16} (hfull : s.clientCount < maxClients)
    (hnew : (ip, port) ∉ L.map ClientInfo.key) :
    ∃ s', s.addClient ip port = some (L.length, s') ∧ s'.Holds (L ++ [⟨ip, port, 0⟩]) := by
  rcases h.cells with ⟨spare, hspare⟩
  have hsize := h.size
  have hcount := h.count
  cases spare with
  -- the table is not full, so there is a spare record
  | nil =>
    rw [hspare, List.append_nil] at hsize
    omega
  | cons x spare =>
    have hset : s.clients.set s.clientCount ⟨ip, port, 0⟩ = L ++ ⟨ip, port, 0⟩ :: spare := by
      rw [hspare, Cells.set_middle hcount.symm]
    rw [Server.addClient, if_pos (by omega), hset, hcount]
    refine ⟨_, rfl, ?_⟩
    constructor
    · exact h.buffer
    · exact ⟨spare, by simp⟩
    · rw [hspare] at hsize
      simpa using hsize
    · simp
    · rw [List.map_append, List.map_cons, List.map_nil]
      apply List.nodup_append.mpr
      refine ⟨h.nodup, List.nodup_singleton _, ?_⟩
      intro a ha b hb he
      obtain rfl := List.mem_singleton.mp hb
      subst he
      exact hnew ha

/-- A message enters its client, with one more than was counted for it before;
the other clients keep their counters. -/
theorem Holds.message {s : Server} {L : List ClientInfo} (h : s.Holds L) (ip : UInt32)
    (port : UInt16) (hfull : s.findClient ip port = none → s.clientCount < maxClients) :
    ∃ idx s₁ L', s.enter ip port = some (idx, s₁) ∧ (s₁.countUp idx).2.Holds L' ∧
      (s₁.countUp idx).1 = ((s.counterOf (ip, port)).getD 0 + 1).bmod (2 ^ 32) ∧
      ∀ k, (s₁.countUp idx).2.counterOf k =
        if (ip, port) = k then some (s₁.countUp idx).1 else s.counterOf k := by
  rcases findIdx_cases ClientInfo.key (ip, port) L with ⟨hnone, hout⟩ | ⟨A, c, B, rfl, hc, hA, hsome⟩
  · -- the client is new
    have hfind : s.findClient ip port = none := by rw [h.findClient, hnone]
    rcases h.addClient (hfull hfind) hout with ⟨s₁, hadd, hs₁⟩
    rcases hs₁.countUp with ⟨hone, hs'⟩
    refine ⟨L.length, s₁, _, ?_, hs', ?_, ?_⟩
    · rw [Server.enter, hfind]
      exact hadd
    · rw [hone, h.counterOf, (lookup_eq_none_iff _).mpr hout]
      rfl
    · intro k
      rw [hs'.counterOf, lookup_insert _ hout, List.append_nil, hone, h.counterOf]
      exact apply_ite _ _ _ _
  · -- its record is found
    have hfind : s.findClient ip port = some A.length := by rw [h.findClient, hsome]
    rcases h.countUp with ⟨hone, hs'⟩
    refine ⟨A.length, s, _, ?_, hs', ?_, ?_⟩
    · rw [Server.enter, hfind]
    · rw [hone, h.counterOf, lookup_middle _ hA hc]
      rfl
    · intro k
      have hkey : c.key ∉ A.map ClientInfo.key := by
        rw [hc]
        exact hA
      have hkey' : c.counted.key ∉ A.map ClientInfo.key := hkey
      rw [hs'.counterOf, lookup_insert _ hkey', hone, h.counterOf, lookup_insert _ hkey, ← hc,
        ClientInfo.counted_key]
      split_ifs <;> rfl

/-- A `CLOSE` finds no record of its client or takes it out; the other clients
keep their counters. -/
theorem Holds.close {s : Server} {L : List ClientInfo} (h : s.Holds L) (ip : UInt32)
    (port : UInt16) :
    (s.findClient ip port = none ∧ s.counterOf (ip, port) = none) ∨
    ∃ idx L', s.findClient ip port = some idx ∧ (s.removeClient idx).Holds L' ∧
      ∀ k, (s.removeClient idx).counterOf k = if (ip, port) = k then none else s.counterOf k := by
  rcases findIdx_cases ClientInfo.key (ip, port) L with ⟨hnone, hout⟩ | ⟨A, c, B, rfl, hc, hA, hsome⟩
  · left
    constructor
    · rw [h.findClient, hnone]
    · rw [h.counterOf, (lookup_eq_none_iff _).mpr hout, Option.map_none]
  · right
    have hs' := h.removeClient
    have hnd := h.nodup
    rw [List.map_append, List.map_cons, List.nodup_middle, List.nodup_cons, hc,
      ← List.map_append] at hnd
    refine ⟨A.length, A ++ B, ?_, hs', ?_⟩
    · rw [h.findClient, hsome]
    · intro k
      rw [hs'.counterOf, h.counterOf]
      split_ifs with hk
      · rw [← hk, (lookup_eq_none_iff _).mpr hnd.1, Option.map_none]
      · rw [lookup_skip _ (by rw [hc]; exact hk)]

/-- A client that is not found has no counter. -/
theorem Holds.counterOf_eq_none {s : Server} {L : List ClientInfo} (h : s.Holds L) {ip : UInt32}
    {port : UInt16} (hfind : s.findClient ip port = none) : s.counterOf (ip, port) = none := by
  rcases h.close ip port with ⟨-, hnone⟩ | ⟨idx, L', hsome, -, -⟩
  · exact hnone
  · rw [hfind] at hsome
    cases hsome

end Server

end EmbeddedCourse.Echo
