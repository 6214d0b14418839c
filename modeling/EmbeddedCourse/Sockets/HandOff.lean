import EmbeddedCourse.Lib.Cells
import EmbeddedCourse.Sockets.PullThreads

/-! # The hand-over of connections

`main` passes connections on in one variable, and what a thread waits for is one
counter for all of them. In every run each accepted connection is refused or
handed over once, and whatever is read from `fd_socket` is sent to and closed as
often as it is read.
-/

namespace EmbeddedCourse.PullThreads

open Sockets

/-- The connection that `main` has accepted and found no thread for yet. -/
def Main.undecided : Main → List Connection
  | .deciding client => [client]
  | .accepting | .refusing _ => []

/-- The connection that `main` is about to close. -/
def Main.refused : Main → List Connection
  | .refusing client => [client]
  | .accepting | .deciding _ => []

/-- The connection that a thread is about to send to. -/
def Thread.toSend : Thread → List Connection
  | .sending client => [client]
  | .waiting | .closing _ | .finishing => []

/-- The connection that a thread is going to close. -/
def Thread.toClose : Thread → List Connection
  | .sending client | .closing client => [client]
  | .waiting | .finishing => []

namespace System

/-- How often `c` has been read from `fd_socket`. -/
def takes (s : System) (c : Connection) : ℕ := (s.taken.map Prod.snd).count c

/-- How many threads are about to send to `c`. -/
def toSend (s : System) (c : Connection) : ℕ := (s.threads.flatMap Thread.toSend).count c

/-- How many threads are going to close `c`. -/
def toClose (s : System) (c : Connection) : ℕ := (s.threads.flatMap Thread.toClose).count c

end System

variable {s s' : System} {i : ℕ} {t : Thread}

/-- One more reading of `fd_socket`. -/
theorem takes_concat (s : System) (i : ℕ) (d c : Connection) :
    ((s.taken ++ [(i, d)]).map Prod.snd).count c = s.takes c + [d].count c := by
  rw [List.map_append, List.count_append]
  rfl

/-- One thread moves: what it was about to send to goes, what it will send to comes. -/
theorem toSend_setThread (ht : s.threads[i]? = some t) (t' : Thread) (c : Connection) :
    (s.setThread i t').toSend c + t.toSend.count c = s.toSend c + t'.toSend.count c := by
  rcases Cells.flatMap_set Thread.toSend ht t' with ⟨A, B, hold, hnew⟩
  unfold System.toSend System.setThread
  rw [hold, hnew]
  simp only [List.count_append]
  omega

/-- The same of the connections to close. -/
theorem toClose_setThread (ht : s.threads[i]? = some t) (t' : Thread) (c : Connection) :
    (s.setThread i t').toClose c + t.toClose.count c = s.toClose c + t'.toClose.count c := by
  rcases Cells.flatMap_set Thread.toClose ht t' with ⟨A, B, hold, hnew⟩
  unfold System.toClose System.setThread
  rw [hold, hnew]
  simp only [List.count_append]
  omega

/-- Accepted connections are distinct, each is decided about, refused or handed
over once, and each reading of `fd_socket` is followed by one `send` and one
`close`. -/
structure Sound (s : System) : Prop where
  numbers : s.kernel.accepted.map Connection.number = List.range s.kernel.accepted.length
  real : ∀ c ∈ s.kernel.accepted, c.fd ≠ -1
  arrived : ∀ c : Connection, c.fd ≠ -1 → s.kernel.accepted.count c =
    s.main.undecided.count c + s.refused.count c + s.handed.count c
  slot : s.handed ≠ [] → s.fdSocket ∈ s.handed
  idle : s.handed = [] → s.count = 0 ∧ ∀ t ∈ s.threads, t = .waiting
  source : ∀ c ∈ s.taken.map Prod.snd, c ∈ s.handed
  sent : ∀ c, s.takes c = s.toSend c + s.sends.count c
  closed : ∀ c, s.refused.count c + s.takes c =
    s.main.refused.count c + s.toClose c + s.closes.count c

namespace Sound

/-- A connection is accepted once, since each one has a number of its own. -/
theorem nodup (h : Sound s) : s.kernel.accepted.Nodup := Kernel.nodup_of_numbers h.numbers

theorem init : Sound System.init where
  numbers := rfl
  real := by simp [System.init, Kernel.init]
  arrived := fun _ _ => rfl
  slot := fun h => absurd rfl h
  idle := fun _ => ⟨rfl, fun _ ht => List.eq_of_mem_replicate ht⟩
  source := by simp [System.init]
  sent := fun _ => rfl
  closed := fun _ => rfl

/-- A failed `accept`. -/
theorem fail (h : Sound s) (hmain : s.main = .accepting) :
    Sound { s with main := .deciding (s.kernel.next (-1)) } where
  numbers := h.numbers
  real := h.real
  arrived := by
    intro c hc
    have harrived := h.arrived c hc
    -- what the failed call has returned is no connection
    have hne : s.kernel.next (-1) ≠ c := by
      rintro rfl
      exact hc rfl
    rw [hmain] at harrived
    simpa [Main.undecided, hne] using harrived
  slot := h.slot
  idle := h.idle
  source := h.source
  sent := h.sent
  closed := by
    intro c
    have hclosed := h.closed c
    rw [hmain] at hclosed
    exact hclosed

/-- A new connection, which `main` has to decide about. -/
theorem accept (h : Sound s) (hmain : s.main = .accepting) {fd : Int} (hfd : fd ≠ -1) :
    Sound { s with kernel := s.kernel.accept fd, main := .deciding (s.kernel.next fd) } where
  numbers := by
    show (s.kernel.accepted ++ [s.kernel.next fd]).map Connection.number =
      List.range (s.kernel.accepted ++ [s.kernel.next fd]).length
    rw [List.map_append, h.numbers, List.length_append, List.length_singleton, List.range_succ]
    rfl
  real := by
    intro c hc
    rcases List.mem_append.mp hc with hc | hc
    · exact h.real c hc
    · rw [List.mem_singleton.mp hc]
      exact hfd
  arrived := by
    intro c hc
    -- the new connection is the one that is undecided
    have harrived := h.arrived c hc
    rw [hmain] at harrived
    simp only [Kernel.accept, List.count_append, Main.undecided, List.count_nil] at harrived ⊢
    omega
  slot := h.slot
  idle := h.idle
  source := h.source
  sent := h.sent
  closed := by
    intro c
    have hclosed := h.closed c
    rw [hmain] at hclosed
    exact hclosed

/-- `main` has found no thread. -/
theorem refused (h : Sound s) {client : Connection} (hmain : s.main = .deciding client) :
    Sound { s with main := .refusing client, refused := s.refused ++ [client] } where
  numbers := h.numbers
  real := h.real
  arrived := by
    intro c hc
    have harrived := h.arrived c hc
    rw [hmain] at harrived
    simp only [List.count_append, Main.undecided, List.count_nil] at harrived ⊢
    omega
  slot := h.slot
  idle := h.idle
  source := h.source
  sent := h.sent
  closed := by
    intro c
    have hclosed := h.closed c
    rw [hmain] at hclosed
    simp only [Main.refused, List.count_nil] at hclosed
    show (s.refused ++ [client]).count c + s.takes c =
      [client].count c + s.toClose c + s.closes.count c
    rw [List.count_append]
    omega

/-- `main` stores the connection in `fd_socket`. -/
theorem handOver (h : Sound s) {client : Connection} (hmain : s.main = .deciding client) (idx : ℕ) :
    Sound { s with
      idxThreads := s.idxThreads.set idx false, count := s.count + 1, fdSocket := client
      main := .accepting, handed := s.handed ++ [client] } where
  numbers := h.numbers
  real := h.real
  arrived := by
    intro c hc
    have harrived := h.arrived c hc
    rw [hmain] at harrived
    simp only [List.count_append, Main.undecided, List.count_nil] at harrived ⊢
    omega
  slot := fun _ => List.mem_append_right _ (List.mem_singleton_self client)
  idle := by
    intro hnil
    simp at hnil
  source := fun c hc => List.mem_append_left _ (h.source c hc)
  sent := h.sent
  closed := by
    intro c
    have hclosed := h.closed c
    rw [hmain] at hclosed
    exact hclosed

/-- `main` closes what it has refused. -/
theorem refuse (h : Sound s) {client : Connection} (hmain : s.main = .refusing client) :
    Sound { s.callClose client with main := .accepting } where
  numbers := by
    dsimp only [System.callClose]
    rw [Kernel.accepted_close]
    exact h.numbers
  real := by
    dsimp only [System.callClose]
    rw [Kernel.accepted_close]
    exact h.real
  arrived := by
    intro c hc
    have harrived := h.arrived c hc
    rw [hmain] at harrived
    dsimp only [System.callClose]
    rw [Kernel.accepted_close]
    exact harrived
  slot := h.slot
  idle := h.idle
  source := h.source
  sent := h.sent
  closed := by
    intro c
    -- the connection that was to be closed has been closed
    have hclosed := h.closed c
    rw [hmain] at hclosed
    simp only [Main.refused] at hclosed
    show s.refused.count c + s.takes c =
      ([] : List Connection).count c + s.toClose c + (s.closes ++ [client]).count c
    rw [List.count_append, List.count_nil]
    omega

/-- Something has been handed over once a thread is past its wait. -/
theorem handed_ne_nil (h : Sound s) (ht : s.threads[i]? = some t) (hpast : t ≠ .waiting) :
    s.handed ≠ [] := by
  intro hnil
  exact hpast ((h.idle hnil).2 t (List.mem_of_getElem? ht))

theorem handed_of_count (h : Sound s) (hcount : s.count ≠ 0) : s.handed ≠ [] :=
  fun hnil => hcount (h.idle hnil).1

/-- A thread reads `fd_socket`, whatever other threads have read it. -/
theorem take (h : Sound s) (ht : s.threads[i]? = some .waiting) (hcount : s.count ≠ 0) :
    Sound { s.setThread i (.sending s.fdSocket) with taken := s.taken ++ [(i, s.fdSocket)] } where
  numbers := h.numbers
  real := h.real
  arrived := h.arrived
  slot := h.slot
  idle := fun hnil => absurd hnil (h.handed_of_count hcount)
  source := by
    intro c hc
    rw [List.map_append, List.map_singleton] at hc
    rcases List.mem_append.mp hc with hc | hc
    · exact h.source c hc
    · -- the variable holds the last connection handed over
      rw [List.mem_singleton.mp hc]
      exact h.slot (h.handed_of_count hcount)
  sent := by
    intro c
    have hsent := h.sent c
    have hset := toSend_setThread ht (.sending s.fdSocket) c
    simp only [Thread.toSend, List.count_nil] at hset
    show ((s.taken ++ [(i, s.fdSocket)]).map Prod.snd).count c =
      (s.setThread i (.sending s.fdSocket)).toSend c + s.sends.count c
    rw [takes_concat]
    omega
  closed := by
    intro c
    have hclosed := h.closed c
    have hset := toClose_setThread ht (.sending s.fdSocket) c
    simp only [Thread.toClose, List.count_nil] at hset
    show s.refused.count c + ((s.taken ++ [(i, s.fdSocket)]).map Prod.snd).count c =
      s.main.refused.count c + (s.setThread i (.sending s.fdSocket)).toClose c + s.closes.count c
    rw [takes_concat]
    omega

/-- A thread sends to the connection that it has read. -/
theorem send (h : Sound s) {client : Connection} (ht : s.threads[i]? = some (.sending client)) :
    Sound { s.setThread i (.closing client) with sends := s.sends ++ [client] } where
  numbers := h.numbers
  real := h.real
  arrived := h.arrived
  slot := h.slot
  idle := fun hnil => absurd hnil (h.handed_ne_nil ht (by simp))
  source := h.source
  sent := by
    intro c
    have hsent := h.sent c
    have hset := toSend_setThread ht (.closing client) c
    simp only [Thread.toSend, List.count_nil] at hset
    show s.takes c = (s.setThread i (.closing client)).toSend c + (s.sends ++ [client]).count c
    rw [List.count_append]
    omega
  closed := by
    intro c
    have hclosed := h.closed c
    have hset := toClose_setThread ht (.closing client) c
    simp only [Thread.toClose] at hset
    show s.refused.count c + s.takes c =
      s.main.refused.count c + (s.setThread i (.closing client)).toClose c + s.closes.count c
    omega

/-- A thread closes the connection that it has read, open or not. -/
theorem close (h : Sound s) {client : Connection} (ht : s.threads[i]? = some (.closing client)) :
    Sound ((s.setThread i .finishing).callClose client) where
  numbers := by
    dsimp only [System.callClose, System.setThread]
    rw [Kernel.accepted_close]
    exact h.numbers
  real := by
    dsimp only [System.callClose, System.setThread]
    rw [Kernel.accepted_close]
    exact h.real
  arrived := by
    dsimp only [System.callClose, System.setThread]
    rw [Kernel.accepted_close]
    exact h.arrived
  slot := h.slot
  idle := fun hnil => absurd hnil (h.handed_ne_nil ht (by simp))
  source := h.source
  sent := by
    intro c
    have hsent := h.sent c
    have hset := toSend_setThread ht .finishing c
    simp only [Thread.toSend] at hset
    show s.takes c = (s.setThread i .finishing).toSend c + s.sends.count c
    omega
  closed := by
    intro c
    have hclosed := h.closed c
    -- what the thread was going to close has been closed
    have hset := toClose_setThread ht .finishing c
    simp only [Thread.toClose, List.count_nil] at hset
    show s.refused.count c + s.takes c =
      s.main.refused.count c + (s.setThread i .finishing).toClose c + (s.closes ++ [client]).count c
    rw [List.count_append]
    omega

/-- A thread counts its service down and waits again. -/
theorem finish (h : Sound s) (ht : s.threads[i]? = some .finishing) :
    Sound { s.setThread i .waiting with
      count := s.count - 1, idxThreads := s.idxThreads.set i true } where
  numbers := h.numbers
  real := h.real
  arrived := h.arrived
  slot := h.slot
  idle := fun hnil => absurd hnil (h.handed_ne_nil ht (by simp))
  source := h.source
  sent := by
    intro c
    have hsent := h.sent c
    have hset := toSend_setThread ht .waiting c
    simp only [Thread.toSend] at hset
    show s.takes c = (s.setThread i .waiting).toSend c + s.sends.count c
    omega
  closed := by
    intro c
    have hclosed := h.closed c
    have hset := toClose_setThread ht .waiting c
    simp only [Thread.toClose] at hset
    show s.refused.count c + s.takes c =
      s.main.refused.count c + (s.setThread i .waiting).toClose c + s.closes.count c
    omega

/-- The accounts are right after every section of `main` or of a thread. -/
theorem step {l : Label} (h : Sound s) (hs : s.step l = some s') : Sound s' := by
  cases l with
  | accept fd =>
    rcases accept_cases hs with ⟨hmain, ⟨rfl, rfl⟩ | ⟨hfd, rfl⟩⟩
    · exact h.fail hmain
    · exact h.accept hmain hfd
  | decide =>
    rcases decide_cases hs with ⟨client, hmain, ⟨-, rfl⟩ | ⟨idx, -, rfl⟩⟩
    · exact h.refused hmain
    · exact h.handOver hmain idx
  | refuse =>
    rcases refuse_cases hs with ⟨client, hmain, rfl⟩
    exact h.refuse hmain
  | take i =>
    rcases take_cases hs with ⟨ht, ⟨-, rfl⟩ | ⟨hcount, rfl⟩⟩
    · exact h
    · exact h.take ht hcount
  | send i =>
    rcases send_cases hs with ⟨client, ht, rfl⟩
    exact h.send ht
  | close i =>
    rcases close_cases hs with ⟨client, ht, rfl⟩
    exact h.close ht
  | finish i =>
    rcases finish_cases hs with ⟨ht, rfl⟩
    exact h.finish ht

end Sound

end EmbeddedCourse.PullThreads
