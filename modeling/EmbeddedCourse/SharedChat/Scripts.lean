import EmbeddedCourse.SharedChat.System

/-! # Where the threads can be

Each thread of the system is somewhere in one of its scripts: the server in
`receive` or past its `fetch`, where it is done with its slot (`Away`), a
writing thread in `join` or `send`, a reading thread in its loop.
-/

namespace EmbeddedCourse.SharedChat

open CString Chat Script Client

/-! ## What an answer does to the semaphores -/

section

variable (c : Sem → Int)

theorem load_acks (s : Server) :
    load (effect c) (acks s) = - (s.roster.sizeInfcl.toNat * c .server2) := by
  simp [acks, effect]

theorem load_publish (msg : Message) : load (effect c) (publish msg) = 0 := by
  simp [publish, effect]

theorem load_permits (s : Server) :
    load (effect c) (permits s) = s.roster.sizeInfcl.toNat * c .client := by
  simp [permits, effect]

variable {c}

/-- A round of `write_queue` turns acknowledgements into permits. -/
theorem load_round (hc : c .server2 = c .client) (s : Server) (msg : Message) :
    load (effect c) (acks s ++ publish msg ++ permits s) = 0 := by
  rw [load_append, load_append, load_acks, load_publish, load_permits, hc]
  omega

theorem load_replay (hc : c .server2 = c .client) (s : Server) (msg : Message)
    (lines : List Bytes) : load (effect c) (replay s msg lines) = 0 := by
  induction lines generalizing msg with
  | nil => rfl
  | cons line lines ih => rw [replay, load_append, load_round hc, ih, Int.add_zero]

/-- A kind that `write_queue` has no branch for. -/
def Unanswered (msg : Message) : Prop :=
  msg.categoriyMessage ≠ Kind.newClient.code ∧
    msg.categoriyMessage ≠ Kind.messageFromClient.code ∧
      msg.categoriyMessage ≠ Kind.clientLeave.code

instance (msg : Message) : Decidable (Unanswered msg) := inferInstanceAs (Decidable (_ ∧ _))

/-- `write_queue` consists of rounds; without a branch for the kind it only takes
acknowledgements. -/
theorem load_writeQueue (hc : c .server2 = c .client) (msg : Message) (s : Server) :
    load (effect c) (writeQueue msg s) =
      if Unanswered msg then - (s.roster.sizeInfcl.toNat * c .server2) else 0 := by
  unfold writeQueue
  by_cases hnew : msg.categoriyMessage = Kind.newClient.code
  · rw [if_pos hnew, if_neg fun h : Unanswered msg => h.1 hnew, ← List.append_assoc,
      ← List.append_assoc, load_append, load_round hc, load_replay hc]
    rfl
  · by_cases hchat : msg.categoriyMessage = Kind.messageFromClient.code
    · rw [if_neg hnew, if_pos hchat, if_neg fun h : Unanswered msg => h.2.1 hchat,
        ← List.append_assoc]
      exact load_round hc s msg
    · by_cases hleave : msg.categoriyMessage = Kind.clientLeave.code
      · -- a leave is answered by two rounds
        have hfirst := load_round hc s { msg with categoriyMessage := Kind.messageFromServer.code }
        have hsecond := load_round hc s { msg with categoriyMessage := Kind.clientLeave.code }
        rw [if_neg hnew, if_neg hchat, if_pos hleave,
          if_neg fun h : Unanswered msg => h.2.2 hleave]
        simp only [load_append] at hfirst hsecond ⊢
        omega
      · have hnone : Unanswered msg := ⟨hnew, hchat, hleave⟩
        rw [if_neg hnew, if_neg hchat, if_neg hleave, if_pos hnone, List.append_nil, load_acks]

end

/-- Nothing among the operations has to do with the server's slot. -/
def Away (ops : List ServerOp) : Prop :=
  ∀ op ∈ ops, op ≠ .wait .server ∧ op ≠ .post .server ∧ op ≠ .act .fetch

@[simp] theorem away_nil : Away [] := by simp [Away]

@[simp] theorem away_cons (op : ServerOp) (ops : List ServerOp) :
    Away (op :: ops) ↔
      (op ≠ .wait .server ∧ op ≠ .post .server ∧ op ≠ .act .fetch) ∧ Away ops :=
  List.forall_mem_cons

@[simp] theorem away_append (ops ops' : List ServerOp) :
    Away (ops ++ ops') ↔ Away ops ∧ Away ops' :=
  List.forall_mem_append

@[simp] theorem away_acks (s : Server) : Away (acks s) := by
  simp [Away, acks]

@[simp] theorem away_publish (msg : Message) : Away (publish msg) := by
  simp [Away, publish]

@[simp] theorem away_permits (s : Server) : Away (permits s) := by
  simp [Away, permits]

@[simp] theorem away_replay (s : Server) (msg : Message) (lines : List Bytes) :
    Away (replay s msg lines) := by
  induction lines generalizing msg with
  | nil => exact away_nil
  | cons line lines ih => simp [replay, ih]

/-- After the `fetch` the server is done with its slot. -/
theorem away_answer (past : InfoClients) (msg : Message) (s : Server) :
    Away (answer past msg s) := by
  rw [answer, away_append]
  constructor
  · unfold readQueue
    split_ifs <;> simp
  · rw [writeQueue, away_append]
    split_ifs <;> simp

/-! ## The shapes of the scripts -/

/-- The message of a join. -/
def Message.IsJoin (m : Message) : Prop := m.categoriyMessage = Kind.newClient.code

/-- The message of a leave. -/
def Message.IsLeave (m : Message) : Prop := m.categoriyMessage = Kind.clientLeave.code

/-- The message of a line. -/
def Message.IsChat (m : Message) : Prop := m.categoriyMessage = Kind.messageFromClient.code

instance (m : Message) : Decidable m.IsJoin := inferInstanceAs (Decidable (_ = _))

instance (m : Message) : Decidable m.IsLeave := inferInstanceAs (Decidable (_ = _))

/-- A writing thread is in the script of its join or in that of a later message. -/
def Process.Scripted (c : Process) : Prop :=
  ∃ msg, msg.IsJoin ∧ c.writer <:+ join msg ∨ (msg.IsChat ∨ msg.IsLeave) ∧ c.writer <:+ send msg

/-- Where the three kinds of threads can be. -/
structure Shaped (s : System) : Prop where
  todo : s.todo <:+ receive ∨ Away s.todo
  busy : s.todo ≠ []
  writer : ∀ c ∈ s.clients, c.Scripted
  reader : ∀ c ∈ s.clients, c.reader <:+ Client.readQueue

theorem forall_mem_set {α : Type} {P : α → Prop} {l : List α} (h : ∀ x ∈ l, P x) {y : α} (hy : P y)
    (i : ℕ) : ∀ x ∈ l.set i y, P x := by
  intro x hx
  rcases List.mem_or_eq_of_mem_set hx with hx | rfl
  · exact h x hx
  · exact hy

theorem suffix_of_cons {α : Type} {op : α} {ops l : List α} (h : op :: ops <:+ l) : ops <:+ l :=
  (List.suffix_cons op ops).trans h

/-- The rest of a script is part of it. -/
theorem Process.Scripted.tail {c : Process} (h : c.Scripted) {op : ClientOp} {ops : List ClientOp}
    (hw : c.writer = op :: ops) : Process.Scripted { c with writer := ops } := by
  obtain ⟨msg, ⟨hkind, hsuf⟩ | ⟨hkind, hsuf⟩⟩ := h
  · rw [hw] at hsuf
    exact ⟨msg, Or.inl ⟨hkind, suffix_of_cons hsuf⟩⟩
  · rw [hw] at hsuf
    exact ⟨msg, Or.inr ⟨hkind, suffix_of_cons hsuf⟩⟩

/-- The messages that a client writes. -/
theorem Process.Scripted.kind {c : Process} (h : c.Scripted) {m : Message}
    (hm : .act (.write m) ∈ c.writer) : m.IsJoin ∨ m.IsChat ∨ m.IsLeave := by
  obtain ⟨msg, ⟨hkind, hsuf⟩ | ⟨hkind, hsuf⟩⟩ := h
  · obtain rfl : m = msg := by simpa [join] using hsuf.subset hm
    exact Or.inl hkind
  · obtain rfl : m = msg := by simpa [send] using hsuf.subset hm
    exact Or.inr hkind

theorem refill_suffix {α : Type} {op : α} {ops l : List α} (h : op :: ops <:+ l) :
    refill l ops <:+ l := by
  cases ops with
  | nil => exact List.suffix_refl l
  | cons op' ops => exact suffix_of_cons h

namespace Shaped

variable {s s' : System} {l : Label}

theorem init : Shaped System.init where
  todo := Or.inl (List.suffix_refl _)
  busy := by simp [System.init, receive]
  writer := by simp [System.init]
  reader := by simp [System.init]

/-- Only the last post of its receive section stands behind the `fetch`. -/
theorem fetch (h : Shaped s) {ops : List ServerOp} (ht : s.todo = .act .fetch :: ops) :
    ops = [.post .mutex1] := by
  rcases h.todo with hsuf | haway
  · rw [ht] at hsuf
    simpa [receive, List.suffix_cons_iff] using hsuf
  · rw [ht] at haway
    simp at haway

theorem setClient (h : Shaped s) (i : ℕ) {c : Process}
    (hw : c.Scripted) (hr : c.reader <:+ Client.readQueue) : Shaped (s.setClient i c) where
  todo := h.todo
  busy := h.busy
  writer := forall_mem_set h.writer hw i
  reader := forall_mem_set h.reader hr i

/-- All threads stay in their scripts. -/
theorem step (h : Shaped s) (hs : s.step l = some s') : Shaped s' := by
  cases System.step_inv hs with
  | start pid name fresh =>
    refine ⟨h.todo, h.busy, ?_, ?_⟩
    · intro c hc
      rcases List.mem_append.mp hc with hc | hc
      · exact h.writer c hc
      · -- the new client is in front of its join
        obtain rfl := List.mem_singleton.mp hc
        exact ⟨newClient pid name, Or.inl ⟨rfl, List.suffix_refl _⟩⟩
    · intro c hc
      rcases List.mem_append.mp hc with hc | hc
      · exact h.reader c hc
      · obtain rfl := List.mem_singleton.mp hc
        exact List.suffix_refl _
  | exit i typed c hc idle =>
    exact h.setClient i ⟨leaveMessage c.pid, Or.inr ⟨Or.inr rfl, List.suffix_refl _⟩⟩
      (h.reader c (List.mem_of_getElem? hc))
  | chat i typed c hc idle =>
    exact h.setClient i
      ⟨chatMessage c.pid (inputLine typed), Or.inr ⟨Or.inl rfl, List.suffix_refl _⟩⟩
      (h.reader c (List.mem_of_getElem? hc))
  | empty i typed => exact h
  | put i c hc msg ops hw =>
    have hnew := h.setClient i ((h.writer c (List.mem_of_getElem? hc)).tail hw)
      (h.reader c (List.mem_of_getElem? hc))
    exact ⟨hnew.todo, hnew.busy, hnew.writer, hnew.reader⟩
  | write i c hc op ops hw hop v hrun =>
    have hnew := h.setClient i ((h.writer c (List.mem_of_getElem? hc)).tail hw)
      (h.reader c (List.mem_of_getElem? hc))
    exact ⟨hnew.todo, hnew.busy, hnew.writer, hnew.reader⟩
  | read i c hc op ops hr v hrun =>
    have hshape := h.reader c (List.mem_of_getElem? hc)
    rw [hr] at hshape
    have hnew := h.setClient i (c := { c with reader := refill Client.readQueue ops })
      (h.writer c (List.mem_of_getElem? hc)) (refill_suffix hshape)
    exact ⟨hnew.todo, hnew.busy, hnew.writer, hnew.reader⟩
  | cancel i c hc hleft hdone =>
    have hnew := h.setClient i (c := { c with reader := [] })
      (h.writer c (List.mem_of_getElem? hc)) (List.nil_suffix)
    exact ⟨hnew.todo, hnew.busy, hnew.writer, hnew.reader⟩
  | fetch past ops ht =>
    obtain rfl := h.fetch ht
    refine ⟨Or.inr ?_, by simp, h.writer, h.reader⟩
    rw [away_append]
    exact ⟨by simp, away_answer past s.inbox s.server⟩
  | serve past op ops ht hop v hrun =>
    refine ⟨?_, ?_, h.writer, h.reader⟩
    · -- the server is in `read_queue`, or away from the slot
      rcases h.todo with hsuf | haway
      · rw [ht] at hsuf
        exact Or.inl (refill_suffix hsuf)
      · rw [ht, away_cons] at haway
        cases ops with
        | nil => exact Or.inl (List.suffix_refl _)
        | cons op' ops => exact Or.inr haway.2
    · cases ops with
      | nil => simp [refill, receive]
      | cons op' ops => simp [refill]

end Shaped

end EmbeddedCourse.SharedChat
