import EmbeddedCourse.SharedChat.Inbox
import EmbeddedCourse.SharedChat.Locks

/-! # The permits of the broadcasts

A broadcast takes one acknowledgement for each registered client and gives one
permit for each, and a reading thread turns a permit into an acknowledgement.
A joining client brings the acknowledgement for itself. So permits and
acknowledgements together are as many as joins (`Conserved`), while the counter
of registered clients also goes down: a leave takes no acknowledgement back.
-/

namespace EmbeddedCourse.SharedChat

open CString Chat Script Client

/-! ## Counting the permits -/

/-- An acknowledgement counts as much as the permit it is turned into. -/
def permit : Sem → Int
  | .server2 | .client => 1
  | _ => 0

theorem value_permit (v : Sems Sem) : value permit v = v .client + v .server2 := by
  have hsum : value permit v = ∑ x ∈ {.server, .client, .server2, .mutex1, .mutex2},
      permit x * (v x : Int) := rfl
  rw [hsum]
  simp [permit]

/-- The joins among the messages. -/
def joins (ms : List Message) : ℕ := ms.countP fun m => m.IsJoin

/-- The leaves among the messages. -/
def leaves (ms : List Message) : ℕ := ms.countP fun m => m.IsLeave

/-- A write of a join. -/
def joining : ClientOp → Int
  | .act (.write msg) => if msg.IsJoin then 1 else 0
  | _ => 0

def toGrant (op : ClientOp) : Int := effect permit op - joining op

/-- The acknowledgement of a client that has written its join and not posted it. -/
def Process.ungranted (c : Process) : Int := load toGrant c.writer

/-- The permit of a reading thread between its wait and its post. -/
def Process.held (c : Process) : Int := load (effect permit) c.reader

/-- The acknowledgements that `write_queue` takes for a message it has no branch
for, on `local_msg` and the server's state as `read_queue` leaves them. -/
def spent (e : Message × Server) : Int :=
  if Unanswered e.1 then e.2.roster.sizeInfcl.toNat else 0

theorem ungranted_of_posted {c : Process} (h : c.Scripted) (hposted : c.unposted = 0) :
    c.ungranted = 0 := by
  obtain ⟨msg, ⟨hkind, hj⟩ | ⟨hkind, hs⟩⟩ := h
  · simp only [join, List.suffix_cons_iff, List.suffix_nil] at hj
    rcases hj with hw | hw | hw | hw | hw | hw <;>
      rw [Process.unposted, hw] at hposted <;>
      simp [Process.ungranted, hw, toPost, toGrant, effect, permit, only, writes, joining, hkind]
        at hposted ⊢
  · have hno : ¬ msg.IsJoin := by
      rcases hkind with hk | hk <;> rw [Message.IsJoin, hk] <;> decide
    simp only [send, List.suffix_cons_iff, List.suffix_nil] at hs
    rcases hs with hw | hw | hw | hw | hw <;>
      simp [Process.ungranted, hw, toGrant, effect, permit, joining, hno]

/-- `read_queue` is not concerned with the permits. -/
theorem load_readQueue_permit (past : InfoClients) (msg : Message) (s : Server) :
    load (effect permit) (readQueue past msg s).1 = 0 := by
  unfold readQueue
  split_ifs <;> simp [effect, permit]

theorem load_answer_permit (past : InfoClients) (msg : Message) (s : Server) :
    load (effect permit) (answer past msg s) = - spent (readQueue past msg s).2 := by
  rw [answer, load_append, load_readQueue_permit, load_writeQueue (c := permit) rfl, spent]
  split_ifs <;> simp [permit]

/-! ## Counting the clients -/

/-- A join that is not refused counts up, a leave counts down. -/
theorem size_readQueue (past : InfoClients) {msg : Message} {s : Server} (h : ¬ Refused msg s) :
    (readQueue past msg s).2.2.roster.sizeInfcl =
      s.roster.sizeInfcl + joins [msg] - leaves [msg] := by
  by_cases hnew : msg.categoriyMessage = Kind.newClient.code
  · have hroom : ¬ (sizeClients : Int) ≤ s.roster.sizeInfcl := fun hfull => h ⟨hnew, hfull⟩
    rw [readQueue, if_pos hnew, if_neg hroom]
    simp [joins, leaves, Message.IsJoin, Message.IsLeave, hnew, Roster.append]
  · by_cases hchat : msg.categoriyMessage = Kind.messageFromClient.code
    · rw [readQueue, if_neg hnew, if_pos hchat]
      simp [joins, leaves, Message.IsJoin, Message.IsLeave, hchat]
    · by_cases hleave : msg.categoriyMessage = Kind.clientLeave.code
      · rw [readQueue, if_neg hnew, if_neg hchat, if_pos hleave]
        simp [joins, leaves, Message.IsJoin, Message.IsLeave, hleave, Roster.removeAt]
      · rw [readQueue, if_neg hnew, if_neg hchat, if_neg hleave]
        simp [joins, leaves, Message.IsJoin, Message.IsLeave, hnew, hleave]

theorem assigned_refill (s : Server) (ops : List ServerOp) :
    assigned s (refill receive ops) = assigned s ops := by
  cases ops <;> rfl

/-- A join that the server reads finds room. -/
def Roomy (s : System) : Label → Prop
  | .serve _ => s.todo.head? = some (.act .fetch) → ¬ Refused s.inbox s.server
  | _ => True

instance : ∀ (s : System) (l : Label), Decidable (Roomy s l)
  | s, .serve _ => inferInstanceAs (Decidable (s.todo.head? = some (.act .fetch) →
      ¬ Refused s.inbox s.server))
  | _, .start _ _ | _, .type _ _ | _, .write _ | _, .read _ | _, .cancel _ =>
    inferInstanceAs (Decidable True)

/-- Messages are taken one at a time, and no more than `SIZE_CLIENTS` clients
are registered. -/
def Orderly (s : System) (l : Label) : Prop := Exclusive s l ∧ Roomy s l

instance (s : System) (l : Label) : Decidable (Orderly s l) := inferInstanceAs (Decidable (_ ∧ _))

/-! ## Conservation -/

/-- Every join has brought one acknowledgement, which is in a semaphore, in the
hands of a thread, lost with a cancelled thread, or spent; and the counter of
registered clients is what the messages read so far say. -/
structure Conserved (s : System) : Prop extends InOrder s where
  permits : value permit s.sem + load (effect permit) s.todo + load Process.ungranted s.clients +
    load Process.held s.clients + load (load (effect permit)) s.cancelled + load spent s.handled =
      joins s.sent
  size : (assigned s.server s.todo).roster.sizeInfcl =
    joins (s.got.map Prod.snd) - leaves (s.got.map Prod.snd)

namespace Conserved

variable {s s' : System} {l : Label}

theorem init : Conserved System.init where
  toInOrder := InOrder.init
  permits := by simp [System.init, value_permit, System.initSem, receive, effect, permit, joins]
  size := rfl

/-- Only the server changes the counter of registered clients, and only for the
message that it has just read. -/
theorem size_step (h : Conserved s) (hok : Orderly s l) (hs : System.Step s l s') :
    (assigned s'.server s'.todo).roster.sizeInfcl =
      joins (s'.got.map Prod.snd) - leaves (s'.got.map Prod.snd) := by
  have hsize := h.size
  cases hs with
  | fetch past ops ht =>
    obtain rfl := h.fetch ht
    -- the join that is read finds room
    have hroom : ¬ Refused s.inbox s.server := hok.2 (by rw [ht]; rfl)
    rw [ht] at hsize
    rw [assigned_append]
    show (assigned s.server (answer past s.inbox s.server)).roster.sizeInfcl = _
    rw [assigned_answer, size_readQueue past hroom]
    have hjoins : joins (s.got.map Prod.snd ++ [s.inbox]) =
        joins (s.got.map Prod.snd) + joins [s.inbox] := List.countP_append
    have hleaves : leaves (s.got.map Prod.snd ++ [s.inbox]) =
        leaves (s.got.map Prod.snd) + leaves [s.inbox] := List.countP_append
    rw [List.map_append, List.map_singleton, hjoins, hleaves]
    -- in front of the `fetch` nothing else is left to assign
    have hnow : s.server.roster.sizeInfcl =
        joins (s.got.map Prod.snd) - leaves (s.got.map Prod.snd) := hsize
    push_cast
    omega
  | serve past op ops ht hop v hrun =>
    rw [ht] at hsize
    show (assigned (assigned s.server [op]) (refill receive ops)).roster.sizeInfcl = _
    rw [assigned_refill, ← assigned_append]
    exact hsize
  | start | exit | chat | empty | put | write | read | cancel => exact hsize

/-- A step moves permits between the semaphores, the threads and the histories;
only the write of a join brings a new one. -/
theorem permits_step (h : Conserved s) (hs : System.Step s l s') :
    value permit s'.sem + load (effect permit) s'.todo + load Process.ungranted s'.clients +
      load Process.held s'.clients + load (load (effect permit)) s'.cancelled +
        load spent s'.handled = joins s'.sent := by
  have hper := h.permits
  cases hs with
  | start pid name fresh =>
    have hun : Process.ungranted ⟨pid, join (newClient pid name), Client.readQueue, false⟩ = 0 := rfl
    have hheld : Process.held ⟨pid, join (newClient pid name), Client.readQueue, false⟩ = 0 := rfl
    simpa [hun, hheld] using hper
  | exit i typed c hc idle =>
    have hold : c.ungranted = 0 := by rw [Process.ungranted, idle, load_nil]
    have hun : Process.ungranted
        { c with writer := send (leaveMessage c.pid), left := true } = 0 := rfl
    have hheld : Process.held
        { c with writer := send (leaveMessage c.pid), left := true } = c.held := rfl
    simp only [System.setClient, load_set _ hc, hold, hun, hheld]
    omega
  | chat i typed c hc idle =>
    have hold : c.ungranted = 0 := by rw [Process.ungranted, idle, load_nil]
    have hun : Process.ungranted
        { c with writer := send (chatMessage c.pid (inputLine typed)) } = 0 := rfl
    have hheld : Process.held
        { c with writer := send (chatMessage c.pid (inputLine typed)) } = c.held := rfl
    simp only [System.setClient, load_set _ hc, hold, hun, hheld]
    omega
  | empty i typed => exact hper
  | put i c hc msg ops hw =>
    -- with the write of a join its acknowledgement is on its way
    have hun : c.ungranted = - joins [msg] + Process.ungranted { c with writer := ops } := by
      rw [Process.ungranted, hw, load_cons]
      by_cases hj : msg.IsJoin <;> simp [toGrant, effect, joining, joins, hj, Process.ungranted]
    have hheld : Process.held { c with writer := ops } = c.held := rfl
    have hsent : joins (s.sent ++ [msg]) = joins s.sent + joins [msg] := List.countP_append
    simp only [System.setClient, load_set _ hc, hheld, hsent]
    push_cast
    omega
  | write i c hc op ops hw hop v hrun =>
    have hquiet : joining op = 0 := by
      rcases op with x | x | (m | _)
      · rfl
      · rfl
      · exact absurd rfl (hop m)
      · rfl
    have hun : c.ungranted = effect permit op + Process.ungranted { c with writer := ops } := by
      rw [Process.ungranted, hw, load_cons, toGrant, hquiet, sub_zero]
      rfl
    have hheld : Process.held { c with writer := ops } = c.held := rfl
    simp only [System.setClient, load_set _ hc, value_run permit hrun, hheld]
    omega
  | read i c hc op ops hr v hrun =>
    have hheld : c.held = effect permit op +
        Process.held { c with reader := refill Client.readQueue ops } := by
      have hloop : load (effect permit) Client.readQueue = 0 := rfl
      rw [Process.held, hr, load_cons, Process.held, load_refill _ hloop]
    have hun : Process.ungranted { c with reader := refill Client.readQueue ops } = c.ungranted := rfl
    simp only [System.setClient, load_set _ hc, value_run permit hrun, hun]
    omega
  | cancel i c hc hleft hdone =>
    -- what the cancelled thread holds is lost with it
    have hheld : Process.held { c with reader := [] } = 0 := rfl
    have hun : Process.ungranted { c with reader := [] } = c.ungranted := rfl
    have hlost : load (load (effect permit)) (s.cancelled ++ [c.reader]) =
        load (load (effect permit)) s.cancelled + c.held := by
      rw [load_append, load_cons, load_nil, Int.add_zero]
      rfl
    simp only [System.setClient, load_set _ hc, hheld, hun, hlost]
    omega
  | fetch past ops ht =>
    obtain rfl := h.fetch ht
    rw [ht] at hper
    have hpost : load (effect permit) [(.post .mutex1 : ServerOp)] = 0 := rfl
    have hold : load (effect permit) [(.act .fetch : ServerOp), .post .mutex1] = 0 := rfl
    -- what the answer takes beyond what it gives is what it spends
    simp only [load_append, load_answer_permit, hpost, load_cons, load_nil]
    omega
  | serve past op ops ht hop v hrun =>
    rw [ht, load_cons] at hper
    have hloop : load (effect permit) receive = 0 := rfl
    simp only [load_refill _ hloop, value_run permit hrun]
    omega

theorem step (h : Conserved s) (hok : Orderly s l) (hs : s.step l = some s') : Conserved s' where
  toInOrder := h.toInOrder.step hok.1 hs
  permits := h.permits_step (System.step_inv hs)
  size := h.size_step hok (System.step_inv hs)

end Conserved

/-! ## Quiet states -/

/-- The pids in the table. -/
def Server.pids (s : Server) : List Int := s.roster.cells.map InfoClients.pid

/-- No message is pending, and the reading threads of all registered clients
wait on `sem_client`; one that is cancelled does not count. -/
structure Quiet (s : System) : Prop extends Idle s where
  reading : ∀ c ∈ s.clients, c.pid ∈ s.server.pids → c.reader = Client.readQueue ∨ c.reader = []
  blocked : s.server.pids ≠ [] → s.sem .client = 0

instance (s : System) : Decidable (Quiet s) :=
  decidable_of_iff (Idle s ∧
      (∀ c ∈ s.clients, c.pid ∈ s.server.pids → c.reader = Client.readQueue ∨ c.reader = []) ∧
      (s.server.pids ≠ [] → s.sem .client = 0))
    ⟨fun h => ⟨h.1, h.2.1, h.2.2⟩, fun h => ⟨h.toIdle, h.reading, h.blocked⟩⟩

/-- The permits that reading threads of clients not registered hold or have lost. -/
def System.strayed (s : System) : Int :=
  load Process.held (s.clients.filter fun c => c.pid ∉ s.server.pids) +
    load (load (effect permit)) s.cancelled

theorem held_cases {c : Process} (h : c.reader <:+ Client.readQueue) :
    c.reader = Client.readQueue ∨ c.held ≠ 0 ∨ c.reader = [] := by
  have hsuf := h
  simp only [Client.readQueue, List.suffix_cons_iff, List.suffix_nil] at hsuf
  rcases hsuf with hr | hr | hr | hr | hr | hr
  · exact Or.inl hr
  · exact Or.inr (Or.inl (by rw [Process.held, hr]; decide))
  · exact Or.inr (Or.inl (by rw [Process.held, hr]; decide))
  · exact Or.inr (Or.inl (by rw [Process.held, hr]; decide))
  · exact Or.inr (Or.inl (by rw [Process.held, hr]; decide))
  · exact Or.inr (Or.inr hr)

namespace Quiet

variable {s : System}

theorem got_eq (hq : Quiet s) (h : InOrder s) : s.got.map Prod.snd = s.sent := by
  rw [h.messages, hq.all_got h.toCounts, List.take_length]

theorem held_of_registered (hq : Quiet s) {c : Process} (hc : c ∈ s.clients)
    (hreg : c.pid ∈ s.server.pids) : c.held = 0 := by
  rcases hq.reading c hc hreg with hr | hr <;> rw [Process.held, hr] <;> rfl

theorem ungranted (hq : Quiet s) (h : Shaped s) : load Process.ungranted s.clients = 0 := by
  have hall : ∀ c ∈ s.clients, c.ungranted = 0 := fun c hc =>
    ungranted_of_posted (h.writer c hc) (hq.unposted h c hc)
  rw [load, List.map_congr_left hall]
  simp

/-- The size of the table in a quiet state. -/
theorem size (hq : Quiet s) (h : Conserved s) :
    s.server.roster.sizeInfcl = joins s.sent - leaves s.sent := by
  have hsize := h.size
  rw [hq.waiting, hq.got_eq h.toInOrder] at hsize
  exact hsize

/-- The balance of a quiet state. -/
theorem balance (hq : Quiet s) (h : Conserved s) :
    (s.sem .client : Int) + s.sem .server2 + s.strayed + load spent s.handled =
      s.server.roster.sizeInfcl + leaves s.sent := by
  have hper := h.permits
  have hloop : load (effect permit) receive = 0 := rfl
  have hheld : load Process.held (s.clients.filter fun c => c.pid ∉ s.server.pids) =
      load Process.held s.clients := by
    refine load_filter _ fun c hc hreg => hq.held_of_registered hc ?_
    simpa using hreg
  rw [hq.waiting, hloop, hq.ungranted h.toShaped, value_permit] at hper
  rw [System.strayed, hheld, hq.size h]
  omega

end Quiet

end EmbeddedCourse.SharedChat
