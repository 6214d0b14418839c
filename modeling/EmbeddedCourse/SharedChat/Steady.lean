import EmbeddedCourse.SharedChat.Permits

/-! # When the acknowledgements match the clients

In a quiet state the acknowledgements are as many as the registered clients if
nobody has left, every message got a broadcast, and permits went to registered
clients only (`Steady`). In general the leaves have to be made up for by
acknowledgements that were lost or spent.
-/

namespace EmbeddedCourse.SharedChat

open CString Chat Script Client

/-! ## Messages that get a broadcast -/

/-- A copy that ends within `from_message` leaves the kind alone. -/
theorem categoriyMessage_copyText {m : Message} (hm : m.IsChat) (line : Bytes) {n : ℕ}
    (hn : n ≤ 264) : (m.copyText line n).IsChat := by
  unfold Message.copyText
  split_ifs with h256
  · exact hm
  · -- at most eight bytes run over, and `from_message` takes them all
    have hlen : ((line.takeD n 0).drop 256).length ≤ 8 := by simp; omega
    have hbehind : (overlay (leBytes 8 m.fromMessage ++ leBytes 4 m.categoriyMessage ++
        leBytes 4 m.toClient) ((line.takeD n 0).drop 256)).drop 8 =
          leBytes 4 m.categoriyMessage ++ leBytes 4 m.toClient := by
      generalize (line.takeD n 0).drop 256 = tail at hlen ⊢
      have hfull : (leBytes 8 m.fromMessage ++ leBytes 4 m.categoriyMessage ++
          leBytes 4 m.toClient).length = 16 := by
        rw [List.length_append, List.length_append, length_leBytes, length_leBytes, length_leBytes]
      rw [drop_overlay (by omega) hlen, List.append_assoc, List.drop_left' (length_leBytes 8 _)]
    show ofLeBytes _ = _
    rw [hbehind, hm]
    rfl

/-- What `read_queue` makes of a message of a client has a branch in
`write_queue`, unless the line overruns the kind. -/
theorem answered_readQueue (past : InfoClients) {msg : Message} (s : Server)
    (hkind : msg.IsJoin ∨ msg.IsChat)
    (hfit : msg.IsChat → (chatLine (s.sender past msg.fromMessage).name msg.mtext).length ≤ 264) :
    ¬ Unanswered (readQueue past msg s).2.1 := by
  rcases hkind with hj | hc
  · have hnew : msg.categoriyMessage = Kind.newClient.code := hj
    intro h
    refine h.1 ?_
    unfold readQueue
    rw [if_pos hnew]
    split_ifs <;> exact hnew
  · have hchat : msg.categoriyMessage = Kind.messageFromClient.code := hc
    have hnew : ¬ msg.categoriyMessage = Kind.newClient.code := by rw [hchat]; decide
    intro h
    refine h.2.1 ?_
    unfold readQueue
    rw [if_neg hnew, if_pos hchat]
    exact categoriyMessage_copyText hc _ (hfit hc)

/-! ## Steady runs -/

/-- The server has read a join with this pid. -/
def Joined (s : System) (pid : Int) : Prop :=
  ∃ m ∈ s.got.map Prod.snd, m.IsJoin ∧ m.fromMessage = pid

instance (s : System) (pid : Int) : Decidable (Joined s pid) :=
  inferInstanceAs (Decidable (∃ m ∈ _, _ ∧ _))

/-- The server reads no leave and no line that overruns the kind behind
`mtext`, and a reading thread takes permits only when the join of its client
has been read. -/
def Steady (s : System) : Label → Prop
  | .serve past => s.todo.head? = some (.act .fetch) → ¬ s.inbox.IsLeave ∧
      (s.inbox.IsChat →
        (chatLine (s.server.sender past s.inbox.fromMessage).name s.inbox.mtext).length ≤ 264)
  | .read i => ∀ c ∈ s.clients[i]?, c.reader = Client.readQueue → Joined s c.pid
  | _ => True

instance (m : Message) : Decidable m.IsChat := inferInstanceAs (Decidable (_ = _))

instance : ∀ (s : System) (l : Label), Decidable (Steady s l)
  | s, .serve past => inferInstanceAs (Decidable (s.todo.head? = some (.act .fetch) →
      ¬ s.inbox.IsLeave ∧ (s.inbox.IsChat →
        (chatLine (s.server.sender past s.inbox.fromMessage).name s.inbox.mtext).length ≤ 264)))
  | s, .read i => inferInstanceAs (Decidable (∀ c ∈ s.clients[i]?, c.reader = Client.readQueue →
      Joined s c.pid))
  | _, .start _ _ | _, .type _ _ | _, .write _ | _, .cancel _ => inferInstanceAs (Decidable True)

/-- Some client has sent a leave. -/
def System.SomeLeft (s : System) : Prop := ∃ m ∈ s.sent, m.IsLeave

/-- A client that has typed `exit` is about to send its leave or has sent it. -/
def Process.Parting (s : System) (c : Process) : Prop :=
  c.left → (∃ msg, msg.IsLeave ∧ .act (.write msg) ∈ c.writer) ∨ s.SomeLeft

/-- A leave that has been sent stays so. -/
theorem Process.Parting.mono {s s' : System} {c : Process} (h : c.Parting s)
    (hlater : s.SomeLeft → s'.SomeLeft) : c.Parting s' := by
  intro hleft
  exact (h hleft).imp_right hlater

/-- The next operation of a client's writing thread is the write of its leave, or
the leave is still to come, or one has been sent. -/
theorem Process.Parting.head {s : System} {c : Process} (h : c.Parting s) (hleft : c.left)
    {op : ClientOp} {ops : List ClientOp} (hw : c.writer = op :: ops) :
    (∃ msg, msg.IsLeave ∧ op = .act (.write msg)) ∨
      (∃ msg, msg.IsLeave ∧ .act (.write msg) ∈ ops) ∨ s.SomeLeft := by
  rcases h hleft with ⟨msg, hleave, hmem⟩ | hsome
  · rw [hw] at hmem
    rcases List.mem_cons.mp hmem with heq | hrest
    · exact Or.inl ⟨msg, hleave, heq.symm⟩
    · exact Or.inr (Or.inl ⟨msg, hleave, hrest⟩)
  · exact Or.inr (Or.inr hsome)

/-- The table holds the clients whose joins have been read, no acknowledgement
has been spent, and permits are with clients that have joined. -/
structure Settled (s : System) : Prop extends Conserved s where
  kinds : ∀ m ∈ s.sent, m.IsJoin ∨ m.IsChat ∨ m.IsLeave
  stays : leaves (s.got.map Prod.snd) = 0
  unspent : load spent s.handled = 0
  length : (assigned s.server s.todo).roster.infCl.length = sizeClients
  pids : (assigned s.server s.todo).pids =
    ((s.got.map Prod.snd).filter fun m => m.IsJoin).map Message.fromMessage
  readers : ∀ c ∈ s.clients, c.held ≠ 0 → Joined s c.pid
  parting : ∀ c ∈ s.clients, c.Parting s
  cancelled : s.cancelled = [] ∨ s.SomeLeft

/-- What `read_queue` does to the table on a message that is not a leave. -/
theorem table_readQueue (past : InfoClients) {msg : Message} {s : Server}
    (hlen : s.roster.infCl.length = sizeClients) (hsize : 0 ≤ s.roster.sizeInfcl)
    (hroom : ¬ Refused msg s) (hstay : ¬ msg.IsLeave) :
    (readQueue past msg s).2.2.roster.infCl.length = sizeClients ∧
      (readQueue past msg s).2.2.pids =
        s.pids ++ ([msg].filter fun m => m.IsJoin).map Message.fromMessage := by
  by_cases hnew : msg.categoriyMessage = Kind.newClient.code
  · have hless : ¬ (sizeClients : Int) ≤ s.roster.sizeInfcl := fun hfull => hroom ⟨hnew, hfull⟩
    have hcells := Roster.cells_append (r := s.roster) hsize (by omega)
      ⟨strncpy (List.replicate 20 0) msg.mtext 19, msg.fromMessage⟩
    rw [readQueue, if_pos hnew, if_neg hless]
    refine ⟨by simp [Roster.append, hlen], ?_⟩
    show (s.roster.append ⟨strncpy (List.replicate 20 0) msg.mtext 19, msg.fromMessage⟩).cells.map
      InfoClients.pid = _
    rw [hcells]
    simp [Server.pids, Message.IsJoin, hnew]
  · have hleave : ¬ msg.categoriyMessage = Kind.clientLeave.code := hstay
    have hsame : (readQueue past msg s).2.2.roster = s.roster := by
      rw [readQueue, if_neg hnew, if_neg hleave]
      split_ifs <;> rfl
    refine ⟨by rw [hsame, hlen], ?_⟩
    simp [Server.pids, hsame, Message.IsJoin, hnew]

namespace Settled

variable {s s' : System} {l : Label}

theorem init : Settled System.init where
  toConserved := Conserved.init
  kinds := by simp [System.init]
  stays := rfl
  unspent := rfl
  length := rfl
  pids := rfl
  readers := by simp [System.init]
  parting := by simp [System.init]
  cancelled := Or.inl rfl

/-- A message that the server is about to read has been sent by a client. -/
theorem inbox_sent (h : Settled s) {ops : List ServerOp} (ht : s.todo = .act .fetch :: ops) :
    s.inbox ∈ s.sent := by
  have hpending := h.fetch_pending ht
  have hne : s.sent ≠ [] := List.ne_nil_of_length_pos (by omega)
  rw [h.inbox, List.getLast?_eq_getLast_of_ne_nil hne]
  exact List.getLast_mem hne

theorem size_nonneg (h : Settled s) : 0 ≤ (assigned s.server s.todo).roster.sizeInfcl := by
  have hsize := h.size
  rw [h.stays] at hsize
  omega

/-- A leave is written from a writer's script to the messages sent, and stays
among them. -/
theorem parting_step (h : Settled s) (hs : System.Step s l s') :
    (∀ c ∈ s'.clients, c.Parting s') ∧ (s'.cancelled = [] ∨ s'.SomeLeft) := by
  cases hs with
  | start pid name fresh =>
    refine ⟨?_, h.cancelled⟩
    intro c hc
    rcases List.mem_append.mp hc with hc | hc
    · exact h.parting c hc
    · obtain rfl := List.mem_singleton.mp hc
      intro hleft
      exact absurd hleft (by simp)
  | exit i typed c hc idle =>
    refine ⟨forall_mem_set h.parting (fun _ => Or.inl ⟨leaveMessage c.pid, rfl, ?_⟩) i, h.cancelled⟩
    simp [send]
  | chat i typed c hc idle =>
    refine ⟨forall_mem_set h.parting (fun hleft => ?_) i, h.cancelled⟩
    rcases h.parting c (List.mem_of_getElem? hc) hleft with ⟨msg, -, hmem⟩ | hsome
    · rw [idle] at hmem
      exact absurd hmem (by simp)
    · exact Or.inr hsome
  | put i c hc msg ops hw =>
    have hlater : s.SomeLeft → System.SomeLeft
        { s.setClient i { c with writer := ops } with inbox := msg, sent := s.sent ++ [msg] } := by
      rintro ⟨m, hm, hleave⟩
      exact ⟨m, List.mem_append_left _ hm, hleave⟩
    have hc' : c.Parting s := h.parting c (List.mem_of_getElem? hc)
    refine ⟨forall_mem_set (fun d hd => (h.parting d hd).mono hlater) (fun hleft => ?_) i,
      h.cancelled.imp_right hlater⟩
    rcases hc'.head hleft hw with ⟨m, hleave, heq⟩ | hrest | hsome
    · -- the write under way is the leave itself
      obtain rfl : msg = m := by simpa using heq
      exact Or.inr ⟨msg, by simp, hleave⟩
    · exact Or.inl hrest
    · exact Or.inr (hlater hsome)
  | write i c hc op ops hw hop v hrun =>
    refine ⟨forall_mem_set h.parting (fun hleft => ?_) i, h.cancelled⟩
    have hc' : c.Parting s := h.parting c (List.mem_of_getElem? hc)
    rcases hc'.head hleft hw with ⟨m, -, heq⟩ | hrest | hsome
    · exact absurd heq (hop m)
    · exact Or.inl hrest
    · exact Or.inr hsome
  | read i c hc op ops hr v hrun =>
    refine ⟨forall_mem_set h.parting ?_ i, h.cancelled⟩
    exact h.parting c (List.mem_of_getElem? hc)
  | cancel i c hc hleft hdone =>
    have hold : c.Parting s := h.parting c (List.mem_of_getElem? hc)
    have hsome : s.SomeLeft := by
      rcases hold hleft with ⟨m, -, hwr⟩ | hsome
      · -- the writing thread has ended, so its leave is out
        rw [hdone] at hwr
        exact absurd hwr (by simp)
      · exact hsome
    refine ⟨forall_mem_set h.parting ?_ i, Or.inr hsome⟩
    exact hold
  | empty i typed => exact ⟨h.parting, h.cancelled⟩
  | fetch past ops ht => exact ⟨h.parting, h.cancelled⟩
  | serve past op ops ht hop v hrun => exact ⟨h.parting, h.cancelled⟩

/-- A permit is taken from the start of the loop, and held from then on. -/
theorem readers_step (h : Settled s) (hst : Steady s l) (hs : System.Step s l s') :
    ∀ c ∈ s'.clients, c.held ≠ 0 → Joined s' c.pid := by
  cases hs with
  | start pid name fresh =>
    intro c hc hheld
    rcases List.mem_append.mp hc with hc | hc
    · exact h.readers c hc hheld
    · obtain rfl := List.mem_singleton.mp hc
      exact absurd rfl hheld
  | exit i typed c hc idle =>
    refine forall_mem_set h.readers ?_ i
    exact h.readers c (List.mem_of_getElem? hc)
  | chat i typed c hc idle =>
    refine forall_mem_set h.readers ?_ i
    exact h.readers c (List.mem_of_getElem? hc)
  | put i c hc msg ops hw =>
    refine forall_mem_set h.readers ?_ i
    exact h.readers c (List.mem_of_getElem? hc)
  | write i c hc op ops hw hop v hrun =>
    refine forall_mem_set h.readers ?_ i
    exact h.readers c (List.mem_of_getElem? hc)
  | read i c hc op ops hr v hrun =>
    have hmem := List.mem_of_getElem? hc
    refine forall_mem_set h.readers (fun _ => ?_) i
    -- the reader is in front of its wait, or holds a permit already
    rcases held_cases (h.reader c hmem) with hloop | hheld | hnil
    · exact hst c hc hloop
    · exact h.readers c hmem hheld
    · rw [hr] at hnil
      exact absurd hnil (by simp)
  | cancel i c hc hleft hdone =>
    exact forall_mem_set h.readers (fun hheld => absurd rfl hheld) i
  | empty i typed => exact h.readers
  | fetch past ops ht =>
    intro c hc hheld
    rcases h.readers c hc hheld with ⟨m, hm, hjoin⟩
    exact ⟨m, by rw [List.map_append]; exact List.mem_append_left _ hm, hjoin⟩
  | serve past op ops ht hop v hrun => exact h.readers

/-- A steady `fetch` reads a join or a chat message, and answers it. -/
theorem fetched (h : Settled s) {past : InfoClients} (hst : Steady s (.serve past))
    {ops : List ServerOp} (ht : s.todo = .act .fetch :: ops) :
    ¬ s.inbox.IsLeave ∧ ¬ Unanswered (readQueue past s.inbox s.server).2.1 := by
  have hhead : s.todo.head? = some (.act .fetch) := by rw [ht]; rfl
  rcases hst hhead with ⟨hstay, hfit⟩
  refine ⟨hstay, answered_readQueue past s.server ?_ hfit⟩
  rcases h.kinds s.inbox (h.inbox_sent ht) with hj | hc | hl
  · exact Or.inl hj
  · exact Or.inr hc
  · exact absurd hl hstay

/-- A steady `fetch` adds the pid of a join to the table, and nothing else. -/
theorem table_fetch (h : Settled s) {past : InfoClients} (hok : Orderly s (.serve past))
    (hst : Steady s (.serve past)) {ops : List ServerOp} (ht : s.todo = .act .fetch :: ops) :
    (assigned s.server (ops ++ answer past s.inbox s.server)).roster.infCl.length = sizeClients ∧
      (assigned s.server (ops ++ answer past s.inbox s.server)).pids =
        (((s.got ++ [(s.sent.length - 1, s.inbox)]).map Prod.snd).filter
          fun m => m.IsJoin).map Message.fromMessage := by
  obtain rfl := h.fetch ht
  have hhead : s.todo.head? = some (.act .fetch) := by rw [ht]; rfl
  have hnow : assigned s.server s.todo = s.server := by rw [ht]; rfl
  have hlen := h.length
  have hnonneg := h.size_nonneg
  have hpids := h.pids
  rw [hnow] at hlen hnonneg hpids
  rcases table_readQueue past hlen hnonneg (hok.2 hhead) (h.fetched hst ht).1 with ⟨hlen', hpids'⟩
  have hafter : assigned s.server ([.post .mutex1] ++ answer past s.inbox s.server) =
      (readQueue past s.inbox s.server).2.2 := by
    rw [assigned_append]
    exact assigned_answer past s.inbox s.server
  constructor
  · rw [hafter, hlen']
  · rw [hafter, hpids', hpids, List.map_append, List.map_singleton, List.filter_append,
      List.map_append]

theorem step (h : Settled s) (hok : Orderly s l) (hst : Steady s l) (hs : s.step l = some s') :
    Settled s' := by
  have hcon := h.toConserved.step hok hs
  have hinv := System.step_inv hs
  have hreaders := h.readers_step hst hinv
  rcases h.parting_step hinv with ⟨hparting, hcancelled⟩
  cases hinv with
  | put i c hc msg ops hw =>
    refine ⟨hcon, ?_, h.stays, h.unspent, h.length, h.pids, hreaders, hparting, hcancelled⟩
    intro m hm
    rcases List.mem_append.mp hm with hm | hm
    · exact h.kinds m hm
    · obtain rfl := List.mem_singleton.mp hm
      exact (h.writer c (List.mem_of_getElem? hc)).kind (by rw [hw]; exact List.mem_cons_self)
  | fetch past ops ht =>
    rcases h.fetched hst ht with ⟨hstay, hans⟩
    rcases h.table_fetch hok hst ht with ⟨hlen, hpids⟩
    refine ⟨hcon, h.kinds, ?_, ?_, hlen, hpids, hreaders, hparting, hcancelled⟩
    · have hcount : leaves (s.got.map Prod.snd ++ [s.inbox]) =
          leaves (s.got.map Prod.snd) + leaves [s.inbox] := List.countP_append
      rw [List.map_append, List.map_singleton, hcount, h.stays]
      simp [leaves, hstay]
    · rw [load_append, h.unspent, load_cons, load_nil, spent, if_neg hans]
      rfl
  | serve past op ops ht hop v hrun =>
    have hsame : assigned (assigned s.server [op]) (refill receive ops) =
        assigned s.server s.todo := by
      rw [assigned_refill, ← assigned_append, ht]
      rfl
    exact ⟨hcon, h.kinds, h.stays, h.unspent, by rw [hsame]; exact h.length,
      by rw [hsame]; exact h.pids, hreaders, hparting, hcancelled⟩
  -- the other steps are of clients that write no message: the server's side stays
  | start | exit | chat | empty | write | read | cancel =>
    exact ⟨hcon, h.kinds, h.stays, h.unspent, h.length, h.pids, hreaders, hparting, hcancelled⟩

end Settled

/-! ## The result -/

/-- The next broadcast waits for every registered client. -/
def Matched (s : System) : Prop :=
  s.sem .client = 0 ∧ (s.sem .server2 : Int) = s.server.roster.sizeInfcl

instance (s : System) : Decidable (Matched s) := inferInstanceAs (Decidable (_ ∧ _))

theorem Settled.matched {s : System} (h : Settled s) (hq : Quiet s) : Matched s := by
  have hbal := hq.balance h.toConserved
  have hgot := hq.got_eq h.toInOrder
  have hpids := h.pids
  have hsize := hq.size h.toConserved
  have hstays := h.stays
  rw [hq.waiting, hgot] at hpids
  rw [hgot] at hstays
  -- all that was sent has been read, and no leave was among it
  have hnone : ¬ s.SomeLeft := by
    rintro ⟨m, hm, hleave⟩
    exact absurd hleave (by simpa using List.countP_eq_zero.mp hstays m hm)
  have hcan : s.cancelled = [] := h.cancelled.resolve_right hnone
  -- a thread that holds a permit belongs to a registered client, which waits
  have hheld : ∀ c ∈ s.clients, c.held = 0 := by
    intro c hc
    by_contra hne
    rcases h.readers c hc hne with ⟨m, hm, hjoin, hpid⟩
    rw [hgot] at hm
    refine hne (hq.held_of_registered hc ?_)
    show c.pid ∈ (assigned s.server receive).pids
    rw [hpids, ← hpid]
    exact List.mem_map_of_mem (List.mem_filter.mpr ⟨hm, by simpa using hjoin⟩)
  have hstray : s.strayed = 0 := by
    rw [System.strayed, hcan, load, List.map_congr_left fun c hc => hheld c (List.mem_of_mem_filter hc)]
    simp
  have hunspent := h.unspent
  by_cases hempty : s.server.pids = []
  · -- nobody has joined yet
    have hlen : joins s.sent = 0 := by
      have hcount : joins s.sent = (assigned s.server receive).pids.length := by
        rw [hpids, List.length_map, joins, List.countP_eq_length_filter]
      rw [hcount]
      exact congrArg List.length hempty
    constructor <;> omega
  · have hblocked := hq.blocked hempty
    exact ⟨hblocked, by omega⟩

/-- In every run, in every quiet state: if all steps of the run are steady,
`sem_client` is at zero and `sem_server2` at the number of registered clients;
and in general `sem_server2` is there exactly when the leaves are made up for
by permits that went astray and acknowledgements that were spent. -/
theorem permits_matched (ls : List Label) (s : System)
    (h : Machine.Run System.step Orderly System.init ls s) (hq : Quiet s) :
    (Machine.Run System.step (fun s l => Orderly s l ∧ Steady s l) System.init ls s → Matched s) ∧
      (s.sem .client = 0 → (Matched s ↔
        (leaves (s.got.map Prod.snd) : Int) = s.strayed + load spent s.handled)) := by
  have hcon : Conserved s := h.invariant Conserved Conserved.init fun _ _ _ hi hok hs => hi.step hok hs
  constructor
  · intro hrun
    have hsettled : Settled s :=
      hrun.invariant Settled Settled.init fun _ _ _ hi hok hs => hi.step hok.1 hok.2 hs
    exact hsettled.matched hq
  · intro hzero
    have hbal := hq.balance hcon
    rw [hq.got_eq hcon.toInOrder, Matched]
    omega

/-- Two clients join and read, the second one leaves, the first one reads both
notices of it. -/
def secondLeaves : List Label :=
  List.flatten [[.start 1 (ascii ['a'])], List.replicate 5 (.write 0),
    List.replicate 12 (.serve ⟨[], 0⟩), List.replicate 5 (.read 0),
    [.start 2 (ascii ['b'])], List.replicate 5 (.write 1),
    List.replicate 14 (.serve ⟨[], 0⟩), List.replicate 5 (.read 0), List.replicate 5 (.read 1),
    [.type 1 exitWord], List.replicate 4 (.write 1),
    List.replicate 17 (.serve ⟨[], 0⟩), List.replicate 10 (.read 0), [.cancel 1]]

/-- Two acknowledgements are left for one client. -/
theorem leave_keeps_acknowledgement :
    ∃ s, Machine.Run System.step Orderly System.init secondLeaves s ∧
      Quiet s ∧ s.sem .server2 = 2 ∧ s.server.roster.sizeInfcl = 1 := by
  have hrun : (Machine.exec (Machine.guarded System.step Orderly) System.init secondLeaves).map
      (fun s => decide (Quiet s ∧ s.sem .server2 = 2 ∧ s.server.roster.sizeInfcl = 1)) =
        some true := by
    decide +kernel
  rcases Machine.Run.exists_of_exec hrun with ⟨s, hs, hfacts⟩
  exact ⟨s, hs, of_decide_eq_true hfacts⟩

/-- Two joins and a line. -/
theorem permits_matched_two_writers :
    ∃ s, Machine.Run System.step (fun s l => Orderly s l ∧ Steady s l) System.init twoWriters s ∧
      s.server.roster.sizeInfcl = 2 ∧ s.sent.length = 3 ∧ Matched s := by
  have hrun : (Machine.exec (Machine.guarded System.step fun s l => Orderly s l ∧ Steady s l)
      System.init twoWriters).map
      (fun s => decide (Quiet s ∧ s.server.roster.sizeInfcl = 2 ∧ s.sent.length = 3)) =
        some true := by
    decide +kernel
  rcases Machine.Run.exists_of_exec hrun with ⟨s, hsteady, hfacts⟩
  rcases of_decide_eq_true hfacts with ⟨hquiet, hsize, hsent⟩
  exact ⟨s, hsteady, hsize, hsent,
    (permits_matched _ s (hsteady.mono fun _ _ hok => hok.1) hquiet).1 hsteady⟩

end EmbeddedCourse.SharedChat
