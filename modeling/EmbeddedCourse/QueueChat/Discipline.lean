import EmbeddedCourse.QueueChat.Traffic
import EmbeddedCourse.QueueChat.System

/-! # How clients use queue 0

A client sends its `NEW_CLIENT` once and first, then lines, and nothing after
its `CLIENT_LEAVE`. `advance` follows the statuses of all clients through the
messages of queue 0 and refuses a message that breaks this order. As long as
the statuses at the server's end of the queue name the members of the room, a
message that `advance` accepts is regular.
-/

namespace EmbeddedCourse.QueueChat

open CString Chat Mailbox Client

/-- The statuses after `msg`; `none` for a message out of turn. -/
def advance (ph : Int → Status) (msg : Message) : Option (Int → Status) :=
  if msg.mtype = Kind.newClient.code then
    if ph msg.fromMessage = .notStarted then
      some (Function.update ph msg.fromMessage .running)
    else none
  else if msg.mtype = Kind.messageFromClient.code then
    if ph msg.fromMessage = .running then some ph else none
  else if msg.mtype = Kind.clientLeave.code then
    if ph msg.fromMessage = .running then
      some (Function.update ph msg.fromMessage .left)
    else none
  else none

/-- The message finds room if it is a join, and makes a short line if it is one. -/
def Admits (past : InfoClients) (msg : Message) (s : Server) : Prop :=
  (msg.mtype = Kind.newClient.code → s.roster.sizeInfcl < sizeClients) ∧
  (msg.mtype = Kind.messageFromClient.code →
    (chatLine (s.sender past msg.fromMessage).name msg.mtext).length ≤ 255)

instance (past : InfoClients) (msg : Message) (s : Server) : Decidable (Admits past msg s) :=
  inferInstanceAs (Decidable (_ ∧ _))

/-- The running clients are the members. -/
def Tracks (ph : Int → Status) (R : Room) : Prop := ∀ p, ph p = .running ↔ p ∈ R.pids

section

variable {ph ph' : Int → Status} {R : Room} {msg : Message}

/-- The three messages that `advance` accepts. -/
theorem advance_cases (h : advance ph msg = some ph') :
    (msg.mtype = Kind.newClient.code ∧ ph msg.fromMessage = .notStarted ∧
      ph' = Function.update ph msg.fromMessage .running) ∨
    (msg.mtype = Kind.messageFromClient.code ∧ ph msg.fromMessage = .running ∧ ph' = ph) ∨
    (msg.mtype = Kind.clientLeave.code ∧ ph msg.fromMessage = .running ∧
      ph' = Function.update ph msg.fromMessage .left) := by
  unfold advance at h
  split_ifs at h with h1 h2 h3 h4 h5 h6
  · exact Or.inl ⟨h1, h2, (Option.some.inj h).symm⟩
  · exact Or.inr (Or.inl ⟨h3, h4, (Option.some.inj h).symm⟩)
  · exact Or.inr (Or.inr ⟨h5, h6, (Option.some.inj h).symm⟩)

/-- A message in turn is regular when a join finds room. -/
theorem Tracks.regular (ht : Tracks ph R) (h : advance ph msg = some ph')
    (hroom : msg.mtype = Kind.newClient.code → R.members.length < sizeClients) :
    R.Regular msg := by
  rcases advance_cases h with ⟨hk, hph, -⟩ | ⟨hk, hph, -⟩ | ⟨hk, hph, -⟩
  · refine .join hk (fun hmem => ?_) (hroom hk)
    rw [(ht _).mpr hmem] at hph
    exact Status.noConfusion hph
  · exact .chat hk ((ht _).mp hph)
  · exact .leave hk ((ht _).mp hph)

/-- The statuses keep naming the members. -/
theorem Tracks.next (ht : Tracks ph R) (hnd : R.pids.Nodup) (h : advance ph msg = some ph') :
    Tracks ph' (R.next msg) := by
  intro p
  rcases advance_cases h with ⟨hk, hph, rfl⟩ | ⟨hk, hph, rfl⟩ | ⟨hk, hph, rfl⟩
  · rw [Room.next_join hk, Room.pids_join, List.mem_append, List.mem_singleton]
    by_cases hp : p = msg.fromMessage
    · simp [hp]
    · simp [hp, ht p]
  · rw [Room.next_chat hk, Room.pids_say]
    exact ht p
  · rw [Room.next_leave hk, Room.mem_pids_leave hnd]
    by_cases hp : p = msg.fromMessage
    · simp [hp]
    · simp [hp, ht p]

/-- A message in turn changes the status of its sender only. -/
theorem advance_of_ne (h : advance ph msg = some ph') {p : Int} (hp : p ≠ msg.fromMessage) :
    ph' p = ph p := by
  rcases advance_cases h with ⟨-, -, rfl⟩ | ⟨-, -, rfl⟩ | ⟨-, -, rfl⟩
  · exact Function.update_of_ne hp _ _
  · rfl
  · exact Function.update_of_ne hp _ _

/-- Nobody goes back to not being started. -/
theorem advance_notStarted (h : advance ph msg = some ph') {p : Int} (hp : ph' p = .notStarted) :
    ph p = .notStarted := by
  -- only the sender's own status moves, and it moves forward
  by_cases hpm : p = msg.fromMessage
  · rcases advance_cases h with ⟨-, hph, -⟩ | ⟨-, -, rfl⟩ | ⟨-, -, rfl⟩
    · rw [hpm, hph]
    · exact hp
    · rw [hpm] at hp
      simp at hp
  · rw [← advance_of_ne h hpm, hp]

/-- Who has left stays so. -/
theorem advance_left {p : Int} (h : advance ph msg = some ph') (hp : ph p = .left) :
    ph' p = .left := by
  by_cases hpm : p = msg.fromMessage
  · subst hpm
    rcases advance_cases h with ⟨-, hph, -⟩ | ⟨-, hph, -⟩ | ⟨-, hph, -⟩ <;>
      exact absurd (hph.symm.trans hp) (by decide)
  · rw [advance_of_ne h hpm, hp]

/-- A leave is accepted from a running client, which has left then. -/
theorem advance_leave (h : advance ph msg = some ph') (hkind : msg.mtype = Kind.clientLeave.code) :
    ph msg.fromMessage = .running ∧ ph' msg.fromMessage = .left := by
  rcases advance_cases h with ⟨hk, -, -⟩ | ⟨hk, -, -⟩ | ⟨-, hph, rfl⟩
  · rw [hkind] at hk
    exact absurd hk (by decide)
  · rw [hkind] at hk
    exact absurd hk (by decide)
  · exact ⟨hph, Function.update_self ..⟩

theorem foldlM_advance_notStarted {msgs : List Message} (h : msgs.foldlM advance ph = some ph')
    {p : Int} (hp : ph' p = .notStarted) : ph p = .notStarted := by
  induction msgs generalizing ph with
  | nil =>
    obtain rfl : ph = ph' := by simpa using h
    exact hp
  | cons msg msgs ih =>
    rw [List.foldlM_cons] at h
    cases hadv : advance ph msg with
    | none => simp [hadv] at h
    | some ph₁ =>
      rw [hadv] at h
      exact advance_notStarted hadv (ih h)

end

/-! ## One iteration, seen by the clients -/

namespace Server

variable {s : Server} {R : Room} {msg : Message} {ph ph' : Int → Status}

/-- After a regular message nobody but the members has mail. -/
theorem Holds.mail_stranger (h : s.Holds R) (hm : R.Regular msg) (past : InfoClients) {p : Int}
    (hp : p ∉ (R.next msg).pids) : mail Message.mtype p (QueueChat.iteration past msg s).2 = [] := by
  cases hm with
  | join kind fresh room =>
    rw [Room.next_join kind, Room.pids_join, List.mem_append, List.mem_singleton, not_or] at hp
    rw [h.mail_join kind fresh room past p, if_neg hp.2, if_neg hp.1]
  | chat kind member =>
    rw [Room.next_chat kind, Room.pids_say] at hp
    rw [h.mail_chat kind past p, if_neg hp]
  | leave kind member =>
    rcases h.mail_leave kind member past p with ⟨text, htext⟩
    rw [htext, if_neg (by rwa [Room.next_leave kind] at hp)]

/-- What a member that stays is sent turns the old members into the new ones. -/
theorem Holds.notices_member (h : s.Holds R) (hm : R.Regular msg) (past : InfoClients) {p : Int}
    (hp : p ∈ R.pids) (hp' : p ∈ (R.next msg).pids) :
    (mail Message.mtype p (QueueChat.iteration past msg s).2).foldlM applyNotice R.members =
      some (R.next msg).members := by
  cases hm with
  | join kind fresh room =>
    have hne : p ≠ msg.fromMessage := fun he => fresh (he ▸ hp)
    rw [h.mail_join kind fresh room past p, if_neg hne, if_pos hp, Room.next_join kind]
    simp [applyNotice, Message.readdress, Message.withCategory, room, Room.join]
  | chat kind member =>
    rw [h.mail_chat kind past p, if_pos hp, Room.next_chat kind]
    simp [applyNotice, Message.readdress, Message.withCategory, Room.say]
  | leave kind member =>
    rcases h.mail_leave kind member past p with ⟨text, htext⟩
    rw [htext, if_pos (by rwa [Room.next_leave kind] at hp'), Room.next_leave kind]
    -- the server's notice changes nothing, the leave notice takes the member out
    have hmem : msg.fromMessage ∈ R.members.map Prod.fst := member
    simp [applyNotice, Message.readdress, Message.withCategory, Room.leave, -List.mem_map, hmem]

/-- A newcomer is greeted with all members. -/
theorem Holds.greeted (h : s.Holds R) (kind : msg.mtype = Kind.newClient.code)
    (fresh : msg.fromMessage ∉ R.pids) (room : R.members.length < sizeClients) (past : InfoClients) :
    (greeting msg (QueueChat.iteration past msg s).1).foldlM applyNotice [] =
      some (R.next msg).members := by
  have hnew := h.iteration (.join kind fresh room) past
  rw [← hnew.roster.members, greeting]
  split_ifs with hsize
  · rw [applyNotice_roster rfl, List.nil_append]
    · rfl
    · rw [hnew.roster.cells_length, List.length_nil, Nat.zero_add]
      exact hnew.roster.fits
  · -- alone in the room
    have hempty : R.members = [] := by
      rw [hnew.roster.size, Room.next_join kind, Room.join, List.length_append,
        List.length_singleton] at hsize
      apply List.eq_nil_of_length_eq_zero
      omega
    rw [hnew.roster.members, Room.next_join kind, Room.join, hempty]
    simp [applyNotice, Message.readdress, Message.withCategory, sizeClients]

/-- What a newcomer is sent tells it of all members. -/
theorem Holds.notices_newcomer (h : s.Holds R) (kind : msg.mtype = Kind.newClient.code)
    (fresh : msg.fromMessage ∉ R.pids) (room : R.members.length < sizeClients)
    (hlines : ∀ e ∈ R.history, e.1.length ≤ 255) (past : InfoClients) :
    (mail Message.mtype msg.fromMessage (QueueChat.iteration past msg s).2).foldlM applyNotice [] =
      some (R.next msg).members := by
  have hnew := h.iteration (.join kind fresh room) past
  have hentries : ∀ e ∈ (QueueChat.iteration past msg s).1.storeMsg.entries, e.1.length ≤ 256 := by
    rw [hnew.store.entries, Room.next_join kind]
    exact fun e he => (hlines e he).trans (by omega)
  rw [h.mail_join kind fresh room past, if_pos rfl, List.foldlM_append, h.greeted kind fresh room]
  exact foldlM_applyNotice_other _ fun m hm => not_notice_of_line (replay_category _ hentries m hm)

/-- A member after a regular message was one before and is kept up to date, or
is the newcomer, was never started before, and is told everything. -/
theorem Holds.notices (h : s.Holds R) (hm : R.Regular msg) (hadv : advance ph msg = some ph')
    (hlines : ∀ e ∈ R.history, e.1.length ≤ 255) (past : InfoClients) {p : Int}
    (hp : p ∈ (R.next msg).pids) :
    (p ∈ R.pids ∧
      (mail Message.mtype p (QueueChat.iteration past msg s).2).foldlM applyNotice R.members =
        some (R.next msg).members) ∨
    (ph p = .notStarted ∧ p ∉ R.pids ∧
      (mail Message.mtype p (QueueChat.iteration past msg s).2).foldlM applyNotice [] =
        some (R.next msg).members) := by
  -- of the three kinds of messages only a join makes a new member
  by_cases hold : p ∈ R.pids
  · exact Or.inl ⟨hold, h.notices_member hm past hold hp⟩
  · cases hm with
    | join kind fresh room =>
      have hpm : p = msg.fromMessage := by
        rw [Room.next_join kind, Room.pids_join, List.mem_append, List.mem_singleton] at hp
        exact hp.resolve_left hold
      have hph : ph msg.fromMessage = .notStarted := by
        rcases advance_cases hadv with ⟨-, hph, -⟩ | ⟨hk, -, -⟩ | ⟨hk, -, -⟩
        · exact hph
        · rw [kind] at hk
          simp at hk
        · rw [kind] at hk
          simp at hk
      subst hpm
      exact Or.inr ⟨hph, hold, h.notices_newcomer kind fresh room hlines past⟩
    | chat kind member =>
      rw [Room.next_chat kind, Room.pids_say] at hp
      exact absurd hp hold
    | leave kind member =>
      rw [Room.next_leave kind, Room.mem_pids_leave h.nodup] at hp
      exact absurd hp.1 hold

/-- Whoever is not started after a message was not started before and is sent
nothing. -/
theorem Holds.mail_notStarted (h : s.Holds R) (ht : Tracks ph R) (hm : R.Regular msg)
    (hadv : advance ph msg = some ph') (past : InfoClients) {p : Int} (hp : ph' p = .notStarted) :
    ph p = .notStarted ∧ mail Message.mtype p (QueueChat.iteration past msg s).2 = [] := by
  have hnot : p ∉ (R.next msg).pids := fun hmem => by
    rw [← ht.next h.nodup hadv, hp] at hmem
    exact Status.noConfusion hmem
  exact ⟨advance_notStarted hadv hp, h.mail_stranger hm past hnot⟩

/-- Every member after a regular message is sent something. -/
theorem Holds.mail_next_ne_nil (h : s.Holds R) (hm : R.Regular msg) (past : InfoClients) {p : Int}
    (hp : p ∈ (R.next msg).pids) :
    mail Message.mtype p (QueueChat.iteration past msg s).2 ≠ [] := by
  cases hm with
  | join kind fresh room =>
    rw [h.mail_join kind fresh room past p]
    rw [Room.next_join kind, Room.pids_join, List.mem_append, List.mem_singleton] at hp
    split_ifs with hself hold
    · have hnew := h.iteration (.join kind fresh room) past
      rw [greeting]
      split_ifs with hmany
      · -- the roster loop goes over more than one cell
        have hsize := hnew.roster.size
        have hlen := hnew.roster.cells_length
        cases hcells : (QueueChat.iteration past msg s).1.roster.cells with
        | nil =>
          rw [hcells, List.length_nil] at hlen
          omega
        | cons c cs => simp [sendLoop]
      · simp
    · simp
    · exact absurd hp (not_or.mpr ⟨hold, hself⟩)
  | chat kind member =>
    rw [Room.next_chat kind, Room.pids_say] at hp
    rw [h.mail_chat kind past p, if_pos hp]
    exact List.cons_ne_nil _ _
  | leave kind member =>
    rcases h.mail_leave kind member past p with ⟨text, htext⟩
    rw [Room.next_leave kind] at hp
    rw [htext, if_pos hp]
    exact List.cons_ne_nil _ _

/-- The history stays short when the new line is. -/
theorem Holds.lines_next (h : s.Holds R) (hm : R.Regular msg) {past : InfoClients}
    (hlines : ∀ e ∈ R.history, e.1.length ≤ 255)
    (hline : msg.mtype = Kind.messageFromClient.code →
      (chatLine (s.sender past msg.fromMessage).name msg.mtext).length ≤ 255) :
    ∀ e ∈ (R.next msg).history, e.1.length ≤ 255 := by
  cases hm with
  | join kind fresh room =>
    rw [Room.next_join kind]
    exact hlines
  | chat kind member =>
    intro e he
    rw [Room.next_chat kind, Room.say, List.mem_append, List.mem_singleton] at he
    rcases he with he | rfl
    · exact hlines e he
    · rw [← h.chatLine_eq past member]
      exact hline kind
  | leave kind member =>
    rw [Room.next_leave kind]
    exact hlines

end Server

/-! ## The messages that clients put on queue 0 -/

theorem advance_newClient {ph : Int → Status} {pid : Int} (hph : ph pid = .notStarted)
    (msg : Message) (name : Bytes) :
    advance ph (newClient pid msg name) = some (Function.update ph pid .running) := by
  simp [advance, newClient, hph]

theorem advance_chatMessage {ph : Int → Status} {pid : Int} (hph : ph pid = .running)
    (msg : Message) (input : Bytes) : advance ph (chatMessage pid msg input) = some ph := by
  simp [advance, chatMessage, hph]

theorem advance_leaveMessage {ph : Int → Status} {pid : Int} (hph : ph pid = .running)
    (msg : Message) :
    advance ph (leaveMessage pid msg) = some (Function.update ph pid .left) := by
  simp [advance, leaveMessage, hph]

namespace System

/-- The statuses of the clients as they are. -/
def statuses (s : System) : Int → Status := fun p => (s.client p).status

/-- What a step of the system can be. -/
inductive Step (s : System) : Label → System → Prop where
  | join (pid : Int) (name : Bytes) (hst : s.statuses pid = .notStarted) :
      Step s (.start pid name) (s.post pid (newClient pid (s.client pid).localMsg name) .running)
  | exit (pid : Int) (typed : Bytes) (hexit : inputLine typed = exitWord)
      (hst : s.statuses pid = .running) :
      Step s (.type pid typed) (s.post pid (leaveMessage pid (s.client pid).localMsg) .left)
  | chat (pid : Int) (typed : Bytes) (hexit : inputLine typed ≠ exitWord)
      (hst : s.statuses pid = .running) :
      Step s (.type pid typed)
        (s.post pid (chatMessage pid (s.client pid).localMsg (inputLine typed)) .running)
  | empty (pid : Int) (typed : Bytes) (hexit : inputLine typed ≠ exitWord) :
      Step s (.type pid typed) s
  | serve (past : InfoClients) (msg : Message) (rest : List Message) (hq : s.queue0 = msg :: rest) :
      Step s (.serve past)
        { s with
          server := (iteration past msg s.server).1
          queue0 := rest
          queue1 := s.queue1 ++ (iteration past msg s.server).2 }
  | deliver (pid : Int) (past : InfoClients) (msg : Message) (rest : List Message)
      (hq : receive Message.mtype pid s.queue1 = some (msg, rest))
      (hst : s.statuses pid ≠ .notStarted) :
      Step s (.deliver pid past)
        { s.setClient pid
            { s.client pid with roster := Client.readQueue past msg (s.client pid).roster } with
          queue1 := rest }

/-- The kinds of steps are all. -/
theorem step_inv {s s' : System} {l : Label} (h : s.step l = some s') : Step s l s' := by
  cases l with
  | start pid name =>
    simp only [System.step] at h
    split_ifs at h with hst
    obtain rfl := Option.some.inj h
    exact .join pid name hst.2
  | type pid typed =>
    simp only [System.step] at h
    split_ifs at h with hst hexit hempty
    · obtain rfl := Option.some.inj h
      exact .exit pid typed hexit hst
    · obtain rfl := Option.some.inj h
      exact .chat pid typed hexit hst
    · obtain rfl := Option.some.inj h
      exact .empty pid typed hexit
  | serve past =>
    simp only [System.step] at h
    split at h
    · exact absurd h (by simp)
    · next msg rest hq =>
      obtain rfl := Option.some.inj h
      exact .serve past msg rest hq
  | deliver pid past =>
    simp only [System.step] at h
    split at h
    · exact absurd h (by simp)
    · next msg rest hq =>
      split_ifs at h with hst
      obtain rfl := Option.some.inj h
      exact .deliver pid past msg rest hq hst

/-! ## Posting on queue 0 -/

@[simp] theorem post_queue0 (s : System) (pid : Int) (msg : Message) (st : Status) :
    (s.post pid msg st).queue0 = s.queue0 ++ [msg] := rfl

@[simp] theorem post_queue1 (s : System) (pid : Int) (msg : Message) (st : Status) :
    (s.post pid msg st).queue1 = s.queue1 := rfl

@[simp] theorem post_roster (s : System) (pid : Int) (msg : Message) (st : Status) (p : Int) :
    ((s.post pid msg st).client p).roster = (s.client p).roster := by
  by_cases hp : p = pid
  · simp [System.post, System.setClient, hp]
  · simp [System.post, System.setClient, hp]

theorem post_statuses (s : System) (pid : Int) (msg : Message) (st : Status) :
    (s.post pid msg st).statuses = Function.update s.statuses pid st := by
  funext p
  by_cases hp : p = pid
  · simp [System.statuses, System.post, System.setClient, hp]
  · simp [System.statuses, System.post, System.setClient, hp]

/-- What a client posts is in turn. -/
theorem advance_join {s : System} {pid : Int} (hst : s.statuses pid = .notStarted) (msg : Message)
    (name : Bytes) :
    advance s.statuses (newClient pid msg name) =
      some (s.post pid (newClient pid msg name) .running).statuses := by
  rw [post_statuses]
  exact advance_newClient hst msg name

theorem advance_exit {s : System} {pid : Int} (hst : s.statuses pid = .running) (msg : Message) :
    advance s.statuses (leaveMessage pid msg) =
      some (s.post pid (leaveMessage pid msg) .left).statuses := by
  rw [post_statuses]
  exact advance_leaveMessage hst msg

theorem advance_line {s : System} {pid : Int} (hst : s.statuses pid = .running) (msg : Message)
    (input : Bytes) :
    advance s.statuses (chatMessage pid msg input) =
      some (s.post pid (chatMessage pid msg input) .running).statuses := by
  rw [post_statuses, ← hst, Function.update_eq_self]
  exact advance_chatMessage hst msg input

/-- What survives a post that is in turn, a pass of the server and a delivery survives every
step. -/
theorem step_keeps {P : System → Prop} {s s' : System} {l : Label} (hs : s.step l = some s')
    (h : P s)
    (post : ∀ pid msg st, advance s.statuses msg = some (s.post pid msg st).statuses →
      P (s.post pid msg st))
    (serve : ∀ past msg rest, l = .serve past → s.queue0 = msg :: rest →
      P { s with
          server := (iteration past msg s.server).1
          queue0 := rest
          queue1 := s.queue1 ++ (iteration past msg s.server).2 })
    (deliver : ∀ pid past msg rest, receive Message.mtype pid s.queue1 = some (msg, rest) →
      P { s.setClient pid
            { s.client pid with roster := Client.readQueue past msg (s.client pid).roster } with
          queue1 := rest }) : P s' := by
  cases step_inv hs with
  | join pid name hst => exact post pid _ _ (advance_join hst _ name)
  | exit pid typed hexit hst => exact post pid _ _ (advance_exit hst _)
  | chat pid typed hexit hst => exact post pid _ _ (advance_line hst _ _)
  | empty pid typed hexit => exact h
  | serve past msg rest hq => exact serve past msg rest rfl hq
  | deliver pid past msg rest hq hst => exact deliver pid past msg rest hq

/-- A delivery leaves all statuses alone. -/
theorem statuses_deliver (s : System) (pid : Int) (r : Roster) (q : List Message) :
    System.statuses
      { s.setClient pid { s.client pid with roster := r } with queue1 := q } = s.statuses := by
  funext p
  by_cases hp : p = pid
  · simp [System.statuses, System.setClient, hp]
  · simp [System.statuses, System.setClient, hp]

end System

/-! ## The server behind the queue -/

/-- The server is the room `R`; `ph` are the statuses of the clients at the
server's end of queue 0, the messages pending there are in turn, and whoever
has not joined at the server has no mail. -/
structure Follows (s : System) (R : Room) (ph : Int → Status) : Prop where
  server : s.server.Holds R
  tracks : Tracks ph R
  pending : s.queue0.foldlM advance ph = some s.statuses
  strangers : ∀ p, ph p = .notStarted → mail Message.mtype p s.queue1 = []

namespace Follows

theorem init (junk : Fin sizeClients → InfoClients) :
    Follows (System.init junk) ⟨[], []⟩ fun _ => .notStarted where
  server := Server.holds_init junk
  tracks := by
    intro p
    simp [Room.pids]
  pending := rfl
  strangers := fun _ _ => rfl

variable {s : System} {R : Room} {ph : Int → Status}

theorem notStarted (h : Follows s R ph) {p : Int} (hp : s.statuses p = .notStarted) :
    mail Message.mtype p s.queue1 = [] :=
  h.strangers p (foldlM_advance_notStarted h.pending hp)

/-- Posting in turn adds to the pending messages only. -/
theorem post (h : Follows s R ph) {pid : Int} {msg : Message} {st : Status}
    (hadv : advance s.statuses msg = some (s.post pid msg st).statuses) :
    Follows (s.post pid msg st) R ph where
  server := h.server
  tracks := h.tracks
  pending := by
    rw [System.post_queue0, List.foldlM_append, h.pending]
    simp [hadv]
  strangers := h.strangers

/-- The head of queue 0 is in turn, hence regular if it finds room. -/
theorem head (h : Follows s R ph) {msg : Message} {rest : List Message}
    (hq : s.queue0 = msg :: rest)
    (hroom : msg.mtype = Kind.newClient.code → s.server.roster.sizeInfcl < sizeClients) :
    ∃ ph', advance ph msg = some ph' ∧ rest.foldlM advance ph' = some s.statuses ∧
      R.Regular msg := by
  have hpend := h.pending
  rw [hq, List.foldlM_cons] at hpend
  cases hadv : advance ph msg with
  | none => simp [hadv] at hpend
  | some ph' =>
    rw [hadv] at hpend
    exact ⟨ph', rfl, hpend, h.tracks.regular hadv fun kind => h.server.roster.size_lt.mp (hroom kind)⟩

/-- One server iteration on a regular head. -/
theorem serve (h : Follows s R ph) {past : InfoClients} {msg : Message} {rest : List Message}
    {ph' : Int → Status} (hadv : advance ph msg = some ph')
    (hpend : rest.foldlM advance ph' = some s.statuses) (hreg : R.Regular msg) :
    Follows
      { s with
        server := (iteration past msg s.server).1
        queue0 := rest
        queue1 := s.queue1 ++ (iteration past msg s.server).2 } (R.next msg) ph' where
  server := h.server.iteration hreg past
  tracks := h.tracks.next h.server.nodup hadv
  pending := hpend
  strangers := by
    intro p hp
    rcases h.server.mail_notStarted h.tracks hreg hadv past hp with ⟨hp0, hnone⟩
    rw [mail_append, h.strangers p hp0, hnone]
    rfl

/-- Whoever has mail has joined. -/
theorem joined_of_mail (h : Follows s R ph) {pid : Int} {msg : Message} {rest : List Message}
    (hq : receive Message.mtype pid s.queue1 = some (msg, rest)) : ph pid ≠ .notStarted := by
  intro hp
  have hmail := h.strangers pid hp
  rw [mail_receive _ hq] at hmail
  exact absurd hmail (List.cons_ne_nil _ _)

/-- A delivery takes mail from its reader only. -/
theorem deliver (h : Follows s R ph) {pid : Int} {msg : Message} {rest : List Message}
    (hq : receive Message.mtype pid s.queue1 = some (msg, rest)) (r : Roster) :
    Follows { s.setClient pid { s.client pid with roster := r } with queue1 := rest } R ph where
  server := h.server
  tracks := h.tracks
  pending := h.pending.trans (congrArg some (System.statuses_deliver ..).symm)
  strangers := by
    intro p hp
    have hpid : p ≠ pid := by
      rintro rfl
      exact h.joined_of_mail hq hp
    exact (mail_receive_ne _ hq hpid).trans (h.strangers p hp)

/-- A table that is blank as its owner has not joined stays so. -/
theorem blank_deliver (h : Follows s R ph)
    (hblank : ∀ p, ph p = .notStarted → (s.client p).roster.Holds []) {pid : Int} {msg : Message}
    {rest : List Message} (hq : receive Message.mtype pid s.queue1 = some (msg, rest)) (r : Roster)
    {p : Int} (hp : ph p = .notStarted) :
    ((s.setClient pid { s.client pid with roster := r }).client p).roster.Holds [] := by
  have hpid : p ≠ pid := by
    rintro rfl
    exact h.joined_of_mail hq hp
  simpa [System.setClient, hpid] using hblank p hp

end Follows

/-- A join finds room. -/
def FindsRoom (s : System) : Label → Prop
  | .serve _ => ∀ msg ∈ s.queue0.head?, msg.mtype = Kind.newClient.code →
      s.server.roster.sizeInfcl < sizeClients
  | _ => True

instance : ∀ (s : System) (l : Label), Decidable (FindsRoom s l)
  | s, .serve _ => inferInstanceAs (Decidable (∀ msg ∈ s.queue0.head?,
      msg.mtype = Kind.newClient.code → s.server.roster.sizeInfcl < sizeClients))
  | _, .start _ _ | _, .type _ _ | _, .deliver _ _ => inferInstanceAs (Decidable True)

theorem follows_step {s s' : System} {l : Label} (h : ∃ R ph, Follows s R ph) (hok : FindsRoom s l)
    (hs : s.step l = some s') : ∃ R ph, Follows s' R ph := by
  rcases h with ⟨R, ph, h⟩
  apply System.step_keeps (P := fun s => ∃ R ph, Follows s R ph) hs ⟨R, ph, h⟩
  · intro pid msg st hadv
    exact ⟨R, ph, h.post hadv⟩
  · rintro past msg rest rfl hq
    rcases h.head hq (hok msg (by rw [hq]; rfl)) with ⟨ph', hadv, hpend, hreg⟩
    exact ⟨_, ph', h.serve hadv hpend hreg⟩
  · intro pid past msg rest hq
    exact ⟨R, ph, h.deliver hq _⟩

/-- A run in which every join finds room. -/
theorem follows_of_run {junk : Fin sizeClients → InfoClients} {ls : List Label} {s : System}
    (h : Machine.Run System.step FindsRoom (System.init junk) ls s) : ∃ R ph, Follows s R ph :=
  h.invariant (fun s => ∃ R ph, Follows s R ph) ⟨_, _, .init junk⟩
    fun _ _ _ hi hok hs => follows_step hi hok hs

end EmbeddedCourse.QueueChat
