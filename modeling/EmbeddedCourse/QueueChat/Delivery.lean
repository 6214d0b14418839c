import EmbeddedCourse.QueueChat.Discipline

/-! # Every line reaches every member once, in one order

A run of the server over the messages of queue 0, with everything it has put on
queue 1. The invariant (`Streams`) relates the room to the stream of each pid:
the lines a member was ever sent, replayed at its join and broadcast since,
are the history of the room in store order.
-/

namespace EmbeddedCourse.QueueChat

open CString Chat Mailbox Client

/-! ## Runs of the server -/

/-- The clients keep to their discipline from the start. -/
def Orderly (msgs : List Message) : Prop :=
  (msgs.foldlM advance fun _ => Status.notStarted).isSome

/-- Every message finds the server ready for it. -/
def Admitted (s : Server) : List (Message × InfoClients) → Prop
  | [] => True
  | (msg, past) :: rest => Admits past msg s ∧ Admitted (iteration past msg s).1 rest

instance decidableAdmitted : ∀ (feed : List (Message × InfoClients)) (s : Server),
    Decidable (Admitted s feed)
  | [], _ => inferInstanceAs (Decidable True)
  | (msg, past) :: rest, s =>
    have := decidableAdmitted rest (iteration past msg s).1
    inferInstanceAs (Decidable (Admits past msg s ∧ Admitted (iteration past msg s).1 rest))

instance (msgs : List Message) : Decidable (Orderly msgs) :=
  inferInstanceAs (Decidable (_ = true))

/-- The room after a list of messages. -/
def roomAfter (msgs : List Message) : Room := msgs.foldl Room.next ⟨[], []⟩

/-- The server and all it has sent, from the start of `main`. -/
abbrev run (junk : Fin sizeClients → InfoClients) (feed : List (Message × InfoClients)) :
    Server × List Message :=
  serve (Server.init junk) feed

theorem serve_append (s : Server) (feed feed' : List (Message × InfoClients)) :
    serve s (feed ++ feed') =
      ((serve (serve s feed).1 feed').1, (serve s feed).2 ++ (serve (serve s feed).1 feed').2) := by
  induction feed generalizing s with
  | nil => simp [serve]
  | cons e feed ih => simp [serve, ih]

theorem Admitted.append {s : Server} {feed feed' : List (Message × InfoClients)}
    (h : Admitted s (feed ++ feed')) : Admitted s feed ∧ Admitted (serve s feed).1 feed' := by
  induction feed generalizing s with
  | nil => exact ⟨trivial, h⟩
  | cons e feed ih => exact ⟨⟨h.1, (ih h.2).1⟩, (ih h.2).2⟩

/-! ## The stream of lines -/

/-- A message that a client shows as a line of the conversation. -/
def Message.isLine (m : Message) : Prop :=
  m.categoriyMessage = Kind.messageFromClient.code

instance (m : Message) : Decidable m.isLine := inferInstanceAs (Decidable (_ = _))

/-- The lines among the messages for `p`. -/
def linesTo (p : Int) (sent : List Message) : List Message :=
  (mail Message.mtype p sent).filter fun m => m.isLine

theorem linesTo_append (p : Int) (sent sent' : List Message) :
    linesTo p (sent ++ sent') = linesTo p sent ++ linesTo p sent' := by
  simp [linesTo]

namespace Server

variable {s : Server} {R : Room} {msg : Message}

/-- A member that stays is sent exactly the lines that the message added. -/
theorem Holds.lines_member (h : s.Holds R) (hm : R.Regular msg) {past : InfoClients} {p : Int}
    (hp : p ∈ R.pids) (hp' : p ∈ (R.next msg).pids)
    (hline : msg.mtype = Kind.messageFromClient.code →
      (chatLine (s.sender past msg.fromMessage).name msg.mtext).length ≤ 255) :
    R.history.map Prod.snd ++
        (linesTo p (QueueChat.iteration past msg s).2).map Message.fromMessage =
      (R.next msg).history.map Prod.snd := by
  cases hm with
  | join kind fresh room =>
    have hne : p ≠ msg.fromMessage := fun he => fresh (he ▸ hp)
    rw [linesTo, h.mail_join kind fresh room past p, if_neg hne, if_pos hp, Room.next_join kind]
    simp [Message.isLine, Message.readdress, Message.withCategory, Room.join]
  | chat kind member =>
    have hshort := (hline kind).trans (by omega : 255 ≤ 256)
    rw [linesTo, h.mail_chat kind past p, if_pos hp, Room.next_chat kind, copyText_of_le hshort]
    simp [Message.isLine, Message.readdress, Message.withCategory, Room.say]
  | leave kind member =>
    rcases h.mail_leave kind member past p with ⟨text, htext⟩
    rw [linesTo, htext, if_pos (by rwa [Room.next_leave kind] at hp'), Room.next_leave kind]
    simp [Message.isLine, Message.readdress, Message.withCategory, Room.leave]

/-- A newcomer is sent the whole history. -/
theorem Holds.lines_newcomer (h : s.Holds R) (kind : msg.mtype = Kind.newClient.code)
    (fresh : msg.fromMessage ∉ R.pids) (room : R.members.length < sizeClients)
    (hlines : ∀ e ∈ R.history, e.1.length ≤ 255) (past : InfoClients) :
    (linesTo msg.fromMessage (QueueChat.iteration past msg s).2).map Message.fromMessage =
      (R.next msg).history.map Prod.snd := by
  have hnew := h.iteration (.join kind fresh room) past
  have hentries : (QueueChat.iteration past msg s).1.storeMsg.entries = R.history := by
    rw [hnew.store.entries, Room.next_join kind]
    rfl
  -- what greets a newcomer is no line, what is replayed is nothing else
  have hgreet : (greeting msg (QueueChat.iteration past msg s).1).filter (fun m => m.isLine) = [] := by
    rw [List.filter_eq_nil_iff]
    intro m hm
    simp [Message.isLine, greeting_category msg _ m hm]
  have hreplay : (replay msg (QueueChat.iteration past msg s).1).filter (fun m => m.isLine) =
      replay msg (QueueChat.iteration past msg s).1 := by
    rw [List.filter_eq_self]
    intro m hm
    have hcat := replay_category msg (s := (QueueChat.iteration past msg s).1)
      (by rw [hentries]; exact fun e he => (hlines e he).trans (by omega)) m hm
    exact decide_eq_true hcat
  rw [linesTo, h.mail_join kind fresh room past, if_pos rfl, List.filter_append, hgreet, hreplay,
    List.nil_append, replay_from, hentries, Room.next_join kind]
  rfl

end Server

/-! ## The invariant -/

/-- The server is the room `R`, the clients have the statuses `ph`, and `sent`
is everything ever put on queue 1. -/
structure Streams (s : Server) (R : Room) (ph : Int → Status) (sent : List Message) : Prop where
  server : s.Holds R
  lines : ∀ e ∈ R.history, e.1.length ≤ 255
  tracks : Tracks ph R
  strangers : ∀ p, ph p = .notStarted → mail Message.mtype p sent = []
  members : ∀ p ∈ R.pids, (mail Message.mtype p sent).foldlM applyNotice [] = some R.members
  told : ∀ p, ((mail Message.mtype p sent).foldlM applyNotice []).isSome
  heard : ∀ p ∈ R.pids, (linesTo p sent).map Message.fromMessage = R.history.map Prod.snd

namespace Streams

theorem init (junk : Fin sizeClients → InfoClients) :
    Streams (Server.init junk) ⟨[], []⟩ (fun _ => .notStarted) [] where
  server := Server.holds_init junk
  lines := by simp
  tracks := by
    intro p
    simp [Room.pids]
  strangers := fun _ _ => rfl
  members := by simp [Room.pids]
  told := fun _ => rfl
  heard := by simp [Room.pids]

variable {s : Server} {R : Room} {ph ph' : Int → Status} {sent : List Message} {msg : Message}
  {past : InfoClients}

theorem regular (h : Streams s R ph sent) (hadv : advance ph msg = some ph')
    (hok : Admits past msg s) : R.Regular msg :=
  h.tracks.regular hadv fun kind => h.server.roster.size_lt.mp (hok.1 kind)

/-- One iteration. -/
theorem step (h : Streams s R ph sent) (hadv : advance ph msg = some ph')
    (hok : Admits past msg s) :
    Streams (iteration past msg s).1 (R.next msg) ph' (sent ++ (iteration past msg s).2) := by
  have hreg := h.regular hadv hok
  have hnotices : ∀ p ∈ (R.next msg).pids,
      (mail Message.mtype p (sent ++ (iteration past msg s).2)).foldlM applyNotice [] =
        some (R.next msg).members := by
    intro p hp
    rw [mail_append, List.foldlM_append]
    rcases h.server.notices hreg hadv h.lines past hp with ⟨hold, hfold⟩ | ⟨hp0, -, hfold⟩
    · rw [h.members p hold]
      exact hfold
    · rw [h.strangers p hp0]
      exact hfold
  refine ⟨h.server.iteration hreg past, h.server.lines_next hreg h.lines hok.2,
    h.tracks.next h.server.nodup hadv, ?_, hnotices, ?_, ?_⟩
  · intro p hp
    rcases h.server.mail_notStarted h.tracks hreg hadv past hp with ⟨hp0, hnone⟩
    rw [mail_append, h.strangers p hp0, hnone]
    rfl
  · intro p
    by_cases hp : p ∈ (R.next msg).pids
    · rw [hnotices p hp]
      rfl
    · -- nothing new for it
      rw [mail_append, h.server.mail_stranger hreg past hp, List.append_nil]
      exact h.told p
  · intro p hp
    rw [linesTo_append, List.map_append]
    rcases h.server.notices hreg hadv h.lines past hp with ⟨hold, -⟩ | ⟨hp0, hnew, -⟩
    · rw [h.heard p hold]
      exact h.server.lines_member hreg hold hp hok.2
    · have hnone : linesTo p sent = [] := by rw [linesTo, h.strangers p hp0, List.filter_nil]
      rw [hnone, List.map_nil, List.nil_append]
      cases hreg with
      | join kind fresh room =>
        rw [Room.next_join kind, Room.pids_join, List.mem_append, List.mem_singleton] at hp
        rw [hp.resolve_left hnew]
        exact h.server.lines_newcomer kind fresh room h.lines past
      | chat kind member =>
        rw [Room.next_chat kind, Room.pids_say] at hp
        exact absurd hp hnew
      | leave kind member =>
        rw [Room.next_leave kind, Room.mem_pids_leave h.server.nodup] at hp
        exact absurd hp.1 hnew

/-- A whole run. -/
theorem serve (h : Streams s R ph sent) {feed : List (Message × InfoClients)}
    (horder : (feed.map Prod.fst).foldlM advance ph = some ph') (hok : Admitted s feed) :
    Streams (serve s feed).1 ((feed.map Prod.fst).foldl Room.next R) ph'
      (sent ++ (QueueChat.serve s feed).2) := by
  induction feed generalizing s R ph sent with
  | nil =>
    obtain rfl : ph = ph' := by simpa using horder
    simpa [QueueChat.serve] using h
  | cons e feed ih =>
    rw [List.map_cons, List.foldlM_cons] at horder
    cases hadv : advance ph e.1 with
    | none => simp [hadv] at horder
    | some ph₁ =>
      rw [hadv] at horder
      have hstep := h.step hadv hok.1
      have hrest := ih hstep horder hok.2
      rw [List.append_assoc] at hrest
      exact hrest

end Streams

/-- After an orderly and admitted run from the start. -/
theorem streams_of_run (junk : Fin sizeClients → InfoClients) {feed : List (Message × InfoClients)}
    (horder : Orderly (feed.map Prod.fst)) (hok : Admitted (Server.init junk) feed) :
    ∃ ph, Streams (run junk feed).1 (roomAfter (feed.map Prod.fst)) ph (run junk feed).2 := by
  rcases Option.isSome_iff_exists.mp horder with ⟨ph, hph⟩
  exact ⟨ph, (Streams.init junk).serve hph hok⟩

theorem Orderly.of_append {msgs msgs' : List Message} (h : Orderly (msgs ++ msgs')) :
    Orderly msgs := by
  unfold Orderly at h ⊢
  rw [List.foldlM_append] at h
  cases hm : msgs.foldlM advance fun _ => Status.notStarted with
  | none => simp [hm] at h
  | some ph => rfl

/-! ## The history of a run -/

/-- A line sent by a client. -/
def Message.isChat (m : Message) : Prop := m.mtype = Kind.messageFromClient.code

instance (m : Message) : Decidable m.isChat := inferInstanceAs (Decidable (_ = _))

theorem history_next (R : Room) (msg : Message) :
    ∃ new, (R.next msg).history = R.history ++ new ∧ new.length = if msg.isChat then 1 else 0 := by
  by_cases hchat : msg.isChat
  · exact ⟨[_], by rw [Room.next_chat hchat]; rfl, by simp [hchat]⟩
  · refine ⟨[], ?_, by simp [hchat]⟩
    have hne : msg.mtype ≠ Kind.messageFromClient.code := hchat
    rw [List.append_nil, Room.next, if_neg hne]
    split_ifs <;> rfl

/-- The history only grows, by one line for each chat message. -/
theorem history_foldl (R : Room) (msgs : List Message) :
    ∃ new, (msgs.foldl Room.next R).history = R.history ++ new ∧
      new.length = (msgs.filter fun m => m.isChat).length := by
  induction msgs generalizing R with
  | nil => exact ⟨[], by simp, rfl⟩
  | cons msg msgs ih =>
    rcases history_next R msg with ⟨new₁, h₁, hlen₁⟩
    rcases ih (R.next msg) with ⟨new, h, hlen⟩
    refine ⟨new₁ ++ new, by rw [List.foldl_cons, h, h₁, List.append_assoc], ?_⟩
    rw [List.length_append, hlen₁, hlen, List.filter_cons]
    by_cases hchat : msg.isChat
    · simp [hchat]
      omega
    · simp [hchat]

/-- The two arrays have `capacity` cells and the fill counter lies inside. -/
def StoreMessage.InBounds (st : StoreMessage) : Prop :=
  st.size < st.capacity ∧ st.message.length = st.capacity ∧ st.fromMessage.length = st.capacity

theorem StoreMessage.Holds.inBounds {st : StoreMessage} {hist : List (Bytes × Int)}
    (h : st.Holds hist) : st.InBounds :=
  ⟨h.room, h.message_length, h.from_length⟩

theorem StoreMessage.Holds.cells {st : StoreMessage} {hist : List (Bytes × Int)} (h : st.Holds hist)
    {i : ℕ} (hi : i < hist.length) :
    st.message[i]? = some (some hist[i].1) ∧ st.fromMessage[i]? = some (some hist[i].2) := by
  have hsize := h.size
  constructor
  · rw [← List.getElem?_take_of_lt (by omega : i < st.size), h.message]
    simp [hi]
  · rw [← List.getElem?_take_of_lt (by omega : i < st.size), h.from_]
    simp [hi]

/-- In every orderly and admitted run: the lines ever sent to a member are one
for each stored line, in store order and with its sender; the store has one
entry for each chat message; no entry is lost or moved later; and the indices
used, up to `size` and at `size` after growing, lie below the capacity. -/
theorem delivery_exactly_once (junk : Fin sizeClients → InfoClients)
    (feed : List (Message × InfoClients)) (horder : Orderly (feed.map Prod.fst))
    (hok : Admitted (Server.init junk) feed) :
    (∀ p ∈ (run junk feed).1.roster.members.map Prod.fst,
      (linesTo p (run junk feed).2).map (fun m => some m.fromMessage) =
        (run junk feed).1.storeMsg.fromMessage.take (run junk feed).1.storeMsg.size) ∧
    (run junk feed).1.storeMsg.size = (feed.filter fun e => e.1.isChat).length ∧
    (∀ before after, feed = before ++ after → ∀ i < (run junk before).1.storeMsg.size,
      ∃ line from_,
        (run junk before).1.storeMsg.message[i]? = some (some line) ∧
        (run junk before).1.storeMsg.fromMessage[i]? = some (some from_) ∧
        (run junk feed).1.storeMsg.message[i]? = some (some line) ∧
        (run junk feed).1.storeMsg.fromMessage[i]? = some (some from_)) ∧
    (∀ before after, feed = before ++ after →
      (run junk before).1.storeMsg.InBounds ∧ (run junk before).1.storeMsg.grow.InBounds) := by
  -- a front of the run is a run, so the invariant holds there as well
  rcases streams_of_run junk horder hok with ⟨ph, hstreams⟩
  have hbefore : ∀ before after, feed = before ++ after →
      (run junk before).1.Holds (roomAfter (before.map Prod.fst)) := by
    intro before after hfeed
    subst hfeed
    rw [List.map_append] at horder
    rcases streams_of_run junk horder.of_append hok.append.1 with ⟨ph', h⟩
    exact h.server
  refine ⟨?_, ?_, ?_, ?_⟩
  · intro p hp
    rw [hstreams.server.roster.members] at hp
    rw [hstreams.server.store.from_]
    have hheard := congrArg (List.map some) (hstreams.heard p hp)
    rw [List.map_map, List.map_map] at hheard
    exact hheard
  · rcases history_foldl ⟨[], []⟩ (feed.map Prod.fst) with ⟨new, hnew, hlen⟩
    rw [hstreams.server.store.size, roomAfter, hnew, List.nil_append, hlen, List.filter_map,
      List.length_map]
    rfl
  · intro before after hfeed i hi
    have hb := hbefore before after hfeed
    rcases history_foldl (roomAfter (before.map Prod.fst)) (after.map Prod.fst) with ⟨new, hnew, -⟩
    have hhist : (roomAfter (feed.map Prod.fst)).history =
        (roomAfter (before.map Prod.fst)).history ++ new := by
      rw [← hnew, hfeed, List.map_append]
      simp [roomAfter]
    rw [hb.store.size] at hi
    have hcb := hb.store.cells hi
    have hcf := hstreams.server.store.cells (i := i) (by rw [hhist, List.length_append]; omega)
    refine ⟨_, _, hcb.1, hcb.2, ?_, ?_⟩
    · rw [hcf.1]
      simp [hhist, hi]
    · rw [hcf.2]
      simp [hhist, hi]
  · intro before after hfeed
    have hb := hbefore before after hfeed
    exact ⟨hb.store.inBounds, hb.store.grow.1.inBounds⟩

/-- A second client joins after the first has spoken and then speaks itself. -/
theorem delivery_exactly_once_two :
    let c : InfoClients := ⟨[], 0⟩
    let feed : List (Message × InfoClients) :=
      [(newClient 1 zeroMessage (ascii ['a']), c), (chatMessage 1 zeroMessage (ascii ['x']), c),
        (newClient 2 zeroMessage (ascii ['b']), c), (chatMessage 2 zeroMessage (ascii ['y']), c)]
    (linesTo 2 (run (fun _ => c) feed).2).map (fun m => some m.fromMessage) = [some 1, some 2] := by
  intro c feed
  have horder : Orderly (feed.map Prod.fst) := by decide +kernel
  have hok : Admitted (Server.init fun _ => c) feed := by decide +kernel
  have hmember : (2 : Int) ∈ (run (fun _ => c) feed).1.roster.members.map Prod.fst := by
    decide +kernel
  rw [(delivery_exactly_once (fun _ => c) feed horder hok).1 2 hmember]
  decide +kernel

end EmbeddedCourse.QueueChat
