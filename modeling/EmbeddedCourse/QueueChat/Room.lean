import EmbeddedCourse.QueueChat.Client

/-! # The chat room

What the server is for: a room of members in the order in which they joined
and a history of lines, each with its sender. `Server.Holds` says that the
server's table and store are such a room; an iteration on a message that a
member may send then does to the room what the message asks for
(`Server.Holds.iteration`). The client's side is `applyNotice`: what one message
from the server does to the list of members a client knows of.
-/

namespace EmbeddedCourse.QueueChat

open CString Chat Mailbox

/-- The room: the members and the lines said so far with their senders. -/
structure Room where
  members : List Member
  history : List (Bytes × Int)

namespace Room

/-- The pids of the members. -/
def pids (R : Room) : List Int := R.members.map Prod.fst

/-- The name a member goes by. -/
def nameOf (R : Room) (pid : Int) : Bytes :=
  match R.members.find? fun m => m.1 = pid with
  | some m => m.2
  | none => []

def join (R : Room) (pid : Int) (name : Bytes) : Room :=
  { R with members := R.members ++ [(pid, name)] }

def say (R : Room) (pid : Int) (text : Bytes) : Room :=
  { R with history := R.history ++ [(chatLine (R.nameOf pid) text, pid)] }

def leave (R : Room) (pid : Int) : Room :=
  { R with members := R.members.eraseP fun m => m.1 = pid }

/-- A message that keeps to the rules of the room: a stranger joins while there
is room, a member speaks, a member leaves. -/
inductive Regular (R : Room) (msg : Message) : Prop where
  | join (kind : msg.mtype = Kind.newClient.code) (fresh : msg.fromMessage ∉ R.pids)
      (room : R.members.length < sizeClients)
  | chat (kind : msg.mtype = Kind.messageFromClient.code) (member : msg.fromMessage ∈ R.pids)
  | leave (kind : msg.mtype = Kind.clientLeave.code) (member : msg.fromMessage ∈ R.pids)

/-- What the message does to the room. -/
def next (R : Room) (msg : Message) : Room :=
  if msg.mtype = Kind.newClient.code then R.join msg.fromMessage ((cstr msg.mtext).take 19)
  else if msg.mtype = Kind.messageFromClient.code then R.say msg.fromMessage msg.mtext
  else if msg.mtype = Kind.clientLeave.code then R.leave msg.fromMessage
  else R

theorem next_join {R : Room} {msg : Message} (kind : msg.mtype = Kind.newClient.code) :
    R.next msg = R.join msg.fromMessage ((cstr msg.mtext).take 19) := by
  simp [Room.next, kind]

theorem next_chat {R : Room} {msg : Message} (kind : msg.mtype = Kind.messageFromClient.code) :
    R.next msg = R.say msg.fromMessage msg.mtext := by
  simp [Room.next, kind]

theorem next_leave {R : Room} {msg : Message} (kind : msg.mtype = Kind.clientLeave.code) :
    R.next msg = R.leave msg.fromMessage := by
  simp [Room.next, kind]

@[simp] theorem pids_join (R : Room) (pid : Int) (name : Bytes) :
    (R.join pid name).pids = R.pids ++ [pid] := by
  simp [Room.join, Room.pids]

@[simp] theorem pids_say (R : Room) (pid : Int) (text : Bytes) : (R.say pid text).pids = R.pids :=
  rfl

theorem nodup_pids_leave {R : Room} (h : R.pids.Nodup) (pid : Int) : (R.leave pid).pids.Nodup :=
  h.sublist (List.eraseP_sublist.map _)

/-- Distinct pids: a leave takes out exactly the member with that pid. -/
theorem mem_pids_leave {R : Room} (h : R.pids.Nodup) {pid q : Int} :
    q ∈ (R.leave pid).pids ↔ q ∈ R.pids ∧ q ≠ pid := by
  have herase : (R.leave pid).pids = R.pids.erase pid := by
    have hpred : (fun m : Member => decide (m.1 = pid)) = (fun x => pid == x) ∘ Prod.fst := by
      funext m
      simp [eq_comm, BEq.beq]
    rw [Room.pids, Room.pids, Room.leave, List.erase_eq_eraseP, List.eraseP_map, hpred]
  rw [herase, h.mem_erase_iff]
  exact and_comm

end Room

/-! ## The store as a history -/

/-- The store holds the history: its first `size` cells are the lines and the
senders, and the next index to be written lies below the capacity. -/
structure StoreMessage.Holds (st : StoreMessage) (hist : List (Bytes × Int)) : Prop where
  size : st.size = hist.length
  room : st.size < st.capacity
  message_length : st.message.length = st.capacity
  from_length : st.fromMessage.length = st.capacity
  message : st.message.take st.size = hist.map fun e => some e.1
  from_ : st.fromMessage.take st.size = hist.map fun e => some e.2

namespace StoreMessage

variable {st : StoreMessage} {hist : List (Bytes × Int)}

theorem holds_init : init.Holds [] where
  size := rfl
  room := by decide
  message_length := rfl
  from_length := rfl
  message := rfl
  from_ := rfl

/-- Growing keeps what is stored and leaves room for one more line. -/
theorem Holds.grow (h : st.Holds hist) :
    st.grow.Holds hist ∧ st.grow.size + 1 < st.grow.capacity := by
  have hroom := h.room
  have hml := h.message_length
  have hfl := h.from_length
  unfold StoreMessage.grow
  -- the arrays are doubled one cell before they are full
  split_ifs with hfull
  · have hwide : st.size ≤ st.capacity * 2 := by omega
    refine ⟨⟨h.size, ?_, ?_, ?_, ?_, ?_⟩, ?_⟩
    · show st.size < st.capacity * 2
      omega
    · exact List.takeD_length ..
    · exact List.takeD_length ..
    · exact (Cells.take_takeD _ none (hml ▸ hroom.le) hwide).trans h.message
    · exact (Cells.take_takeD _ none (hfl ▸ hroom.le) hwide).trans h.from_
    · show st.size + 1 < st.capacity * 2
      omega
  · exact ⟨h, by omega⟩

theorem Holds.push (h : st.Holds hist) (hroom : st.size + 1 < st.capacity) (line : Bytes)
    (from_ : Int) : (st.push line from_).Holds (hist ++ [(line, from_)]) where
  size := by simp [StoreMessage.push, h.size]
  room := hroom
  message_length := by simp [StoreMessage.push, h.message_length]
  from_length := by simp [StoreMessage.push, h.from_length]
  message := by
    have hlen := h.message_length
    simp only [StoreMessage.push]
    rw [Cells.take_set_succ (by omega), h.message, List.map_append]
    rfl
  from_ := by
    have hlen := h.from_length
    simp only [StoreMessage.push]
    rw [Cells.take_set_succ (by omega), h.from_, List.map_append]
    rfl

/-- The replay loop walks the history. -/
theorem Holds.entries (h : st.Holds hist) : st.entries = hist := by
  apply List.ext_getElem?
  intro i
  by_cases hi : i < hist.length
  · have hsize := h.size
    have hm : st.message[i]? = some (some hist[i].1) := by
      rw [← List.getElem?_take_of_lt (by omega : i < st.size), h.message]
      simp [hi]
    have hf : st.fromMessage[i]? = some (some hist[i].2) := by
      rw [← List.getElem?_take_of_lt (by omega : i < st.size), h.from_]
      simp [hi]
    simp [StoreMessage.entries, StoreMessage.entry, h.size, hi, hm, hf]
  · simp [StoreMessage.entries, h.size, hi]

end StoreMessage

/-! ## The server as a room -/

/-- The server's table and store are the room `R`; every registered name is
terminated within its first 20 bytes. -/
structure Server.Holds (s : Server) (R : Room) : Prop where
  roster : s.roster.Holds R.members
  store : s.storeMsg.Holds R.history
  nodup : R.pids.Nodup
  named : ∀ c ∈ s.roster.cells, cstr c.name = cstr (c.name.take 19)

namespace Server

variable {s : Server} {R : Room} {msg : Message}

theorem holds_init (junk : Fin sizeClients → InfoClients) : (Server.init junk).Holds ⟨[], []⟩ where
  roster := ⟨by simp [Server.init], rfl, by simp, by simp [Server.init, Roster.members, Roster.cells]⟩
  store := StoreMessage.holds_init
  nodup := List.nodup_nil
  named := by simp [Server.init, Roster.cells]

theorem Holds.pids_cells (h : s.Holds R) : s.roster.cells.map InfoClients.pid = R.pids :=
  h.roster.map_pid

theorem Holds.nodup_cells (h : s.Holds R) : (s.roster.cells.map InfoClients.pid).Nodup := by
  rw [h.pids_cells]
  exact h.nodup

/-- The cell found for a member carries the member's name. -/
theorem Holds.sender_name (h : s.Holds R) (past : InfoClients) {pid : Int} (hp : pid ∈ R.pids) :
    cstr (s.sender past pid).name = R.nameOf pid := by
  rw [← h.pids_cells] at hp
  cases hfind : s.roster.cells.find? fun c => c.pid = pid with
  | none =>
    rcases List.mem_map.mp hp with ⟨c, hc, hpid⟩
    exact absurd hpid (by simpa using List.find?_eq_none.mp hfind c hc)
  | some c =>
    have hmember : R.members.find? (fun m => m.1 = pid) = some c.member := by
      rw [← h.roster.members, Roster.members, List.find?_map]
      exact congrArg (Option.map InfoClients.member) hfind
    rw [Server.sender, Roster.cell_of_find hfind, Room.nameOf, hmember]
    exact h.named c (List.mem_of_find?_eq_some hfind)

theorem Holds.chatLine_eq (h : s.Holds R) (past : InfoClients) {pid : Int} (hp : pid ∈ R.pids)
    (text : Bytes) : chatLine (s.sender past pid).name text = chatLine (R.nameOf pid) text := by
  have hname := h.sender_name past hp
  rw [chatLine, chatLine, hname, ← hname, cstr_cstr]

theorem Holds.join (h : s.Holds R) {pid : Int} (fresh : pid ∉ R.pids)
    (room : R.members.length < sizeClients) (text : Bytes) :
    Server.Holds { s with roster := s.roster.append ⟨strncpy (List.replicate 20 0) text 19, pid⟩ }
      (R.join pid ((cstr text).take 19)) where
  roster := by
    have happ := h.roster.append room ⟨strncpy (List.replicate 20 0) text 19, pid⟩
    rwa [InfoClients.member, cstr_take_strncpy] at happ
  store := h.store
  nodup := by
    rw [Room.pids_join]
    exact h.nodup.append (List.nodup_singleton pid) (by simpa using fresh)
  named := by
    intro c hc
    rw [h.roster.cells_append room] at hc
    rcases List.mem_append.mp hc with hold | hnew
    · exact h.named c hold
    · -- the new cell was cleared before 19 bytes were copied into it
      obtain rfl := List.mem_singleton.mp hnew
      rw [cstr_take_strncpy]
      exact cstr_strncpy_terminated text (t := []) rfl

theorem Holds.say (h : s.Holds R) (past : InfoClients) {pid : Int} (member : pid ∈ R.pids)
    (text : Bytes) :
    Server.Holds
      { s with storeMsg := s.storeMsg.grow.push (chatLine (s.sender past pid).name text) pid }
      (R.say pid text) where
  roster := h.roster
  store := by
    rw [h.chatLine_eq past member]
    exact h.store.grow.1.push h.store.grow.2 _ pid
  nodup := h.nodup
  named := h.named

theorem Holds.leave (h : s.Holds R) (past : InfoClients) {pid : Int} (member : pid ∈ R.pids) :
    Server.Holds
      { s with
        roster := s.roster.removeAt past
          (findNameClient s.roster.infCl pid s.roster.sizeInfcl) }
      (R.leave pid) where
  roster := h.roster.leave past member
  store := h.store
  nodup := Room.nodup_pids_leave h.nodup pid
  named := by
    intro c hc
    apply h.named c
    refine (Roster.cells_removeAt_sublist past (neg_one_le_findNameClient ..) ?_).subset hc
    rw [h.roster.size, h.roster.length]
    exact_mod_cast h.roster.fits

/-- An iteration on a regular message does to the room what the message asks. -/
theorem Holds.iteration (h : s.Holds R) (hm : R.Regular msg) (past : InfoClients) :
    (iteration past msg s).1.Holds (R.next msg) := by
  cases hm with
  | join kind fresh room =>
    rw [QueueChat.iteration, readQueue_join past kind (h.roster.size_lt.mpr room), Room.next_join kind]
    exact h.join fresh room msg.mtext
  | chat kind member =>
    rw [QueueChat.iteration, readQueue_chat past kind, Room.next_chat kind]
    exact h.say past member msg.mtext
  | leave kind member =>
    rw [QueueChat.iteration, readQueue_leave past kind, Room.next_leave kind]
    exact h.leave past member

end Server

end EmbeddedCourse.QueueChat
