import EmbeddedCourse.QueueChat.Server
import EmbeddedCourse.SharedChat.Server

/-! # A chat line in its field

Both servers print a line of up to 276 bytes and copy it back into `mtext[256]`
with its own length as the bound. Behind the field stand the fields that say who
has sent the message and of which kind it is.
-/

namespace EmbeddedCourse.Chat

open CString

/-- The offsets in a message that `strncpy(mtext, line, strlen(line))` writes. -/
def copied (line : Bytes) : List ℕ := List.range line.length

/-- The line stands in `mtext` with a terminator, and nothing was written behind it. -/
structure Formatted (mtext line : Bytes) : Prop where
  terminated : 0 ∈ mtext.take 256
  text : cstr mtext = line
  inside : ∀ k ∈ copied line, k < 256

/-- What a client sends: a text, and zeros up to the end of the field. -/
structure Sent (mtext text : Bytes) : Prop where
  noNul : NoNul text
  pos : 1 ≤ text.length
  le : text.length ≤ 255
  field : mtext = text.takeD 256 0

/-- A registered sender and its name. -/
structure Speaker (r : Roster) (pid : Int) (name : Bytes) : Prop where
  found : (r.cells.find? fun c => c.pid = pid).map (fun c => cstr c.name) = some name
  le : name.length ≤ 19

variable {mtext text name : Bytes}

theorem Sent.cstr_eq (h : Sent mtext text) : cstr mtext = text := by
  have hle := h.le
  rw [h.field, cstr_takeD h.noNul, List.take_of_length_le (by omega)]

/-- The line that is stored for a registered sender. -/
theorem Speaker.chatLine_eq {r : Roster} {pid : Int} (h : Speaker r pid name) (hsent : Sent mtext text)
    (past : InfoClients) :
    chatLine (cell past r.infCl (findNameClient r.infCl pid r.sizeInfcl)).name mtext =
      name ++ ascii [':', ' '] ++ text := by
  rcases Option.map_eq_some_iff.mp h.found with ⟨c, hc, hname⟩
  rw [chatLine, Roster.cell_of_find hc, hname, hsent.cstr_eq]

theorem Speaker.noNul {r : Roster} {pid : Int} (h : Speaker r pid name) : NoNul name := by
  rcases Option.map_eq_some_iff.mp h.found with ⟨c, -, rfl⟩
  exact noNul_cstr c.name

/-- A line that is longer than the text it was made of: the old zeros behind it end
it, if there are any left. -/
theorem formatted_strncpy_iff (hsent : Sent mtext text) {line : Bytes} (hline : NoNul line)
    (hlong : text.length ≤ line.length) (hle : line.length ≤ 256) :
    Formatted (strncpy mtext line line.length) line ↔ line.length ≤ 255 := by
  have htext := hsent.le
  -- behind the line stand the zeros that it has not covered
  have hrow : strncpy mtext line line.length = line ++ List.replicate (256 - line.length) 0 := by
    rw [strncpy_strlen hline, hsent.field, Cells.takeD_eq_append, List.take_of_length_le (by omega),
      List.drop_append, List.drop_eq_nil_of_le hlong, List.nil_append, List.drop_replicate]
    congr 2
    omega
  rw [hrow]
  constructor
  · intro h
    by_contra hfull
    -- none is left in a full field
    have hnone : 256 - line.length = 0 := by omega
    have hzero := h.terminated
    rw [hnone, List.replicate_zero, List.append_nil] at hzero
    exact hline (List.mem_of_mem_take hzero)
  · intro hshort
    constructor
    · rw [List.take_of_length_le (by rw [List.length_append, List.length_replicate]; omega)]
      apply List.mem_append_right
      exact List.mem_replicate.mpr ⟨by omega, rfl⟩
    · rw [cstr_append hline, cstr_replicate_zero, List.append_nil]
    · intro k hk
      have hlt := List.mem_range.mp hk
      omega

/-- A line that does not fit the field is not terminated in it. -/
theorem not_formatted_of_long {line mtext' : Bytes} (hlong : 256 < line.length) :
    ¬ Formatted mtext' line := by
  intro h
  have hin := h.inside 256 (List.mem_range.mpr hlong)
  omega

end EmbeddedCourse.Chat

/-! ## The chat over message queues -/

namespace EmbeddedCourse.QueueChat

open CString Chat

/-- A message with a text from a registered sender, and room in the store. -/
structure Says (s : Server) (msg : Message) (name text : Bytes) : Prop where
  kind : msg.mtype = Kind.messageFromClient.code
  sent : Sent msg.mtext text
  speaker : Speaker s.roster msg.fromMessage name
  store : s.storeMsg.size < s.storeMsg.message.length ∧ s.storeMsg.message.length = s.storeMsg.capacity

/-- `read_queue` has stored the line and put it into `mtext`, and nothing else is written. -/
structure OnlyText (past : InfoClients) (msg : Message) (s : Server) (line : Bytes) : Prop where
  stored : (readQueue past msg s).2.storeMsg.message[s.storeMsg.size]? = some (some line)
  formatted : Formatted (readQueue past msg s).1.mtext line
  fromMessage : (readQueue past msg s).1.fromMessage = msg.fromMessage
  categoriyMessage : (readQueue past msg s).1.categoriyMessage = msg.categoriyMessage

theorem StoreMessage.stored_push {st : StoreMessage} (h : st.size < st.message.length)
    (hcap : st.message.length = st.capacity) (line : Bytes) (from_ : Int) :
    (st.grow.push line from_).message[st.size]? = some (some line) := by
  unfold StoreMessage.grow
  split_ifs
  · have hroom : st.size < st.capacity * 2 := by omega
    exact Cells.getElem?_set_takeD hroom none _
  · exact List.getElem?_set_self h

theorem Message.copyText_iff {msg : Message} {text line : Bytes} (hsent : Sent msg.mtext text)
    (hline : NoNul line) (hlong : text.length ≤ line.length) :
    (Formatted (msg.copyText line).mtext line ∧ (msg.copyText line).fromMessage = msg.fromMessage ∧
      (msg.copyText line).categoriyMessage = msg.categoriyMessage) ↔ line.length ≤ 255 := by
  by_cases hle : line.length ≤ 256
  · have hcopy : msg.copyText line = { msg with mtext := strncpy msg.mtext line line.length } := by
      rw [Message.copyText, if_pos hle]
    rw [hcopy, ← formatted_strncpy_iff hsent hline hlong hle]
    constructor
    · exact fun h => h.1
    · exact fun h => ⟨h, rfl, rfl⟩
  · constructor
    · exact fun h => absurd h.1 (not_formatted_of_long (by omega))
    · exact fun h => absurd h (by omega)

theorem onlyText_iff {s : Server} {msg : Message} {name text : Bytes} (h : Says s msg name text)
    (past : InfoClients) :
    OnlyText past msg s (name ++ ascii [':', ' '] ++ text) ↔ name.length + 2 + text.length ≤ 255 := by
  have hline := h.speaker.chatLine_eq h.sent past
  have hnoNul : NoNul (name ++ ascii [':', ' '] ++ text) :=
    (h.speaker.noNul.append (by decide)).append h.sent.noNul
  have hlength : (name ++ ascii [':', ' '] ++ text).length = name.length + 2 + text.length := by
    rw [List.length_append, List.length_append]
    rfl
  have hread := readQueue_chat past h.kind (s := s)
  rw [Server.sender, hline] at hread
  -- all depends on what the copy of the line writes
  have hiff := Message.copyText_iff h.sent hnoNul (by rw [hlength]; omega)
  rw [← hlength, ← hiff]
  constructor
  · intro honly
    have hformatted := honly.formatted
    have hfrom := honly.fromMessage
    have hkind := honly.categoriyMessage
    rw [hread] at hformatted hfrom hkind
    exact ⟨hformatted, hfrom, hkind⟩
  · rintro ⟨hformatted, hfrom, hkind⟩
    constructor
    · rw [hread]
      exact StoreMessage.stored_push h.store.1 h.store.2 _ _
    · rw [hread]
      exact hformatted
    · rw [hread]
      exact hfrom
    · rw [hread]
      exact hkind

end EmbeddedCourse.QueueChat

/-! ## The chat over shared memory -/

namespace EmbeddedCourse.SharedChat

open CString Chat

/-- A message with a text from a registered sender, and room in the store. -/
structure Says (s : Server) (msg : Message) (name text : Bytes) : Prop where
  kind : msg.categoriyMessage = Kind.messageFromClient.code
  sent : Sent msg.mtext text
  speaker : Speaker s.roster msg.fromMessage name
  store : s.storeMsg.size < s.storeMsg.message.length ∧ s.storeMsg.message.length = s.storeMsg.capacity

/-- `read_queue` has stored the line and put it into `mtext`, and nothing else is written. -/
structure OnlyText (past : InfoClients) (msg : Message) (s : Server) (line : Bytes) : Prop where
  stored : (readQueue past msg s).2.2.storeMsg.message[s.storeMsg.size]? = some (some line)
  formatted : Formatted (readQueue past msg s).2.1.mtext line
  fromMessage : (readQueue past msg s).2.1.fromMessage = msg.fromMessage
  categoriyMessage : (readQueue past msg s).2.1.categoriyMessage = msg.categoriyMessage
  toClient : (readQueue past msg s).2.1.toClient = msg.toClient

theorem StoreMessage.stored_push {st : StoreMessage} (h : st.size < st.message.length)
    (hcap : st.message.length = st.capacity) (line : Bytes) :
    (st.grow.push line).message[st.size]? = some (some line) := by
  unfold StoreMessage.grow
  split_ifs
  · have hroom : st.size < st.capacity * 2 := by omega
    exact Cells.getElem?_set_takeD hroom none _
  · exact List.getElem?_set_self h

theorem Message.copyText_iff {msg : Message} {text line : Bytes} (hsent : Sent msg.mtext text)
    (hline : NoNul line) (hlong : text.length ≤ line.length) :
    (Formatted (msg.copyText line line.length).mtext line ∧
      (msg.copyText line line.length).fromMessage = msg.fromMessage ∧
      (msg.copyText line line.length).categoriyMessage = msg.categoriyMessage ∧
      (msg.copyText line line.length).toClient = msg.toClient) ↔ line.length ≤ 255 := by
  by_cases hle : line.length ≤ 256
  · have hcopy : msg.copyText line line.length =
        { msg with mtext := strncpy msg.mtext line line.length } := by
      rw [Message.copyText, if_pos hle]
    rw [hcopy, ← formatted_strncpy_iff hsent hline hlong hle]
    constructor
    · exact fun h => h.1
    · exact fun h => ⟨h, rfl, rfl, rfl⟩
  · constructor
    · exact fun h => absurd h.1 (not_formatted_of_long (by omega))
    · exact fun h => absurd h (by omega)

theorem onlyText_iff {s : Server} {msg : Message} {name text : Bytes} (h : Says s msg name text)
    (past : InfoClients) :
    OnlyText past msg s (name ++ ascii [':', ' '] ++ text) ↔ name.length + 2 + text.length ≤ 255 := by
  have hline := h.speaker.chatLine_eq h.sent past
  have hnoNul : NoNul (name ++ ascii [':', ' '] ++ text) :=
    (h.speaker.noNul.append (by decide)).append h.sent.noNul
  have hlength : (name ++ ascii [':', ' '] ++ text).length = name.length + 2 + text.length := by
    rw [List.length_append, List.length_append]
    rfl
  have hread : (readQueue past msg s).2 =
      (msg.copyText (name ++ ascii [':', ' '] ++ text) (name ++ ascii [':', ' '] ++ text).length,
        { s with storeMsg := s.storeMsg.grow.push (name ++ ascii [':', ' '] ++ text) }) := by
    rw [readQueue, if_neg (by rw [h.kind]; decide), if_pos h.kind]
    dsimp only
    rw [Server.sender, hline]
  -- all depends on what the copy of the line writes
  have hiff := Message.copyText_iff h.sent hnoNul (by rw [hlength]; omega)
  rw [← hlength, ← hiff]
  constructor
  · intro honly
    have hformatted := honly.formatted
    have hfrom := honly.fromMessage
    have hkind := honly.categoriyMessage
    have hto := honly.toClient
    rw [hread] at hformatted hfrom hkind hto
    exact ⟨hformatted, hfrom, hkind, hto⟩
  · rintro ⟨hformatted, hfrom, hkind, hto⟩
    constructor
    · rw [hread]
      exact StoreMessage.stored_push h.store.1 h.store.2 _
    · rw [hread]
      exact hformatted
    · rw [hread]
      exact hfrom
    · rw [hread]
      exact hkind
    · rw [hread]
      exact hto

end EmbeddedCourse.SharedChat

/-! ## Both chats -/

namespace EmbeddedCourse.Chat

open CString

/-- For every registered name, every text that a client can send, and every roster
and history: in both chats the line is in `mtext` with a terminator, and nothing
behind the field is written or changed, if and only if the line has at most 255 bytes. -/
theorem chat_line_only_text_iff {name text : Bytes} (past : InfoClients)
    {s : QueueChat.Server} {msg : QueueChat.Message} (h : QueueChat.Says s msg name text)
    {s' : SharedChat.Server} {msg' : SharedChat.Message} (h' : SharedChat.Says s' msg' name text) :
    (QueueChat.OnlyText past msg s (name ++ ascii [':', ' '] ++ text) ↔
      name.length + 2 + text.length ≤ 255) ∧
    (SharedChat.OnlyText past msg' s' (name ++ ascii [':', ' '] ++ text) ↔
      name.length + 2 + text.length ≤ 255) :=
  ⟨QueueChat.onlyText_iff h past, SharedChat.onlyText_iff h' past⟩

/-- One client with the name `name` in a table. -/
def alone (name : Bytes) : Roster :=
  { infCl := ⟨name.takeD 20 0, 1⟩ :: List.replicate 9 ⟨List.replicate 20 0, 0⟩, sizeInfcl := 1 }

/-- What the client sends, with the empty store. -/
def queued (text : Bytes) : QueueChat.Message := ⟨2, text.takeD 256 0, 1, 2⟩

def shared (text : Bytes) : SharedChat.Message := ⟨text.takeD 256 0, 1, 2, 0⟩

theorem queued_says (name text : Bytes) (hname : (alone name).cells.map (fun c => cstr c.name) = [name])
    (hle : name.length ≤ 19) (hsent : Sent (text.takeD 256 0) text) :
    QueueChat.Says ⟨alone name, QueueChat.StoreMessage.init⟩ (queued text) name text ∧
      SharedChat.Says ⟨alone name, SharedChat.StoreMessage.init⟩ (shared text) name text := by
  have hspeaker : Speaker (alone name) 1 name := by
    constructor
    · exact congrArg List.head? hname
    · exact hle
  constructor
  · exact ⟨rfl, hsent, hspeaker, Nat.zero_lt_succ 9, rfl⟩
  · exact ⟨rfl, hsent, hspeaker, Nat.zero_lt_succ 9, rfl⟩

theorem chat_line_only_text_iff_hi :
    QueueChat.OnlyText ⟨[], 0⟩ (queued (ascii ['h', 'i']))
        ⟨alone (ascii ['a', 'n', 'n']), QueueChat.StoreMessage.init⟩
        (ascii ['a', 'n', 'n'] ++ ascii [':', ' '] ++ ascii ['h', 'i']) ∧
    SharedChat.OnlyText ⟨[], 0⟩ (shared (ascii ['h', 'i']))
        ⟨alone (ascii ['a', 'n', 'n']), SharedChat.StoreMessage.init⟩
        (ascii ['a', 'n', 'n'] ++ ascii [':', ' '] ++ ascii ['h', 'i']) := by
  have hsent : Sent ((ascii ['h', 'i']).takeD 256 0) (ascii ['h', 'i']) :=
    ⟨by decide, by decide, by decide, rfl⟩
  rcases queued_says (ascii ['a', 'n', 'n']) _ (by decide +kernel) (by decide) hsent with ⟨h, h'⟩
  rcases chat_line_only_text_iff ⟨[], 0⟩ h h' with ⟨hqueue, hshared⟩
  exact ⟨hqueue.mpr (by decide), hshared.mpr (by decide)⟩

/-- The longest name and the longest text. -/
def longName : Bytes := List.replicate 19 97

def longText : Bytes := List.replicate 255 98

/-- The line runs over the kind of the message, which was `MESSAGE_FROM_CLIENT`. -/
theorem long_line_overruns :
    (QueueChat.Says ⟨alone longName, QueueChat.StoreMessage.init⟩ (queued longText) longName longText ∧
      ¬ QueueChat.OnlyText ⟨[], 0⟩ (queued longText) ⟨alone longName, QueueChat.StoreMessage.init⟩
        (longName ++ ascii [':', ' '] ++ longText)) ∧
    (SharedChat.Says ⟨alone longName, SharedChat.StoreMessage.init⟩ (shared longText) longName longText ∧
      ¬ SharedChat.OnlyText ⟨[], 0⟩ (shared longText) ⟨alone longName, SharedChat.StoreMessage.init⟩
        (longName ++ ascii [':', ' '] ++ longText)) := by
  have hsent : Sent (longText.takeD 256 0) longText :=
    ⟨by decide +kernel, by decide +kernel, by decide +kernel, rfl⟩
  rcases queued_says longName longText (by decide +kernel) (by decide) hsent with ⟨h, h'⟩
  have hqueue : (QueueChat.readQueue ⟨[], 0⟩ (queued longText)
      ⟨alone longName, QueueChat.StoreMessage.init⟩).1.categoriyMessage = 1650614882 := by
    decide +kernel
  have hshared : (SharedChat.readQueue ⟨[], 0⟩ (shared longText)
      ⟨alone longName, SharedChat.StoreMessage.init⟩).2.1.categoriyMessage = 1650614882 := by
    decide +kernel
  constructor
  · exact ⟨h, fun honly => absurd (hqueue.symm.trans honly.categoriyMessage) (by decide)⟩
  · exact ⟨h', fun honly => absurd (hshared.symm.trans honly.categoriyMessage) (by decide)⟩

end EmbeddedCourse.Chat
