import EmbeddedCourse.QueueChat.Room

/-! # What an iteration sends to whom

The server's answers on queue 1, receiver by receiver. A member gets one notice
of a join, one copy of a line, and two notices of a leave; a newcomer gets the
roster (or, alone, the notice of its own join) and then the history. The lemmas
give the mail of a pid (`mail Message.mtype`) in each of the three branches of
`write_queue`.
-/

namespace EmbeddedCourse.QueueChat

open CString Chat Mailbox

/-- The same message for another receiver. -/
def Message.readdress (msg : Message) (pid : Int) : Message := { msg with mtype := pid }

def Message.withCategory (msg : Message) (k : Kind) : Message :=
  { msg with categoriyMessage := k.code }

/-! ## The sending loops -/

theorem mail_sendEach (msg : Message) {cs : List InfoClients}
    (hnd : (cs.map InfoClients.pid).Nodup) (p : Int) :
    mail Message.mtype p (sendEach msg cs) =
      if p ∈ cs.map InfoClients.pid then [msg.readdress p] else [] := by
  have hmap : sendEach msg cs = (cs.map InfoClients.pid).map msg.readdress := by
    rw [List.map_map]
    rfl
  rw [hmap]
  exact mail_fanout Message.mtype (fun _ _ => rfl) msg p hnd

section

variable {α : Type} {f : Message → α → Message}

/-- What every round keeps holds of all messages sent and of `local_msg` after the loop. -/
theorem sendLoop_keeps {P : Message → Prop} (msg : Message) (as : List α)
    (hf : ∀ m, ∀ a ∈ as, P m → P (f m a)) (hmsg : P msg) :
    P (sendLoop f msg as).1 ∧ ∀ m ∈ (sendLoop f msg as).2, P m := by
  induction as generalizing msg with
  | nil => exact ⟨hmsg, by simp [sendLoop]⟩
  | cons a as ih =>
    have hhead : P (f msg a) := hf msg a (by simp) hmsg
    have htail := ih (f msg a) (fun m b hb => hf m b (List.mem_cons_of_mem a hb)) hhead
    refine ⟨htail.1, ?_⟩
    intro m hm
    rcases List.mem_cons.mp hm with rfl | hm
    · exact hhead
    · exact htail.2 m hm

/-- A projection that each round takes from its item is sent in item order. -/
theorem map_sendLoop {β : Type} (g : Message → β) (h : α → β) (hf : ∀ m a, g (f m a) = h a)
    (msg : Message) (as : List α) : (sendLoop f msg as).2.map g = as.map h := by
  induction as generalizing msg with
  | nil => rfl
  | cons a as ih => simp [sendLoop, hf, ih]

end

@[simp] theorem copyText_mtype (msg : Message) (line : Bytes) :
    (msg.copyText line).mtype = msg.mtype := by
  unfold Message.copyText
  split_ifs <;> rfl

theorem copyText_of_le {line : Bytes} (h : line.length ≤ 256) (msg : Message) :
    msg.copyText line = { msg with mtext := strncpy msg.mtext line line.length } := by
  rw [Message.copyText, if_pos h]

@[simp] theorem putLine_mtype (msg : Message) (e : Bytes × Int) :
    (putLine msg e).mtype = msg.mtype := by
  simp [putLine]

theorem putLine_category {e : Bytes × Int} (h : e.1.length ≤ 256) (msg : Message) :
    (putLine msg e).categoriyMessage = msg.categoriyMessage := by
  rw [putLine, copyText_of_le h]

/-! ## The client's side -/

/-- What one message of queue 1 does to the members a client knows of; `none`
where the client would count past its table or take out nobody. -/
def applyNotice (L : List Member) (msg : Message) : Option (List Member) :=
  if msg.categoriyMessage = Kind.newClient.code then
    if L.length < sizeClients then some (L ++ [(msg.fromMessage, (cstr msg.mtext).take 19)])
    else none
  else if msg.categoriyMessage = Kind.clientLeave.code then
    if msg.fromMessage ∈ L.map Prod.fst then some (L.eraseP fun m => m.1 = msg.fromMessage)
    else none
  else some L

/-- A client's `read_queue` follows `applyNotice` on its local table. -/
theorem Client.readQueue_holds {r : Roster} {L L' : List Member} {msg : Message} (h : r.Holds L)
    (hL : applyNotice L msg = some L') (past : InfoClients) :
    (Client.readQueue past msg r).Holds L' := by
  unfold applyNotice at hL
  unfold Client.readQueue
  split_ifs at hL with hnew hroom hleave hmem
  · obtain rfl := Option.some.inj hL
    rw [if_pos hnew]
    have happ := h.append hroom
      ⟨strncpy (cell past r.infCl r.sizeInfcl).name msg.mtext 19, msg.fromMessage⟩
    rwa [InfoClients.member, cstr_take_strncpy] at happ
  · obtain rfl := Option.some.inj hL
    rw [if_neg hnew, if_neg (by simp [hleave]), if_pos hleave]
    exact h.leave past hmem
  · obtain rfl := Option.some.inj hL
    rw [if_neg hnew, if_neg hleave]
    simpa using h

/-- Processing a feed in order follows `applyNotice`, whatever reads outside
the local table yield. -/
theorem Client.readAll_holds {r : Roster} {L L' : List Member} (h : r.Holds L)
    (feed : List (Message × InfoClients))
    (hL : (feed.map Prod.fst).foldlM applyNotice L = some L') : (Client.readAll r feed).Holds L' := by
  induction feed generalizing r L with
  | nil =>
    obtain rfl : L = L' := by simpa using hL
    exact h
  | cons e feed ih =>
    rw [List.map_cons, List.foldlM_cons] at hL
    cases hstep : applyNotice L e.1 with
    | none => simp [hstep] at hL
    | some L₁ =>
      rw [hstep] at hL
      exact ih (Client.readQueue_holds h hstep e.2) hL

/-- The roster loop tells a client about every member it goes through. -/
theorem applyNotice_roster {msg : Message} (hmsg : msg.categoriyMessage = Kind.newClient.code)
    (L : List Member) (cs : List InfoClients) (hroom : L.length + cs.length ≤ sizeClients) :
    (sendLoop putMember msg cs).2.foldlM applyNotice L = some (L ++ cs.map InfoClients.member) := by
  induction cs generalizing msg L with
  | nil => simp [sendLoop]
  | cons c cs ih =>
    rw [List.length_cons] at hroom
    have hcat : (putMember msg c).categoriyMessage = Kind.newClient.code := hmsg
    -- what is left of a longer name behind byte 19 is cut by the reader
    have hname : (cstr (putMember msg c).mtext).take 19 = cstr (c.name.take 19) := by
      have hfield := cstr_take_strncpy msg.mtext c.name 19
      rw [cstr_take] at hfield
      rw [cstr_take]
      exact hfield
    have hfirst : applyNotice L (putMember msg c) = some (L ++ [c.member]) := by
      rw [applyNotice, if_pos hcat, if_pos (by omega), hname]
      rfl
    rw [sendLoop, List.foldlM_cons, hfirst]
    show (sendLoop putMember (putMember msg c) cs).2.foldlM applyNotice (L ++ [c.member]) = _
    rw [ih hcat _ (by simp; omega), List.append_assoc]
    rfl

/-- A message that a client takes for news of the members. -/
def Message.IsNotice (m : Message) : Prop :=
  m.categoriyMessage = Kind.newClient.code ∨ m.categoriyMessage = Kind.clientLeave.code

theorem not_notice_of_line {m : Message} (h : m.categoriyMessage = Kind.messageFromClient.code) :
    ¬ m.IsNotice := by
  unfold Message.IsNotice
  rw [h]
  decide

theorem applyNotice_other {m : Message} (h : ¬ m.IsNotice) (L : List Member) : applyNotice L m = some L := by
  rw [applyNotice, if_neg (fun hnew => h (Or.inl hnew)), if_neg (fun hleave => h (Or.inr hleave))]

/-- Other messages do not change what a client knows of the members. -/
theorem foldlM_applyNotice_other (L : List Member) {ms : List Message} (h : ∀ m ∈ ms, ¬ m.IsNotice) :
    ms.foldlM applyNotice L = some L := by
  induction ms with
  | nil => rfl
  | cons m ms ih =>
    rw [List.foldlM_cons, applyNotice_other (h m (by simp))]
    exact ih fun m' hm' => h m' (List.mem_cons_of_mem m hm')

/-! ## The three branches -/

/-- What a newcomer gets: the roster, or alone the notice of its own join. -/
def greeting (msg : Message) (s : Server) : List Message :=
  let toNew := (msg.withCategory .newClient).readdress msg.fromMessage
  if 1 < s.roster.sizeInfcl then (sendLoop putMember toNew s.roster.cells).2 else [toNew]

/-- `local_msg` when the history loop starts. -/
def beforeHistory (msg : Message) (s : Server) : Message :=
  let toNew := (msg.withCategory .newClient).readdress msg.fromMessage
  (sendLoop putMember toNew
    (if 1 < s.roster.sizeInfcl then s.roster.cells else [])).1.withCategory .messageFromClient

/-- The history replayed to a newcomer. -/
def replay (msg : Message) (s : Server) : List Message :=
  (sendLoop putLine (beforeHistory msg s) s.storeMsg.entries).2

theorem replay_mtype (msg : Message) (s : Server) :
    ∀ m ∈ replay msg s, m.mtype = msg.fromMessage := by
  have hstart : (beforeHistory msg s).mtype = msg.fromMessage :=
    (sendLoop_keeps (f := putMember) (P := fun m => m.mtype = msg.fromMessage) _ _
      (fun _ _ _ hm => hm) rfl).1
  exact (sendLoop_keeps (f := putLine) (P := fun m => m.mtype = msg.fromMessage) _ _
    (fun m e _ hm => (putLine_mtype m e).trans hm) hstart).2

theorem greeting_mtype (msg : Message) (s : Server) :
    ∀ m ∈ greeting msg s, m.mtype = msg.fromMessage := by
  unfold greeting
  split_ifs
  · exact (sendLoop_keeps (f := putMember) (P := fun m => m.mtype = msg.fromMessage) _ _
      (fun _ _ _ hm => hm) rfl).2
  · intro m hm
    obtain rfl := List.mem_singleton.mp hm
    rfl

theorem greeting_category (msg : Message) (s : Server) :
    ∀ m ∈ greeting msg s, m.categoriyMessage = Kind.newClient.code := by
  unfold greeting
  split_ifs
  · exact (sendLoop_keeps (f := putMember) (P := fun m => m.categoriyMessage = Kind.newClient.code) _ _
      (fun _ _ _ hm => hm) rfl).2
  · intro m hm
    obtain rfl := List.mem_singleton.mp hm
    rfl

/-- With short lines in the store, everything replayed is a line. -/
theorem replay_category (msg : Message) {s : Server}
    (hlines : ∀ e ∈ s.storeMsg.entries, e.1.length ≤ 256) :
    ∀ m ∈ replay msg s, m.categoriyMessage = Kind.messageFromClient.code :=
  (sendLoop_keeps (f := putLine) (P := fun m => m.categoriyMessage = Kind.messageFromClient.code) _ _
    (fun m e he hm => (putLine_category (hlines e he) m).trans hm) rfl).2

/-- The history is replayed in store order with the stored senders. -/
theorem replay_from (msg : Message) (s : Server) :
    (replay msg s).map Message.fromMessage = s.storeMsg.entries.map Prod.snd :=
  map_sendLoop Message.fromMessage Prod.snd (fun _ _ => rfl) _ _

namespace Server

variable {s : Server} {R : Room} {msg : Message}

/-- The join branch: notices, roster loop, history. -/
theorem writeQueue_newClient (kind : msg.mtype = Kind.newClient.code) :
    writeQueue msg s =
      sendEach (msg.withCategory .newClient)
          (s.roster.cells.filter fun c => ¬ (msg.fromMessage = c.pid ∧ 1 < s.roster.sizeInfcl)) ++
        (sendLoop putMember ((msg.withCategory .newClient).readdress msg.fromMessage)
          (if 1 < s.roster.sizeInfcl then s.roster.cells else [])).2 ++
        replay msg s := by
  rw [writeQueue, if_pos kind]
  rfl

/-- The join branch on a table whose last cell is the newcomer. -/
theorem writeQueue_joined {cs : List InfoClients} {c : InfoClients}
    (kind : msg.mtype = Kind.newClient.code) (hcells : s.roster.cells = cs ++ [c])
    (hsize : s.roster.sizeInfcl = cs.length + 1) (hpid : c.pid = msg.fromMessage)
    (hfresh : msg.fromMessage ∉ cs.map InfoClients.pid) :
    writeQueue msg s =
      sendEach (msg.withCategory .newClient) cs ++ greeting msg s ++ replay msg s := by
  have hfilter : cs.filter (fun d => ¬ (msg.fromMessage = d.pid ∧ 1 < s.roster.sizeInfcl)) = cs := by
    rw [List.filter_eq_self]
    intro d hd
    have hne : msg.fromMessage ≠ d.pid := fun he => hfresh (he ▸ List.mem_map_of_mem hd)
    simp [hne]
  rw [writeQueue_newClient kind, hcells, List.filter_append, hfilter]
  congr 1
  cases cs with
  | nil =>
    -- alone: the only notice goes to the newcomer itself
    have halone : ¬ 1 < s.roster.sizeInfcl := by simp [hsize]
    simp [halone, greeting, sendEach, sendLoop, Message.readdress, hpid]
  | cons d cs =>
    have hothers : 1 < s.roster.sizeInfcl := by
      rw [hsize, List.length_cons]
      omega
    simp [hothers, greeting, hcells, hpid]

/-- The mail of a join on a table whose last cell is the newcomer. -/
theorem mail_joined {cs : List InfoClients} {c : InfoClients}
    (kind : msg.mtype = Kind.newClient.code) (hcells : s.roster.cells = cs ++ [c])
    (hsize : s.roster.sizeInfcl = cs.length + 1) (hpid : c.pid = msg.fromMessage)
    (hnd : (cs.map InfoClients.pid).Nodup) (hfresh : msg.fromMessage ∉ cs.map InfoClients.pid)
    (p : Int) :
    mail Message.mtype p (writeQueue msg s) =
      if p = msg.fromMessage then greeting msg s ++ replay msg s
      else if p ∈ cs.map InfoClients.pid then [(msg.withCategory .newClient).readdress p]
      else [] := by
  rw [writeQueue_joined kind hcells hsize hpid hfresh, mail_append, mail_append,
    mail_sendEach _ hnd]
  -- greeting and replay are for the newcomer only, the notices for all others
  by_cases hp : p = msg.fromMessage
  · subst hp
    rw [if_neg hfresh, if_pos rfl, mail_eq_self _ (greeting_mtype msg s),
      mail_eq_self _ (replay_mtype msg s), List.nil_append]
  · have hne : msg.fromMessage ≠ p := Ne.symm hp
    rw [if_neg hp, (mail_eq_nil_iff _).mpr fun m hm => greeting_mtype msg s m hm ▸ hne,
      (mail_eq_nil_iff _).mpr fun m hm => replay_mtype msg s m hm ▸ hne, List.append_nil,
      List.append_nil]

/-- The mail of a line on a table of distinct pids. -/
theorem mail_said (kind : msg.mtype = Kind.messageFromClient.code)
    (hnd : (s.roster.cells.map InfoClients.pid).Nodup) (p : Int) :
    mail Message.mtype p (writeQueue msg s) =
      if p ∈ s.roster.cells.map InfoClients.pid then
        [(msg.withCategory .messageFromClient).readdress p]
      else [] := by
  simp only [writeQueue, kind]
  simp only [Kind.code_inj, reduceCtorEq, if_false, if_true]
  rw [mail_sendEach _ hnd]
  split_ifs <;> rfl

/-- The mail of a leave on a table of distinct pids. -/
theorem mail_left (kind : msg.mtype = Kind.clientLeave.code)
    (hnd : (s.roster.cells.map InfoClients.pid).Nodup) (p : Int) :
    mail Message.mtype p (writeQueue msg s) =
      if p ∈ s.roster.cells.map InfoClients.pid then
        [(msg.withCategory .messageFromServer).readdress p,
          (msg.withCategory .clientLeave).readdress p]
      else [] := by
  simp only [writeQueue, kind]
  simp only [Kind.code_inj, reduceCtorEq, if_false, if_true]
  rw [mail_append, mail_sendEach _ hnd, mail_sendEach _ hnd]
  split_ifs <;> rfl

/-- The mail of a join: the newcomer is greeted and gets the history, each
member gets one notice. -/
theorem Holds.mail_join (h : s.Holds R) (kind : msg.mtype = Kind.newClient.code)
    (fresh : msg.fromMessage ∉ R.pids) (room : R.members.length < sizeClients)
    (past : InfoClients) (p : Int) :
    mail Message.mtype p (QueueChat.iteration past msg s).2 =
      if p = msg.fromMessage then
        greeting msg (QueueChat.iteration past msg s).1 ++ replay msg (QueueChat.iteration past msg s).1
      else if p ∈ R.pids then [(msg.withCategory .newClient).readdress p] else [] := by
  have hfresh : msg.fromMessage ∉ s.roster.cells.map InfoClients.pid := by rwa [h.pids_cells]
  rw [QueueChat.iteration, readQueue_join past kind (h.roster.size_lt.mpr room)]
  rw [mail_joined kind (h.roster.cells_append room _)
    (by rw [h.roster.cells_length, Roster.append, h.roster.size]) rfl h.nodup_cells hfresh,
    h.pids_cells]

/-- The mail of a chat line: one copy for each member. -/
theorem Holds.mail_chat (h : s.Holds R) (kind : msg.mtype = Kind.messageFromClient.code)
    (past : InfoClients) (p : Int) :
    mail Message.mtype p (QueueChat.iteration past msg s).2 =
      if p ∈ R.pids then
        [((msg.copyText (chatLine (s.sender past msg.fromMessage).name msg.mtext)).withCategory
          .messageFromClient).readdress p]
      else [] := by
  have hkind : (msg.copyText (chatLine (s.sender past msg.fromMessage).name msg.mtext)).mtype =
      Kind.messageFromClient.code := by rw [copyText_mtype, kind]
  rw [QueueChat.iteration, readQueue_chat past kind, ← h.pids_cells]
  refine mail_said hkind ?_ p
  exact h.nodup_cells

/-- The mail of a leave: two notices for each member that stays. -/
theorem Holds.mail_leave (h : s.Holds R) (kind : msg.mtype = Kind.clientLeave.code)
    (member : msg.fromMessage ∈ R.pids) (past : InfoClients) (p : Int) :
    ∃ text, mail Message.mtype p (QueueChat.iteration past msg s).2 =
      if p ∈ (R.leave msg.fromMessage).pids then
        [(({ msg with mtext := text } : Message).withCategory .messageFromServer).readdress p,
          (({ msg with mtext := text } : Message).withCategory .clientLeave).readdress p]
      else [] := by
  refine ⟨sprintf msg.mtext (leaveLine (s.sender past msg.fromMessage).name), ?_⟩
  have hleft := h.leave past member
  rw [QueueChat.iteration, readQueue_leave past kind, ← hleft.pids_cells]
  refine mail_left ?_ hleft.nodup_cells p
  exact kind

end Server

end EmbeddedCourse.QueueChat
