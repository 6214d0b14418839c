import EmbeddedCourse.QueueChat.Delivery

/-! # What a newcomer reads of the history

The history loop copies each line with `strncpy(mtext, line, strlen(line))`,
without its terminator, over one buffer that has held the newcomer's name, the
roster names and the lines before. The newcomer reads a line faithfully exactly
when the byte behind it happens to be NUL. That byte is traced through the
three loops, which gives the histories and names for which the replay is
faithful.
-/

namespace EmbeddedCourse.QueueChat

open CString Chat Mailbox Client

/-! ## The history loop -/

/-- The buffer after one line of the history. -/
theorem putLine_mtext {e : Bytes × Int} (hlen : e.1.length ≤ 255) (hnul : NoNul e.1) (msg : Message)
    (j : ℕ) :
    (putLine msg e).mtext.getD j 0 =
      if j < e.1.length then e.1.getD j 0 else msg.mtext.getD j 0 := by
  rw [putLine, copyText_of_le (by omega), getD_strncpy, cstr_of_noNul hnul]

/-- A line is read as it was stored exactly when the byte behind it is NUL. -/
theorem cstr_putLine {e : Bytes × Int} (hlen : e.1.length ≤ 255) (hnul : NoNul e.1)
    (msg : Message) :
    cstr (putLine msg e).mtext = e.1 ↔ msg.mtext.getD e.1.length 0 = 0 := by
  rw [putLine, copyText_of_le (by omega), cstr_strncpy_strlen hnul, List.append_right_eq_self,
    cstr_drop_eq_nil_iff]

/-- The whole loop: no line is shorter than one before it, and the buffer it
started with has a NUL at the length of each. -/
theorem replay_loop_iff {hist : List (Bytes × Int)}
    (hlines : ∀ e ∈ hist, e.1.length ≤ 255 ∧ NoNul e.1) (msg : Message) :
    (sendLoop putLine msg hist).2.map (fun m => cstr m.mtext) = hist.map Prod.fst ↔
      hist.Pairwise (fun e e' => e.1.length ≤ e'.1.length) ∧
        ∀ e ∈ hist, msg.mtext.getD e.1.length 0 = 0 := by
  induction hist generalizing msg with
  | nil => simp [sendLoop]
  | cons e hist ih =>
    rcases hlines e (by simp) with ⟨hlen, hnul⟩
    have htail := ih (fun e' he' => hlines e' (List.mem_cons_of_mem e he')) (putLine msg e)
    -- behind the next line stands what this line or the old buffer put there
    have hclear : ∀ e' : Bytes × Int, (putLine msg e).mtext.getD e'.1.length 0 = 0 ↔
        e.1.length ≤ e'.1.length ∧ msg.mtext.getD e'.1.length 0 = 0 := by
      intro e'
      rw [putLine_mtext hlen hnul]
      split_ifs with hlt
      · rw [hnul.getD_eq_zero_iff]
        omega
      · simp [Nat.le_of_not_lt hlt]
    simp only [hclear] at htail
    rw [sendLoop, List.map_cons, List.map_cons, List.cons.injEq, cstr_putLine hlen hnul, htail,
      List.pairwise_cons, List.forall_mem_cons]
    constructor
    · rintro ⟨hhead, hsorted, hrest⟩
      exact ⟨⟨fun e' he' => (hrest e' he').1, hsorted⟩, hhead, fun e' he' => (hrest e' he').2⟩
    · rintro ⟨⟨hge, hsorted⟩, hhead, hrest⟩
      exact ⟨hhead, hsorted, fun e' he' => ⟨hge e' he', hrest e' he'⟩⟩

/-! ## The buffer when the history loop starts -/

/-- The roster loop leaves the last name in the first 19 bytes. -/
theorem roster_loop_mtext (msg : Message) (cs : List InfoClients) (j : ℕ) :
    (sendLoop putMember msg cs).1.mtext.getD j 0 =
      match cs.getLast? with
      | some c => if j < 19 then (cstr c.name).getD j 0 else msg.mtext.getD j 0
      | none => msg.mtext.getD j 0 := by
  induction cs generalizing msg with
  | nil => rfl
  | cons c cs ih =>
    have hbyte : (putMember msg c).mtext.getD j 0 =
        if j < 19 then (cstr c.name).getD j 0 else msg.mtext.getD j 0 := getD_strncpy ..
    rw [sendLoop]
    show (sendLoop putMember (putMember msg c) cs).1.mtext.getD j 0 = _
    rw [ih, hbyte, List.getLast?_cons]
    cases cs.getLast? with
    | none => rfl
    | some d =>
      simp only [Option.getD_some]
      split_ifs <;> rfl

/-- `new_client` clears the buffer behind the name. -/
theorem newClient_mtext {name : Bytes} (hname : NoNul name) (pid : Int) :
    (newClient pid zeroMessage name).mtext =
      name.take 255 ++ List.replicate (255 - name.length + 1) 0 := by
  have hlen : (name.takeD 255 0).length = 255 := List.takeD_length ..
  have hrest : ((List.replicate 256 (0 : UInt8)).drop 255).set (255 - 255) 0 = [0] := rfl
  simp only [newClient, zeroMessage, strncpy, cstr_of_noNul hname]
  rw [List.set_append_right _ _ (Nat.le_of_eq hlen), hlen, hrest, Cells.takeD_eq_append,
    List.append_assoc, ← List.replicate_succ']

theorem cstr_newClient {name : Bytes} (hname : NoNul name) (pid : Int) :
    cstr (newClient pid zeroMessage name).mtext = name.take 255 := by
  rw [newClient_mtext hname, List.replicate_succ, cstr_terminated (hname.take 255)]

/-- The name in the last registered cell. -/
def lastName (s : Server) : Bytes :=
  match s.roster.cells.getLast? with
  | some c => cstr c.name
  | none => []

theorem noNul_lastName (s : Server) : NoNul (lastName s) := by
  unfold lastName
  split
  · exact noNul_cstr _
  · exact List.not_mem_nil

/-- Before the history loop, the buffer holds the last registered name in its
first 19 bytes if there was a roster to send, and else what came with the join. -/
theorem beforeHistory_mtext {s : Server} {L : List Member} (hroster : s.roster.Holds L)
    (msg : Message) (j : ℕ) :
    (beforeHistory msg s).mtext.getD j 0 =
      if 1 < s.roster.sizeInfcl ∧ j < 19 then (lastName s).getD j 0 else msg.mtext.getD j 0 := by
  have hloop := roster_loop_mtext ((msg.withCategory .newClient).readdress msg.fromMessage)
    (if 1 < s.roster.sizeInfcl then s.roster.cells else []) j
  show (sendLoop putMember ((msg.withCategory .newClient).readdress msg.fromMessage)
    (if 1 < s.roster.sizeInfcl then s.roster.cells else [])).1.mtext.getD j 0 = _
  rw [hloop]
  by_cases hmany : 1 < s.roster.sizeInfcl
  · have hne : s.roster.cells ≠ [] := by
      intro hnil
      have hlen := hroster.cells_length
      have hsize := hroster.size
      rw [hnil, List.length_nil] at hlen
      omega
    rw [if_pos hmany, lastName, List.getLast?_eq_some_getLast hne]
    simp only [hmany, true_and]
    rfl
  · simp only [hmany, false_and, if_false]
    rfl

/-- The buffer of a join has a NUL at `j` when the history loop starts: the
newcomer's name ends there, or, in a full room, where the roster loop has put
the last registered name over its first 19 bytes, that name does. -/
def Clear (s : Server) (name : Bytes) (j : ℕ) : Prop :=
  if (sizeClients : Int) ≤ s.roster.sizeInfcl ∧ j < 19 then (lastName s).length ≤ j
  else min name.length 255 ≤ j

instance (s : Server) (name : Bytes) (j : ℕ) : Decidable (Clear s name j) :=
  inferInstanceAs (Decidable (if (sizeClients : Int) ≤ s.roster.sizeInfcl ∧ j < 19 then
    (lastName s).length ≤ j else min name.length 255 ≤ j))

/-! ## The replay to a newcomer -/

/-- Of what the join branch sends to the newcomer, the lines are the replay. -/
theorem linesTo_newClient {msg : Message} (s : Server) (kind : msg.mtype = Kind.newClient.code)
    (hlines : ∀ e ∈ s.storeMsg.entries, e.1.length ≤ 256) :
    linesTo msg.fromMessage (writeQueue msg s) = replay msg s := by
  have hnotices : ∀ {ms : List Message}, (∀ m ∈ ms, m.categoriyMessage = Kind.newClient.code) →
      linesTo msg.fromMessage ms = [] := by
    intro ms hms
    rw [linesTo, List.filter_eq_nil_iff]
    intro m hm
    simp [Message.isLine, hms m (mem_mail _ |>.mp hm).1]
  have hroster := (sendLoop_keeps (f := putMember)
    (P := fun m => m.categoriyMessage = Kind.newClient.code)
    ((msg.withCategory .newClient).readdress msg.fromMessage)
    (if 1 < s.roster.sizeInfcl then s.roster.cells else []) (fun _ _ _ hm => hm) rfl).2
  rw [Server.writeQueue_newClient kind, linesTo_append, linesTo_append, hnotices, hnotices hroster,
    List.nil_append, List.nil_append, linesTo, mail_eq_self _ (replay_mtype msg s),
    List.filter_eq_self]
  · intro m hm
    exact decide_eq_true (replay_category msg hlines m hm)
  · intro m hm
    rcases List.mem_map.mp hm with ⟨c, -, rfl⟩
    rfl

/-- Admitted or not, a join passes the message on and keeps the store. -/
theorem readQueue_newClient (msg : Message) (kind : msg.mtype = Kind.newClient.code)
    (past : InfoClients) (s : Server) :
    (readQueue past msg s).1 = msg ∧ (readQueue past msg s).2.storeMsg = s.storeMsg := by
  by_cases hfull : (sizeClients : Int) ≤ s.roster.sizeInfcl
  · rw [readQueue_full past kind hfull]
    exact ⟨rfl, rfl⟩
  · rw [readQueue_join past kind (by omega)]
    exact ⟨rfl, rfl⟩

/-- The buffer in which the history loop of a join starts. -/
theorem beforeHistory_clear {s : Server} {L : List Member} (hroster : s.roster.Holds L)
    (past : InfoClients) (pid : Int) {name : Bytes} (hname : NoNul name) (j : ℕ) :
    (beforeHistory (newClient pid zeroMessage name)
        (readQueue past (newClient pid zeroMessage name) s).2).mtext.getD j 0 = 0 ↔
      Clear s name j := by
  have hbuf : (newClient pid zeroMessage name).mtext.getD j 0 = (name.take 255).getD j 0 := by
    rw [newClient_mtext hname, getD_append_zeros]
  have hname255 : (name.take 255).getD j 0 = 0 ↔ min name.length 255 ≤ j := by
    rw [(hname.take 255).getD_eq_zero_iff, List.length_take, Nat.min_comm]
  by_cases hfull : (sizeClients : Int) ≤ s.roster.sizeInfcl
  · -- turned away: the table is as it was, ten cells long
    have hmany : 1 < s.roster.sizeInfcl := by
      rw [sizeClients] at hfull
      omega
    rw [readQueue_full past rfl hfull, beforeHistory_mtext hroster, Clear, hbuf]
    simp only [hfull, hmany, true_and]
    split_ifs with hj
    · exact (noNul_lastName s).getD_eq_zero_iff j
    · exact hname255
  · -- admitted: the last cell carries the newcomer's own name
    have hroom : s.roster.sizeInfcl < sizeClients := by omega
    have hlast : lastName (readQueue past (newClient pid zeroMessage name) s).2 =
        (name.take 255).take 19 := by
      rw [readQueue_join past rfl hroom, lastName, hroster.cells_append (hroster.size_lt.mp hroom),
        List.getLast?_concat]
      show cstr (strncpy _ _ 19) = _
      rw [cstr_strncpy_terminated _ (t := []) rfl, cstr_newClient hname]
    have hnew : (readQueue past (newClient pid zeroMessage name) s).2.roster.Holds
        (L ++ [InfoClients.member
          ⟨strncpy (List.replicate 20 0) (newClient pid zeroMessage name).mtext 19, pid⟩]) := by
      rw [readQueue_join past rfl hroom]
      exact hroster.append (hroster.size_lt.mp hroom) _
    have hopen : ¬ ((sizeClients : Int) ≤ s.roster.sizeInfcl ∧ j < 19) := fun h => hfull h.1
    rw [beforeHistory_mtext hnew, hlast, hbuf, Clear, if_neg hopen, ← hname255]
    split_ifs with hj
    · rw [List.getD_eq_getElem?_getD, List.getElem?_take_of_lt hj.2, ← List.getD_eq_getElem?_getD]
    · rfl

/-- For every roster, every history and every name: a newcomer reads every line
of the history as it is stored if and only if the lines do not get shorter and
each is long enough to cover what the buffer held before. -/
theorem replay_faithful_iff (s : Server) (L : List Member) (hist : List (Bytes × Int))
    (hroster : s.roster.Holds L) (hstore : s.storeMsg.Holds hist)
    (hlines : ∀ e ∈ hist, e.1.length ≤ 255 ∧ NoNul e.1) (past : InfoClients) (pid : Int)
    (name : Bytes) (hname : NoNul name) :
    (linesTo pid (iteration past (newClient pid zeroMessage name) s).2).map
          (fun m => cstr m.mtext) = hist.map Prod.fst ↔
      hist.Pairwise (fun e e' => e.1.length ≤ e'.1.length) ∧ ∀ e ∈ hist, Clear s name e.1.length := by
  rcases readQueue_newClient (newClient pid zeroMessage name) rfl past s with ⟨hmsg, hkeeps⟩
  have hlast := linesTo_newClient (readQueue past (newClient pid zeroMessage name) s).2
    (show (newClient pid zeroMessage name).mtype = Kind.newClient.code from rfl) (by
      rw [hkeeps, hstore.entries]
      exact fun e he => (hlines e he).1.trans (by omega))
  have hloop := replay_loop_iff hlines
    (beforeHistory (newClient pid zeroMessage name)
      (readQueue past (newClient pid zeroMessage name) s).2)
  simp only [beforeHistory_clear hroster past pid hname] at hloop
  rw [← hloop, iteration, hmsg]
  show (linesTo (newClient pid zeroMessage name).fromMessage _).map _ = _ ↔ _
  rw [hlast, replay, hkeeps, hstore.entries]

/-- A client joins and says `x`, then `hello`. -/
def growingLines : List (Message × InfoClients) :=
  [(newClient 1 zeroMessage (ascii ['a']), ⟨[], 0⟩),
    (chatMessage 1 zeroMessage (ascii ['x']), ⟨[], 0⟩),
    (chatMessage 1 zeroMessage (ascii ['h', 'e', 'l', 'l', 'o']), ⟨[], 0⟩)]

/-- The next client to join reads both lines. -/
theorem replay_faithful_two_lines :
    (linesTo 2 (iteration ⟨[], 0⟩ (newClient 2 zeroMessage (ascii ['b']))
        (run (fun _ => ⟨[], 0⟩) growingLines).1).2).map (fun m => cstr m.mtext) =
      [ascii ['a', ':', ' ', 'x'], ascii ['a', ':', ' ', 'h', 'e', 'l', 'l', 'o']] := by
  have horder : Orderly (growingLines.map Prod.fst) := by decide +kernel
  have hok : Admitted (Server.init fun _ => ⟨[], 0⟩) growingLines := by decide +kernel
  rcases streams_of_run (fun _ => ⟨[], 0⟩) horder hok with ⟨ph, hstreams⟩
  have hlines : (roomAfter (growingLines.map Prod.fst)).history.map Prod.fst =
      [ascii ['a', ':', ' ', 'x'], ascii ['a', ':', ' ', 'h', 'e', 'l', 'l', 'o']] := by
    decide +kernel
  rw [← hlines]
  exact (replay_faithful_iff _ _ _ hstreams.server.roster hstreams.server.store (by decide +kernel)
    ⟨[], 0⟩ 2 (ascii ['b']) (by decide)).mpr ⟨by decide +kernel, by decide +kernel⟩

/-- A client says `hello` and then `x`; the next one to join reads the second
line with the rest of the first behind it. -/
theorem replay_second_line_runs_on :
    let c : InfoClients := ⟨[], 0⟩
    let s := (run (fun _ => c) [(newClient 1 zeroMessage (ascii ['a']), c),
      (chatMessage 1 zeroMessage (ascii ['h', 'e', 'l', 'l', 'o']), c),
      (chatMessage 1 zeroMessage (ascii ['x']), c)]).1
    s.storeMsg.entries.map Prod.fst =
        [ascii ['a', ':', ' ', 'h', 'e', 'l', 'l', 'o'], ascii ['a', ':', ' ', 'x']] ∧
      (linesTo 2 (iteration c (newClient 2 zeroMessage (ascii ['b'])) s).2).map
          (fun m => cstr m.mtext) =
        [ascii ['a', ':', ' ', 'h', 'e', 'l', 'l', 'o'],
          ascii ['a', ':', ' ', 'x', 'e', 'l', 'l', 'o']] := by
  decide +kernel

end EmbeddedCourse.QueueChat
