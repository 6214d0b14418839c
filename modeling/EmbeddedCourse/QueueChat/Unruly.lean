import EmbeddedCourse.QueueChat.Delivery

/-! # The server under any traffic

What stays true when clients keep to no order at all: strangers may speak and
leave, a name may be refused. The table never outgrows its ten cells, a
registered pid came with a join that found room, and the server announces only
pids that it has heard from.
-/

namespace EmbeddedCourse.QueueChat

open CString Chat Mailbox Client

/-! ## One iteration on any message -/

/-- The branches of `read_queue`. -/
inductive Branch (s : Server) (msg : Message) : Prop where
  | full (kind : msg.mtype = Kind.newClient.code) (hfull : (sizeClients : Int) ≤ s.roster.sizeInfcl)
  | join (kind : msg.mtype = Kind.newClient.code) (hroom : s.roster.sizeInfcl < sizeClients)
  | chat (kind : msg.mtype = Kind.messageFromClient.code)
  | leave (kind : msg.mtype = Kind.clientLeave.code)
  | other (hread : ∀ past, readQueue past msg s = (msg, s)) (hwrite : writeQueue msg s = [])

theorem branch (s : Server) (msg : Message) : Branch s msg := by
  by_cases hnew : msg.mtype = Kind.newClient.code
  · rcases Int.lt_or_le s.roster.sizeInfcl sizeClients with hroom | hfull
    · exact .join hnew hroom
    · exact .full hnew hfull
  · by_cases hchat : msg.mtype = Kind.messageFromClient.code
    · exact .chat hchat
    · by_cases hleave : msg.mtype = Kind.clientLeave.code
      · exact .leave hleave
      · exact .other (fun past => by rw [readQueue, if_neg hnew, if_neg hchat, if_neg hleave])
          (by rw [writeQueue, if_neg hnew, if_neg hchat, if_neg hleave])

/-- The table has ten cells and the counter does not pass them. -/
structure Server.Fits (s : Server) : Prop where
  length : s.roster.infCl.length = sizeClients
  size : s.roster.sizeInfcl ≤ sizeClients

namespace Server.Fits

variable {s : Server} {msg : Message}

theorem init (junk : Fin sizeClients → InfoClients) : (Server.init junk).Fits where
  length := by simp [Server.init]
  size := by simp [Server.init]

theorem iteration (h : s.Fits) (past : InfoClients) (msg : Message) :
    (QueueChat.iteration past msg s).1.Fits := by
  rw [QueueChat.iteration]
  have hlen := h.length
  have hsize := h.size
  cases branch s msg with
  | full kind hfull => rwa [readQueue_full past kind hfull]
  | join kind hroom =>
    rw [readQueue_join past kind hroom]
    exact ⟨by simp [Roster.append, hlen], by simp only [Roster.append]; omega⟩
  | chat kind =>
    rw [readQueue_chat past kind]
    exact ⟨hlen, hsize⟩
  | leave kind =>
    rw [readQueue_leave past kind]
    refine ⟨?_, by simp only [Roster.removeAt]; omega⟩
    simp only [Roster.removeAt]
    split_ifs <;> simp [hlen]
  | other hread hwrite => rwa [hread]

theorem serve (h : s.Fits) (feed : List (Message × InfoClients)) :
    (QueueChat.serve s feed).1.Fits := by
  induction feed generalizing s with
  | nil => exact h
  | cons e feed ih => exact ih (h.iteration e.2 e.1)

/-- The counter below zero: nobody is registered, and the next cell written
lies in front of the table. -/
theorem cells_append (h : s.Fits) (hroom : s.roster.sizeInfcl < sizeClients) (c : InfoClients) :
    (0 ≤ s.roster.sizeInfcl ∧ (s.roster.append c).cells = s.roster.cells ++ [c]) ∨
      (s.roster.sizeInfcl < 0 ∧ (s.roster.append c).cells = []) := by
  have hlen := h.length
  rcases Int.lt_or_le s.roster.sizeInfcl 0 with hneg | hpos
  · refine Or.inr ⟨hneg, ?_⟩
    have hnat : (s.roster.sizeInfcl + 1).toNat = 0 := by omega
    rw [Roster.cells, Roster.append, hnat, List.take_zero]
  · exact Or.inl ⟨hpos, Roster.cells_append hpos (by omega) c⟩

/-- A cell registered after an iteration was registered before, or is the
newcomer's. -/
theorem mem_cells (h : s.Fits) {past c : InfoClients}
    (hc : c ∈ (QueueChat.iteration past msg s).1.roster.cells) :
    c ∈ s.roster.cells ∨ (msg.mtype = Kind.newClient.code ∧ s.roster.sizeInfcl < sizeClients ∧
      c.pid = msg.fromMessage) := by
  rw [QueueChat.iteration] at hc
  cases branch s msg with
  | full kind hfull =>
    rw [readQueue_full past kind hfull] at hc
    exact Or.inl hc
  | join kind hroom =>
    rw [readQueue_join past kind hroom] at hc
    -- the new cell is the last one, or the counter was negative
    rcases h.cells_append hroom ⟨strncpy (List.replicate 20 0) msg.mtext 19, msg.fromMessage⟩ with
      ⟨-, hcells⟩ | ⟨-, hcells⟩
    · rw [hcells, List.mem_append, List.mem_singleton] at hc
      rcases hc with hold | rfl
      · exact Or.inl hold
      · exact Or.inr ⟨kind, hroom, rfl⟩
    · rw [hcells] at hc
      exact absurd hc List.not_mem_nil
  | chat kind =>
    rw [readQueue_chat past kind] at hc
    exact Or.inl hc
  | leave kind =>
    rw [readQueue_leave past kind] at hc
    refine Or.inl ((Roster.cells_removeAt_sublist past (neg_one_le_findNameClient ..) ?_).subset hc)
    rw [h.length]
    exact h.size
  | other hread hwrite =>
    rw [hread] at hc
    exact Or.inl hc

end Server.Fits

/-! ## The store -/

theorem store_iteration {s : Server} {hist : List (Bytes × Int)} (h : s.storeMsg.Holds hist)
    (past : InfoClients) (msg : Message) :
    ∃ new, (iteration past msg s).1.storeMsg.Holds (hist ++ new) ∧
      ∀ e ∈ new, e.2 = msg.fromMessage ∧ NoNul e.1 := by
  rw [iteration]
  cases branch s msg with
  | full kind hfull =>
    rw [readQueue_full past kind hfull]
    exact ⟨[], by simpa using h, by simp⟩
  | join kind hroom =>
    rw [readQueue_join past kind hroom]
    exact ⟨[], by simpa using h, by simp⟩
  | chat kind =>
    rw [readQueue_chat past kind]
    refine ⟨[_], h.grow.1.push h.grow.2 _ _, ?_⟩
    intro e he
    obtain rfl := List.mem_singleton.mp he
    exact ⟨rfl, ((noNul_cstr _).append (by decide)).append (noNul_cstr _)⟩
  | leave kind =>
    rw [readQueue_leave past kind]
    exact ⟨[], by simpa using h, by simp⟩
  | other hread hwrite =>
    rw [hread]
    exact ⟨[], by simpa using h, by simp⟩

/-! ## The pids that the server knows -/

/-- All pids in the table and in the store satisfy `P`. -/
structure Confined (P : Int → Prop) (s : Server) : Prop where
  fits : s.Fits
  cells : ∀ c ∈ s.roster.cells, P c.pid
  store : ∃ hist, s.storeMsg.Holds hist ∧ ∀ e ∈ hist, P e.2

namespace Confined

variable {P : Int → Prop} {s : Server} {msg : Message}

theorem init (junk : Fin sizeClients → InfoClients) : Confined P (Server.init junk) where
  fits := .init junk
  cells := by simp [Server.init, Roster.cells]
  store := ⟨[], StoreMessage.holds_init, by simp⟩

theorem iteration (h : Confined P s) (hmsg : P msg.fromMessage) (past : InfoClients) :
    Confined P (QueueChat.iteration past msg s).1 where
  fits := h.fits.iteration past msg
  cells := by
    intro c hc
    rcases h.fits.mem_cells hc with hold | ⟨-, -, hpid⟩
    · exact h.cells c hold
    · exact hpid ▸ hmsg
  store := by
    rcases h.store with ⟨hist, hhist, hP⟩
    rcases store_iteration hhist past msg with ⟨new, hnew, hfrom⟩
    refine ⟨hist ++ new, hnew, ?_⟩
    intro e he
    rcases List.mem_append.mp he with he | he
    · exact hP e he
    · exact (hfrom e he).1 ▸ hmsg

/-- A join is answered with messages about known pids only. -/
theorem newClient (h : Confined P s) (hmsg : P msg.fromMessage)
    (kind : msg.mtype = Kind.newClient.code) : ∀ m ∈ writeQueue msg s, P m.fromMessage := by
  rcases h.store with ⟨hist, hhist, hP⟩
  have hroster := sendLoop_keeps (f := putMember) (P := fun m => P m.fromMessage)
    ((msg.withCategory .newClient).readdress msg.fromMessage)
    (if 1 < s.roster.sizeInfcl then s.roster.cells else [])
    (fun m c hc _ => h.cells c (by split_ifs at hc; exacts [hc, absurd hc List.not_mem_nil])) hmsg
  have hreplay : ∀ m ∈ replay msg s, P m.fromMessage :=
    (sendLoop_keeps (f := putLine) (P := fun m => P m.fromMessage) (beforeHistory msg s)
      s.storeMsg.entries (fun m e he _ => hP e (hhist.entries ▸ he)) hroster.1).2
  intro m hm
  rw [Server.writeQueue_newClient kind, List.mem_append, List.mem_append] at hm
  rcases hm with (hm | hm) | hm
  · rcases List.mem_map.mp hm with ⟨c, -, rfl⟩
    exact hmsg
  · exact hroster.2 m hm
  · exact hreplay m hm

/-- Whoever is announced as new is a known pid. -/
theorem announced (h : Confined P s) (hmsg : P msg.fromMessage) (past : InfoClients) :
    ∀ m ∈ (QueueChat.iteration past msg s).2, m.categoriyMessage = Kind.newClient.code →
      P m.fromMessage := by
  have hnext := h.iteration hmsg past
  rw [QueueChat.iteration] at hnext ⊢
  intro m hm hcat
  cases branch s msg with
  | full kind hfull =>
    rw [readQueue_full past kind hfull] at hm hnext
    exact hnext.newClient hmsg kind m hm
  | join kind hroom =>
    rw [readQueue_join past kind hroom] at hm hnext
    exact hnext.newClient hmsg kind m hm
  | chat kind =>
    rw [readQueue_chat past kind] at hm
    simp only [writeQueue, copyText_mtype, kind] at hm
    simp only [Kind.code_inj, reduceCtorEq, if_false, if_true] at hm
    -- a line announces nobody
    rcases List.mem_map.mp hm with ⟨c, -, rfl⟩
    simp at hcat
  | leave kind =>
    rw [readQueue_leave past kind] at hm
    simp only [writeQueue, kind] at hm
    simp only [Kind.code_inj, reduceCtorEq, if_false, if_true, List.mem_append] at hm
    -- nor does the notice of a leave, or its line
    rcases hm with hm | hm
    · rcases List.mem_map.mp hm with ⟨c, -, rfl⟩
      simp at hcat
    · rcases List.mem_map.mp hm with ⟨c, -, rfl⟩
      simp at hcat
  | other hread hwrite =>
    rw [hread, hwrite] at hm
    exact absurd hm List.not_mem_nil

/-- Over a whole run. -/
theorem serve (h : Confined P s) {feed : List (Message × InfoClients)}
    (hfeed : ∀ e ∈ feed, P e.1.fromMessage) :
    ∀ m ∈ (QueueChat.serve s feed).2, m.categoriyMessage = Kind.newClient.code →
      P m.fromMessage := by
  induction feed generalizing s with
  | nil => simp [QueueChat.serve]
  | cons e feed ih =>
    have hmsg := hfeed e (by simp)
    intro m hm hcat
    rcases List.mem_append.mp hm with hm | hm
    · exact h.announced hmsg e.2 m hm hcat
    · exact ih (h.iteration hmsg e.2) (fun e' he' => hfeed e' (List.mem_cons_of_mem e he')) m hm hcat

end Confined

/-! ## Joins -/

/-- The pids of all joins. -/
def joiners (feed : List (Message × InfoClients)) : List Int :=
  (feed.filter fun e => e.1.mtype = Kind.newClient.code).map fun e => e.1.fromMessage

end EmbeddedCourse.QueueChat
