import EmbeddedCourse.QueueChat.Discipline

/-! # The copies of the roster agree

Every client keeps its own copy of the server's roster and learns of changes
only by messages. The invariant (`Agrees`) ties the server's room, the messages
in flight and the local copies together: the messages that wait on queue 1 for
a member, processed in order, turn its local table into the server's.
-/

namespace EmbeddedCourse.QueueChat

open CString Chat Mailbox Client

/-! ## The invariant -/

/-- The assumptions on a run: a join finds room, a line has at most 255 bytes. -/
def Admissible (s : System) : Label → Prop
  | .serve past => ∀ msg ∈ s.queue0.head?, Admits past msg s.server
  | _ => True

instance : ∀ (s : System) (l : Label), Decidable (Admissible s l)
  | s, .serve past => inferInstanceAs (Decidable (∀ msg ∈ s.queue0.head?, Admits past msg s.server))
  | _, .start _ _ | _, .type _ _ | _, .deliver _ _ => inferInstanceAs (Decidable True)

/-- Whoever has not joined at the server has an empty table; the table of a
member, brought up to date with its mail, is the server's. -/
structure Agrees (s : System) (R : Room) (ph : Int → Status) : Prop extends Follows s R ph where
  lines : ∀ e ∈ R.history, e.1.length ≤ 255
  blank : ∀ p, ph p = .notStarted → (s.client p).roster.Holds []
  members : ∀ p ∈ R.pids, ∃ L, (s.client p).roster.Holds L ∧
    (mail Message.mtype p s.queue1).foldlM applyNotice L = some R.members

theorem zeroRoster_holds : zeroRoster.Holds [] := ⟨by simp [zeroRoster], rfl, by simp, rfl⟩

theorem agrees_init (junk : Fin sizeClients → InfoClients) :
    Agrees (System.init junk) ⟨[], []⟩ fun _ => .notStarted where
  toFollows := .init junk
  lines := by simp
  blank := fun p _ => zeroRoster_holds
  members := by simp [Room.pids]

namespace Agrees

variable {s : System} {R : Room} {ph : Int → Status}

/-- Posting in turn adds to the pending messages only. -/
theorem post (h : Agrees s R ph) {pid : Int} {msg : Message} {st : Status}
    (hadv : advance s.statuses msg = some (s.post pid msg st).statuses) :
    Agrees (s.post pid msg st) R ph where
  toFollows := h.toFollows.post hadv
  lines := h.lines
  blank := by
    intro p hp
    rw [System.post_roster]
    exact h.blank p hp
  members := by
    intro p hp
    rw [System.post_roster]
    exact h.members p hp

/-- One server iteration. -/
theorem serve (h : Agrees s R ph) {past : InfoClients} {msg : Message} {rest : List Message}
    (hq : s.queue0 = msg :: rest) (hok : Admits past msg s.server) :
    ∃ ph', Agrees
      { s with
        server := (iteration past msg s.server).1
        queue0 := rest
        queue1 := s.queue1 ++ (iteration past msg s.server).2 } (R.next msg) ph' := by
  rcases h.head hq hok.1 with ⟨ph', hadv, hpend, hreg⟩
  refine ⟨ph', h.toFollows.serve hadv hpend hreg, ?_, ?_, ?_⟩
  · exact h.server.lines_next hreg h.lines hok.2
  · exact fun p hp => h.blank p (advance_notStarted hadv hp)
  · intro p hp
    rcases h.server.notices hreg hadv h.lines past hp with ⟨hold, hfold'⟩ | ⟨hp0, -, hfold'⟩
    · rcases h.members p hold with ⟨L, hL, hfold⟩
      refine ⟨L, hL, ?_⟩
      rw [mail_append, List.foldlM_append, hfold]
      exact hfold'
    · -- the newcomer: its table is empty and nothing was sent to it before
      refine ⟨[], h.blank p hp0, ?_⟩
      rw [mail_append, h.strangers p hp0, List.nil_append]
      exact hfold'

/-- One delivery: the head of the client's mail is applied to its table. -/
theorem deliver (h : Agrees s R ph) {pid : Int} {past : InfoClients} {msg : Message}
    {rest : List Message} (hq : receive Message.mtype pid s.queue1 = some (msg, rest)) :
    Agrees
      { s.setClient pid
          { s.client pid with roster := Client.readQueue past msg (s.client pid).roster } with
        queue1 := rest } R ph where
  toFollows := h.toFollows.deliver hq _
  lines := h.lines
  blank := by
    intro p hp
    exact h.blank_deliver h.blank hq _ hp
  members := by
    intro p hp
    rcases h.members p hp with ⟨L, hL, hfold⟩
    by_cases hpid : p = pid
    · subst hpid
      rw [mail_receive _ hq, List.foldlM_cons] at hfold
      -- what has been read is off the mail
      cases hnotice : applyNotice L msg with
      | none => simp [hnotice] at hfold
      | some L' =>
        rw [hnotice] at hfold
        refine ⟨L', ?_, hfold⟩
        simpa [System.setClient] using Client.readQueue_holds hL hnotice past
    · refine ⟨L, ?_, ?_⟩
      · simpa [System.setClient, hpid] using hL
      · rw [mail_receive_ne _ hq hpid]
        exact hfold

end Agrees

/-- The invariant survives every step. -/
theorem agrees_step {s s' : System} {l : Label} (h : ∃ R ph, Agrees s R ph)
    (hok : Admissible s l) (hs : s.step l = some s') : ∃ R ph, Agrees s' R ph := by
  rcases h with ⟨R, ph, h⟩
  apply System.step_keeps (P := fun s => ∃ R ph, Agrees s R ph) hs ⟨R, ph, h⟩
  · intro pid msg st hadv
    exact ⟨R, ph, h.post hadv⟩
  · rintro past msg rest rfl hq
    rcases h.serve hq (hok msg (by rw [hq]; rfl)) with ⟨ph', h'⟩
    exact ⟨_, ph', h'⟩
  · intro pid past msg rest hq
    exact ⟨R, ph, h.deliver hq⟩

/-- In every reachable state, a member that processes its pending messages in
order ends up with exactly the server's roster. -/
theorem roster_agreement (junk : Fin sizeClients → InfoClients) (s : System)
    (h : Machine.Reach System.step Admissible (System.init junk) s) (p : Int)
    (hp : p ∈ s.server.roster.members.map Prod.fst) (feed : List (Message × InfoClients))
    (hfeed : feed.map Prod.fst = mail Message.mtype p s.queue1) :
    (readAll (s.client p).roster feed).sizeInfcl = s.server.roster.sizeInfcl ∧
      (readAll (s.client p).roster feed).members = s.server.roster.members := by
  obtain ⟨R, ph, hinv⟩ := h.invariant (fun s => ∃ R ph, Agrees s R ph)
    ⟨_, _, agrees_init junk⟩ fun _ _ _ hi hok hs => agrees_step hi hok hs
  rw [hinv.server.roster.members] at hp ⊢
  rcases hinv.members p hp with ⟨L, hL, hfold⟩
  rw [← hfeed] at hfold
  have hend := readAll_holds hL feed hfold
  exact ⟨hend.size.trans hinv.server.roster.size.symm, hend.members⟩

/-- The first of two clients has read nothing yet; the feed it still has to
read brings it to the roster of both. -/
theorem roster_agreement_two :
    ∃ s, Machine.Reach System.step Admissible (System.init fun _ => ⟨[], 0⟩) s ∧
      s.server.roster.members = [(1, ascii ['a']), (2, ascii ['b'])] ∧
      (readAll (s.client 1).roster
        ((mail Message.mtype 1 s.queue1).map fun m => (m, ⟨[], 0⟩))).members =
          s.server.roster.members := by
  have hrun : (Machine.exec (Machine.guarded System.step Admissible)
      (System.init fun _ => ⟨[], 0⟩)
      [.start 1 (ascii ['a']), .serve ⟨[], 0⟩, .start 2 (ascii ['b']), .serve ⟨[], 0⟩]).map
        (fun s => s.server.roster.members) = some [(1, ascii ['a']), (2, ascii ['b'])] := by
    decide +kernel
  rcases Machine.Run.exists_of_exec hrun with ⟨s, hs, hmembers⟩
  have hreach : Machine.Reach System.step Admissible (System.init fun _ => ⟨[], 0⟩) s :=
    ⟨_, hs⟩
  refine ⟨s, hreach, hmembers, ?_⟩
  refine (roster_agreement (fun _ => ⟨[], 0⟩) s hreach 1 ?_ _ ?_).2
  · rw [hmembers]
    decide
  · rw [List.map_map]
    exact List.map_id _

end EmbeddedCourse.QueueChat
