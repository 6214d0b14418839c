import EmbeddedCourse.QueueChat.Discipline

/-! # What stays on queue 1

Messages are addressed by pid, and a client that has left reads no more, so
whatever is on queue 1 for it when it leaves, or is still sent to it before the
server has processed its leave, stays there. Nobody drains it. The runs that
leave nothing behind are those in which every client leaves at a clean moment
(`CleanExit`).
-/

namespace EmbeddedCourse.QueueChat

open CString Chat Mailbox Client

/-- The assumptions on a run: a join finds room, and only a running client
reads. -/
def Fair (s : System) : Label → Prop
  | .serve _ => ∀ msg ∈ s.queue0.head?, msg.mtype = Kind.newClient.code →
      s.server.roster.sizeInfcl < sizeClients
  | .deliver pid _ => s.statuses pid = .running
  | _ => True

/-- A client types `exit` only when it has read everything and queue 0 is empty. -/
def CleanExit (s : System) : Label → Prop
  | .type pid typed => inputLine typed = exitWord →
      s.queue0 = [] ∧ mail Message.mtype pid s.queue1 = []
  | _ => True

instance : ∀ (s : System) (l : Label), Decidable (Fair s l)
  | s, .serve _ => inferInstanceAs (Decidable (∀ msg ∈ s.queue0.head?,
      msg.mtype = Kind.newClient.code → s.server.roster.sizeInfcl < sizeClients))
  | s, .deliver pid _ => inferInstanceAs (Decidable (s.statuses pid = .running))
  | _, .start _ _ | _, .type _ _ => inferInstanceAs (Decidable True)

instance : ∀ (s : System) (l : Label), Decidable (CleanExit s l)
  | s, .type pid typed => inferInstanceAs (Decidable (inputLine typed = exitWord →
      s.queue0 = [] ∧ mail Message.mtype pid s.queue1 = []))
  | _, .start _ _ | _, .serve _ | _, .deliver _ _ => inferInstanceAs (Decidable True)

theorem Fair.findsRoom {s : System} {l : Label} (h : Fair s l) : FindsRoom s l := by
  cases l with
  | serve past => exact h
  | start pid name => trivial
  | type pid typed => trivial
  | deliver pid past => trivial

/-! ## Runs with clean exits only -/

/-- A client that has left has no mail, and at most its leave is still pending,
as the next message to be processed. -/
structure Swept (s : System) (R : Room) (ph : Int → Status) : Prop extends Follows s R ph where
  gone : ∀ p, s.statuses p = .left → mail Message.mtype p s.queue1 = [] ∧
    (ph p = .left ∨ ∃ msg rest, s.queue0 = msg :: rest ∧ msg.mtype = Kind.clientLeave.code ∧
      msg.fromMessage = p)

namespace Swept

variable {s : System} {R : Room} {ph : Int → Status}

theorem init (junk : Fin sizeClients → InfoClients) :
    Swept (System.init junk) ⟨[], []⟩ fun _ => .notStarted where
  toFollows := .init junk
  gone := by simp [System.statuses, System.init]

/-- A client that stays, or leaves at a clean moment, posts a message. -/
theorem post (h : Swept s R ph) {pid : Int} {msg : Message} {st : Status}
    (hadv : advance s.statuses msg = some (s.post pid msg st).statuses)
    (hclean : st = .left → s.queue0 = [] ∧ mail Message.mtype pid s.queue1 = [] ∧
      msg.mtype = Kind.clientLeave.code ∧ msg.fromMessage = pid) :
    Swept (s.post pid msg st) R ph where
  toFollows := h.toFollows.post hadv
  gone := by
    intro p hp
    rw [System.post_queue1, System.post_queue0]
    rw [System.post_statuses] at hp
    by_cases hpid : p = pid
    · subst hpid
      rw [Function.update_self] at hp
      rcases hclean hp with ⟨hempty, hmail, hkind, hfrom⟩
      exact ⟨hmail, Or.inr ⟨msg, [], by rw [hempty]; rfl, hkind, hfrom⟩⟩
    · rw [Function.update_of_ne hpid] at hp
      obtain ⟨hmail, hdone | ⟨m, rest, hq, hm⟩⟩ := h.gone p hp
      · exact ⟨hmail, Or.inl hdone⟩
      · exact ⟨hmail, Or.inr ⟨m, rest ++ [msg], by rw [hq]; rfl, hm⟩⟩

/-- An iteration sends nothing to those who have left. -/
theorem serve (h : Swept s R ph) {past : InfoClients} {msg : Message} {rest : List Message}
    {ph' : Int → Status} (hq : s.queue0 = msg :: rest) (hadv : advance ph msg = some ph')
    (hpend : rest.foldlM advance ph' = some s.statuses) (hreg : R.Regular msg) :
    Swept
      { s with
        server := (iteration past msg s.server).1
        queue0 := rest
        queue1 := s.queue1 ++ (iteration past msg s.server).2 } (R.next msg) ph' where
  toFollows := h.toFollows.serve hadv hpend hreg
  gone := by
    intro p hp
    rcases h.gone p hp with ⟨hmail, hwhen⟩
    -- either way the leave has been processed after this iteration
    have hdone : ph' p = .left := by
      rcases hwhen with hdone | ⟨m, rest', hq', hkind, hfrom⟩
      · exact advance_left hadv hdone
      · rcases List.cons.inj (hq.symm.trans hq') with ⟨rfl, -⟩
        exact hfrom ▸ (advance_leave hadv hkind).2
    have hnot : p ∉ (R.next msg).pids := by
      rw [← h.tracks.next h.server.nodup hadv, hdone]
      exact Status.noConfusion
    refine ⟨?_, Or.inl hdone⟩
    rw [mail_append, hmail, h.server.mail_stranger hreg past hnot]
    rfl

theorem deliver (h : Swept s R ph) {pid : Int} {msg : Message} {rest : List Message}
    (hq : receive Message.mtype pid s.queue1 = some (msg, rest))
    (hst : s.statuses pid = .running) (r : Roster) :
    Swept { s.setClient pid { s.client pid with roster := r } with queue1 := rest } R ph where
  toFollows := h.toFollows.deliver hq r
  gone := by
    intro p hp
    rw [System.statuses_deliver] at hp
    have hne : p ≠ pid := fun he => by
      rw [he, hst] at hp
      exact Status.noConfusion hp
    rcases h.gone p hp with ⟨hmail, hwhen⟩
    exact ⟨(mail_receive_ne _ hq hne).trans hmail, hwhen⟩

end Swept

theorem swept_step {s s' : System} {l : Label} (h : ∃ R ph, Swept s R ph)
    (hok : Fair s l ∧ CleanExit s l) (hs : s.step l = some s') : ∃ R ph, Swept s' R ph := by
  rcases h with ⟨R, ph, h⟩
  cases System.step_inv hs with
  | join pid name hst => exact ⟨R, ph, h.post (System.advance_join hst _ name) (by simp)⟩
  | exit pid typed hexit hst =>
    rcases hok.2 hexit with ⟨hempty, hmail⟩
    exact ⟨R, ph, h.post (System.advance_exit hst _) fun _ => ⟨hempty, hmail, rfl, rfl⟩⟩
  | chat pid typed hexit hst => exact ⟨R, ph, h.post (System.advance_line hst _ _) (by simp)⟩
  | empty pid typed hexit => exact ⟨R, ph, h⟩
  | serve past msg rest hq =>
    rcases h.head hq (hok.1 msg (by rw [hq]; rfl)) with ⟨ph', hadv, hpend, hreg⟩
    exact ⟨_, ph', h.serve hq hadv hpend hreg⟩
  | deliver pid past msg rest hq hst => exact ⟨R, ph, h.deliver hq hok.1 _⟩

/-! ## Runs with an unclean exit -/

/-- A client has left for which a message is on queue 1, or whose leave is
pending behind another message. -/
def Littered (s : System) : Prop :=
  ∃ p, s.statuses p = .left ∧ (mail Message.mtype p s.queue1 ≠ [] ∨
    ∃ pre msg post, s.queue0 = pre ++ msg :: post ∧ pre ≠ [] ∧
      msg.mtype = Kind.clientLeave.code ∧ msg.fromMessage = p)

/-- A message of another client changes nothing about it. -/
theorem Littered.post {s : System} (h : Littered s) {pid : Int} (hpid : s.statuses pid ≠ .left)
    (msg : Message) (st : Status) : Littered (s.post pid msg st) := by
  rcases h with ⟨p, hp, hlitter⟩
  have hne : p ≠ pid := fun he => hpid (he ▸ hp)
  refine ⟨p, by rw [System.post_statuses, Function.update_of_ne hne, hp], ?_⟩
  rw [System.post_queue1, System.post_queue0]
  rcases hlitter with hmail | ⟨pre, m, post, hq, hm⟩
  · exact Or.inl hmail
  · exact Or.inr ⟨pre, m, post ++ [msg], by rw [hq]; simp, hm⟩

/-- What is processed before the leave of a client sends the client a message. -/
theorem Littered.serve {s : System} {R : Room} {ph ph' : Int → Status} (h : Littered s)
    (hinv : Follows s R ph) {past : InfoClients} {msg : Message} {rest : List Message}
    (hq : s.queue0 = msg :: rest) (hadv : advance ph msg = some ph')
    (hpend : rest.foldlM advance ph' = some s.statuses) (hreg : R.Regular msg) :
    Littered
      { s with
        server := (iteration past msg s.server).1
        queue0 := rest
        queue1 := s.queue1 ++ (iteration past msg s.server).2 } := by
  rcases h with ⟨p, hp, hlitter⟩
  refine ⟨p, hp, ?_⟩
  rw [mail_append]
  rcases hlitter with hmail | ⟨pre, m, post, hq', hpre, hkind, hfrom⟩
  · exact Or.inl fun hnil => hmail (List.append_eq_nil_iff.mp hnil).1
  · rcases List.exists_cons_of_ne_nil hpre with ⟨x, pre, rfl⟩
    rcases List.cons.inj (hq.symm.trans hq') with ⟨rfl, hrest⟩
    cases pre with
    | cons y pre => exact Or.inr ⟨y :: pre, m, post, hrest, List.cons_ne_nil _ _, hkind, hfrom⟩
    | nil =>
      -- the leave comes next, so its sender is still a member and is sent something
      have hnil : rest = m :: post := hrest
      rw [hnil, List.foldlM_cons] at hpend
      rcases Option.bind_eq_some_iff.mp hpend with ⟨ph'', hnext, -⟩
      have hrunning : ph' p = .running := hfrom ▸ (advance_leave hnext hkind).1
      have hmem := (hinv.tracks.next hinv.server.nodup hadv p).mp hrunning
      exact Or.inl fun hnil => hinv.server.mail_next_ne_nil hreg past hmem
        (List.append_eq_nil_iff.mp hnil).2

/-- A message to a client that has left is never taken from queue 1. -/
theorem littered_step {s s' : System} {l : Label} (hinv : ∃ R ph, Follows s R ph) (h : Littered s)
    (hok : Fair s l) (hs : s.step l = some s') : Littered s' := by
  rcases hinv with ⟨R, ph, hinv⟩
  cases System.step_inv hs with
  | join pid name hst => exact h.post (by rw [hst]; exact Status.noConfusion) _ _
  | exit pid typed hexit hst => exact h.post (by rw [hst]; exact Status.noConfusion) _ _
  | chat pid typed hexit hst => exact h.post (by rw [hst]; exact Status.noConfusion) _ _
  | empty pid typed hexit => exact h
  | serve past msg rest hq =>
    rcases hinv.head hq (hok msg (by rw [hq]; rfl)) with ⟨ph', hadv, hpend, hreg⟩
    exact h.serve hinv hq hadv hpend hreg
  | deliver pid past msg rest hq hst =>
    rcases h with ⟨p, hp, hlitter⟩
    have hne : p ≠ pid := fun he => by
      have hrun : s.statuses pid = .running := hok
      rw [← he, hp] at hrun
      exact Status.noConfusion hrun
    refine ⟨p, by rw [System.statuses_deliver, hp], ?_⟩
    rcases hlitter with hmail | hpend
    · exact Or.inl (by rw [mail_receive_ne _ hq hne]; exact hmail)
    · exact Or.inr hpend

/-- A client that leaves at another moment leaves litter behind. -/
theorem littered_of_exit {s s' : System} {l : Label} (hclean : ¬ CleanExit s l)
    (hs : s.step l = some s') : Littered s' := by
  cases System.step_inv hs with
  | join pid name hst => exact absurd trivial hclean
  | exit pid typed hexit hst =>
    refine ⟨pid, by rw [System.post_statuses, Function.update_self], ?_⟩
    rw [System.post_queue1, System.post_queue0]
    by_cases hmail : mail Message.mtype pid s.queue1 = []
    · have hpending : s.queue0 ≠ [] := fun hempty => hclean fun _ => ⟨hempty, hmail⟩
      exact Or.inr ⟨s.queue0, _, [], rfl, hpending, rfl, rfl⟩
    · exact Or.inl hmail
  | chat pid typed hexit hst => exact absurd (fun he => absurd he hexit) hclean
  | empty pid typed hexit => exact absurd (fun he => absurd he hexit) hclean
  | serve past msg rest hq => exact absurd trivial hclean
  | deliver pid past msg rest hq hst => exact absurd trivial hclean

/-! ## The result -/

/-- In every fair run that ends with queue 0 empty and all mail of running
clients read, what is left on queue 1 is addressed to clients that have left,
and nothing is left if and only if every client left at a clean moment. -/
theorem leftovers_iff (junk : Fin sizeClients → InfoClients) (ls : List Label) (s : System)
    (h : Machine.Run System.step Fair (System.init junk) ls s) (hidle : s.queue0 = [])
    (hread : ∀ p, s.statuses p = .running → mail Message.mtype p s.queue1 = []) :
    (∀ m ∈ s.queue1, s.statuses m.mtype = .left) ∧
      (s.queue1 = [] ↔
        Machine.Run System.step (fun s l => Fair s l ∧ CleanExit s l) (System.init junk) ls s) := by
  rcases follows_of_run (h.mono fun _ _ => Fair.findsRoom) with ⟨R, ph, hinv⟩
  refine ⟨?_, ?_, ?_⟩
  · intro m hm
    have hmail : mail Message.mtype m.mtype s.queue1 ≠ [] :=
      List.ne_nil_of_mem ((mem_mail _).mpr ⟨hm, rfl⟩)
    cases hst : s.statuses m.mtype with
    | notStarted => exact absurd (hinv.notStarted hst) hmail
    | running => exact absurd (hread _ hst) hmail
    | left => rfl
  · intro hempty
    -- an unclean exit leaves litter for good, and there is none at the end
    rcases h.all_or_bad CleanExit Littered
      (fun _ _ _ _ _ _ hclean hs => littered_of_exit hclean hs)
      (fun _ _ _ _ hrun hbad hok hs => littered_step
        (follows_of_run (hrun.mono fun _ _ => Fair.findsRoom)) hbad hok hs) with
      hclean | ⟨p, hp, hmail | ⟨pre, m, post, hq, -⟩⟩
    · exact hclean
    · rw [hempty] at hmail
      exact absurd rfl hmail
    · rw [hidle] at hq
      simp at hq
  · intro hclean
    obtain ⟨R', ph', hswept⟩ := hclean.invariant (fun s => ∃ R ph, Swept s R ph)
      ⟨_, _, .init junk⟩ fun _ _ _ hi hok hs => swept_step hi hok hs
    refine eq_nil_of_mail Message.mtype fun p => ?_
    cases hst : s.statuses p with
    | notStarted => exact hinv.notStarted hst
    | running => exact hread p hst
    | left => exact (hswept.gone p hst).1

/-- A client that joins and types `exit` before it has read the notice of its
own join. -/
def hastyClient : List Label :=
  [.start 1 (ascii ['a']), .serve ⟨[], 0⟩, .type 1 exitWord, .serve ⟨[], 0⟩]

theorem hastyClient_run :
    ∃ s, Machine.Run System.step Fair (System.init fun _ => ⟨[], 0⟩) hastyClient s ∧
      s.queue0 = [] ∧ s.queue1.map Message.mtype = [1] ∧
      ∀ p, s.statuses p = .running → mail Message.mtype p s.queue1 = [] := by
  have hrun : (Machine.exec (Machine.guarded System.step Fair) (System.init fun _ => ⟨[], 0⟩)
      hastyClient).map (fun s => (s.queue0, s.queue1.map Message.mtype, s.statuses 1)) =
        some ([], [1], .left) := by
    decide +kernel
  rcases Machine.Run.exists_of_exec hrun with ⟨s, hs, hfacts⟩
  simp only [Prod.mk.injEq] at hfacts
  rcases hfacts with ⟨hq0, hq1, hst⟩
  refine ⟨s, hs, hq0, hq1, ?_⟩
  intro p hp
  rw [mail_eq_nil_iff]
  intro m hm he
  have hmem : p ∈ s.queue1.map Message.mtype := he ▸ List.mem_map_of_mem hm
  rw [hq1, List.mem_singleton] at hmem
  rw [hmem, hst] at hp
  exact Status.noConfusion hp

/-- The notice stays on queue 1 with queue 0 empty and nobody running. -/
theorem notice_left_behind :
    ∃ s, Machine.Run System.step Fair (System.init fun _ => ⟨[], 0⟩) hastyClient s ∧
      s.queue0 = [] ∧ (∀ p, s.statuses p = .running → mail Message.mtype p s.queue1 = []) ∧
        s.queue1 ≠ [] := by
  rcases hastyClient_run with ⟨s, hrun, hq0, hq1, hread⟩
  refine ⟨s, hrun, hq0, hread, ?_⟩
  intro hempty
  rw [hempty] at hq1
  simp at hq1

/-- That client did not leave at a clean moment. -/
theorem leftovers_iff_hastyClient :
    ∃ s, Machine.Run System.step Fair (System.init fun _ => ⟨[], 0⟩) hastyClient s ∧
      ¬ Machine.Run System.step (fun s l => Fair s l ∧ CleanExit s l)
        (System.init fun _ => ⟨[], 0⟩) hastyClient s := by
  rcases hastyClient_run with ⟨s, hrun, hq0, hq1, hread⟩
  refine ⟨s, hrun, ?_⟩
  intro hclean
  rw [(leftovers_iff _ _ s hrun hq0 hread).2.mpr hclean] at hq1
  simp at hq1

end EmbeddedCourse.QueueChat
