import EmbeddedCourse.QueueChat.Headcount

/-! # Clients turned away

`read_queue` turns a join away when the table is full, but it does so by an
early return, and `write_queue` then announces the client all the same. A run
is compared with the run in which the messages of all clients turned away are
erased; the two agree exactly when nobody was turned away. Even then a client
can count past its own table, by the lines that it takes for joins.
-/

namespace EmbeddedCourse.QueueChat

open CString Chat Mailbox Client

/-! ## Who was turned away -/

/-- The pids whose `NEW_CLIENT` was processed while the table was full. -/
def refused (s : Server) : List (Message × InfoClients) → List Int
  | [] => []
  | (msg, past) :: rest =>
    (if msg.mtype = Kind.newClient.code ∧ (sizeClients : Int) ≤ s.roster.sizeInfcl then
      [msg.fromMessage] else []) ++ refused (iteration past msg s).1 rest

/-- The pids whose `NEW_CLIENT` found room. -/
def accepted (s : Server) : List (Message × InfoClients) → List Int
  | [] => []
  | (msg, past) :: rest =>
    (if msg.mtype = Kind.newClient.code ∧ s.roster.sizeInfcl < sizeClients then
      [msg.fromMessage] else []) ++ accepted (iteration past msg s).1 rest

/-- The feed without the messages of the clients turned away. -/
def erased (s : Server) (feed : List (Message × InfoClients)) : List (Message × InfoClients) :=
  feed.filter fun e => e.1.fromMessage ∉ refused s feed

/-- A client that was turned away has had no influence: the run goes as if it
had sent nothing, its leave takes out nobody, and no registered client counts
past its table. -/
structure NoInfluence (junk : Fin sizeClients → InfoClients)
    (feed : List (Message × InfoClients)) : Prop where
  size : (run junk feed).1.roster.sizeInfcl =
    (run junk (erased (Server.init junk) feed)).1.roster.sizeInfcl
  roster : (run junk feed).1.roster.members =
    (run junk (erased (Server.init junk) feed)).1.roster.members
  history : (run junk feed).1.storeMsg.entries =
    (run junk (erased (Server.init junk) feed)).1.storeMsg.entries
  streams : ∀ p ∈ accepted (Server.init junk) feed,
    mail Message.mtype p (run junk feed).2 =
      mail Message.mtype p (run junk (erased (Server.init junk) feed)).2
  leaves : ∀ before msg past after, feed = before ++ (msg, past) :: after →
    msg.mtype = Kind.clientLeave.code → msg.fromMessage ∈ refused (Server.init junk) feed →
      (iteration past msg (run junk before).1).1.roster.members =
        (run junk before).1.roster.members
  local_size : ∀ p ∈ accepted (Server.init junk) feed, ∀ got : List (Message × InfoClients),
    got.map Prod.fst <+: mail Message.mtype p (run junk feed).2 →
      (readAll zeroRoster got).sizeInfcl ≤ sizeClients

theorem exists_of_mem_refused {s : Server} {feed : List (Message × InfoClients)} {p : Int}
    (hp : p ∈ refused s feed) : ∃ before e after, feed = before ++ e :: after ∧
      e.1.mtype = Kind.newClient.code ∧ e.1.fromMessage = p ∧
        (sizeClients : Int) ≤ (serve s before).1.roster.sizeInfcl := by
  induction feed generalizing s with
  | nil => exact absurd hp List.not_mem_nil
  | cons e feed ih =>
    rw [refused, List.mem_append] at hp
    rcases hp with hp | hp
    · split_ifs at hp with hfull
      · exact ⟨[], e, feed, rfl, hfull.1, (List.mem_singleton.mp hp).symm, hfull.2⟩
      · exact absurd hp List.not_mem_nil
    · rcases ih hp with ⟨before, e', after, rfl, hrest⟩
      exact ⟨e :: before, e', after, rfl, hrest⟩

theorem accepted_append (s : Server) (feed feed' : List (Message × InfoClients)) :
    accepted s (feed ++ feed') = accepted s feed ++ accepted (serve s feed).1 feed' := by
  induction feed generalizing s with
  | nil => rfl
  | cons e feed ih =>
    rw [List.cons_append, accepted, accepted, ih, List.append_assoc]
    rfl

theorem accepted_subset_joiners (s : Server) (feed : List (Message × InfoClients)) :
    accepted s feed ⊆ joiners feed := by
  induction feed generalizing s with
  | nil => simp [accepted]
  | cons e feed ih =>
    intro p hp
    rw [accepted, List.mem_append] at hp
    rw [joiners, List.filter_cons]
    rcases hp with hp | hp
    · split_ifs at hp with hroom
      · obtain rfl := List.mem_singleton.mp hp
        simp [hroom.1]
      · exact absurd hp List.not_mem_nil
    · have hrest := ih _ hp
      split_ifs
      · exact List.mem_cons_of_mem _ hrest
      · exact hrest

/-- Whoever is registered at the end was registered before or was accepted. -/
theorem mem_cells_serve {s : Server} (h : s.Fits) (feed : List (Message × InfoClients)) :
    ∀ c ∈ (serve s feed).1.roster.cells, c ∈ s.roster.cells ∨ c.pid ∈ accepted s feed := by
  induction feed generalizing s with
  | nil => exact fun c hc => Or.inl hc
  | cons e feed ih =>
    intro c hc
    rw [accepted, List.mem_append]
    rcases ih (h.iteration e.2 e.1) c hc with hold | hacc
    · rcases h.mem_cells hold with hold | ⟨kind, hroom, hpid⟩
      · exact Or.inl hold
      · refine Or.inr (Or.inl ?_)
        rw [if_pos ⟨kind, hroom⟩, hpid]
        exact List.mem_singleton_self _
    · exact Or.inr (Or.inr hacc)

/-! ## Turning a client away is heard -/

/-- The join that is turned away is announced to a registered client. -/
theorem refused_is_announced (junk : Fin sizeClients → InfoClients)
    {feed : List (Message × InfoClients)} (hjoin : (joiners feed).Nodup) {p : Int}
    (hp : p ∈ refused (Server.init junk) feed) :
    ∃ q ∈ accepted (Server.init junk) feed, ∃ m ∈ mail Message.mtype q (run junk feed).2,
      m.categoriyMessage = Kind.newClient.code ∧ m.fromMessage = p := by
  rcases exists_of_mem_refused hp with ⟨before, ⟨msg, past⟩, after, rfl, kind, rfl, hfull⟩
  have hfits := (Server.Fits.init junk).serve before
  have hlen := hfits.length
  have hsize := hfits.size
  -- the table is full, so somebody is in its first cell
  obtain ⟨c, hc⟩ : ∃ c, c ∈ (serve (Server.init junk) before).1.roster.cells := by
    apply List.exists_mem_of_length_pos
    rw [Roster.cells, List.length_take, hlen]
    rw [sizeClients] at hfull ⊢
    omega
  have hacc : c.pid ∈ accepted (Server.init junk) before := by
    rcases mem_cells_serve (Server.Fits.init junk) before c hc with hinit | hacc
    · simp [Server.init, Roster.cells] at hinit
    · exact hacc
  have hne : msg.fromMessage ≠ c.pid := by
    intro heq
    have hold := accepted_subset_joiners _ _ hacc
    rw [joiners, List.filter_append, List.map_append] at hjoin
    refine (List.nodup_append.mp hjoin).2.2 c.pid hold msg.fromMessage ?_ heq.symm
    exact List.mem_map.mpr ⟨(msg, past), List.mem_filter.mpr ⟨by simp, decide_eq_true kind⟩, rfl⟩
  refine ⟨c.pid, ?_, (msg.withCategory .newClient).readdress c.pid, ?_, rfl, rfl⟩
  · rw [accepted_append]
    exact List.mem_append_left _ hacc
  · rw [run, serve_append, mail_append]
    refine List.mem_append_right _ ?_
    rw [serve, mail_append]
    refine List.mem_append_left _ ((mem_mail _).mpr ⟨?_, rfl⟩)
    rw [iteration, readQueue_full past kind hfull, Server.writeQueue_newClient kind]
    refine List.mem_append_left _ (List.mem_append_left _ (List.mem_map.mpr ⟨c, ?_, rfl⟩))
    simp [hc, hne]

/-- In the run without them, nobody ever hears of the clients turned away. -/
theorem erased_not_announced (junk : Fin sizeClients → InfoClients)
    (feed : List (Message × InfoClients)) :
    ∀ m ∈ (run junk (erased (Server.init junk) feed)).2,
      m.categoriyMessage = Kind.newClient.code →
        m.fromMessage ∉ refused (Server.init junk) feed := by
  refine (Confined.init (P := (· ∉ refused (Server.init junk) feed)) junk).serve ?_
  intro e he
  simpa using (List.mem_filter.mp he).2

/-! ## Runs in which nobody is turned away -/

theorem joiners_cons (e : Message × InfoClients) (feed : List (Message × InfoClients)) :
    joiners (e :: feed) = joiners [e] ++ joiners feed := by
  rw [joiners, joiners, joiners, ← List.map_append, ← List.filter_append]
  rfl

theorem room_of_refused_nil {s : Server} {e : Message × InfoClients}
    {feed : List (Message × InfoClients)} (h : refused s (e :: feed) = [])
    (kind : e.1.mtype = Kind.newClient.code) : s.roster.sizeInfcl < sizeClients := by
  rw [refused, List.append_eq_nil_iff] at h
  by_contra hfull
  simp [kind, Int.not_lt.mp hfull] at h

/-- Where nobody is turned away, every join found room. -/
theorem joiners_subset_accepted {s : Server} {feed : List (Message × InfoClients)}
    (hrefused : refused s feed = []) : joiners feed ⊆ accepted s feed := by
  induction feed generalizing s with
  | nil => simp [joiners]
  | cons e feed ih =>
    have hroom := room_of_refused_nil hrefused
    rw [refused, List.append_eq_nil_iff] at hrefused
    rw [joiners_cons, accepted]
    refine List.append_subset.mpr ⟨?_, List.Subset.trans (ih hrefused.2) (List.subset_append_right _ _)⟩
    intro p hp
    by_cases kind : e.1.mtype = Kind.newClient.code
    · refine List.mem_append_left _ ?_
      rw [if_pos ⟨kind, hroom kind⟩]
      simpa [joiners, kind] using hp
    · simp [joiners, kind] at hp

/-- In a run that turns nobody away, no client ever counts past its table
exactly when every iteration leaves room. -/
theorem Counted.serve {s : Server} {joined : List Int} {surplus : Int → Int}
    {sent : List Message} (h : Counted s joined surplus sent) {feed : List (Message × InfoClients)}
    (hjoin : (joined ++ joiners feed).Nodup) (hrefused : refused s feed = []) :
    (∃ surplus', Counted (QueueChat.serve s feed).1 (joined ++ joiners feed) surplus'
        (sent ++ (QueueChat.serve s feed).2)) ∧
      ((∀ p, crest (mail Message.mtype p (sent ++ (QueueChat.serve s feed).2)) ≤ sizeClients) ↔
        (∀ p, crest (mail Message.mtype p sent) ≤ sizeClients) ∧ Roomy s surplus feed) := by
  induction feed generalizing s joined surplus sent with
  | nil =>
    refine ⟨⟨surplus, ?_⟩, ?_⟩
    · simpa [QueueChat.serve, joiners] using h
    · simp [QueueChat.serve, Roomy]
  | cons e feed ih =>
    -- no refusal: this join finds room, and its pid is a new one
    have hroom := room_of_refused_nil hrefused
    rw [refused, List.append_eq_nil_iff] at hrefused
    have hfresh : e.1.mtype = Kind.newClient.code → e.1.fromMessage ∉ joined := by
      intro kind hmem
      refine (List.nodup_append.mp hjoin).2.2 _ hmem e.1.fromMessage ?_ rfl
      simp [joiners, kind]
    rw [joiners_cons, ← List.append_assoc] at hjoin ⊢
    have hstep := h.step_crest_iff fun kind => ⟨hroom kind, hfresh kind⟩
    have hrest := ih (h.step fun kind => ⟨hroom kind, hfresh kind⟩) hjoin hrefused.2
    rw [List.append_assoc sent] at hrest
    exact ⟨hrest.1, hrest.2.trans ((and_congr_left' hstep).trans and_assoc)⟩

/-- The clients turned away have no influence, and no client counts past its
table, if and only if nobody is turned away and the table has room for the
lines that a newcomer takes for joins: turning a client away is always noticed
by a registered one. -/
theorem noInfluence_iff (junk : Fin sizeClients → InfoClients)
    (feed : List (Message × InfoClients)) (hjoin : (joiners feed).Nodup) :
    NoInfluence junk feed ↔
      refused (Server.init junk) feed = [] ∧ Roomy (Server.init junk) (fun _ => 0) feed := by
  have hrun := (Counted.init junk).serve (by simpa using hjoin : ([] ++ joiners feed).Nodup)
  simp only [mail_nil, crest_nil, List.nil_append] at hrun
  constructor
  · intro h
    have hnone : refused (Server.init junk) feed = [] := by
      by_contra hne
      rcases List.exists_mem_of_ne_nil _ hne with ⟨p, hp⟩
      -- the announcement reaches a registered client in the one run and nobody in the other
      rcases refused_is_announced junk hjoin hp with ⟨q, hq, m, hm, hcat, rfl⟩
      rw [h.streams q hq] at hm
      exact erased_not_announced junk feed m ((mem_mail _).mp hm).1 hcat hp
    rcases hrun hnone with ⟨⟨surplus, hcounted⟩, hcrest⟩
    refine ⟨hnone, (hcrest.mp ?_).2⟩
    intro p
    by_cases hp : p ∈ accepted (Server.init junk) feed
    · exact readAll_le_iff.mp (h.local_size p hp)
    · -- whoever never joined is sent nothing
      rw [hcounted.strangers p fun hmem => hp (joiners_subset_accepted hnone hmem)]
      simp
  · rintro ⟨hnone, hroomy⟩
    have hsame : erased (Server.init junk) feed = feed := by simp [erased, hnone]
    refine ⟨by rw [hsame], by rw [hsame], by rw [hsame], fun p _ => by rw [hsame], ?_, ?_⟩
    · intro before msg past after _ _ hmem
      rw [hnone] at hmem
      exact absurd hmem List.not_mem_nil
    · exact fun p _ => readAll_le_iff.mpr ((hrun hnone).2.mpr ⟨fun _ => by simp, hroomy⟩ p)

/-- Ten clients in the room and an eleventh at the door. -/
def elevenJoins : List (Message × InfoClients) :=
  (List.range 11).map fun i => (newClient (i + 1) zeroMessage (ascii ['u']), ⟨[], 0⟩)

/-- The eleventh client is announced to the first, which counts past its
table, and its leave takes the first client out of the server's. -/
theorem eleventh_join_is_heard :
    ¬ NoInfluence (fun _ => ⟨[], 0⟩) elevenJoins ∧
      (readAll zeroRoster ((mail Message.mtype 1 (run (fun _ => ⟨[], 0⟩) elevenJoins).2).map
        fun m => (m, ⟨[], 0⟩))).sizeInfcl = 11 ∧
      (run (fun _ => ⟨[], 0⟩) (elevenJoins ++
        [(leaveMessage 11 zeroMessage, ⟨[], 0⟩)])).1.roster.members.map Prod.fst =
          [2, 3, 4, 5, 6, 7, 8, 9, 10] := by
  have hsize : (readAll zeroRoster ((mail Message.mtype 1
      (run (fun _ => ⟨[], 0⟩) elevenJoins).2).map fun m => (m, ⟨[], 0⟩))).sizeInfcl = 11 := by
    decide +kernel
  have hgot : ((mail Message.mtype 1 (run (fun _ => ⟨[], 0⟩) elevenJoins).2).map
      fun m => (m, (⟨[], 0⟩ : InfoClients))).map Prod.fst <+:
        mail Message.mtype 1 (run (fun _ => ⟨[], 0⟩) elevenJoins).2 := by
    refine ⟨[], ?_⟩
    rw [List.append_nil, List.map_map]
    exact List.map_id _
  refine ⟨?_, hsize, by decide +kernel⟩
  intro h
  have hle := h.local_size 1 (by decide +kernel) _ hgot
  rw [hsize] at hle
  exact absurd hle (by decide)

/-- The name and the text of a line of 265 bytes that ends in the byte of a join. -/
def longName : Bytes := List.replicate 8 97

def longText : Bytes := List.replicate 254 97 ++ [3]

/-- Client 1 says a long line and `n` short ones, and client 2 joins. -/
def longLine (n : ℕ) : List (Message × InfoClients) :=
  [(newClient 1 zeroMessage longName, ⟨[], 0⟩), (chatMessage 1 zeroMessage longText, ⟨[], 0⟩)] ++
    List.replicate n (chatMessage 1 zeroMessage (ascii ['u']), ⟨[], 0⟩) ++
    [(newClient 2 zeroMessage (ascii ['v']), ⟨[], 0⟩)]

/-- Nobody is turned away, and yet client 2 counts eleven members: itself,
client 1 and nine lines. -/
example : refused (Server.init fun _ => ⟨[], 0⟩) (longLine 8) = [] ∧
    ¬ Roomy (Server.init fun _ => ⟨[], 0⟩) (fun _ => 0) (longLine 8) ∧
    (readAll zeroRoster ((mail Message.mtype 2 (run (fun _ => ⟨[], 0⟩) (longLine 8)).2).map
      fun m => (m, ⟨[], 0⟩))).sizeInfcl = 11 := by
  decide +kernel

/-- Client 2 takes two lines for joins, client 3 joins, client 2 leaves and
client 3 speaks. -/
theorem noInfluence_three_joins :
    NoInfluence (fun _ => ⟨[], 0⟩)
      (longLine 1 ++ [(newClient 3 zeroMessage (ascii ['w']), ⟨[], 0⟩),
        (leaveMessage 2 zeroMessage, ⟨[], 0⟩), (chatMessage 3 zeroMessage (ascii ['x']), ⟨[], 0⟩)]) :=
  (noInfluence_iff _ _ (by decide)).mpr ⟨by decide +kernel, by decide +kernel⟩

end EmbeddedCourse.QueueChat
