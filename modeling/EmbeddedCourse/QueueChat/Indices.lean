import EmbeddedCourse.QueueChat.Overrun

/-! # Where the tables are read and written

The cells of `infCl` that the server's and a client's `read_queue` touch. The
loop of a leave goes up to the counter and reads one cell ahead, so it leaves
the table when ten clients are registered and any but the last of them leaves,
first at the server and then, with the notice, at every client.
-/

namespace EmbeddedCourse.QueueChat

open CString Chat Mailbox Client

/-- The cells that `find_name_client` reads. -/
def findNameClientTouched (infCl : List InfoClients) (pid size : Int) : List Int :=
  let idx := findNameClient infCl pid size
  (List.range (if idx = -1 then size.toNat else idx.toNat + 1)).map fun k : ℕ => (k : Int)

/-- The cells that the shift reads and writes. -/
def shiftTouched (size idx : Int) : List Int :=
  if idx + 1 < size then (List.range (size - idx).toNat).flatMap fun k : ℕ => [idx + k + 1, idx + k]
  else []

/-- The cells that the server's `read_queue` touches. -/
def readQueueTouched (msg : Message) (s : Server) : List Int :=
  let idx := findNameClient s.roster.infCl msg.fromMessage s.roster.sizeInfcl
  let found := findNameClientTouched s.roster.infCl msg.fromMessage s.roster.sizeInfcl ++ [idx]
  if msg.mtype = Kind.newClient.code then
    if (sizeClients : Int) ≤ s.roster.sizeInfcl then [] else [s.roster.sizeInfcl]
  else if msg.mtype = Kind.messageFromClient.code then found
  else if msg.mtype = Kind.clientLeave.code then found ++ shiftTouched s.roster.sizeInfcl idx
  else []

/-- The cells that a client's `read_queue` touches. -/
def Client.readQueueTouched (msg : Message) (r : Roster) : List Int :=
  if msg.categoriyMessage = Kind.newClient.code then [r.sizeInfcl]
  else if msg.categoriyMessage = Kind.messageFromClient.code ∨
      msg.categoriyMessage = Kind.messageFromServer.code then []
  else if msg.categoriyMessage = Kind.clientLeave.code then
    findNameClientTouched r.infCl msg.fromMessage r.sizeInfcl ++
      shiftTouched r.sizeInfcl (findNameClient r.infCl msg.fromMessage r.sizeInfcl)
  else []

/-- `0 <= k < SIZE_CLIENTS` -/
def InTable (k : Int) : Prop := 0 ≤ k ∧ k < sizeClients

/-- Every cell that a run touches is in its table. -/
structure InRange (junk : Fin sizeClients → InfoClients) (ls : List Label) : Prop where
  server : ∀ ls' past s msg, ls' ++ [.serve past] <+: ls →
    Machine.Run System.step FindsRoom (System.init junk) ls' s → msg ∈ s.queue0.head? →
      ∀ k ∈ readQueueTouched msg s.server, InTable k
  client : ∀ ls' pid past s msg rest, ls' ++ [.deliver pid past] <+: ls →
    Machine.Run System.step FindsRoom (System.init junk) ls' s →
      receive Message.mtype pid s.queue1 = some (msg, rest) →
        ∀ k ∈ Client.readQueueTouched msg (s.client pid).roster, InTable k

/-- Of ten registered clients only the last one leaves. -/
def LastLeaves (s : System) : Label → Prop
  | .serve _ => ∀ msg ∈ s.queue0.head?, msg.mtype = Kind.clientLeave.code →
      s.server.roster.sizeInfcl = sizeClients →
        findNameClient s.server.roster.infCl msg.fromMessage s.server.roster.sizeInfcl + 1 =
          s.server.roster.sizeInfcl
  | _ => True

instance : ∀ (s : System) (l : Label), Decidable (LastLeaves s l)
  | s, .serve _ => inferInstanceAs (Decidable (∀ msg ∈ s.queue0.head?, _ → _ → _))
  | _, .start _ _ | _, .type _ _ | _, .deliver _ _ => inferInstanceAs (Decidable True)

/-- Nobody joins while a line in the store would be replayed as a notice. -/
def ReplaysLines (s : System) : Label → Prop
  | .serve _ => ∀ msg ∈ s.queue0.head?, msg.mtype = Kind.newClient.code →
      Plain s.server.storeMsg.entries
  | _ => True

/-! ## One table -/

section

variable {r : Roster} {L : List Member} {pid : Int}

theorem mem_findNameClientTouched (h : r.Holds L) :
    ∀ k ∈ findNameClientTouched r.infCl pid r.sizeInfcl, InTable k := by
  have hsize := h.size
  have hfits := h.fits
  intro k hk
  unfold findNameClientTouched at hk
  dsimp only at hk
  rcases List.mem_map.mp hk with ⟨n, hn, rfl⟩
  rw [List.mem_range] at hn
  unfold InTable
  rcases h.find_cases pid with ⟨hnone, -⟩ | ⟨i, hi, -, hidx⟩
  · rw [if_pos hnone] at hn
    omega
  · rw [hidx, if_neg (by omega)] at hn
    omega

/-- The shift stays in the table unless a table of ten is shifted. -/
theorem shiftTouched_iff {n i : ℕ} (hi : i < n) (hn : n ≤ sizeClients) :
    (∀ k ∈ shiftTouched n i, InTable k) ↔ (n = sizeClients → i + 1 = n) := by
  unfold shiftTouched InTable
  constructor
  · intro h hfull
    by_contra hne
    have hlt : (i : Int) + 1 < n := by omega
    rw [if_pos hlt] at h
    -- the last round reads at the counter
    have hmem : (n : Int) ∈ (List.range ((n : Int) - i).toNat).flatMap
        fun k : ℕ => [(i : Int) + k + 1, (i : Int) + k] := by
      rw [List.mem_flatMap]
      refine ⟨n - i - 1, List.mem_range.mpr (by omega), ?_⟩
      have heq : (i : Int) + (n - i - 1 : ℕ) + 1 = n := by omega
      rw [heq]
      exact List.mem_cons_self
    have hout := (h n hmem).2
    omega
  · intro h k hk
    split_ifs at hk with hlt
    · rcases List.mem_flatMap.mp hk with ⟨j, hj, hk⟩
      rw [List.mem_range] at hj
      simp only [List.mem_cons, List.not_mem_nil, or_false] at hk
      omega
    · cases hk

end

/-! ## One message -/

/-- In a list of ten, only the last one with the pid. -/
def Fits (L : List Member) (pid : Int) : Prop :=
  L.length = sizeClients → (L.findIdx? fun m => m.1 = pid) = some (sizeClients - 1)

instance (L : List Member) (pid : Int) : Decidable (Fits L pid) := inferInstanceAs (Decidable (_ → _))

/-- The shift of a leave stays in the table of a list that fits. -/
theorem shiftTouched_fits {r : Roster} {L : List Member} {pid : Int} (h : r.Holds L)
    (hp : pid ∈ L.map Prod.fst) :
    (∀ k ∈ shiftTouched r.sizeInfcl (findNameClient r.infCl pid r.sizeInfcl), InTable k) ↔
      Fits L pid := by
  rcases h.find_of_mem hp with ⟨i, hi, hfind, hidx⟩
  rw [hidx, h.size, shiftTouched_iff hi h.fits, Fits, hfind]
  constructor
  · intro hlast hfull
    have heq := hlast hfull
    rw [Option.some_inj]
    omega
  · intro hlast hfull
    have heq := Option.some.inj (hlast hfull)
    omega

namespace Server

variable {s : Server} {R : Room} {msg : Message}

/-- The test of the leave branch, on the list of members. -/
theorem Holds.last_iff (h : s.Holds R) {pid : Int} (hp : pid ∈ R.pids) :
    (s.roster.sizeInfcl = sizeClients →
      findNameClient s.roster.infCl pid s.roster.sizeInfcl + 1 = s.roster.sizeInfcl) ↔
      Fits R.members pid := by
  rcases h.roster.find_of_mem hp with ⟨i, hi, hfind, hidx⟩
  rw [hidx, h.roster.size, Fits, hfind, Option.some_inj]
  omega

/-- What the server touches is in the table, unless a leave shifts all ten cells. -/
theorem Holds.readQueueTouched_iff (h : s.Holds R) (hm : R.Regular msg) :
    (∀ k ∈ readQueueTouched msg s, InTable k) ↔
      (msg.mtype = Kind.clientLeave.code → Fits R.members msg.fromMessage) := by
  have hsize := h.roster.size
  have hfits := h.roster.fits
  -- a registered pid is found among the registered cells
  have hfound : ∀ pid, pid ∈ R.pids → ∀ k ∈
      findNameClientTouched s.roster.infCl pid s.roster.sizeInfcl ++
        [findNameClient s.roster.infCl pid s.roster.sizeInfcl], InTable k := by
    intro pid hp k hk
    rcases List.mem_append.mp hk with hk | hk
    · exact mem_findNameClientTouched h.roster k hk
    · rcases h.roster.find_of_mem hp with ⟨i, hi, -, hidx⟩
      rw [List.mem_singleton, hidx] at hk
      unfold InTable
      omega
  cases hm with
  | join kind fresh room =>
    have hroom := h.roster.size_lt.mpr room
    unfold readQueueTouched InTable
    dsimp only
    rw [if_pos kind, if_neg (by omega), kind]
    refine iff_of_true ?_ (fun hleave => absurd hleave (by decide))
    intro k hk
    rw [List.mem_singleton] at hk
    omega
  | chat kind member =>
    unfold readQueueTouched
    dsimp only
    rw [kind, if_neg (by decide), if_pos rfl]
    exact iff_of_true (hfound _ member) (fun hleave => absurd hleave (by decide))
  | leave kind member =>
    unfold readQueueTouched
    dsimp only
    rw [kind, if_neg (by decide), if_neg (by decide), if_pos rfl, ← shiftTouched_fits h.roster member]
    -- the search stays inside, so all depends on the shift
    constructor
    · intro hall _ k hk
      exact hall k (List.mem_append_right _ hk)
    · intro hshift k hk
      rcases List.mem_append.mp hk with hk | hk
      · exact hfound _ member k hk
      · exact hshift rfl k hk

end Server

/-- `applyNotice`, where the notice does not take the client out of its table. -/
def applyInTable (L : List Member) (msg : Message) : Option (List Member) :=
  if msg.categoriyMessage = Kind.clientLeave.code ∧ ¬ Fits L msg.fromMessage then none
  else applyNotice L msg

theorem applyNotice_of_inTable {L L' : List Member} {msg : Message} (h : applyInTable L msg = some L') :
    applyNotice L msg = some L' := by
  unfold applyInTable at h
  split_ifs at h
  exact h

theorem foldlM_applyInTable {ms : List Message}
    (h : ∀ m ∈ ms, m.categoriyMessage ≠ Kind.clientLeave.code) (L : List Member) :
    ms.foldlM applyInTable L = ms.foldlM applyNotice L := by
  induction ms generalizing L with
  | nil => rfl
  | cons m ms ih =>
    have hm : applyInTable L m = applyNotice L m := if_neg fun hleave => h m (by simp) hleave.1
    rw [List.foldlM_cons, List.foldlM_cons, hm]
    congr 1
    funext L'
    exact ih (fun m' hm' => h m' (List.mem_cons_of_mem m hm')) L'

theorem Client.mem_readQueueTouched {r : Roster} {L L' : List Member} {msg : Message} (h : r.Holds L)
    (hL : applyInTable L msg = some L') : ∀ k ∈ Client.readQueueTouched msg r, InTable k := by
  have hsize := h.size
  intro k hk
  unfold Client.readQueueTouched at hk
  unfold applyInTable applyNotice at hL
  split_ifs at hk with hnew hline hleave
  · split_ifs at hL with hbad hroom
    rw [List.mem_singleton] at hk
    unfold InTable
    omega
  · cases hk
  · rw [if_neg hnew, if_pos hleave] at hL
    split_ifs at hL with hbad hmem
    have hfits : Fits L msg.fromMessage := by
      by_contra hnot
      exact hbad ⟨hleave, hnot⟩
    rcases List.mem_append.mp hk with hk | hk
    · exact mem_findNameClientTouched h k hk
    · exact (shiftTouched_fits h hmem).mpr hfits k hk
  · cases hk

/-! ## What the server sends -/

namespace Server

variable {s : Server} {R : Room} {msg : Message} {ph ph' : Int → Status}

/-- What a newcomer is sent is read within its table. -/
theorem Holds.inTable_newcomer (h : s.Holds R) (kind : msg.mtype = Kind.newClient.code)
    (fresh : msg.fromMessage ∉ R.pids) (room : R.members.length < sizeClients) (past : InfoClients)
    (hplain : Plain R.history) (htexts : ∀ e ∈ R.history, NoNul e.1) :
    (mail Message.mtype msg.fromMessage (QueueChat.iteration past msg s).2).foldlM applyInTable [] =
      some (R.next msg).members := by
  have hnew := h.iteration (.join kind fresh room) past
  have hentries : (QueueChat.iteration past msg s).1.storeMsg.entries = R.history := by
    rw [hnew.store.entries, Room.next_join kind, Room.join]
  -- neither the roster nor the history makes a newcomer shift its table
  have hgreeting : ∀ m ∈ greeting msg (QueueChat.iteration past msg s).1,
      m.categoriyMessage ≠ Kind.clientLeave.code := by
    intro m hm
    rw [greeting_category msg _ m hm]
    decide
  have hreplay : ∀ m ∈ replay msg (QueueChat.iteration past msg s).1, ¬ m.IsNotice := by
    have hstart : (beforeHistory msg (QueueChat.iteration past msg s).1).categoriyMessage = 2 := rfl
    unfold replay
    rw [hentries]
    exact replay_plain hplain htexts (by rw [hstart]; decide) (by rw [hstart]; decide)
      (not_notice_of_line rfl)
  have hkinds : ∀ m ∈ replay msg (QueueChat.iteration past msg s).1,
      m.categoriyMessage ≠ Kind.clientLeave.code := fun m hm hleave => hreplay m hm (Or.inr hleave)
  rw [h.mail_join kind fresh room past, if_pos rfl, List.foldlM_append,
    foldlM_applyInTable hgreeting, h.greeted kind fresh room]
  show (replay msg (QueueChat.iteration past msg s).1).foldlM applyInTable (R.next msg).members = _
  rw [foldlM_applyInTable hkinds]
  exact foldlM_applyNotice_other _ hreplay

/-- What a member that stays is sent is read within its table. -/
theorem Holds.inTable_member (h : s.Holds R) (hm : R.Regular msg) (past : InfoClients) {p : Int}
    (hp : p ∈ R.pids) (hp' : p ∈ (R.next msg).pids)
    (hlast : msg.mtype = Kind.clientLeave.code → Fits R.members msg.fromMessage) :
    (mail Message.mtype p (QueueChat.iteration past msg s).2).foldlM applyInTable R.members =
      some (R.next msg).members := by
  have hnotices := h.notices_member hm past hp hp'
  cases hm with
  | join kind fresh room =>
    have hne : p ≠ msg.fromMessage := fun he => fresh (he ▸ hp)
    rw [h.mail_join kind fresh room past p, if_neg hne, if_pos hp] at hnotices ⊢
    rw [foldlM_applyInTable, hnotices]
    intro m hm
    rw [List.mem_singleton.mp hm]
    show Kind.newClient.code ≠ Kind.clientLeave.code
    decide
  | chat kind member =>
    rw [h.mail_chat kind past p, if_pos hp] at hnotices ⊢
    rw [foldlM_applyInTable, hnotices]
    intro m hm
    rw [List.mem_singleton.mp hm]
    show Kind.messageFromClient.code ≠ Kind.clientLeave.code
    decide
  | leave kind member =>
    rcases h.mail_leave kind member past p with ⟨text, htext⟩
    -- the one who leaves is the last one, or the list is not full
    have hfits := hlast kind
    have hmem : msg.fromMessage ∈ R.members.map Prod.fst := member
    rw [htext, if_pos (by rwa [Room.next_leave kind] at hp'), Room.next_leave kind]
    simp [applyInTable, applyNotice, Message.readdress, Message.withCategory, Room.leave, -List.mem_map,
      hmem, hfits]

/-- A member after a regular message was one before, or is the newcomer; either
is sent what it reads within its table. -/
theorem Holds.inTable (h : s.Holds R) (hm : R.Regular msg) (hadv : advance ph msg = some ph')
    (past : InfoClients)
    (hlast : msg.mtype = Kind.clientLeave.code → Fits R.members msg.fromMessage)
    (hplain : msg.mtype = Kind.newClient.code → Plain R.history)
    (htexts : ∀ e ∈ R.history, NoNul e.1) {p : Int} (hp : p ∈ (R.next msg).pids) :
    (p ∈ R.pids ∧
      (mail Message.mtype p (QueueChat.iteration past msg s).2).foldlM applyInTable R.members =
        some (R.next msg).members) ∨
    (ph p = .notStarted ∧
      (mail Message.mtype p (QueueChat.iteration past msg s).2).foldlM applyInTable [] =
        some (R.next msg).members) := by
  by_cases hold : p ∈ R.pids
  · exact Or.inl ⟨hold, h.inTable_member hm past hold hp hlast⟩
  · right
    cases hm with
    | join kind fresh room =>
      rw [Room.next_join kind, Room.pids_join, List.mem_append, List.mem_singleton] at hp
      obtain rfl := hp.resolve_left hold
      -- the newcomer has not been started before
      rcases advance_cases hadv with ⟨-, hph, -⟩ | ⟨hk, -, -⟩ | ⟨hk, -, -⟩
      · exact ⟨hph, h.inTable_newcomer kind fresh room past (hplain kind) htexts⟩
      · rw [kind] at hk
        exact absurd hk (by decide)
      · rw [kind] at hk
        exact absurd hk (by decide)
    | chat kind member =>
      rw [Room.next_chat kind, Room.pids_say] at hp
      exact absurd hp hold
    | leave kind member =>
      rw [Room.next_leave kind, Room.mem_pids_leave h.nodup] at hp
      exact absurd hp.1 hold

end Server

/-- The history has no NUL in it. -/
theorem Room.Regular.texts_next {R : Room} {msg : Message} (hm : R.Regular msg)
    (htexts : ∀ e ∈ R.history, NoNul e.1) : ∀ e ∈ (R.next msg).history, NoNul e.1 := by
  cases hm with
  | join kind fresh room =>
    rw [Room.next_join kind]
    exact htexts
  | chat kind member =>
    intro e he
    rw [Room.next_chat kind, Room.say, List.mem_append, List.mem_singleton] at he
    rcases he with he | rfl
    · exact htexts e he
    · exact ((noNul_cstr _).append (by decide)).append (noNul_cstr _)
  | leave kind member =>
    rw [Room.next_leave kind]
    exact htexts

/-! ## Runs -/

/-- What every client still has to read keeps it within its table, and tells a
member of the server's roster. -/
structure Informed (s : System) (R : Room) (ph : Int → Status) : Prop extends Follows s R ph where
  texts : ∀ e ∈ R.history, NoNul e.1
  blank : ∀ p, ph p = .notStarted → (s.client p).roster.Holds []
  feeds : ∀ p, ∃ L L', (s.client p).roster.Holds L ∧
    (mail Message.mtype p s.queue1).foldlM applyInTable L = some L' ∧ (p ∈ R.pids → L' = R.members)

namespace Informed

variable {s : System} {R : Room} {ph : Int → Status}

theorem init (junk : Fin sizeClients → InfoClients) :
    Informed (System.init junk) ⟨[], []⟩ fun _ => .notStarted where
  toFollows := .init junk
  texts := by simp
  blank := fun p _ => ⟨by simp [System.init, zeroRoster], rfl, by simp, rfl⟩
  feeds := fun p =>
    ⟨[], [], ⟨by simp [System.init, zeroRoster], rfl, by simp, rfl⟩, rfl, by simp [Room.pids]⟩

theorem post (h : Informed s R ph) {pid : Int} {msg : Message} {st : Status}
    (hadv : advance s.statuses msg = some (s.post pid msg st).statuses) :
    Informed (s.post pid msg st) R ph where
  toFollows := h.toFollows.post hadv
  texts := h.texts
  blank := by
    intro p hp
    rw [System.post_roster]
    exact h.blank p hp
  feeds := by
    intro p
    rw [System.post_roster]
    exact h.feeds p

theorem serve (h : Informed s R ph) {past : InfoClients} {msg : Message} {rest : List Message}
    {ph' : Int → Status} (hadv : advance ph msg = some ph')
    (hpend : rest.foldlM advance ph' = some s.statuses) (hreg : R.Regular msg)
    (hlast : msg.mtype = Kind.clientLeave.code → Fits R.members msg.fromMessage)
    (hplain : msg.mtype = Kind.newClient.code → Plain R.history) :
    Informed
      { s with
        server := (iteration past msg s.server).1
        queue0 := rest
        queue1 := s.queue1 ++ (iteration past msg s.server).2 } (R.next msg) ph' where
  toFollows := h.toFollows.serve hadv hpend hreg
  texts := hreg.texts_next h.texts
  blank := fun p hp => h.blank p (advance_notStarted hadv hp)
  feeds := by
    intro p
    rcases h.feeds p with ⟨L, L', hL, hfold, hmembers⟩
    rw [mail_append]
    by_cases hp : p ∈ (R.next msg).pids
    · rcases h.server.inTable hreg hadv past hlast hplain h.texts hp with ⟨hold, hnew⟩ | ⟨hp0, hnew⟩
      · rw [hmembers hold] at hfold
        refine ⟨L, _, hL, ?_, fun _ => rfl⟩
        rw [List.foldlM_append, hfold]
        exact hnew
      · -- the newcomer: its table is empty and nothing was sent to it before
        refine ⟨[], _, h.blank p hp0, ?_, fun _ => rfl⟩
        rw [h.strangers p hp0, List.nil_append]
        exact hnew
    · refine ⟨L, L', hL, ?_, fun hin => absurd hin hp⟩
      rw [h.server.mail_stranger hreg past hp, List.append_nil]
      exact hfold

/-- One delivery: the client reads the head of its mail within its table. -/
theorem deliver (h : Informed s R ph) {pid : Int} {past : InfoClients} {msg : Message}
    {rest : List Message} (hq : receive Message.mtype pid s.queue1 = some (msg, rest)) :
    Informed
      { s.setClient pid
          { s.client pid with roster := Client.readQueue past msg (s.client pid).roster } with
        queue1 := rest } R ph where
  toFollows := h.toFollows.deliver hq _
  texts := h.texts
  blank := by
    intro p hp
    exact h.blank_deliver h.blank hq _ hp
  feeds := by
    intro p
    rcases h.feeds p with ⟨L, L', hL, hfold, hmembers⟩
    by_cases hpid : p = pid
    · subst hpid
      rw [mail_receive _ hq, List.foldlM_cons] at hfold
      -- what has been read is off the feed, and the rest still fits
      cases hnotice : applyInTable L msg with
      | none => simp [hnotice] at hfold
      | some L₁ =>
        rw [hnotice] at hfold
        refine ⟨L₁, L', ?_, hfold, hmembers⟩
        simpa [System.setClient] using Client.readQueue_holds hL (applyNotice_of_inTable hnotice) past
    · refine ⟨L, L', ?_, ?_, hmembers⟩
      · simpa [System.setClient, hpid] using hL
      · rw [mail_receive_ne _ hq hpid]
        exact hfold

/-- The next message of a client is read within its table. -/
theorem inTable (h : Informed s R ph) {pid : Int} {msg : Message} {rest : List Message}
    (hq : receive Message.mtype pid s.queue1 = some (msg, rest)) :
    ∀ k ∈ Client.readQueueTouched msg (s.client pid).roster, InTable k := by
  rcases h.feeds pid with ⟨L, L', hL, hfold, -⟩
  rw [mail_receive _ hq, List.foldlM_cons] at hfold
  cases hnotice : applyInTable L msg with
  | none => simp [hnotice] at hfold
  | some L₁ => exact Client.mem_readQueueTouched hL hnotice

end Informed

/-- A run in which only the last of ten leaves, and histories are replayed as lines. -/
theorem informed_of_run {junk : Fin sizeClients → InfoClients} {ls : List Label} {s : System}
    (h : Machine.Run System.step (fun s l => FindsRoom s l ∧ LastLeaves s l ∧ ReplaysLines s l)
      (System.init junk) ls s) : ∃ R ph, Informed s R ph := by
  apply h.invariant fun s => ∃ R ph, Informed s R ph
  · exact ⟨_, _, Informed.init junk⟩
  · rintro s l s' ⟨R, ph, h⟩ ⟨hroom, hlast, hplain⟩ hs
    apply System.step_keeps (P := fun s => ∃ R ph, Informed s R ph) hs ⟨R, ph, h⟩
    · intro pid msg st hadv
      exact ⟨R, ph, h.post hadv⟩
    · rintro past msg rest rfl hq
      have hhead : msg ∈ s.queue0.head? := by
        rw [hq]
        rfl
      rcases h.head hq (hroom msg hhead) with ⟨ph', hadv, hpend, hreg⟩
      refine ⟨_, ph', h.serve hadv hpend hreg ?_ ?_⟩
      · intro kind
        have hmem := (h.tracks msg.fromMessage).mp (advance_leave hadv kind).1
        exact (h.server.last_iff hmem).mp (hlast msg hhead kind)
      · intro kind
        rw [← h.server.store.entries]
        exact hplain msg hhead kind
    · intro pid past msg rest hq
      exact ⟨R, ph, h.deliver hq⟩

/-- What the server touches in a step of a run, by the rule of that step. -/
theorem server_inTable_iff {s : System} {R : Room} {ph : Int → Status} (h : Follows s R ph)
    {past : InfoClients} {msg : Message} (hhead : msg ∈ s.queue0.head?)
    (hroom : FindsRoom s (.serve past)) :
    (∀ k ∈ readQueueTouched msg s.server, InTable k) ↔ LastLeaves s (.serve past) := by
  obtain ⟨rest, hq⟩ : ∃ rest, s.queue0 = msg :: rest := by
    cases hqueue : s.queue0 with
    | nil =>
      rw [hqueue] at hhead
      cases hhead
    | cons m rest =>
      rw [hqueue] at hhead
      cases hhead
      exact ⟨rest, rfl⟩
  rcases h.head hq (hroom msg hhead) with ⟨ph', hadv, -, hreg⟩
  rw [h.server.readQueueTouched_iff hreg]
  constructor
  · intro hfits m hm kind
    obtain rfl := Option.some.inj (hhead.symm.trans hm)
    have hmem := (h.tracks msg.fromMessage).mp (advance_leave hadv kind).1
    exact (h.server.last_iff hmem).mpr (hfits kind)
  · intro hlast kind
    have hmem := (h.tracks msg.fromMessage).mp (advance_leave hadv kind).1
    exact (h.server.last_iff hmem).mp (hlast msg hhead kind)

/-- In every run in which joins find room: the server and all clients stay within
their tables as long as only the last of ten registered clients leaves, and
nobody joins while a line of the store would be replayed as a notice. The first
condition is also necessary. -/
theorem indices_in_range (junk : Fin sizeClients → InfoClients) (ls : List Label) (s : System)
    (hrun : Machine.Run System.step FindsRoom (System.init junk) ls s) :
    (Machine.Run System.step (fun s l => FindsRoom s l ∧ LastLeaves s l ∧ ReplaysLines s l)
      (System.init junk) ls s → InRange junk ls) ∧
    (InRange junk ls →
      Machine.Run System.step (fun s l => FindsRoom s l ∧ LastLeaves s l) (System.init junk) ls s) := by
  constructor
  · intro hgood
    constructor
    · intro ls' past t msg hpre ht hhead
      rcases hgood.ok_of_prefix hpre with ⟨t', ht', hroom, hlast, -⟩
      -- a part of the run is a run that meets the conditions
      obtain rfl := ht.unique ht'
      rcases follows_of_run ht with ⟨R, ph, h⟩
      exact (server_inTable_iff h hhead hroom).mpr hlast
    · intro ls' pid past t msg rest hpre ht hq
      rcases hgood.ok_of_prefix hpre with ⟨t', ht', -⟩
      obtain rfl := ht.unique ht'
      rcases informed_of_run ht' with ⟨R, ph, h⟩
      exact h.inTable hq
  · intro hrange
    apply hrun.and_of_prefix LastLeaves
    intro ls' l t hpre ht hroom
    cases l with
    -- only the server decides about leaves
    | serve past =>
      rcases follows_of_run ht with ⟨R, ph, h⟩
      intro msg hhead
      exact (server_inTable_iff h hhead hroom).mp (hrange.server ls' past t msg hpre ht hhead) msg hhead
    | start pid name => trivial
    | type pid typed => trivial
    | deliver pid past => trivial

/-- A client joins and says `x`, another one joins, the first one leaves, and
both read what they are sent. -/
def firstOfTwo : List Label :=
  [.start 1 (ascii ['a']), .serve ⟨[], 0⟩, .deliver 1 ⟨[], 0⟩,
    .type 1 (ascii ['x']), .serve ⟨[], 0⟩, .deliver 1 ⟨[], 0⟩,
    .start 2 (ascii ['b']), .serve ⟨[], 0⟩, .deliver 1 ⟨[], 0⟩] ++
    List.replicate 3 (.deliver 2 ⟨[], 0⟩) ++
    [.type 1 exitWord, .serve ⟨[], 0⟩, .deliver 2 ⟨[], 0⟩, .deliver 2 ⟨[], 0⟩]

/-- The store has a line of four bytes when the second client joins. -/
theorem indices_in_range_firstOfTwo :
    ∃ s, Machine.Run System.step (fun s l => FindsRoom s l ∧ LastLeaves s l ∧ ReplaysLines s l)
        (System.init fun _ => ⟨[], 0⟩) firstOfTwo s ∧
      s.server.roster.sizeInfcl = 1 ∧ InRange (fun _ => ⟨[], 0⟩) firstOfTwo := by
  have hrun : (Machine.exec (Machine.guarded System.step fun s l => FindsRoom s l ∧
      LastLeaves s l ∧ ∀ e ∈ s.server.storeMsg.entries, e.1.length ≠ 265)
      (System.init fun _ => ⟨[], 0⟩) firstOfTwo).map (fun s => s.server.roster.sizeInfcl) =
        some 1 := by
    decide +kernel
  rcases Machine.Run.exists_of_exec hrun with ⟨s, hs, hsize⟩
  have hgood : Machine.Run System.step (fun s l => FindsRoom s l ∧ LastLeaves s l ∧ ReplaysLines s l)
      (System.init fun _ => ⟨[], 0⟩) firstOfTwo s := by
    apply hs.mono
    rintro t l ⟨hroom, hlast, hshort⟩
    refine ⟨hroom, hlast, ?_⟩
    cases l with
    | serve past =>
      intro msg _ _ pre e post heq _ hlen
      exact absurd hlen (hshort e (by simp [heq]))
    | start pid name => trivial
    | type pid typed => trivial
    | deliver pid past => trivial
  exact ⟨s, hgood, hsize,
    (indices_in_range _ _ s (hgood.mono fun _ _ hok => hok.1)).1 hgood⟩

/-- Ten clients join, and the first one leaves. -/
def firstOfTen : List Label :=
  ((List.range 10).flatMap fun n => [.start (n + 1) (ascii ['a']), .serve ⟨[], 0⟩]) ++
    [.type 1 exitWord]

/-- The server reads `infCl[10]`. -/
theorem firstOfTen_not_in_range :
    ∃ s, Machine.Run System.step FindsRoom (System.init fun _ => ⟨[], 0⟩) (firstOfTen ++ [.serve ⟨[], 0⟩]) s ∧
      ¬ InRange (fun _ => ⟨[], 0⟩) (firstOfTen ++ [.serve ⟨[], 0⟩]) := by
  have hbefore : (Machine.exec (Machine.guarded System.step FindsRoom) (System.init fun _ => ⟨[], 0⟩)
      firstOfTen).map (fun s => s.queue0.head?.any fun msg => 10 ∈ readQueueTouched msg s.server) =
        some true := by
    decide +kernel
  have hafter : (Machine.exec (Machine.guarded System.step FindsRoom) (System.init fun _ => ⟨[], 0⟩)
      (firstOfTen ++ [.serve ⟨[], 0⟩])).map (fun s => s.server.roster.sizeInfcl) = some 9 := by
    decide +kernel
  rcases Machine.Run.exists_of_exec hbefore with ⟨t, ht, hreads⟩
  rcases Machine.Run.exists_of_exec hafter with ⟨s, hs, -⟩
  refine ⟨s, hs, ?_⟩
  intro hrange
  rcases (Option.any_eq_true _ _).mp hreads with ⟨msg, hhead, hmem⟩
  have hout := hrange.server firstOfTen ⟨[], 0⟩ t msg (List.prefix_refl _) ht hhead 10
    (of_decide_eq_true hmem)
  exact absurd hout.2 (by decide)

/-- The second client is replayed a line of 265 bytes that ends in the byte of
`CLIENT_LEAVE`, and takes the first one out of its table, which then leaves. -/
def controlByte : List Label :=
  [.start 1 (List.replicate 8 97), .serve ⟨[], 0⟩, .type 1 (List.replicate 254 98 ++ [4]), .serve ⟨[], 0⟩,
    .start 2 (ascii ['b']), .serve ⟨[], 0⟩, .deliver 2 ⟨[], 0⟩, .deliver 2 ⟨[], 0⟩, .deliver 2 ⟨[], 0⟩,
    .type 1 exitWord, .serve ⟨[], 0⟩, .deliver 2 ⟨[], 0⟩]

/-- With two clients, and the condition on leaves met: the second one writes `infCl[-1]`. -/
theorem controlByte_not_in_range :
    ∃ s, Machine.Run System.step (fun s l => FindsRoom s l ∧ LastLeaves s l)
        (System.init fun _ => ⟨[], 0⟩) (controlByte ++ [.deliver 2 ⟨[], 0⟩]) s ∧
      ¬ InRange (fun _ => ⟨[], 0⟩) (controlByte ++ [.deliver 2 ⟨[], 0⟩]) := by
  have hbefore : (Machine.exec (Machine.guarded System.step FindsRoom) (System.init fun _ => ⟨[], 0⟩)
      controlByte).map (fun s => (receive Message.mtype 2 s.queue1).any fun q =>
        -1 ∈ Client.readQueueTouched q.1 (s.client 2).roster) = some true := by
    decide +kernel
  have hafter : (Machine.exec (Machine.guarded System.step fun s l => FindsRoom s l ∧ LastLeaves s l)
      (System.init fun _ => ⟨[], 0⟩) (controlByte ++ [.deliver 2 ⟨[], 0⟩])).map
        (fun s => s.server.roster.sizeInfcl) = some 1 := by
    decide +kernel
  rcases Machine.Run.exists_of_exec hbefore with ⟨t, ht, hreads⟩
  rcases Machine.Run.exists_of_exec hafter with ⟨s, hs, -⟩
  refine ⟨s, hs, ?_⟩
  intro hrange
  rcases (Option.any_eq_true _ _).mp hreads with ⟨⟨msg, rest⟩, hq, hmem⟩
  have hout := hrange.client controlByte 2 ⟨[], 0⟩ t msg rest (List.prefix_refl _) ht hq (-1)
    (of_decide_eq_true hmem)
  exact absurd hout.1 (by decide)

end EmbeddedCourse.QueueChat
