import EmbeddedCourse.QueueChat.Overrun
import EmbeddedCourse.QueueChat.Unruly

/-! # How many a client counts

A client's `sizeInfcl` is moved by the kinds of the messages it reads and by
nothing else. While joins find room and pids are distinct, a registered client
that has read all its messages counts what the server counts and the lines of
its replay that it has taken for joins or leaves. So whether any client ever
counts past its table can be told from the server's table and the lines in its
store (`Roomy`, `Counted.serve`).
-/

namespace EmbeddedCourse.QueueChat

open CString Chat Mailbox Client

/-! ## Running totals -/

/-- The highest of the running totals of `l`. -/
def peak : List Int → Int
  | [] => 0
  | x :: l => max 0 (x + peak l)

theorem peak_nonneg (l : List Int) : 0 ≤ peak l := by
  cases l with
  | nil => exact Int.le_refl 0
  | cons x l => exact Int.le_max_left ..

theorem peak_append (l l' : List Int) : peak (l ++ l') = max (peak l) (l.sum + peak l') := by
  induction l with
  | nil =>
    have hnonneg := peak_nonneg l'
    simp only [List.nil_append, peak, List.sum_nil]
    omega
  | cons x l ih =>
    rw [List.cons_append, peak, peak, ih, List.sum_cons]
    omega

theorem peak_replicate_one (n : ℕ) : peak (List.replicate n 1) = n := by
  induction n with
  | zero => rfl
  | succ n ih =>
    rw [List.replicate_succ, peak, ih]
    omega

/-- Every running total stays below the peak. -/
theorem sum_le_peak {l g : List Int} (h : g <+: l) : g.sum ≤ peak l := by
  rcases h with ⟨rest, rfl⟩
  induction g with
  | nil => exact peak_nonneg _
  | cons x g ih =>
    rw [List.cons_append, peak, List.sum_cons]
    omega

/-- The peak is one of them. -/
theorem exists_take_peak (l : List Int) : ∃ n, (l.take n).sum = peak l := by
  induction l with
  | nil => exact ⟨0, rfl⟩
  | cons x l ih =>
    rcases ih with ⟨n, hn⟩
    rcases Int.lt_or_le (x + peak l) 0 with hneg | hpos
    · refine ⟨0, ?_⟩
      rw [List.take_zero, List.sum_nil, peak]
      omega
    · refine ⟨n + 1, ?_⟩
      rw [List.take_succ_cons, List.sum_cons, hn, peak]
      omega

/-! ## What a client counts -/

/-- What a message of this category adds to a client's `sizeInfcl`. -/
def counts (category : Int) : Int :=
  if category = Kind.newClient.code then 1
  else if category = Kind.clientLeave.code then -1
  else 0

def gain (m : Message) : Int := counts m.categoriyMessage

def tally (ms : List Message) : Int := (ms.map gain).sum

@[simp] theorem tally_nil : tally [] = 0 := rfl

@[simp] theorem tally_cons (m : Message) (ms : List Message) :
    tally (m :: ms) = gain m + tally ms := by
  simp [tally]

@[simp] theorem tally_append (ms ms' : List Message) :
    tally (ms ++ ms') = tally ms + tally ms' := by
  simp [tally]

theorem readAll_sizeInfcl (r : Roster) (got : List (Message × InfoClients)) :
    (readAll r got).sizeInfcl = r.sizeInfcl + tally (got.map Prod.fst) := by
  induction got generalizing r with
  | nil => simp [readAll]
  | cons e got ih =>
    have hone : (Client.readQueue e.2 e.1 r).sizeInfcl = r.sizeInfcl + gain e.1 := by
      unfold Client.readQueue gain counts
      by_cases hnew : e.1.categoriyMessage = Kind.newClient.code
      · simp [hnew, Roster.append]
      · by_cases hleave : e.1.categoriyMessage = Kind.clientLeave.code
        · simp [hleave, Roster.removeAt]
          rfl
        · simp [hnew, hleave]
    show (readAll (Client.readQueue e.2 e.1 r) got).sizeInfcl = _
    rw [ih, hone, List.map_cons, tally_cons]
    omega

/-- The most that a client counts while it reads `ms`. -/
def crest (ms : List Message) : Int := peak (ms.map gain)

@[simp] theorem crest_nil : crest [] = 0 := rfl

theorem crest_append (ms ms' : List Message) :
    crest (ms ++ ms') = max (crest ms) (tally ms + crest ms') := by
  rw [crest, List.map_append, peak_append]
  rfl

theorem tally_le_crest (ms : List Message) : tally ms ≤ crest ms :=
  sum_le_peak (List.prefix_refl _)

/-- However far a client has read, and whatever stray cells it has met, it
counts at most `b`. -/
theorem readAll_le_iff {ms : List Message} {b : Int} :
    (∀ got : List (Message × InfoClients), got.map Prod.fst <+: ms →
      (readAll zeroRoster got).sizeInfcl ≤ b) ↔ crest ms ≤ b := by
  have hzero : zeroRoster.sizeInfcl = 0 := rfl
  constructor
  · intro h
    rcases exists_take_peak (ms.map gain) with ⟨n, hn⟩
    have hgot :
        ((ms.take n).map fun m => (m, (⟨[], 0⟩ : InfoClients))).map Prod.fst = ms.take n := by
      rw [List.map_map]
      exact List.map_id _
    have hle := h _ (hgot ▸ List.take_prefix n ms)
    rw [readAll_sizeInfcl, hgot, hzero, Int.zero_add, tally, List.map_take, hn] at hle
    exact hle
  · intro h got hgot
    have hle := sum_le_peak (hgot.map gain)
    rw [readAll_sizeInfcl, hzero, Int.zero_add]
    exact Int.le_trans hle h

/-! ## The lines of a replay -/

/-- What a newcomer counts of each line of a history: the loop starts with
`category` in `categoriy_message`, and a line of 265 bytes puts its last byte
there. Behind a longer line nothing is a notice. -/
def ghosts (category : Int) : List (Bytes × Int) → List Int
  | [] => []
  | e :: hist =>
    if 265 < e.1.length then List.replicate (hist.length + 1) 0
    else
      let category' := if e.1.length = 265 then ((e.1.getD 264 0).toNat : Int) else category
      counts category' :: ghosts category' hist

theorem gain_of_not_notice {m : Message} (h : ¬ m.IsNotice) : gain m = 0 := by
  rw [gain, counts, if_neg fun hnew => h (Or.inl hnew), if_neg fun hleave => h (Or.inr hleave)]

theorem gains_of_not_notice {ms : List Message} (h : ∀ m ∈ ms, ¬ m.IsNotice) :
    ms.map gain = List.replicate ms.length 0 := by
  rw [List.map_eq_replicate_iff]
  exact fun m hm => gain_of_not_notice (h m hm)

theorem gains_loop {hist : List (Bytes × Int)} (hnul : ∀ e ∈ hist, NoNul e.1) {msg : Message}
    (hlo : 0 ≤ msg.categoriyMessage) (hhi : msg.categoriyMessage < 256) :
    (sendLoop putLine msg hist).2.map gain = ghosts msg.categoriyMessage hist := by
  induction hist generalizing msg with
  | nil => rfl
  | cons e hist ih =>
    have htail := fun x hx => hnul x (List.mem_cons_of_mem e hx)
    rw [sendLoop, ghosts]
    rcases Nat.lt_or_ge 265 e.1.length with hlong | hshort
    · -- two bytes of the category are set from here on
      have hint : IsInt msg.categoriyMessage := by
        unfold IsInt
        omega
      rcases putLine_high hint (hnul e (by simp)) (Or.inl hlong) with ⟨hint', hhigh'⟩
      have hquiet := gains_of_not_notice (replay_high htail hint' hhigh')
      have hlen := congrArg List.length (map_sendLoop (f := putLine) Message.fromMessage Prod.snd
        (fun _ _ => rfl) (putLine msg e) hist)
      rw [List.length_map, List.length_map] at hlen
      rw [if_pos hlong, List.map_cons, hquiet, gain_of_not_notice (not_notice_of_high hhigh'), hlen,
        List.replicate_succ]
    · have hcat := putLine_low hlo hhi hshort
      have hbyte := (e.1.getD 264 0).toNat_lt
      have hnext : 0 ≤ (putLine msg e).categoriyMessage ∧
          (putLine msg e).categoriyMessage < 256 := by
        rw [hcat]
        split_ifs <;> omega
      rw [if_neg (by omega), List.map_cons, ih htail hnext.1 hnext.2, gain, hcat]

/-- What the newcomer of `msg` counts of the lines in the store of `s`. -/
def Server.ghosts (s : Server) : List Int :=
  QueueChat.ghosts Kind.messageFromClient.code s.storeMsg.entries

theorem gains_replay {s : Server} (hnul : ∀ e ∈ s.storeMsg.entries, NoNul e.1) (msg : Message) :
    (replay msg s).map gain = s.ghosts :=
  @gains_loop _ hnul (beforeHistory msg s)
    (by decide : (0 : Int) ≤ 2) (by decide : (2 : Int) < 256)

/-! ## One iteration -/

/-- The registered pids. -/
def Server.pids (s : Server) : List Int := s.roster.cells.map InfoClients.pid

/-- What an iteration from `s` to `s'` means for the pid `p` that is sent `new`. -/
inductive Heard (s s' : Server) (msg : Message) (p : Int) (new : List Message) : Prop where
  | stays (old : p ∈ s.pids) (now : p ∈ s'.pids)
      (count : tally new = s'.roster.sizeInfcl - s.roster.sizeInfcl)
      (top : crest new = max 0 (tally new))
  | joins (kind : msg.mtype = Kind.newClient.code) (self : p = msg.fromMessage)
      (count : p ∈ s'.pids → tally new = s'.roster.sizeInfcl + s'.ghosts.sum)
      (top : crest new = s'.pids.length + peak s'.ghosts)
  | absent (now : p ∉ s'.pids)
      (other : ¬ (msg.mtype = Kind.newClient.code ∧ p = msg.fromMessage))
      (quiet : new = [])

/-- The greeting announces the whole table. -/
theorem gains_greeting (msg : Message) {s : Server}
    (hcells : s.roster.cells.length = s.roster.sizeInfcl) (hsize : 1 ≤ s.roster.sizeInfcl) :
    (greeting msg s).map gain = List.replicate s.pids.length 1 := by
  have hlen : (greeting msg s).length = s.pids.length := by
    rw [greeting, Server.pids, List.length_map]
    split_ifs with hmany
    · have hloop := congrArg List.length (map_sendLoop (f := putMember) Message.fromMessage
        InfoClients.pid (fun _ _ => rfl) ((msg.withCategory .newClient).readdress msg.fromMessage)
        s.roster.cells)
      rwa [List.length_map, List.length_map] at hloop
    · rw [List.length_singleton]
      omega
  rw [← hlen, List.map_eq_replicate_iff]
  intro m hm
  rw [gain, greeting_category msg s m hm]
  rfl

section

variable {s s' : Server} {msg : Message}

/-- A join that fills a free cell. -/
theorem heard_joined {c : InfoClients} (hcells : s'.roster.cells = s.roster.cells ++ [c])
    (hcount : s.roster.cells.length = s.roster.sizeInfcl)
    (hsize : s'.roster.sizeInfcl = s.roster.sizeInfcl + 1) (hpid : c.pid = msg.fromMessage)
    (kind : msg.mtype = Kind.newClient.code) (hnd : s.pids.Nodup)
    (hfresh : msg.fromMessage ∉ s.pids)
    (hnul : ∀ e ∈ s'.storeMsg.entries, NoNul e.1) (p : Int) :
    s'.pids.Nodup ∧ Heard s s' msg p (mail Message.mtype p (writeQueue msg s')) := by
  have hpids : s'.pids = s.pids ++ [msg.fromMessage] := by
    rw [Server.pids, hcells, List.map_append, List.map_singleton, hpid]
    rfl
  have hcount' : s'.roster.cells.length = s'.roster.sizeInfcl := by
    rw [hcells, List.length_append, List.length_singleton, hsize, ← hcount]
    rfl
  have hlen : (s'.pids.length : Int) = s'.roster.sizeInfcl := by
    rw [Server.pids, List.length_map, hcount']
  have hgreet := gains_greeting msg hcount' (by omega)
  constructor
  · rw [hpids]
    exact hnd.append (List.nodup_singleton _) (by simpa using hfresh)
  · -- the newcomer hears of the whole table, a member of the newcomer, nobody else of anything
    rw [Server.mail_joined kind hcells (by omega) hpid hnd hfresh]
    split_ifs with hself hold
    · refine .joins kind hself (fun _ => ?_) ?_
      · rw [tally, List.map_append, List.sum_append, hgreet, gains_replay hnul,
          List.sum_replicate_int, Int.mul_one, hlen]
      · have hnonneg := peak_nonneg s'.ghosts
        rw [crest, List.map_append, peak_append, hgreet, gains_replay hnul, peak_replicate_one,
          List.sum_replicate_int, Int.mul_one]
        omega
    · refine .stays hold ?_ ?_ rfl
      · rw [hpids]
        exact List.mem_append_left _ hold
      · simp [gain, counts, Message.withCategory, Message.readdress, hsize]
    · refine .absent ?_ (fun h => hself h.2) rfl
      rw [hpids, List.mem_append, List.mem_singleton]
      exact not_or.mpr ⟨hold, hself⟩

/-- A join while the counter is below zero: nobody is registered. -/
theorem heard_lost (hcells : s'.roster.cells = []) (hsize : s'.roster.sizeInfcl ≤ 0)
    (kind : msg.mtype = Kind.newClient.code)
    (hnul : ∀ e ∈ s'.storeMsg.entries, NoNul e.1) (p : Int) :
    s'.pids.Nodup ∧ Heard s s' msg p (mail Message.mtype p (writeQueue msg s')) := by
  have hpids : s'.pids = [] := by rw [Server.pids, hcells, List.map_nil]
  have hsent : writeQueue msg s' = replay msg s' := by
    rw [Server.writeQueue_newClient kind, hcells, if_neg (by omega)]
    rfl
  rw [hsent]
  refine ⟨hpids ▸ List.nodup_nil, ?_⟩
  by_cases hself : p = msg.fromMessage
  · subst hself
    rw [mail_eq_self _ (replay_mtype msg s')]
    refine .joins kind rfl (fun hp => absurd (hpids ▸ hp) List.not_mem_nil) ?_
    rw [crest, gains_replay hnul, hpids]
    simp
  · rw [(mail_eq_nil_iff _).mpr fun m hm => replay_mtype msg s' m hm ▸ Ne.symm hself]
    exact .absent (hpids ▸ List.not_mem_nil) (fun h => hself h.2) rfl

/-- An iteration that registers nobody and sends `new p` to each registered `p`. -/
theorem heard_member (new : Int → List Message) (hsub : s'.pids.Sublist s.pids)
    (hnd : s.pids.Nodup)
    (hkind : msg.mtype ≠ Kind.newClient.code)
    (hcount : ∀ p, tally (new p) = s'.roster.sizeInfcl - s.roster.sizeInfcl)
    (htop : ∀ p, crest (new p) = max 0 (tally (new p))) {sent : List Message}
    (hmail : s'.pids.Nodup → ∀ p,
      mail Message.mtype p sent = if p ∈ s'.pids then new p else [])
    (p : Int) : s'.pids.Nodup ∧ Heard s s' msg p (mail Message.mtype p sent) := by
  have hnd' := hnd.sublist hsub
  refine ⟨hnd', ?_⟩
  rw [hmail hnd']
  split_ifs with hp
  · exact .stays (hsub.subset hp) hp (hcount p) (htop p)
  · exact .absent hp (fun h => hkind h.1) rfl

/-- What any iteration means for any pid. -/
theorem heard (h : s.Fits) (hnd : s.pids.Nodup)
    (hjoin : msg.mtype = Kind.newClient.code → s.roster.sizeInfcl < sizeClients ∧
      msg.fromMessage ∉ s.pids) {past : InfoClients}
    (hnul : ∀ e ∈ (iteration past msg s).1.storeMsg.entries, NoNul e.1) (p : Int) :
    (iteration past msg s).1.pids.Nodup ∧
      Heard s (iteration past msg s).1 msg p (mail Message.mtype p (iteration past msg s).2) := by
  have hlen := h.length
  have hsize := h.size
  rw [iteration] at hnul ⊢
  cases branch s msg with
  | full kind hfull => exact absurd (hjoin kind).1 (by omega)
  | join kind hroom =>
    rw [readQueue_join past kind hroom] at hnul ⊢
    rcases h.cells_append hroom ⟨strncpy (List.replicate 20 0) msg.mtext 19, msg.fromMessage⟩ with
      ⟨hpos, hcells⟩ | ⟨hneg, hcells⟩
    · refine heard_joined hcells ?_ rfl rfl kind hnd (hjoin kind).2 hnul p
      rw [Roster.cells, List.length_take_of_le (by omega)]
      omega
    · refine heard_lost hcells ?_ kind hnul p
      simp only [Roster.append]
      omega
  | chat kind =>
    rw [readQueue_chat past kind]
    refine heard_member _ ?_ hnd ?_ ?_ ?_ (fun hnd' p => Server.mail_said ?_ hnd' p) p
    · exact List.Sublist.refl _
    · simp [kind]
    · simp [gain, counts, Message.withCategory, Message.readdress]
    · exact fun _ => rfl
    · rw [copyText_mtype, kind]
  | leave kind =>
    rw [readQueue_leave past kind]
    refine heard_member _ ?_ hnd ?_ ?_ ?_ (fun hnd' p => Server.mail_left ?_ hnd' p) p
    · exact (Roster.cells_removeAt_sublist past (neg_one_le_findNameClient ..)
        (by rw [hlen]; exact hsize)).map _
    · simp [kind]
    · intro p
      show (-1 : Int) = s.roster.sizeInfcl - 1 - s.roster.sizeInfcl
      omega
    · exact fun _ => rfl
    · exact kind
  | other hread hwrite =>
    rw [hread, hwrite]
    by_cases kind : msg.mtype = Kind.newClient.code
    · -- a join has a branch of its own
      have hfull := congrArg (fun r => r.2.roster.sizeInfcl) (hread past)
      rw [readQueue_join past kind (hjoin kind).1] at hfull
      simp only [Roster.append] at hfull
      omega
    · exact heard_member (fun _ => []) (List.Sublist.refl _) hnd kind (by simp) (by simp)
        (fun _ p => by simp) p

end

/-! ## A whole run -/

/-- `joined` are the pids of all joins so far, `surplus p` is what `p` has counted
of its replay, and `sent` is everything ever put on queue 1: a registered client
counts what the server counts and what it has of its replay. -/
structure Counted (s : Server) (joined : List Int) (surplus : Int → Int)
    (sent : List Message) : Prop where
  fits : s.Fits
  store : ∃ hist, s.storeMsg.Holds hist ∧ ∀ e ∈ hist, NoNul e.1
  nodup : s.pids.Nodup
  known : ∀ p ∈ s.pids, p ∈ joined
  strangers : ∀ p, p ∉ joined → mail Message.mtype p sent = []
  synced : ∀ p ∈ s.pids, tally (mail Message.mtype p sent) = s.roster.sizeInfcl + surplus p

/-- `surplus` after the iteration of `msg` that leads to `s'`. -/
def surplusAfter (msg : Message) (s' : Server) (surplus : Int → Int) (p : Int) : Int :=
  if msg.mtype = Kind.newClient.code ∧ p = msg.fromMessage then s'.ghosts.sum else surplus p

/-- The iteration that leads to `s'` leaves every client with room: a newcomer
while it reads its replay, and who is registered when it has read everything. -/
def RoomyStep (msg : Message) (s' : Server) (surplus : Int → Int) : Prop :=
  (msg.mtype = Kind.newClient.code → (s'.pids.length : Int) + peak s'.ghosts ≤ sizeClients) ∧
    ∀ p ∈ s'.pids, (s'.pids.length : Int) + surplusAfter msg s' surplus p ≤ sizeClients

instance (msg : Message) (s' : Server) (surplus : Int → Int) :
    Decidable (RoomyStep msg s' surplus) :=
  inferInstanceAs (Decidable (_ ∧ _))

/-- The clients in the table, and the lines that one of them has taken for joins
less those that it has taken for leaves, never pass `SIZE_CLIENTS`. -/
def Roomy (s : Server) (surplus : Int → Int) : List (Message × InfoClients) → Prop
  | [] => True
  | (msg, past) :: feed =>
    let s' := (iteration past msg s).1
    RoomyStep msg s' surplus ∧ Roomy s' (surplusAfter msg s' surplus) feed

instance decidableRoomy :
    (s : Server) → (surplus : Int → Int) → (feed : List (Message × InfoClients)) →
    Decidable (Roomy s surplus feed)
  | _, _, [] => isTrue trivial
  | s, surplus, (msg, past) :: feed =>
    have := decidableRoomy (iteration past msg s).1
      (surplusAfter msg (iteration past msg s).1 surplus) feed
    inferInstanceAs (Decidable (RoomyStep msg (iteration past msg s).1 surplus ∧
      Roomy (iteration past msg s).1 (surplusAfter msg (iteration past msg s).1 surplus) feed))

namespace Counted

variable {s : Server} {joined : List Int} {surplus : Int → Int} {sent : List Message}
  {e : Message × InfoClients}

theorem init (junk : Fin sizeClients → InfoClients) :
    Counted (Server.init junk) [] (fun _ => 0) [] where
  fits := .init junk
  store := ⟨[], StoreMessage.holds_init, by simp⟩
  nodup := by simp [Server.pids, Server.init, Roster.cells]
  known := by simp [Server.pids, Server.init, Roster.cells]
  strangers := fun _ _ => rfl
  synced := by simp [Server.pids, Server.init, Roster.cells]

/-- Stored lines are strings. -/
theorem store_next (h : Counted s joined surplus sent) (e : Message × InfoClients) :
    ∃ hist, (iteration e.2 e.1 s).1.storeMsg.Holds hist ∧ ∀ l ∈ hist, NoNul l.1 := by
  rcases h.store with ⟨hist, hhist, hnul⟩
  rcases store_iteration hhist e.2 e.1 with ⟨new, hnew, hlines⟩
  refine ⟨hist ++ new, hnew, ?_⟩
  intro l hl
  rcases List.mem_append.mp hl with hl | hl
  · exact hnul l hl
  · exact (hlines l hl).2

theorem heard (h : Counted s joined surplus sent)
    (hjoin : e.1.mtype = Kind.newClient.code → s.roster.sizeInfcl < sizeClients ∧
      e.1.fromMessage ∉ joined) (p : Int) :
    (iteration e.2 e.1 s).1.pids.Nodup ∧
      Heard s (iteration e.2 e.1 s).1 e.1 p (mail Message.mtype p (iteration e.2 e.1 s).2) := by
  rcases h.store_next e with ⟨hist, hhist, hnul⟩
  exact QueueChat.heard h.fits h.nodup
    (fun kind => ⟨(hjoin kind).1, fun hmem => (hjoin kind).2 (h.known _ hmem)⟩)
    (hhist.entries ▸ hnul) p

/-- One iteration keeps the counts. -/
theorem step (h : Counted s joined surplus sent)
    (hjoin : e.1.mtype = Kind.newClient.code → s.roster.sizeInfcl < sizeClients ∧
      e.1.fromMessage ∉ joined) :
    Counted (iteration e.2 e.1 s).1 (joined ++ joiners [e])
      (surplusAfter e.1 (iteration e.2 e.1 s).1 surplus)
      (sent ++ (iteration e.2 e.1 s).2) := by
  have hheard := h.heard hjoin
  -- whoever joins now has joined
  have hself : e.1.mtype = Kind.newClient.code → e.1.fromMessage ∈ joined ++ joiners [e] := by
    intro kind
    simp [joiners, kind]
  refine ⟨h.fits.iteration e.2 e.1, h.store_next e, (hheard 0).1, ?_, ?_, ?_⟩
  · intro p hp
    cases (hheard p).2 with
    | stays old now count top => exact List.mem_append_left _ (h.known p old)
    | joins kind self count top => exact self ▸ hself kind
    | absent now other quiet => exact absurd hp now
  · intro p hp
    have hold : p ∉ joined := fun hmem => hp (List.mem_append_left _ hmem)
    rw [mail_append, h.strangers p hold, List.nil_append]
    cases (hheard p).2 with
    | stays old now count top => exact absurd (h.known p old) hold
    | joins kind self count top => exact absurd (self ▸ hself kind) hp
    | absent now other quiet => exact quiet
  · intro p hp
    rw [mail_append, tally_append, surplusAfter]
    cases (hheard p).2 with
    | stays old now count top =>
      have hother : ¬ (e.1.mtype = Kind.newClient.code ∧ p = e.1.fromMessage) := by
        rintro ⟨kind, rfl⟩
        exact (hjoin kind).2 (h.known _ old)
      rw [if_neg hother, h.synced p old, count]
      omega
    | joins kind self count top =>
      rw [if_pos ⟨kind, self⟩, h.strangers p (self ▸ (hjoin kind).2), count hp, tally_nil]
      omega
    | absent now other quiet => exact absurd hp now

/-- An iteration takes a client past `SIZE_CLIENTS` exactly when it is not roomy. -/
theorem step_crest_iff (h : Counted s joined surplus sent)
    (hjoin : e.1.mtype = Kind.newClient.code → s.roster.sizeInfcl < sizeClients ∧
      e.1.fromMessage ∉ joined) :
    (∀ p, crest (mail Message.mtype p (sent ++ (iteration e.2 e.1 s).2)) ≤ sizeClients) ↔
      (∀ p, crest (mail Message.mtype p sent) ≤ sizeClients) ∧
        RoomyStep e.1 (iteration e.2 e.1 s).1 surplus := by
  have hheard := h.heard hjoin
  have hnext := h.step hjoin
  -- who is registered counts the table and its ghosts
  have hlen : ∀ p ∈ (iteration e.2 e.1 s).1.pids,
      ((iteration e.2 e.1 s).1.pids.length : Int) = (iteration e.2 e.1 s).1.roster.sizeInfcl := by
    intro p hp
    have hpos : 0 < (iteration e.2 e.1 s).1.pids.length := List.length_pos_of_mem hp
    have hfull := hnext.fits.length
    have hsize := hnext.fits.size
    rw [Server.pids, List.length_map, Roster.cells, List.length_take] at hpos ⊢
    omega
  simp only [mail_append, crest_append]
  constructor
  · intro hall
    refine ⟨fun p => Int.le_trans (Int.le_max_left ..) (hall p), ?_, ?_⟩
    · intro kind
      have hle := hall e.1.fromMessage
      cases (hheard e.1.fromMessage).2 with
      | stays old now count top => exact absurd (h.known _ old) (hjoin kind).2
      | joins _ self count top =>
        rw [h.strangers _ (hjoin kind).2, top, tally_nil] at hle
        omega
      | absent now other quiet => exact absurd ⟨kind, rfl⟩ other
    · intro p hp
      have hsynced := hnext.synced p hp
      have hle := hall p
      have htally := tally_le_crest (mail Message.mtype p (iteration e.2 e.1 s).2)
      rw [mail_append, tally_append] at hsynced
      rw [hlen p hp, ← hsynced]
      omega
  · rintro ⟨hold, hjoins, hregistered⟩ p
    have hbefore := hold p
    cases (hheard p).2 with
    | stays old now count top =>
      have hsynced := hnext.synced p now
      have hroom := hregistered p now
      have htally := tally_le_crest (mail Message.mtype p sent)
      rw [mail_append, tally_append] at hsynced
      rw [hlen p now, ← hsynced] at hroom
      rw [top]
      omega
    | joins kind self count top =>
      have hroom := hjoins kind
      rw [h.strangers p (self ▸ (hjoin kind).2), top, tally_nil, crest_nil]
      omega
    | absent now other quiet =>
      have htally := tally_le_crest (mail Message.mtype p sent)
      rw [quiet, crest_nil]
      omega

end Counted

end EmbeddedCourse.QueueChat
