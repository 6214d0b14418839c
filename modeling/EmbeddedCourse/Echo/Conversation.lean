import Mathlib.Algebra.BigOperators.Group.List.Basic
import EmbeddedCourse.Echo.System

/-! # What the clients are shown

Whatever is lost on the way, a client is shown answers to messages of its own, in
their order and under the numbers which the server has given them. When nothing is
lost, everybody who waits sees the answers to all of its lines in the end.
-/

namespace EmbeddedCourse.Echo

open CString Directory Fields Keyed Machine

/-! ## The numbers -/

/-- The messages since the last `CLOSE`, when there have been `n` before. -/
def latest : ℕ → List Bytes → ℕ
  | n, [] => n
  | n, msg :: msgs => if msg = closeWord then latest 0 msgs else latest (n + 1) msgs

theorem latest_concat (n : ℕ) (msgs : List Bytes) (msg : Bytes) :
    latest n (msgs ++ [msg]) = if msg = closeWord then 0 else latest n msgs + 1 := by
  induction msgs generalizing n with
  | nil => simp [latest]
  | cons m msgs ih =>
    simp only [List.cons_append, latest]
    split_ifs with hm h h
    · rw [ih, if_pos h]
    · rw [ih, if_neg h]
    · rw [ih, if_pos h]
    · rw [ih, if_neg h]

theorem latest_le (n : ℕ) (msgs : List Bytes) : latest n msgs ≤ n + msgs.length := by
  induction msgs generalizing n with
  | nil => exact Nat.le_refl n
  | cons m msgs ih =>
    simp only [latest, List.length_cons]
    split_ifs
    · have hrest := ih 0
      omega
    · have hrest := ih (n + 1)
      omega

/-- One message more: an answer under the next number, unless it is `CLOSE`. -/
theorem numbered_concat (n : ℕ) (msgs : List Bytes) (msg : Bytes) :
    numbered n (msgs ++ [msg]) =
      numbered n msgs ++ if msg = closeWord then [] else [answer msg (latest n msgs + 1 : ℕ)] := by
  induction msgs generalizing n with
  | nil => simp [numbered, latest]
  | cons m msgs ih =>
    simp only [List.cons_append, numbered, latest]
    split_ifs with hm h h
    · rw [ih, if_pos h]
    · rw [ih, if_neg h]
    · rw [ih, if_pos h, List.cons_append]
    · rw [ih, if_neg h, List.cons_append]

theorem textsOf_concat (port : UInt16) (msgs : List (UInt16 × Bytes)) (m : UInt16 × Bytes) :
    textsOf port (msgs ++ [m]) = textsOf port msgs ++ if m.1 = port then [m.2] else [] := by
  rw [textsOf, textsOf, List.filter_append, List.map_append]
  congr 1
  by_cases hm : m.1 = port <;> simp [hm]

/-- The next message of a client has the next number. -/
theorem repliesTo_concat (port : UInt16) (msgs : List (UInt16 × Bytes)) (m : UInt16 × Bytes) :
    repliesTo port (msgs ++ [m]) = repliesTo port msgs ++
      if m.1 = port ∧ m.2 ≠ closeWord then [answer m.2 (latest 0 (textsOf port msgs) + 1 : ℕ)] else [] := by
  rw [repliesTo, textsOf_concat]
  by_cases hport : m.1 = port
  · rw [if_pos hport, numbered_concat, repliesTo]
    by_cases hclose : m.2 = closeWord <;> simp [hport, hclose]
  · rw [if_neg hport, List.append_nil, repliesTo, if_neg (fun h => hport h.1), List.append_nil]

/-- More messages have more answers. -/
theorem repliesTo_prefix (port : UInt16) (msgs msgs' : List (UInt16 × Bytes)) :
    repliesTo port msgs <+: repliesTo port (msgs ++ msgs') := by
  induction msgs' using List.reverseRecOn with
  | nil => rw [List.append_nil]
  | append_singleton msgs' m ih =>
    rw [← List.append_assoc, repliesTo_concat]
    exact ih.trans (List.prefix_append _ _)

/-- All requests come from clients of the host. -/
def Requests (ports : List UInt16) (ds : List Bytes) : Prop :=
  ∀ d ∈ ds, ∃ port text, port ∈ ports ∧ Request port text d

/-- The server's count of the datagrams is that of the messages. -/
theorem Requests.earlier {ports : List UInt16} {ds : List Bytes} (h : Requests ports ds) (port : UInt16) :
    earlier (word loopback, port) ds = latest 0 (textsOf port (ds.map messageOf)) := by
  induction ds using List.reverseRecOn with
  | nil => rfl
  | append_singleton ds d ih =>
    rcases h d (by simp) with ⟨q, text, -, hd⟩
    have hds := ih fun d hmem => h d (List.mem_append_left _ hmem)
    rw [earlier_concat, List.map_append, List.map_singleton, textsOf_concat, hd.messageOf, hd.key, hd.text,
      hds]
    dsimp only
    by_cases hq : q = port
    · rw [if_pos (congrArg _ hq), if_pos hq, latest_concat]
    · rw [if_neg (fun he => hq (congrArg Prod.snd he)), if_neg hq, List.append_nil]

/-! ## What may be lost -/

/-- All of `ys`, or what is left of it. -/
def Kept {α : Type*} : Bool → List α → List α → Prop
  | true, xs, ys => xs.Sublist ys
  | false, xs, ys => xs = ys

namespace Kept

variable {α : Type*} {lossy : Bool} {xs ys : List α}

theorem sublist (h : Kept lossy xs ys) : xs.Sublist ys := by
  cases lossy with
  | true => exact h
  | false => exact h ▸ List.Sublist.refl xs

theorem append (h : Kept lossy xs ys) (zs : List α) : Kept lossy (xs ++ zs) (ys ++ zs) := by
  cases lossy with
  | true => exact List.Sublist.append h (List.Sublist.refl zs)
  | false => exact congrArg (· ++ zs) h

theorem refl (xs : List α) : Kept lossy xs xs := by
  cases lossy with
  | true => exact List.Sublist.refl xs
  | false => rfl

/-- What comes to some socket only is lost to the others. -/
theorem post (h : Kept lossy xs ys) (zs : List α) {missed : Prop} [Decidable missed] (hm : missed → lossy = true) :
    Kept lossy (if missed then xs else xs ++ zs) (ys ++ zs) := by
  split_ifs with hmissed
  · rw [hm hmissed] at h ⊢
    exact h.trans (List.sublist_append_left ys zs)
  · exact h.append zs

end Kept

/-! ## The datagrams -/

/-- A message of a client for the server, or an answer of the server for a client. -/
def InFlight (ports : List UInt16) (d : Bytes) : Prop :=
  ∃ port text, port ∈ ports ∧ (Request port text d ∨ Response port text d)

/-- What a client has shown of the answers to the messages `heard`, and what it will
show of the datagrams at its socket. -/
def Shown (lossy : Bool) (heard : List (UInt16 × Bytes)) (t : Terminal) : Prop :=
  ∃ rest, Kept lossy (t.printed ++ rest) (repliesTo t.port heard) ∧
    (t.isOpen = true → rest = t.inbox.filterMap (answerOf t.port))

/-- The server has served `ds`; nothing is in flight that it or a client does not know. -/
structure Sound (lossy : Bool) (ports : List UInt16) (ds : List Bytes) (s : System) : Prop where
  table : ∃ L, s.server.Holds L
  tallies : Tallies s.server ds
  handled : Requests ports ds
  inbox : ∀ d ∈ s.inbox, InFlight ports d
  own : s.terminals.map Terminal.port = ports
  mail : ∀ (i : ℕ) (t : Terminal), s.terminals[i]? = some t → ∀ d ∈ t.inbox, InFlight ports d
  heard : Kept lossy (ds.map messageOf ++ s.inbox.filterMap requestOf) s.sent
  shown : ∀ (i : ℕ) (t : Terminal), s.terminals[i]? = some t → Shown lossy (ds.map messageOf) t

section

variable {s : System} {i : ℕ} {d : Bytes} {missed : List ℕ}

theorem getElem?_post (s : System) (d : Bytes) (missed : List ℕ) (i : ℕ) :
    (s.post d missed).terminals[i]? =
      s.terminals[i]?.map fun t => if i + 1 ∈ missed then t else t.receive d :=
  List.getElem?_mapIdx

/-- What a datagram that is sent leaves of a terminal. -/
theorem exists_of_post {t' : Terminal} (h : (s.post d missed).terminals[i]? = some t') :
    ∃ t, s.terminals[i]? = some t ∧ (t' = t ∨ t' = t.receive d) ∧ (i + 1 ∉ missed → t' = t.receive d) := by
  rw [getElem?_post] at h
  rcases Option.map_eq_some_iff.mp h with ⟨t, ht, rfl⟩
  refine ⟨t, ht, ?_, fun hm => if_neg hm⟩
  split_ifs
  · exact Or.inl rfl
  · exact Or.inr rfl

@[simp] theorem Terminal.receive_port (t : Terminal) (d : Bytes) : (t.receive d).port = t.port := by
  unfold Terminal.receive
  split_ifs <;> rfl

@[simp] theorem Terminal.receive_printed (t : Terminal) (d : Bytes) :
    (t.receive d).printed = t.printed := by
  unfold Terminal.receive
  split_ifs <;> rfl

@[simp] theorem Terminal.receive_isOpen (t : Terminal) (d : Bytes) : (t.receive d).isOpen = t.isOpen := by
  unfold Terminal.receive
  split_ifs <;> rfl

theorem Terminal.receive_inbox {t : Terminal} (h : t.isOpen = true) (d : Bytes) :
    (t.receive d).inbox = t.inbox ++ [d] := by
  rw [Terminal.receive, if_pos h]

theorem Terminal.mem_receive {t : Terminal} {d e : Bytes} (h : e ∈ (t.receive d).inbox) :
    e ∈ t.inbox ∨ e = d := by
  unfold Terminal.receive at h
  split_ifs at h
  · simpa using h
  · exact Or.inl h

theorem port_post (s : System) (d : Bytes) (missed : List ℕ) :
    (s.post d missed).terminals.map Terminal.port = s.terminals.map Terminal.port := by
  apply List.ext_getElem?
  intro i
  rw [List.getElem?_map, List.getElem?_map, getElem?_post, Option.map_map]
  congr 1
  funext t
  show (if i + 1 ∈ missed then t else t.receive d).port = t.port
  split_ifs
  · rfl
  · exact t.receive_port d

/-- What comes to the sockets is known there. -/
theorem inFlight_post {ports : List UInt16} (hinbox : ∀ e ∈ s.inbox, InFlight ports e)
    (hmail : ∀ (i : ℕ) (t : Terminal), s.terminals[i]? = some t → ∀ e ∈ t.inbox, InFlight ports e)
    (hd : InFlight ports d) (missed : List ℕ) :
    (∀ e ∈ (s.post d missed).inbox, InFlight ports e) ∧
    ∀ (i : ℕ) (t : Terminal), (s.post d missed).terminals[i]? = some t → ∀ e ∈ t.inbox, InFlight ports e := by
  constructor
  · intro e he
    change e ∈ (if 0 ∈ missed then s.inbox else s.inbox ++ [d]) at he
    split_ifs at he
    · exact hinbox e he
    · rcases List.mem_append.mp he with he | he
      · exact hinbox e he
      · rwa [List.mem_singleton.mp he]
  · intro i t' ht' e he
    rcases exists_of_post ht' with ⟨t, ht, rfl | rfl, -⟩
    · exact hmail i _ ht e he
    · rcases Terminal.mem_receive he with he | rfl
      · exact hmail i t ht e he
      · exact hd

end

namespace Shown

variable {lossy : Bool} {heard : List (UInt16 × Bytes)} {t : Terminal} {d : Bytes}

/-- A datagram that is nothing for this client. -/
theorem receive_none (h : Shown lossy heard t) (hd : answerOf t.port d = none) :
    Shown lossy heard (t.receive d) := by
  rcases h with ⟨rest, hkept, hrest⟩
  refine ⟨rest, by simpa using hkept, ?_⟩
  intro hopen
  rw [Terminal.receive_isOpen] at hopen
  rw [Terminal.receive_inbox hopen, Terminal.receive_port, List.filterMap_append, hrest hopen]
  simp [hd]

/-- The answer to one message more comes, to those that have room for it. -/
theorem answered (h : Shown lossy heard t) (m : UInt16 × Bytes) {t' : Terminal} {missed : Prop}
    [Decidable missed] (hm : missed → lossy = true)
    (hd : ∀ port, answerOf port d = if m.1 = port ∧ m.2 ≠ closeWord then
      some (answer m.2 (latest 0 (textsOf port heard) + 1 : ℕ)) else none)
    (ht' : t' = if missed then t else t.receive d) : Shown lossy (heard ++ [m]) t' := by
  rcases h with ⟨rest, hkept, hrest⟩
  have hport : t'.port = t.port := by
    rw [ht']
    split_ifs
    · rfl
    · exact t.receive_port d
  have hprinted : t'.printed = t.printed := by
    rw [ht']
    split_ifs
    · rfl
    · exact t.receive_printed d
  -- the answer is for one port, and for the others nothing is new
  have hnew : repliesTo t.port (heard ++ [m]) = repliesTo t.port heard ++ (answerOf t.port d).toList := by
    rw [repliesTo_concat, hd]
    split_ifs <;> rfl
  have hpost := hkept.post (answerOf t.port d).toList hm
  rw [← hnew] at hpost
  refine ⟨if missed then rest else rest ++ (answerOf t.port d).toList, ?_, ?_⟩
  · rw [hport, hprinted]
    split_ifs with hmissed
    · rwa [if_pos hmissed] at hpost
    · rwa [if_neg hmissed, List.append_assoc] at hpost
  · -- a client that is open still has what it has not read
    intro hopen
    rw [hport, ht']
    split_ifs with hmissed
    · rw [ht', if_pos hmissed] at hopen
      exact hrest hopen
    · rw [ht', if_neg hmissed, Terminal.receive_isOpen] at hopen
      rw [Terminal.receive_inbox hopen, List.filterMap_append, hrest hopen]
      cases hanswer : answerOf t.port d <;> simp [hanswer]

/-- A `CLOSE` has no answer. -/
theorem closed (h : Shown lossy heard t) {m : UInt16 × Bytes} (hm : m.2 = closeWord) :
    Shown lossy (heard ++ [m]) t := by
  rcases h with ⟨rest, hkept, hrest⟩
  refine ⟨rest, ?_, hrest⟩
  rwa [repliesTo_concat, if_neg (fun hmsg => hmsg.2 hm), List.append_nil]

/-- A client reads the next datagram at its socket. -/
theorem print {inbox : List Bytes} {shown : Option Bytes} (h : Shown lossy heard t) (hopen : t.isOpen = true)
    (hinbox : t.inbox = d :: inbox) (hread : Echo.funcRead t.port d = some shown) :
    Shown lossy heard (t.print inbox shown) := by
  rcases h with ⟨rest, hkept, hrest⟩
  have hanswer : answerOf t.port d = shown := by
    rw [answerOf, hread]
    rfl
  rw [hrest hopen, hinbox] at hkept
  refine ⟨inbox.filterMap (answerOf t.port), ?_, fun _ => rfl⟩
  have hsplit : t.printed ++ (d :: inbox).filterMap (answerOf t.port) =
      (t.printed ++ shown.toList) ++ inbox.filterMap (answerOf t.port) := by
    cases shown with
    | none => rw [List.filterMap_cons_none hanswer, Option.toList_none, List.append_nil]
    | some text => rw [List.filterMap_cons_some hanswer, List.append_assoc]; rfl
  rw [hsplit] at hkept
  exact hkept

/-- A client says something, and may leave. -/
theorem say (h : Shown lossy heard t) (hopen : t.isOpen = true) (l rest : Bytes) :
    Shown lossy heard (t.say l rest) := by
  rcases h with ⟨r, hkept, hrest⟩
  exact ⟨r, hkept, fun _ => hrest hopen⟩

end Shown

namespace Sound

variable {lossy : Bool} {ports : List UInt16} {ds : List Bytes} {s s' : System} {i : ℕ} {t : Terminal}

theorem port_mem (h : Sound lossy ports ds s) (ht : s.terminals[i]? = some t) : t.port ∈ ports := by
  rw [← h.own]
  exact List.mem_map_of_mem (List.mem_of_getElem? ht)

/-- One terminal goes on by itself. -/
theorem set (h : Sound lossy ports ds s) (ht : s.terminals[i]? = some t) (t' : Terminal)
    (hport : t'.port = t.port) (hmail : ∀ d ∈ t'.inbox, d ∈ t.inbox) (hshown : Shown lossy (ds.map messageOf) t') :
    Sound lossy ports ds { s with terminals := s.terminals.set i t' } := by
  have hi := (List.getElem?_eq_some_iff.mp ht).1
  refine { h with own := ?_, mail := ?_, shown := ?_ }
  · rw [← h.own, List.map_set, hport]
    apply Cells.set_of_getElem?
    rw [List.getElem?_map, ht, Option.map_some]
  · intro j u hu d hd
    rcases eq_or_ne i j with rfl | hij
    · rw [List.getElem?_set_self hi] at hu
      obtain rfl := Option.some.inj hu
      exact h.mail i t ht d (hmail d hd)
    · rw [List.getElem?_set_ne hij] at hu
      exact h.mail j u hu d hd
  · intro j u hu
    rcases eq_or_ne i j with rfl | hij
    · rw [List.getElem?_set_self hi] at hu
      obtain rfl := Option.some.inj hu
      exact hshown
    · rw [List.getElem?_set_ne hij] at hu
      exact h.shown j u hu

/-- The server has no more clients than there are. -/
theorem room (h : Sound lossy ports ds s) (hcap : ports.length ≤ maxClients) {port : UInt16}
    (hport : port ∈ ports) (hfind : s.server.findClient (word loopback) port = none) :
    s.server.clientCount < maxClients := by
  rcases h.table with ⟨L, hL⟩
  have hout : (word loopback, port) ∉ L.map ClientInfo.key := by
    apply (lookup_eq_none_iff _).mp
    rw [← Option.map_eq_none_iff, ← hL.counterOf]
    exact hL.counterOf_eq_none hfind
  have hsub : (word loopback, port) :: L.map ClientInfo.key ⊆ ports.map fun p => (word loopback, p) := by
    intro k hk
    rcases List.mem_cons.mp hk with rfl | hk
    · exact List.mem_map_of_mem hport
    · -- it has been heard
      have hcounter : s.server.counterOf k ≠ none := by
        intro hnone
        rw [hL.counterOf, Option.map_eq_none_iff] at hnone
        exact (lookup_eq_none_iff _).mp hnone hk
      have hmem : ds.filter (fun d => keyOf d = k) ≠ [] := by
        intro hnil
        apply hcounter
        rw [h.tallies k, if_pos]
        rw [earlier, hnil]
        rfl
      rcases List.exists_mem_of_ne_nil _ hmem with ⟨d, hd⟩
      rcases List.mem_filter.mp hd with ⟨hd, hkey⟩
      rcases h.handled d hd with ⟨q, text, hq, hreq⟩
      rw [← of_decide_eq_true hkey, hreq.key]
      exact List.mem_map_of_mem hq
  have hle := ((List.nodup_cons.mpr ⟨hout, hL.nodup⟩).subperm hsub).length_le
  rw [List.length_cons, List.length_map, List.length_map] at hle
  rw [hL.count]
  omega

/-- A client sends a line. -/
theorem funcSend (h : Sound lossy ports ds s) (hports : serverPort ∉ ports) (ht : s.terminals[i]? = some t)
    (hopen : t.isOpen = true) {l rest hdr : Bytes} (hl : Typed l) (hlen : l.length ≤ 1022)
    (hh : Local hdr) {missed : List ℕ} (hm : missed ≠ [] → lossy = true) :
    Sound lossy ports ds (({ s with
      terminals := s.terminals.set i (t.say l rest)
      sent := s.sent ++ [(t.port, l)] } : System).post (hdr ++ clientPacket t.port l) missed) := by
  have hreq := request_packet hh t.port hl (by omega)
  have hset := h.set ht (t.say l rest) rfl (fun _ hd => hd) ((h.shown i t ht).say hopen l rest)
  have hflight : InFlight ports (hdr ++ clientPacket t.port l) :=
    ⟨t.port, l, h.port_mem ht, Or.inl hreq⟩
  rcases inFlight_post hset.inbox hset.mail hflight missed with ⟨hinbox, hmail⟩
  refine ⟨h.table, h.tallies, h.handled, hinbox, (port_post _ _ _).trans hset.own, hmail, ?_, ?_⟩
  · -- the message is the last one on its way, or it is lost at the server
    have hmissed : 0 ∈ missed → lossy = true := fun h0 => hm (List.ne_nil_of_mem h0)
    have hpost := h.heard.post [(t.port, l)] hmissed
    show Kept lossy (ds.map messageOf ++
      (if 0 ∈ missed then s.inbox else s.inbox ++ [hdr ++ clientPacket t.port l]).filterMap requestOf) _
    split_ifs at hpost ⊢
    · exact hpost
    · rwa [List.filterMap_append, List.filterMap_cons_some hreq.requestOf, List.filterMap_nil,
        ← List.append_assoc]
  · intro j u' hu'
    -- the sockets of other clients get a copy that none of them shows
    rcases exists_of_post hu' with ⟨u, hu, rfl | rfl, -⟩
    · exact hset.shown j _ hu
    · apply (hset.shown j u hu).receive_none
      rw [answerOf, hreq.funcRead (fun he => hports (he ▸ hset.port_mem hu))]
      rfl

/-- A client reads a datagram. -/
theorem funcRead (h : Sound lossy ports ds s) (hs : s.step (.funcRead i) = some s') :
    Sound lossy ports ds s' := by
  obtain ⟨t, d, inbox, shown, ht, hopen, hinbox, hread, rfl⟩ := System.step_funcRead hs
  apply h.set ht (t.print inbox shown) rfl
  · intro e he
    rw [hinbox]
    exact List.mem_cons_of_mem d he
  · exact (h.shown i t ht).print hopen hinbox hread

variable {d hdr : Bytes} {inbox : List Bytes} {missed : List ℕ}

/-- The server reads one of its own answers. -/
theorem serve_response (h : Sound lossy ports ds s) (hports : serverPort ∉ ports) {port : UInt16}
    {text : Bytes} (hport : port ∈ ports) (hd : Response port text d) (hinbox : s.inbox = d :: inbox)
    {server : Server} {reply : Option Reply} (hserve : Echo.serve s.server d = some (server, reply)) :
    reply = none ∧ Sound lossy ports ds { s with server := server, inbox := inbox } := by
  have hne : port ≠ serverPort := fun he => hports (he ▸ hport)
  rcases h.table with ⟨L, hL⟩
  have hother := serve_other hd.room hd.fits hL.buffer (hd.dest ▸ hne)
  rw [hother] at hserve
  cases hserve
  refine ⟨rfl, ⟨L, hL.receive d⟩, h.tallies, h.handled, ?_, h.own, h.mail, ?_, h.shown⟩
  · intro e he
    apply h.inbox
    rw [hinbox]
    exact List.mem_cons_of_mem d he
  · have hheard := h.heard
    rwa [hinbox, List.filterMap_cons_none (hd.requestOf hne)] at hheard

/-- The server reads a message: what it has heard is one more. -/
theorem serve_request (h : Sound lossy ports ds s) (hcap : ports.length ≤ maxClients) {port : UInt16}
    {text : Bytes} (hport : port ∈ ports) (hd : Request port text d) (hinbox : s.inbox = d :: inbox)
    {server : Server} {reply : Option Reply} (hserve : Echo.serve s.server d = some (server, reply)) :
    (∃ L, server.Holds L) ∧ Tallies server (ds ++ [d]) ∧ Requests ports (ds ++ [d]) ∧
      (∀ e ∈ inbox, InFlight ports e) ∧
      Kept lossy ((ds ++ [d]).map messageOf ++ inbox.filterMap requestOf) s.sent := by
  rcases h.table with ⟨L, hL⟩
  -- there is room: its clients are among the ports
  have hadm : Admissible s.server d := by
    refine ⟨hd.wellFormed, fun _ hfind => h.room hcap hport ?_⟩
    rwa [hd.key] at hfind
  have hstep : Echo.step s.server d = some server := by rw [Echo.step, hserve, Option.map_some]
  rcases step_tallies hL h.tallies hadm hstep with ⟨htable, htallies⟩
  refine ⟨htable, htallies, ?_, ?_, ?_⟩
  · intro e he
    rcases List.mem_append.mp he with he | he
    · exact h.handled e he
    · rw [List.mem_singleton.mp he]
      exact ⟨port, text, hport, hd⟩
  · intro e he
    apply h.inbox
    rw [hinbox]
    exact List.mem_cons_of_mem d he
  · have hheard := h.heard
    rw [hinbox, List.filterMap_cons_some hd.requestOf] at hheard
    rwa [List.map_append, List.map_singleton, hd.messageOf, List.append_assoc, List.singleton_append]

/-- The number in an answer. -/
theorem answer_of_serve (h : Sound lossy ports ds s) (hcap : ports.length ≤ maxClients)
    (hsent : s.sent.length ≤ 2147483647) {port : UInt16} {text : Bytes} (hport : port ∈ ports)
    (hd : Request port text d) (hmsg : text ≠ closeWord) (hinbox : s.inbox = d :: inbox) :
    ∃ server packet, Echo.serve s.server d = some (server, some ⟨word loopback, htons port, packet⟩) ∧
      ∀ hdr, IpHeader hdr →
        Response port (answer text (latest 0 (textsOf port (ds.map messageOf)) + 1 : ℕ)) (hdr ++ packet) := by
  rcases h.table with ⟨L, hL⟩
  have hmsg' : payload d ≠ closeWord := hd.text ▸ hmsg
  have hfull : s.server.findClient (keyOf d).1 (keyOf d).2 = none → s.server.clientCount < maxClients := by
    rw [hd.key]
    exact h.room hcap hport
  obtain ⟨server, L', packet, n, hserve, -, hn, hdrop, -⟩ := hL.serve_message hd.wellFormed hmsg' hfull
  -- the number is at most that of the messages sent, so that the counter has not wrapped
  have hlatest : latest 0 (textsOf port (ds.map messageOf)) + 1 ≤ 2147483647 := by
    have hle := latest_le 0 (textsOf port (ds.map messageOf))
    have htexts : (textsOf port (ds.map messageOf)).length ≤ (ds.map messageOf).length := by
      rw [textsOf, List.length_map]
      exact List.length_filter_le ..
    have hheard := h.heard.sublist.length_le
    rw [hinbox, List.filterMap_cons_some hd.requestOf, List.length_append, List.length_cons] at hheard
    omega
  have hnumber : n = (latest 0 (textsOf port (ds.map messageOf)) + 1 : ℕ) := by
    rw [hn, h.tallies.next, hd.key, h.handled.earlier, Nat.add_comm]
    exact Int.bmod_eq_of_le (by omega) (by omega)
  rcases replyPacket_of_serve hL.buffer hd.wellFormed hmsg' hserve with ⟨m, hm, hpacket⟩
  rw [hd.source, hd.text] at hpacket
  rw [hd.ip, hd.source] at hserve
  refine ⟨server, packet, hserve, ?_⟩
  intro hdr hh
  have hresponse := response_packet hh (hd.text ▸ hd.wellFormed.noNul) (hd.text ▸ hd.wellFormed.short) hm hpacket
  rwa [hdrop, hd.text, hnumber] at hresponse

/-- An access of the server is never outside an array. -/
theorem exists_serve (h : Sound lossy ports ds s) (hports : serverPort ∉ ports)
    (hcap : ports.length ≤ maxClients) (hsent : s.sent.length ≤ 2147483647) (hinbox : s.inbox = d :: inbox) :
    ∃ server reply, Echo.serve s.server d = some (server, reply) := by
  rcases h.table with ⟨L, hL⟩
  obtain ⟨port, text, hport, hd | hd⟩ := h.inbox d (by rw [hinbox]; exact List.mem_cons_self)
  · by_cases hmsg : text = closeWord
    · rcases hL.serve_close hd.wellFormed (hd.text.trans hmsg) with ⟨server, L', hserve, -, -⟩
      exact ⟨server, none, hserve⟩
    · rcases h.answer_of_serve hcap hsent hport hd hmsg hinbox with ⟨server, packet, hserve, -⟩
      exact ⟨server, _, hserve⟩
  · exact ⟨_, none, serve_other hd.room hd.fits hL.buffer (hd.dest ▸ fun he => hports (he ▸ hport))⟩

/-- A pass of the loop in `main` of the server. -/
theorem serve (h : Sound lossy ports ds s) (hports : serverPort ∉ ports) (hcap : ports.length ≤ maxClients)
    (hsent : s.sent.length ≤ 2147483647) (hh : Local hdr) (hm : missed ≠ [] → lossy = true)
    (hs : s.step (.serve hdr missed) = some s') : ∃ ds', Sound lossy ports ds' s' := by
  obtain ⟨d, inbox, server, reply, hinbox, hserve, rfl⟩ := System.step_serve hs
  obtain ⟨port, text, hport, hd | hd⟩ := h.inbox d (by rw [hinbox]; exact List.mem_cons_self)
  · obtain ⟨htable, htallies, hheard, hflight, hkept⟩ := h.serve_request hcap hport hd hinbox hserve
    have hlist : (ds ++ [d]).map messageOf = ds.map messageOf ++ [(port, text)] := by
      rw [List.map_append, List.map_singleton, hd.messageOf]
    refine ⟨ds ++ [d], ?_⟩
    by_cases hmsg : text = closeWord
    · -- the client leaves, and nothing is sent
      rcases h.table with ⟨L, hL⟩
      rcases hL.serve_close hd.wellFormed (hd.text.trans hmsg) with ⟨server', L', hserve', -, -⟩
      rw [hserve'] at hserve
      cases hserve
      refine ⟨htable, htallies, hheard, hflight, h.own, h.mail, hkept, ?_⟩
      intro i t ht
      rw [hlist]
      exact (h.shown i t ht).closed hmsg
    · -- the answer goes to everybody, and means something to the client
      rcases h.answer_of_serve hcap hsent hport hd hmsg hinbox with ⟨server', packet, hserve', hresponse⟩
      rw [hserve'] at hserve
      cases hserve
      have hres := hresponse hdr hh.1
      have hne : port ≠ serverPort := fun he => hports (he ▸ hport)
      have hflight' : InFlight ports (hdr ++ packet) := ⟨port, _, hport, Or.inr hres⟩
      rcases inFlight_post (s := { s with server := server, inbox := inbox }) hflight h.mail hflight' missed
        with ⟨hinbox', hmail'⟩
      refine ⟨htable, htallies, hheard, hinbox', (port_post _ _ _).trans h.own, hmail', ?_, ?_⟩
      · show Kept lossy ((ds ++ [d]).map messageOf ++
          (if 0 ∈ missed then inbox else inbox ++ [hdr ++ packet]).filterMap requestOf) _
        split_ifs
        · exact hkept
        · rwa [List.filterMap_append, List.filterMap_cons_none (hres.requestOf hne), List.filterMap_nil,
            List.append_nil]
      · intro i t' ht'
        rw [getElem?_post] at ht'
        rcases Option.map_eq_some_iff.mp ht' with ⟨t, ht, hview⟩
        rw [hlist]
        apply (h.shown i t ht).answered (port, text) (fun hi => hm (List.ne_nil_of_mem hi)) ?_ hview.symm
        intro q
        rw [answerOf, hres.funcRead q]
        by_cases hq : port = q
        · rw [if_pos hq.symm, if_pos ⟨hq, hmsg⟩, hq]
          rfl
        · rw [if_neg (Ne.symm hq), if_neg (fun he => hq he.1)]
          rfl
  · -- its own answer
    rcases h.serve_response hports hport hd hinbox hserve with ⟨rfl, hsound⟩
    exact ⟨ds, hsound⟩

end Sound

end EmbeddedCourse.Echo
