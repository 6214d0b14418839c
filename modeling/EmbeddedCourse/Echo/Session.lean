import EmbeddedCourse.Echo.Conversation

/-! # Lines in, answers out

What the clients send are the lines of their terminals, one after the other until a
`CLOSE`. Each line is good for a bounded number of steps, so the server and the
clients come to rest, and then who has not left has all of its answers.
-/

namespace EmbeddedCourse.Echo

open CString Directory Fields Machine

/-- The lines as they are typed. -/
def keyed (lines : List Bytes) : Bytes := lines.flatMap fun l => l ++ [10]

/-- How many lines are not read yet. -/
def unread (ts : List Terminal) : ℕ := (ts.map fun t => t.stdin.count 10).sum

/-- The terminal without what concerns its socket. -/
def Terminal.front (t : Terminal) : Terminal := { t with inbox := [], printed := [] }

theorem Terminal.front_eq {t t' : Terminal} (h : t'.front = t.front) :
    t'.port = t.port ∧ t'.stdin = t.stdin ∧ t'.typed = t.typed ∧ t'.isOpen = t.isOpen := by
  rw [front, front, Terminal.mk.injEq] at h
  obtain ⟨hport, hstdin, -, hopen, htyped, -⟩ := h
  exact ⟨hport, hstdin, htyped, hopen⟩

/-- `sent` is what the terminals have had their clients send of the lines of `users`. -/
structure Typing (users : List (UInt16 × List Bytes)) (ts : List Terminal)
    (sent : List (UInt16 × Bytes)) : Prop where
  reading : ∀ (i : ℕ) (t : Terminal), ts[i]? = some t → ∃ u left, users[i]? = some u ∧ t.port = u.1 ∧
    t.typed ++ left = u.2 ∧ t.stdin = keyed left ∧ t.isOpen = !decide (closeWord ∈ t.typed)
  own : ∀ (i : ℕ) (t : Terminal), ts[i]? = some t →
    (∀ (j : ℕ) (u : Terminal), ts[j]? = some u → u.port = t.port → j = i) → textsOf t.port sent = t.typed
  budget : sent.length + unread ts = (users.map fun u => u.2.length).sum

theorem count_keyed {lines : List Bytes} (h : ∀ l ∈ lines, Typed l) : (keyed lines).count 10 = lines.length := by
  induction lines with
  | nil => rfl
  | cons l lines ih =>
    have hl : l.count 10 = 0 := List.count_eq_zero.mpr (h l List.mem_cons_self).noNewline
    rw [keyed, List.flatMap_cons, List.count_append, List.count_append, hl, ← keyed,
      ih fun l' hl' => h l' (List.mem_cons_of_mem l hl'), List.length_cons]
    simp
    omega

namespace Typing

variable {users : List (UInt16 × List Bytes)} {ts : List Terminal} {sent : List (UInt16 × Bytes)} {i : ℕ}
  {t : Terminal}

/-- The next line, and what is sent when it has been read. -/
theorem say (h : Typing users ts sent) (hlines : ∀ u ∈ users, ∀ l ∈ u.2, Typed l ∧ l.length ≤ 1022)
    (ht : ts[i]? = some t) (hopen : t.isOpen = true) (hstdin : t.stdin ≠ []) :
    ∃ l rest, Typed l ∧ l.length ≤ 1022 ∧ t.stdin = l ++ 10 :: rest ∧
      Typing users (ts.set i (t.say l rest)) (sent ++ [(t.port, l)]) ∧
      unread (ts.set i (t.say l rest)) + 1 = unread ts := by
  have hi := (List.getElem?_eq_some_iff.mp ht).1
  obtain ⟨u, left, hu, hport, htyped, hkeyed, hisOpen⟩ := h.reading i t ht
  have hnotin : closeWord ∉ t.typed := by
    rw [hisOpen] at hopen
    simpa using hopen
  cases left with
  | nil => exact absurd hkeyed hstdin
  | cons l left =>
    rcases hlines u (List.mem_of_getElem? hu) l (by rw [← htyped]; simp) with ⟨hl, hlen⟩
    have hline : t.stdin = l ++ 10 :: keyed left := by
      rw [hkeyed, keyed, List.flatMap_cons, List.append_assoc]
      rfl
    have hunread : unread (ts.set i (t.say l (keyed left))) + 1 = unread ts := by
      have hsum := Cells.sum_map_set (fun t : Terminal => t.stdin.count 10) ht (t.say l (keyed left))
      have hcount : t.stdin.count 10 = (t.say l (keyed left)).stdin.count 10 + 1 := by
        rw [hline, List.count_append, List.count_eq_zero.mpr hl.noNewline, List.count_cons_self, Nat.zero_add]
        rfl
      rw [unread, unread]
      omega
    refine ⟨l, keyed left, hl, hlen, hline, ⟨?_, ?_, ?_⟩, hunread⟩
    · intro j t' ht'
      rcases eq_or_ne i j with rfl | hij
      · rw [List.getElem?_set_self hi] at ht'
        obtain rfl := Option.some.inj ht'
        refine ⟨u, left, hu, hport, ?_, rfl, ?_⟩
        · rw [← htyped]
          exact List.append_assoc ..
        · have hclose : l = closeWord ↔ closeWord ∈ t.typed ++ [l] := by
            rw [List.mem_append, List.mem_singleton, or_iff_right hnotin, eq_comm]
          exact congrArg not (decide_eq_decide.mpr hclose)
      · rw [List.getElem?_set_ne hij] at ht'
        exact h.reading j t' ht'
    · -- the other terminals have another port than this one, or share theirs
      have hports : ∀ (j : ℕ) (v : Terminal), ts[j]? = some v →
          ∃ v', (ts.set i (t.say l (keyed left)))[j]? = some v' ∧ v'.port = v.port := by
        intro j v hv
        rcases eq_or_ne i j with rfl | hij
        · rw [hv] at ht
          obtain rfl := Option.some.inj ht
          exact ⟨_, List.getElem?_set_self hi, rfl⟩
        · exact ⟨v, by rw [List.getElem?_set_ne hij, hv], rfl⟩
      intro j t' ht' halone
      rw [textsOf_concat]
      rcases eq_or_ne i j with rfl | hij
      · rw [List.getElem?_set_self hi] at ht'
        obtain rfl := Option.some.inj ht'
        have hown := h.own i t ht fun j v hv hvp => by
          rcases hports j v hv with ⟨v', hv', hvp'⟩
          exact halone j v' hv' (hvp'.trans hvp)
        show textsOf t.port sent ++ (if t.port = t.port then [l] else []) = t.typed ++ [l]
        rw [hown, if_pos rfl]
      · rw [List.getElem?_set_ne hij] at ht'
        have hother : t.port ≠ t'.port := by
          intro he
          exact hij (halone i _ (List.getElem?_set_self hi) he)
        rw [if_neg hother, List.append_nil]
        apply h.own j t' ht'
        intro k v hv hvp
        rcases hports k v hv with ⟨v', hv', hvp'⟩
        exact halone k v' hv' (hvp'.trans hvp)
    · have hbudget := h.budget
      rw [List.length_append, List.length_singleton]
      omega

/-- What happens at the sockets does not matter. -/
theorem congr (h : Typing users ts sent) {ts' : List Terminal}
    (hfront : ts'.map Terminal.front = ts.map Terminal.front) : Typing users ts' sent := by
  -- terminals with the same front are there at the same places
  have hpair : ∀ {us vs : List Terminal}, us.map Terminal.front = vs.map Terminal.front →
      ∀ {j : ℕ} {u : Terminal}, us[j]? = some u → ∃ v, vs[j]? = some v ∧ u.front = v.front := by
    intro us vs huv j u hu
    have hj := congrArg (fun ws => ws[j]?) huv
    simp only [List.getElem?_map, hu, Option.map_some] at hj
    rcases Option.map_eq_some_iff.mp hj.symm with ⟨v, hv, hvu⟩
    exact ⟨v, hv, hvu.symm⟩
  constructor
  · intro i t' ht'
    rcases hpair hfront ht' with ⟨t, ht, hf⟩
    obtain ⟨u, left, hu, hport, htyped, hstdin, hopen⟩ := h.reading i t ht
    obtain ⟨hp, hs, hy, ho⟩ := Terminal.front_eq hf
    exact ⟨u, left, hu, hp.trans hport, hy ▸ htyped, hs.trans hstdin, by rw [ho, hopen, hy]⟩
  · intro i t' ht' halone
    rcases hpair hfront ht' with ⟨t, ht, hf⟩
    obtain ⟨hp, -, hy, -⟩ := Terminal.front_eq hf
    rw [hp, hy]
    apply h.own i t ht
    intro j v hv hvp
    rcases hpair hfront.symm hv with ⟨v', hv', hf'⟩
    exact halone j v' hv' (((Terminal.front_eq hf').1.symm.trans hvp).trans hp.symm)
  · rw [← h.budget, unread, unread]
    have hmap := congrArg (List.map fun t : Terminal => t.stdin.count 10) hfront
    rw [List.map_map, List.map_map] at hmap
    exact congrArg (fun l : List ℕ => sent.length + l.sum) hmap

theorem init (hlines : ∀ u ∈ users, ∀ l ∈ u.2, Typed l ∧ l.length ≤ 1022) (buffer : Bytes) :
    Typing users (System.init buffer users).terminals [] := by
  constructor
  · intro i t ht
    rw [System.init, List.getElem?_map] at ht
    rcases Option.map_eq_some_iff.mp ht with ⟨u, hu, rfl⟩
    exact ⟨u, u.2, hu, rfl, rfl, rfl, rfl⟩
  · intro i t ht _
    rw [System.init, List.getElem?_map] at ht
    rcases Option.map_eq_some_iff.mp ht with ⟨u, hu, rfl⟩
    rfl
  · rw [System.init, unread, List.map_map, List.length_nil, Nat.zero_add]
    congr 1
    apply List.map_congr_left
    intro u hu
    exact count_keyed fun l hl => (hlines u hu l hl).1

end Typing

/-! ## A step -/

section

variable {s s' : System} {i : ℕ} {t : Terminal}

theorem front_post (s : System) (d : Bytes) (missed : List ℕ) :
    (s.post d missed).terminals.map Terminal.front = s.terminals.map Terminal.front := by
  apply List.ext_getElem?
  intro i
  rw [List.getElem?_map, List.getElem?_map, getElem?_post, Option.map_map]
  congr 1
  funext t
  show (if i + 1 ∈ missed then t else t.receive d).front = t.front
  unfold Terminal.receive
  split_ifs <;> rfl

theorem front_set (ht : s.terminals[i]? = some t) (t' : Terminal) (hfront : t'.front = t.front) :
    (s.terminals.set i t').map Terminal.front = s.terminals.map Terminal.front := by
  rw [List.map_set, hfront]
  apply Cells.set_of_getElem?
  rw [List.getElem?_map, ht, Option.map_some]

/-- The steps that a datagram at the server's socket is good for: a message is read, and
its answer comes to everybody. -/
def fare (clients : ℕ) (d : Bytes) : ℕ := if destOf d = serverPort then clients + 2 else 1

/-- The steps that are left. -/
def System.weight (s : System) : ℕ :=
  (2 * s.terminals.length + 3) * unread s.terminals + (s.inbox.map (fare s.terminals.length)).sum +
    (s.terminals.map fun t => t.inbox.length).sum

theorem sum_mapIdx_le {f : ℕ → Terminal → Terminal} {g : Terminal → ℕ} (h : ∀ i t, g (f i t) ≤ g t + 1)
    (ts : List Terminal) : ((ts.mapIdx f).map g).sum ≤ (ts.map g).sum + ts.length := by
  induction ts generalizing f with
  | nil => exact Nat.le_refl 0
  | cons t ts ih =>
    have hhead := h 0 t
    have htail := ih (f := fun i => f (i + 1)) fun i => h (i + 1)
    rw [List.mapIdx_cons, List.map_cons, List.sum_cons, List.map_cons, List.sum_cons, List.length_cons]
    omega

theorem unread_post (s : System) (d : Bytes) (missed : List ℕ) :
    unread (s.post d missed).terminals = unread s.terminals := by
  have hmap := congrArg (List.map fun t : Terminal => t.stdin.count 10) (front_post s d missed)
  rw [List.map_map, List.map_map] at hmap
  exact congrArg List.sum hmap

/-- A datagram that is sent comes to each socket at most once. -/
theorem weight_post (s : System) (d : Bytes) (missed : List ℕ) :
    (s.post d missed).weight ≤ s.weight + fare s.terminals.length d + s.terminals.length := by
  have hlen : (s.post d missed).terminals.length = s.terminals.length := List.length_mapIdx
  have hterminals : ((s.post d missed).terminals.map fun t => t.inbox.length).sum ≤
      (s.terminals.map fun t => t.inbox.length).sum + s.terminals.length := by
    apply sum_mapIdx_le
    intro i t
    unfold Terminal.receive
    split_ifs <;> simp
  have hinbox : ((s.post d missed).inbox.map (fare s.terminals.length)).sum ≤
      (s.inbox.map (fare s.terminals.length)).sum + fare s.terminals.length d := by
    show ((if 0 ∈ missed then s.inbox else s.inbox ++ [d]).map _).sum ≤ _
    split_ifs <;> simp
  rw [System.weight, System.weight, unread_post, hlen]
  omega

/-- A line less. -/
theorem weight_say (ht : s.terminals[i]? = some t) {l rest : Bytes}
    (hunread : unread (s.terminals.set i (t.say l rest)) + 1 = unread s.terminals)
    (sent : List (UInt16 × Bytes)) :
    System.weight { s with terminals := s.terminals.set i (t.say l rest), sent := sent } +
      (2 * s.terminals.length + 3) = s.weight := by
  have hmail := Cells.sum_map_set (fun t : Terminal => t.inbox.length) ht (t.say l rest)
  change _ + t.inbox.length = _ + t.inbox.length at hmail
  rw [System.weight, System.weight, ← hunread, Nat.mul_succ]
  simp only [List.length_set]
  omega

/-- A datagram less at the socket of a client. -/
theorem weight_print (ht : s.terminals[i]? = some t) {d : Bytes} {inbox : List Bytes}
    (hinbox : t.inbox = d :: inbox) (shown : Option Bytes) :
    System.weight { s with terminals := s.terminals.set i (t.print inbox shown) } + 1 = s.weight := by
  have hmail := Cells.sum_map_set (fun t : Terminal => t.inbox.length) ht (t.print inbox shown)
  change _ + t.inbox.length = _ + inbox.length at hmail
  rw [hinbox, List.length_cons] at hmail
  have hunread : unread (s.terminals.set i (t.print inbox shown)) = unread s.terminals := by
    have hmap := congrArg (List.map fun t : Terminal => t.stdin.count 10)
      (front_set ht (t.print inbox shown) rfl)
    rw [List.map_map, List.map_map] at hmap
    exact congrArg List.sum hmap
  rw [System.weight, System.weight, hunread]
  simp only [List.length_set]
  omega

/-- A datagram less at the socket of the server. -/
theorem weight_serve {d : Bytes} {inbox : List Bytes} (hinbox : s.inbox = d :: inbox) (server : Server) :
    System.weight { s with server := server, inbox := inbox } + fare s.terminals.length d = s.weight := by
  rw [System.weight, System.weight, hinbox, List.map_cons, List.sum_cons]
  dsimp only
  omega

end

/-! ## A run -/

/-- What holds all along: `es` has been paid for. -/
structure Conversing (lossy : Bool) (users : List (UInt16 × List Bytes)) (es : List Event) (s : System) :
    Prop where
  sound : ∃ ds, Sound lossy (users.map Prod.fst) ds s
  typing : Typing users s.terminals s.sent
  weight : es.length + s.weight ≤ (2 * users.length + 3) * (users.map fun u => u.2.length).sum

/-- Who talks to the server, and what about: ports of their own, and lines that fit. -/
structure Audible (users : List (UInt16 × List Bytes)) : Prop where
  room : users.length ≤ maxClients
  ports : ∀ u ∈ users, u.1 ≠ serverPort
  lines : ∀ u ∈ users, ∀ l ∈ u.2, Typed l ∧ l.length ≤ 1022
  total : (users.map fun u => u.2.length).sum ≤ 2147483647

namespace Audible

variable {users : List (UInt16 × List Bytes)}

theorem notMem (h : Audible users) : serverPort ∉ users.map Prod.fst := by
  intro hmem
  rcases List.mem_map.mp hmem with ⟨u, hu, he⟩
  exact h.ports u hu he

theorem capacity (h : Audible users) : (users.map Prod.fst).length ≤ maxClients := by
  rw [List.length_map]
  exact h.room

end Audible

namespace Conversing

variable {lossy : Bool} {users : List (UInt16 × List Bytes)} {es : List Event} {s s' : System} {e : Event}

theorem size (h : Conversing lossy users es s) : s.terminals.length = users.length := by
  rcases h.sound with ⟨ds, hsound⟩
  have hown := congrArg List.length hsound.own
  rwa [List.length_map, List.length_map] at hown

theorem sent_le (h : Conversing lossy users es s) (ha : Audible users) : s.sent.length ≤ 2147483647 := by
  have hbudget := h.typing.budget
  have htotal := ha.total
  omega

/-- Nobody has typed anything yet. -/
theorem init (ha : Audible users) {buffer : Bytes} (hbuf : buffer.length = maxBuf) :
    Conversing lossy users [] (System.init buffer users) := by
  have htyping := Typing.init ha.lines buffer
  refine ⟨⟨[], ⟨[], Server.init_holds hbuf⟩, ?_, ?_, ?_, ?_, ?_, Kept.refl [], ?_⟩, htyping, ?_⟩
  · intro k
    exact (Server.init_holds hbuf).counterOf k
  · intro d hd
    cases hd
  · intro d hd
    cases hd
  · rw [System.init, List.map_map]
    rfl
  · intro i t ht d hd
    rw [System.init, List.getElem?_map] at ht
    rcases Option.map_eq_some_iff.mp ht with ⟨u, -, rfl⟩
    cases hd
  · intro i t ht
    rw [System.init, List.getElem?_map] at ht
    rcases Option.map_eq_some_iff.mp ht with ⟨u, -, rfl⟩
    exact ⟨[], Kept.refl [], fun _ => rfl⟩
  · have hbudget := htyping.budget
    rw [List.length_nil, Nat.zero_add] at hbudget
    -- no datagram is at a socket yet
    have hempty : ((System.init buffer users).terminals.map fun t => t.inbox.length).sum = 0 := by
      rw [System.init, List.map_map]
      apply List.sum_eq_zero
      intro n hn
      rcases List.mem_map.mp hn with ⟨u, -, rfl⟩
      rfl
    have hlen : (System.init buffer users).terminals.length = users.length := List.length_map ..
    rw [System.weight, hbudget, hempty, hlen]
    exact Nat.le_of_eq (Nat.zero_add _)

/-- A client sends a line. -/
theorem funcSend (h : Conversing lossy users es s) (ha : Audible users) {i : ℕ} {stale hdr : Bytes}
    {missed : List ℕ} (hh : Local hdr) (hm : missed ≠ [] → lossy = true)
    (hs : s.step (.funcSend i stale hdr missed) = some s') :
    Conversing lossy users (es ++ [.funcSend i stale hdr missed]) s' := by
  rcases h.sound with ⟨ds, hsound⟩
  have hsize := h.size
  have hweight := h.weight
  have hbound : ∃ t, s.terminals[i]? = some t ∧ t.isOpen = true ∧ t.stdin ≠ [] := by
    rcases Option.bind_eq_some_iff.mp hs with ⟨t, ht, hif⟩
    dsimp only at hif
    split_ifs at hif with hcond
    exact ⟨t, ht, hcond⟩
  rcases hbound with ⟨t, ht, hopen, hstdin⟩
  obtain ⟨l, rest, hl, hlen, hline, htyping, hunread⟩ := h.typing.say ha.lines ht hopen hstdin
  rw [System.step_funcSend ht hopen hl hlen hline] at hs
  obtain rfl := Option.some.inj hs
  refine ⟨⟨ds, hsound.funcSend ha.notMem ht hopen hl hlen hh hm⟩, htyping.congr (front_post _ _ _), ?_⟩
  -- the packet is a message for the server, which pays for its way through
  have hreq := request_packet hh t.port hl (by omega)
  have hpost := weight_post { s with
    terminals := s.terminals.set i (t.say l rest)
    sent := s.sent ++ [(t.port, l)] } (hdr ++ clientPacket t.port l) missed
  have hsay := weight_say ht hunread (s.sent ++ [(t.port, l)])
  rw [fare, if_pos hreq.wellFormed.dest] at hpost
  simp only [List.length_set] at hpost
  rw [List.length_append, List.length_singleton]
  omega

/-- A client reads a datagram. -/
theorem funcRead (h : Conversing lossy users es s) {i : ℕ} (hs : s.step (.funcRead i) = some s') :
    Conversing lossy users (es ++ [.funcRead i]) s' := by
  rcases h.sound with ⟨ds, hsound⟩
  have hsound' := hsound.funcRead hs
  obtain ⟨t, d, inbox, shown, ht, hopen, hinbox, hread, rfl⟩ := System.step_funcRead hs
  have hfront := front_set ht (t.print inbox shown) rfl
  refine ⟨⟨ds, hsound'⟩, h.typing.congr hfront, ?_⟩
  have hweight := h.weight
  have hprint := weight_print ht hinbox shown
  rw [List.length_append, List.length_singleton]
  omega

/-- The server reads a datagram. -/
theorem serve (h : Conversing lossy users es s) (ha : Audible users) {hdr : Bytes}
    {missed : List ℕ} (hh : Local hdr) (hm : missed ≠ [] → lossy = true)
    (hs : s.step (.serve hdr missed) = some s') :
    Conversing lossy users (es ++ [.serve hdr missed]) s' := by
  rcases h.sound with ⟨ds, hsound⟩
  have hsent := h.sent_le ha
  refine ⟨hsound.serve ha.notMem ha.capacity hsent hh hm hs, ?_, ?_⟩
  · obtain ⟨d, inbox, server, reply, hinbox, hserve, rfl⟩ := System.step_serve hs
    cases reply with
    | none => exact h.typing
    | some reply => exact h.typing.congr (front_post _ _ _)
  · obtain ⟨d, inbox, server, reply, hinbox, hserve, rfl⟩ := System.step_serve hs
    have hweight := h.weight
    have htake := weight_serve hinbox server
    rw [List.length_append, List.length_singleton]
    obtain ⟨port, text, hport, hd | hd⟩ := hsound.inbox d (by rw [hinbox]; exact List.mem_cons_self)
    · rw [fare, if_pos hd.wellFormed.dest] at htake
      -- a `CLOSE` is not answered, and any other message is
      by_cases hmsg : text = closeWord
      · rcases hsound.table with ⟨L, hL⟩
        rcases hL.serve_close hd.wellFormed (hd.text.trans hmsg) with ⟨server', L', hserve', -, -⟩
        rw [hserve'] at hserve
        cases hserve
        dsimp only
        omega
      · rcases hsound.answer_of_serve ha.capacity hsent hport hd hmsg hinbox with
          ⟨server', packet, hserve', hresponse⟩
        rw [hserve'] at hserve
        cases hserve
        have hne : port ≠ serverPort := fun he => ha.notMem (he ▸ hport)
        have hpost := weight_post { s with server := server, inbox := inbox } (hdr ++ packet) missed
        rw [fare, (hresponse hdr hh.1).dest, if_neg hne] at hpost
        dsimp only at hpost ⊢
        omega
    · -- an answer of the server that has come back to it is thrown away
      rcases hsound.serve_response ha.notMem hport hd hinbox hserve with ⟨rfl, -⟩
      have hne : port ≠ serverPort := fun he => ha.notMem (he ▸ hport)
      rw [fare, hd.dest, if_neg hne] at htake
      dsimp only
      omega

/-- Every event is one of the three. -/
theorem step (h : Conversing lossy users es s) (ha : Audible users) (hhere : e.fromHere)
    (hm : e.missed ≠ [] → lossy = true) (hs : s.step e = some s') : Conversing lossy users (es ++ [e]) s' := by
  cases e with
  | funcSend i stale hdr missed => exact h.funcSend ha hhere hm hs
  | funcRead i => exact h.funcRead hs
  | serve hdr missed => exact h.serve ha hhere hm hs

theorem of_run (ha : Audible users) {buffer : Bytes} (hbuf : buffer.length = maxBuf)
    (hrun : SystemRun buffer users es s) (hm : ∀ e ∈ es, e.missed ≠ [] → lossy = true) :
    Conversing lossy users es s := by
  induction hrun with
  | init => exact init ha hbuf
  | @step es t e s' hr hhere hs ih =>
    have hprev := ih fun e he => hm e (List.mem_append_left _ he)
    exact hprev.step ha hhere (hm e (by simp)) hs

/-- What a client has been shown is the first part of what it will be. -/
theorem printed_of_lossless (h : Conversing false users es s) {i : ℕ} {t : Terminal}
    (ht : s.terminals[i]? = some t) :
    t.printed <+: repliesTo t.port s.sent ∧
      (s.Idle → t.isOpen = true → t.printed = repliesTo t.port s.sent) := by
  rcases h.sound with ⟨ds, hsound⟩
  rcases hsound.shown i t ht with ⟨rest, hkept, hrest⟩
  have hshown : t.printed ++ rest = repliesTo t.port (ds.map messageOf) := hkept
  have hheard : ds.map messageOf ++ s.inbox.filterMap requestOf = s.sent := hsound.heard
  constructor
  · apply List.IsPrefix.trans ⟨rest, hshown⟩
    rw [← hheard]
    exact repliesTo_prefix _ _ _
  · intro hidle hopen
    have hinbox := (hidle.2 t (List.mem_of_getElem? ht) hopen).1
    rw [hrest hopen, hinbox] at hshown
    rw [hidle.1] at hheard
    rw [← hheard, ← List.append_nil t.printed]
    simpa using hshown

end Conversing

/-! ## The whole exchange -/

/-- The server and its clients, each in a terminal that stays open, on ports that are
not the server's. Whatever comes first and whatever is lost for want of room, no access
is outside an array: a datagram that has come can be read and a line that has been typed
can be sent. Each line is good for a bounded number of steps. A client is shown answers
to messages from its port, in their order and under the server's numbers. When nothing is
lost these are the answers to the first messages, and once nobody has anything to do,
to all of them; and a client that shares its port with no other has sent the lines of
its terminal, all of them if it has not left. -/
theorem lines_answered {buffer : Bytes} (hbuf : buffer.length = maxBuf) {users : List (UInt16 × List Bytes)}
    (ha : Audible users) {es : List Event} {s : System} (hrun : SystemRun buffer users es s) :
    (s.inbox ≠ [] → ∀ hdr missed, Local hdr → ∃ s', s.step (.serve hdr missed) = some s') ∧
    (∀ (i : ℕ) (t : Terminal), s.terminals[i]? = some t → t.isOpen = true →
      (t.inbox ≠ [] → ∃ s', s.step (.funcRead i) = some s') ∧
      (t.stdin ≠ [] → ∀ stale hdr missed, ∃ s', s.step (.funcSend i stale hdr missed) = some s')) ∧
    es.length ≤ (2 * users.length + 3) * (users.map fun u => u.2.length).sum ∧
    (∃ heard, heard.Sublist s.sent ∧ ∀ (i : ℕ) (t : Terminal), s.terminals[i]? = some t →
      t.printed.Sublist (repliesTo t.port heard)) ∧
    ((∀ e ∈ es, e.missed = []) → ∀ (i : ℕ) (t : Terminal), s.terminals[i]? = some t →
      t.printed <+: repliesTo t.port s.sent ∧
        (s.Idle → t.isOpen = true → t.printed = repliesTo t.port s.sent)) ∧
    ∀ (i : ℕ) (t : Terminal), s.terminals[i]? = some t → ∃ u, users[i]? = some u ∧ t.port = u.1 ∧
      t.typed <+: u.2 ∧ (t.isOpen = true → t.stdin = [] → t.typed = u.2) ∧
      ((users.map Prod.fst).Nodup → textsOf t.port s.sent = t.typed) := by
  have h : Conversing true users es s := Conversing.of_run ha hbuf hrun fun _ _ _ => rfl
  rcases h.sound with ⟨ds, hsound⟩
  refine ⟨?_, ?_, ?_, ?_, ?_, ?_⟩
  · intro hne hdr missed hh
    cases hinbox : s.inbox with
    | nil => exact absurd hinbox hne
    | cons d inbox =>
      rcases hsound.exists_serve ha.notMem ha.capacity (h.sent_le ha) hinbox with ⟨server, reply, hserve⟩
      rw [System.step, hinbox]
      simp only [hserve, Option.map_some]
      exact ⟨_, rfl⟩
  · intro i t ht hopen
    constructor
    · intro hne
      cases hinbox : t.inbox with
      | nil => exact absurd hinbox hne
      | cons d inbox =>
        -- a datagram at the client is a message or an answer
        have hread : ∃ shown, Echo.funcRead t.port d = some shown := by
          have hport : t.port ≠ serverPort := fun he => ha.notMem (he ▸ hsound.port_mem ht)
          obtain ⟨port, text, -, hd | hd⟩ := hsound.mail i t ht d (by rw [hinbox]; exact List.mem_cons_self)
          · exact ⟨none, hd.funcRead hport⟩
          · exact ⟨_, hd.funcRead t.port⟩
        rcases hread with ⟨shown, hread⟩
        rw [System.step, ht, Option.bind_some, hopen, hinbox]
        simp only [hread, Option.map_some]
        exact ⟨_, rfl⟩
    · intro hne stale hdr missed
      obtain ⟨l, rest, hl, hlen, hline, -, -⟩ := h.typing.say ha.lines ht hopen hne
      exact ⟨_, System.step_funcSend ht hopen hl hlen hline⟩
  · have hweight := h.weight
    omega
  · refine ⟨ds.map messageOf, (List.sublist_append_left _ _).trans hsound.heard.sublist, ?_⟩
    intro i t ht
    rcases hsound.shown i t ht with ⟨rest, hkept, -⟩
    exact (List.sublist_append_left _ _).trans hkept.sublist
  · intro hlossless i t ht
    -- without loss the stronger invariant holds of the run
    have hall : Conversing false users es s :=
      Conversing.of_run ha hbuf hrun fun e he hne => absurd (hlossless e he) hne
    exact hall.printed_of_lossless ht
  · intro i t ht
    obtain ⟨u, left, hu, hport, htyped, hstdin, -⟩ := h.typing.reading i t ht
    refine ⟨u, hu, hport, ⟨left, htyped⟩, ?_, ?_⟩
    · intro _ hempty
      rw [hempty] at hstdin
      cases left with
      | nil => rw [← htyped, List.append_nil]
      | cons l left => simp [keyed] at hstdin
    · intro hnodup
      apply h.typing.own i t ht
      intro j v hv hvp
      rw [← hsound.own] at hnodup
      have hi := (List.getElem?_eq_some_iff.mp ht).1
      have hj := (List.getElem?_eq_some_iff.mp hv).1
      have hjlen : j < (s.terminals.map Terminal.port).length := by simpa using hj
      have hilen : i < (s.terminals.map Terminal.port).length := by simpa using hi
      -- with different ports another terminal on this one is this terminal
      have hsame : (s.terminals.map Terminal.port)[j] = (s.terminals.map Terminal.port)[i] := by
        rw [List.getElem_map, List.getElem_map, (List.getElem?_eq_some_iff.mp ht).2,
          (List.getElem?_eq_some_iff.mp hv).2, hvp]
      exact hnodup.getElem_inj_iff.mp hsame

/-- A header of twenty bytes. -/
def plainHeader : Bytes := 69 :: List.replicate 11 0 ++ (loopback ++ loopback)

/-- Two clients say something before the server looks; its answers come to all of them. -/
theorem lines_answered_two :
    ∃ s, SystemRun (List.replicate 4096 0) [(5000, [[97]]), (6000, [[98]])]
        ([.funcSend 0 [] plainHeader [], .funcSend 1 [] plainHeader []] ++
          List.replicate 4 (.serve plainHeader []) ++ List.replicate 4 (.funcRead 0) ++
          List.replicate 4 (.funcRead 1)) s ∧
      ∀ (i : ℕ) (t : Terminal), s.terminals[i]? = some t → t.isOpen = true →
        t.printed = repliesTo t.port s.sent := by
  have hex : (exec (guarded System.step fun _ e => e.fromHere)
      (System.init (List.replicate 4096 0) [(5000, [[97]]), (6000, [[98]])])
      ([.funcSend 0 [] plainHeader [], .funcSend 1 [] plainHeader []] ++
        List.replicate 4 (.serve plainHeader []) ++ List.replicate 4 (.funcRead 0) ++
        List.replicate 4 (.funcRead 1))).map (fun s => decide s.Idle) = some true := by
    decide +kernel
  rcases Run.exists_of_exec hex with ⟨s, hrun, hidle⟩
  have haudible : Audible [(5000, [[97]]), (6000, [[98]])] :=
    ⟨by decide, by decide, by decide, by decide⟩
  obtain ⟨-, -, -, -, hprinted, -⟩ := lines_answered List.length_replicate haudible hrun
  refine ⟨s, hrun, ?_⟩
  intro i t ht hopen
  exact (hprinted (by decide) i t ht).2 (of_decide_eq_true hidle) hopen

end EmbeddedCourse.Echo
