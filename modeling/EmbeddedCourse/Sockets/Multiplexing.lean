import EmbeddedCourse.Lib.CString
import EmbeddedCourse.Lib.Waiting

/-! # One loop for two kinds of clients

`Sockets/Task_2/Multiplexing_IN_OUT/server.c`: a pass of the loop serves at most one
connection and one datagram, of those that `select` has found. Neither kind keeps the
other waiting, whatever arrives (`datagram_within`, `client_within`). What the loop
does not survive is a datagram that fills the buffer without a NUL: `strlen` then runs
out of it.
-/

namespace EmbeddedCourse.Multiplexing

open CString

/-- `struct sockaddr_in`, as far as it tells clients apart. -/
structure Address where
  addr : UInt32
  port : UInt16
deriving DecidableEq, Repr

structure Datagram where
  sender : Address
  bytes : Bytes
deriving DecidableEq, Repr

/-- Where the loop is, with `client_fd`, for which the number of the client stands here, or
`client_addr`, and with what `select` has said of `udp_fd`. -/
inductive Position where
  | selecting
  | accepting (udp : Bool)
  | sending (client : ℕ) (udp : Bool)
  | closing (client : ℕ) (udp : Bool)
  | receiving
  | clearing (clientAddr : Address)
  | answering (clientAddr : Address)
  /-- `strlen` has read, or `sprintf` has written, behind the buffer. -/
  | crashed
deriving DecidableEq, Repr

structure Server where
  position : Position
  backlog : List ℕ
  datagrams : List Datagram
  buffer : Bytes
  /-- What has been sent on the connections. -/
  told : List (ℕ × Bytes)
  closed : List ℕ
  answers : List (Address × Bytes)
deriving DecidableEq, Repr

/-- A client connects, a datagram arrives, or the server goes on; `now` is what `time` returns
if it is called. -/
inductive Label where
  | connect (client : ℕ)
  | datagram (d : Datagram)
  | server (now : Int)
deriving DecidableEq, Repr

namespace Server

/-- The size of the buffer. -/
def bufferSize : ℕ := 256

def zeros : Bytes := List.replicate bufferSize 0

def init : Server :=
  { position := .selecting, backlog := [], datagrams := [], buffer := [], told := [], closed := [],
    answers := [] }

/-- `ctime` is that of the C library. -/
def serverStep (ctime : Int → Bytes) (s : Server) (now : Int) : Option Server :=
  match s.position with
  | .selecting =>
    -- `select` waits for one of the two
    if s.backlog = [] then
      if s.datagrams = [] then none else some { s with position := .receiving }
    else some { s with position := .accepting (s.datagrams ≠ []) }
  | .accepting udp =>
    match s.backlog with
    | [] => none
    | client :: backlog => some { s with position := .sending client udp, backlog := backlog }
  | .sending client udp =>
    some { s with position := .closing client udp, told := s.told ++ [(client, cstr (ctime now))] }
  | .closing client udp =>
    some { s with
      position := if udp then .receiving else .selecting
      closed := s.closed ++ [client] }
  | .receiving =>
    match s.datagrams with
    | [] => none
    | d :: datagrams =>
      some { s with
        position := .clearing d.sender, datagrams := datagrams, buffer := overlay zeros d.bytes }
  | .clearing clientAddr =>
    let size := (cstr s.buffer).length
    if size = s.buffer.length then some { s with position := .crashed }
    else
      some { s with
        position := .answering clientAddr
        buffer := List.replicate size 0 ++ s.buffer.drop size }
  | .answering clientAddr =>
    let buffer := sprintf s.buffer (ctime now)
    if s.buffer.length ≤ (ctime now).length then some { s with position := .crashed }
    else
      some { s with
        position := .selecting
        buffer := buffer
        answers := s.answers ++ [(clientAddr, cstr buffer)] }
  | .crashed => none

def step (ctime : Int → Bytes) (s : Server) : Label → Option Server
  | .connect client => some { s with backlog := s.backlog ++ [client] }
  | .datagram d => some { s with datagrams := s.datagrams ++ [d] }
  | .server now => s.serverStep ctime now

end Server

/-- The clients that have connected, in order. -/
def connects (ls : List Label) : List ℕ :=
  ls.filterMap fun l =>
    match l with
    | .connect client => some client
    | .datagram _ | .server _ => none

/-- The datagrams that have arrived, in order. -/
def arrived (ls : List Label) : List Datagram :=
  ls.filterMap fun l =>
    match l with
    | .datagram d => some d
    | .connect _ | .server _ => none

/-- The datagram fills the buffer and leaves no NUL in it. -/
def Overlong (d : Datagram) : Prop :=
  Server.bufferSize ≤ d.bytes.length ∧ NoNul (d.bytes.take Server.bufferSize)

instance (d : Datagram) : Decidable (Overlong d) :=
  inferInstanceAs (Decidable (_ ≤ _ ∧ ¬ _))

namespace Server

variable {ctime : Int → Bytes} {s s' : Server} {l : Label} {ls : List Label}

/-- The client that is being served. -/
def served (s : Server) : List ℕ :=
  match s.position with
  | .sending client _ | .closing client _ => [client]
  | _ => []

/-- The client that has been told the time and is not closed yet. -/
def toClose (s : Server) : List ℕ :=
  match s.position with
  | .closing client _ => [client]
  | _ => []

/-- Who is about to be answered. -/
def toAnswer (s : Server) : List Address :=
  match s.position with
  | .answering clientAddr => [clientAddr]
  | _ => []

/-- The datagram in the buffer, before it is cleared. -/
def InBuffer (s : Server) (hand : List Datagram) : Prop :=
  match s.position with
  | .clearing clientAddr => ∃ d, hand = [d] ∧ d.sender = clientAddr ∧ s.buffer = overlay zeros d.bytes
  | .crashed => ∃ d, hand = [d] ∧ Overlong d
  | .answering _ => hand = [] ∧ s.buffer.length = bufferSize
  | _ => hand = []

/-- What `select` has found is still there. -/
def Found (s : Server) : Prop :=
  match s.position with
  | .accepting udp => s.backlog ≠ [] ∧ (udp = true → s.datagrams ≠ [])
  | .sending _ udp | .closing _ udp => udp = true → s.datagrams ≠ []
  | .receiving => s.datagrams ≠ []
  | .selecting | .clearing _ | .answering _ | .crashed => True

/-- How the server stands to what has arrived: `handled` are the datagrams that the buffer was
cleared of. -/
structure Stands (ctime : Int → Bytes) (ls : List Label) (s : Server) (handled hand : List Datagram) :
    Prop where
  clients : connects ls = s.closed ++ s.served ++ s.backlog
  told : s.told.map Prod.fst = s.closed ++ s.toClose
  datagrams : arrived ls = handled ++ hand ++ s.datagrams
  inBuffer : s.InBuffer hand
  fit : ∀ d ∈ handled, ¬ Overlong d
  answers : handled.map Datagram.sender = s.answers.map Prod.fst ++ s.toAnswer
  toldTime : ∀ a ∈ s.told, ∃ now, .server now ∈ ls ∧ a.2 = ctime now
  answersTime : ∀ a ∈ s.answers, ∃ now, .server now ∈ ls ∧ a.2 = ctime now
  found : s.Found

/-- `ctime` returns a string that fits the buffer. -/
structure Printable (ctime : Int → Bytes) : Prop where
  noNul : ∀ now, NoNul (ctime now)
  fits : ∀ now, (ctime now).length < bufferSize

theorem length_overlay_zeros (bytes : Bytes) : (overlay zeros bytes).length = bufferSize := by
  simp only [overlay, zeros, List.length_append, List.length_take, List.length_drop,
    List.length_replicate]
  omega

/-- There is no NUL in the buffer exactly after an overlong datagram. -/
theorem length_cstr_overlay (d : Datagram) :
    (cstr (overlay zeros d.bytes)).length = (overlay zeros d.bytes).length ↔ Overlong d := by
  -- the C string is as long as its buffer when there is no NUL in it
  have hfull : ∀ b : Bytes, (cstr b).length = b.length ↔ NoNul b := by
    intro b
    constructor
    · intro h
      have hsame : cstr b = b := (List.takeWhile_prefix _).eq_of_length h
      exact hsame ▸ noNul_cstr b
    · intro h
      rw [cstr_of_noNul h]
  rw [hfull, Overlong]
  by_cases hlen : bufferSize ≤ d.bytes.length
  · -- nothing is left of the zeros
    have hall : overlay zeros d.bytes = d.bytes.take bufferSize := by
      have hdrop : zeros.drop d.bytes.length = [] := by
        rw [List.drop_eq_nil_iff, zeros, List.length_replicate]
        exact hlen
      rw [overlay, hdrop, List.append_nil, zeros, List.length_replicate]
    rw [hall]
    exact ⟨fun h => ⟨hlen, h⟩, fun h => h.2⟩
  · -- a zero is left behind a shorter datagram
    have hzero : (0 : UInt8) ∈ overlay zeros d.bytes := by
      apply List.mem_append_right
      rw [zeros, List.drop_replicate]
      exact List.mem_replicate.mpr ⟨by omega, rfl⟩
    exact ⟨fun h => absurd hzero h, fun h => absurd h.1 hlen⟩

@[simp] theorem connects_append (ls ls' : List Label) :
    connects (ls ++ ls') = connects ls ++ connects ls' := List.filterMap_append

@[simp] theorem arrived_append (ls ls' : List Label) :
    arrived (ls ++ ls') = arrived ls ++ arrived ls' := List.filterMap_append

@[simp] theorem connects_server (now : Int) : connects [.server now] = [] := rfl

@[simp] theorem arrived_server (now : Int) : arrived [.server now] = [] := rfl

variable {handled hand : List Datagram}

theorem Stands.init : Stands ctime [] init [] [] where
  clients := rfl
  told := rfl
  datagrams := rfl
  inBuffer := rfl
  fit := by simp
  answers := rfl
  toldTime := by simp [Server.init]
  answersTime := by simp [Server.init]
  found := trivial

/-- A client connects. -/
theorem Stands.connect (h : Stands ctime ls s handled hand) (client : ℕ) :
    Stands ctime (ls ++ [.connect client]) { s with backlog := s.backlog ++ [client] } handled hand where
  clients := by
    rw [connects_append, h.clients, List.append_assoc]
    rfl
  told := h.told
  datagrams := by
    rw [arrived_append, h.datagrams]
    exact List.append_nil _
  inBuffer := h.inBuffer
  fit := h.fit
  answers := h.answers
  toldTime := by
    intro a ha
    rcases h.toldTime a ha with ⟨now, hnow, htime⟩
    exact ⟨now, List.mem_append_left _ hnow, htime⟩
  answersTime := by
    intro a ha
    rcases h.answersTime a ha with ⟨now, hnow, htime⟩
    exact ⟨now, List.mem_append_left _ hnow, htime⟩
  found := by
    -- a client more in the backlog takes nothing away that was found
    have hfound := h.found
    unfold Found at hfound ⊢
    cases hp : s.position <;> simp_all

/-- A datagram arrives. -/
theorem Stands.datagram (h : Stands ctime ls s handled hand) (d : Datagram) :
    Stands ctime (ls ++ [.datagram d]) { s with datagrams := s.datagrams ++ [d] } handled hand where
  clients := by
    rw [connects_append, h.clients]
    exact List.append_nil _
  told := h.told
  datagrams := by
    rw [arrived_append, h.datagrams, List.append_assoc]
    rfl
  inBuffer := h.inBuffer
  fit := h.fit
  answers := h.answers
  toldTime := by
    intro a ha
    rcases h.toldTime a ha with ⟨now, hnow, htime⟩
    exact ⟨now, List.mem_append_left _ hnow, htime⟩
  answersTime := by
    intro a ha
    rcases h.answersTime a ha with ⟨now, hnow, htime⟩
    exact ⟨now, List.mem_append_left _ hnow, htime⟩
  found := by
    -- a datagram more takes nothing away that was found
    have hfound := h.found
    unfold Found at hfound ⊢
    cases hp : s.position <;> simp_all

/-- The times told so far are still those that `time` has returned. -/
theorem Stands.times (h : Stands ctime ls s handled hand) (now : Int) :
    (∀ a ∈ s.told, ∃ t, .server t ∈ ls ++ [.server now] ∧ a.2 = ctime t) ∧
      ∀ a ∈ s.answers, ∃ t, .server t ∈ ls ++ [.server now] ∧ a.2 = ctime t := by
  constructor
  · intro a ha
    rcases h.toldTime a ha with ⟨t, ht, htime⟩
    exact ⟨t, List.mem_append_left _ ht, htime⟩
  · intro a ha
    rcases h.answersTime a ha with ⟨t, ht, htime⟩
    exact ⟨t, List.mem_append_left _ ht, htime⟩

/-! ## The steps of the server -/

/-- What the server can do; it has then neither read nor written behind its buffer, but for
the one case. -/
inductive Serves (ctime : Int → Bytes) (hand : List Datagram) (now : Int) (s : Server) :
    Server → Prop where
  | onlyDatagram : s.position = .selecting → s.backlog = [] → s.datagrams ≠ [] →
      Serves ctime hand now s { s with position := .receiving }
  | clientFound : s.position = .selecting → s.backlog ≠ [] →
      Serves ctime hand now s { s with position := .accepting (s.datagrams ≠ []) }
  | accept (client : ℕ) (backlog : List ℕ) (udp : Bool) : s.position = .accepting udp →
      s.backlog = client :: backlog →
      Serves ctime hand now s { s with position := .sending client udp, backlog := backlog }
  | send (client : ℕ) (udp : Bool) : s.position = .sending client udp →
      Serves ctime hand now s { s with
        position := .closing client udp, told := s.told ++ [(client, ctime now)] }
  | close (client : ℕ) (udp : Bool) : s.position = .closing client udp →
      Serves ctime hand now s { s with
        position := if udp then .receiving else .selecting
        closed := s.closed ++ [client] }
  | receive (d : Datagram) (datagrams : List Datagram) : s.position = .receiving →
      s.datagrams = d :: datagrams →
      Serves ctime hand now s { s with
        position := .clearing d.sender, datagrams := datagrams, buffer := overlay zeros d.bytes }
  | crash (d : Datagram) : s.position = .clearing d.sender → hand = [d] → Overlong d →
      Serves ctime hand now s { s with position := .crashed }
  | clear (d : Datagram) (buffer : Bytes) : s.position = .clearing d.sender → hand = [d] →
      ¬ Overlong d → buffer.length = bufferSize →
      Serves ctime hand now s { s with position := .answering d.sender, buffer := buffer }
  | answer (clientAddr : Address) (buffer : Bytes) : s.position = .answering clientAddr →
      Serves ctime hand now s { s with
        position := .selecting, buffer := buffer, answers := s.answers ++ [(clientAddr, ctime now)] }

/-- Which kind of step the server takes, by where it is. -/
theorem serves_of_step (hc : Printable ctime) (h : Stands ctime ls s handled hand) {now : Int}
    (hs : s.serverStep ctime now = some s') : Serves ctime hand now s s' := by
  have hin := h.inBuffer
  unfold serverStep at hs
  unfold InBuffer at hin
  cases hp : s.position with
  | selecting =>
    simp only [hp] at hs
    -- a client that waits is served before a datagram
    by_cases hb : s.backlog = []
    · rw [if_pos hb] at hs
      by_cases hd : s.datagrams = []
      · rw [if_pos hd] at hs
        cases hs
      · rw [if_neg hd] at hs
        obtain rfl := Option.some.inj hs
        exact .onlyDatagram hp hb hd
    · rw [if_neg hb] at hs
      obtain rfl := Option.some.inj hs
      exact .clientFound hp hb
  | accepting udp =>
    simp only [hp] at hs
    cases hb : s.backlog with
    | nil =>
      rw [hb] at hs
      cases hs
    | cons client backlog =>
      rw [hb] at hs
      obtain rfl := Option.some.inj hs
      exact .accept client backlog udp hp hb
  | sending client udp =>
    simp only [hp, cstr_of_noNul (hc.noNul now)] at hs
    obtain rfl := Option.some.inj hs
    exact .send client udp hp
  | closing client udp =>
    simp only [hp] at hs
    obtain rfl := Option.some.inj hs
    exact .close client udp hp
  | receiving =>
    simp only [hp] at hs
    cases hd : s.datagrams with
    | nil =>
      rw [hd] at hs
      cases hs
    | cons d datagrams =>
      rw [hd] at hs
      obtain rfl := Option.some.inj hs
      exact .receive d datagrams hp hd
  | clearing clientAddr =>
    simp only [hp] at hs hin
    rcases hin with ⟨d, hhand, rfl, hbuffer⟩
    have hlength : s.buffer.length = bufferSize := by
      rw [hbuffer]
      exact length_overlay_zeros d.bytes
    -- without a NUL in the buffer `strlen` reads behind it
    have hover := length_cstr_overlay d
    rw [← hbuffer] at hover
    by_cases hlong : (cstr s.buffer).length = s.buffer.length
    · rw [if_pos hlong] at hs
      obtain rfl := Option.some.inj hs
      exact .crash d hp hhand (hover.mp hlong)
    · rw [if_neg hlong] at hs
      obtain rfl := Option.some.inj hs
      refine .clear d _ hp hhand (fun hd => hlong (hover.mpr hd)) ?_
      have hle := length_cstr_le s.buffer
      rw [List.length_append, List.length_replicate, List.length_drop]
      omega
  | answering clientAddr =>
    simp only [hp] at hs hin
    -- what `ctime` returns fits, so that `sprintf` stays inside the buffer
    have hfits : ¬ s.buffer.length ≤ (ctime now).length := by
      rw [hin.2]
      exact Nat.not_le_of_lt (hc.fits now)
    have htext : cstr (sprintf s.buffer (ctime now)) = ctime now :=
      cstr_terminated (hc.noNul now) _
    rw [if_neg hfits, htext] at hs
    obtain rfl := Option.some.inj hs
    exact .answer clientAddr _ hp
  | crashed =>
    simp only [hp] at hs
    cases hs

/-- What `select` reports is there, and nothing else moves. -/
theorem Stands.select (h : Stands ctime ls s handled hand) (now : Int) (hp : s.position = .selecting)
    {p : Position} (hserved : { s with position := p }.served = [])
    (hclose : { s with position := p }.toClose = [])
    (hanswer : { s with position := p }.toAnswer = [])
    (hin : { s with position := p }.InBuffer []) (hfound : { s with position := p }.Found) :
    Stands ctime (ls ++ [.server now]) { s with position := p } handled hand where
  clients := by
    rw [hserved]
    simpa [served, hp] using h.clients
  told := by
    rw [hclose]
    simpa [toClose, hp] using h.told
  datagrams := by simpa using h.datagrams
  inBuffer := by
    -- no datagram is at hand in front of `select`
    have hhand : hand = [] := by simpa [InBuffer, hp] using h.inBuffer
    rw [hhand]
    exact hin
  fit := h.fit
  answers := by
    rw [hanswer]
    simpa [toAnswer, hp] using h.answers
  toldTime := (h.times now).1
  answersTime := (h.times now).2
  found := hfound

/-- The first client of the queue is taken out. -/
theorem Stands.accept (h : Stands ctime ls s handled hand) (now : Int) {client : ℕ}
    {backlog : List ℕ} {udp : Bool} (hp : s.position = .accepting udp)
    (hb : s.backlog = client :: backlog) :
    Stands ctime (ls ++ [.server now]) { s with position := .sending client udp, backlog := backlog }
      handled hand where
  clients := by simpa [served, hp, hb] using h.clients
  told := by simpa [toClose, hp] using h.told
  datagrams := by simpa using h.datagrams
  inBuffer := by simpa [InBuffer, hp] using h.inBuffer
  fit := h.fit
  answers := by simpa [toAnswer, hp] using h.answers
  toldTime := (h.times now).1
  answersTime := (h.times now).2
  found := by
    have hfound := h.found
    simp only [Found, hp] at hfound
    exact hfound.2

/-- The client at hand is told what `time` returns at this step. -/
theorem Stands.send (h : Stands ctime ls s handled hand) (now : Int) {client : ℕ} {udp : Bool}
    (hp : s.position = .sending client udp) :
    Stands ctime (ls ++ [.server now])
      { s with position := .closing client udp, told := s.told ++ [(client, ctime now)] }
      handled hand where
  clients := by simpa [served, hp] using h.clients
  told := by
    have htold : s.told.map Prod.fst = s.closed := by simpa [toClose, hp] using h.told
    rw [List.map_append, htold]
    rfl
  datagrams := by simpa using h.datagrams
  inBuffer := by simpa [InBuffer, hp] using h.inBuffer
  fit := h.fit
  answers := by simpa [toAnswer, hp] using h.answers
  toldTime := by
    intro a ha
    -- the times told before are those of earlier steps
    rcases List.mem_append.mp ha with ha | ha
    · exact (h.times now).1 a ha
    · obtain rfl := List.mem_singleton.mp ha
      exact ⟨now, List.mem_append_right _ (by simp), rfl⟩
  answersTime := (h.times now).2
  found := by simpa [Found, hp] using h.found

/-- The client at hand is closed; `select` has said whether a datagram is next. -/
theorem Stands.close (h : Stands ctime ls s handled hand) (now : Int) {client : ℕ} {udp : Bool}
    (hp : s.position = .closing client udp) :
    Stands ctime (ls ++ [.server now])
      { s with
        position := if udp then .receiving else .selecting
        closed := s.closed ++ [client] } handled hand where
  clients := by
    have hclients : connects ls = s.closed ++ [client] ++ s.backlog := by
      simpa [served, hp] using h.clients
    rw [connects_append, connects_server, List.append_nil, hclients]
    cases udp <;> simp [served]
  told := by
    have htold : s.told.map Prod.fst = s.closed ++ [client] := by simpa [toClose, hp] using h.told
    rw [htold]
    cases udp <;> simp [toClose]
  datagrams := by simpa using h.datagrams
  inBuffer := by
    have hhand : hand = [] := by simpa [InBuffer, hp] using h.inBuffer
    cases udp <;> exact hhand
  fit := h.fit
  answers := by
    have hanswers : handled.map Datagram.sender = s.answers.map Prod.fst := by
      simpa [toAnswer, hp] using h.answers
    rw [hanswers]
    cases udp <;> simp [toAnswer]
  toldTime := (h.times now).1
  answersTime := (h.times now).2
  found := by
    have hfound := h.found
    simp only [Found, hp] at hfound
    -- the flag is what `select` has said of the datagrams
    cases udp with
    | false => trivial
    | true => exact hfound rfl

/-- The first datagram goes into the cleared buffer. -/
theorem Stands.receive (h : Stands ctime ls s handled hand) (now : Int) {d : Datagram}
    {datagrams : List Datagram} (hp : s.position = .receiving) (hd : s.datagrams = d :: datagrams) :
    Stands ctime (ls ++ [.server now])
      { s with
        position := .clearing d.sender, datagrams := datagrams, buffer := overlay zeros d.bytes }
      handled [d] where
  clients := by simpa [served, hp] using h.clients
  told := by simpa [toClose, hp] using h.told
  datagrams := by
    have hhand : hand = [] := by simpa [InBuffer, hp] using h.inBuffer
    simpa [hhand, hd] using h.datagrams
  inBuffer := ⟨d, rfl, rfl, rfl⟩
  fit := h.fit
  answers := by simpa [toAnswer, hp] using h.answers
  toldTime := (h.times now).1
  answersTime := (h.times now).2
  found := trivial

/-- `strlen` has run out of the buffer. -/
theorem Stands.crash (h : Stands ctime ls s handled hand) (now : Int) {d : Datagram}
    (hp : s.position = .clearing d.sender) (hhand : hand = [d]) (hover : Overlong d) :
    Stands ctime (ls ++ [.server now]) { s with position := .crashed } handled hand where
  clients := by simpa [served, hp] using h.clients
  told := by simpa [toClose, hp] using h.told
  datagrams := by simpa using h.datagrams
  inBuffer := ⟨d, hhand, hover⟩
  fit := h.fit
  answers := by simpa [toAnswer, hp] using h.answers
  toldTime := (h.times now).1
  answersTime := (h.times now).2
  found := trivial

/-- The datagram at hand is wiped out, its sender is to be answered. -/
theorem Stands.clear (h : Stands ctime ls s handled hand) (now : Int) {d : Datagram} {buffer : Bytes}
    (hp : s.position = .clearing d.sender) (hhand : hand = [d]) (hover : ¬ Overlong d)
    (hlength : buffer.length = bufferSize) :
    Stands ctime (ls ++ [.server now])
      { s with position := .answering d.sender, buffer := buffer } (handled ++ [d]) [] where
  clients := by simpa [served, hp] using h.clients
  told := by simpa [toClose, hp] using h.told
  datagrams := by simpa [hhand] using h.datagrams
  inBuffer := ⟨rfl, hlength⟩
  fit := by
    intro e he
    -- the datagram at hand now counts as handled
    rcases List.mem_append.mp he with he | he
    · exact h.fit e he
    · obtain rfl := List.mem_singleton.mp he
      exact hover
  answers := by
    have hanswers : handled.map Datagram.sender = s.answers.map Prod.fst := by
      simpa [toAnswer, hp] using h.answers
    rw [List.map_append, hanswers]
    rfl
  toldTime := (h.times now).1
  answersTime := (h.times now).2
  found := trivial

/-- The sender at hand is told what `time` returns at this step. -/
theorem Stands.answer (h : Stands ctime ls s handled hand) (now : Int) {clientAddr : Address}
    {buffer : Bytes} (hp : s.position = .answering clientAddr) :
    Stands ctime (ls ++ [.server now])
      { s with
        position := .selecting, buffer := buffer, answers := s.answers ++ [(clientAddr, ctime now)] }
      handled hand where
  clients := by simpa [served, hp] using h.clients
  told := by simpa [toClose, hp] using h.told
  datagrams := by simpa using h.datagrams
  inBuffer := by
    have hin := h.inBuffer
    simp only [InBuffer, hp] at hin
    exact hin.1
  fit := h.fit
  answers := by
    have hanswers : handled.map Datagram.sender = s.answers.map Prod.fst ++ [clientAddr] := by
      simpa [toAnswer, hp] using h.answers
    rw [hanswers, List.map_append]
    exact (List.append_nil _).symm
  toldTime := (h.times now).1
  answersTime := by
    intro a ha
    -- the answers before are those of earlier steps
    rcases List.mem_append.mp ha with ha | ha
    · exact (h.times now).2 a ha
    · obtain rfl := List.mem_singleton.mp ha
      exact ⟨now, List.mem_append_right _ (by simp), rfl⟩
  found := trivial

theorem Stands.server (h : Stands ctime ls s handled hand) {now : Int}
    (hs : Serves ctime hand now s s') :
    ∃ handled' hand', Stands ctime (ls ++ [.server now]) s' handled' hand' := by
  cases hs with
  | onlyDatagram hp _ hd => exact ⟨_, _, h.select now hp rfl rfl rfl rfl hd⟩
  | clientFound hp hb =>
    exact ⟨_, _, h.select now hp rfl rfl rfl rfl ⟨hb, fun hudp => of_decide_eq_true hudp⟩⟩
  | accept client backlog udp hp hb => exact ⟨_, _, h.accept now hp hb⟩
  | send client udp hp => exact ⟨_, _, h.send now hp⟩
  | close client udp hp => exact ⟨_, _, h.close now hp⟩
  | receive d datagrams hp hd => exact ⟨_, _, h.receive now hp hd⟩
  | crash d hp hhand hover => exact ⟨_, _, h.crash now hp hhand hover⟩
  | clear d buffer hp hhand hover hlength => exact ⟨_, _, h.clear now hp hhand hover hlength⟩
  | answer clientAddr buffer hp => exact ⟨_, _, h.answer now hp⟩

/-! ## Runs -/

/-- The runs of the server, from `s`. -/
abbrev RunFrom (ctime : Int → Bytes) (s : Server) (ls : List Label) (s' : Server) : Prop :=
  Machine.Run (step ctime) (fun _ _ => True) s ls s'

theorem Stands.step (hc : Printable ctime) (h : Stands ctime ls s handled hand)
    (hs : s.step ctime l = some s') :
    ∃ handled' hand', Stands ctime (ls ++ [l]) s' handled' hand' := by
  cases l with
  | connect client =>
    obtain rfl := Option.some.inj hs
    exact ⟨handled, hand, h.connect client⟩
  | datagram d =>
    obtain rfl := Option.some.inj hs
    exact ⟨handled, hand, h.datagram d⟩
  | server now => exact h.server (serves_of_step hc h hs)

theorem stands_of_run (hc : Printable ctime) (hrun : RunFrom ctime init ls s) :
    ∃ handled hand, Stands ctime ls s handled hand := by
  induction hrun with
  | init => exact ⟨[], [], .init⟩
  | step _ _ hs ih =>
    rcases ih with ⟨handled, hand, h⟩
    exact h.step hc hs

/-- The server waits for nothing that does not come: it can go on unless there is nobody to
serve. -/
theorem Stands.goes_on (h : Stands ctime ls s handled hand) (now : Int)
    (hs : s.serverStep ctime now = none) :
    s.position = .crashed ∨ s.position = .selecting ∧ s.backlog = [] ∧ s.datagrams = [] := by
  have hfound := h.found
  unfold Found at hfound
  unfold serverStep at hs
  cases hp : s.position with
  | selecting =>
    simp only [hp] at hs
    -- `select` blocks: nobody connects and no datagram is there
    split_ifs at hs with hb hd
    exact Or.inr ⟨rfl, hb, hd⟩
  | accepting udp =>
    simp only [hp] at hs hfound
    cases hb : s.backlog with
    -- `select` has found a client, so that `accept` does not block
    | nil => exact absurd hb hfound.1
    | cons client backlog => simp [hb] at hs
  | receiving =>
    simp only [hp] at hs hfound
    cases hd : s.datagrams with
    | nil => exact absurd hd hfound
    | cons d datagrams => simp [hd] at hs
  | sending | closing => simp [hp] at hs
  | clearing | answering =>
    simp only [hp] at hs
    split_ifs at hs
  | crashed => exact Or.inl rfl

/-! ## Nobody waits for the other kind -/

/-- The steps of the server itself. -/
def Own (l : Label) : Prop :=
  match l with
  | .server _ => True
  | .connect _ | .datagram _ => False

instance : DecidablePred Own := fun l =>
  match l with
  | .server _ => .isTrue trivial
  | .connect _ | .datagram _ => .isFalse id

/-- The steps until the next datagram is answered, if there is one. -/
def datagramWait : Position → ℕ
  | .selecting => 7
  | .accepting udp => if udp then 6 else 10
  | .sending _ udp => if udp then 5 else 9
  | .closing _ udp => if udp then 4 else 8
  | .receiving => 3
  | .clearing _ => 2
  | .answering _ | .crashed => 1

/-- The steps until the next client is closed, if there is one. -/
def clientWait : Position → ℕ
  | .selecting => 4
  | .accepting _ => 3
  | .sending _ _ => 2
  | .closing _ _ | .crashed => 1
  | .receiving => 7
  | .clearing _ => 6
  | .answering _ => 5

/-- The datagrams that are not answered yet. -/
def unanswered (s : Server) : ℕ :=
  s.datagrams.length +
    match s.position with
    | .clearing _ | .crashed | .answering _ => 1
    | _ => 0

/-- The clients that are not closed yet. -/
def unserved (s : Server) : ℕ := s.served.length + s.backlog.length

theorem datagramWait_pos (p : Position) : 0 < datagramWait p := by
  cases p with
  | accepting udp | sending _ udp | closing _ udp => cases udp <;> exact Nat.succ_pos _
  | selecting | receiving | clearing | answering | crashed => exact Nat.succ_pos _

theorem clientWait_pos (p : Position) : 0 < clientWait p := by
  cases p <;> exact Nat.succ_pos _

/-- A step of the server answers a datagram, or comes nearer to it. -/
theorem datagram_nearer (h : Stands ctime ls s handled hand) {now : Int}
    (hs : Serves ctime hand now s s') :
    s'.answers.length + s'.unanswered = s.answers.length + s.unanswered ∧
    (0 < s.unanswered →
      (s'.answers.length = s.answers.length ∧
        datagramWait s'.position + 1 ≤ datagramWait s.position) ∨
      (s'.answers.length = s.answers.length + 1 ∧ datagramWait s'.position ≤ 7)) := by
  have hfound := h.found
  unfold Found at hfound
  cases hs with
  | onlyDatagram hp _ hd => simp [unanswered, hp, datagramWait]
  | clientFound hp hb =>
    refine ⟨by simp [unanswered, hp], ?_⟩
    intro hpos
    -- nothing is at hand here, so an unanswered datagram waits at the socket
    have hd : s.datagrams ≠ [] := by
      intro hd
      simp [unanswered, hp, hd] at hpos
    simp [hp, hd, datagramWait]
  | accept client backlog udp hp hb => cases udp <;> simp [unanswered, hp, datagramWait]
  | send client udp hp => cases udp <;> simp [unanswered, hp, datagramWait]
  | close client udp hp => cases udp <;> simp [unanswered, hp, datagramWait]
  | receive d datagrams hp hd => simp [unanswered, hp, hd, datagramWait]
  | crash d hp hhand hover => simp [unanswered, hp, datagramWait]
  | clear d buffer hp hhand hover hlength => simp [unanswered, hp, datagramWait]
  | answer clientAddr buffer hp =>
    simp [unanswered, hp, datagramWait]
    omega

/-- A step of the server closes a client, or comes nearer to it. -/
theorem client_nearer {now : Int} (hs : Serves ctime hand now s s') :
    s'.closed.length + s'.unserved = s.closed.length + s.unserved ∧
    (0 < s.unserved →
      (s'.closed.length = s.closed.length ∧ clientWait s'.position + 1 ≤ clientWait s.position) ∨
      (s'.closed.length = s.closed.length + 1 ∧ clientWait s'.position ≤ 7)) := by
  cases hs with
  | onlyDatagram hp hb hd => simp [unserved, served, hp, hb]
  | clientFound hp hb => simp [unserved, served, hp, clientWait]
  | accept client backlog udp hp hb =>
    simp [unserved, served, hp, hb, clientWait]
    omega
  | send client udp hp => simp [unserved, served, hp, clientWait]
  | close client udp hp =>
    cases udp <;> simp [unserved, served, hp, clientWait] <;> omega
  | receive d datagrams hp hd => simp [unserved, served, hp, clientWait]
  | crash d hp hhand hover => simp [unserved, served, hp, clientWait]
  | clear d buffer hp hhand hover hlength => simp [unserved, served, hp, clientWait]
  | answer clientAddr buffer hp => simp [unserved, served, hp, clientWait]

/-- Clients that connect do not put off the next answer: each step of the server comes nearer
to it. -/
theorem waits_datagram (hc : Printable ctime) (target : ℕ) :
    Machine.Waits (step ctime) (fun _ _ => True) Own
      (fun s => (∃ ls handled hand, Stands ctime ls s handled hand) ∧
        target ≤ s.answers.length + s.unanswered)
      (fun s => s.answers.length) (fun s => datagramWait s.position) 7 target where
  keep := by
    rintro s l s' ⟨⟨ls, handled, hand, h⟩, htarget⟩ - hs
    refine ⟨⟨ls ++ [l], h.step hc hs⟩, ?_⟩
    cases l with
    | connect client =>
      obtain rfl := Option.some.inj hs
      exact htarget
    -- one more to answer does not put the others off
    | datagram d =>
      obtain rfl := Option.some.inj hs
      simp only [unanswered, List.length_append, List.length_singleton] at htarget ⊢
      omega
    | server now => exact (datagram_nearer h (serves_of_step hc h hs)).1 ▸ htarget
  pos := fun s _ _ => datagramWait_pos s.position
  mono := by
    rintro s l s' ⟨⟨ls, handled, hand, h⟩, -⟩ - hs
    cases l with
    | connect client | datagram d =>
      obtain rfl := Option.some.inj hs
      exact Nat.le_refl _
    | server now =>
      have hserves := serves_of_step hc h hs
      cases hserves <;> simp
  near := by
    rintro s l s' ⟨⟨ls, handled, hand, h⟩, htarget⟩ - hs hown hlt
    cases l with
    -- what others do is no step of the server
    | connect client | datagram d => cases hown
    | server now => exact (datagram_nearer h (serves_of_step hc h hs)).2 (by omega)
  other := by
    rintro s l s' - - hs hown -
    cases l with
    | connect client | datagram d =>
      obtain rfl := Option.some.inj hs
      exact ⟨rfl, Nat.le_refl _⟩
    | server now => exact absurd trivial hown

/-- Datagrams that arrive do not put off the next client: each step of the server comes nearer
to its close. -/
theorem waits_client (hc : Printable ctime) (target : ℕ) :
    Machine.Waits (step ctime) (fun _ _ => True) Own
      (fun s => (∃ ls handled hand, Stands ctime ls s handled hand) ∧
        target ≤ s.closed.length + s.unserved)
      (fun s => s.closed.length) (fun s => clientWait s.position) 7 target where
  keep := by
    rintro s l s' ⟨⟨ls, handled, hand, h⟩, htarget⟩ - hs
    refine ⟨⟨ls ++ [l], h.step hc hs⟩, ?_⟩
    cases l with
    -- one more to serve does not put the others off
    | connect client =>
      obtain rfl := Option.some.inj hs
      simp only [unserved, served, List.length_append, List.length_singleton] at htarget ⊢
      omega
    | datagram d =>
      obtain rfl := Option.some.inj hs
      exact htarget
    | server now => exact (client_nearer (serves_of_step hc h hs)).1 ▸ htarget
  pos := fun s _ _ => clientWait_pos s.position
  mono := by
    rintro s l s' ⟨⟨ls, handled, hand, h⟩, -⟩ - hs
    cases l with
    | connect client | datagram d =>
      obtain rfl := Option.some.inj hs
      exact Nat.le_refl _
    | server now =>
      have hserves := serves_of_step hc h hs
      cases hserves <;> simp
  near := by
    rintro s l s' ⟨⟨ls, handled, hand, h⟩, htarget⟩ - hs hown hlt
    cases l with
    | connect client | datagram d => cases hown
    | server now => exact (client_nearer (serves_of_step hc h hs)).2 (by omega)
  other := by
    rintro s l s' - - hs hown -
    cases l with
    | connect client | datagram d =>
      obtain rfl := Option.some.inj hs
      exact ⟨rfl, Nat.le_refl _⟩
    | server now => exact absurd trivial hown

theorem datagramWait_le (p : Position) : datagramWait p ≤ 10 := by
  cases p with
  | accepting udp | sending _ udp | closing _ udp => cases udp <;> simp [datagramWait]
  | selecting | receiving | clearing | answering | crashed => simp [datagramWait]

theorem clientWait_le (p : Position) : clientWait p ≤ 7 := by
  cases p <;> simp [clientWait]

/-- A datagram with `m` others before it is answered in the next ten steps of the server and
seven more for each of them, whatever clients connect meanwhile. -/
theorem datagram_within (hc : Printable ctime) (h : Stands ctime ls s handled hand)
    {ls' : List Label} (hrun : RunFrom ctime s ls' s') {m : ℕ} (hm : m < s.unanswered)
    (hlong : 10 + 7 * m ≤ ls'.countP Own) : s.answers.length + m + 1 ≤ s'.answers.length := by
  have hwait := datagramWait_le s.position
  have hinv : (∃ ls handled hand, Stands ctime ls s handled hand) ∧
      s.answers.length + m + 1 ≤ s.answers.length + s.unanswered :=
    ⟨⟨ls, handled, hand, h⟩, by omega⟩
  apply (waits_datagram hc (s.answers.length + m + 1)).reached hinv hrun
  have hbefore : s.answers.length + m + 1 - 1 - s.answers.length = m := by omega
  rw [hbefore]
  omega

/-- And so for a client, whatever datagrams arrive. -/
theorem client_within (hc : Printable ctime) (h : Stands ctime ls s handled hand)
    {ls' : List Label} (hrun : RunFrom ctime s ls' s') {m : ℕ} (hm : m < s.unserved)
    (hlong : 7 + 7 * m ≤ ls'.countP Own) : s.closed.length + m + 1 ≤ s'.closed.length := by
  have hwait := clientWait_le s.position
  have hinv : (∃ ls handled hand, Stands ctime ls s handled hand) ∧
      s.closed.length + m + 1 ≤ s.closed.length + s.unserved :=
    ⟨⟨ls, handled, hand, h⟩, by omega⟩
  apply (waits_client hc (s.closed.length + m + 1)).reached hinv hrun
  have hbefore : s.closed.length + m + 1 - 1 - s.closed.length = m := by omega
  rw [hbefore]
  omega

/-- The server and whatever reaches it, in any order. Clients and datagrams are served in the
order in which they came, each once and with a time that `time` returned (`Stands`); the
server crashes on an overlong datagram only; it blocks only when nobody is to be served, and
then everybody has been; and neither kind of client can keep the other waiting. -/
theorem everyone_served (ctime : Int → Bytes) (hc : Printable ctime) (ls : List Label) (s : Server)
    (hrun : RunFrom ctime init ls s) :
    (∃ handled hand, Stands ctime ls s handled hand ∧
      (s.position = .crashed → ∃ d, hand = [d] ∧ Overlong d)) ∧
    (∀ now, s.serverStep ctime now = none → s.position ≠ .crashed →
      s.closed = connects ls ∧ s.told.map Prod.fst = connects ls ∧
        s.answers.map Prod.fst = (arrived ls).map Datagram.sender) ∧
    (∀ ls' s' m, RunFrom ctime s ls' s' → m < s.unanswered → 10 + 7 * m ≤ ls'.countP Own →
      s.answers.length + m + 1 ≤ s'.answers.length) ∧
    ∀ ls' s' m, RunFrom ctime s ls' s' → m < s.unserved → 7 + 7 * m ≤ ls'.countP Own →
      s.closed.length + m + 1 ≤ s'.closed.length := by
  rcases stands_of_run hc hrun with ⟨handled, hand, h⟩
  refine ⟨⟨handled, hand, h, ?_⟩, ?_, ?_, ?_⟩
  · intro hp
    have hin := h.inBuffer
    unfold InBuffer at hin
    rwa [hp] at hin
  · intro now hs hp
    rcases h.goes_on now hs with hcrashed | ⟨hselect, hb, hd⟩
    · exact absurd hcrashed hp
    · -- the server waits in `select`: nobody is at hand, so all have been served
      have hclients := h.clients
      have htold := h.told
      have hdatagrams := h.datagrams
      have hin := h.inBuffer
      have hanswers := h.answers
      unfold served at hclients
      unfold toClose at htold
      unfold InBuffer at hin
      unfold toAnswer at hanswers
      simp only [hselect, hb, hd, List.append_nil] at hclients htold hdatagrams hin hanswers
      rw [hin, List.append_nil] at hdatagrams
      exact ⟨hclients.symm, htold.trans hclients.symm, by rw [hdatagrams, hanswers]⟩
  · intro ls' s' m hrun' hm hlong
    exact datagram_within hc h hrun' hm hlong
  · intro ls' s' m hrun' hm hlong
    exact client_within hc h hrun' hm hlong

/-- `"Thu Jan  1 00:00:00 1970\n"`. -/
def epoch : Bytes :=
  ascii ['T', 'h', 'u', ' ', 'J', 'a', 'n', ' ', ' ', '1', ' ', '0', '0', ':', '0', '0', ':', '0', '0',
    ' ', '1', '9', '7', '0', '\n']

/-- A client and two datagrams, of which the second is overlong. -/
def overrun : List Label :=
  [.connect 0, .server 0, .datagram ⟨⟨0x0100007F, 5000⟩, ascii ['h', 'i']⟩, .server 0, .server 0, .server 0,
    .server 0, .server 0, .server 0, .server 0,
    .datagram ⟨⟨0x0100007F, 5001⟩, List.replicate 300 65⟩, .server 0, .server 0, .server 0]

theorem everyone_served_overrun : ∃ s, RunFrom (fun _ => epoch) init overrun s ∧
    s.position = .crashed ∧ s.answers = [(⟨0x0100007F, 5000⟩, epoch)] ∧
    (∃ handled hand, Stands (fun _ => epoch) overrun s handled hand ∧
      (s.position = .crashed → ∃ d, hand = [d] ∧ Overlong d)) ∧
    (∀ now, s.serverStep (fun _ => epoch) now = none → s.position ≠ .crashed →
      s.closed = connects overrun ∧ s.told.map Prod.fst = connects overrun ∧
        s.answers.map Prod.fst = (arrived overrun).map Datagram.sender) ∧
    (∀ ls' s' m, RunFrom (fun _ => epoch) s ls' s' → m < s.unanswered → 10 + 7 * m ≤ ls'.countP Own →
      s.answers.length + m + 1 ≤ s'.answers.length) ∧
    ∀ ls' s' m, RunFrom (fun _ => epoch) s ls' s' → m < s.unserved → 7 + 7 * m ≤ ls'.countP Own →
      s.closed.length + m + 1 ≤ s'.closed.length := by
  have hprintable : Printable fun _ => epoch := by
    constructor
    · intro _
      decide
    · intro _
      decide
  have hrun : (Machine.exec (Machine.guarded (step fun _ => epoch) fun _ _ => True) init overrun).map
      (fun s => (s.position, s.answers)) = some (.crashed, [(⟨0x0100007F, 5000⟩, epoch)]) := by
    decide +kernel
  rcases Machine.Run.exists_of_exec hrun with ⟨s, hrun, hend⟩
  rcases Prod.mk.inj hend with ⟨hposition, hanswers⟩
  exact ⟨s, hrun, hposition, hanswers, everyone_served (fun _ => epoch) hprintable overrun s hrun⟩

end Server

end EmbeddedCourse.Multiplexing
