import EmbeddedCourse.SharedChat.Scripts

/-! # The server's slot

Clients hand their messages to the server through one slot and count them with
`sem_server`. Nothing makes a client wait until the message before its own has
been taken out. The counting (`Counts`) holds in every run; what is lost and
what is read twice depends on whether a slot is written before it has been
read (`Exclusive`).
-/

namespace EmbeddedCourse.SharedChat

open CString Chat Script Client

/-! ## Counting the messages -/

/-- A `fetch` counts one message. -/
def fetches : ServerOp → Int
  | .act .fetch => 1
  | _ => 0

/-- A write counts one message. -/
def writes : ClientOp → Int
  | .act (.write _) => 1
  | _ => 0

/-- Messages on their way to `sem_server` and from it to the `fetch`. -/
def toFetch (op : ServerOp) : Int := effect (only Sem.server) op + fetches op

def toPost (op : ClientOp) : Int := effect (only Sem.server) op - writes op

/-- The message of a client that is between its write and its post. -/
def Process.unposted (c : Process) : Int := load toPost c.writer

theorem load_toFetch_of_away {ops : List ServerOp} (h : Away ops) : load toFetch ops = 0 := by
  induction ops with
  | nil => rfl
  | cons op ops ih =>
    rcases (away_cons op ops).mp h with ⟨⟨hwait, hpost, hfetch⟩, hops⟩
    rw [load_cons, ih hops, Int.add_zero]
    rcases op with x | x | (_ | s | m)
    · have hx : x ≠ .server := fun he => hwait (he ▸ rfl)
      simp [toFetch, effect, only, fetches, hx]
    · have hx : x ≠ .server := fun he => hpost (he ▸ rfl)
      simp [toFetch, effect, only, fetches, hx]
    · exact absurd rfl hfetch
    · rfl
    · rfl

/-- A client is between its write and its post, or it is not. -/
theorem unposted_cases {c : Process} (h : c.Scripted) :
    c.unposted = 0 ∨ c.unposted = 1 ∧ .post .server ∈ c.writer ∧
      ∀ op ∈ c.writer, writes op = 0 := by
  obtain ⟨msg, ⟨-, hj⟩ | ⟨-, hs⟩⟩ := h
  · simp only [join, List.suffix_cons_iff, List.suffix_nil] at hj
    rcases hj with hw | hw | hw | hw | hw | hw <;> rw [Process.unposted, hw] <;>
      simp [toPost, effect, only, writes]
  · simp only [send, List.suffix_cons_iff, List.suffix_nil] at hs
    rcases hs with hw | hw | hw | hw | hw <;> rw [Process.unposted, hw] <;>
      simp [toPost, effect, only, writes]

theorem unposted_nonneg {s : System} (h : Shaped s) : 0 ≤ load Process.unposted s.clients := by
  refine load_nonneg _ fun c hc => ?_
  rcases unposted_cases (h.writer c hc) with h0 | ⟨h1, -⟩ <;> omega

/-- Reading threads leave `sem_server` alone. -/
theorem effect_reader {op : ClientOp} (h : op ∈ Client.readQueue) :
    effect (only Sem.server) op = 0 := by
  simp only [Client.readQueue, List.mem_cons, List.not_mem_nil, or_false] at h
  rcases h with rfl | rfl | rfl | rfl | rfl <;> rfl

/-! ## The count -/

/-- Every message written is read, or counted by `sem_server`, or in the hands
of its writer or of the server; the slot holds the last one. -/
structure Counts (s : System) : Prop extends Shaped s where
  balance : (s.sem .server : Int) + load toFetch s.todo + load Process.unposted s.clients =
    s.sent.length - s.got.length
  inbox : s.inbox = s.sent.getLast?.getD zeroMessage

namespace Counts

variable {s s' : System} {l : Label}

theorem init : Counts System.init where
  toShaped := Shaped.init
  balance := rfl
  inbox := rfl

theorem step (h : Counts s) (hs : s.step l = some s') : Counts s' := by
  have hshape := h.toShaped.step hs
  have hbal := h.balance
  cases System.step_inv hs with
  | start pid name fresh =>
    refine ⟨hshape, ?_, h.inbox⟩
    have hnew : Process.unposted ⟨pid, join (newClient pid name), Client.readQueue, false⟩ = 0 := rfl
    simpa [hnew] using hbal
  | exit i typed c hc idle =>
    refine ⟨hshape, ?_, h.inbox⟩
    have hold : c.unposted = 0 := by rw [Process.unposted, idle, load_nil]
    have hnew : Process.unposted { c with writer := send (leaveMessage c.pid), left := true } = 0 := rfl
    rw [System.setClient, load_set _ hc, hold, hnew]
    simpa using hbal
  | chat i typed c hc idle =>
    refine ⟨hshape, ?_, h.inbox⟩
    have hold : c.unposted = 0 := by rw [Process.unposted, idle, load_nil]
    have hnew : Process.unposted
        { c with writer := send (chatMessage c.pid (inputLine typed)) } = 0 := rfl
    rw [System.setClient, load_set _ hc, hold, hnew]
    simpa using hbal
  | empty i typed => exact h
  | put i c hc msg ops hw =>
    refine ⟨hshape, ?_, by simp⟩
    have hold : c.unposted = -1 + Process.unposted { c with writer := ops } := by
      rw [Process.unposted, hw, load_cons]
      rfl
    simp only [System.setClient, load_set _ hc, List.length_append, List.length_singleton]
    push_cast
    omega
  | write i c hc op ops hw hop v hrun =>
    refine ⟨hshape, ?_, h.inbox⟩
    have hquiet : writes op = 0 := by
      rcases op with x | x | (m | _)
      · rfl
      · rfl
      · exact absurd rfl (hop m)
      · rfl
    have hold : c.unposted =
        effect (only Sem.server) op + Process.unposted { c with writer := ops } := by
      rw [Process.unposted, hw, load_cons, toPost, hquiet, sub_zero]
      rfl
    have hval := value_run (only Sem.server) hrun
    rw [value_only, value_only] at hval
    simp only [System.setClient, load_set _ hc, hval]
    omega
  | read i c hc op ops hr v hrun =>
    refine ⟨hshape, ?_, h.inbox⟩
    have hmem : op ∈ Client.readQueue := by
      refine (h.reader c (List.mem_of_getElem? hc)).subset ?_
      rw [hr]
      exact List.mem_cons_self
    have hval := value_run (only Sem.server) hrun
    rw [value_only, value_only, effect_reader hmem] at hval
    have hnew : Process.unposted { c with reader := refill Client.readQueue ops } = c.unposted := rfl
    simp only [System.setClient, load_set _ hc, hval, hnew]
    omega
  | cancel i c hc hleft hdone =>
    refine ⟨hshape, ?_, h.inbox⟩
    have hnew : Process.unposted { c with reader := [] } = c.unposted := rfl
    simp only [System.setClient, load_set _ hc, hnew]
    omega
  | fetch past ops ht =>
    refine ⟨hshape, ?_, h.inbox⟩
    obtain rfl := h.fetch ht
    rw [ht, load_cons] at hbal
    have hfetch : toFetch (.act .fetch) = 1 := rfl
    rw [load_append, load_toFetch_of_away (away_answer past s.inbox s.server), List.length_append,
      List.length_singleton]
    push_cast
    omega
  | serve past op ops ht hop v hrun =>
    refine ⟨hshape, ?_, h.inbox⟩
    -- only a `fetch` counts, and this operation is none
    have hquiet : fetches op = 0 := by
      rcases op with x | x | (_ | srv | m)
      · rfl
      · rfl
      · exact absurd rfl hop
      · rfl
      · rfl
    have hval := value_run (only Sem.server) hrun
    rw [value_only, value_only] at hval
    rw [ht, load_cons, toFetch, hquiet] at hbal
    have hloop : load toFetch receive = 0 := rfl
    simp only [load_refill toFetch hloop, hval]
    omega

theorem got_le (h : Counts s) : s.got.length ≤ s.sent.length := by
  have hbal := h.balance
  have hnn := unposted_nonneg h.toShaped
  have htodo : 0 ≤ load toFetch s.todo := by
    rcases h.todo with hsuf | haway
    · simp only [receive, List.suffix_cons_iff, List.suffix_nil] at hsuf
      rcases hsuf with ht | ht | ht | ht | ht <;> rw [ht] <;> decide
    · rw [load_toFetch_of_away haway]
  omega

/-- The server fetches only when there is a message it has not read. -/
theorem fetch_pending (h : Counts s) {ops : List ServerOp} (ht : s.todo = .act .fetch :: ops) :
    s.got.length < s.sent.length := by
  have hbal := h.balance
  have hnn := unposted_nonneg h.toShaped
  obtain rfl := h.fetch ht
  rw [ht] at hbal
  have hload : load toFetch [.act .fetch, .post .mutex1] = 1 := rfl
  omega

end Counts

/-! ## Runs in which the slot is read before it is written again -/

/-- The message that a client is about to write. -/
def Process.writing (c : Process) : Option Message :=
  match c.writer with
  | .act (.write msg) :: _ => some msg
  | _ => none

/-- A message is written only when every message before it has been read. -/
def Exclusive (s : System) : Label → Prop
  | .write i => ∀ c ∈ s.clients[i]?, c.writing.isSome → s.sent.length = s.got.length
  | _ => True

instance : ∀ (s : System) (l : Label), Decidable (Exclusive s l)
  | s, .write i => inferInstanceAs (Decidable (∀ c ∈ s.clients[i]?, c.writing.isSome →
      s.sent.length = s.got.length))
  | _, .start _ _ | _, .type _ _ | _, .read _ | _, .cancel _ | _, .serve _ =>
    inferInstanceAs (Decidable True)

/-- The server has returned the messages written so far in the order in which
they were written, each once, but for the one that may still be in the slot. -/
structure InOrder (s : System) : Prop extends Counts s where
  indices : s.got.map Prod.fst = List.range s.got.length
  messages : s.got.map Prod.snd = s.sent.take s.got.length
  last : s.sent.length ≤ s.got.length + 1

namespace InOrder

variable {s s' : System} {l : Label}

theorem init : InOrder System.init where
  toCounts := Counts.init
  indices := rfl
  messages := rfl
  last := by simp [System.init]

theorem step (h : InOrder s) (hok : Exclusive s l) (hs : s.step l = some s') : InOrder s' := by
  have hcounts := h.toCounts.step hs
  cases System.step_inv hs with
  | put i c hc msg ops hw =>
    -- the slot is free, so the new message is the only one in it
    have hread : s.sent.length = s.got.length := hok c hc (by rw [Process.writing, hw]; rfl)
    refine ⟨hcounts, h.indices, ?_, ?_⟩
    · show s.got.map Prod.snd = (s.sent ++ [msg]).take s.got.length
      rw [h.messages, List.take_append_of_le_length (Nat.le_of_eq hread.symm)]
    · simp [hread, System.setClient]
  | fetch past ops ht =>
    have hpending := h.fetch_pending ht
    have hlast := h.last
    have hlen : s.sent.length = s.got.length + 1 := by omega
    refine ⟨hcounts, ?_, ?_, by simp [hlen]⟩
    · rw [List.map_append, h.indices, List.length_append, List.length_singleton,
        List.range_succ, hlen]
      rfl
    · -- the slot holds the only message that has not been read
      have hmem : s.got.length < s.sent.length := by omega
      have hslot : s.inbox = s.sent[s.got.length] := by
        rw [h.inbox, List.getLast?_eq_getElem?, hlen, Nat.add_sub_cancel,
          List.getElem?_eq_getElem hmem]
        rfl
      rw [List.map_append, h.messages, List.length_append, List.length_singleton,
        List.take_succ_eq_append_getElem hmem, hslot]
      rfl
  | start pid name fresh => exact ⟨hcounts, h.indices, h.messages, h.last⟩
  | exit i typed c hc idle => exact ⟨hcounts, h.indices, h.messages, h.last⟩
  | chat i typed c hc idle => exact ⟨hcounts, h.indices, h.messages, h.last⟩
  | empty i typed => exact h
  | write i c hc op ops hw hop v hrun => exact ⟨hcounts, h.indices, h.messages, h.last⟩
  | read i c hc op ops hr v hrun => exact ⟨hcounts, h.indices, h.messages, h.last⟩
  | cancel i c hc hleft hdone => exact ⟨hcounts, h.indices, h.messages, h.last⟩
  | serve past op ops ht hop v hrun => exact ⟨hcounts, h.indices, h.messages, h.last⟩

end InOrder

/-! ## Runs in which it is not -/

/-- A message was overwritten before it was read. -/
def Lost (s : System) : Prop := ∃ j, j + 1 < s.sent.length ∧ j ∉ s.got.map Prod.fst

/-- A lost message stays lost: the server only ever reads the last one. -/
theorem lost_step {s s' : System} {l : Label} (h : Lost s) (hs : s.step l = some s') : Lost s' := by
  rcases h with ⟨j, hj, hnot⟩
  cases System.step_inv hs with
  | put i c hc msg ops hw =>
    refine ⟨j, ?_, hnot⟩
    rw [List.length_append]
    omega
  | fetch past ops ht =>
    refine ⟨j, hj, ?_⟩
    rw [List.map_append, List.mem_append, List.map_singleton, List.mem_singleton]
    rintro (hold | hnew)
    · exact hnot hold
    · omega
  | start pid name fresh => exact ⟨j, hj, hnot⟩
  | exit i typed c hc idle => exact ⟨j, hj, hnot⟩
  | chat i typed c hc idle => exact ⟨j, hj, hnot⟩
  | empty i typed => exact ⟨j, hj, hnot⟩
  | write i c hc op ops hw hop v hrun => exact ⟨j, hj, hnot⟩
  | read i c hc op ops hr v hrun => exact ⟨j, hj, hnot⟩
  | cancel i c hc hleft hdone => exact ⟨j, hj, hnot⟩
  | serve past op ops ht hop v hrun => exact ⟨j, hj, hnot⟩

/-- The first write against the rule overwrites the message in the slot. -/
theorem lost_of_write {s s' : System} {l : Label} (h : InOrder s) (hbad : ¬ Exclusive s l)
    (hs : s.step l = some s') : Lost s' := by
  cases System.step_inv hs with
  | put i c hc msg ops hw =>
    -- the message in the slot is the last one written, and nobody has read it
    have hunread : s.sent.length ≠ s.got.length := fun hread => hbad fun _ _ _ => hread
    have hle := h.got_le
    refine ⟨s.got.length, ?_, ?_⟩
    · rw [List.length_append, List.length_singleton]
      omega
    · show s.got.length ∉ s.got.map Prod.fst
      rw [h.indices]
      exact List.not_mem_range_self
  | write i c hc op ops hw hop v hrun =>
    refine absurd (fun c' hc' hwriting => ?_) hbad
    obtain rfl : c = c' := Option.some.inj (hc.symm.trans hc')
    rw [Process.writing, hw] at hwriting
    split at hwriting
    · next msg _ heq => exact absurd (List.cons.inj heq).1 (hop msg)
    · simp at hwriting
  | start pid name fresh => exact absurd trivial hbad
  | exit i typed c hc idle => exact absurd trivial hbad
  | chat i typed c hc idle => exact absurd trivial hbad
  | empty i typed => exact absurd trivial hbad
  | read i c hc op ops hr v hrun => exact absurd trivial hbad
  | cancel i c hc hleft hdone => exact absurd trivial hbad
  | fetch past ops ht => exact absurd trivial hbad
  | serve past op ops ht hop v hrun => exact absurd trivial hbad

/-! ## The result -/

/-- Everything posted has been taken: the server waits on `sem_server` at zero,
and no client is between its write and its post. -/
structure Idle (s : System) : Prop where
  waiting : s.todo = receive
  empty : s.sem .server = 0
  posted : ∀ c ∈ s.clients, .post .server ∈ c.writer → ∃ op ∈ c.writer, writes op = 1

instance (s : System) : Decidable (Idle s) :=
  decidable_of_iff (s.todo = receive ∧ s.sem .server = 0 ∧
      ∀ c ∈ s.clients, .post .server ∈ c.writer → ∃ op ∈ c.writer, writes op = 1)
    ⟨fun h => ⟨h.1, h.2.1, h.2.2⟩, fun h => ⟨h.waiting, h.empty, h.posted⟩⟩

theorem Idle.unposted {s : System} (hidle : Idle s) (h : Shaped s) :
    ∀ c ∈ s.clients, c.unposted = 0 := by
  intro c hc
  rcases unposted_cases (h.writer c hc) with h0 | ⟨-, hpost, hwrite⟩
  · exact h0
  · rcases hidle.posted c hc hpost with ⟨op, hmem, hone⟩
    rw [hwrite op hmem] at hone
    exact absurd hone (by decide)

theorem Idle.all_got {s : System} (hidle : Idle s) (h : Counts s) :
    s.got.length = s.sent.length := by
  have hbal := h.balance
  have hzero : load Process.unposted s.clients = 0 := by
    rw [load, List.map_congr_left (hidle.unposted h.toShaped)]
    simp
  have hloop : load toFetch receive = 0 := rfl
  rw [hidle.waiting, hidle.empty, hloop, hzero] at hbal
  omega

/-- In every run in which each slot is read before it is written again, the
server returns the messages in the order in which they were written, each once,
and none is missing once it has taken all posts; and a run that ends so has
returned every message exactly once and in order only if it is such a run. -/
theorem inbox_in_order (ls : List Label) (s : System)
    (h : Machine.Run System.step (fun _ _ => True) System.init ls s) :
    (Machine.Run System.step Exclusive System.init ls s →
      s.got.map Prod.fst = List.range s.got.length ∧
        s.got.map Prod.snd = s.sent.take s.got.length ∧
          (Idle s → s.got.map Prod.snd = s.sent)) ∧
    (Idle s → (s.got.map Prod.fst = List.range s.sent.length ↔
      Machine.Run System.step Exclusive System.init ls s)) := by
  have hcounts : Counts s := h.invariant Counts Counts.init fun _ _ _ hi _ hs => hi.step hs
  have hclean : Machine.Run System.step Exclusive System.init ls s → InOrder s := fun hrun =>
    hrun.invariant InOrder InOrder.init fun _ _ _ hi hok hs => hi.step hok hs
  constructor
  · intro hrun
    have hin := hclean hrun
    refine ⟨hin.indices, hin.messages, ?_⟩
    intro hidle
    rw [hin.messages, hidle.all_got hcounts, List.take_length]
  · intro hidle
    constructor
    · intro hall
      -- a write over an unread message loses it for good
      rcases h.all_or_bad Exclusive Lost
        (fun _ _ _ _ hrun _ hbad hs => lost_of_write
          (hrun.invariant InOrder InOrder.init fun _ _ _ hi hok hs => hi.step hok.2 hs) hbad hs)
        (fun _ _ _ _ _ hlost _ hs => lost_step hlost hs) with hrun | ⟨j, hj, hnot⟩
      · exact hrun.mono fun _ _ hok => hok.2
      · rw [hall, List.mem_range] at hnot
        omega
    · intro hrun
      rw [(hclean hrun).indices, hidle.all_got hcounts]

/-- Two clients join before the server has read the first join: the first one
is lost and the second one read twice. -/
theorem inbox_overwritten :
    ∃ s, Machine.Run System.step (fun _ _ => True) System.init
      ([.start 1 (ascii ['a']), .start 2 (ascii ['b'])] ++ List.replicate 5 (.write 0) ++
        List.replicate 5 (.write 1) ++ List.replicate 15 (.serve ⟨[], 0⟩)) s ∧
      s.sent.map Message.fromMessage = [1, 2] ∧
        s.got.map (fun e => (e.1, e.2.fromMessage)) = [(1, 2), (1, 2)] := by
  have hrun : (Machine.exec (Machine.guarded System.step fun _ _ => True) System.init
      ([.start 1 (ascii ['a']), .start 2 (ascii ['b'])] ++ List.replicate 5 (.write 0) ++
        List.replicate 5 (.write 1) ++ List.replicate 15 (.serve ⟨[], 0⟩))).map
      (fun s => (s.sent.map Message.fromMessage, s.got.map fun e => (e.1, e.2.fromMessage))) =
        some ([1, 2], [(1, 2), (1, 2)]) := by
    decide +kernel
  rcases Machine.Run.exists_of_exec hrun with ⟨s, hs, hfacts⟩
  exact ⟨s, hs, (Prod.mk.inj hfacts).1, (Prod.mk.inj hfacts).2⟩

/-- Two clients start together and join one after the other, and the first one
says `x`; everybody reads what it is given. -/
def twoWriters : List Label :=
  List.flatten [[.start 1 (ascii ['a']), .start 2 (ascii ['b'])], List.replicate 5 (.write 0),
    List.replicate 12 (.serve ⟨[], 0⟩), List.replicate 5 (.read 0),
    List.replicate 5 (.write 1), List.replicate 14 (.serve ⟨[], 0⟩),
    List.replicate 5 (.read 0), List.replicate 5 (.read 1),
    [.type 0 (ascii ['x', '\n'])], List.replicate 4 (.write 0),
    List.replicate 12 (.serve ⟨[], 0⟩), List.replicate 5 (.read 1), List.replicate 5 (.read 0)]

/-- The server gets both joins and the line, in this order. -/
theorem inbox_in_order_two_writers :
    ∃ s, Machine.Run System.step Exclusive System.init twoWriters s ∧ Idle s ∧
      s.sent.map Message.fromMessage = [1, 2, 1] ∧
      s.got.map Prod.fst = [0, 1, 2] ∧ s.got.map Prod.snd = s.sent := by
  have hrun : (Machine.exec (Machine.guarded System.step Exclusive) System.init twoWriters).map
      (fun s => (decide (Idle s), s.sent.map Message.fromMessage, s.got.length)) =
        some (true, [1, 2, 1], 3) := by
    decide +kernel
  rcases Machine.Run.exists_of_exec hrun with ⟨s, hclean, hfacts⟩
  obtain ⟨hidle, hsent, hlen⟩ : decide (Idle s) = true ∧ _ ∧ _ := by simpa using hfacts
  have hfree : Machine.Run System.step (fun _ _ => True) System.init twoWriters s :=
    hclean.mono fun _ _ _ => trivial
  refine ⟨s, hclean, of_decide_eq_true hidle, hsent, ?_, ?_⟩
  · rw [((inbox_in_order _ s hfree).1 hclean).1, hlen]
    rfl
  · exact ((inbox_in_order _ s hfree).1 hclean).2.2 (of_decide_eq_true hidle)

end EmbeddedCourse.SharedChat
