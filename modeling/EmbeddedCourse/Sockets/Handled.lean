import EmbeddedCourse.Lib.Cells
import EmbeddedCourse.Sockets.ProducerConsumer

/-! # Every connection is handled once

The circular queue is a list of connections (`Queue.Valid`), each open connection
is in one pair of hands (`Ordered.held`), and every step of `main` and of the
workers moves connections from one place to the next. So what has been taken out
is what was put in first, and nobody closes a connection that is not its own.
-/

namespace EmbeddedCourse.ProducerConsumer

open Sockets

/-! ## The queue -/

namespace Queue

/-- The indices of a circular queue. -/
structure Valid (q : Queue) : Prop where
  length : q.queue.length = maxQueue
  front : q.front < maxQueue
  nonneg : 0 ≤ q.count
  le : q.count ≤ maxQueue
  back : q.back = (q.front + q.count.toNat) % maxQueue

variable {q : Queue}

theorem Valid.init : init.Valid := by
  constructor <;> simp [Queue.init, maxQueue]

theorem enqueue_of_lt (hroom : q.count < maxQueue) (client : Connection) :
    (q.enqueue client).2 = { q with
      queue := q.queue.set q.back client
      back := (q.back + 1) % maxQueue
      count := q.count + 1 } := by
  rw [enqueue, if_neg (Int.not_le.mpr hroom)]

theorem Valid.enqueue (h : q.Valid) (hroom : q.count < maxQueue) (client : Connection) :
    (q.enqueue client).2.Valid := by
  have hnonneg := h.nonneg
  have hnat : (q.count + 1).toNat = q.count.toNat + 1 := by omega
  rw [enqueue_of_lt hroom]
  constructor
  · rw [List.length_set]
    exact h.length
  · exact h.front
  · show 0 ≤ q.count + 1
    omega
  · show q.count + 1 ≤ maxQueue
    omega
  · show (q.back + 1) % maxQueue = (q.front + (q.count + 1).toNat) % maxQueue
    rw [hnat, h.back, Nat.mod_add_mod, Nat.add_assoc]

theorem contents_enqueue (h : q.Valid) (hroom : q.count < maxQueue) (client : Connection) :
    (q.enqueue client).2.contents = q.contents ++ [client] := by
  have hnonneg := h.nonneg
  have hnat : (q.count + 1).toNat = q.count.toNat + 1 := by omega
  have hlt : q.count.toNat < q.queue.length := by
    rw [h.length]
    omega
  have hback : q.back = (q.front + q.count.toNat) % q.queue.length := by rw [h.back, h.length]
  rw [enqueue_of_lt hroom]
  unfold contents
  dsimp only
  rw [hnat, hback]
  exact Ring.contents_set hlt noConnection q.front client

theorem Valid.dequeue (h : q.Valid) (hwork : q.count ≠ 0) : q.dequeue.2.Valid := by
  have hnonneg := h.nonneg
  have hnat : q.count.toNat = (q.count - 1).toNat + 1 := by omega
  constructor
  · exact h.length
  · exact Nat.mod_lt _ (by decide)
  · show 0 ≤ q.count - 1
    omega
  · have hle := h.le
    show q.count - 1 ≤ maxQueue
    omega
  · show q.back = ((q.front + 1) % maxQueue + (q.count - 1).toNat) % maxQueue
    rw [h.back, hnat, Nat.mod_add_mod]
    congr 1
    omega

theorem contents_dequeue (h : q.Valid) (hwork : q.count ≠ 0) :
    q.contents = q.dequeue.1 :: q.dequeue.2.contents := by
  have hnonneg := h.nonneg
  have hnat : q.count.toNat = (q.count - 1).toNat + 1 := by omega
  have hfront : q.front < q.queue.length := by
    rw [h.length]
    exact h.front
  unfold contents dequeue
  dsimp only
  rw [hnat, Ring.contents_succ hfront, h.length]

end Queue

/-! ## Whose connections are open -/

/-- The connection that `main` has accepted and not yet brought to the queue. -/
def Main.undecided : Main → List Connection
  | .enqueuing client => [client]
  | .accepting | .refusing _ => []

/-- The connection that `main` has been refused and has not yet closed. -/
def Main.refused : Main → List Connection
  | .refusing client => [client]
  | .accepting | .enqueuing _ => []

def Worker.held : Worker → List Connection
  | .sending client | .closing client => [client]
  | .waiting => []

/-- What worker `i` has taken out of the queue, in order. -/
def System.dequeuedBy (s : System) (i : ℕ) : List Connection :=
  (s.dequeued.filter fun e => e.1 = i).map Prod.snd

/-- What worker `i` has in hand. -/
def System.heldBy (s : System) (i : ℕ) : List Connection := (s.workers[i]?.map Worker.held).getD []

/-- The connections go through the server in order. -/
structure Ordered (s : System) : Prop where
  kernel : s.kernel.Sound
  queue : s.queue.Valid
  fifo : s.enqueued = s.dequeued.map Prod.snd ++ s.queue.contents
  arrived : s.kernel.accepted.Perm (s.enqueued ++ s.refused ++ s.main.undecided)
  held : s.kernel.opened.Perm
    (s.main.undecided ++ s.main.refused ++ s.queue.contents ++ s.workers.flatMap Worker.held)
  byMain : s.refused = s.kernel.closedBy .main ++ s.main.refused
  byWorker : ∀ i, s.dequeuedBy i = s.kernel.closedBy (.worker i) ++ s.heldBy i

/-! ## Updates of one worker -/

variable {s s' : System} {i : ℕ} {w w' : Worker}

theorem heldBy_of_getElem? (hw : s.workers[i]? = some w) : s.heldBy i = w.held := by
  rw [System.heldBy, hw]
  rfl

theorem heldBy_setWorker (hw : s.workers[i]? = some w) (w' : Worker) (j : ℕ) :
    (s.setWorker i w').heldBy j = if i = j then w'.held else s.heldBy j := by
  rcases List.getElem?_eq_some_iff.mp hw with ⟨hlt, -⟩
  unfold System.heldBy System.setWorker
  rw [List.getElem?_set]
  split_ifs with hj
  · simp
  · rfl

/-- What is open, when worker `i` has let go of `c` and holds `w'`. -/
theorem flatMap_setWorker (hw : s.workers[i]? = some w) (w' : Worker) (c : Connection) :
    ((s.setWorker i w').workers.flatMap Worker.held).count c + w.held.count c =
      (s.workers.flatMap Worker.held).count c + w'.held.count c := by
  rcases Cells.flatMap_set Worker.held hw w' with ⟨A, B, hold, hnew⟩
  show ((s.workers.set i w').flatMap Worker.held).count c + _ = _
  rw [hold, hnew]
  simp only [List.count_append]
  omega

/-! ## The steps -/

namespace Ordered

theorem init (n : ℕ) : Ordered (System.init n) where
  kernel := Kernel.Sound.init
  queue := Queue.Valid.init
  fifo := rfl
  arrived := List.Perm.refl _
  held := by
    have hnone : (List.replicate n Worker.waiting).flatMap Worker.held = [] := by
      simp [List.flatMap_replicate, Worker.held]
    show [].Perm ([] ++ [] ++ [] ++ (List.replicate n Worker.waiting).flatMap Worker.held)
    rw [hnone]
    exact List.Perm.refl _
  byMain := rfl
  byWorker := by
    intro i
    show [] = [] ++ ((List.replicate n Worker.waiting)[i]?.map Worker.held).getD []
    rw [List.getElem?_replicate]
    split_ifs <;> rfl

theorem accept (h : Ordered s) {fd : Int} (hmain : s.main = .accepting) (free : s.kernel.Free fd) :
    Ordered { s with kernel := s.kernel.accept fd, main := .enqueuing (s.kernel.next fd) } where
  kernel := h.kernel.accept free
  queue := h.queue
  fifo := h.fifo
  arrived := by
    have harrived := h.arrived
    rw [hmain] at harrived
    show (s.kernel.accepted ++ [s.kernel.next fd]).Perm (s.enqueued ++ s.refused ++ [s.kernel.next fd])
    refine (harrived.append_right _).trans ?_
    rw [Main.undecided, List.append_nil]
  held := by
    rw [List.perm_iff_count]
    intro c
    have hheld := h.held.count_eq c
    rw [hmain] at hheld
    simp only [List.count_append, Main.undecided, Main.refused, List.count_nil] at hheld
    simp only [Kernel.accept, List.count_append, Main.undecided, Main.refused, List.count_nil]
    omega
  byMain := by
    have hby := h.byMain
    rw [hmain] at hby
    exact hby
  byWorker := h.byWorker

/-- The queue is full: the connection is to be closed by `main`. -/
theorem refused (h : Ordered s) {client : Connection} (hmain : s.main = .enqueuing client) :
    Ordered { s with main := .refusing client, refused := s.refused ++ [client] } where
  kernel := h.kernel
  queue := h.queue
  fifo := h.fifo
  arrived := by
    have harrived := h.arrived
    rw [hmain, Main.undecided, List.append_assoc] at harrived
    show s.kernel.accepted.Perm (s.enqueued ++ (s.refused ++ [client]) ++ [])
    rw [List.append_nil]
    exact harrived
  held := by
    have hheld := h.held
    rw [hmain] at hheld
    exact hheld
  byMain := by
    have hby := h.byMain
    rw [hmain, Main.refused, List.append_nil] at hby
    show s.refused ++ [client] = s.kernel.closedBy .main ++ [client]
    rw [hby]
  byWorker := h.byWorker

/-- There is room: the connection goes behind the content of the queue. -/
theorem enqueue (h : Ordered s) {client : Connection} (hmain : s.main = .enqueuing client)
    (hroom : s.queue.count < maxQueue) :
    Ordered { s with
      queue := (s.queue.enqueue client).2, main := .accepting
      enqueued := s.enqueued ++ [client] } where
  kernel := h.kernel
  queue := h.queue.enqueue hroom client
  fifo := by
    show s.enqueued ++ [client] = s.dequeued.map Prod.snd ++ (s.queue.enqueue client).2.contents
    rw [Queue.contents_enqueue h.queue hroom, h.fifo, List.append_assoc]
  arrived := by
    rw [List.perm_iff_count]
    intro c
    -- `main` has decided: the connection is with those put into the queue
    have harrived := h.arrived.count_eq c
    rw [hmain] at harrived
    simp only [List.count_append, Main.undecided, List.count_nil] at harrived ⊢
    omega
  held := by
    rw [List.perm_iff_count]
    intro c
    -- it is held by the queue in place of `main`
    have hheld := h.held.count_eq c
    rw [hmain] at hheld
    simp only [Queue.contents_enqueue h.queue hroom, List.count_append, Main.undecided,
      Main.refused, List.count_nil] at hheld ⊢
    omega
  byMain := by
    have hby := h.byMain
    rw [hmain] at hby
    exact hby
  byWorker := h.byWorker

/-- `main` closes what it was refused. -/
theorem refuse (h : Ordered s) {client : Connection} (hmain : s.main = .refusing client) :
    Ordered { s with kernel := s.kernel.close .main client.fd, main := .accepting } := by
  have hheld := h.held
  rw [hmain] at hheld
  -- what was refused is still open, for `main` holds it
  have hopen : client ∈ s.kernel.opened := by
    apply hheld.mem_iff.mpr
    simp [Main.undecided, Main.refused]
  constructor
  · exact h.kernel.close .main hopen
  · exact h.queue
  · exact h.fifo
  · have harrived := h.arrived
    rw [hmain] at harrived
    rw [Kernel.close_of_mem h.kernel .main hopen]
    exact harrived
  · rw [Kernel.close_of_mem h.kernel .main hopen, List.perm_iff_count]
    intro c
    -- the connection leaves what is open and what `main` holds
    have hcount := (hheld.symm.trans (List.perm_cons_erase hopen)).count_eq c
    simp only [List.count_append, List.count_cons, Main.undecided, Main.refused,
      List.count_nil] at hcount ⊢
    omega
  · have hby := h.byMain
    rw [hmain, Main.refused] at hby
    dsimp only
    rw [Kernel.closedBy_close h.kernel .main .main hopen, if_pos rfl, hby, Main.refused, List.append_nil]
  · intro i
    dsimp only
    rw [Kernel.closedBy_close h.kernel .main (.worker i) hopen, if_neg (by simp), List.append_nil]
    exact h.byWorker i

/-- Worker `i` takes the front of the queue. -/
theorem dequeue (h : Ordered s) (hw : s.workers[i]? = some .waiting) (hwork : s.queue.count ≠ 0) :
    Ordered { s.setWorker i (.sending s.queue.dequeue.1) with
      queue := s.queue.dequeue.2, dequeued := s.dequeued ++ [(i, s.queue.dequeue.1)] } := by
  have hcontents := Queue.contents_dequeue h.queue hwork
  constructor
  · exact h.kernel
  · exact h.queue.dequeue hwork
  · -- the front of the queue becomes the last one taken out
    have hfifo := h.fifo
    rw [hcontents] at hfifo
    show s.enqueued = (s.dequeued ++ [(i, s.queue.dequeue.1)]).map Prod.snd ++ s.queue.dequeue.2.contents
    rw [hfifo, List.map_append, List.map_singleton, List.append_assoc, List.singleton_append]
  · exact h.arrived
  · rw [List.perm_iff_count]
    intro c
    have hheld := h.held.count_eq c
    -- the worker holds it in place of the queue
    have hset := flatMap_setWorker hw (.sending s.queue.dequeue.1) c
    simp only [hcontents, List.count_append, List.count_cons, Worker.held, List.count_nil] at hheld hset ⊢
    show s.kernel.opened.count c = _
    dsimp only [System.setWorker] at hset ⊢
    omega
  · exact h.byMain
  · intro j
    have hby := h.byWorker j
    show ((s.dequeued ++ [(i, s.queue.dequeue.1)]).filter fun e => e.1 = j).map Prod.snd =
      s.kernel.closedBy (.worker j) ++ (s.setWorker i (.sending s.queue.dequeue.1)).heldBy j
    rw [heldBy_setWorker hw, List.filter_append, List.map_append]
    unfold System.dequeuedBy at hby
    by_cases hj : i = j
    · subst hj
      rw [heldBy_of_getElem? hw, Worker.held, List.append_nil] at hby
      simpa [Worker.held] using hby
    · simpa [hj] using hby

theorem send (h : Ordered s) {client : Connection} (hw : s.workers[i]? = some (.sending client)) :
    Ordered (s.setWorker i (.closing client)) := by
  constructor
  · exact h.kernel
  · exact h.queue
  · exact h.fifo
  · exact h.arrived
  · rw [List.perm_iff_count]
    intro c
    have hheld := h.held.count_eq c
    have hset := flatMap_setWorker hw (.closing client) c
    simp only [List.count_append, Worker.held] at hheld hset ⊢
    dsimp only [System.setWorker] at hset ⊢
    omega
  · exact h.byMain
  · intro j
    have hby := h.byWorker j
    show s.dequeuedBy j = s.kernel.closedBy (.worker j) ++ (s.setWorker i (.closing client)).heldBy j
    rw [heldBy_setWorker hw]
    split_ifs with hj
    · subst hj
      rw [heldBy_of_getElem? hw] at hby
      exact hby
    · exact hby

/-- Worker `i` closes the connection it has served. -/
theorem close (h : Ordered s) {client : Connection} (hw : s.workers[i]? = some (.closing client)) :
    Ordered { s.setWorker i .waiting with kernel := s.kernel.close (.worker i) client.fd } := by
  -- the worker holds the connection, so it is open
  have hopen : client ∈ s.kernel.opened := by
    apply h.held.mem_iff.mpr
    apply List.mem_append_right
    exact List.mem_flatMap.mpr ⟨_, List.mem_of_getElem? hw, List.mem_singleton_self _⟩
  constructor
  · exact h.kernel.close (.worker i) hopen
  · exact h.queue
  · exact h.fifo
  · rw [Kernel.close_of_mem h.kernel (.worker i) hopen]
    exact h.arrived
  · rw [Kernel.close_of_mem h.kernel (.worker i) hopen, List.perm_iff_count]
    intro c
    have hcount := (h.held.symm.trans (List.perm_cons_erase hopen)).count_eq c
    -- it leaves what is open and what the worker holds
    have hset := flatMap_setWorker hw .waiting c
    simp only [List.count_append, List.count_cons, Worker.held, List.count_nil] at hcount hset ⊢
    dsimp only [System.setWorker] at hset ⊢
    omega
  · dsimp only
    rw [Kernel.closedBy_close h.kernel (.worker i) .main hopen, if_neg (by simp), List.append_nil]
    exact h.byMain
  · intro j
    have hby := h.byWorker j
    show s.dequeuedBy j = (s.kernel.close (.worker i) client.fd).closedBy (.worker j) ++
      (s.setWorker i .waiting).heldBy j
    rw [Kernel.closedBy_close h.kernel (.worker i) (.worker j) hopen, heldBy_setWorker hw, hby]
    by_cases hj : i = j
    · subst hj
      rw [heldBy_of_getElem? hw]
      simp [Worker.held]
    · simp [hj]

theorem step {l : Label} (h : Ordered s) (hs : s.step l = some s') : Ordered s' := by
  cases l with
  | accept fd =>
    rcases accept_cases hs with rfl | ⟨hmain, free, rfl⟩
    · exact h
    · exact h.accept hmain free
  | enqueue =>
    rcases enqueue_cases hs with ⟨client, hmain, ⟨-, rfl⟩ | ⟨hroom, rfl⟩⟩
    · exact h.refused hmain
    · exact h.enqueue hmain hroom
  | refuse =>
    rcases refuse_cases hs with ⟨client, hmain, rfl⟩
    exact h.refuse hmain
  | dequeue i =>
    rcases dequeue_cases hs with rfl | ⟨hw, hwork, rfl⟩
    · exact h
    · exact h.dequeue hw hwork
  | send i =>
    rcases send_cases hs with ⟨client, hw, rfl⟩
    exact h.send hw
  | close i =>
    rcases close_cases hs with ⟨client, hw, rfl⟩
    exact h.close hw

end Ordered

/-! ## The result -/

/-- The runs of the server with `n` workers. -/
abbrev SystemRun (n : ℕ) (ls : List Label) (s : System) : Prop :=
  Machine.Run System.step (fun _ _ => True) (System.init n) ls s

theorem ordered_of_run {n : ℕ} {ls : List Label} (hrun : SystemRun n ls s) : Ordered s := by
  apply hrun.invariant Ordered (Ordered.init n)
  intro s l s' hord _ hs
  exact hord.step hs

/-- `main` closes what it was refused, a worker what it has taken out of the queue. -/
def System.Entitled (s : System) : Closer → Connection → Prop
  | .main, c => c ∈ s.refused
  | .worker i, c => (i, c) ∈ s.dequeued

theorem Ordered.entitled (h : Ordered s) {e : Closer × Connection} (he : e ∈ s.kernel.closed) :
    s.Entitled e.1 e.2 := by
  rcases e with ⟨who, c⟩
  have hclosed : c ∈ s.kernel.closedBy who :=
    List.mem_map.mpr ⟨(who, c), List.mem_filter.mpr ⟨he, by simp⟩, rfl⟩
  cases who with
  | main =>
    show c ∈ s.refused
    rw [h.byMain]
    exact List.mem_append_left _ hclosed
  | worker i =>
    have hmem : c ∈ s.dequeuedBy i := by
      rw [h.byWorker i]
      exact List.mem_append_left _ hclosed
    rcases List.mem_map.mp hmem with ⟨⟨j, _⟩, hj, rfl⟩
    rcases List.mem_filter.mp hj with ⟨hin, hji⟩
    obtain rfl : j = i := by simpa using hji
    exact hin

/-- In every state of every run, with any number of workers: what has been taken
out is what was put in first, and the rest stands in the ring; the indices fit;
a refused `enqueue` changes nothing; every accepted connection is open or has
been closed once; it is refused, or taken out by one worker, at most once; and
it is closed by whom it went to. -/
theorem handled_once (n : ℕ) (ls : List Label) (s : System) (hrun : SystemRun n ls s) :
    s.enqueued = s.dequeued.map Prod.snd ++ s.queue.contents ∧
      (0 ≤ s.queue.count ∧ s.queue.count ≤ maxQueue ∧
        (s.queue.back : Int) = (s.queue.front + s.queue.count) % maxQueue) ∧
      (∀ client, (s.queue.enqueue client).1 ≠ 0 → (s.queue.enqueue client).2 = s.queue) ∧
      (s.kernel.accepted.Nodup ∧
        s.kernel.accepted.Perm (s.kernel.opened ++ s.kernel.closed.map Prod.snd)) ∧
      (s.refused ++ s.dequeued.map Prod.snd).Nodup ∧
      ∀ e ∈ s.kernel.closed, s.Entitled e.1 e.2 := by
  have hord := ordered_of_run hrun
  refine ⟨hord.fifo, ⟨hord.queue.nonneg, hord.queue.le, ?_⟩, ?_,
    ⟨hord.kernel.nodup, hord.kernel.parts⟩, ?_, fun e he => hord.entitled he⟩
  · have hnonneg := hord.queue.nonneg
    rw [hord.queue.back, Int.natCast_mod, Int.natCast_add, Int.toNat_of_nonneg hnonneg]
  · intro client
    unfold Queue.enqueue
    split_ifs <;> simp
  · -- they are different parts of what has been accepted
    have hnodup := hord.arrived.nodup_iff.mp hord.kernel.nodup
    rw [hord.fifo, List.append_assoc (s.dequeued.map Prod.snd)] at hnodup
    refine (List.Perm.nodup_iff List.perm_append_comm).mp (hnodup.sublist ?_)
    refine List.Sublist.trans ?_ (List.sublist_append_left _ _)
    exact List.Sublist.append (List.Sublist.refl _) (List.sublist_append_right _ _)

/-- More connections than the queue holds: the last one is refused, and the
worker serves the first one. -/
def crowd : List Label :=
  (List.range 21).flatMap (fun k => [.accept (k + 4), .enqueue]) ++
    [.refuse, .dequeue 0, .send 0, .close 0, .accept 4]

theorem handled_once_crowd : ∃ s, SystemRun 2 crowd s ∧
    s.kernel.closed = [(.main, ⟨24, 20⟩), (.worker 0, ⟨4, 0⟩)] ∧
    s.enqueued = s.dequeued.map Prod.snd ++ s.queue.contents ∧
    ∀ e ∈ s.kernel.closed, s.Entitled e.1 e.2 := by
  have hrun : (Machine.exec (Machine.guarded System.step fun _ _ => True) (System.init 2) crowd).map
      (fun s => s.kernel.closed) = some [(.main, ⟨24, 20⟩), (.worker 0, ⟨4, 0⟩)] := by
    decide +kernel
  rcases Machine.Run.exists_of_exec hrun with ⟨s, hrun, hclosed⟩
  rcases handled_once 2 crowd s hrun with ⟨hfifo, -, -, -, -, hclosers⟩
  exact ⟨s, hrun, hclosed, hfifo, hclosers⟩

end EmbeddedCourse.ProducerConsumer
