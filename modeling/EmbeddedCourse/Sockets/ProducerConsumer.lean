import EmbeddedCourse.Lib.Ring
import EmbeddedCourse.Lib.Run
import EmbeddedCourse.Sockets.Connections

/-! # The producer-consumer server

`Sockets/Task_2/Producer_Consumer/server.c`: `main` puts each connection that it
accepts into a circular queue, and the workers take them out, one step at a time.
What runs under the mutex is one step. A worker in front of the mutex and one in
`pthread_cond_wait` are both `waiting`: either may find out at any time whether
there is work, so every wakeup, late or spurious, is among the steps.
-/

namespace EmbeddedCourse.ProducerConsumer

open Sockets

/-- `MAX_QUEUE` -/
def maxQueue : ℕ := 20

/-- The globals `queue`, `front`, `back` and `count`. -/
structure Queue where
  queue : List Connection
  front : ℕ
  back : ℕ
  count : Int
deriving DecidableEq, Repr

namespace Queue

def init : Queue :=
  { queue := List.replicate maxQueue noConnection, front := 0, back := 0, count := 0 }

def enqueue (client : Connection) (q : Queue) : Int × Queue :=
  if (maxQueue : Int) ≤ q.count then (1, q)
  else
    (0, { q with
      queue := q.queue.set q.back client
      back := (q.back + 1) % maxQueue
      count := q.count + 1 })

def dequeue (q : Queue) : Connection × Queue :=
  (q.queue.getD q.front noConnection,
    { q with front := (q.front + 1) % maxQueue, count := q.count - 1 })

/-- The queue from `front` on, for `count` entries. -/
def contents (q : Queue) : List Connection :=
  Ring.contents q.queue noConnection q.front q.count.toNat

end Queue

/-- Who closes a connection. -/
inductive Closer where
  | main
  | worker (i : ℕ)
deriving DecidableEq, Repr

/-- Where `main` is: in front of `accept`, of `enqueue` or of `close`. -/
inductive Main where
  | accepting
  | enqueuing (client : Connection)
  | refusing (client : Connection)
deriving DecidableEq, Repr

/-- Where a worker is in `serve_clients`: in front of `dequeue`, of `send` or of `close`. -/
inductive Worker where
  | waiting
  | sending (client : Connection)
  | closing (client : Connection)
deriving DecidableEq, Repr

/-- The server, and what has been put into the queue, refused, and taken out by
which worker. -/
structure System where
  kernel : Kernel Closer
  queue : Queue
  main : Main
  workers : List Worker
  enqueued : List Connection
  refused : List Connection
  dequeued : List (ℕ × Connection)

/-- `accept` returns a descriptor or -1; a worker is named by its index. -/
inductive Label where
  | accept (fd : Int)
  | enqueue
  | refuse
  | dequeue (i : ℕ)
  | send (i : ℕ)
  | close (i : ℕ)
deriving DecidableEq, Repr

namespace System

/-- The server with `n` workers. -/
def init (n : ℕ) : System :=
  { kernel := Kernel.init, queue := Queue.init, main := .accepting
    workers := List.replicate n .waiting, enqueued := [], refused := [], dequeued := [] }

def setWorker (s : System) (i : ℕ) (w : Worker) : System :=
  { s with workers := s.workers.set i w }

def step (s : System) : Label → Option System
  | .accept fd =>
    if s.main = .accepting then
      if fd = -1 then some s
      else if s.kernel.Free fd then
        some { s with kernel := s.kernel.accept fd, main := .enqueuing (s.kernel.next fd) }
      else none
    else none
  | .enqueue =>
    match s.main with
    | .enqueuing client =>
      let r := s.queue.enqueue client
      if r.1 ≠ 0 then
        some { s with queue := r.2, main := .refusing client, refused := s.refused ++ [client] }
      else
        some { s with queue := r.2, main := .accepting, enqueued := s.enqueued ++ [client] }
    | _ => none
  | .refuse =>
    match s.main with
    | .refusing client =>
      some { s with kernel := s.kernel.close .main client.fd, main := .accepting }
    | _ => none
  | .dequeue i =>
    match s.workers[i]? with
    | some .waiting =>
      if s.queue.count = 0 then some s
      else
        let r := s.queue.dequeue
        some { s.setWorker i (.sending r.1) with
          queue := r.2, dequeued := s.dequeued ++ [(i, r.1)] }
    | _ => none
  | .send i =>
    match s.workers[i]? with
    | some (.sending client) => some (s.setWorker i (.closing client))
    | _ => none
  | .close i =>
    match s.workers[i]? with
    | some (.closing client) =>
      some { s.setWorker i .waiting with kernel := s.kernel.close (.worker i) client.fd }
    | _ => none

end System

/-! ## What a step can do -/

variable {s s' : System} {i : ℕ}

theorem accept_cases {fd : Int} (hs : s.step (.accept fd) = some s') :
    s' = s ∨ (s.main = .accepting ∧ s.kernel.Free fd ∧
      s' = { s with kernel := s.kernel.accept fd, main := .enqueuing (s.kernel.next fd) }) := by
  simp only [System.step] at hs
  split_ifs at hs with hmain hfail hfree
  · exact Or.inl (Option.some.inj hs).symm
  · exact Or.inr ⟨hmain, hfree, (Option.some.inj hs).symm⟩

/-- The queue is full and stays as it is, or the connection is put behind its content. -/
theorem enqueue_cases (hs : s.step .enqueue = some s') :
    ∃ client, s.main = .enqueuing client ∧
      (((maxQueue : Int) ≤ s.queue.count ∧
        s' = { s with main := .refusing client, refused := s.refused ++ [client] }) ∨
      (s.queue.count < maxQueue ∧
        s' = { s with
          queue := (s.queue.enqueue client).2
          main := .accepting
          enqueued := s.enqueued ++ [client] })) := by
  simp only [System.step] at hs
  split at hs
  · rename_i client hmain
    refine ⟨client, hmain, ?_⟩
    by_cases hfull : (maxQueue : Int) ≤ s.queue.count
    · left
      rw [Queue.enqueue, if_pos hfull, if_pos (by simp)] at hs
      exact ⟨hfull, (Option.some.inj hs).symm⟩
    · right
      have hzero : ¬ (s.queue.enqueue client).1 ≠ 0 := by simp [Queue.enqueue, hfull]
      rw [if_neg hzero] at hs
      exact ⟨Int.not_le.mp hfull, (Option.some.inj hs).symm⟩
  · cases hs

theorem refuse_cases (hs : s.step .refuse = some s') :
    ∃ client, s.main = .refusing client ∧
      s' = { s with kernel := s.kernel.close .main client.fd, main := .accepting } := by
  simp only [System.step] at hs
  split at hs
  · rename_i client hmain
    exact ⟨client, hmain, (Option.some.inj hs).symm⟩
  · cases hs

/-- A wakeup without work, or the front of the queue is taken. -/
theorem dequeue_cases (hs : s.step (.dequeue i) = some s') :
    s' = s ∨ (s.workers[i]? = some .waiting ∧ s.queue.count ≠ 0 ∧
      s' = { s.setWorker i (.sending s.queue.dequeue.1) with
        queue := s.queue.dequeue.2
        dequeued := s.dequeued ++ [(i, s.queue.dequeue.1)] }) := by
  simp only [System.step] at hs
  split at hs
  · rename_i hwait
    split_ifs at hs with hempty
    · exact Or.inl (Option.some.inj hs).symm
    · exact Or.inr ⟨hwait, hempty, (Option.some.inj hs).symm⟩
  · cases hs

theorem send_cases (hs : s.step (.send i) = some s') :
    ∃ client, s.workers[i]? = some (.sending client) ∧ s' = s.setWorker i (.closing client) := by
  simp only [System.step] at hs
  split at hs
  · rename_i client hw
    exact ⟨client, hw, (Option.some.inj hs).symm⟩
  · cases hs

theorem close_cases (hs : s.step (.close i) = some s') :
    ∃ client, s.workers[i]? = some (.closing client) ∧
      s' = { s.setWorker i .waiting with kernel := s.kernel.close (.worker i) client.fd } := by
  simp only [System.step] at hs
  split at hs
  · rename_i client hw
    exact ⟨client, hw, (Option.some.inj hs).symm⟩
  · cases hs

end EmbeddedCourse.ProducerConsumer
