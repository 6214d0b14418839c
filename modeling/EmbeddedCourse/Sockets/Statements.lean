import EmbeddedCourse.Lib.Cells
import EmbeddedCourse.Lib.Monitor
import EmbeddedCourse.Sockets.Handled

/-! # The statements of the producer-consumer server

`Sockets/Task_2/Producer_Consumer/server.c` with every statement on its own: the
mutex is taken and given back, a worker that finds the queue empty falls asleep
on `cond`, and `enqueue` wakes up one sleeper, if there is one. What the atomic
steps of `ProducerConsumer.System` leave open is settled here: the steps may be
taken for whole sections under the mutex, and no wakeup is lost.
-/

namespace EmbeddedCourse.ProducerConsumer

open Sockets Monitor

/-- What the mutex guards, with what has been put into the queue, refused, and taken out. -/
structure Shared where
  queue : Queue
  enqueued : List Connection
  refused : List Connection
  dequeued : List (ℕ × Connection)

/-- The next statement of `main`, from `accept` to the end of `enqueue` and the `close`,
and of a worker in `serve_clients`. -/
inductive Position where
  | accepting
  | locking (client : Connection)
  | testing (client : Connection)
  | turningAway (client : Connection)
  | refusing (client : Connection)
  | storing (client : Connection)
  | advancingBack
  | countingUp
  | signalling
  | unlocking
  | entering
  | checking
  | waiting
  | taking
  | advancingFront (client : Connection)
  | countingDown (client : Connection)
  | leaving (client : Connection)
  | sending (client : Connection)
  | closing (client : Connection)
deriving DecidableEq, Repr

/-- What a statement outside of the mutex gets: what `accept` returns, or nothing. -/
inductive Given where
  | accepted (fd : Int)
  | nothing
deriving DecidableEq, Repr

namespace Shared

def refuse (client : Connection) (d : Shared) : Shared := { d with refused := d.refused ++ [client] }

/-- `queue[back] = client_fd` -/
def store (client : Connection) (d : Shared) : Shared :=
  { d with
    queue := { d.queue with queue := d.queue.queue.set d.queue.back client }
    enqueued := d.enqueued ++ [client] }

def advanceBack (d : Shared) : Shared :=
  { d with queue := { d.queue with back := (d.queue.back + 1) % maxQueue } }

def countUp (d : Shared) : Shared := { d with queue := { d.queue with count := d.queue.count + 1 } }

/-- `queue[front]` -/
def first (d : Shared) : Connection := d.queue.queue.getD d.queue.front noConnection

/-- Worker `i` has taken the first connection. -/
def take (i : ℕ) (d : Shared) : Shared := { d with dequeued := d.dequeued ++ [(i, d.first)] }

def advanceFront (d : Shared) : Shared :=
  { d with queue := { d.queue with front := (d.queue.front + 1) % maxQueue } }

def countDown (d : Shared) : Shared := { d with queue := { d.queue with count := d.queue.count - 1 } }

end Shared

/-- Outside of the mutex; only `accept` gets something. -/
def quietly (f : Kernel Closer → Kernel Closer) (next : Position) (a : Given) (k : Kernel Closer) :
    Option (Kernel Closer × Position) :=
  match a with
  | .nothing => some (f k, next)
  | .accepted _ => none

def accept (a : Given) (k : Kernel Closer) : Option (Kernel Closer × Position) :=
  match a with
  | .nothing => none
  | .accepted fd =>
    if fd = -1 then some (k, .accepting)
    else if k.Free fd then some (k.accept fd, .locking (k.next fd))
    else none

/-- `main` is thread 0, and worker `i` is thread `i + 1`. -/
def code (i : ℕ) : Position → Instr Unit Unit Shared (Kernel Closer) Given Position
  | .accepting => .outside accept
  | .locking client => .lock () (.testing client)
  | .testing client => .inside () fun d =>
    if (maxQueue : Int) ≤ d.queue.count then (d.refuse client, .turningAway client)
    else (d, .storing client)
  | .turningAway client => .unlock () (.refusing client)
  | .refusing client => .outside (quietly (Kernel.close · .main client.fd) .accepting)
  | .storing client => .inside () fun d => (d.store client, .advancingBack)
  | .advancingBack => .inside () fun d => (d.advanceBack, .countingUp)
  | .countingUp => .inside () fun d => (d.countUp, .signalling)
  | .signalling => .signal () .unlocking
  | .unlocking => .unlock () .accepting
  | .entering => .lock () .checking
  | .checking => .inside () fun d => (d, if d.queue.count = 0 then .waiting else .taking)
  | .waiting => .wait () () .entering
  | .taking => .inside () fun d => (d.take (i - 1), .advancingFront d.first)
  | .advancingFront client => .inside () fun d => (d.advanceFront, .countingDown client)
  | .countingDown client => .inside () fun d => (d.countDown, .leaving client)
  | .leaving client => .unlock () (.sending client)
  | .sending client => .outside (quietly id (.closing client))
  | .closing client => .outside (quietly (Kernel.close · (.worker (i - 1)) client.fd) .entering)

abbrev Server : Type := State Unit Unit Shared (Kernel Closer) Position

/-- The server with `n` workers. -/
def Server.init (n : ℕ) : Server where
  data _ := ⟨Queue.init, [], [], []⟩
  owner _ := none
  env := Kernel.init
  threads := (.accepting :: List.replicate n .entering).map Place.running

/-- The runs of the server with `n` workers, statement by statement. -/
abbrev ServerRun (n : ℕ) (ls : List (Monitor.Label Given)) (s : Server) : Prop :=
  Machine.Run (State.step code) (fun _ _ => True) (Server.init n) ls s

/-! ## The sections -/

def Position.holds : Position → Option Unit
  | .testing _ | .turningAway _ | .storing _ | .advancingBack | .countingUp | .signalling | .unlocking
  | .checking | .waiting | .taking | .advancingFront _ | .countingDown _ | .leaving _ => some ()
  | .accepting | .locking _ | .refusing _ | .entering | .sending _ | .closing _ => none

/-- What is left of a section. -/
def finish (i : ℕ) : Position → Shared → Shared × Position
  | .testing client, d =>
    if (maxQueue : Int) ≤ d.queue.count then (d.refuse client, .refusing client)
    else ((d.store client).advanceBack.countUp, .accepting)
  | .turningAway client, d => (d, .refusing client)
  | .storing client, d => ((d.store client).advanceBack.countUp, .accepting)
  | .advancingBack, d => (d.advanceBack.countUp, .accepting)
  | .countingUp, d => (d.countUp, .accepting)
  | .signalling, d | .unlocking, d => (d, .accepting)
  | .checking, d =>
    if d.queue.count = 0 then (d, .entering)
    else ((d.take (i - 1)).advanceFront.countDown, .sending d.first)
  | .waiting, d => (d, .entering)
  | .taking, d => ((d.take (i - 1)).advanceFront.countDown, .sending d.first)
  | .advancingFront client, d => (d.advanceFront.countDown, .sending client)
  | .countingDown client, d => (d.countDown, .sending client)
  | .leaving client, d => (d, .sending client)
  | p, d => (d, p)

theorem quietly_some {f : Kernel Closer → Kernel Closer} {next : Position} {a : Given} {k : Kernel Closer}
    {r : Kernel Closer × Position} (h : quietly f next a k = some r) : a = .nothing ∧ r = (f k, next) := by
  cases a with
  | nothing => exact ⟨rfl, (Option.some.inj h).symm⟩
  | accepted fd => cases h

theorem accept_some {a : Given} {k : Kernel Closer} {r : Kernel Closer × Position} (h : accept a k = some r) :
    ∃ fd, a = .accepted fd ∧ ((fd = -1 ∧ r = (k, .accepting)) ∨
      (fd ≠ -1 ∧ k.Free fd ∧ r = (k.accept fd, .locking (k.next fd)))) := by
  cases a with
  | nothing => cases h
  | accepted fd =>
    refine ⟨fd, rfl, ?_⟩
    simp only [accept] at h
    split_ifs at h with hfail hfree
    · exact Or.inl ⟨hfail, (Option.some.inj h).symm⟩
    · exact Or.inr ⟨hfail, hfree, (Option.some.inj h).symm⟩

/-- The server keeps to its mutex. -/
theorem disciplined : Disciplined code Position.holds finish := by
  constructor
  · intro i t m next h
    cases t <;> cases h <;> exact ⟨rfl, rfl⟩
  · intro i t m next h
    cases t <;> cases h <;> exact ⟨rfl, rfl, fun _ => rfl⟩
  · intro i t m c again h
    cases t <;> cases h
    exact ⟨rfl, rfl, fun _ => rfl⟩
  · intro i t c next h
    cases t <;> cases h
    exact ⟨rfl, fun _ _ => rfl⟩
  · -- guarded statements: what is left of the section comes to the same
    intro i t m f h
    cases t with
    | testing client =>
      cases h
      refine ⟨rfl, fun d => ?_⟩
      simp only [finish]
      split_ifs <;> exact ⟨rfl, rfl⟩
    | checking =>
      cases h
      refine ⟨rfl, fun d => ?_⟩
      simp only [finish]
      split_ifs <;> exact ⟨rfl, rfl⟩
    | storing _ | advancingBack | countingUp | taking | advancingFront _ | countingDown _ =>
      cases h
      exact ⟨rfl, fun _ => ⟨rfl, rfl⟩⟩
    | _ => cases h
  · -- statements outside lead to places outside
    intro i t f h
    cases t with
    | accepting =>
      cases h
      refine ⟨rfl, fun a k r hr => ?_⟩
      rcases accept_some hr with ⟨fd, -, ⟨-, rfl⟩ | ⟨-, -, rfl⟩⟩ <;> rfl
    | refusing _ | sending _ | closing _ =>
      cases h
      refine ⟨rfl, fun a k r hr => ?_⟩
      rw [(quietly_some hr).2]
      rfl
    | _ => cases h

/-! ## Whole sections are the atomic steps -/

def Main.position : Main → Position
  | .accepting => .accepting
  | .enqueuing client => .locking client
  | .refusing client => .refusing client

def Worker.position : Worker → Position
  | .waiting => .entering
  | .sending client => .sending client
  | .closing client => .closing client

/-- The server between two sections. -/
def System.toSettled (s : System) : Settled Unit Shared (Kernel Closer) Position where
  data _ := ⟨s.queue, s.enqueued, s.refused, s.dequeued⟩
  env := s.kernel
  threads := s.main.position :: s.workers.map Worker.position

theorem holds_init (n : ℕ) (t : Position) (ht : t ∈ Position.accepting :: List.replicate n .entering) :
    t.holds = none := by
  rcases List.mem_cons.mp ht with rfl | ht
  · rfl
  · rw [List.eq_of_mem_replicate ht]
    rfl

theorem settled_start (n : ℕ) : settled Position.holds finish (Server.init n) = (System.init n).toSettled := by
  refine (settled_init (holds_init n)).trans ?_
  rw [System.toSettled, System.init, List.map_replicate]
  rfl

section

variable {s : System} {i : ℕ} {p : Position}

theorem thread_zero (h : s.toSettled.threads[0]? = some p) : p = s.main.position :=
  (Option.some.inj h).symm

theorem thread_succ (h : s.toSettled.threads[i + 1]? = some p) :
    ∃ w, s.workers[i]? = some w ∧ p = w.position := by
  rw [System.toSettled, List.getElem?_cons_succ, List.getElem?_map] at h
  rcases Option.map_eq_some_iff.mp h with ⟨w, hw, rfl⟩
  exact ⟨w, hw, rfl⟩

theorem set_succ (w : Worker) : s.toSettled.threads.set (i + 1) w.position =
    s.main.position :: (s.workers.set i w).map Worker.position := by
  rw [System.toSettled, List.set_cons_succ, List.map_set]

theorem data_unit (f : Unit → Shared) (d : Shared) : Function.update f () d = fun _ => d := by
  funext u
  exact Function.update_self ..

variable {t : Settled Unit Shared (Kernel Closer) Position}

/-- A section of `main` is a call of `enqueue`, one of a worker a wakeup. -/
theorem enter_step (h : s.toSettled.step code finish (.enter i) = some t) :
    ∃ l s', s.step l = some s' ∧ s'.toSettled = t := by
  rcases enter_cases h with ⟨p, m, next, hp, hcode, rfl⟩
  cases i with
  | zero =>
    obtain rfl := thread_zero hp
    cases hmain : s.main with
    | accepting =>
      rw [hmain] at hcode
      cases hcode
    | refusing client =>
      rw [hmain] at hcode
      cases hcode
    | enqueuing client =>
      rw [hmain] at hcode
      cases hcode
      -- the section of `main` is a whole call of `enqueue`
      by_cases hfull : (maxQueue : Int) ≤ s.queue.count
      · refine ⟨.enqueue, { s with main := .refusing client, refused := s.refused ++ [client] }, ?_, ?_⟩
        · simp [System.step, hmain, Queue.enqueue, hfull]
        · rw [data_unit]
          simp [System.toSettled, finish, hfull, Shared.refuse, Main.position]
      · refine ⟨.enqueue, { s with
          queue := (s.queue.enqueue client).2, main := .accepting, enqueued := s.enqueued ++ [client] }, ?_, ?_⟩
        · simp [System.step, hmain, Queue.enqueue, hfull]
        · rw [data_unit]
          simp [System.toSettled, finish, hfull, Shared.store, Shared.advanceBack, Shared.countUp,
            Main.position, Queue.enqueue]
  | succ i =>
    rcases thread_succ hp with ⟨w, hw, rfl⟩
    cases w with
    | sending client => cases hcode
    | closing client => cases hcode
    | waiting =>
      cases hcode
      -- a worker that finds the queue empty falls asleep again
      by_cases hempty : s.queue.count = 0
      · refine ⟨.dequeue i, s, by simp [System.step, hw, hempty], ?_⟩
        have hfinish : finish (i + 1) .checking (s.toSettled.data ()) = (s.toSettled.data (), .entering) :=
          if_pos hempty
        have hsame : s.workers.set i .waiting = s.workers := Cells.set_of_getElem? hw
        rw [data_unit, hfinish, show Position.entering = Worker.waiting.position from rfl, set_succ, hsame]
        rfl
      · refine ⟨.dequeue i, { s.setWorker i (.sending s.queue.dequeue.1) with
          queue := s.queue.dequeue.2, dequeued := s.dequeued ++ [(i, s.queue.dequeue.1)] }, ?_, ?_⟩
        · simp [System.step, hw, hempty]
        · have hfinish : finish (i + 1) .checking (s.toSettled.data ()) =
              (((s.toSettled.data ()).take i).advanceFront.countDown,
                (Worker.sending s.queue.dequeue.1).position) := if_neg hempty
          rw [data_unit, hfinish, set_succ]
          rfl

/-- `main` and the workers outside of the mutex. -/
theorem act_step {a : Given} (h : s.toSettled.step code finish (.act i a) = some t) :
    ∃ l s', s.step l = some s' ∧ s'.toSettled = t := by
  rcases stride_act_cases h with ⟨p, f, r, hp, hcode, hr, rfl⟩
  cases i with
  | zero =>
    obtain rfl := thread_zero hp
    cases hmain : s.main with
    | accepting =>
      rw [hmain] at hcode
      cases hcode
      -- a failed accept leads back to `accept`
      rcases accept_some hr with ⟨fd, -, ⟨hfail, rfl⟩ | ⟨hreal, hfree, rfl⟩⟩
      · refine ⟨.accept fd, s, by simp [System.step, hmain, hfail], ?_⟩
        simp [System.toSettled, hmain, Main.position]
      · refine ⟨.accept fd, { s with
          kernel := s.kernel.accept fd, main := .enqueuing (s.kernel.next fd) }, ?_, ?_⟩
        · have hfree' : s.kernel.Free fd := hfree
          simp [System.step, hmain, hreal, hfree']
        · simp [System.toSettled, Main.position]
    | refusing client =>
      rw [hmain] at hcode
      cases hcode
      obtain rfl := (quietly_some hr).2
      refine ⟨.refuse, { s with kernel := s.kernel.close .main client.fd, main := .accepting }, ?_, ?_⟩
      · simp [System.step, hmain]
      · simp [System.toSettled, Main.position]
    | enqueuing client =>
      rw [hmain] at hcode
      cases hcode
  | succ i =>
    rcases thread_succ hp with ⟨w, hw, rfl⟩
    cases w with
    | waiting => cases hcode
    | sending client =>
      cases hcode
      obtain rfl := (quietly_some hr).2
      refine ⟨.send i, s.setWorker i (.closing client), by simp [System.step, hw], ?_⟩
      dsimp only
      rw [show Position.closing client = (Worker.closing client).position from rfl, set_succ]
      rfl
    | closing client =>
      cases hcode
      obtain rfl := (quietly_some hr).2
      refine ⟨.close i, { s.setWorker i .waiting with kernel := s.kernel.close (.worker i) client.fd },
        by simp [System.step, hw], ?_⟩
      dsimp only
      rw [show Position.entering = Worker.waiting.position from rfl, set_succ]
      rfl

/-- There is no signal outside of the mutex. -/
theorem pass_step (h : s.toSettled.step code finish (.pass i) = some t) : False := by
  rcases pass_cases h with ⟨p, c, next, hp, hcode, -⟩
  cases i with
  | zero =>
    obtain rfl := thread_zero hp
    cases hmain : s.main <;> rw [hmain] at hcode <;> cases hcode
  | succ i =>
    rcases thread_succ hp with ⟨w, -, rfl⟩
    cases w <;> cases hcode

end

/-- Every run of statements is one of atomic steps, with the rest of the open section done. -/
theorem systemRun_of_serverRun {n : ℕ} {ls : List (Monitor.Label Given)} {s : Server}
    (hrun : ServerRun n ls s) : Exclusive Position.holds s ∧
      ∃ ls' s', SystemRun n ls' s' ∧ s'.toSettled = settled Position.holds finish s := by
  rcases settled_run disciplined (Exclusive.init (holds_init n)) hrun with ⟨hexclusive, ls', hls'⟩
  refine ⟨hexclusive, ?_⟩
  have hstart : settled Position.holds finish (Server.init n) = _ := settled_start n
  rw [show (⟨_, _, _, _⟩ : Server) = Server.init n from rfl, hstart] at hls'
  clear hexclusive hrun hstart
  generalize settled Position.holds finish s = u at hls'
  induction hls' with
  | init => exact ⟨[], System.init n, .init, rfl⟩
  | @step ls u l u' _ _ hs ih =>
    rcases ih with ⟨ks, t, hks, rfl⟩
    have hstep : ∃ l' t', t.step l' = some t' ∧ t'.toSettled = u' := by
      cases l with
      | enter i => exact enter_step hs
      | act i a => exact act_step hs
      | pass i => exact (pass_step hs).elim
    rcases hstep with ⟨l', t', hl', ht'⟩
    exact ⟨ks ++ [l'], t', hks.step trivial hl', ht'⟩

end EmbeddedCourse.ProducerConsumer
