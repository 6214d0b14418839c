import EmbeddedCourse.Taxi.Server
import EmbeddedCourse.Lib.Run
import Mathlib.Logic.Function.Basic

/-! # The taxi server with its drivers

`main`, one process for each driver, and the queue between them, one step at a
time. A task is keyed by the pid of its driver, a completion by the pid of
`main`. The step that counts a job down to its end and the `msgsnd` behind it
are separate steps.
-/

namespace EmbeddedCourse.Taxi

/-- Where a process is in the loop of `driver_process`, with what it keeps:
in front of `msgrcv`, in the inner loop with `task_timer` and the message it
has received, or in front of `msgsnd`. -/
inductive Process where
  | notStarted
  | waiting
  | counting (taskTimer : Int) (msg : Message)
  | finishing (msg : Message)
deriving DecidableEq, Repr

structure System where
  drivers : List Driver
  queue : List Message
  process : Int → Process

/-- The steps: the commands `create_driver`, with what `fork` returns, and
`send_task`; the steps of a driver; and the receive of `main`. A `msgsnd` may
fail. -/
inductive Label where
  | create (pid : Int)
  | send (pid taskTimer unwritten : Int) (sent : Bool)
  | receive (pid : Int)
  | tick (pid : Int)
  | complete (pid : Int) (sent : Bool)
  | collect
deriving DecidableEq, Repr

namespace System

def init : System := { drivers := [], queue := [], process := fun _ => .notStarted }

/-- Process `pid` goes on to `c`. -/
def setProcess (s : System) (pid : Int) (c : Process) : System :=
  { s with process := Function.update s.process pid c }

def step (mainPid : Int) (s : System) : Label → Option System
  | .create pid =>
    some { (if pid < 0 then s else s.setProcess pid .waiting) with
      drivers := (createDriver pid s.drivers).2 }
  | .send pid taskTimer unwritten sent =>
    let r := sendTask pid taskTimer unwritten sent s.drivers
    some { s with drivers := r.2.1, queue := s.queue ++ r.2.2.toList }
  | .receive pid =>
    if s.process pid = .waiting then
      (Mailbox.receive Message.mtype pid s.queue).map fun (msg, rest) =>
        -- a task of no time is dropped
        { s.setProcess pid (if 0 < msg.time then .counting msg.time msg else .waiting) with
          queue := rest }
    else none
  | .tick pid =>
    match s.process pid with
    | .counting taskTimer msg =>
      some (s.setProcess pid
        (if taskTimer - 1 ≤ 0 then .finishing msg else .counting (taskTimer - 1) msg))
    | _ => none
  | .complete pid sent =>
    match s.process pid with
    | .finishing msg =>
      some { s.setProcess pid .waiting with
        queue := s.queue ++ if sent then [{ msg with mtype := mainPid, pid := pid }] else [] }
    | _ => none
  | .collect =>
    match Mailbox.receive Message.mtype mainPid s.queue with
    | none => some s
    | some (msg, rest) =>
      some { s with drivers := updateStatusDriver msg.pid s.drivers, queue := rest }

/-- `fork` returns to the parent a pid that nobody has, or fails, and there is
room in the table. -/
def Admissible (mainPid : Int) (s : System) (l : Label) : Prop :=
  ∀ pid, l = .create pid → pid ≠ 0 ∧
    (0 < pid → s.process pid = .notStarted ∧ pid ≠ mainPid ∧ s.drivers.length < maxDrivers)

instance (mainPid : Int) (s : System) : ∀ l : Label, Decidable (Admissible mainPid s l)
  | .create pid =>
    decidable_of_iff (pid ≠ 0 ∧
      (0 < pid → s.process pid = .notStarted ∧ pid ≠ mainPid ∧ s.drivers.length < maxDrivers))
      ⟨fun h _ he => Label.create.inj he ▸ h, fun h => h pid rfl⟩
  | .send .. | .receive _ | .tick _ | .complete .. | .collect => .isTrue fun _ he => by cases he

end System

/-! ## What a step can do -/

variable {mainPid : Int} {s s' : System} {pid : Int}

/-- `fork` fails, or a new driver waits for its first task. -/
theorem create_cases (hok : s.Admissible mainPid (.create pid))
    (hs : s.step mainPid (.create pid) = some s') :
    s' = s ∨ (s.process pid = .notStarted ∧ pid ≠ mainPid ∧
      s' = { s.setProcess pid .waiting with drivers := s.drivers ++ [⟨pid, false, 0⟩] }) := by
  rcases hok pid rfl with ⟨hne, hpos⟩
  obtain rfl := Option.some.inj hs
  rcases Int.lt_or_gt_of_ne hne with hlt | hgt
  · left
    rw [if_pos hlt, createDriver, if_pos hlt]
  · right
    rcases hpos hgt with ⟨hfresh, hmain, -⟩
    have hge : ¬ pid < 0 := by omega
    rw [if_neg hge, createDriver, if_neg hge]
    exact ⟨hfresh, hmain, rfl⟩

/-- The driver of `pid` takes a message out of the queue. -/
theorem receive_cases (hs : s.step mainPid (.receive pid) = some s') :
    s.process pid = .waiting ∧ ∃ msg rest,
      Mailbox.receive Message.mtype pid s.queue = some (msg, rest) ∧
      s' = { s.setProcess pid (if 0 < msg.time then .counting msg.time msg else .waiting) with
        queue := rest } := by
  simp only [System.step] at hs
  split_ifs at hs with hwait
  rcases Option.map_eq_some_iff.mp hs with ⟨⟨msg, rest⟩, hmail, rfl⟩
  exact ⟨hwait, msg, rest, hmail, rfl⟩

/-- A second of a job passes. -/
theorem tick_cases (hs : s.step mainPid (.tick pid) = some s') :
    ∃ taskTimer msg, s.process pid = .counting taskTimer msg ∧
      s' = s.setProcess pid
        (if taskTimer - 1 ≤ 0 then .finishing msg else .counting (taskTimer - 1) msg) := by
  simp only [System.step] at hs
  split at hs
  · rename_i taskTimer msg hcount
    exact ⟨taskTimer, msg, hcount, (Option.some.inj hs).symm⟩
  · cases hs

/-- A driver posts the completion of its job. -/
theorem complete_cases {sent : Bool} (hs : s.step mainPid (.complete pid sent) = some s') :
    ∃ msg, s.process pid = .finishing msg ∧
      s' = { s.setProcess pid .waiting with
        queue := s.queue ++ if sent then [{ msg with mtype := mainPid, pid := pid }] else [] } := by
  simp only [System.step] at hs
  split at hs
  · rename_i msg hfinish
    exact ⟨msg, hfinish, (Option.some.inj hs).symm⟩
  · cases hs

/-- `main` takes a completion, if there is one. -/
theorem collect_cases (hs : s.step mainPid .collect = some s') :
    s' = s ∨ ∃ msg rest, Mailbox.receive Message.mtype mainPid s.queue = some (msg, rest) ∧
      s' = { s with drivers := updateStatusDriver msg.pid s.drivers, queue := rest } := by
  simp only [System.step] at hs
  split at hs
  · exact Or.inl (Option.some.inj hs).symm
  · rename_i msg rest hmail
    exact Or.inr ⟨msg, rest, hmail, (Option.some.inj hs).symm⟩

end EmbeddedCourse.Taxi
