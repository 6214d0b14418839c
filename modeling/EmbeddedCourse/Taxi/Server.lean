import EmbeddedCourse.Lib.Keyed
import EmbeddedCourse.Lib.Mailbox

/-! # The driver table of `Final_Task2/taxi_system.c`

What `main` knows of its drivers. The list holds `drivers[0]` to
`drivers[driver_count - 1]`; process ids are positive.
-/

namespace EmbeddedCourse.Taxi

/-- `MAX_DRIVERS`. -/
def maxDrivers : ℕ := 100

/-- `Driver`; `is_busy` is only ever 0 or 1. -/
structure Driver where
  pid : Int
  isBusy : Bool
  taskTimer : Int
deriving DecidableEq, Repr

/-- `struct message`. -/
structure Message where
  mtype : Int
  time : Int
  pid : Int
deriving DecidableEq, Repr

/-- What is printed of a driver. -/
inductive Status where
  | available
  | busy (taskTimer : Int)
deriving DecidableEq, Repr

/-- What a command prints. -/
inductive Reply where
  | forkFailed
  | driverCreated (pid : Int)
  | driverNotFound
  | errorBusy (taskTimer : Int)
  | taskSent (pid taskTimer : Int)
  | status (status : Status)
  | noDrivers
  | drivers (rows : List (Int × Status))
  | usageSendTask
  | usageGetStatus
  | goodbye
  | incorrectInput
deriving DecidableEq, Repr

/-- The status of a driver. -/
def Driver.status (d : Driver) : Status := if d.isBusy then .busy d.taskTimer else .available

/-- The first driver with the pid, changed by `f`. -/
def change (pid : Int) (f : Driver → Driver) : List Driver → List Driver
  | [] => []
  | d :: drivers => if d.pid = pid then f d :: drivers else d :: change pid f drivers

/-- `create_driver`, in the parent; `pid` is what `fork` returns there. -/
def createDriver (pid : Int) (drivers : List Driver) : Reply × List Driver :=
  if pid < 0 then (.forkFailed, drivers)
  else (.driverCreated pid, drivers ++ [{ pid := pid, isBusy := false, taskTimer := 0 }])

/-- `send_task`, with the message that is put on the queue. The field `pid` of
the message is not written; `sent` is whether `msgsnd` succeeds. -/
def sendTask (pid taskTimer unwritten : Int) (sent : Bool) (drivers : List Driver) :
    Reply × List Driver × Option Message :=
  match drivers.find? fun d => d.pid = pid with
  | none => (.driverNotFound, drivers, none)
  | some d =>
    if d.isBusy then (.errorBusy d.taskTimer, drivers, none)
    else
      (.taskSent pid taskTimer,
        change pid (fun d => { d with isBusy := true, taskTimer := taskTimer }) drivers,
        if sent then some { mtype := pid, time := taskTimer, pid := unwritten } else none)

/-- `get_status`. -/
def getStatus (pid : Int) (drivers : List Driver) : Reply :=
  match drivers.find? fun d => d.pid = pid with
  | none => .driverNotFound
  | some d => .status d.status

/-- `update_status_driver`. -/
def updateStatusDriver (pid : Int) (drivers : List Driver) : List Driver :=
  change pid (fun d => { d with isBusy := false, taskTimer := 0 }) drivers

/-- `get_drivers`. -/
def getDrivers (drivers : List Driver) : Reply :=
  if drivers = [] then .noDrivers else .drivers (drivers.map fun d => (d.pid, d.status))

/-! ## Changing one driver -/

variable {f : Driver → Driver}

theorem map_pid_change (hf : ∀ d, (f d).pid = d.pid) (pid : Int) (drivers : List Driver) :
    (change pid f drivers).map Driver.pid = drivers.map Driver.pid := by
  induction drivers with
  | nil => rfl
  | cons d drivers ih =>
    rw [change]
    split_ifs
    · rw [List.map_cons, List.map_cons, hf]
    · rw [List.map_cons, List.map_cons, ih]

/-- What is found after the change: the changed driver, or another one as it was. -/
theorem find_change (hf : ∀ d, (f d).pid = d.pid) (pid p : Int) (drivers : List Driver) :
    (change pid f drivers).find? (fun d => d.pid = p) =
      if p = pid then (drivers.find? fun d => d.pid = p).map f
      else drivers.find? fun d => d.pid = p := by
  induction drivers with
  | nil => simp [change]
  | cons d drivers ih =>
    rw [change]
    by_cases hd : d.pid = pid
    · rw [if_pos hd]
      by_cases hp : p = pid
      · subst hp
        rw [List.find?_cons_of_pos (by simp [hf, hd]), List.find?_cons_of_pos (by simp [hd]), if_pos rfl]
        rfl
      · have hne : d.pid ≠ p := fun he => hp (he.symm.trans hd)
        rw [List.find?_cons_of_neg (by simp [hf, hne]), List.find?_cons_of_neg (by simp [hne]), if_neg hp]
    · rw [if_neg hd]
      by_cases hp : d.pid = p
      · have hne : p ≠ pid := fun he => hd (hp.trans he)
        rw [List.find?_cons_of_pos (by simp [hp]), List.find?_cons_of_pos (by simp [hp]), if_neg hne]
      · rw [List.find?_cons_of_neg (by simp [hp]), List.find?_cons_of_neg (by simp [hp]), ih]

/-- With distinct pids a driver is found under its pid. -/
theorem find_of_mem {drivers : List Driver} (hnd : (drivers.map Driver.pid).Nodup) {d : Driver}
    (hd : d ∈ drivers) : drivers.find? (fun x => x.pid = d.pid) = some d :=
  Keyed.lookup_of_mem Driver.pid hnd hd

/-- What `send_task` does: nothing to a driver that is unknown or busy, and else
the driver becomes busy and is sent the task unless `msgsnd` fails. -/
theorem sendTask_cases (pid taskTimer unwritten : Int) (sent : Bool) (drivers : List Driver) :
    (sendTask pid taskTimer unwritten sent drivers).2 = (drivers, none) ∨
    ∃ d, drivers.find? (fun d => d.pid = pid) = some d ∧ d.isBusy = false ∧
      (sendTask pid taskTimer unwritten sent drivers).2 =
        (change pid (fun d => { d with isBusy := true, taskTimer := taskTimer }) drivers,
          if sent then some { mtype := pid, time := taskTimer, pid := unwritten } else none) := by
  unfold sendTask
  cases hfind : drivers.find? fun d => d.pid = pid with
  | none => exact Or.inl rfl
  | some d =>
    cases hbusy : d.isBusy with
    | true => exact Or.inl (by simp [hbusy])
    | false => exact Or.inr ⟨d, rfl, hbusy, by simp [hbusy]⟩

end EmbeddedCourse.Taxi
