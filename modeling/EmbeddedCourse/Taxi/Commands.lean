import EmbeddedCourse.Taxi.Server
import EmbeddedCourse.Lib.CString

/-! # The commands of the taxi server

How `main` takes a line for a command, and what the command does to the table.
`sscanf` reads a number as the C library does: as a `long`, cut to its range,
of which an `int` keeps the low 32 bits.
-/

namespace EmbeddedCourse.Taxi

open CString

def isSpace (b : UInt8) : Bool := b == 32 || (9 ≤ b && b ≤ 13)

def isDigit (b : UInt8) : Bool := 48 ≤ b && b ≤ 57

/-- The number that the digits write. -/
def decimal (ds : Bytes) : ℕ := ds.foldl (fun n d => 10 * n + (d.toNat - 48)) 0

/-- A `long` cut to its range, stored in an `int`. -/
def toInt (v : Int) : Int := (max (-2 ^ 63) (min (2 ^ 63 - 1) v)).bmod (2 ^ 32)

/-- `%d`: the number at the start of the text, and what stands behind it. -/
def scanInt (text : Bytes) : Option (Int × Bytes) :=
  let text := text.dropWhile isSpace
  let (negative, text) :=
    match text with
    | 45 :: text => (true, text)
    | 43 :: text => (false, text)
    | text => (false, text)
  let digits := text.takeWhile isDigit
  if digits = [] then none
  else
    let v : Int := decimal digits
    some (toInt (if negative then -v else v), text.drop digits.length)

inductive Command where
  | createDriver
  | sendTask (pid taskTimer : Int)
  | sendTaskUsage
  | getStatus (pid : Int)
  | getStatusUsage
  | getDrivers
  | exit
  | incorrect
deriving DecidableEq, Repr

/-- `"send_task "`. -/
def sendTaskWord : Bytes := ascii ['s', 'e', 'n', 'd', '_', 't', 'a', 's', 'k', ' ']

/-- `"get_status "`. -/
def getStatusWord : Bytes := ascii ['g', 'e', 't', '_', 's', 't', 'a', 't', 'u', 's', ' ']

/-- The command that the string in `line` is. -/
def parse (line : Bytes) : Command :=
  if line = ascii ['c', 'r', 'e', 'a', 't', 'e', '_', 'd', 'r', 'i', 'v', 'e', 'r'] then .createDriver
  else if sendTaskWord.isPrefixOf line then
    match scanInt (line.drop 10) with
    | none => .sendTaskUsage
    | some (pid, rest) =>
      match scanInt rest with
      | none => .sendTaskUsage
      | some (timer, _) => .sendTask pid timer
  else if getStatusWord.isPrefixOf line then
    match scanInt (line.drop 11) with
    | none => .getStatusUsage
    | some (pid, _) => .getStatus pid
  else if line = ascii ['g', 'e', 't', '_', 'd', 'r', 'i', 'v', 'e', 'r', 's'] then .getDrivers
  else if line = ascii ['e', 'x', 'i', 't'] then .exit
  else .incorrect

/-- What the system calls of a command come to: what `fork` returns, the field
that `send_task` does not write, and whether `msgsnd` succeeds. -/
structure Calls where
  forked : Int
  unwritten : Int
  sent : Bool
deriving DecidableEq, Repr

/-- The command: what is printed, the table, and a message for the queue. -/
def execute (calls : Calls) (drivers : List Driver) :
    Command → Reply × List Driver × Option Message
  | .createDriver =>
    let (reply, drivers) := createDriver calls.forked drivers
    (reply, drivers, none)
  | .sendTask pid timer => sendTask pid timer calls.unwritten calls.sent drivers
  | .sendTaskUsage => (.usageSendTask, drivers, none)
  | .getStatus pid => (getStatus pid drivers, drivers, none)
  | .getStatusUsage => (.usageGetStatus, drivers, none)
  | .getDrivers => (getDrivers drivers, drivers, none)
  | .exit => (.goodbye, drivers, none)
  | .incorrect => (.incorrectInput, drivers, none)

end EmbeddedCourse.Taxi
