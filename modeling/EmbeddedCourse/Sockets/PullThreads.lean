import EmbeddedCourse.Lib.CString
import EmbeddedCourse.Lib.Run
import EmbeddedCourse.Sockets.Connections

/-! # The server with a pool of threads

`Sockets/Task_2/Pull_Threads/server.c`: `main` hands each connection over in the
one variable `fd_socket` and wakes up the first idle thread; all threads wait for
`count` to be positive. What runs under the mutex is one step. A thread in
`pthread_cond_wait` may find out at any time whether `count` is positive, so
every wakeup, late or spurious, is among the steps and the signal is not.
`count` is an `int`, and the runs are those that keep it one (`InRange`).
-/

namespace EmbeddedCourse.PullThreads

open CString Sockets

/-- `MAX_CLIENTS` -/
def maxClients : ℕ := 10

/-- Where `main` is: in front of `accept`, of the search for an idle thread, or of `close`. -/
inductive Main where
  | accepting
  | deciding (client : Connection)
  | refusing (client : Connection)
deriving DecidableEq, Repr

/-- Where a thread is in `serve_clients`: in the loop of the wait, in front of
`send`, of `close`, or of the second section under the mutex. -/
inductive Thread where
  | waiting
  | sending (client : Connection)
  | closing (client : Connection)
  | finishing
deriving DecidableEq, Repr

/-- The server, and what has been stored in `fd_socket`, refused, and read from
`fd_socket` by which thread; and the connections that `send` and `close` have
been called for. -/
structure System where
  kernel : Kernel Unit
  idxThreads : List Bool
  count : Int
  fdSocket : Connection
  main : Main
  threads : List Thread
  handed : List Connection
  refused : List Connection
  taken : List (ℕ × Connection)
  sends : List Connection
  closes : List Connection

/-- `accept` returns a descriptor or -1; a thread is named by its index. -/
inductive Label where
  | accept (fd : Int)
  | decide
  | refuse
  | take (i : ℕ)
  | send (i : ℕ)
  | close (i : ℕ)
  | finish (i : ℕ)
deriving DecidableEq, Repr

namespace System

def init : System :=
  { kernel := Kernel.init, idxThreads := List.replicate maxClients true, count := 0
    fdSocket := noConnection, main := .accepting, threads := List.replicate maxClients .waiting
    handed := [], refused := [], taken := [], sends := [], closes := [] }

def setThread (s : System) (i : ℕ) (t : Thread) : System :=
  { s with threads := s.threads.set i t }

/-- `close` for `client`, whatever is open under its descriptor. -/
def callClose (s : System) (client : Connection) : System :=
  { s with kernel := s.kernel.close () client.fd, closes := s.closes ++ [client] }

def step (s : System) : Label → Option System
  | .accept fd =>
    if s.main = .accepting then
      -- a failed accept is handed on like a connection
      if fd = -1 then some { s with main := .deciding (s.kernel.next fd) }
      else if s.kernel.Free fd then
        some { s with kernel := s.kernel.accept fd, main := .deciding (s.kernel.next fd) }
      else none
    else none
  | .decide =>
    match s.main with
    | .deciding client =>
      match s.idxThreads.findIdx? id with
      | none => some { s with main := .refusing client, refused := s.refused ++ [client] }
      | some idx =>
        some { s with
          idxThreads := s.idxThreads.set idx false
          count := s.count + 1
          fdSocket := client
          main := .accepting
          handed := s.handed ++ [client] }
    | _ => none
  | .refuse =>
    match s.main with
    | .refusing client => some { s.callClose client with main := .accepting }
    | _ => none
  | .take i =>
    match s.threads[i]? with
    | some .waiting =>
      if s.count = 0 then some s
      else some { s.setThread i (.sending s.fdSocket) with taken := s.taken ++ [(i, s.fdSocket)] }
    | _ => none
  | .send i =>
    match s.threads[i]? with
    | some (.sending client) =>
      some { s.setThread i (.closing client) with sends := s.sends ++ [client] }
    | _ => none
  | .close i =>
    match s.threads[i]? with
    | some (.closing client) => some ((s.setThread i .finishing).callClose client)
    | _ => none
  | .finish i =>
    match s.threads[i]? with
    | some .finishing =>
      some { s.setThread i .waiting with
        count := s.count - 1, idxThreads := s.idxThreads.set i true }
    | _ => none

end System

/-- The step leaves `count` an `int`. -/
def InRange (s : System) : Label → Prop
  | .decide => (s.idxThreads.findIdx? id).isSome → IsInt (s.count + 1)
  | .finish _ => IsInt (s.count - 1)
  | .accept _ | .refuse | .take _ | .send _ | .close _ => True

instance (s : System) : ∀ l : Label, Decidable (InRange s l)
  | .decide => inferInstanceAs (Decidable (_ → IsInt _))
  | .finish _ => inferInstanceAs (Decidable (IsInt _))
  | .accept _ | .refuse | .take _ | .send _ | .close _ => .isTrue trivial

/-! ## What a step can do -/

variable {s s' : System} {i : ℕ}

theorem accept_cases {fd : Int} (hs : s.step (.accept fd) = some s') :
    s.main = .accepting ∧
      ((fd = -1 ∧ s' = { s with main := .deciding (s.kernel.next fd) }) ∨
      (fd ≠ -1 ∧ s' = { s with
        kernel := s.kernel.accept fd, main := .deciding (s.kernel.next fd) })) := by
  simp only [System.step] at hs
  split_ifs at hs with hmain hfail hfree
  · exact ⟨hmain, Or.inl ⟨hfail, (Option.some.inj hs).symm⟩⟩
  · exact ⟨hmain, Or.inr ⟨hfail, (Option.some.inj hs).symm⟩⟩

/-- All threads are marked busy, or the connection is handed over to the first one that is not. -/
theorem decide_cases (hs : s.step .decide = some s') :
    ∃ client, s.main = .deciding client ∧
      ((s.idxThreads.findIdx? id = none ∧
        s' = { s with main := .refusing client, refused := s.refused ++ [client] }) ∨
      ∃ idx, s.idxThreads.findIdx? id = some idx ∧
        s' = { s with
          idxThreads := s.idxThreads.set idx false
          count := s.count + 1
          fdSocket := client
          main := .accepting
          handed := s.handed ++ [client] }) := by
  simp only [System.step] at hs
  split at hs
  · rename_i client hmain
    refine ⟨client, hmain, ?_⟩
    split at hs
    · rename_i hnone
      exact Or.inl ⟨hnone, (Option.some.inj hs).symm⟩
    · rename_i idx hsome
      exact Or.inr ⟨idx, hsome, (Option.some.inj hs).symm⟩
  · cases hs

theorem refuse_cases (hs : s.step .refuse = some s') :
    ∃ client, s.main = .refusing client ∧ s' = { s.callClose client with main := .accepting } := by
  simp only [System.step] at hs
  split at hs
  · rename_i client hmain
    exact ⟨client, hmain, (Option.some.inj hs).symm⟩
  · cases hs

/-- A wakeup with nothing to do, or the thread reads `fd_socket`. -/
theorem take_cases (hs : s.step (.take i) = some s') :
    s.threads[i]? = some .waiting ∧ ((s.count = 0 ∧ s' = s) ∨ (s.count ≠ 0 ∧
      s' = { s.setThread i (.sending s.fdSocket) with taken := s.taken ++ [(i, s.fdSocket)] })) := by
  simp only [System.step] at hs
  split at hs
  · rename_i hwait
    split_ifs at hs with hzero
    · exact ⟨hwait, Or.inl ⟨hzero, (Option.some.inj hs).symm⟩⟩
    · exact ⟨hwait, Or.inr ⟨hzero, (Option.some.inj hs).symm⟩⟩
  · cases hs

theorem send_cases (hs : s.step (.send i) = some s') :
    ∃ client, s.threads[i]? = some (.sending client) ∧
      s' = { s.setThread i (.closing client) with sends := s.sends ++ [client] } := by
  simp only [System.step] at hs
  split at hs
  · rename_i client ht
    exact ⟨client, ht, (Option.some.inj hs).symm⟩
  · cases hs

theorem close_cases (hs : s.step (.close i) = some s') :
    ∃ client, s.threads[i]? = some (.closing client) ∧
      s' = (s.setThread i .finishing).callClose client := by
  simp only [System.step] at hs
  split at hs
  · rename_i client ht
    exact ⟨client, ht, (Option.some.inj hs).symm⟩
  · cases hs

theorem finish_cases (hs : s.step (.finish i) = some s') :
    s.threads[i]? = some .finishing ∧
      s' = { s.setThread i .waiting with
        count := s.count - 1, idxThreads := s.idxThreads.set i true } := by
  simp only [System.step] at hs
  split at hs
  · rename_i ht
    exact ⟨ht, (Option.some.inj hs).symm⟩
  · cases hs

end EmbeddedCourse.PullThreads
