import EmbeddedCourse.Lib.Monitor
import EmbeddedCourse.Sockets.Turns

/-! # The statements of the server with a pool of threads

`Sockets/Task_2/Pull_Threads/server.c` with every statement on its own. `main`
gives the mutex back before it signals, and it signals to the thread that it has
marked busy, which sleeps on a condition variable of its own.
-/

namespace EmbeddedCourse.PullThreads

open CString Sockets Monitor

/-- What the mutex guards, with what has been stored in `fd_socket`, refused, and read from it. -/
structure Shared where
  idxThreads : List Bool
  count : Int
  fdSocket : Connection
  handed : List Connection
  refused : List Connection
  taken : List (ℕ × Connection)

/-- What no mutex guards: the connections, and what `send` and `close` have been called for. -/
structure Outside where
  kernel : Kernel Unit
  sends : List Connection
  closes : List Connection

/-- The next statement of `main`, where `left` indices remain to be looked at, and of a
thread in `serve_clients`. -/
inductive Position where
  | accepting
  | locking (client : Connection)
  | searching (client : Connection) (left : ℕ)
  | turningAway (client : Connection)
  | refusing (client : Connection)
  | countingUp (client : Connection) (idx : ℕ)
  | storing (client : Connection) (idx : ℕ)
  | unlocking (idx : ℕ)
  | signalling (idx : ℕ)
  | entering
  | checking
  | waiting
  | reading
  | leaving (client : Connection)
  | sending (client : Connection)
  | closing (client : Connection)
  | finishing
  | countingDown
  | freeing
  | done
deriving DecidableEq, Repr

/-- What a statement outside of the mutex gets: what `accept` returns, or nothing. -/
inductive Given where
  | accepted (fd : Int)
  | nothing
deriving DecidableEq, Repr

namespace Shared

def refuse (client : Connection) (d : Shared) : Shared := { d with refused := d.refused ++ [client] }

/-- `idx_threads[i]` -/
def idle (i : ℕ) (d : Shared) : Bool := d.idxThreads.getD i false

def mark (i : ℕ) (b : Bool) (d : Shared) : Shared := { d with idxThreads := d.idxThreads.set i b }

def countUp (d : Shared) : Shared := { d with count := d.count + 1 }

def countDown (d : Shared) : Shared := { d with count := d.count - 1 }

/-- `fd_socket = client_fd` -/
def store (client : Connection) (d : Shared) : Shared :=
  { d with fdSocket := client, handed := d.handed ++ [client] }

/-- Thread `i` has read `fd_socket`. -/
def read (i : ℕ) (d : Shared) : Shared := { d with taken := d.taken ++ [(i, d.fdSocket)] }

end Shared

namespace Outside

def send (client : Connection) (e : Outside) : Outside := { e with sends := e.sends ++ [client] }

/-- `close` for `client`, whatever is open under its descriptor. -/
def close (client : Connection) (e : Outside) : Outside :=
  { e with kernel := e.kernel.close () client.fd, closes := e.closes ++ [client] }

end Outside

/-- A statement that only calls. -/
def quietly (f : Outside → Outside) (next : Position) (a : Given) (e : Outside) : Option (Outside × Position) :=
  match a with
  | .nothing => some (f e, next)
  | .accepted _ => none

/-- A failed accept is handed on like a connection. -/
def accept (a : Given) (e : Outside) : Option (Outside × Position) :=
  match a with
  | .nothing => none
  | .accepted fd =>
    if fd = -1 then some (e, .locking (e.kernel.next fd))
    else if e.kernel.Free fd then
      some ({ e with kernel := e.kernel.accept fd }, .locking (e.kernel.next fd))
    else none

/-- A round of the search for an idle thread. -/
def look (client : Connection) (left : ℕ) (d : Shared) : Shared × Position :=
  match left with
  | 0 => (d.refuse client, .turningAway client)
  | left + 1 =>
    let i := maxClients - (left + 1)
    if d.idle i = true then (d.mark i false, .countingUp client i) else (d, .searching client left)

/-- `main` is thread 0, and thread `i` of the pool is thread `i + 1`. -/
def code (i : ℕ) : Position → Instr Unit ℕ Shared Outside Given Position
  | .accepting => .outside accept
  | .locking client => .lock () (.searching client maxClients)
  | .searching client left => .inside () (look client left)
  | .turningAway client => .unlock () (.refusing client)
  | .refusing client => .outside (quietly (Outside.close client) .accepting)
  | .countingUp client idx => .inside () fun d => (d.countUp, .storing client idx)
  | .storing client idx => .inside () fun d => (d.store client, .unlocking idx)
  | .unlocking idx => .unlock () (.signalling idx)
  | .signalling idx => .signal idx .accepting
  | .entering => .lock () .checking
  | .checking => .inside () fun d => (d, if d.count = 0 then .waiting else .reading)
  | .waiting => .wait () (i - 1) .entering
  | .reading => .inside () fun d => (d.read (i - 1), .leaving d.fdSocket)
  | .leaving client => .unlock () (.sending client)
  | .sending client => .outside (quietly (Outside.send client) (.closing client))
  | .closing client => .outside (quietly (Outside.close client) .finishing)
  | .finishing => .lock () .countingDown
  | .countingDown => .inside () fun d => (d.countDown, .freeing)
  | .freeing => .inside () fun d => (d.mark (i - 1) true, .done)
  | .done => .unlock () .entering

abbrev Server : Type := State Unit ℕ Shared Outside Position

def Server.init : Server where
  data _ := ⟨List.replicate maxClients true, 0, noConnection, [], [], []⟩
  owner _ := none
  env := ⟨Kernel.init, [], []⟩
  threads := (.accepting :: List.replicate maxClients .entering).map Place.running

/-- The section that begins here leaves `count` an `int`. -/
def Position.fits : Position → Shared → Bool
  | .locking _, d => decide ((d.idxThreads.findIdx? id).isSome → IsInt (d.count + 1))
  | .finishing, d => decide (IsInt (d.count - 1))
  | _, _ => true

def fits (s : Server) : Monitor.Label Given → Bool
  | .run i =>
    match s.threads[i]? with
    | some (.running t) => t.fits (s.data ())
    | _ => true
  | _ => true

/-- No section is entered that takes `count` out of the range of an `int`. -/
def Fits (s : Server) (l : Monitor.Label Given) : Prop := fits s l = true

instance (s : Server) (l : Monitor.Label Given) : Decidable (Fits s l) := inferInstanceAs (Decidable (_ = _))

/-- The runs of the server, statement by statement, in which `count` stays an `int`. -/
abbrev ServerRun (ls : List (Monitor.Label Given)) (s : Server) : Prop :=
  Machine.Run (State.step code) Fits Server.init ls s

/-! ## The sections -/

def Position.holds : Position → Option Unit
  | .searching _ _ | .turningAway _ | .countingUp _ _ | .storing _ _ | .unlocking _
  | .checking | .waiting | .reading | .leaving _ | .countingDown | .freeing | .done => some ()
  | .accepting | .locking _ | .refusing _ | .signalling _ | .entering | .sending _ | .closing _
  | .finishing => none

/-- What is left of the search for an idle thread, and what comes behind it. -/
def search (client : Connection) : ℕ → Shared → Shared × Position
  | 0, d => (d.refuse client, .refusing client)
  | left + 1, d =>
    let i := maxClients - (left + 1)
    if d.idle i = true then (((d.mark i false).countUp).store client, .signalling i)
    else search client left d

/-- What is left of a section. -/
def finish (i : ℕ) : Position → Shared → Shared × Position
  | .searching client left, d => search client left d
  | .turningAway client, d => (d, .refusing client)
  | .countingUp client idx, d => (d.countUp.store client, .signalling idx)
  | .storing client idx, d => (d.store client, .signalling idx)
  | .unlocking idx, d => (d, .signalling idx)
  | .checking, d => if d.count = 0 then (d, .entering) else (d.read (i - 1), .sending d.fdSocket)
  | .waiting, d => (d, .entering)
  | .reading, d => (d.read (i - 1), .sending d.fdSocket)
  | .leaving client, d => (d, .sending client)
  | .countingDown, d => (d.countDown.mark (i - 1) true, .entering)
  | .freeing, d => (d.mark (i - 1) true, .entering)
  | .done, d => (d, .entering)
  | p, d => (d, p)

theorem quietly_some {f : Outside → Outside} {next : Position} {a : Given} {e : Outside}
    {r : Outside × Position} (h : quietly f next a e = some r) : a = .nothing ∧ r = (f e, next) := by
  cases a with
  | nothing => exact ⟨rfl, (Option.some.inj h).symm⟩
  | accepted fd => cases h

theorem accept_some {a : Given} {e : Outside} {r : Outside × Position} (h : accept a e = some r) :
    ∃ fd, a = .accepted fd ∧ ((fd = -1 ∧ r = (e, .locking (e.kernel.next fd))) ∨
      (fd ≠ -1 ∧ e.kernel.Free fd ∧
        r = ({ e with kernel := e.kernel.accept fd }, .locking (e.kernel.next fd)))) := by
  cases a with
  | nothing => cases h
  | accepted fd =>
    refine ⟨fd, rfl, ?_⟩
    simp only [accept] at h
    split_ifs at h with hfail hfree
    · exact Or.inl ⟨hfail, (Option.some.inj h).symm⟩
    · exact Or.inr ⟨hfail, hfree, (Option.some.inj h).symm⟩

theorem look_holds (client : Connection) (left : ℕ) (d : Shared) :
    (look client left d).2.holds = some () := by
  cases left with
  | zero => rfl
  | succ left =>
    simp only [look]
    split_ifs <;> rfl

theorem finish_look (client : Connection) (left i : ℕ) (d : Shared) :
    search client left d = finish i (look client left d).2 (look client left d).1 := by
  cases left with
  | zero => rfl
  | succ left =>
    simp only [look, search]
    split_ifs <;> rfl

/-- The server keeps to its mutex. -/
theorem disciplined : Disciplined code Position.holds finish := by
  constructor
  · intro i t m next h
    cases t <;> cases h <;> exact ⟨rfl, rfl⟩
  · intro i t m next h
    cases t <;> cases h <;> exact ⟨rfl, rfl, fun _ => rfl⟩
  · intro i t m c again h
    cases t <;> cases h
    exact ⟨rfl, rfl, fun _ => rfl⟩
  · intro i t c next h
    cases t <;> cases h
    exact ⟨rfl, fun hsome => absurd rfl hsome⟩
  · -- guarded statements: what is left of the section comes to the same
    intro i t m f h
    cases t with
    | searching client left =>
      cases h
      exact ⟨rfl, fun d => ⟨look_holds client left d, finish_look client left i d⟩⟩
    | checking =>
      cases h
      refine ⟨rfl, fun d => ?_⟩
      simp only [finish]
      split_ifs <;> exact ⟨rfl, rfl⟩
    | countingUp _ _ | storing _ _ | reading | countingDown | freeing =>
      cases h
      exact ⟨rfl, fun _ => ⟨rfl, rfl⟩⟩
    | _ => cases h
  · -- statements outside lead to places outside
    intro i t f h
    cases t with
    | accepting =>
      cases h
      refine ⟨rfl, fun a e r hr => ?_⟩
      rcases accept_some hr with ⟨fd, -, ⟨-, rfl⟩ | ⟨-, -, rfl⟩⟩ <;> rfl
    | refusing _ | sending _ | closing _ =>
      cases h
      refine ⟨rfl, fun a e r hr => ?_⟩
      rw [(quietly_some hr).2]
      rfl
    | _ => cases h

/-! ## Whole sections are the atomic steps -/

/-- Behind the section of `main` its signal is still to come. -/
def Main.At : Main → Position → Prop
  | .accepting, p => p = .accepting ∨ ∃ idx, p = .signalling idx
  | .deciding client, p => p = .locking client
  | .refusing client, p => p = .refusing client

def Thread.position : Thread → Position
  | .waiting => .entering
  | .sending client => .sending client
  | .closing client => .closing client
  | .finishing => .finishing

def System.shared (s : System) : Shared := ⟨s.idxThreads, s.count, s.fdSocket, s.handed, s.refused, s.taken⟩

def System.outside (s : System) : Outside := ⟨s.kernel, s.sends, s.closes⟩

/-- The server between two sections. -/
structure Shows (u : Settled Unit Shared Outside Position) (s : System) : Prop where
  slots : s.idxThreads.length = maxClients
  data : u.data = fun _ => s.shared
  env : u.env = s.outside
  threads : ∃ p, s.main.At p ∧ u.threads = p :: s.threads.map Thread.position

theorem holds_init (t : Position) (ht : t ∈ Position.accepting :: List.replicate maxClients .entering) :
    t.holds = none := by
  rcases List.mem_cons.mp ht with rfl | ht
  · rfl
  · rw [List.eq_of_mem_replicate ht]
    rfl

theorem shows_start : Shows (settled Position.holds finish Server.init) System.init := by
  have hsettled : settled Position.holds finish Server.init = _ := settled_init holds_init
  rw [hsettled]
  refine ⟨List.length_replicate, rfl, rfl, .accepting, Or.inl rfl, ?_⟩
  rw [System.init, List.map_replicate]
  rfl

/-- The search goes through the indices in order. -/
theorem search_findIdx (client : Connection) (d : Shared) (hlen : d.idxThreads.length = maxClients) (left : ℕ)
    (hleft : left ≤ maxClients) : search client left d =
      match (d.idxThreads.drop (maxClients - left)).findIdx? id with
      | none => (d.refuse client, .refusing client)
      | some j =>
        (((d.mark (j + (maxClients - left)) false).countUp).store client, .signalling (j + (maxClients - left))) := by
  induction left with
  -- all indices have been looked at
  | zero =>
    rw [Nat.sub_zero, List.drop_of_length_le (Nat.le_of_eq hlen)]
    rfl
  | succ left ih =>
    have hlt : maxClients - (left + 1) < d.idxThreads.length := by omega
    have hnext : maxClients - (left + 1) + 1 = maxClients - left := by omega
    have hidle : d.idle (maxClients - (left + 1)) = d.idxThreads[maxClients - (left + 1)] :=
      List.getD_eq_getElem _ _ hlt
    rw [List.drop_eq_getElem_cons hlt, List.findIdx?_cons, hnext, search, hidle]
    -- the thread with the next index is idle, or the search goes on
    by_cases hhere : d.idxThreads[maxClients - (left + 1)] = true
    · simp [hhere]
    · rw [if_neg hhere, if_neg (by simpa using hhere), ih (by omega)]
      cases hfind : (d.idxThreads.drop (maxClients - left)).findIdx? id with
      | none => rfl
      | some j =>
        have hj : j + 1 + (maxClients - (left + 1)) = j + (maxClients - left) := by omega
        simp only [Option.map_some, hj]

section

variable {u u' : Settled Unit Shared Outside Position} {s : System} {i : ℕ}

/-- A thread of the pool goes on. -/
theorem Shows.setThread (h : Shows u s) {p : Position} (hp : u.threads[i + 1]? = some p) :
    ∃ t, s.threads[i]? = some t ∧ p = t.position ∧ ∀ (t' : Thread) (s' : System) (d : Shared) (e : Outside),
      s'.idxThreads.length = maxClients → s'.shared = d → s'.outside = e → s'.main = s.main →
      s'.threads = s.threads.set i t' →
      Shows ⟨fun _ => d, e, u.threads.set (i + 1) t'.position⟩ s' := by
  rcases h.threads with ⟨q, hq, hthreads⟩
  rw [hthreads, List.getElem?_cons_succ, List.getElem?_map] at hp
  rcases Option.map_eq_some_iff.mp hp with ⟨t, ht, rfl⟩
  refine ⟨t, ht, rfl, ?_⟩
  intro t' s' d e hslots hd he hmain hset
  refine ⟨hslots, by rw [hd], by rw [he], q, by rw [hmain]; exact hq, ?_⟩
  rw [hthreads, hset, List.set_cons_succ, List.map_set]

/-- `main` goes on. -/
theorem Shows.setMain (h : Shows u s) {p : Position} (s' : System) (d : Shared) (e : Outside)
    (hslots : s'.idxThreads.length = maxClients) (hd : s'.shared = d) (he : s'.outside = e)
    (hmain : s'.main.At p) (hthreads : s'.threads = s.threads) :
    Shows ⟨fun _ => d, e, u.threads.set 0 p⟩ s' := by
  rcases h.threads with ⟨q, -, hq⟩
  refine ⟨hslots, by rw [hd], by rw [he], p, hmain, ?_⟩
  rw [hq, hthreads, List.set_cons_zero]

theorem Shows.main_at (h : Shows u s) {p : Position} (hp : u.threads[0]? = some p) : s.main.At p := by
  rcases h.threads with ⟨q, hq, hthreads⟩
  rw [hthreads] at hp
  rw [← Option.some.inj hp]
  exact hq

/-- The whole sections of a run in which `count` stays an `int`. -/
def Room (u : Settled Unit Shared Outside Position) : Stride Given → Prop
  | .enter i => ∀ t, u.threads[i]? = some t → t.fits (u.data ()) = true
  | _ => True

/-- A section of `main` is the search, one of a thread a wakeup or the end of a service. -/
theorem enter_step (h : Shows u s) (hroom : Room u (.enter i)) (hs : u.step code finish (.enter i) = some u') :
    ∃ l s', InRange s l ∧ s.step l = some s' ∧ Shows u' s' := by
  rcases enter_cases hs with ⟨p, m, next, hp, hcode, rfl⟩
  have hdata : u.data m = s.shared := by rw [h.data]
  have hfits := hroom p hp
  rw [show u.data () = s.shared from hdata] at hfits
  rw [hdata, show m = () from rfl, data_unit]
  cases i with
  | zero =>
    have hat := h.main_at hp
    cases hmain : s.main with
    | accepting =>
      rw [hmain] at hat
      rcases hat with rfl | ⟨idx, rfl⟩ <;> cases hcode
    | refusing client =>
      rw [hmain] at hat
      obtain rfl := hat
      cases hcode
    | deciding client =>
      rw [hmain] at hat
      obtain rfl := hat
      cases hcode
      -- the whole section of `main` is the search with all that depends on it
      have hrange : InRange s .decide := of_decide_eq_true hfits
      refine ⟨.decide, ?_⟩
      have hsearch := search_findIdx client s.shared h.slots maxClients (Nat.le_refl _)
      rw [Nat.sub_self, List.drop_zero] at hsearch
      simp only [finish, hsearch]
      cases hfind : s.idxThreads.findIdx? id with
      | none =>
        refine ⟨{ s with main := .refusing client, refused := s.refused ++ [client] }, hrange, ?_, ?_⟩
        · simp [System.step, hmain, hfind]
        · rw [show s.shared.idxThreads.findIdx? id = none from hfind, h.env]
          exact h.setMain _ _ _ h.slots rfl rfl rfl rfl
      | some idx =>
        refine ⟨{ s with
          idxThreads := s.idxThreads.set idx false
          count := s.count + 1
          fdSocket := client
          main := .accepting
          handed := s.handed ++ [client] }, hrange, ?_, ?_⟩
        · simp [System.step, hmain, hfind]
        · rw [show s.shared.idxThreads.findIdx? id = some idx from hfind, h.env]
          refine h.setMain _ _ _ ?_ rfl rfl (Or.inr ⟨idx, rfl⟩) rfl
          simpa using h.slots
  | succ i =>
    rcases h.setThread hp with ⟨t, ht, rfl, hset⟩
    cases t with
    | sending client => cases hcode
    | closing client => cases hcode
    | waiting =>
      cases hcode
      -- a thread that finds `count` zero falls asleep again
      by_cases hzero : s.count = 0
      · refine ⟨.take i, s, trivial, by simp [System.step, ht, hzero], ?_⟩
        rw [show finish (i + 1) .checking s.shared = (s.shared, Thread.waiting.position) from if_pos hzero, h.env]
        exact hset .waiting s _ _ h.slots rfl rfl rfl (Cells.set_of_getElem? ht).symm
      · refine ⟨.take i, { s.setThread i (.sending s.fdSocket) with taken := s.taken ++ [(i, s.fdSocket)] },
          trivial, by simp [System.step, ht, hzero], ?_⟩
        rw [show finish (i + 1) .checking s.shared = (s.shared.read i, (Thread.sending s.fdSocket).position) from
          if_neg hzero, h.env]
        exact hset (.sending s.fdSocket) _ _ _ h.slots rfl rfl rfl rfl
    | finishing =>
      cases hcode
      -- the end of a service: `count` goes down and the thread is idle
      refine ⟨.finish i, { s.setThread i .waiting with
        count := s.count - 1, idxThreads := s.idxThreads.set i true },
        of_decide_eq_true hfits, by simp [System.step, ht], ?_⟩
      rw [show finish (i + 1) .countingDown s.shared =
        (s.shared.countDown.mark i true, Thread.waiting.position) from rfl, h.env]
      refine hset .waiting _ _ _ ?_ rfl rfl rfl rfl
      simpa using h.slots

/-- `main` and the threads outside of the mutex. -/
theorem act_step (h : Shows u s) {a : Given} (hs : u.step code finish (.act i a) = some u') :
    ∃ l s', InRange s l ∧ s.step l = some s' ∧ Shows u' s' := by
  rcases stride_act_cases hs with ⟨p, f, r, hp, hcode, hr, rfl⟩
  rw [h.env] at hr
  have hdata : u.data = fun _ => s.shared := h.data
  rw [hdata]
  cases i with
  | zero =>
    have hat := h.main_at hp
    cases hmain : s.main with
    | deciding client =>
      rw [hmain] at hat
      obtain rfl := hat
      cases hcode
    | refusing client =>
      rw [hmain] at hat
      obtain rfl := hat
      cases hcode
      obtain rfl := (quietly_some hr).2
      refine ⟨.refuse, { s.callClose client with main := .accepting }, trivial, by simp [System.step, hmain], ?_⟩
      exact h.setMain _ _ _ h.slots rfl rfl (Or.inl rfl) rfl
    | accepting =>
      rw [hmain] at hat
      rcases hat with rfl | ⟨idx, rfl⟩
      · cases hcode
        -- a failed accept is handed on as the descriptor -1
        rcases accept_some hr with ⟨fd, -, ⟨hfail, rfl⟩ | ⟨hreal, hfree, rfl⟩⟩
        · refine ⟨.accept fd, { s with main := .deciding (s.kernel.next fd) }, trivial, ?_, ?_⟩
          · simp [System.step, hmain, hfail]
          · exact h.setMain _ _ _ h.slots rfl rfl rfl rfl
        · refine ⟨.accept fd, { s with
            kernel := s.kernel.accept fd, main := .deciding (s.kernel.next fd) }, trivial, ?_, ?_⟩
          · have hfree' : s.kernel.Free fd := hfree
            simp [System.step, hmain, hreal, hfree']
          · exact h.setMain _ _ _ h.slots rfl rfl rfl rfl
      · cases hcode
  | succ i =>
    rcases h.setThread hp with ⟨t, ht, rfl, hset⟩
    cases t with
    | waiting => cases hcode
    | finishing => cases hcode
    | sending client =>
      cases hcode
      obtain rfl := (quietly_some hr).2
      refine ⟨.send i, { s.setThread i (.closing client) with sends := s.sends ++ [client] },
        trivial, by simp [System.step, ht], ?_⟩
      exact hset (.closing client) _ _ _ h.slots rfl rfl rfl rfl
    | closing client =>
      cases hcode
      obtain rfl := (quietly_some hr).2
      refine ⟨.close i, (s.setThread i .finishing).callClose client, trivial, by simp [System.step, ht], ?_⟩
      exact hset .finishing _ _ _ h.slots rfl rfl rfl rfl

/-- The signal changes nothing that the atomic steps know of. -/
theorem pass_step (h : Shows u s) (hs : u.step code finish (.pass i) = some u') : Shows u' s := by
  rcases pass_cases hs with ⟨p, c, next, hp, hcode, rfl⟩
  have hdata : u.data = fun _ => s.shared := h.data
  rw [hdata, h.env]
  cases i with
  | zero =>
    have hat := h.main_at hp
    cases hmain : s.main with
    | accepting =>
      rw [hmain] at hat
      rcases hat with rfl | ⟨idx, rfl⟩
      · cases hcode
      · cases hcode
        refine h.setMain _ _ _ h.slots rfl rfl ?_ rfl
        rw [hmain]
        exact Or.inl rfl
    | deciding client =>
      rw [hmain] at hat
      obtain rfl := hat
      cases hcode
    | refusing client =>
      rw [hmain] at hat
      obtain rfl := hat
      cases hcode
  | succ i =>
    rcases h.setThread hp with ⟨t, -, rfl, -⟩
    -- threads of the pool send no signal
    cases t <;> cases hcode

end

/-- Behind its section no thread is in front of one that counts. -/
theorem fits_search (client : Connection) (left : ℕ) (d e : Shared) : (search client left d).2.fits e = true := by
  induction left with
  | zero => rfl
  | succ left ih =>
    rw [search]
    split_ifs
    · rfl
    · exact ih

/-- A section is entered in the range of `count` in which its statements are executed. -/
theorem room_of_fits {t t' : Server} {l : Monitor.Label Given} (hl : Fits t l) (hs : t.step code l = some t') :
    Room (settled Position.holds finish t) l.stride := by
  cases l with
  | act i a => trivial
  | signal i woken => trivial
  | spurious i => trivial
  | run i =>
    intro p hp
    rcases run_cases hs with ⟨q, hq, hexec⟩
    rw [getElem?_settled, hq, Option.map_some] at hp
    obtain rfl := Option.some.inj hp
    have hfits : q.fits (t.data ()) = true := by
      simpa [Fits, fits, hq] using hl
    cases q with
    | locking client =>
      -- the mutex is free, so that no section is open whose rest is to be done
      simp only [code, State.exec] at hexec
      split_ifs at hexec with hfree
      have hdata : (settled Position.holds finish t).data () = t.data () := settleData_of_free hfree
      rw [hdata]
      exact hfits
    | finishing =>
      simp only [code, State.exec] at hexec
      split_ifs at hexec with hfree
      have hdata : (settled Position.holds finish t).data () = t.data () := settleData_of_free hfree
      rw [hdata]
      exact hfits
    -- inside a section it was entered before
    | searching client left => exact fits_search client left _ _
    | checking =>
      simp only [Place.settle, Position.holds, finish]
      split_ifs <;> rfl
    | _ => rfl

/-- Every run of statements is one of atomic steps, with the rest of the open section done. -/
theorem systemRun_of_serverRun {ls : List (Monitor.Label Given)} {s : Server} (hrun : ServerRun ls s) :
    Exclusive Position.holds s ∧
      ∃ ls' s', SystemRun ls' s' ∧ Shows (settled Position.holds finish s) s' := by
  have hok : ∀ t l t', Exclusive Position.holds t → Fits t l → t.step code l = some t' →
      Room (settled Position.holds finish t) l.stride := fun _ _ _ _ hl hs => room_of_fits hl hs
  rcases settled_run_of disciplined hok (Exclusive.init holds_init) hrun with ⟨hexclusive, ls', hls'⟩
  refine ⟨hexclusive, ?_⟩
  have hstart : Shows (settled Position.holds finish Server.init) System.init := shows_start
  rw [show (⟨_, _, _, _⟩ : Server) = Server.init from rfl] at hls'
  generalize settled Position.holds finish Server.init = u₀ at hls' hstart
  generalize settled Position.holds finish s = u at hls'
  induction hls' with
  | init => exact ⟨[], System.init, .init, hstart⟩
  | @step ls u l u' _ hroom hs ih =>
    rcases ih with ⟨ks, t, hks, ht⟩
    -- a section, a statement outside or a signal is at most one atomic step
    have hstep : Shows u' t ∨ ∃ l' t', InRange t l' ∧ t.step l' = some t' ∧ Shows u' t' := by
      cases l with
      | enter i => exact Or.inr (enter_step ht hroom hs)
      | act i a => exact Or.inr (act_step ht hs)
      | pass i => exact Or.inl (pass_step ht hs)
    rcases hstep with hstay | ⟨l', t', hrange, hl', ht'⟩
    · exact ⟨ks, t, hks, hstay⟩
    · exact ⟨ks ++ [l'], t', hks.step hrange hl', ht'⟩

end EmbeddedCourse.PullThreads
