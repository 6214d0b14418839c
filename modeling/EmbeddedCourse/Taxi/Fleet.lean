import EmbeddedCourse.Taxi.Jobs
import Mathlib.Algebra.GroupWithZero.Nat
import Mathlib.Algebra.Ring.Int.Defs

/-! # The taxi server is a fleet of cabs

What the server is for, without its table, its processes and its queue: cabs that
are hired, accept a ride when they are free, drive it second by second and are free
again. With every `msgsnd` succeeding and positive timers the system refines the
fleet step by step (`fleet_served`): what the commands print of a driver is what
its cab is doing.
-/

namespace EmbeddedCourse.Taxi

/-- A ride, and what is left of it. -/
structure Ride where
  length : Int
  left : Int
deriving DecidableEq, Repr

/-- A cab with the lengths of the rides it has accepted, the seconds it has driven,
and the ride it is on. -/
structure Cab where
  rides : List Int
  driven : Int
  ride : Option Ride
  /-- It drives what it has accepted, and nothing else. -/
  ledger : rides.sum = driven + (ride.map Ride.left).getD 0

namespace Cab

def hired : Cab := { rides := [], driven := 0, ride := none, ledger := rfl }

/-- A busy cab refuses. -/
def accept (length : Int) (c : Cab) : Cab :=
  match h : c.ride with
  | some _ => c
  | none =>
    { rides := c.rides ++ [length]
      driven := c.driven
      ride := some ⟨length, length⟩
      ledger := by
        have hledger := c.ledger
        rw [h] at hledger
        simpa using hledger }

/-- One second of the ride. -/
def drive (c : Cab) : Option Cab :=
  match h : c.ride with
  | none => none
  | some r =>
    if 0 < r.left then
      some
        { rides := c.rides
          driven := c.driven + 1
          ride := some { r with left := r.left - 1 }
          ledger := by
            have hledger := c.ledger
            rw [h] at hledger
            simp only [Option.map_some, Option.getD_some] at hledger ⊢
            omega }
    else none

/-- The ride is over. -/
def finish (c : Cab) : Option Cab :=
  match h : c.ride with
  | none => none
  | some r =>
    if hleft : r.left = 0 then
      some
        { rides := c.rides
          driven := c.driven
          ride := none
          ledger := by
            have hledger := c.ledger
            rw [h] at hledger
            simpa [hleft] using hledger }
    else none

/-- What is told of a cab: the length of its ride, not what is left of it. -/
def status (c : Cab) : Status :=
  match c.ride with
  | none => .available
  | some r => .busy r.length

variable {c : Cab} {r : Ride}

theorem accept_free (h : c.ride = none) (length : Int) :
    (c.accept length).ride = some ⟨length, length⟩ ∧ (c.accept length).driven = c.driven := by
  unfold accept
  split
  · rename_i hride
    simp [h] at hride
  · exact ⟨rfl, rfl⟩

theorem accept_busy (h : c.ride = some r) (length : Int) : c.accept length = c := by
  unfold accept
  split
  · rfl
  · rename_i hride
    simp [h] at hride

theorem driven_accept (c : Cab) (length : Int) : (c.accept length).driven = c.driven := by
  unfold accept
  split <;> rfl

theorem drive_riding (h : c.ride = some r) (hleft : 0 < r.left) :
    ∃ c', c.drive = some c' ∧ c'.ride = some { r with left := r.left - 1 } := by
  unfold drive
  split
  · rename_i hride
    simp [h] at hride
  · rename_i r' hride
    obtain rfl : r = r' := by simpa [h] using hride
    rw [if_pos hleft]
    exact ⟨_, rfl, rfl⟩

theorem driven_drive {c' : Cab} (h : c.drive = some c') : c'.driven = c.driven + 1 := by
  unfold drive at h
  split at h
  · cases h
  · split_ifs at h
    obtain rfl := Option.some.inj h
    rfl

theorem finish_arrived (h : c.ride = some r) (hleft : r.left = 0) :
    ∃ c', c.finish = some c' ∧ c'.ride = none := by
  unfold finish
  split
  · rename_i hride
    simp [h] at hride
  · rename_i r' hride
    obtain rfl : r = r' := by simpa [h] using hride
    rw [dif_pos hleft]
    exact ⟨_, rfl, rfl⟩

theorem driven_finish {c' : Cab} (h : c.finish = some c') : c'.driven = c.driven := by
  unfold finish at h
  split at h
  · cases h
  · split_ifs at h
    obtain rfl := Option.some.inj h
    rfl

/-- A free cab has driven all it has accepted. -/
theorem rides_of_free (h : c.ride = none) : c.rides.sum = c.driven := by
  have hledger := c.ledger
  rw [h] at hledger
  simpa using hledger

end Cab

/-! ## The fleet -/

/-- The cabs by the pids of their drivers. -/
abbrev Fleet := Int → Option Cab

/-- What is asked of the fleet, and what the cabs do. -/
inductive Order where
  | hire (pid : Int)
  | ask (pid length : Int)
  | drive (pid : Int)
  | finish (pid : Int)
deriving DecidableEq, Repr

namespace Fleet

def step (f : Fleet) : Order → Option Fleet
  | .hire pid => some (if pid < 0 then f else Function.update f pid (some .hired))
  | .ask pid length => some (Function.update f pid ((f pid).map (Cab.accept length)))
  | .drive pid => ((f pid).bind Cab.drive).map fun c => Function.update f pid (some c)
  | .finish pid => ((f pid).bind Cab.finish).map fun c => Function.update f pid (some c)

/-- Whom the fleet hires is new to it. -/
def Allowed (f : Fleet) (o : Order) : Prop := ∀ pid, o = .hire pid → 0 ≤ pid → f pid = none

/-- The runs of the fleet. -/
abbrev Served (os : List Order) (f : Fleet) : Prop :=
  Machine.Run step Allowed (fun _ => none) os f

variable {f f' : Fleet} {os : List Order} {o : Order} {p : Int} {c : Cab}

/-- The seconds a cab has driven. -/
def driven (f : Fleet) (p : Int) : Int := ((f p).map Cab.driven).getD 0

/-- A cab has driven a second more behind `drive` only. -/
theorem driven_step (hok : Allowed f o) (h : f.step o = some f') (p : Int) :
    f'.driven p = f.driven p + if o = .drive p then 1 else 0 := by
  cases o with
  | hire pid =>
    obtain rfl := Option.some.inj h
    have hno : ¬ Order.hire pid = .drive p := by simp
    rw [if_neg hno, Int.add_zero]
    by_cases hneg : pid < 0
    · rw [if_pos hneg]
    · rw [if_neg hneg]
      by_cases hp : p = pid
      · subst hp
        -- a new cab has driven nothing
        simp [driven, Cab.hired, hok p rfl (by omega)]
      · simp [driven, Function.update_of_ne hp]
  | ask pid length =>
    obtain rfl := Option.some.inj h
    have hno : ¬ Order.ask pid length = .drive p := by simp
    rw [if_neg hno, Int.add_zero]
    by_cases hp : p = pid
    · subst hp
      cases hc : f p <;> simp [driven, hc, Cab.driven_accept]
    · simp [driven, Function.update_of_ne hp]
  | drive pid =>
    rcases Option.map_eq_some_iff.mp h with ⟨c', hbind, rfl⟩
    rcases Option.bind_eq_some_iff.mp hbind with ⟨c, hc, hdrive⟩
    by_cases hp : p = pid
    · subst hp
      -- the cab drives for one second more
      simp [driven, hc, Cab.driven_drive hdrive]
    · simp [driven, Function.update_of_ne hp, Ne.symm hp]
  | finish pid =>
    rcases Option.map_eq_some_iff.mp h with ⟨c', hbind, rfl⟩
    rcases Option.bind_eq_some_iff.mp hbind with ⟨c, hc, hfinish⟩
    by_cases hp : p = pid
    · subst hp
      simp [driven, hc, Cab.driven_finish hfinish]
    · simp [driven, Function.update_of_ne hp]

/-- A second is driven for every order to drive. -/
theorem driven_of_run (h : Served os f) (p : Int) : f.driven p = os.count (.drive p) := by
  induction h with
  | init => rfl
  | @step os f o f' _ hok hs ih =>
    rw [driven_step hok hs, ih, List.count_append, List.count_singleton]
    by_cases ho : o = .drive p <;> simp [ho]

end Fleet

/-! ## How the system stands to the fleet -/

/-- What there is of a driver in the system: its entry of the table, its process, the
tasks for it in the queue, and its completions in the queue. -/
structure View where
  driver : Option Driver
  process : Process
  tasks : List Message
  completions : List Message

def view (mainPid : Int) (s : System) (p : Int) : View :=
  { driver := s.drivers.find? fun d => d.pid = p
    process := s.process p
    tasks := Mailbox.mail Message.mtype p s.queue
    completions := (Mailbox.mail Message.mtype mainPid s.queue).filter fun m => m.pid = p }

/-- The stages of a ride. The driver knows what is left of it, the table its length;
between the two it is a message in the queue. -/
inductive Stands (p : Int) : Option Cab → View → Prop where
  | absent : Stands p none ⟨none, .notStarted, [], []⟩
  | free (c : Cab) : c.ride = none → Stands p (some c) ⟨some ⟨p, false, 0⟩, .waiting, [], []⟩
  | called (c : Cab) (m : Message) : c.ride = some ⟨m.time, m.time⟩ → 0 < m.time →
      Stands p (some c) ⟨some ⟨p, true, m.time⟩, .waiting, [m], []⟩
  | riding (c : Cab) (length left : Int) (m : Message) : c.ride = some ⟨length, left⟩ → 0 < left →
      Stands p (some c) ⟨some ⟨p, true, length⟩, .counting left m, [], []⟩
  | arriving (c : Cab) (length : Int) (m : Message) : c.ride = some ⟨length, 0⟩ →
      Stands p (some c) ⟨some ⟨p, true, length⟩, .finishing m, [], []⟩
  | arrived (c : Cab) (length : Int) (m : Message) : c.ride = some ⟨length, 0⟩ →
      Stands p (some c) ⟨some ⟨p, true, length⟩, .waiting, [], [m]⟩

/-- Every driver stands to its cab, and the completions are those of drivers. -/
structure Matches (mainPid : Int) (s : System) (f : Fleet) : Prop where
  stands : ∀ p, p ≠ mainPid → Stands p (f p) (view mainPid s p)
  main : f mainPid = none
  sender : ∀ m ∈ s.queue, m.mtype = mainPid → m.pid ≠ mainPid

variable {mainPid p : Int} {s s' : System} {l : Label} {f : Fleet}

theorem Matches.init (mainPid : Int) : Matches mainPid System.init fun _ => none where
  stands := fun _ _ => .absent
  main := rfl
  sender := by simp [System.init]

/-- The orders that a label stands for; of the receives of `main` each that takes a
completion. -/
inductive Answers : Label → List Order → Prop where
  | create (pid : Int) : Answers (.create pid) [.hire pid]
  | send (pid taskTimer unwritten : Int) (sent : Bool) :
      Answers (.send pid taskTimer unwritten sent) [.ask pid taskTimer]
  | receive (pid : Int) : Answers (.receive pid) []
  | tick (pid : Int) : Answers (.tick pid) [.drive pid]
  | complete (pid : Int) (sent : Bool) : Answers (.complete pid sent) []
  | idle : Answers .collect []
  | collect (pid : Int) : Answers .collect [.finish pid]

/-- The view of a driver whom a step does not concern. -/
theorem view_eq (hd : s'.drivers.find? (fun d => d.pid = p) = s.drivers.find? fun d => d.pid = p)
    (hc : s'.process p = s.process p)
    (ht : Mailbox.mail Message.mtype p s'.queue = Mailbox.mail Message.mtype p s.queue)
    (hm : (Mailbox.mail Message.mtype mainPid s'.queue).filter (fun m => m.pid = p) =
      (Mailbox.mail Message.mtype mainPid s.queue).filter fun m => m.pid = p) :
    view mainPid s' p = view mainPid s p := by
  unfold view
  rw [hd, hc, ht, hm]

/-- A cab that goes on with its driver; the others stay as they are. -/
theorem Matches.update (h : Matches mainPid s f) {pid : Int} (hpid : pid ≠ mainPid) {o : Option Cab}
    (hself : Stands pid o (view mainPid s' pid))
    (hother : ∀ p, p ≠ mainPid → p ≠ pid → view mainPid s' p = view mainPid s p)
    (hsender : ∀ m ∈ s'.queue, m.mtype = mainPid → m.pid ≠ mainPid) :
    Matches mainPid s' (Function.update f pid o) where
  stands := by
    intro p hp
    by_cases hpp : p = pid
    · subst hpp
      rw [Function.update_self]
      exact hself
    · rw [Function.update_of_ne hpp, hother p hp hpp]
      exact h.stands p hp
  main := by
    rw [Function.update_of_ne hpid.symm]
    exact h.main
  sender := hsender

theorem Matches.stay (h : Matches mainPid s f) {pid : Int} (hpid : pid ≠ mainPid)
    (hself : Stands pid (f pid) (view mainPid s' pid))
    (hother : ∀ p, p ≠ mainPid → p ≠ pid → view mainPid s' p = view mainPid s p)
    (hsender : ∀ m ∈ s'.queue, m.mtype = mainPid → m.pid ≠ mainPid) : Matches mainPid s' f := by
  have hsame := h.update hpid hself hother hsender
  rwa [Function.update_eq_self] at hsame

/-! ## What a part of the view says of the rest -/

namespace Stands

variable {o : Option Cab} {v : View}

theorem of_notStarted (h : Stands p o v) (hc : v.process = .notStarted) :
    o = none ∧ v = ⟨none, .notStarted, [], []⟩ := by
  cases h with
  | absent => exact ⟨rfl, rfl⟩
  | free | called | riding | arriving | arrived => cases hc

theorem of_unknown (h : Stands p o v) (hd : v.driver = none) : o = none := by
  cases h with
  | absent => rfl
  | free | called | riding | arriving | arrived => cases hd

theorem of_idle (h : Stands p o v) {d : Driver} (hd : v.driver = some d) (hb : d.isBusy = false) :
    ∃ c, o = some c ∧ c.ride = none ∧ v = ⟨some ⟨p, false, 0⟩, .waiting, [], []⟩ := by
  cases h with
  | absent => cases hd
  | free c hfree => exact ⟨c, rfl, hfree, rfl⟩
  | called | riding | arriving | arrived =>
    obtain rfl := Option.some.inj hd
    cases hb

theorem of_busy (h : Stands p o v) {d : Driver} (hd : v.driver = some d) (hb : d.isBusy = true) :
    ∃ c left, o = some c ∧ c.ride = some ⟨d.taskTimer, left⟩ := by
  cases h with
  | absent => cases hd
  | free =>
    obtain rfl := Option.some.inj hd
    cases hb
  | called c m hride => exact ⟨c, m.time, rfl, Option.some.inj hd ▸ hride⟩
  | riding c length left m hride => exact ⟨c, left, rfl, Option.some.inj hd ▸ hride⟩
  | arriving c length m hride | arrived c length m hride =>
    exact ⟨c, 0, rfl, Option.some.inj hd ▸ hride⟩

theorem of_tasks (h : Stands p o v) {m : Message} {ms : List Message} (ht : v.tasks = m :: ms) :
    ∃ c, o = some c ∧ c.ride = some ⟨m.time, m.time⟩ ∧ 0 < m.time ∧
      v = ⟨some ⟨p, true, m.time⟩, .waiting, [m], []⟩ ∧ ms = [] := by
  cases h with
  | absent | free | riding | arriving | arrived => cases ht
  | called c m' hride htime =>
    rcases List.cons.inj ht with ⟨rfl, rfl⟩
    exact ⟨c, rfl, hride, htime, rfl, rfl⟩

theorem of_counting (h : Stands p o v) {left : Int} {m : Message}
    (hc : v.process = .counting left m) :
    ∃ c length, o = some c ∧ c.ride = some ⟨length, left⟩ ∧ 0 < left ∧
      v = ⟨some ⟨p, true, length⟩, .counting left m, [], []⟩ := by
  cases h with
  | absent | free | called | arriving | arrived => cases hc
  | riding c length left' m' hride hleft =>
    cases hc
    exact ⟨c, length, rfl, hride, hleft, rfl⟩

theorem of_finishing (h : Stands p o v) {m : Message} (hc : v.process = .finishing m) :
    ∃ c length, o = some c ∧ c.ride = some ⟨length, 0⟩ ∧
      v = ⟨some ⟨p, true, length⟩, .finishing m, [], []⟩ := by
  cases h with
  | absent | free | called | riding | arrived => cases hc
  | arriving c length m' hride =>
    cases hc
    exact ⟨c, length, rfl, hride, rfl⟩

theorem of_completions (h : Stands p o v) {m : Message} {ms : List Message}
    (hm : v.completions = m :: ms) :
    ∃ c length, o = some c ∧ c.ride = some ⟨length, 0⟩ ∧
      v = ⟨some ⟨p, true, length⟩, .waiting, [], [m]⟩ ∧ ms = [] := by
  cases h with
  | absent | free | called | riding | arriving => cases hm
  | arrived c length m' hride =>
    rcases List.cons.inj hm with ⟨rfl, rfl⟩
    exact ⟨c, length, rfl, hride, rfl, rfl⟩

/-- The table says of a driver what is told of its cab. -/
theorem status_eq (h : Stands p o v) : v.driver.map Driver.status = o.map Cab.status := by
  cases h with
  | absent => rfl
  | free c hride =>
    simp [Driver.status, Cab.status, hride]
  | called c _ hride | riding c _ _ _ hride | arriving c _ _ hride | arrived c _ _ hride =>
    simp [Driver.status, Cab.status, hride]

end Stands

/-! ## The steps -/

/-- Mail of another key is not added to. -/
theorem mail_post_ne {k : Int} {m : Message} (h : m.mtype ≠ k) (queue : List Message) :
    Mailbox.mail Message.mtype k (queue ++ [m]) = Mailbox.mail Message.mtype k queue := by
  rw [Mailbox.mail_append, Mailbox.mail_cons_ne Message.mtype h, Mailbox.mail_nil, List.append_nil]

theorem mail_post_self {k : Int} {m : Message} (h : m.mtype = k) (queue : List Message) :
    Mailbox.mail Message.mtype k (queue ++ [m]) = Mailbox.mail Message.mtype k queue ++ [m] := by
  rw [Mailbox.mail_append, Mailbox.mail_cons_self Message.mtype h, Mailbox.mail_nil]

/-- `create_driver` hires a cab. -/
theorem Matches.create (hm : Matches mainPid s f) {pid : Int}
    (hok : s.Admissible mainPid (.create pid)) (hs : s.step mainPid (.create pid) = some s') :
    (0 ≤ pid → f pid = none) ∧ ∃ f', f.step (.hire pid) = some f' ∧ Matches mainPid s' f' := by
  rcases hok pid rfl with ⟨hzero, hpos⟩
  obtain rfl := Option.some.inj hs
  -- `fork` has failed, or the new driver waits for its first ride
  by_cases hneg : pid < 0
  · refine ⟨fun hge => absurd hneg (by omega), f, congrArg some (if_pos hneg), ?_⟩
    rw [if_pos hneg, createDriver, if_pos hneg]
    exact hm
  · rcases hpos (by omega) with ⟨hfresh, hmain, -⟩
    rcases (hm.stands pid hmain).of_notStarted hfresh with ⟨hnone, hv⟩
    rcases View.mk.inj hv with ⟨hd, -, ht, hc⟩
    refine ⟨fun _ => hnone, _, congrArg some (if_neg hneg), ?_⟩
    rw [if_neg hneg, createDriver, if_neg hneg]
    apply hm.update hmain
    · have hnew : view mainPid { s.setProcess pid .waiting with
          drivers := s.drivers ++ [⟨pid, false, 0⟩] } pid =
            ⟨some ⟨pid, false, 0⟩, .waiting, [], []⟩ := by
        -- nobody in the table has its pid, so the new entry is found
        have hfind : (s.drivers ++ [(⟨pid, false, 0⟩ : Driver)]).find? (fun d => d.pid = pid) =
            some ⟨pid, false, 0⟩ := by
          rw [List.find?_append, hd]
          simp
        exact congr (congr (congr (congrArg View.mk hfind) (Function.update_self ..)) ht) hc
      rw [hnew]
      exact .free Cab.hired rfl
    · intro p _ hpp
      apply view_eq
      · have hother : ¬ pid = p := Ne.symm hpp
        simp [List.find?_append, hother]
      · exact Function.update_of_ne hpp _ _
      · rfl
      · rfl
    · exact hm.sender

theorem Matches.send (hw : Wired mainPid s) (hm : Matches mainPid s f)
    {pid taskTimer unwritten : Int} (htime : 0 < taskTimer)
    (hs : s.step mainPid (.send pid taskTimer unwritten true) = some s') :
    ∃ f', f.step (.ask pid taskTimer) = some f' ∧ Matches mainPid s' f' := by
  obtain rfl := Option.some.inj hs
  refine ⟨_, rfl, ?_⟩
  -- a command that is refused changes neither the system nor the fleet
  have hrefused : (sendTask pid taskTimer unwritten true s.drivers).2 = (s.drivers, none) →
      (f pid).map (Cab.accept taskTimer) = f pid →
      Matches mainPid { s with
        drivers := (sendTask pid taskTimer unwritten true s.drivers).2.1
        queue := s.queue ++ (sendTask pid taskTimer unwritten true s.drivers).2.2.toList }
        (Function.update f pid ((f pid).map (Cab.accept taskTimer))) := by
    intro hsend hsame
    rw [hsend, hsame, Function.update_eq_self, Option.toList_none, List.append_nil]
    exact hm
  cases hfind : s.drivers.find? fun d => d.pid = pid with
  | none =>
    apply hrefused
    · simp [sendTask, hfind]
    · have hnone : f pid = none := by
        by_cases hpid : pid = mainPid
        · rw [hpid]
          exact hm.main
        · exact (hm.stands pid hpid).of_unknown hfind
      rw [hnone]
      rfl
  | some d =>
    have hpid : pid ≠ mainPid := by
      have hd := List.mem_of_find?_eq_some hfind
      have hdp : d.pid = pid := by simpa using List.find?_some hfind
      rw [← hdp]
      exact hw.pid_ne_main hd
    have hstands := hm.stands pid hpid
    cases hbusy : d.isBusy with
    | true =>
      apply hrefused
      · simp [sendTask, hfind, hbusy]
      · rcases hstands.of_busy hfind hbusy with ⟨c, left, hc, hride⟩
        rw [hc, Option.map_some, Cab.accept_busy hride]
    | false =>
      rcases hstands.of_idle hfind hbusy with ⟨c, hc, hfree, hv⟩
      rcases View.mk.inj hv with ⟨hd, hproc, ht, hcomp⟩
      have hsend : (sendTask pid taskTimer unwritten true s.drivers).2 =
          (change pid (fun d => { d with isBusy := true, taskTimer := taskTimer }) s.drivers,
            some ⟨pid, taskTimer, unwritten⟩) := by
        simp [sendTask, hfind, hbusy]
      rw [hsend, hc, Option.map_some]
      have hchange := find_change (f := fun d => { d with isBusy := true, taskTimer := taskTimer })
        (fun _ => rfl) pid
      apply hm.update hpid
      · have hnew : view mainPid { s with
            drivers := change pid (fun d => { d with isBusy := true, taskTimer := taskTimer }) s.drivers
            queue := s.queue ++ [⟨pid, taskTimer, unwritten⟩] } pid =
              ⟨some ⟨pid, true, taskTimer⟩, .waiting, [⟨pid, taskTimer, unwritten⟩], []⟩ := by
          have hpost := mail_post_self (k := pid) (m := ⟨pid, taskTimer, unwritten⟩) rfl s.queue
          unfold view
          dsimp only
          rw [hchange, if_pos rfl, hd, hproc, hpost, ht, mail_post_ne hpid, hcomp]
          rfl
        exact hnew ▸ .called _ ⟨pid, taskTimer, unwritten⟩ (Cab.accept_free hfree taskTimer).1 htime
      · intro p _ hpp
        apply view_eq
        · dsimp only
          rw [hchange, if_neg hpp]
        · rfl
        · exact mail_post_ne (Ne.symm hpp) _
        · exact congrArg (List.filter _) (mail_post_ne hpid _)
      · intro m hmem hmtype
        rcases List.mem_append.mp hmem with hmem | hmem
        · exact hm.sender m hmem hmtype
        · obtain rfl := List.mem_singleton.mp hmem
          exact absurd hmtype hpid

/-- That the driver receives its task is no order. -/
theorem Matches.receive (hw : Wired mainPid s) (hm : Matches mainPid s f) {pid : Int}
    (hs : s.step mainPid (.receive pid) = some s') : Matches mainPid s' f := by
  rcases receive_cases hs with ⟨hwait, msg, rest, hmail, rfl⟩
  have hpid : pid ≠ mainPid := hw.ne_main (by simp [hwait])
  have hqueue := Mailbox.mail_receive Message.mtype hmail
  have hmain := Mailbox.mail_receive_ne Message.mtype hmail hpid.symm
  -- the message is the ride that the cab has accepted
  rcases (hm.stands pid hpid).of_tasks hqueue with ⟨c, hc, hride, htime, hv, hrest⟩
  rcases View.mk.inj hv with ⟨hd, hproc, -, hcomp⟩
  rw [if_pos htime]
  apply hm.stay hpid
  · have hnew : view mainPid { s.setProcess pid (.counting msg.time msg) with queue := rest } pid =
        ⟨some ⟨pid, true, msg.time⟩, .counting msg.time msg, [], []⟩ := by
      unfold view
      dsimp only [System.setProcess]
      rw [hd, Function.update_self, hrest, hmain, hcomp]
    rw [hnew, hc]
    exact .riding c msg.time msg.time msg hride htime
  · intro p _ hpp
    apply view_eq
    · rfl
    · exact Function.update_of_ne hpp _ _
    · exact Mailbox.mail_receive_ne Message.mtype hmail hpp
    · exact congrArg (List.filter _) hmain
  · intro m hmem
    exact hm.sender m ((Mailbox.receive_perm Message.mtype hmail).2.symm.subset
      (List.mem_cons_of_mem msg hmem))

/-- A second of the driver is one of its cab. -/
theorem Matches.tick (hw : Wired mainPid s) (hm : Matches mainPid s f) {pid : Int}
    (hs : s.step mainPid (.tick pid) = some s') :
    ∃ f', f.step (.drive pid) = some f' ∧ Matches mainPid s' f' := by
  rcases tick_cases hs with ⟨left, msg, hcount, rfl⟩
  have hpid : pid ≠ mainPid := hw.ne_main (by simp [hcount])
  rcases (hm.stands pid hpid).of_counting hcount with ⟨c, length, hc, hride, hleft, hv⟩
  rcases View.mk.inj hv with ⟨hd, -, ht, hcomp⟩
  rcases Cab.drive_riding hride hleft with ⟨c', hdrive, hride'⟩
  refine ⟨Function.update f pid (some c'), by simp [Fleet.step, hc, hdrive], ?_⟩
  apply hm.update hpid
  · have hnew : ∀ proc, view mainPid (s.setProcess pid proc) pid =
        ⟨some ⟨pid, true, length⟩, proc, [], []⟩ := by
      intro proc
      unfold view
      dsimp only [System.setProcess]
      rw [hd, Function.update_self, ht, hcomp]
    rw [hnew]
    -- the last second of the ride, or one before
    by_cases hlast : left - 1 ≤ 0
    · have hzero : left - 1 = 0 := by omega
      rw [if_pos hlast]
      exact .arriving c' length msg (hzero ▸ hride')
    · rw [if_neg hlast]
      exact .riding c' length (left - 1) msg hride' (by omega)
  · intro p _ hpp
    exact view_eq rfl (Function.update_of_ne hpp _ _) rfl rfl
  · exact hm.sender

theorem Matches.complete (hw : Wired mainPid s) (hm : Matches mainPid s f) {pid : Int}
    (hs : s.step mainPid (.complete pid true) = some s') : Matches mainPid s' f := by
  rcases complete_cases hs with ⟨msg, hfinish, rfl⟩
  have hpid : pid ≠ mainPid := hw.ne_main (by simp [hfinish])
  rcases (hm.stands pid hpid).of_finishing hfinish with ⟨c, length, hc, hride, hv⟩
  rcases View.mk.inj hv with ⟨hd, -, ht, hcomp⟩
  have hpost := mail_post_self (k := mainPid) (m := { msg with mtype := mainPid, pid := pid }) rfl
    s.queue
  rw [if_pos rfl]
  apply hm.stay hpid
  · have hnew : view mainPid { s.setProcess pid .waiting with
        queue := s.queue ++ [{ msg with mtype := mainPid, pid := pid }] } pid =
          ⟨some ⟨pid, true, length⟩, .waiting, [], [{ msg with mtype := mainPid, pid := pid }]⟩ := by
      unfold view
      dsimp only [System.setProcess]
      rw [hd, Function.update_self, mail_post_ne hpid.symm, ht, hpost,
        List.filter_append, hcomp]
      simp
    rw [hnew, hc]
    exact .arrived c length _ hride
  · intro p hp hpp
    apply view_eq
    · rfl
    · exact Function.update_of_ne hpp _ _
    · exact mail_post_ne (Ne.symm hp) _
    · -- the completion is not one of `p`
      have hno : ¬ pid = p := Ne.symm hpp
      dsimp only
      rw [hpost, List.filter_append]
      simp [hno]
  · intro m hmem hmtype
    rcases List.mem_append.mp hmem with hmem | hmem
    · exact hm.sender m hmem hmtype
    · obtain rfl := List.mem_singleton.mp hmem
      exact hpid

/-- The receive of `main` ends a ride, if there is a completion. -/
theorem Matches.collect (hm : Matches mainPid s f) (hs : s.step mainPid .collect = some s') :
    s' = s ∨ ∃ pid f', f.step (.finish pid) = some f' ∧ Matches mainPid s' f' := by
  rcases collect_cases hs with hsame | ⟨msg, rest, hmail, rfl⟩
  · exact Or.inl hsame
  · right
    rcases Mailbox.receive_perm Message.mtype hmail with ⟨hkey, hperm⟩
    have hpid : msg.pid ≠ mainPid := hm.sender msg (hperm.symm.subset (by simp)) hkey
    have hqueue := Mailbox.mail_receive Message.mtype hmail
    -- the first completion is the first one of this driver
    have hself : (Mailbox.mail Message.mtype mainPid s.queue).filter (fun m => m.pid = msg.pid) =
        msg :: (Mailbox.mail Message.mtype mainPid rest).filter fun m => m.pid = msg.pid := by
      rw [hqueue, List.filter_cons_of_pos (by simp)]
    rcases (hm.stands msg.pid hpid).of_completions hself with ⟨c, length, hc, hride, hv, hrest⟩
    rcases View.mk.inj hv with ⟨hd, hproc, ht, -⟩
    -- its cab has arrived, and is free again
    rcases Cab.finish_arrived hride rfl with ⟨c', hfinish, hfree⟩
    refine ⟨msg.pid, Function.update f msg.pid (some c'), by simp [Fleet.step, hc, hfinish], ?_⟩
    have hchange := find_change (f := fun d => { d with isBusy := false, taskTimer := 0 })
      (fun _ => rfl) msg.pid
    apply hm.update hpid
    · have hnew : view mainPid { s with
          drivers := updateStatusDriver msg.pid s.drivers, queue := rest } msg.pid =
            ⟨some ⟨msg.pid, false, 0⟩, .waiting, [], []⟩ := by
        unfold view updateStatusDriver
        dsimp only
        rw [hchange, if_pos rfl, hd, hproc, Mailbox.mail_receive_ne Message.mtype hmail hpid, ht, hrest]
        rfl
      rw [hnew]
      exact .free c' hfree
    · intro p hp hpp
      apply view_eq
      · unfold updateStatusDriver
        dsimp only
        rw [hchange, if_neg hpp]
      · rfl
      · exact Mailbox.mail_receive_ne Message.mtype hmail hp
      · have hno : ¬ msg.pid = p := Ne.symm hpp
        rw [hqueue, List.filter_cons_of_neg (by simp [hno])]
    · intro m hmem
      exact hm.sender m (hperm.symm.subset (List.mem_cons_of_mem msg hmem))

/-! ## Runs -/

/-- The system answers to the fleet: each step is one with at most one order. -/
theorem Matches.step (hw : Wired mainPid s) (hm : Matches mainPid s f)
    (hok : s.Admissible mainPid l) (hsent : Delivered l) (hasked : Asked l)
    (hs : s.step mainPid l = some s') :
    ∃ os f', Answers l os ∧ Machine.Run Fleet.step Fleet.Allowed f os f' ∧ Matches mainPid s' f' := by
  cases l with
  | create pid =>
    rcases hm.create hok hs with ⟨hnone, f', hf', hm'⟩
    refine ⟨_, f', .create pid, Machine.Run.step .init ?_ hf', hm'⟩
    -- whom `fork` has made is new to the fleet
    rintro q he hge
    cases he
    exact hnone hge
  | send pid taskTimer unwritten sent =>
    obtain rfl : sent = true := hsent
    rcases hm.send hw (hasked _ _ _ _ rfl) hs with ⟨f', hf', hm'⟩
    exact ⟨_, f', .send .., Machine.Run.step .init (by simp [Fleet.Allowed]) hf', hm'⟩
  | receive pid => exact ⟨_, f, .receive pid, .init, hm.receive hw hs⟩
  | tick pid =>
    rcases hm.tick hw hs with ⟨f', hf', hm'⟩
    exact ⟨_, f', .tick pid, Machine.Run.step .init (by simp [Fleet.Allowed]) hf', hm'⟩
  | complete pid sent =>
    obtain rfl : sent = true := hsent
    exact ⟨_, f, .complete pid true, .init, hm.complete hw hs⟩
  | collect =>
    rcases hm.collect hs with rfl | ⟨pid, f', hf', hm'⟩
    · exact ⟨_, f, .idle, .init, hm⟩
    · exact ⟨_, f', .collect pid, Machine.Run.step .init (by simp [Fleet.Allowed]) hf', hm'⟩

/-- Each second of a driver is one order to drive. -/
theorem count_tick {ls : List Label} {oss : List (List Order)} (h : List.Forall₂ Answers ls oss)
    (p : Int) : oss.flatten.count (.drive p) = ls.count (.tick p) := by
  induction h with
  | nil => rfl
  | cons hl _ ih =>
    rw [List.flatten_cons, List.count_append, ih, List.count_cons, Nat.add_comm]
    congr 1
    cases hl <;> simp [List.count_singleton]

/-- The runs in which every `msgsnd` succeeds and the timers are positive. -/
abbrev WorkingRun (mainPid : Int) (ls : List Label) (s : System) : Prop :=
  DeliveredRun mainPid (fun _ l => Asked l) ls s

theorem matches_of_run {ls : List Label} (hrun : WorkingRun mainPid ls s) :
    ∃ oss f, List.Forall₂ Answers ls oss ∧ Fleet.Served oss.flatten f ∧
      Wired mainPid s ∧ Matches mainPid s f := by
  apply hrun.simulates (fun s f => Wired mainPid s ∧ Matches mainPid s f) Answers
  · exact ⟨Wired.init mainPid, Matches.init mainPid⟩
  · rintro s l s' f ⟨hw, hm⟩ ⟨⟨hok, hsent⟩, hasked⟩ hs
    rcases hm.step hw hok hsent hasked hs with ⟨os, f', hos, hrun, hm'⟩
    exact ⟨os, f', hos, hrun, hw.step hok hs, hm'⟩

/-- In every run with every `msgsnd` succeeding and positive timers the system does what
a fleet does with the orders that its steps stand for: `get_status` and `get_drivers`
tell of a driver what is told of its cab, and the seconds a driver has slept, with what
is left of its ride, are the timers of the tasks it has accepted. -/
theorem fleet_served (mainPid : Int) (ls : List Label) (s : System) (hrun : WorkingRun mainPid ls s) :
    ∃ oss f, List.Forall₂ Answers ls oss ∧ Fleet.Served oss.flatten f ∧
      (∀ p, getStatus p s.drivers =
        ((f p).map fun c => Reply.status c.status).getD .driverNotFound) ∧
      (∀ d ∈ s.drivers, (f d.pid).map Cab.status = some d.status) ∧
      ∀ p c, f p = some c →
        c.rides.sum = ls.count (.tick p) + (c.ride.map Ride.left).getD 0 := by
  rcases matches_of_run hrun with ⟨oss, f, hanswers, hserved, hw, hm⟩
  refine ⟨oss, f, hanswers, hserved, ?_, ?_, ?_⟩
  · intro p
    have hstatus : (s.drivers.find? fun d => d.pid = p).map Driver.status = (f p).map Cab.status := by
      by_cases hp : p = mainPid
      · -- `main` is no driver and has no cab
        have hnone : s.drivers.find? (fun d => d.pid = p) = none := by
          rw [hp]
          exact (Keyed.lookup_eq_none_iff Driver.pid).mpr hw.main
        rw [hnone, hp, hm.main]
        rfl
      · exact (hm.stands p hp).status_eq
    unfold getStatus
    cases hfind : s.drivers.find? fun d => d.pid = p with
    | none =>
      rw [hfind] at hstatus
      rw [Option.map_eq_none_iff.mp hstatus.symm]
      rfl
    | some d =>
      rw [hfind] at hstatus
      rcases Option.map_eq_some_iff.mp hstatus.symm with ⟨c, hc, hcd⟩
      rw [hc, Option.map_some, hcd]
      rfl
  · intro d hd
    rw [← (hm.stands d.pid (hw.pid_ne_main hd)).status_eq]
    exact congrArg (Option.map Driver.status) (find_of_mem hw.nodup hd)
  · intro p c hc
    have hdriven := Fleet.driven_of_run hserved p
    rw [count_tick hanswers, Fleet.driven, hc] at hdriven
    rw [c.ledger, ← hdriven]
    rfl

instance : ∀ l : Label, Decidable (Asked l)
  | .send pid taskTimer unwritten sent =>
    decidable_of_iff (0 < taskTimer)
      ⟨fun h _ _ _ _ he => by cases he; exact h, fun h => h pid taskTimer unwritten sent rfl⟩
  | .create _ | .receive _ | .tick _ | .complete .. | .collect => .isTrue fun _ _ _ _ he => by cases he

theorem fleet_served_twoJobs : ∃ s, WorkingRun 1 twoJobs s ∧
    ∃ oss f, List.Forall₂ Answers twoJobs oss ∧ Fleet.Served oss.flatten f ∧
      (∀ p, getStatus p s.drivers =
        ((f p).map fun c => Reply.status c.status).getD .driverNotFound) ∧
      (∀ d ∈ s.drivers, (f d.pid).map Cab.status = some d.status) ∧
      ∀ p c, f p = some c →
        c.rides.sum = twoJobs.count (.tick p) + (c.ride.map Ride.left).getD 0 := by
  have hrun : (Machine.exec (Machine.guarded (System.step 1)
      fun s l => (s.Admissible 1 l ∧ Delivered l) ∧ Asked l) System.init twoJobs).map System.drivers =
        some [⟨2, true, 1⟩] := by
    decide +kernel
  rcases Machine.Run.exists_of_exec hrun with ⟨s, hrun, -⟩
  exact ⟨s, hrun, fleet_served 1 twoJobs s hrun⟩

end EmbeddedCourse.Taxi
