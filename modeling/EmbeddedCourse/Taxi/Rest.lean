import EmbeddedCourse.Taxi.Fleet
import Mathlib.Algebra.BigOperators.Group.List.Basic

/-! # The taxi server left alone

Without commands the drivers and the receive of `main` go on for a bounded number
of steps, in whatever order, and where they stop everything that was accepted has
been driven, every driver is free, and the queue is empty (`fleet_rests`).
-/

namespace EmbeddedCourse.Taxi

variable {mainPid p : Int} {s s' : System} {l : Label} {f : Fleet}

/-- The steps that need no command: those of the drivers, and the receive of `main`. -/
inductive Internal : Label → Prop where
  | receive (pid : Int) : Internal (.receive pid)
  | tick (pid : Int) : Internal (.tick pid)
  | complete (pid : Int) : Internal (.complete pid true)
  | collect : Internal .collect

/-- How many steps a message, or a process, is still good for. -/
def Message.ahead (mainPid : Int) (m : Message) : ℕ :=
  if m.mtype = mainPid then 1 else m.time.toNat + 4

def Process.ahead : Process → ℕ
  | .notStarted | .waiting => 0
  | .counting taskTimer _ => taskTimer.toNat + 3
  | .finishing _ => 2

/-- The steps ahead of the system, when no command comes. -/
def ahead (mainPid : Int) (s : System) : ℕ :=
  (s.queue.map (Message.ahead mainPid)).sum + (s.drivers.map fun d => (s.process d.pid).ahead).sum

/-- One process of the table goes on. -/
theorem ahead_setProcess (hw : Wired mainPid s) (pid : Int) (hp : s.process pid ≠ .notStarted)
    (c : Process) (queue : List Message) :
    ahead mainPid { s.setProcess pid c with queue := queue } + (s.process pid).ahead =
      (queue.map (Message.ahead mainPid)).sum +
        (s.drivers.map fun d => (s.process d.pid).ahead).sum + c.ahead := by
  have hpid : pid ∈ s.drivers.map Driver.pid := by
    by_contra hout
    exact hp ((hw.started pid).mpr hout)
  rcases List.mem_map.mp hpid with ⟨d, hd, rfl⟩
  rcases List.append_of_mem hd with ⟨A, B, hAB⟩
  have hnd := hw.nodup
  rw [hAB, List.map_append, List.map_cons, List.nodup_middle, List.nodup_cons, ← List.map_append] at hnd
  -- the other entries have other pids
  have hother : ∀ x ∈ A ++ B, ((Function.update s.process d.pid c) x.pid).ahead =
      (s.process x.pid).ahead := by
    intro x hx
    rw [Function.update_of_ne]
    intro he
    exact hnd.1 (he ▸ List.mem_map_of_mem hx)
  have hA := List.map_congr_left fun x hx => hother x (List.mem_append_left B hx)
  have hB := List.map_congr_left fun x hx => hother x (List.mem_append_right A hx)
  unfold ahead
  dsimp only [System.setProcess]
  rw [hAB, List.map_append, List.map_cons, List.map_append, List.map_cons, hA, hB,
    Function.update_self]
  simp only [List.sum_append, List.sum_cons]
  omega

theorem ahead_receive (mainPid : Int) {k : Int} {m : Message} {rest : List Message}
    (hr : Mailbox.receive Message.mtype k s.queue = some (m, rest)) :
    (s.queue.map (Message.ahead mainPid)).sum =
      m.ahead mainPid + (rest.map (Message.ahead mainPid)).sum := by
  rw [((Mailbox.receive_perm Message.mtype hr).2.map _).sum_eq, List.map_cons, List.sum_cons]

/-- A step that changes something uses one up. -/
theorem ahead_step (hw : Wired mainPid s) (hm : Matches mainPid s f) (hl : Internal l)
    (hs : s.step mainPid l = some s') (hne : s' ≠ s) : ahead mainPid s' < ahead mainPid s := by
  cases hl with
  | receive pid =>
    rcases receive_cases hs with ⟨hwait, msg, rest, hmail, rfl⟩
    have hpid : pid ≠ mainPid := hw.ne_main (by simp [hwait])
    rcases (hm.stands pid hpid).of_tasks (Mailbox.mail_receive Message.mtype hmail) with
      ⟨c, -, -, htime, -, -⟩
    have hset := ahead_setProcess hw pid (by simp [hwait]) (.counting msg.time msg) rest
    have hqueue := ahead_receive mainPid hmail
    -- a task has its seconds ahead and four steps more
    have htask : msg.ahead mainPid = msg.time.toNat + 4 := by
      rw [Message.ahead, if_neg]
      rw [(Mailbox.receive_perm Message.mtype hmail).1]
      exact hpid
    rw [hwait, Process.ahead, Process.ahead] at hset
    rw [if_pos htime]
    unfold ahead at hset ⊢
    omega
  | tick pid =>
    rcases tick_cases hs with ⟨left, msg, hcount, rfl⟩
    have hpid : pid ≠ mainPid := hw.ne_main (by simp [hcount])
    rcases (hm.stands pid hpid).of_counting hcount with ⟨c, length, -, -, hleft, -⟩
    have hset := ahead_setProcess hw pid (by simp [hcount])
      (if left - 1 ≤ 0 then .finishing msg else .counting (left - 1) msg) s.queue
    -- one second less, or the completion that is still to be sent
    have hless : (if left - 1 ≤ 0 then Process.finishing msg else .counting (left - 1) msg).ahead <
        left.toNat + 3 := by
      split_ifs
      · simp only [Process.ahead]
        omega
      · simp only [Process.ahead]
        omega
    rw [hcount, Process.ahead] at hset
    simp only [ahead, System.setProcess] at hset ⊢
    omega
  | complete pid =>
    rcases complete_cases hs with ⟨msg, hfinish, rfl⟩
    have hset := ahead_setProcess hw pid (by simp [hfinish]) .waiting
      (s.queue ++ [{ msg with mtype := mainPid, pid := pid }])
    rw [hfinish, Process.ahead, Process.ahead, List.map_append, List.sum_append, List.map_singleton,
      List.sum_singleton, Message.ahead, if_pos rfl] at hset
    rw [if_pos rfl]
    unfold ahead at hset ⊢
    omega
  | collect =>
    rcases collect_cases hs with rfl | ⟨msg, rest, hmail, rfl⟩
    · exact absurd rfl hne
    · have hqueue := ahead_receive mainPid hmail
      -- a completion is good for its receive
      have hone : msg.ahead mainPid = 1 := if_pos (Mailbox.receive_perm Message.mtype hmail).1
      have hpids := map_pid_change (f := fun d => { d with isBusy := false, taskTimer := 0 })
        (fun _ => rfl) msg.pid s.drivers
      have hprocs : (updateStatusDriver msg.pid s.drivers).map (fun d => (s.process d.pid).ahead) =
          s.drivers.map fun d => (s.process d.pid).ahead := by
        have hmap : ∀ ds : List Driver, ds.map (fun d => (s.process d.pid).ahead) =
            (ds.map Driver.pid).map fun p => (s.process p).ahead := by
          intro ds
          rw [List.map_map]
          rfl
        rw [hmap, hmap, updateStatusDriver, hpids]
      unfold ahead
      dsimp only
      rw [hprocs, hqueue, hone]
      omega

/-- No step that needs no command changes anything. -/
def Resting (mainPid : Int) (s : System) : Prop :=
  ∀ l s', Internal l → s.step mainPid l = some s' → s' = s

/-- In a state of rest nothing is in the queue, and every cab is free. -/
theorem Matches.of_resting (hm : Matches mainPid s f) (hrest : Resting mainPid s) :
    s.queue = [] ∧ ∀ p, p ≠ mainPid → f p = none ∨ ∃ c, f p = some c ∧ c.ride = none ∧
      view mainPid s p = ⟨some ⟨p, false, 0⟩, .waiting, [], []⟩ := by
  have hmain : Mailbox.mail Message.mtype mainPid s.queue = [] := by
    cases hmail : Mailbox.mail Message.mtype mainPid s.queue with
    | nil => rfl
    | cons m ms =>
      rcases Mailbox.exists_receive Message.mtype hmail with ⟨rest, hr⟩
      have hs : s.step mainPid .collect = some { s with
          drivers := updateStatusDriver m.pid s.drivers, queue := rest } := by
        simp only [System.step, hr]
      have hsame := congrArg (List.length ∘ System.queue) (hrest _ _ .collect hs)
      have hlength := (Mailbox.receive_perm Message.mtype hr).2.length_eq
      simp only [Function.comp_apply, List.length_cons] at hsame hlength
      omega
  have hfree : ∀ p, p ≠ mainPid → (view mainPid s p).tasks = [] ∧ (f p = none ∨
      ∃ c, f p = some c ∧ c.ride = none ∧
        view mainPid s p = ⟨some ⟨p, false, 0⟩, .waiting, [], []⟩) := by
    intro p hp
    have hstands := hm.stands p hp
    generalize hv : view mainPid s p = v at hstands
    generalize f p = o at hstands
    have hproc : s.process p = v.process := congrArg View.process hv
    -- in every other stage of a ride some step goes on with it
    cases hstands with
    | absent => exact ⟨rfl, Or.inl rfl⟩
    | free c hride => exact ⟨rfl, Or.inr ⟨c, rfl, hride, rfl⟩⟩
    | called c m hride htime =>
      rcases Mailbox.exists_receive Message.mtype (congrArg View.tasks hv) with ⟨rest, hr⟩
      have hs : s.step mainPid (.receive p) = some { s.setProcess p (.counting m.time m) with
          queue := rest } := by
        simp only [System.step, hproc, hr, if_true, Option.map_some, if_pos htime]
      have hsame := congrFun (congrArg System.process (hrest _ _ (.receive p) hs)) p
      simp [System.setProcess, hproc] at hsame
    | riding c length left m hride hleft =>
      have hs : s.step mainPid (.tick p) = some (s.setProcess p
          (if left - 1 ≤ 0 then .finishing m else .counting (left - 1) m)) := by
        simp only [System.step, hproc]
      have hsame := congrFun (congrArg System.process (hrest _ _ (.tick p) hs)) p
      simp only [System.setProcess, hproc, Function.update_self] at hsame
      split_ifs at hsame
      have hleft' := (Process.counting.inj hsame).1
      omega
    | arriving c length m hride =>
      have hs : s.step mainPid (.complete p true) = some { s.setProcess p .waiting with
          queue := s.queue ++ [{ m with mtype := mainPid, pid := p }] } := by
        simp only [System.step, hproc, if_true]
      have hsame := congrFun (congrArg System.process (hrest _ _ (.complete p) hs)) p
      simp [System.setProcess, hproc] at hsame
    | arrived c length m hride =>
      have hcomp : (Mailbox.mail Message.mtype mainPid s.queue).filter (fun m => m.pid = p) = [m] :=
        congrArg View.completions hv
      rw [hmain] at hcomp
      cases hcomp
  constructor
  · apply Mailbox.eq_nil_of_mail Message.mtype
    intro p
    by_cases hp : p = mainPid
    · rw [hp]
      exact hmain
    · exact (hfree p hp).1
  · intro p hp
    exact (hfree p hp).2

/-- With an empty queue and every driver waiting for a task there is nothing to do. -/
theorem resting_of_idle (hw : Wired mainPid s) (hqueue : s.queue = [])
    (hidle : ∀ d ∈ s.drivers, s.process d.pid = .waiting) : Resting mainPid s := by
  have hprocess : ∀ p, s.process p = .notStarted ∨ s.process p = .waiting := by
    intro p
    by_cases hp : p ∈ s.drivers.map Driver.pid
    · rcases List.mem_map.mp hp with ⟨d, hd, rfl⟩
      exact Or.inr (hidle d hd)
    · exact Or.inl ((hw.started p).mpr hp)
  intro l s' hl hs
  cases hl with
  | receive pid =>
    rcases receive_cases hs with ⟨-, msg, rest, hmail, -⟩
    rw [hqueue] at hmail
    cases hmail
  | tick pid =>
    rcases tick_cases hs with ⟨taskTimer, msg, hcount, -⟩
    rcases hprocess pid with hp | hp <;> rw [hp] at hcount <;> cases hcount
  | complete pid =>
    rcases complete_cases hs with ⟨msg, hfinish, -⟩
    rcases hprocess pid with hp | hp <;> rw [hp] at hfinish <;> cases hfinish
  | collect =>
    have hnone : Mailbox.receive Message.mtype mainPid s.queue = none := by rw [hqueue]; rfl
    simp only [System.step, hnone] at hs
    exact (Option.some.inj hs).symm

/-- The runs from `s` without commands, of steps that change something. -/
abbrev LeftAlone (mainPid : Int) (s : System) (ls : List Label) (s' : System) : Prop :=
  Machine.Run (System.step mainPid) (fun s l => Internal l ∧ s.step mainPid l ≠ some s) s ls s'

theorem WorkingRun.append {ls ls' : List Label} (hrun : WorkingRun mainPid ls s)
    (halone : LeftAlone mainPid s ls' s') : WorkingRun mainPid (ls ++ ls') s' := by
  apply Machine.Run.append hrun
  apply halone.mono
  rintro t l ⟨hl, -⟩
  cases hl <;> simp [System.Admissible, Delivered, Asked]

/-- Whatever the drivers have been sent, without commands the system takes a bounded
number of steps, in any order, and where it can take no more all is done: the queue is
empty, every driver is free and waits, and has slept for as many seconds as the tasks
that it has accepted ask for. -/
theorem fleet_rests (mainPid : Int) (ls : List Label) (s : System) (hrun : WorkingRun mainPid ls s)
    (ls' : List Label) (s' : System) (halone : LeftAlone mainPid s ls' s') :
    ls'.length ≤ ahead mainPid s ∧
    (Resting mainPid s' →
      s'.queue = [] ∧ (∀ d ∈ s'.drivers, d.isBusy = false ∧ s'.process d.pid = .waiting) ∧
      ∃ oss f, List.Forall₂ Answers (ls ++ ls') oss ∧ Fleet.Served oss.flatten f ∧
        ∀ p c, f p = some c → c.ride = none ∧ c.rides.sum = (ls ++ ls').count (.tick p)) := by
  constructor
  · rcases matches_of_run hrun with ⟨-, f, -, -, hw, hm⟩
    have hinit : (Wired mainPid s ∧ ∃ f, Matches mainPid s f) ∧ ahead mainPid s = ahead mainPid s :=
      ⟨⟨hw, f, hm⟩, rfl⟩
    have hlength := halone.length_le
      (fun t r => (Wired mainPid t ∧ ∃ f, Matches mainPid t f) ∧ r = ahead mainPid t) hinit
      (by
        rintro t l t' r ⟨⟨hw, f, hm⟩, rfl⟩ ⟨hl, hmoves⟩ hs
        have hok : t.Admissible mainPid l ∧ Delivered l ∧ Asked l := by
          cases hl <;> simp [System.Admissible, Delivered, Asked]
        rcases hm.step hw hok.1 hok.2.1 hok.2.2 hs with ⟨-, f', -, -, hm'⟩
        have hne : t' ≠ t := by
          rintro rfl
          exact hmoves hs
        exact ⟨_, ahead_step hw hm hl hs hne, ⟨hw.step hok.1 hs, f', hm'⟩, rfl⟩)
    rcases hlength with ⟨r, -, hle⟩
    omega
  · intro hrest
    rcases matches_of_run (hrun.append halone) with ⟨oss, f, hanswers, hserved, hw, hm⟩
    rcases hm.of_resting hrest with ⟨hqueue, hfree⟩
    refine ⟨hqueue, ?_, oss, f, hanswers, hserved, ?_⟩
    · intro d hd
      have hfind := find_of_mem hw.nodup hd
      rcases hfree d.pid (hw.pid_ne_main hd) with hnone | ⟨c, -, -, hv⟩
      · have hstatus := (hm.stands d.pid (hw.pid_ne_main hd)).status_eq
        rw [hnone] at hstatus
        have hcontra : (s'.drivers.find? fun x => x.pid = d.pid) = none :=
          Option.map_eq_none_iff.mp hstatus
        rw [hcontra] at hfind
        cases hfind
      · have hdriver := hfind.symm.trans (congrArg View.driver hv)
        rw [Option.some.inj hdriver]
        exact ⟨rfl, congrArg View.process hv⟩
    · intro p c hc
      have hp : p ≠ mainPid := by
        rintro rfl
        rw [hm.main] at hc
        cases hc
      -- nobody is on the way, so that the seconds slept are those of the rides
      rcases hfree p hp with hnone | ⟨c', hc', hride, -⟩
      · rw [hnone] at hc
        cases hc
      · obtain rfl : c = c' := Option.some.inj (hc.symm.trans hc')
        have hdriven := Fleet.driven_of_run hserved p
        rw [count_tick hanswers, Fleet.driven, hc] at hdriven
        rw [Cab.rides_of_free hride, ← hdriven]
        exact ⟨hride, rfl⟩

instance : ∀ l : Label, Decidable (Internal l)
  | .receive pid => .isTrue (.receive pid)
  | .tick pid => .isTrue (.tick pid)
  | .complete pid true => .isTrue (.complete pid)
  | .complete _ false | .create _ | .send .. => .isFalse fun h => by cases h
  | .collect => .isTrue .collect

/-- The step changes the queue or the process of `p`. -/
def Moves (mainPid p : Int) (s : System) (l : Label) : Prop :=
  Internal l ∧ (s.step mainPid l).map (fun t => (t.queue, t.process p)) ≠ some (s.queue, s.process p)

instance (mainPid p : Int) (s : System) (l : Label) : Decidable (Moves mainPid p s l) :=
  inferInstanceAs (Decidable (_ ∧ _))

theorem ne_of_moves (h : Moves mainPid p s l) : s.step mainPid l ≠ some s := by
  intro hs
  apply h.2
  rw [hs]
  rfl

/-- The second job of `twoJobs`, after the last command. -/
def lastRide : List Label := [.receive 2, .tick 2, .complete 2 true, .collect]

theorem fleet_rests_lastRide : ∃ s s', WorkingRun 1 twoJobs s ∧ LeftAlone 1 s lastRide s' ∧
    lastRide.length ≤ ahead 1 s ∧ Resting 1 s' ∧
    s'.queue = [] ∧ (∀ d ∈ s'.drivers, d.isBusy = false ∧ s'.process d.pid = .waiting) ∧
    ∃ oss f, List.Forall₂ Answers (twoJobs ++ lastRide) oss ∧ Fleet.Served oss.flatten f ∧
      ∀ p c, f p = some c → c.ride = none ∧ c.rides.sum = (twoJobs ++ lastRide).count (.tick p) := by
  have hrun : ((Machine.exec (Machine.guarded (System.step 1)
      fun s l => (s.Admissible 1 l ∧ Delivered l) ∧ Asked l) System.init twoJobs).bind fun s =>
        (Machine.exec (Machine.guarded (System.step 1) (Moves 1 2)) s lastRide).map
          fun s => (s.drivers, s.queue, s.process 2)) = some ([⟨2, false, 0⟩], [], .waiting) := by
    decide +kernel
  rcases Option.bind_eq_some_iff.mp hrun with ⟨s, hs, hlast⟩
  rcases Machine.Run.exists_of_exec hlast with ⟨s', hmoves, hend⟩
  simp only [Prod.mk.injEq] at hend
  rcases hend with ⟨hdrivers, hqueue, hprocess⟩
  have hworking : WorkingRun 1 twoJobs s := Machine.Run.of_exec hs
  have halone : LeftAlone 1 s lastRide s' := hmoves.mono fun t l h => ⟨h.1, ne_of_moves h⟩
  -- the only driver waits
  have hidle : ∀ d ∈ s'.drivers, s'.process d.pid = .waiting := by
    intro d hd
    rw [hdrivers] at hd
    obtain rfl := List.mem_singleton.mp hd
    exact hprocess
  rcases matches_of_run (hworking.append halone) with ⟨-, -, -, -, hw, -⟩
  have hrest : Resting 1 s' := resting_of_idle hw hqueue hidle
  rcases fleet_rests 1 twoJobs s hworking lastRide s' halone with ⟨hlength, hrests⟩
  exact ⟨s, s', hworking, halone, hlength, hrest, hrests hrest⟩

end EmbeddedCourse.Taxi
