import EmbeddedCourse.Taxi.Accounts

/-! # Jobs of the drivers

Two results about every order of steps. A driver never has two items
outstanding, and one that the table calls available has none, whatever `msgsnd`
does (`one_job_per_driver`). With every `msgsnd` succeeding, a busy driver has an
item outstanding as long as no driver has received a task of no time; the driver
drops such a task and the table keeps it busy for good (`busy_has_job_iff`).
-/

namespace EmbeddedCourse.Taxi

variable {mainPid p : Int} {s s' : System} {l : Label} {ls : List Label} {a b : Account}

/-- An available driver has nothing outstanding, and a busy one at most one item. -/
def Account.Bounded (a : Account) : Prop := a.items ≤ if a.busy then 1 else 0

theorem Turn.bounded (h : Turn s l p a b) (ha : a.Bounded) : b.Bounded := by
  cases h with
  | keep => exact ha
  | send sent n =>
    have hn : n ≤ 0 := ha
    unfold Account.Bounded
    split_ifs <;> simp_all
  | drop b n | lose b n =>
    unfold Account.Bounded at ha ⊢
    dsimp only at ha ⊢
    omega
  | collect b n =>
    unfold Account.Bounded at ha ⊢
    dsimp only at ha ⊢
    cases b <;> simp_all

/-- The runs of the system. -/
abbrev SystemRun (mainPid : Int) (ls : List Label) (s : System) : Prop :=
  Machine.Run (System.step mainPid) (fun s l => s.Admissible mainPid l) System.init ls s

theorem wired_of_run (hrun : SystemRun mainPid ls s) : Wired mainPid s := by
  apply hrun.invariant (Wired mainPid) (Wired.init mainPid)
  intro s l s' hw hok hs
  exact hw.step hok hs

theorem bounded_of_run (hrun : SystemRun mainPid ls s) (hp : p ≠ mainPid) :
    (account mainPid s p).Bounded := by
  have hboth : Wired mainPid s ∧ (account mainPid s p).Bounded := by
    apply hrun.invariant fun s => Wired mainPid s ∧ (account mainPid s p).Bounded
    · exact ⟨Wired.init mainPid, Nat.le_refl 0⟩
    · rintro s l s' ⟨hw, hb⟩ hok hs
      exact ⟨hw.step hok hs, (turn_of_step hw hok hp hs).bounded hb⟩
  exact hboth.2

/-- What the table says of a driver in it. -/
theorem Wired.busy_eq (h : Wired mainPid s) {d : Driver} (hd : d ∈ s.drivers) :
    busy s d.pid = d.isBusy := by
  rw [busy, find_of_mem h.nodup hd]
  rfl

theorem Wired.pid_ne_main (h : Wired mainPid s) {d : Driver} (hd : d ∈ s.drivers) :
    d.pid ≠ mainPid := by
  rintro rfl
  exact h.main (List.mem_map_of_mem hd)

/-- In every state of every run each driver has at most one item outstanding,
and none if it is not busy; and when `main` takes a completion, there is no task
for its driver in the queue and no job in its process. -/
theorem one_job_per_driver (mainPid : Int) (ls : List Label) (s : System)
    (hrun : SystemRun mainPid ls s) : ∀ d ∈ s.drivers,
      outstanding mainPid s d.pid ≤ 1 ∧
      (d.isBusy = false → outstanding mainPid s d.pid = 0) ∧
      ∀ msg rest, Mailbox.receive Message.mtype mainPid s.queue = some (msg, rest) →
        msg.pid = d.pid → outstanding mainPid { s with queue := rest } d.pid = 0 := by
  intro d hd
  have hw := wired_of_run hrun
  have hne := hw.pid_ne_main hd
  have hbound : outstanding mainPid s d.pid ≤ if d.isBusy then 1 else 0 := by
    have hb := bounded_of_run hrun hne
    rw [Account.Bounded, account, hw.busy_eq hd] at hb
    exact hb
  have hle : outstanding mainPid s d.pid ≤ 1 := by
    refine Nat.le_trans hbound ?_
    split_ifs <;> decide
  refine ⟨hle, ?_, ?_⟩
  · intro hfree
    rw [hfree] at hbound
    exact Nat.le_zero.mp hbound
  · intro msg rest hmail hpid
    -- the completion is the one item
    have hqueue := outstanding_receive hne hmail
    rw [if_pos (Or.inr ⟨(Mailbox.receive_perm Message.mtype hmail).1, hpid⟩)] at hqueue
    omega

/-- A driver is given a job, counts it down and answers, and is given the next one. -/
def twoJobs : List Label :=
  [.create 2, .send 2 2 0 true, .receive 2, .tick 2, .tick 2, .send 2 5 0 true, .complete 2 true,
    .collect, .send 2 1 0 true]

theorem one_job_per_driver_twoJobs : ∃ s, SystemRun 1 twoJobs s ∧ s.drivers = [⟨2, true, 1⟩] ∧
    ∀ d ∈ s.drivers,
      outstanding 1 s d.pid ≤ 1 ∧
      (d.isBusy = false → outstanding 1 s d.pid = 0) ∧
      ∀ msg rest, Mailbox.receive Message.mtype 1 s.queue = some (msg, rest) →
        msg.pid = d.pid → outstanding 1 { s with queue := rest } d.pid = 0 := by
  have hrun : (Machine.exec (Machine.guarded (System.step 1) fun s l => s.Admissible 1 l)
      System.init twoJobs).map System.drivers = some [⟨2, true, 1⟩] := by
    decide +kernel
  rcases Machine.Run.exists_of_exec hrun with ⟨s, hrun, hdrivers⟩
  exact ⟨s, hrun, hdrivers, one_job_per_driver 1 twoJobs s hrun⟩

/-! ## Busy drivers -/

/-- Every `msgsnd` succeeds. -/
def Delivered : Label → Prop
  | .send _ _ _ sent | .complete _ sent => sent = true
  | .create _ | .receive _ | .tick _ | .collect => True

instance : ∀ l : Label, Decidable (Delivered l)
  | .send _ _ _ sent | .complete _ sent => inferInstanceAs (Decidable (sent = true))
  | .create _ | .receive _ | .tick _ | .collect => .isTrue trivial

/-- No driver receives a task of no time. -/
def Timed (s : System) (l : Label) : Prop :=
  ∀ pid msg rest, l = .receive pid →
    Mailbox.receive Message.mtype pid s.queue = some (msg, rest) → 0 < msg.time

/-- A command `send_task` asks for some time. -/
def Asked (l : Label) : Prop :=
  ∀ pid taskTimer unwritten sent, l = .send pid taskTimer unwritten sent → 0 < taskTimer

/-- Every busy driver has a task in the queue, a job, or a completion in the queue. -/
def Alive (mainPid : Int) (s : System) : Prop :=
  ∀ d ∈ s.drivers, d.isBusy = true →
    0 < tasks s d.pid ∨ (s.process d.pid).job = 1 ∨ 0 < completions mainPid s d.pid

/-- A busy driver has exactly one item outstanding. -/
def Account.Exact (a : Account) : Prop := a.items = if a.busy then 1 else 0

theorem Turn.exact (h : Turn s l p a b) (hsent : Delivered l) (htimed : Timed s l) (ha : a.Exact) :
    b.Exact := by
  cases h with
  | keep => exact ha
  | send sent n hl =>
    subst hl
    have hn : n = 0 := ha
    have hsent : sent = true := hsent
    simp [Account.Exact, hn, hsent]
  | drop b n hl hmail htime =>
    have hpos := htimed p _ _ hl hmail
    omega
  | lose b n hl =>
    subst hl
    exact absurd hsent (by simp [Delivered])
  | collect b n =>
    unfold Account.Exact at ha ⊢
    dsimp only at ha ⊢
    cases b <;> simp_all

/-- A driver that is busy with nothing stays so. -/
theorem Turn.stuck (h : Turn s l p ⟨true, 0⟩ b) : b = ⟨true, 0⟩ := by
  cases h
  rfl

theorem job_le_one (c : Process) : c.job ≤ 1 := by cases c <;> simp [Process.job]

theorem Wired.alive_iff (h : Wired mainPid s) :
    Alive mainPid s ↔ ∀ p, p ≠ mainPid → busy s p = true → 0 < outstanding mainPid s p := by
  have hsome : ∀ p, (0 < tasks s p ∨ (s.process p).job = 1 ∨ 0 < completions mainPid s p) ↔
      0 < outstanding mainPid s p := by
    intro p
    have hjob := job_le_one (s.process p)
    unfold outstanding
    omega
  constructor
  · intro halive p _ hbusy
    cases hfind : s.drivers.find? fun d => d.pid = p with
    | none => simp [busy, hfind] at hbusy
    | some d =>
      have hmem := List.mem_of_find?_eq_some hfind
      obtain rfl : d.pid = p := by simpa using List.find?_some hfind
      rw [h.busy_eq hmem] at hbusy
      exact (hsome d.pid).mp (halive d hmem hbusy)
  · intro hall d hd hbusy
    rw [← h.busy_eq hd] at hbusy
    exact (hsome d.pid).mpr (hall d.pid (h.pid_ne_main hd) hbusy)

/-- The runs in which every `msgsnd` succeeds, with a further condition. -/
abbrev DeliveredRun (mainPid : Int) (c : System → Label → Prop) (ls : List Label) (s : System) : Prop :=
  Machine.Run (System.step mainPid) (fun s l => (s.Admissible mainPid l ∧ Delivered l) ∧ c s l)
    System.init ls s

theorem exact_of_run (hrun : DeliveredRun mainPid Timed ls s) (hp : p ≠ mainPid) :
    (account mainPid s p).Exact := by
  have hboth : Wired mainPid s ∧ (account mainPid s p).Exact := by
    apply hrun.invariant fun s => Wired mainPid s ∧ (account mainPid s p).Exact
    · exact ⟨Wired.init mainPid, rfl⟩
    · rintro s l s' ⟨hw, hx⟩ ⟨⟨hok, hsent⟩, htimed⟩ hs
      exact ⟨hw.step hok hs, (turn_of_step hw hok hp hs).exact hsent htimed hx⟩
  exact hboth.2

/-- A driver that drops a task is busy with nothing. -/
theorem stuck_of_drop (hrun : SystemRun mainPid ls s) (hbad : ¬ Timed s l)
    (hs : s.step mainPid l = some s') : ∃ p, p ≠ mainPid ∧ account mainPid s' p = ⟨true, 0⟩ := by
  have hw := wired_of_run hrun
  unfold Timed at hbad
  push Not at hbad
  rcases hbad with ⟨p, msg, rest, rfl, hmail, htime⟩
  rcases receive_cases hs with ⟨hwait, msg', rest', hmail', rfl⟩
  rcases Prod.mk.inj (Option.some.inj (hmail.symm.trans hmail')) with ⟨rfl, rfl⟩
  have hp : p ≠ mainPid := hw.ne_main (by simp [hwait])
  -- the task was the one item of a busy driver
  have hself := outstanding_receive_self hp hwait hmail
  have hbound : outstanding mainPid s p ≤ if busy s p then 1 else 0 := bounded_of_run hrun hp
  have hdrop : ¬ 0 < msg.time := by omega
  rw [if_neg hdrop] at hself ⊢
  rw [if_neg hdrop] at hself
  have hbusy : busy s p = true := by
    by_contra hfree
    rw [if_neg hfree] at hbound
    omega
  rw [if_pos hbusy] at hbound
  refine ⟨p, hp, congrArg₂ Account.mk hbusy ?_⟩
  omega

/-- What a step puts on the queue: a completion, or the task of an accepted command. -/
theorem mem_queue_step (hok : s.Admissible mainPid l) (hs : s.step mainPid l = some s')
    {m : Message} (hm : m ∈ s'.queue) :
    m ∈ s.queue ∨ m.mtype = mainPid ∨ ∃ sent, l = .send m.mtype m.time m.pid sent := by
  cases l with
  | create pid =>
    rcases create_cases hok hs with rfl | ⟨-, -, rfl⟩
    · exact Or.inl hm
    · exact Or.inl hm
  | send pid taskTimer unwritten sent =>
    obtain rfl := Option.some.inj hs
    rcases List.mem_append.mp hm with hm | hm
    · exact Or.inl hm
    · right
      right
      -- only an accepted command puts a task on the queue
      rcases sendTask_cases pid taskTimer unwritten sent s.drivers with hsend | ⟨d, -, -, hsend⟩
      · rw [hsend] at hm
        simp at hm
      · rw [hsend] at hm
        cases sent with
        | false => simp at hm
        | true =>
          obtain rfl : m = ⟨pid, taskTimer, unwritten⟩ := by simpa using hm
          exact ⟨true, rfl⟩
  | receive pid =>
    rcases receive_cases hs with ⟨-, msg, rest, hmail, rfl⟩
    exact Or.inl ((Mailbox.receive_perm Message.mtype hmail).2.symm.subset
      (List.mem_cons_of_mem msg hm))
  | tick pid =>
    rcases tick_cases hs with ⟨taskTimer, msg, -, rfl⟩
    exact Or.inl hm
  | complete pid sent =>
    rcases complete_cases hs with ⟨msg, -, rfl⟩
    rcases List.mem_append.mp hm with hm | hm
    · exact Or.inl hm
    · right
      left
      cases sent with
      | false => simp at hm
      | true =>
        obtain rfl := List.mem_singleton.mp hm
        rfl
  | collect =>
    rcases collect_cases hs with rfl | ⟨msg, rest, hmail, rfl⟩
    · exact Or.inl hm
    · exact Or.inl ((Mailbox.receive_perm Message.mtype hmail).2.symm.subset
        (List.mem_cons_of_mem msg hm))

/-- With positive timers every task has a time. -/
theorem timed_of_asked (hrun : DeliveredRun mainPid (fun _ l => Asked l) ls s) :
    DeliveredRun mainPid Timed ls s ∧ ∀ m ∈ s.queue, m.mtype ≠ mainPid → 0 < m.time := by
  induction hrun with
  | init => exact ⟨.init, by simp [System.init]⟩
  | @step ls s l s' hr hok hs ih =>
    rcases ih with ⟨hrun, htimes⟩
    have hw := wired_of_run (hr.mono fun _ _ hok => hok.1.1)
    have htimed : Timed s l := by
      rintro pid msg rest rfl hmail
      rcases Mailbox.receive_perm Message.mtype hmail with ⟨hkey, hperm⟩
      have hne : pid ≠ mainPid := hw.ne_main (by simp [(receive_cases hs).1])
      exact htimes msg (hperm.symm.subset (by simp)) (by rw [hkey]; exact hne)
    refine ⟨hrun.step ⟨hok.1, htimed⟩ hs, ?_⟩
    intro m hm hne
    rcases mem_queue_step hok.1.1 hs hm with hm | hm | ⟨sent, rfl⟩
    · exact htimes m hm hne
    · exact absurd hm hne
    · exact hok.2 _ _ _ _ rfl

theorem alive_of_timed (hrun : DeliveredRun mainPid Timed ls s) : Alive mainPid s := by
  have hw := wired_of_run (hrun.mono fun _ _ hok => hok.1.1)
  rw [hw.alive_iff]
  intro p hp hbusy
  have hx := exact_of_run hrun hp
  rw [Account.Exact, account, hbusy, if_pos rfl] at hx
  dsimp only at hx
  omega

/-- With every `msgsnd` succeeding, no driver is busy without an item exactly
when no driver has received a task of no time. Positive timers are enough. -/
theorem busy_has_job_iff (mainPid : Int) (ls : List Label) (s : System)
    (hrun : DeliveredRun mainPid (fun _ _ => True) ls s) :
    (Alive mainPid s ↔ DeliveredRun mainPid Timed ls s) ∧
    (DeliveredRun mainPid (fun _ l => Asked l) ls s → Alive mainPid s) := by
  constructor
  · constructor
    · intro halive
      have hplain : Machine.Run (System.step mainPid) (fun s l => s.Admissible mainPid l ∧ Delivered l)
          System.init ls s := hrun.mono fun _ _ hok => hok.1
      have hw := wired_of_run (hplain.mono fun _ _ hok => hok.1)
      have hcases := hplain.all_or_bad Timed
        (fun s => ∃ p, p ≠ mainPid ∧ account mainPid s p = ⟨true, 0⟩)
        (fun s l s' ls hr hok hbad hs => stuck_of_drop (hr.mono fun _ _ hok => hok.1.1) hbad hs)
        (by
          rintro s l s' ls hr ⟨p, hp, hstuck⟩ hok hs
          have hturn := turn_of_step (wired_of_run (hr.mono fun _ _ hok => hok.1)) hok.1 hp hs
          rw [hstuck] at hturn
          exact ⟨p, hp, hturn.stuck⟩)
      rcases hcases with hall | ⟨p, hp, hstuck⟩
      · exact hall
      · -- a driver that is busy with nothing
        rcases Account.mk.inj hstuck with ⟨hbusy, hnone⟩
        have hpos := hw.alive_iff.mp halive p hp hbusy
        omega
    · exact alive_of_timed
  · intro h
    exact alive_of_timed (timed_of_asked h).1

theorem busy_has_job_twoJobs : ∃ s, DeliveredRun 1 (fun _ _ => True) twoJobs s ∧
    DeliveredRun 1 Timed twoJobs s ∧ Alive 1 s ∧ s.drivers = [⟨2, true, 1⟩] := by
  have hrun : (Machine.exec (Machine.guarded (System.step 1)
      fun s l => (s.Admissible 1 l ∧ Delivered l) ∧ True) System.init twoJobs).map
        (fun s => (s.drivers, decide (0 < tasks s 2))) = some ([⟨2, true, 1⟩], true) := by
    decide +kernel
  rcases Machine.Run.exists_of_exec hrun with ⟨s, hrun, hf⟩
  rcases Prod.mk.inj hf with ⟨hdrivers, htasks⟩
  have halive : Alive 1 s := by
    intro d hd _
    rw [hdrivers] at hd
    obtain rfl := List.mem_singleton.mp hd
    exact Or.inl (of_decide_eq_true htasks)
  exact ⟨s, hrun, (busy_has_job_iff 1 twoJobs s hrun).1.mp halive, halive, hdrivers⟩

/-- A task of no time: the driver drops it and is busy with nothing. -/
theorem busy_with_nothing : ∃ s, DeliveredRun 1 (fun _ _ => True)
      [.create 2, .send 2 0 0 true, .receive 2] s ∧
    s.drivers = [⟨2, true, 0⟩] ∧ s.queue = [] ∧ s.process 2 = .waiting ∧ ¬ Alive 1 s := by
  have hrun : (Machine.exec (Machine.guarded (System.step 1)
      fun s l => (s.Admissible 1 l ∧ Delivered l) ∧ True) System.init
        [.create 2, .send 2 0 0 true, .receive 2]).map
        (fun s => (s.drivers, s.queue, s.process 2)) = some ([⟨2, true, 0⟩], [], .waiting) := by
    decide +kernel
  rcases Machine.Run.exists_of_exec hrun with ⟨s, hrun, hf⟩
  rcases Prod.mk.inj hf with ⟨hdrivers, hf⟩
  rcases Prod.mk.inj hf with ⟨hqueue, hprocess⟩
  refine ⟨s, hrun, hdrivers, hqueue, hprocess, ?_⟩
  intro halive
  have hitem := halive ⟨2, true, 0⟩ (by rw [hdrivers]; simp) rfl
  simp [tasks, completions, hqueue, hprocess, Process.job] at hitem

end EmbeddedCourse.Taxi
