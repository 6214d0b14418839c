import EmbeddedCourse.Taxi.System

/-! # The account of a driver

Of all that the system keeps, what matters for the jobs of one driver is whether
the table calls it busy and how many items are on their way: tasks in the queue,
the job of its process, completions in the queue. `Turn` says what a step may do
to the two; `turn_of_step` that the system does nothing else.
-/

namespace EmbeddedCourse.Taxi

/-- Whether the process has a job. -/
def Process.job : Process → ℕ
  | .counting _ _ | .finishing _ => 1
  | .notStarted | .waiting => 0

/-- The task messages for `p` in the queue. -/
def tasks (s : System) (p : Int) : ℕ := s.queue.countP fun m => m.mtype = p

/-- The completion messages from `p` in the queue. -/
def completions (mainPid : Int) (s : System) (p : Int) : ℕ :=
  s.queue.countP fun m => m.mtype = mainPid ∧ m.pid = p

/-- The outstanding items of `p`. -/
def outstanding (mainPid : Int) (s : System) (p : Int) : ℕ :=
  tasks s p + (s.process p).job + completions mainPid s p

/-- What the table says of `p`. -/
def busy (s : System) (p : Int) : Bool := (s.drivers.find? fun d => d.pid = p).any Driver.isBusy

structure Account where
  busy : Bool
  items : ℕ

def account (mainPid : Int) (s : System) (p : Int) : Account := ⟨busy s p, outstanding mainPid s p⟩

/-- What a step does to the account of `p`. -/
inductive Turn (s : System) (l : Label) (p : Int) : Account → Account → Prop where
  | keep (a : Account) : Turn s l p a a
  /-- A task is accepted, and put on the queue if `msgsnd` succeeds. -/
  | send {taskTimer unwritten : Int} (sent : Bool) (n : ℕ) :
      l = .send p taskTimer unwritten sent →
      Turn s l p ⟨false, n⟩ ⟨true, n + if sent then 1 else 0⟩
  /-- The driver drops a task of no time. -/
  | drop {msg : Message} {rest : List Message} (b : Bool) (n : ℕ) : l = .receive p →
      Mailbox.receive Message.mtype p s.queue = some (msg, rest) → msg.time ≤ 0 →
      Turn s l p ⟨b, n + 1⟩ ⟨b, n⟩
  /-- The `msgsnd` of a completion fails. -/
  | lose (b : Bool) (n : ℕ) : l = .complete p false → Turn s l p ⟨b, n + 1⟩ ⟨b, n⟩
  /-- `main` takes a completion. -/
  | collect (b : Bool) (n : ℕ) : l = .collect → Turn s l p ⟨b, n + 1⟩ ⟨false, n⟩

/-- The pids are distinct and not that of `main`, and the processes are those of
the table. -/
structure Wired (mainPid : Int) (s : System) : Prop where
  nodup : (s.drivers.map Driver.pid).Nodup
  main : mainPid ∉ s.drivers.map Driver.pid
  started : ∀ p, s.process p = .notStarted ↔ p ∉ s.drivers.map Driver.pid

variable {mainPid p : Int} {s s' : System} {l : Label}

theorem Turn.of_eq {a a' b b' : Account} (ha : a = a') (hb : b = b') (h : Turn s l p a' b') :
    Turn s l p a b := by
  rw [ha, hb]
  exact h

theorem Wired.init (mainPid : Int) : Wired mainPid System.init where
  nodup := List.nodup_nil
  main := by simp [System.init]
  started := by simp [System.init]

theorem Wired.ne_main (h : Wired mainPid s) {pid : Int} (hp : s.process pid ≠ .notStarted) :
    pid ≠ mainPid := by
  rintro rfl
  exact hp ((h.started pid).mpr h.main)

theorem Wired.setProcess (h : Wired mainPid s) {pid : Int} (hp : s.process pid ≠ .notStarted)
    {c : Process} (hc : c ≠ .notStarted) (queue : List Message) :
    Wired mainPid { s.setProcess pid c with queue := queue } where
  nodup := h.nodup
  main := h.main
  started := by
    intro q
    by_cases hq : q = pid
    · subst hq
      have hmem := fun hout => hp ((h.started q).mpr hout)
      simp [System.setProcess, hc, not_not.mp hmem]
    · simp [System.setProcess, hq, h.started q]

theorem Wired.change (h : Wired mainPid s) {f : Driver → Driver} (hf : ∀ d, (f d).pid = d.pid)
    (pid : Int) (queue : List Message) :
    Wired mainPid { s with drivers := Taxi.change pid f s.drivers, queue := queue } where
  nodup := by
    rw [map_pid_change hf]
    exact h.nodup
  main := by
    rw [map_pid_change hf]
    exact h.main
  started := by
    intro q
    rw [map_pid_change hf]
    exact h.started q

theorem Wired.create (h : Wired mainPid s) {pid : Int} (hfresh : s.process pid = .notStarted)
    (hne : pid ≠ mainPid) (d : Driver) (hd : d.pid = pid) :
    Wired mainPid { s.setProcess pid .waiting with drivers := s.drivers ++ [d] } where
  nodup := by
    rw [List.map_append, List.map_singleton, hd, List.nodup_append]
    refine ⟨h.nodup, by simp, ?_⟩
    rintro a ha b hb rfl
    obtain rfl := List.mem_singleton.mp hb
    exact (h.started a).mp hfresh ha
  main := by
    rw [List.map_append, List.mem_append]
    rintro (hmem | hmem)
    · exact h.main hmem
    · obtain rfl := List.mem_singleton.mp hmem
      exact hne hd.symm
  started := by
    intro q
    by_cases hq : q = pid
    · subst hq
      simp [System.setProcess, hd]
    · have hdq : ¬ q = d.pid := fun he => hq (he.trans hd)
      simp [System.setProcess, hq, h.started q, hdq]

/-- Processes and table stay together. -/
theorem Wired.step (h : Wired mainPid s) (hok : s.Admissible mainPid l)
    (hs : s.step mainPid l = some s') : Wired mainPid s' := by
  cases l with
  | create pid =>
    rcases create_cases hok hs with rfl | ⟨hfresh, hmain, rfl⟩
    · exact h
    · exact h.create hfresh hmain _ rfl
  | send pid taskTimer unwritten sent =>
    obtain rfl := Option.some.inj hs
    -- the command changes at most one entry of the table, not its pid
    rcases sendTask_cases pid taskTimer unwritten sent s.drivers with hsend | ⟨d, -, -, hsend⟩
    · rw [hsend]
      exact ⟨h.nodup, h.main, h.started⟩
    · rw [hsend]
      exact h.change (f := fun d => { d with isBusy := true, taskTimer := taskTimer })
        (fun _ => rfl) pid _
  | receive pid =>
    rcases receive_cases hs with ⟨hwait, msg, rest, -, rfl⟩
    refine h.setProcess (by simp [hwait]) ?_ rest
    split_ifs <;> simp
  | tick pid =>
    rcases tick_cases hs with ⟨taskTimer, msg, hcount, rfl⟩
    refine h.setProcess (by simp [hcount]) ?_ s.queue
    split_ifs <;> simp
  | complete pid sent =>
    rcases complete_cases hs with ⟨msg, hfinish, rfl⟩
    exact h.setProcess (by simp [hfinish]) (by simp) _
  | collect =>
    rcases collect_cases hs with rfl | ⟨msg, rest, -, rfl⟩
    · exact h
    · exact h.change (f := fun d => { d with isBusy := false, taskTimer := 0 }) (fun _ => rfl) _ _

/-! ## What each step does to the account -/

/-- A message more in the queue. -/
theorem outstanding_post (hp : p ≠ mainPid) (m : Message) :
    outstanding mainPid { s with queue := s.queue ++ [m] } p = outstanding mainPid s p +
      if m.mtype = p ∨ m.mtype = mainPid ∧ m.pid = p then 1 else 0 := by
  simp only [outstanding, tasks, completions, List.countP_append, List.countP_singleton,
    decide_eq_true_eq]
  by_cases hm : m.mtype = p
  · have hne : ¬ m.mtype = mainPid := fun he => hp (hm.symm.trans he)
    simp [hm, hp]
    omega
  · simp only [hm, if_false, false_or]
    omega

/-- A message less. -/
theorem outstanding_receive (hp : p ≠ mainPid) {k : Int} {m : Message} {rest : List Message}
    (hr : Mailbox.receive Message.mtype k s.queue = some (m, rest)) :
    outstanding mainPid s p = outstanding mainPid { s with queue := rest } p +
      if m.mtype = p ∨ m.mtype = mainPid ∧ m.pid = p then 1 else 0 := by
  simp only [outstanding, tasks, completions, Mailbox.countP_receive Message.mtype hr,
    decide_eq_true_eq]
  by_cases hm : m.mtype = p
  · simp [hm, hp]
    omega
  · simp only [hm, if_false, false_or]
    omega

/-- A process goes on. -/
theorem outstanding_setProcess_self (mainPid : Int) (s : System) (pid : Int) (c : Process) :
    outstanding mainPid (s.setProcess pid c) pid + (s.process pid).job =
      outstanding mainPid s pid + c.job := by
  simp only [outstanding, tasks, completions, System.setProcess, Function.update_self]
  omega

theorem outstanding_setProcess_of_ne (mainPid : Int) (s : System) {pid : Int} (hne : p ≠ pid)
    (c : Process) :
    outstanding mainPid (s.setProcess pid c) p = outstanding mainPid s p := by
  simp only [outstanding, tasks, completions, System.setProcess, Function.update_of_ne hne]

theorem busy_change {f : Driver → Driver} (hf : ∀ d, (f d).pid = d.pid) (pid : Int)
    (queue : List Message) :
    busy { s with drivers := change pid f s.drivers, queue := queue } p =
      if p = pid then ((s.drivers.find? fun d => d.pid = p).map f).any Driver.isBusy
      else busy s p := by
  simp only [busy, find_change hf]
  split_ifs <;> rfl

theorem turn_of_create {pid : Int} (hok : s.Admissible mainPid (.create pid))
    (hs : s.step mainPid (.create pid) = some s') : account mainPid s' p = account mainPid s p := by
  rcases create_cases hok hs with rfl | ⟨hfresh, -, rfl⟩
  · rfl
  · have hbusy : (([⟨pid, false, 0⟩] : List Driver).find? fun d => d.pid = p).any Driver.isBusy =
        false := by
      by_cases hpid : pid = p <;> simp [hpid]
    have hout : outstanding mainPid (s.setProcess pid .waiting) p = outstanding mainPid s p := by
      by_cases hpid : p = pid
      · subst hpid
        have hself := outstanding_setProcess_self mainPid s p .waiting
        rw [hfresh] at hself
        exact hself
      · exact outstanding_setProcess_of_ne _ _ hpid _
    refine congrArg₂ Account.mk ?_ hout
    -- nobody is found under the pid but the new driver
    show ((s.drivers ++ [(⟨pid, false, 0⟩ : Driver)]).find? fun d => d.pid = p).any
      Driver.isBusy = busy s p
    rw [List.find?_append, busy]
    cases hfind : s.drivers.find? fun d => d.pid = p with
    | none => simpa using hbusy
    | some d => rfl

/-- What a command does to the account of a driver. -/
theorem turn_of_send (h : Wired mainPid s) (hp : p ≠ mainPid) {pid taskTimer unwritten : Int}
    {sent : Bool} (hs : s.step mainPid (.send pid taskTimer unwritten sent) = some s') :
    Turn s (.send pid taskTimer unwritten sent) p (account mainPid s p) (account mainPid s' p) := by
  obtain rfl := Option.some.inj hs
  rcases sendTask_cases pid taskTimer unwritten sent s.drivers with hsend | ⟨d, hfind, hfree, hsend⟩
  · -- no such driver, or it is busy: nothing is changed or sent
    rw [hsend]
    simp only [Option.toList_none, List.append_nil]
    exact .keep _
  · rw [hsend]
    dsimp only
    have hpid : d.pid = pid := by simpa using List.find?_some hfind
    -- the task is for a driver, not for `main`
    have hmain : pid ≠ mainPid := by
      rintro rfl
      exact h.main (List.mem_map.mpr ⟨d, List.mem_of_find?_eq_some hfind, hpid⟩)
    have hbusy := busy_change (s := s) (p := p)
      (f := fun d => { d with isBusy := true, taskTimer := taskTimer }) (fun _ => rfl) pid
      (s.queue ++ (if sent then some ⟨pid, taskTimer, unwritten⟩ else none).toList)
    have hout : outstanding mainPid { s with queue := s.queue ++
        (if sent then some (⟨pid, taskTimer, unwritten⟩ : Message) else none).toList } p =
          outstanding mainPid s p + if p = pid ∧ sent then 1 else 0 := by
      cases sent with
      | false => simp
      | true =>
        have hpost := outstanding_post (s := s) hp ⟨pid, taskTimer, unwritten⟩
        simpa [hmain, eq_comm] using hpost
    by_cases hpp : p = pid
    · -- the driver was free, is busy now, and has the task if it could be sent
      subst hpp
      rw [if_pos rfl, hfind] at hbusy
      have hold : account mainPid s p = ⟨false, outstanding mainPid s p⟩ := by
        rw [account, busy, hfind]
        exact congrArg (Account.mk · _) hfree
      have hnew := congrArg₂ Account.mk hbusy hout
      rw [hold]
      refine Turn.of_eq rfl hnew ?_
      simpa using Turn.send sent (outstanding mainPid s p) rfl
    · rw [if_neg hpp] at hbusy
      have hnew := congrArg₂ Account.mk hbusy hout
      refine Turn.of_eq rfl hnew ?_
      simp only [hpp, false_and, if_false, Nat.add_zero]
      exact .keep (account mainPid s p)

/-- A task with a time becomes the job, and one without is gone. -/
theorem outstanding_receive_self (hp : p ≠ mainPid) (hwait : s.process p = .waiting) {msg : Message}
    {rest : List Message} (hmail : Mailbox.receive Message.mtype p s.queue = some (msg, rest)) :
    outstanding mainPid s p = outstanding mainPid
      { s.setProcess p (if 0 < msg.time then .counting msg.time msg else .waiting) with
        queue := rest } p + if 0 < msg.time then 0 else 1 := by
  have hqueue := outstanding_receive hp hmail
  rw [if_pos (Or.inl (Mailbox.receive_perm Message.mtype hmail).1)] at hqueue
  have hself := outstanding_setProcess_self mainPid { s with queue := rest } p
    (if 0 < msg.time then .counting msg.time msg else .waiting)
  dsimp only at hself
  rw [hwait] at hself
  rw [hqueue]
  by_cases htime : 0 < msg.time
  · rw [if_pos htime] at hself ⊢
    rw [if_pos htime]
    exact hself.symm
  · rw [if_neg htime] at hself ⊢
    rw [if_neg htime]
    exact congrArg (· + 1) hself.symm

/-- What the receive of a driver does to the account of another one, and to its own. -/
theorem turn_of_receive (h : Wired mainPid s) (hp : p ≠ mainPid) {pid : Int}
    (hs : s.step mainPid (.receive pid) = some s') :
    Turn s (.receive pid) p (account mainPid s p) (account mainPid s' p) := by
  rcases receive_cases hs with ⟨hwait, msg, rest, hmail, rfl⟩
  by_cases hpp : p = pid
  · subst hpp
    have hself := outstanding_receive_self hp hwait hmail
    generalize (if 0 < msg.time then Process.counting msg.time msg else .waiting) = c at hself ⊢
    refine Turn.of_eq (congrArg (Account.mk (busy s p)) hself) rfl ?_
    -- a task of no time is received and answered by nothing
    by_cases htime : 0 < msg.time
    · rw [if_pos htime]
      exact .keep _
    · rw [if_neg htime]
      exact .drop (busy s p) _ rfl hmail (Int.not_lt.mp htime)
  · have hkey := (Mailbox.receive_perm Message.mtype hmail).1
    -- the message was for another driver, and is no completion
    have hother : ¬ (msg.mtype = p ∨ msg.mtype = mainPid ∧ msg.pid = p) := by
      rw [hkey]
      rintro (he | ⟨he, -⟩)
      · exact hpp he.symm
      · exact h.ne_main (by simp [hwait]) he
    have hqueue := outstanding_receive hp hmail
    rw [if_neg hother, Nat.add_zero] at hqueue
    have hsame := outstanding_setProcess_of_ne mainPid { s with queue := rest } hpp
      (if 0 < msg.time then .counting msg.time msg else .waiting)
    refine Turn.of_eq rfl (congrArg (Account.mk (busy s p)) (hsame.trans hqueue.symm)) ?_
    exact .keep _

theorem turn_of_tick {pid : Int} (hs : s.step mainPid (.tick pid) = some s') :
    account mainPid s' p = account mainPid s p := by
  rcases tick_cases hs with ⟨taskTimer, msg, hcount, rfl⟩
  refine congrArg (Account.mk (busy s p)) ?_
  by_cases hpp : p = pid
  · subst hpp
    have hself := outstanding_setProcess_self mainPid s p
      (if taskTimer - 1 ≤ 0 then .finishing msg else .counting (taskTimer - 1) msg)
    have hjob : (if taskTimer - 1 ≤ 0 then Process.finishing msg
        else .counting (taskTimer - 1) msg).job = 1 := by
      split_ifs <;> rfl
    rw [hcount, hjob, Process.job] at hself
    omega
  · exact outstanding_setProcess_of_ne _ _ hpp _

theorem turn_of_complete (hp : p ≠ mainPid) {pid : Int} {sent : Bool}
    (hs : s.step mainPid (.complete pid sent) = some s') :
    Turn s (.complete pid sent) p (account mainPid s p) (account mainPid s' p) := by
  rcases complete_cases hs with ⟨msg, hfinish, rfl⟩
  have hjob : outstanding mainPid s p =
      outstanding mainPid (s.setProcess pid .waiting) p + if p = pid then 1 else 0 := by
    by_cases hpp : p = pid
    · subst hpp
      have hself := outstanding_setProcess_self mainPid s p .waiting
      rw [hfinish] at hself
      rw [if_pos rfl]
      exact hself.symm
    · rw [if_neg hpp, outstanding_setProcess_of_ne _ _ hpp, Nat.add_zero]
  cases sent with
  | false =>
    have hqueue : { s.setProcess pid .waiting with
        queue := s.queue ++ if false then [{ msg with mtype := mainPid, pid := pid }] else [] } =
          s.setProcess pid .waiting := by
      simp [System.setProcess]
    rw [hqueue]
    refine Turn.of_eq (congrArg (Account.mk (busy s p)) hjob) rfl ?_
    by_cases hpp : p = pid
    · rw [if_pos hpp]
      exact .lose (busy s p) _ (congrArg (Label.complete · false) hpp.symm)
    · rw [if_neg hpp, Nat.add_zero]
      exact .keep _
  | true =>
    -- the job becomes the completion
    have hpost := outstanding_post (s := s.setProcess pid .waiting) hp
      { msg with mtype := mainPid, pid := pid }
    have hcond : (mainPid = p ∨ mainPid = mainPid ∧ pid = p) ↔ p = pid := by
      simp [Ne.symm hp, eq_comm]
    rw [if_congr hcond rfl rfl, ← hjob] at hpost
    refine Turn.of_eq rfl (congrArg (Account.mk (busy s p)) hpost) ?_
    exact .keep _

/-- What the receive of `main` does to the account of a driver. -/
theorem turn_of_collect (hp : p ≠ mainPid) (hs : s.step mainPid .collect = some s') :
    Turn s .collect p (account mainPid s p) (account mainPid s' p) := by
  rcases collect_cases hs with rfl | ⟨msg, rest, hmail, rfl⟩
  · exact .keep _
  · have hkey := (Mailbox.receive_perm Message.mtype hmail).1
    have hqueue := outstanding_receive hp hmail
    have hbusy := busy_change (s := s) (p := p) (f := fun d => { d with isBusy := false, taskTimer := 0 })
      (fun _ => rfl) msg.pid rest
    by_cases hpp : p = msg.pid
    · rw [if_pos (Or.inr ⟨hkey, hpp.symm⟩)] at hqueue
      -- the entry of the driver is free behind the completion
      have hfree : ∀ o : Option Driver,
          (o.map fun d => { d with isBusy := false, taskTimer := 0 }).any Driver.isBusy = false := by
        intro o
        cases o <;> rfl
      rw [if_pos hpp, hfree] at hbusy
      refine Turn.of_eq (congrArg (Account.mk (busy s p)) hqueue) rfl ?_
      refine Turn.of_eq rfl (congrArg (Account.mk · _) hbusy) ?_
      exact .collect (busy s p) _ rfl
    · -- the completion is that of another driver
      have hother : ¬ (msg.mtype = p ∨ msg.mtype = mainPid ∧ msg.pid = p) := by
        rw [hkey]
        rintro (he | ⟨-, he⟩)
        · exact hp he.symm
        · exact hpp he.symm
      rw [if_neg hother, Nat.add_zero] at hqueue
      rw [if_neg hpp] at hbusy
      refine Turn.of_eq rfl (congrArg₂ Account.mk hbusy hqueue.symm) ?_
      exact .keep _

/-- A step of the system is a turn of every driver's account. -/
theorem turn_of_step (h : Wired mainPid s) (hok : s.Admissible mainPid l) (hp : p ≠ mainPid)
    (hs : s.step mainPid l = some s') : Turn s l p (account mainPid s p) (account mainPid s' p) := by
  cases l with
  | create pid =>
    rw [turn_of_create hok hs]
    exact .keep _
  | send pid taskTimer unwritten sent => exact turn_of_send h hp hs
  | receive pid => exact turn_of_receive h hp hs
  | tick pid =>
    rw [turn_of_tick hs]
    exact .keep _
  | complete pid sent => exact turn_of_complete hp hs
  | collect => exact turn_of_collect hp hs

end EmbeddedCourse.Taxi
