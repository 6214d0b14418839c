import EmbeddedCourse.Sockets.Statements

/-! # No wakeup is lost

A worker falls asleep when the queue is empty only, and while it is not empty some
worker is awake or `main` is about to wake one up (`Alert`). So when the server can do
nothing but wait for a client, everything that was accepted has been handled.
It does come to this: each `accept` is good for a bounded number of steps.
-/

namespace EmbeddedCourse.ProducerConsumer

open Sockets Monitor

/-! ## What is known under the mutex -/

/-- What is true of the queue whenever the mutex is free. -/
def Counted (d : Shared) : Prop := 0 ≤ d.queue.count

/-- What a thread in front of a statement knows of the queue while it has the mutex. -/
def Position.known : Position → Shared → Prop
  | .waiting, d => d.queue.count = 0
  | .taking, d | .advancingFront _, d | .countingDown _, d => 0 < d.queue.count
  | _, d => 0 ≤ d.queue.count

/-- The assertions are right: each statement makes the next one's true. -/
theorem annotated : Annotated code Position.holds Counted Position.known := by
  refine ⟨?lock, ?unlock, ?wait, ?signal, ?inside⟩
  case lock | unlock =>
    intro i t m next h d hd
    cases t <;> cases h <;> exact hd
  case wait =>
    intro i t m c again h d hd
    cases t <;> cases h
    exact Int.le_of_eq hd.symm
  case signal =>
    intro i t c next h _ d hd
    cases t <;> cases h
    exact hd
  case inside =>
    intro i t m f h d hd
    cases t with
    | testing client =>
      cases h
      dsimp only
      split_ifs <;> exact hd
    | checking =>
      -- the worker goes to sleep knowing that the queue is empty, or on knowing that it is not
      cases h
      dsimp only
      split_ifs with hempty
      · exact hempty
      · exact lt_of_le_of_ne hd (Ne.symm hempty)
    | countingUp =>
      cases h
      exact Int.le_add_one hd
    | countingDown client =>
      cases h
      exact Int.sub_nonneg_of_le hd
    | storing _ | advancingBack | taking | advancingFront _ =>
      cases h
      exact hd
    | _ => cases h

/-! ## Who is awake -/

/-- Whether a statement is one of `main`. -/
def Position.ofMain : Position → Bool
  | .accepting | .locking _ | .testing _ | .turningAway _ | .refusing _ | .storing _ | .advancingBack
  | .countingUp | .signalling | .unlocking => true
  | .entering | .checking | .waiting | .taking | .advancingFront _ | .countingDown _ | .leaving _
  | .sending _ | .closing _ => false

/-- The rest of a section stays with the thread that is in it. -/
theorem settle_ofMain (p : Position) (data : Unit → Shared) (i : ℕ) :
    ((Place.running p : Place Unit Position).settle Position.holds finish data i).ofMain = p.ofMain := by
  cases p with
  | testing client =>
    simp only [Place.settle, Position.holds, finish]
    split_ifs <;> rfl
  | checking =>
    simp only [Place.settle, Position.holds, finish]
    split_ifs <;> rfl
  | _ => rfl

variable {n : ℕ} {s s' : Server} {ls : List (Monitor.Label Given)} {i : ℕ}

/-- Thread 0 is `main`, and the others are workers. -/
theorem ofMain_of_run (hrun : ServerRun n ls s) {p : Place Unit Position} (hp : s.threads[i]? = some p) :
    (p.settle Position.holds finish s.data i).ofMain = decide (i = 0) := by
  rcases systemRun_of_serverRun hrun with ⟨-, ls', u, -, hu⟩
  have hsettle : (settled Position.holds finish s).threads[i]? = _ := getElem?_settled i
  rw [← hu, hp, Option.map_some] at hsettle
  cases i with
  | zero =>
    rw [thread_zero hsettle]
    cases u.main <;> rfl
  | succ i =>
    rcases thread_succ hsettle with ⟨w, -, hw⟩
    rw [hw]
    cases w <;> rfl

/-- The assertions hold wherever a run has come to. -/
theorem meets_of_run (hrun : ServerRun n ls s) : Meets Position.holds Counted Position.known s := by
  induction hrun with
  | init => exact Meets.init (holds_init n) fun _ => Int.le_refl 0
  | step hr _ hs ih => exact ih.step disciplined annotated (systemRun_of_serverRun hr).1 hs

/-- While there is work, a worker is awake or will be. -/
structure Alert (s : Server) : Prop where
  length : 1 < s.threads.length
  asleep : ∀ (i : ℕ) (c : Unit) (t : Position), s.threads[i]? = some (.asleep c t) → t = .entering
  awake : (s.data ()).queue.count ≠ 0 → s.threads[0]? = some (.running .signalling) ∨
    ∃ i t, s.threads[i + 1]? = some (Place.running t)

/-- At first nobody sleeps, and there is no work. -/
theorem Alert.init (hn : 0 < n) : Alert (Server.init n) where
  length := by simpa [Server.init] using hn
  asleep i c t h := by
    simp only [Server.init, List.getElem?_map, Option.map_eq_some_iff] at h
    rcases h with ⟨u, -, hu⟩
    cases hu
  awake h := absurd rfl h

/-- A thread is awake after its step. -/
theorem Alert.run (h : Alert s) {p : Place Unit Position} {t : Position} (hp : s.threads[i]? = some p)
    (hthreads : s'.threads = s.threads.set i (.running t))
    (hmain : i = 0 → (s'.data ()).queue.count ≠ 0 → t = .signalling ∨
      ((s.data ()).queue.count ≠ 0 ∧ p ≠ .running .signalling)) : Alert s' := by
  have hi : i < s.threads.length := (List.getElem?_eq_some_iff.mp hp).1
  refine ⟨?length, ?asleep, ?awake⟩
  case length =>
    rw [hthreads, List.length_set]
    exact h.length
  case asleep =>
    intro j c u hu
    rw [hthreads] at hu
    exact h.asleep j c u (asleep_of_set hu).2
  case awake =>
    intro hcount
    rw [hthreads]
    cases i with
    | succ i => exact Or.inr ⟨i, t, List.getElem?_set_self hi⟩
    | zero =>
      -- `main` is about to signal, or what was awake before still is
      rcases hmain rfl hcount with rfl | ⟨hbefore, hp'⟩
      · exact Or.inl (List.getElem?_set_self hi)
      · rcases h.awake hbefore with hsignal | ⟨j, u, hu⟩
        · exact absurd (Option.some.inj (hp.symm.trans hsignal)) hp'
        · refine Or.inr ⟨j, u, ?_⟩
          rw [List.getElem?_set_ne (by omega)]
          exact hu

/-- A signal finds a worker asleep, or all of them awake. -/
theorem Alert.signal (h : Alert s) {woken : Option ℕ} (hs : s.step code (.signal i woken) = some s') :
    Alert s' := by
  rcases signal_cases hs with ⟨t, c, next, ht, hcode, hcase⟩
  have hi : i < s.threads.length := (List.getElem?_eq_some_iff.mp ht).1
  have hasleep : ∀ (j : ℕ) (c : Unit) (u : Position),
      (s.setThread i (.running next)).threads[j]? = some (.asleep c u) → u = .entering := by
    intro j c u hu
    exact h.asleep j c u (asleep_of_set hu).2
  have hlength : 1 < (s.setThread i (.running next)).threads.length := by
    rw [State.setThread, List.length_set]
    exact h.length
  rcases hcase with ⟨rfl, hany⟩ | ⟨j, u, hj, rfl⟩
  · refine ⟨hlength, hasleep, fun _ => ?_⟩
    -- nobody is asleep, and there is a worker
    right
    have hget : (s.setThread i (.running next)).threads[1]? = some _ := List.getElem?_eq_getElem hlength
    cases hp : (s.setThread i (.running next)).threads[1] with
    | running t => exact ⟨0, t, by rw [hget, hp]⟩
    | asleep c' t =>
      have hsleeps := List.any_eq_false.mp hany _ (List.mem_of_getElem? hget)
      rw [hp] at hsleeps
      exact absurd rfl hsleeps
  · have hji : j ≠ i := (asleep_of_set hj).1
    have hlt : j < (s.setThread i (.running next)).threads.length := (List.getElem?_eq_some_iff.mp hj).1
    refine ⟨?length, ?asleep, ?awake⟩
    case length =>
      rw [State.setThread, List.length_set]
      exact hlength
    case asleep =>
      intro k c' v hv
      exact hasleep k c' v (asleep_of_set hv).2
    case awake =>
      intro _
      right
      show ∃ k t, ((s.setThread i (.running next)).threads.set j (.running u))[k + 1]? = some (Place.running t)
      cases j with
      | succ j => exact ⟨j, u, List.getElem?_set_self hlt⟩
      | zero =>
        -- then it was a worker that called the signal
        cases i with
        | zero => exact absurd rfl hji
        | succ i =>
          refine ⟨i, next, ?_⟩
          rw [List.getElem?_set_ne (by omega)]
          exact List.getElem?_set_self hi

/-- A worker falls asleep when there is no work. -/
theorem Alert.wait (h : Alert s) {p : Place Unit Position} (hp : s.threads[i]? = some p) {c : Unit}
    (hthreads : s'.threads = s.threads.set i (.asleep c .entering)) (hempty : (s'.data ()).queue.count = 0) :
    Alert s' := by
  have hi : i < s.threads.length := (List.getElem?_eq_some_iff.mp hp).1
  refine ⟨?length, ?asleep, ?awake⟩
  case length =>
    rw [hthreads, List.length_set]
    exact h.length
  case asleep =>
    intro j c' u hu
    rw [hthreads] at hu
    by_cases hj : j = i
    · subst hj
      rw [List.getElem?_set_self hi] at hu
      cases hu
      rfl
    · rw [List.getElem?_set_ne (Ne.symm hj)] at hu
      exact h.asleep j c' u hu
  case awake => exact fun hcount => absurd hempty hcount

/-- A thread goes on, and the queue and the signal of `main` are as before. -/
theorem Alert.keep (h : Alert s) {p : Place Unit Position} {t : Position}
    (hp : s.threads[i]? = some p) (hthreads : s'.threads = s.threads.set i (.running t))
    (hdata : s'.data = s.data) (hsignal : p ≠ .running .signalling) : Alert s' := by
  apply h.run hp hthreads
  intro _ hcount
  rw [hdata] at hcount
  exact Or.inr ⟨hcount, hsignal⟩

/-- What `main` does with the mutex in its hands; a worker stays awake. -/
theorem Alert.inside (h : Alert s)
    (hmain : ∀ p, s.threads[0]? = some p → ∃ t, p = .running t ∧ t.ofMain = true)
    {t : Position} (ht : s.threads[i]? = some (.running t)) {m : Unit}
    {f : Shared → Shared × Position} (hcode : code i t = .inside m f)
    (hexec : s.exec i (code i t) = some s') : Alert s' := by
  rw [hcode] at hexec
  obtain rfl := Option.some.inj hexec
  apply h.run ht rfl
  rintro rfl hcount
  rcases hmain _ ht with ⟨u, hu, hofMain⟩
  cases hu
  cases t with
  | countingUp =>
    -- the queue is not empty from here on, and the signal comes next
    cases hcode
    exact Or.inl rfl
  | testing client =>
    cases hcode
    refine Or.inr ⟨?_, fun heq => by cases heq⟩
    dsimp only at hcount
    rw [data_unit] at hcount
    split_ifs at hcount <;> exact hcount
  | storing client =>
    cases hcode
    dsimp only at hcount
    rw [data_unit] at hcount
    exact Or.inr ⟨hcount, fun heq => by cases heq⟩
  | advancingBack =>
    cases hcode
    dsimp only at hcount
    rw [data_unit] at hcount
    exact Or.inr ⟨hcount, fun heq => by cases heq⟩
  | accepting | locking _ | turningAway _ | refusing _ | signalling | unlocking => cases hcode
  | _ => cases hofMain

/-- A statement of a thread, apart from signals and those outside. -/
theorem Alert.exec (h : Alert s) (hmeets : Meets Position.holds Counted Position.known s)
    (hmain : ∀ p, s.threads[0]? = some p → ∃ t, p = .running t ∧ t.ofMain = true)
    {t : Position} (ht : s.threads[i]? = some (.running t))
    (hexec : s.exec i (code i t) = some s') : Alert s' := by
  cases hcode : code i t with
  | lock m next =>
    rw [hcode] at hexec
    simp only [State.exec] at hexec
    split_ifs at hexec
    obtain rfl := Option.some.inj hexec
    apply h.keep ht rfl
    · rfl
    · rintro heq
      cases heq
      cases hcode
  | unlock m next =>
    rw [hcode] at hexec
    obtain rfl := Option.some.inj hexec
    apply h.keep ht rfl
    · rfl
    · rintro heq
      cases heq
      cases hcode
  | wait m c again =>
    rw [hcode] at hexec
    obtain rfl := Option.some.inj hexec
    cases t <;> cases hcode
    -- a worker falls asleep after it has found the queue empty
    exact h.wait ht rfl (hmeets.taken i .waiting () ht rfl)
  | inside m f => exact h.inside hmain ht hcode hexec
  | signal c next =>
    rw [hcode] at hexec
    cases hexec
  | outside f =>
    rw [hcode] at hexec
    cases hexec

/-- No step leaves work behind that nobody will be awake for. -/
theorem Alert.step (h : Alert s) (hmeets : Meets Position.holds Counted Position.known s)
    (hmain : ∀ p, s.threads[0]? = some p → ∃ t, p = .running t ∧ t.ofMain = true)
    {l : Monitor.Label Given} (hs : s.step code l = some s') : Alert s' := by
  cases l with
  | run i =>
    rcases run_cases hs with ⟨t, ht, hexec⟩
    exact h.exec hmeets hmain ht hexec
  | act i a =>
    rcases act_cases hs with ⟨t, f, r, ht, hcode, hr, rfl⟩
    apply h.keep ht rfl
    · rfl
    · rintro heq
      cases heq
      cases hcode
  | signal i woken => exact h.signal hs
  | spurious i =>
    rcases spurious_cases hs with ⟨c, t, ht, rfl⟩
    apply h.keep ht rfl
    · rfl
    · intro heq
      cases heq

/-- Thread 0 never sleeps: `main` waits for no variable. -/
theorem main_of_run (hrun : ServerRun n ls s) (halert : Alert s) (p : Place Unit Position)
    (hp : s.threads[0]? = some p) : ∃ t, p = .running t ∧ t.ofMain = true := by
  have hmain := ofMain_of_run hrun hp
  cases p with
  | running t => exact ⟨t, rfl, (settle_ofMain t s.data 0).symm.trans hmain⟩
  | asleep c t =>
    obtain rfl := halert.asleep 0 c t hp
    cases hmain

/-- In every run no wakeup is lost. -/
theorem alert_of_run (hn : 0 < n) (hrun : ServerRun n ls s) : Alert s := by
  induction hrun with
  | init => exact Alert.init hn
  | step hr _ hs ih => exact ih.step (meets_of_run hr) (main_of_run hr ih) hs

/-! ## How long it takes -/

/-- How many statements there can be from here to the next sleep, or to the next `accept`
with what it makes a worker do. -/
def Position.weight : Position → ℕ
  | .accepting => 0
  | .locking _ => 21
  | .testing _ => 20
  | .storing _ => 19
  | .advancingBack => 18
  | .countingUp => 17
  | .signalling => 8
  | .turningAway _ => 2
  | .refusing _ | .unlocking => 1
  | .leaving _ => 9
  | .sending _ => 8
  | .closing _ => 7
  | .entering => 6
  | .checking => 5
  | .taking => 4
  | .advancingFront _ => 3
  | .countingDown _ => 2
  | .waiting => 1

/-- A sleeper does nothing until it is woken up. -/
def placeWeight : Place Unit Position → ℕ
  | .running t => t.weight
  | .asleep _ _ => 0

/-- What all threads can still do, and what the connections in the queue make them do. -/
def potential (s : Server) : ℕ :=
  (s.threads.map placeWeight).sum + 8 * (s.data ()).queue.count.toNat

/-- What a step is good for that something from elsewhere takes part in. -/
def allowance : Monitor.Label Given → ℕ
  | .act _ (.accepted _) => 22
  | .spurious _ => 7
  | _ => 0

/-- The potential of a step that moves one thread. -/
theorem potential_set {p p' : Place Unit Position} (hp : s.threads[i]? = some p)
    (hthreads : s'.threads = s.threads.set i p') {k : ℕ}
    (h : placeWeight p' + 8 * (s'.data ()).queue.count.toNat + 1 ≤
      placeWeight p + 8 * (s.data ()).queue.count.toNat + k) : potential s' + 1 ≤ potential s + k := by
  have hsum := Cells.sum_map_set placeWeight hp p'
  rw [potential, potential, hthreads]
  omega

/-- A step that leaves the queue as it is. -/
theorem potential_move {p p' : Place Unit Position} (hp : s.threads[i]? = some p)
    (hthreads : s'.threads = s.threads.set i p') (hdata : s'.data = s.data) {k : ℕ}
    (h : placeWeight p' + 1 ≤ placeWeight p + k) : potential s' + 1 ≤ potential s + k := by
  apply potential_set hp hthreads
  rw [hdata]
  omega

/-- The statements under the mutex, but for those that take or wait for it. -/
theorem potential_inside {t : Position} {f : Shared → Shared × Position} {m : Unit} (hcode : code i t = .inside m f)
    (d : Shared) (hknown : t.known d) : (f d).2.weight + 8 * (f d).1.queue.count.toNat + 1 ≤
      t.weight + 8 * d.queue.count.toNat := by
  cases t with
  | testing client =>
    cases hcode
    dsimp only
    split_ifs <;> simp only [Position.weight, Shared.refuse] <;> omega
  | checking =>
    cases hcode
    dsimp only
    split_ifs <;> simp only [Position.weight] <;> omega
  | countingUp =>
    cases hcode
    -- a connection more in the queue is paid for by `accept`
    have hcount : 0 ≤ d.queue.count := hknown
    simp only [Position.weight, Shared.countUp]
    omega
  | countingDown client =>
    cases hcode
    -- what leaves the queue pays for the answer to it
    have hcount : 0 < d.queue.count := hknown
    simp only [Position.weight, Shared.countDown]
    omega
  | storing client | advancingBack | taking | advancingFront client =>
    cases hcode
    simp only [Position.weight, Shared.store, Shared.advanceBack, Shared.take, Shared.advanceFront]
    omega
  | _ => cases hcode

/-- A statement of a thread, apart from signals and those outside. -/
theorem potential_exec (hmeets : Meets Position.holds Counted Position.known s) {t : Position}
    (ht : s.threads[i]? = some (.running t)) (hexec : s.exec i (code i t) = some s') :
    potential s' + 1 ≤ potential s := by
  cases hcode : code i t with
  | lock m next =>
    rw [hcode] at hexec
    simp only [State.exec] at hexec
    split_ifs at hexec
    obtain rfl := Option.some.inj hexec
    apply potential_move (k := 0) ht rfl
    · rfl
    · cases t <;> cases hcode <;> exact Nat.le_refl _
  | unlock m next =>
    rw [hcode] at hexec
    obtain rfl := Option.some.inj hexec
    apply potential_move (k := 0) ht rfl
    · rfl
    · cases t <;> cases hcode <;> exact Nat.le_refl _
  | wait m c again =>
    rw [hcode] at hexec
    obtain rfl := Option.some.inj hexec
    apply potential_move (k := 0) ht rfl
    · rfl
    · -- a sleeper weighs nothing, and the worker had something left
      cases t <;> cases hcode
      exact Nat.le_refl _
  | inside m f =>
    rw [hcode] at hexec
    obtain rfl := Option.some.inj hexec
    have hholds := (disciplined.inside hcode).1
    apply potential_set (k := 0) ht rfl
    dsimp only
    rw [data_unit]
    exact potential_inside hcode _ (hmeets.taken i t m ht hholds)
  | signal c next =>
    rw [hcode] at hexec
    cases hexec
  | outside f =>
    rw [hcode] at hexec
    cases hexec

/-- A statement outside; a successful `accept` is good for all that its connection will need. -/
theorem potential_act {a : Given} (hs : s.step code (.act i a) = some s') :
    potential s' + 1 ≤ potential s + allowance (.act i a) := by
  rcases act_cases hs with ⟨t, f, r, ht, hcode, hr, rfl⟩
  apply potential_move ht rfl
  · rfl
  · cases t with
    | accepting =>
      cases hcode
      rcases accept_some hr with ⟨fd, rfl, ⟨-, rfl⟩ | ⟨-, -, rfl⟩⟩ <;>
        simp only [placeWeight, Position.weight, allowance] <;> omega
    | refusing client | sending client | closing client =>
      cases hcode
      rcases quietly_some hr with ⟨rfl, rfl⟩
      simp only [placeWeight, Position.weight, allowance]
      omega
    | _ => cases hcode

/-- The signal of `main`, and the worker that it wakes. -/
theorem potential_signal (halert : Alert s) {woken : Option ℕ}
    (hs : s.step code (.signal i woken) = some s') : potential s' + 1 ≤ potential s := by
  rcases signal_cases hs with ⟨t, c, next, ht, hcode, hcase⟩
  obtain ⟨rfl, rfl⟩ : t = .signalling ∧ next = .unlocking := by
    cases t <;> cases hcode
    exact ⟨rfl, rfl⟩
  -- the sleeper that is woken up costs less than the signal is worth
  have hnext : potential (s.setThread i (.running .unlocking)) + 7 ≤ potential s := by
    have hsum := Cells.sum_map_set placeWeight ht (.running .unlocking)
    simp only [placeWeight, Position.weight] at hsum
    simp only [potential, State.setThread]
    omega
  rcases hcase with ⟨rfl, -⟩ | ⟨j, u, hj, rfl⟩
  · omega
  · obtain rfl : u = .entering := halert.asleep j c u (asleep_of_set hj).2
    have hwoken : potential ((s.setThread i (.running .unlocking)).setThread j (.running .entering)) + 1 ≤
        potential (s.setThread i (.running .unlocking)) + 7 := by
      apply potential_move hj rfl
      · rfl
      · exact Nat.le_refl _
    omega

/-- Every step uses the potential up, but for what it is allowed from elsewhere. -/
theorem potential_step (halert : Alert s)
    (hmeets : Meets Position.holds Counted Position.known s) {l : Monitor.Label Given}
    (hs : s.step code l = some s') : potential s' + 1 ≤ potential s + allowance l := by
  cases l with
  | run i =>
    rcases run_cases hs with ⟨t, ht, hexec⟩
    exact potential_exec hmeets ht hexec
  | act i a => exact potential_act hs
  | signal i woken => exact potential_signal halert hs
  | spurious i =>
    rcases spurious_cases hs with ⟨c, t, ht, rfl⟩
    obtain rfl := halert.asleep i c t ht
    apply potential_move ht rfl
    · rfl
    · exact Nat.le_refl _

/-- A run is no longer than what its steps from elsewhere are good for, and the start. -/
theorem potential_of_run (hn : 0 < n) (hrun : ServerRun n ls s) :
    ls.length + potential s ≤ 6 * n + (ls.map allowance).sum := by
  induction hrun with
  | init =>
    have hinit : potential (Server.init n) = 6 * n := by
      simp [potential, Server.init, placeWeight, Position.weight, Queue.init, Nat.mul_comm]
    rw [hinit]
    simp
  | step hr _ hs ih =>
    have hstep := potential_step (alert_of_run hn hr) (meets_of_run hr) hs
    rw [List.length_append, List.length_singleton, List.map_append, List.sum_append, List.map_singleton,
      List.sum_singleton]
    omega

/-! ## The server at rest -/

/-- Something from elsewhere: a client, or a wakeup for no reason. -/
def External : Monitor.Label Given → Prop
  | .act _ (.accepted _) | .spurious _ => True
  | _ => False

/-- The server waits for a client. -/
def Resting (s : Server) : Prop := ∀ l, ¬ External l → s.step code l = none

/-- The threads of a server at rest are where they started or asleep. -/
theorem rest_threads (hrun : ServerRun n ls s) (halert : Alert s) (hrest : Resting s) :
    (∀ p, s.threads[0]? = some p → p = .running .accepting) ∧
      ∀ i p, s.threads[i + 1]? = some p → ∃ c, p = .asleep c .entering := by
  have hexclusive := (systemRun_of_serverRun hrun).1
  have hcases : ∀ {j : ℕ} {p : Place Unit Position}, s.threads[j]? = some p →
      (∃ c, p = .asleep c .entering) ∨ p = .running .accepting := by
    intro j p hp
    rcases rest_cases disciplined hexclusive (fun k => hrest (.run k) id)
        (fun k w => hrest (.signal k w) id) hp with ⟨c, t, rfl⟩ | ⟨t, f, rfl, hcode⟩
    · obtain rfl := halert.asleep j c t hp
      exact Or.inl ⟨c, rfl⟩
    · -- outside of the mutex only `accept` waits for somebody else
      have hnone := hrest (.act j .nothing) id
      simp only [State.step, hp, hcode] at hnone
      right
      cases t with
      | accepting => rfl
      | refusing client | sending client | closing client =>
        cases hcode
        cases hnone
      | _ => cases hcode
  constructor
  · intro p hp
    rcases hcases hp with ⟨c, rfl⟩ | rfl
    · -- `main` never sleeps
      rcases main_of_run hrun halert _ hp with ⟨t, ht, -⟩
      cases ht
    · rfl
  · intro i p hp
    rcases hcases hp with hsleep | rfl
    · exact hsleep
    · have hmain := ofMain_of_run hrun hp
      cases hmain

/-- A server at rest is one between two sections, with nothing to do. -/
theorem rest_settled {u : System} (hrun : ServerRun n ls s) (halert : Alert s) (hrest : Resting s)
    (hu : u.toSettled = settled Position.holds finish s) :
    u.toSettled.data () = s.data () ∧ u.main = .accepting ∧ ∀ w ∈ u.workers, w = .waiting := by
  rcases rest_threads hrun halert hrest with ⟨hmain, hworkers⟩
  -- whoever had the mutex could go on
  have hfree : s.owner () = none := by
    cases hown : s.owner () with
    | none => rfl
    | some i =>
      rcases ((systemRun_of_serverRun hrun).1.owner () i).mp hown with ⟨p, hp, hholds⟩
      cases i with
      | zero =>
        rw [hmain p hp] at hholds
        cases hholds
      | succ i =>
        rcases hworkers i p hp with ⟨c, rfl⟩
        cases hholds
  have hthread : ∀ i, u.toSettled.threads[i]? =
      s.threads[i]?.map fun p => Place.settle Position.holds finish s.data i p := by
    intro i
    rw [hu, getElem?_settled]
  refine ⟨?_, ?_, ?_⟩
  · rw [hu]
    exact settleData_of_free hfree
  · have hget : s.threads[0]? = some _ := List.getElem?_eq_getElem (by have := halert.length; omega)
    have hzero := hthread 0
    rw [hget, hmain _ hget] at hzero
    have hposition : u.main.position = .accepting := Option.some.inj hzero
    cases hcase : u.main with
    | accepting => rfl
    | enqueuing client =>
      rw [hcase] at hposition
      cases hposition
    | refusing client =>
      rw [hcase] at hposition
      cases hposition
  · intro w hw
    rcases List.mem_iff_getElem?.mp hw with ⟨i, hi⟩
    have hsucc := hthread (i + 1)
    rw [System.toSettled, List.getElem?_cons_succ, List.getElem?_map, hi] at hsucc
    rcases Option.map_eq_some_iff.mp hsucc.symm with ⟨p, hp, hposition⟩
    rcases hworkers i p hp with ⟨c, rfl⟩
    cases w with
    | waiting => rfl
    | sending client => cases hposition
    | closing client => cases hposition

/-- For any number of workers, statement by statement and with every interleaving, spurious
wakeups included: a run has the effect of a run of whole sections; each call of `accept` is good
for a bounded number of steps; and when the server can do nothing but wait for a client,
every connection that was accepted has been closed, exactly once, and the queue was
emptied in the order in which it was filled. -/
theorem server_rests (n : ℕ) (hn : 0 < n) (ls : List (Monitor.Label Given)) (s : Server)
    (hrun : ServerRun n ls s) :
    (∃ ls' u, SystemRun n ls' u ∧ u.toSettled = settled Position.holds finish s) ∧
      ls.length ≤ 6 * n + (ls.map allowance).sum ∧
      (Resting s → s.env.accepted.Nodup ∧ s.env.accepted.Perm (s.env.closed.map Prod.snd) ∧
        (s.data ()).enqueued = (s.data ()).dequeued.map Prod.snd) := by
  have halert := alert_of_run hn hrun
  rcases (systemRun_of_serverRun hrun).2 with ⟨ls', u, hu, hsettled⟩
  refine ⟨⟨ls', u, hu, hsettled⟩, ?_, ?_⟩
  · have hpotential := potential_of_run hn hrun
    omega
  · intro hrest
    rcases rest_threads hrun halert hrest with ⟨hmain, hworkers⟩
    rcases rest_settled hrun halert hrest hsettled with ⟨hdata, hidle, hwaiting⟩
    have hord := ordered_of_run hu
    have henv : u.kernel = s.env := congrArg Settled.env hsettled
    -- with work left, somebody would be awake
    have hempty : u.queue.count = 0 := by
      have hcount : (u.toSettled.data ()).queue.count = 0 := by
        rw [hdata]
        by_contra hne
        rcases halert.awake hne with hsignal | ⟨i, t, ht⟩
        · cases hmain _ hsignal
        · rcases hworkers i _ ht with ⟨c, hc⟩
          cases hc
      exact hcount
    have hcontents : u.queue.contents = [] := by
      rw [Queue.contents, hempty]
      rfl
    have hheld : u.workers.flatMap Worker.held = [] := by
      rw [List.flatMap_eq_nil_iff]
      intro w hw
      rw [hwaiting w hw]
      rfl
    -- an open connection would be with `main`, in the queue or with a worker
    have hopened : u.kernel.opened = [] := by
      have hperm := hord.held
      rw [hidle, hcontents, hheld] at hperm
      exact hperm.eq_nil
    have hparts := hord.kernel.parts
    rw [hopened, List.nil_append, henv] at hparts
    have hfifo := hord.fifo
    rw [hcontents, List.append_nil] at hfifo
    refine ⟨henv ▸ hord.kernel.nodup, hparts, ?_⟩
    rw [← hdata]
    exact hfifo

/-- The worker falls asleep before the client comes. -/
def lateClient : List (Monitor.Label Given) :=
  [.run 1, .run 1, .run 1, .act 0 (.accepted 4), .run 0, .run 0, .run 0, .run 0, .run 0, .signal 0 (some 1),
    .run 0, .run 1, .run 1, .run 1, .run 1, .run 1, .run 1, .act 1 .nothing, .act 1 .nothing, .run 1, .run 1,
    .run 1]

/-- `main` wakes the worker up, and the client is served. -/
theorem server_rests_lateClient : ∃ s, ServerRun 1 lateClient s ∧ Resting s ∧
    s.env.accepted = [⟨4, 0⟩] ∧ s.env.accepted.Perm (s.env.closed.map Prod.snd) := by
  have hrun : (Machine.exec (Machine.guarded (State.step code) fun _ _ => True) (Server.init 1) lateClient).map
      (fun s => (s.threads, s.env.accepted)) =
        some ([.running .accepting, .asleep () .entering], [⟨4, 0⟩]) := by
    decide +kernel
  rcases Machine.Run.exists_of_exec hrun with ⟨s, hrun, hend⟩
  rcases Prod.mk.inj hend with ⟨hthreads, haccepted⟩
  have hrest : Resting s := by
    intro l hl
    -- only `main` is awake, in front of `accept`
    have hplace : ∀ i t, s.threads[i]? = some (Place.running t) → i = 0 ∧ t = .accepting := by
      intro i t ht
      rw [hthreads] at ht
      match i with
      | 0 => exact ⟨rfl, by cases ht; rfl⟩
      | 1 => cases ht
      | i + 2 => cases ht
    cases hs : s.step code l with
    | none => rfl
    | some s' =>
      cases l with
      | run i =>
        rcases run_cases hs with ⟨t, ht, hexec⟩
        rcases hplace i t ht with ⟨rfl, rfl⟩
        cases hexec
      | act i a =>
        rcases act_cases hs with ⟨t, f, r, ht, hcode, hr, -⟩
        rcases hplace i t ht with ⟨rfl, rfl⟩
        cases hcode
        rcases accept_some hr with ⟨fd, rfl, -⟩
        exact absurd trivial hl
      | signal i woken =>
        rcases signal_cases hs with ⟨t, c, next, ht, hcode, -⟩
        rcases hplace i t ht with ⟨rfl, rfl⟩
        cases hcode
      | spurious i => exact absurd trivial hl
  exact ⟨s, hrun, hrest, haccepted, ((server_rests 1 Nat.one_pos lateClient s hrun).2.2 hrest).2.1⟩

end EmbeddedCourse.ProducerConsumer
