import Mathlib.Algebra.BigOperators.Group.List.Basic
import EmbeddedCourse.Sockets.PoolStatements

/-! # The wakeups of the pool

A thread falls asleep when `count` is zero only, and the thread that `main` signals to
sleeps on the variable that is signalled, so no wakeup is lost (`Alert`). When the
server can do nothing but wait for a client, there were as many services as
connections handed over. That it comes to rest is not certain: two threads that have
read the same connection both count it down, and below zero nobody waits.
-/

namespace EmbeddedCourse.PullThreads

open Sockets Monitor

/-! ## Who is awake -/

/-- Whether a statement is one of `main`. -/
def Position.ofMain : Position → Bool
  | .accepting | .locking _ | .searching _ _ | .turningAway _ | .refusing _ | .countingUp _ _ | .storing _ _
  | .unlocking _ | .signalling _ => true
  | .entering | .checking | .waiting | .reading | .leaving _ | .sending _ | .closing _ | .finishing
  | .countingDown | .freeing | .done => false

/-- The thread that `main` has found and not yet signalled to. -/
def Position.found : Position → Option ℕ
  | .countingUp _ idx | .storing _ idx | .unlocking idx | .signalling idx => some idx
  | _ => none

/-- What a thread in front of a statement knows while it has the mutex. -/
def Position.known : Position → Shared → Prop
  | .waiting, d => d.count = 0
  | _, _ => True

/-- A thread waits when it has read that `count` is zero. -/
theorem annotated : Annotated code Position.holds (fun _ => True) Position.known := by
  constructor
  · intro i t m next h d _
    cases t <;> cases h <;> exact trivial
  · intros
    trivial
  · intros
    trivial
  · intro i t c next h _ d _
    cases t <;> cases h
    exact trivial
  · intro i t m f h d _
    cases t with
    | searching client left =>
      cases h
      cases left with
      | zero => exact trivial
      | succ left =>
        simp only [look]
        split_ifs <;> exact trivial
    | checking =>
      cases h
      dsimp only
      -- `count` has been read under the mutex, and the thread still has it
      split_ifs with hzero
      · exact hzero
      · exact trivial
    | countingUp _ _ | storing _ _ | reading | countingDown | freeing =>
      cases h
      exact trivial
    | _ => cases h

/-- The search is all `main`'s. -/
theorem search_ofMain (client : Connection) (left : ℕ) (d : Shared) : (search client left d).2.ofMain = true := by
  induction left with
  | zero => rfl
  | succ left ih =>
    rw [search]
    split_ifs
    · rfl
    · exact ih

/-- The rest of a section stays with the thread that is in it. -/
theorem settle_ofMain (p : Position) (data : Unit → Shared) (i : ℕ) :
    ((Place.running p : Place ℕ Position).settle Position.holds finish data i).ofMain = p.ofMain := by
  cases p with
  | searching client left => exact search_ofMain client left (data ())
  | checking =>
    simp only [Place.settle, Position.holds, finish]
    split_ifs <;> rfl
  | _ => rfl

variable {s s' : Server} {ls : List (Monitor.Label Given)} {i : ℕ}

/-- Thread 0 is `main`, and the others are those of the pool. -/
theorem ofMain_of_run (hrun : ServerRun ls s) {p : Place ℕ Position} (hp : s.threads[i]? = some p) :
    (p.settle Position.holds finish s.data i).ofMain = decide (i = 0) := by
  rcases systemRun_of_serverRun hrun with ⟨-, ls', u, -, hu⟩
  have hsettle : (settled Position.holds finish s).threads[i]? = _ := getElem?_settled i
  rw [hp, Option.map_some] at hsettle
  cases i with
  | zero =>
    have hat := hu.main_at hsettle
    cases hmain : u.main with
    | accepting =>
      rw [hmain] at hat
      rcases hat with hat | ⟨idx, hat⟩ <;> rw [hat] <;> rfl
    | deciding client =>
      rw [hmain] at hat
      rw [show _ = Position.locking client from hat]
      rfl
    | refusing client =>
      rw [hmain] at hat
      rw [show _ = Position.refusing client from hat]
      rfl
  | succ i =>
    rcases hu.setThread hsettle with ⟨t, -, ht, -⟩
    rw [ht]
    cases t <;> rfl

/-- The assertions hold wherever a run has come to. -/
theorem meets_of_run (hrun : ServerRun ls s) : Meets Position.holds (fun _ => True) Position.known s := by
  induction hrun with
  | init => exact Meets.init holds_init fun _ => trivial
  | step hr _ hs ih => exact ih.step disciplined annotated (systemRun_of_serverRun hr).1 hs

/-- Sleepers sleep on their own variable, and while `count` is not zero a thread is awake or
will be. -/
structure Alert (s : Server) : Prop where
  length : s.threads.length = maxClients + 1
  asleep : ∀ (i c : ℕ) (t : Position), s.threads[i]? = some (.asleep c t) → i = c + 1 ∧ t = .entering
  found : ∀ t idx, s.threads[0]? = some (.running t) → t.found = some idx → idx < maxClients
  awake : (s.data ()).count ≠ 0 → (∃ t idx, s.threads[0]? = some (Place.running t) ∧ t.found = some idx) ∨
    ∃ i t, s.threads[i + 1]? = some (Place.running t)

/-- At first nobody sleeps, and `count` is zero. -/
theorem Alert.init : Alert Server.init where
  length := rfl
  asleep i c t h := by
    simp only [Server.init, List.getElem?_map, Option.map_eq_some_iff] at h
    rcases h with ⟨u, -, hu⟩
    cases hu
  found t idx ht hfound := by
    cases ht
    cases hfound
  awake h := absurd rfl h

/-- A thread is awake after its step. -/
theorem Alert.run (h : Alert s) {p : Place ℕ Position} {t : Position} (hp : s.threads[i]? = some p)
    (hthreads : s'.threads = s.threads.set i (.running t))
    (hfound : i = 0 → ∀ idx, t.found = some idx → idx < maxClients)
    (hmain : i = 0 → (s'.data ()).count ≠ 0 → t.found.isSome ∨
      ((s.data ()).count ≠ 0 ∧ ∀ u, p = .running u → u.found = none)) : Alert s' := by
  have hi : i < s.threads.length := (List.getElem?_eq_some_iff.mp hp).1
  refine ⟨?length, ?asleep, ?found, ?awake⟩
  case length =>
    rw [hthreads, List.length_set]
    exact h.length
  case asleep =>
    intro j c u hu
    rw [hthreads] at hu
    exact h.asleep j c u (asleep_of_set hu).2
  case found =>
    intro u idx hu hidx
    rw [hthreads] at hu
    cases i with
    | zero =>
      rw [List.getElem?_set_self hi] at hu
      cases hu
      exact hfound rfl idx hidx
    | succ i =>
      rw [List.getElem?_set_ne (by omega)] at hu
      exact h.found u idx hu hidx
  case awake =>
    intro hcount
    rw [hthreads]
    -- the thread is awake itself, or `main` has found one, or what was awake before still is
    cases i with
    | succ i => exact Or.inr ⟨i, t, List.getElem?_set_self hi⟩
    | zero =>
      rcases hmain rfl hcount with hsome | ⟨hbefore, hp'⟩
      · rcases Option.isSome_iff_exists.mp hsome with ⟨idx, hidx⟩
        exact Or.inl ⟨t, idx, List.getElem?_set_self hi, hidx⟩
      · rcases h.awake hbefore with ⟨u, idx, hu, hidx⟩ | ⟨j, u, hu⟩
        · rw [hp' u (Option.some.inj (hp.symm.trans hu))] at hidx
          cases hidx
        · refine Or.inr ⟨j, u, ?_⟩
          rw [List.getElem?_set_ne (by omega)]
          exact hu

/-- A thread falls asleep when `count` is zero. -/
theorem Alert.wait (h : Alert s) {p : Place ℕ Position} (hp : s.threads[i + 1]? = some p)
    (hthreads : s'.threads = s.threads.set (i + 1) (.asleep i .entering)) (hzero : (s'.data ()).count = 0) :
    Alert s' := by
  have hi : i + 1 < s.threads.length := (List.getElem?_eq_some_iff.mp hp).1
  refine ⟨?length, ?asleep, ?found, ?awake⟩
  case length =>
    rw [hthreads, List.length_set]
    exact h.length
  case asleep =>
    intro j c u hu
    rw [hthreads] at hu
    by_cases hj : j = i + 1
    · subst hj
      rw [List.getElem?_set_self hi] at hu
      cases hu
      exact ⟨rfl, rfl⟩
    · rw [List.getElem?_set_ne (Ne.symm hj)] at hu
      exact h.asleep j c u hu
  case found =>
    intro u idx hu hidx
    rw [hthreads, List.getElem?_set_ne (by omega)] at hu
    exact h.found u idx hu hidx
  case awake => exact fun hcount => absurd hzero hcount

/-- The signal of `main` finds the thread that it has found before asleep, or awake. -/
theorem Alert.signal (h : Alert s) {woken : Option ℕ} {idx : ℕ}
    (ht : s.threads[0]? = some (.running (.signalling idx)))
    (hs : (s.setThread 0 (.running .accepting)).wake idx woken = some s') : Alert s' := by
  have hlt : idx < maxClients := h.found _ idx ht rfl
  have hzero : 0 < s.threads.length := (List.getElem?_eq_some_iff.mp ht).1
  have hlen : idx + 1 < (s.threads.set 0 (.running .accepting)).length := by
    rw [List.length_set, h.length]
    omega
  -- what has to be shown of the threads but for the one that is awake now
  have hbuild : ∀ {u : Server}, u.threads.length = maxClients + 1 →
      (∀ (i c : ℕ) (t : Position), u.threads[i]? = some (.asleep c t) → i = c + 1 ∧ t = .entering) →
      u.threads[0]? = some (.running .accepting) →
      (∃ t, u.threads[idx + 1]? = some (Place.running t)) → Alert u := by
    intro u hlength hasleep hmain hawake
    refine ⟨hlength, hasleep, ?_, fun _ => Or.inr ?_⟩
    · intro t k hu hk
      obtain rfl : Position.accepting = t := by simpa using hmain.symm.trans hu
      cases hk
    · rcases hawake with ⟨t, ht⟩
      exact ⟨idx, t, ht⟩
  have hasleep : ∀ (i c : ℕ) (t : Position), (s.threads.set 0 (.running .accepting))[i]? = some (.asleep c t) →
      i = c + 1 ∧ t = .entering := by
    intro i c t hi
    exact h.asleep i c t (asleep_of_set hi).2
  rcases wake_cases hs with ⟨rfl, hany⟩ | ⟨j, u, hj, rfl⟩
  · refine hbuild ?_ hasleep (List.getElem?_set_self hzero) ?_
    · rw [State.setThread, List.length_set]
      exact h.length
    · have hget : (s.setThread 0 (.running .accepting)).threads[idx + 1]? = some _ := List.getElem?_eq_getElem hlen
      generalize (s.threads.set 0 (.running .accepting))[idx + 1] = p at hget
      cases p with
      | running t => exact ⟨t, hget⟩
      | asleep c t =>
        obtain rfl : idx = c := Nat.succ.inj (hasleep _ c t hget).1
        exact absurd (decide_eq_true rfl) (List.any_eq_false.mp hany _ (List.mem_of_getElem? hget))
  · obtain ⟨rfl, rfl⟩ := hasleep j idx u hj
    refine hbuild ?_ ?_ ?_ ⟨.entering, List.getElem?_set_self hlen⟩
    · rw [State.setThread, State.setThread, List.length_set, List.length_set]
      exact h.length
    · intro i c t hi
      exact hasleep i c t (asleep_of_set hi).2
    · show ((s.threads.set 0 (.running .accepting)).set (idx + 1) (.running .entering))[0]? = _
      rw [List.getElem?_set_ne (by omega), List.getElem?_set_self hzero]

/-- `main` finds a thread of the pool. -/
theorem found_look {client : Connection} {left idx : ℕ} {d : Shared}
    (h : (look client left d).2.found = some idx) : idx < maxClients := by
  cases left with
  | zero => cases h
  | succ left =>
    simp only [look] at h
    split_ifs at h
    · obtain rfl := Option.some.inj h
      have hpos : 0 < maxClients := by decide
      omega
    · cases h

/-- The search does not count. -/
theorem count_look (client : Connection) (left : ℕ) (d : Shared) : (look client left d).1.count = d.count := by
  cases left with
  | zero => rfl
  | succ left =>
    simp only [look]
    split_ifs <;> rfl

/-- A thread goes on, and `main` neither finds nor forgets a thread. -/
theorem Alert.keep (h : Alert s) {t t' : Position} (hp : s.threads[i]? = some (.running t))
    (hthreads : s'.threads = s.threads.set i (.running t')) (hdata : s'.data = s.data) (hfound : t'.found = t.found) :
    Alert s' := by
  apply h.run hp hthreads
  · rintro rfl idx hidx
    exact h.found t idx hp (hfound.symm.trans hidx)
  · rintro rfl hcount
    rw [hdata] at hcount
    cases hcase : t.found with
    | some idx => exact Or.inl (by rw [hfound, hcase]; rfl)
    | none =>
      refine Or.inr ⟨hcount, fun u hu => ?_⟩
      cases hu
      exact hcase

/-- What `main` does with the mutex in its hands; a thread of the pool stays awake. -/
theorem Alert.inside (h : Alert s) {t : Position} (ht : s.threads[i]? = some (.running t))
    (hof : t.ofMain = decide (i = 0)) {m : Unit} {f : Shared → Shared × Position}
    (hcode : code i t = .inside m f) (hexec : s.exec i (code i t) = some s') : Alert s' := by
  rw [hcode] at hexec
  obtain rfl := Option.some.inj hexec
  cases i with
  | succ i =>
    apply h.run ht rfl
    · intro hzero
      cases hzero
    · intro hzero
      cases hzero
  | zero =>
    cases t with
    | searching client left =>
      cases hcode
      apply h.run ht rfl
      · exact fun _ idx hidx => found_look hidx
      · intro _ hcount
        dsimp only at hcount
        rw [data_unit] at hcount
        dsimp only at hcount
        rw [count_look] at hcount
        refine Or.inr ⟨hcount, fun u hu => ?_⟩
        cases hu
        rfl
    | countingUp client idx =>
      -- a thread has been found, and it will be signalled to
      cases hcode
      apply h.run ht rfl
      · exact fun _ k hk => h.found _ k ht hk
      · exact fun _ _ => Or.inl rfl
    | storing client idx =>
      cases hcode
      apply h.run ht rfl
      · exact fun _ k hk => h.found _ k ht hk
      · exact fun _ _ => Or.inl rfl
    | accepting | locking _ | turningAway _ | refusing _ | unlocking _ | signalling _ => cases hcode
    | _ => cases hof

/-- A statement of a thread, apart from those outside. -/
theorem Alert.exec (h : Alert s) (hmeets : Meets Position.holds (fun _ => True) Position.known s)
    {t : Position} (ht : s.threads[i]? = some (.running t)) (hof : t.ofMain = decide (i = 0))
    (hexec : s.exec i (code i t) = some s') : Alert s' := by
  cases hcode : code i t with
  | lock m next =>
    rw [hcode] at hexec
    simp only [State.exec] at hexec
    split_ifs at hexec
    obtain rfl := Option.some.inj hexec
    apply h.keep ht rfl
    · rfl
    · cases t <;> cases hcode <;> rfl
  | unlock m next =>
    rw [hcode] at hexec
    obtain rfl := Option.some.inj hexec
    apply h.keep ht rfl
    · rfl
    · cases t <;> cases hcode <;> rfl
  | wait m c again =>
    -- only a thread of the pool waits, and it has just read that `count` is zero
    rw [hcode] at hexec
    obtain rfl := Option.some.inj hexec
    cases t <;> cases hcode
    cases i with
    | zero => cases hof
    | succ i => exact h.wait ht rfl (hmeets.taken _ .waiting () ht rfl)
  | inside m f => exact h.inside ht hof hcode hexec
  | signal c next =>
    rw [hcode] at hexec
    cases hexec
  | outside f =>
    rw [hcode] at hexec
    cases hexec

/-- A statement outside leaves the shared variables and what `main` has found alone. -/
theorem Alert.act (h : Alert s) {a : Given} (hs : s.step code (.act i a) = some s') : Alert s' := by
  rcases act_cases hs with ⟨t, f, r, ht, hcode, hr, rfl⟩
  apply h.keep ht rfl
  · rfl
  · cases t with
    | accepting =>
      cases hcode
      rcases accept_some hr with ⟨fd, -, ⟨-, rfl⟩ | ⟨-, -, rfl⟩⟩ <;> rfl
    | refusing client | sending client | closing client =>
      cases hcode
      rcases quietly_some hr with ⟨-, rfl⟩
      rfl
    | _ => cases hcode

/-- No step leaves a count that nobody will be awake for. -/
theorem Alert.step (h : Alert s) (hmeets : Meets Position.holds (fun _ => True) Position.known s)
    (hkind : ∀ i t, s.threads[i]? = some (.running t) → t.ofMain = decide (i = 0))
    {l : Monitor.Label Given} (hs : s.step code l = some s') : Alert s' := by
  cases l with
  | run i =>
    rcases run_cases hs with ⟨t, ht, hexec⟩
    exact h.exec hmeets ht (hkind i t ht) hexec
  | act i a => exact h.act hs
  | signal i woken =>
    simp only [State.step] at hs
    split at hs
    · rename_i t ht
      split at hs
      · rename_i c next hcode
        have hof := hkind i t ht
        cases t <;> cases hcode
        -- only `main` signals
        obtain rfl : i = 0 := of_decide_eq_true hof.symm
        exact h.signal ht hs
      · cases hs
    · cases hs
  | spurious i =>
    rcases spurious_cases hs with ⟨c, t, ht, rfl⟩
    obtain ⟨rfl, rfl⟩ := h.asleep i c t ht
    -- a wakeup for no reason only makes one thread more look
    apply h.run ht rfl
    · intro hzero
      cases hzero
    · intro hzero
      cases hzero

/-- A thread that is awake executes its own statements, and those of `main` are thread 0's. -/
theorem kind_of_run (hrun : ServerRun ls s) (i : ℕ) (t : Position) (ht : s.threads[i]? = some (.running t)) :
    t.ofMain = decide (i = 0) :=
  (settle_ofMain t s.data i).symm.trans (ofMain_of_run hrun ht)

/-- In every run no wakeup is lost. -/
theorem alert_of_run (hrun : ServerRun ls s) : Alert s := by
  induction hrun with
  | init => exact Alert.init
  | step hr _ hs ih => exact ih.step (meets_of_run hr) (kind_of_run hr) hs

/-! ## Reads and services -/

/-- Whether a thread has read `fd_socket` and not yet counted its service down. -/
def Thread.busy : Thread → ℕ
  | .waiting => 0
  | .sending _ | .closing _ | .finishing => 1

/-- `count` is the number of connections handed over less that of the services done. -/
def Counted (s : System) : Prop :=
  s.count + s.taken.length = s.handed.length + (s.threads.map Thread.busy).sum

/-- One thread moves. -/
theorem busy_set {s : System} {i : ℕ} {t : Thread} (ht : s.threads[i]? = some t) (t' : Thread) :
    ((s.threads.set i t').map Thread.busy).sum + t.busy = (s.threads.map Thread.busy).sum + t'.busy :=
  Cells.sum_map_set Thread.busy ht t'

/-- A hand-over counts up and the end of a service down; a thread is busy from its reading of
`fd_socket` until then. -/
theorem Counted.step {s s' : System} (h : Counted s) {l : Label} (hs : s.step l = some s') : Counted s' := by
  unfold Counted at h
  cases l with
  | accept fd =>
    rcases accept_cases hs with ⟨-, ⟨-, rfl⟩ | ⟨-, rfl⟩⟩
    · exact h
    · exact h
  | decide =>
    rcases decide_cases hs with ⟨client, -, ⟨-, rfl⟩ | ⟨idx, -, rfl⟩⟩
    · exact h
    · simp only [Counted, List.length_append, List.length_singleton]
      omega
  | refuse =>
    rcases refuse_cases hs with ⟨client, -, rfl⟩
    exact h
  | take i =>
    rcases take_cases hs with ⟨ht, ⟨-, rfl⟩ | ⟨-, rfl⟩⟩
    · exact h
    · -- the thread has read `fd_socket` and is busy
      have hbusy := busy_set ht (.sending s.fdSocket)
      simp only [Thread.busy] at hbusy
      simp only [Counted, System.setThread, List.length_append, List.length_singleton]
      omega
  | send i =>
    rcases send_cases hs with ⟨client, ht, rfl⟩
    have hbusy := busy_set ht (.closing client)
    simp only [Thread.busy] at hbusy
    simp only [Counted, System.setThread]
    omega
  | close i =>
    rcases close_cases hs with ⟨client, ht, rfl⟩
    have hbusy := busy_set ht .finishing
    simp only [Thread.busy] at hbusy
    simp only [Counted, System.setThread, System.callClose]
    omega
  | finish i =>
    rcases finish_cases hs with ⟨ht, rfl⟩
    -- the thread has counted down and is busy no more
    have hbusy := busy_set ht .waiting
    simp only [Thread.busy] at hbusy
    simp only [Counted, System.setThread]
    omega

/-- In every run of whole sections `count` is right. -/
theorem counted_of_run {ls : List Label} {u : System} (hrun : SystemRun ls u) : Counted u := by
  apply hrun.invariant Counted
  · rfl
  · intro s l s' h _ hs
    exact h.step hs

/-- In every run of whole sections the connections are accounted for. -/
theorem sound_of_run {ls : List Label} {u : System} (hrun : SystemRun ls u) : Sound u := by
  apply hrun.invariant Sound Sound.init
  intro s l s' h _ hs
  exact h.step hs

/-! ## The server at rest -/

/-- Something from elsewhere: a client, or a wakeup for no reason. -/
def External : Monitor.Label Given → Prop
  | .act _ (.accepted _) | .spurious _ => True
  | _ => False

instance : ∀ l, Decidable (External l)
  | .act _ (.accepted _) | .spurious _ => .isTrue trivial
  | .act _ .nothing | .run _ | .signal _ _ => .isFalse id

/-- The server waits for a client. -/
def Resting (s : Server) : Prop := ∀ l, ¬ External l → s.step code l = none

/-- The threads of a server at rest are where they started or asleep. -/
theorem rest_threads (hrun : ServerRun ls s) (halert : Alert s) (hrest : Resting s) :
    (∀ p, s.threads[0]? = some p → p = .running .accepting) ∧
      ∀ i p, s.threads[i + 1]? = some p → ∃ c, p = .asleep c .entering := by
  have hexclusive := (systemRun_of_serverRun hrun).1
  have hcases : ∀ {j : ℕ} {p : Place ℕ Position}, s.threads[j]? = some p →
      (∃ c, j = c + 1 ∧ p = .asleep c .entering) ∨ p = .running .accepting := by
    intro j p hp
    rcases rest_cases disciplined hexclusive (fun k => hrest (.run k) id)
        (fun k w => hrest (.signal k w) id) hp with ⟨c, t, rfl⟩ | ⟨t, f, rfl, hcode⟩
    · obtain ⟨rfl, rfl⟩ := halert.asleep j c t hp
      exact Or.inl ⟨c, rfl, rfl⟩
    · -- outside of the mutex only `accept` waits for somebody else
      have hnone := hrest (.act j .nothing) id
      simp only [State.step, hp, hcode] at hnone
      right
      cases t with
      | accepting => rfl
      | refusing client | sending client | closing client =>
        cases hcode
        cases hnone
      | _ => cases hcode
  constructor
  · intro p hp
    rcases hcases hp with ⟨c, hc, -⟩ | rfl
    · cases hc
    · rfl
  · intro i p hp
    rcases hcases hp with ⟨c, -, rfl⟩ | rfl
    · exact ⟨c, rfl⟩
    · have hmain := kind_of_run hrun _ _ hp
      cases hmain

/-- A server at rest is one between two sections, with nothing to do. -/
theorem rest_settled {u : System} (hrun : ServerRun ls s) (halert : Alert s) (hrest : Resting s)
    (hu : Shows (settled Position.holds finish s) u) :
    u.shared = s.data () ∧ u.main = .accepting ∧ ∀ t ∈ u.threads, t = .waiting := by
  rcases rest_threads hrun halert hrest with ⟨hmain, hpool⟩
  -- no sleeper and nobody in front of `accept` has the mutex
  have hfree : s.owner () = none := by
    cases hown : s.owner () with
    | none => rfl
    | some i =>
      rcases ((systemRun_of_serverRun hrun).1.owner () i).mp hown with ⟨p, hp, hholds⟩
      cases i with
      | zero =>
        rw [hmain p hp] at hholds
        cases hholds
      | succ i =>
        rcases hpool i p hp with ⟨c, rfl⟩
        cases hholds
  have hthread : ∀ i, (settled Position.holds finish s).threads[i]? =
      s.threads[i]?.map fun p => Place.settle Position.holds finish s.data i p := getElem?_settled
  refine ⟨?_, ?_, ?_⟩
  · have hdata : (settled Position.holds finish s).data () = s.data () := settleData_of_free hfree
    rw [← hdata, hu.data]
  · have hlt : 0 < s.threads.length := by
      rw [halert.length]
      exact Nat.succ_pos _
    have hget : s.threads[0]? = some _ := List.getElem?_eq_getElem hlt
    have hzero := hthread 0
    rw [hget, hmain _ hget] at hzero
    -- `main` stands in front of `accept` in both
    have hat := hu.main_at hzero
    cases hcase : u.main with
    | accepting => rfl
    | deciding client =>
      rw [hcase] at hat
      cases hat
    | refusing client =>
      rw [hcase] at hat
      cases hat
  · intro t ht
    rcases List.mem_iff_getElem?.mp ht with ⟨i, hi⟩
    rcases hu.threads with ⟨q, -, hq⟩
    have hsucc := hthread (i + 1)
    rw [hq, List.getElem?_cons_succ, List.getElem?_map, hi] at hsucc
    rcases Option.map_eq_some_iff.mp hsucc.symm with ⟨p, hp, hposition⟩
    rcases hpool i p hp with ⟨c, rfl⟩
    cases t with
    | waiting => rfl
    | sending client => cases hposition
    | closing client => cases hposition
    | finishing => cases hposition

/-- With every interleaving of the statements of `main` and the threads, spurious wakeups
included: a run has the effect of a run of whole sections; and when the server can do
nothing but wait for a client, `count` is zero and there were as many services as connections
handed over, so if no connection was read twice, each one has been closed exactly once. -/
theorem pool_rests (ls : List (Monitor.Label Given)) (s : Server) (hrun : ServerRun ls s) :
    (∃ ls' u, SystemRun ls' u ∧ Shows (settled Position.holds finish s) u) ∧
      (Resting s → (s.data ()).count = 0 ∧ (s.data ()).taken.length = (s.data ()).handed.length ∧
        (((s.data ()).taken.map Prod.snd).Nodup → ∀ c ∈ s.env.kernel.accepted, s.env.closes.count c = 1)) := by
  have halert := alert_of_run hrun
  rcases (systemRun_of_serverRun hrun).2 with ⟨ls', u, hu, hshows⟩
  refine ⟨⟨ls', u, hu, hshows⟩, ?_⟩
  intro hrest
  rcases rest_threads hrun halert hrest with ⟨hmain, hpool⟩
  rcases rest_settled hrun halert hrest hshows with ⟨hdata, hidle, hwaiting⟩
  have hzero : (s.data ()).count = 0 := by
    by_contra hne
    rcases halert.awake hne with ⟨t, idx, ht, hidx⟩ | ⟨i, t, ht⟩
    · cases hmain _ ht
      cases hidx
    · rcases hpool i _ ht with ⟨c, hc⟩
      cases hc
  have hbusy : (u.threads.map Thread.busy).sum = 0 := by
    apply List.sum_eq_zero
    intro b hb
    rcases List.mem_map.mp hb with ⟨t, ht, rfl⟩
    rw [hwaiting t ht]
    rfl
  have hcounted := counted_of_run hu
  have hsound := sound_of_run hu
  have hcount : u.count = 0 := (congrArg Shared.count hdata).trans hzero
  have htaken : u.taken = (s.data ()).taken := congrArg Shared.taken hdata
  have hhanded : u.handed = (s.data ()).handed := congrArg Shared.handed hdata
  have hlength : u.taken.length = u.handed.length := by
    unfold Counted at hcounted
    omega
  refine ⟨hzero, htaken ▸ hhanded ▸ hlength, ?_⟩
  rw [← htaken]
  intro hnodup c hc
  have henv : s.env = u.outside := hshows.env
  rw [henv] at hc ⊢
  -- the reads are the hand-overs
  have hperm : (u.taken.map Prod.snd).Perm u.handed :=
    (List.subperm_of_subset hnodup fun c hc => hsound.source c hc).perm_of_length_le
      (by rw [List.length_map]; omega)
  have hone : u.kernel.accepted.count c = 1 := List.count_eq_one_of_mem hsound.nodup hc
  have harrived := hsound.arrived c (hsound.real c hc)
  have hclosed := hsound.closed c
  have htakes : u.takes c = u.handed.count c := hperm.count_eq c
  have hclose : u.toClose c = 0 := by
    rw [System.toClose, List.count_eq_zero]
    intro hmem
    rcases List.mem_flatMap.mp hmem with ⟨t, ht, hct⟩
    rw [hwaiting t ht] at hct
    cases hct
  rw [hidle] at harrived hclosed
  simp only [Main.undecided, Main.refused, List.count_nil] at harrived hclosed
  show u.closes.count c = 1
  omega

/-- Where all who are awake stand in front of `accept`, nothing but a client is waited for. -/
theorem resting_of_threads
    (h : ∀ (i : ℕ) (t : Position), s.threads[i]? = some (.running t) → t = .accepting) : Resting s := by
  intro l hl
  cases hs : s.step code l with
  | none => rfl
  | some s' =>
    cases l with
    | run i =>
      rcases run_cases hs with ⟨t, ht, hexec⟩
      obtain rfl := h i t ht
      cases hexec
    | act i a =>
      rcases act_cases hs with ⟨t, f, r, ht, hcode, hr, -⟩
      obtain rfl := h i t ht
      cases hcode
      rcases accept_some hr with ⟨fd, rfl, -⟩
      exact absurd trivial hl
    | signal i woken =>
      rcases signal_cases hs with ⟨t, c, next, ht, hcode, -⟩
      obtain rfl := h i t ht
      cases hcode
    | spurious i => exact absurd trivial hl

/-- All threads fall asleep, and the first one serves a client. -/
def sleepers : List (Monitor.Label Given) :=
  (List.range maxClients).flatMap (fun i => List.replicate 3 (.run (i + 1))) ++
    [.act 0 (.accepted 4), .run 0, .run 0, .run 0, .run 0, .run 0, .signal 0 (some 1)] ++
    [.run 1, .run 1, .run 1, .run 1, .act 1 .nothing, .act 1 .nothing, .run 1, .run 1, .run 1, .run 1] ++
    [.run 1, .run 1, .run 1]

/-- The server comes to rest, and the client has been closed once. -/
theorem pool_rests_sleepers : ∃ s, ServerRun sleepers s ∧ Resting s ∧
    s.env.kernel.accepted = [⟨4, 0⟩] ∧ ∀ c ∈ s.env.kernel.accepted, s.env.closes.count c = 1 := by
  have hrun : (Machine.exec (Machine.guarded (State.step code) Fits) Server.init sleepers).map
      (fun s => (s.threads, s.env.kernel.accepted, (s.data ()).taken)) =
        some (.running .accepting :: (List.range maxClients).map (fun i => .asleep i .entering), [⟨4, 0⟩],
          [(0, ⟨4, 0⟩)]) := by
    decide +kernel
  rcases Machine.Run.exists_of_exec hrun with ⟨s, hrun, hend⟩
  simp only [Prod.mk.injEq] at hend
  rcases hend with ⟨hthreads, haccepted, htaken⟩
  have hrest : Resting s := by
    apply resting_of_threads
    intro i t ht
    rw [hthreads] at ht
    cases i with
    | zero =>
      cases ht
      rfl
    | succ i =>
      rw [List.getElem?_cons_succ, List.getElem?_map] at ht
      rcases Option.map_eq_some_iff.mp ht with ⟨j, -, hj⟩
      cases hj
  refine ⟨s, hrun, hrest, haccepted, ((pool_rests sleepers s hrun).2 hrest).2.2 ?_⟩
  rw [htaken]
  decide

/-! ## A server that does not come to rest -/

/-- What `main` will add to `count` at most before it calls `accept` again. -/
def Position.adding : Position → Int
  | .locking _ | .searching _ _ | .countingUp _ _ => 1
  | _ => 0

/-- More services have been counted down than connections were handed over. -/
def Overdrawn (s : Server) : Prop :=
  ∃ t, s.threads[0]? = some (Place.running t) ∧ (s.data ()).count + t.adding < 0

/-- `main` goes on. -/
theorem Overdrawn.main (h : Overdrawn s) {t t' : Position} {p : Place ℕ Position}
    (ht : s.threads[0]? = some (.running t)) (hthreads : s'.threads = s.threads.set 0 p)
    (hp : p = .running t')
    (hle : (s'.data ()).count + t'.adding ≤ (s.data ()).count + t.adding) : Overdrawn s' := by
  rcases h with ⟨u, hu, hcount⟩
  obtain rfl : t = u := by cases ht.symm.trans hu; rfl
  refine ⟨t', ?_, Int.lt_of_le_of_lt hle hcount⟩
  rw [hthreads, hp, List.getElem?_set_self (List.getElem?_eq_some_iff.mp ht).1]

/-- Another thread goes on. -/
theorem Overdrawn.other (h : Overdrawn s) {p : Place ℕ Position} (hthreads : s'.threads = s.threads.set (i + 1) p)
    (hle : (s'.data ()).count ≤ (s.data ()).count) : Overdrawn s' := by
  rcases h with ⟨t, ht, hcount⟩
  refine ⟨t, ?_, by omega⟩
  rw [hthreads, List.getElem?_set_ne (by omega)]
  exact ht

/-- The search ends with one thread to count up at most. -/
theorem adding_look (client : Connection) (left : ℕ) (d : Shared) : (look client left d).2.adding ≤ 1 := by
  cases left with
  | zero => exact Int.one_nonneg
  | succ left =>
    simp only [look]
    split_ifs <;> exact Int.le_refl 1

/-- A statement of `main` adds to `count` no more than `main` was still to add. -/
theorem Overdrawn.run_main (h : Overdrawn s) {t : Position}
    (ht : s.threads[0]? = some (.running t)) (hof : t.ofMain = true)
    (hexec : s.exec 0 (code 0 t) = some s') : Overdrawn s' := by
  cases t with
  | locking client =>
    simp only [code, State.exec] at hexec
    split_ifs at hexec
    obtain rfl := Option.some.inj hexec
    exact h.main ht rfl rfl (Int.le_refl _)
  | searching client left =>
    obtain rfl := Option.some.inj hexec
    apply h.main ht rfl rfl
    have hadding := adding_look client left (s.data ())
    have hsame := count_look client left (s.data ())
    dsimp only
    rw [data_unit]
    dsimp only
    rw [hsame, show (Position.searching client left).adding = 1 from rfl]
    omega
  | countingUp client idx =>
    -- what was still to add is in `count` now
    obtain rfl := Option.some.inj hexec
    apply h.main ht rfl rfl
    dsimp only
    rw [data_unit]
    exact Int.le_of_eq (by simp [Shared.countUp, Position.adding])
  | storing client idx =>
    obtain rfl := Option.some.inj hexec
    apply h.main ht rfl rfl
    dsimp only
    rw [data_unit]
    exact Int.le_refl _
  | turningAway client =>
    obtain rfl := Option.some.inj hexec
    exact h.main ht rfl rfl (Int.le_refl _)
  | unlocking idx =>
    obtain rfl := Option.some.inj hexec
    exact h.main ht rfl rfl (Int.le_refl _)
  | accepting | refusing _ | signalling _ => cases hexec
  | _ => cases hof

/-- A statement of another thread adds nothing. -/
theorem Overdrawn.run_thread (h : Overdrawn s) {t : Position} (hof : t.ofMain = false)
    (hexec : s.exec (i + 1) (code (i + 1) t) = some s') : Overdrawn s' := by
  cases t with
  | entering | finishing =>
    simp only [code, State.exec] at hexec
    split_ifs at hexec
    obtain rfl := Option.some.inj hexec
    exact h.other rfl (Int.le_refl _)
  | leaving client =>
    obtain rfl := Option.some.inj hexec
    exact h.other rfl (Int.le_refl _)
  | waiting | done =>
    obtain rfl := Option.some.inj hexec
    exact h.other rfl (Int.le_refl _)
  | checking | reading | freeing =>
    obtain rfl := Option.some.inj hexec
    apply h.other rfl
    simp only [Function.update_self]
    exact Int.le_refl _
  | countingDown =>
    obtain rfl := Option.some.inj hexec
    apply h.other rfl
    dsimp only
    rw [data_unit]
    -- the only statement of the pool that changes `count`
    exact Int.sub_le_self _ (by decide)
  | sending client => cases hexec
  | closing client => cases hexec
  | _ => cases hof

/-- What a thread sends or closes is not counted; `main` does not accept, since no client comes. -/
theorem Overdrawn.act (h : Overdrawn s) {a : Given} (hl : ¬ External (.act i a))
    (hkind : ∀ t, s.threads[i]? = some (.running t) → t.ofMain = decide (i = 0))
    (hs : s.step code (.act i a) = some s') : Overdrawn s' := by
  rcases act_cases hs with ⟨t, f, r, ht, hcode, hr, rfl⟩
  cases i with
  | succ i => exact h.other rfl (Int.le_refl _)
  | zero =>
    have hof := hkind t ht
    cases t with
    | accepting =>
      cases hcode
      rcases accept_some hr with ⟨fd, rfl, -⟩
      exact absurd trivial hl
    | refusing client =>
      cases hcode
      rcases quietly_some hr with ⟨-, rfl⟩
      exact h.main ht rfl rfl (Int.le_refl _)
    | sending client | closing client => cases hof
    | _ => cases hcode

/-- The signal of `main`, and the thread that it wakes. -/
theorem Overdrawn.signal (h : Overdrawn s) {woken : Option ℕ}
    (hkind : ∀ t, s.threads[i]? = some (.running t) → t.ofMain = decide (i = 0))
    (hs : s.step code (.signal i woken) = some s') : Overdrawn s' := by
  rcases signal_cases hs with ⟨t, c, next, ht, hcode, hcase⟩
  obtain rfl : i = 0 := by
    have hof := hkind t ht
    cases t <;> cases hcode
    exact of_decide_eq_true hof.symm
  have hnext : Overdrawn (s.setThread 0 (.running next)) := by
    apply h.main ht rfl rfl
    cases t <;> cases hcode
    exact Int.le_refl _
  rcases hcase with ⟨rfl, -⟩ | ⟨j, u, hj, rfl⟩
  · exact hnext
  · cases j with
    | succ j => exact hnext.other rfl (Int.le_refl _)
    | zero =>
      -- `main` itself is awake
      rcases hnext with ⟨v, hv, -⟩
      rw [hv] at hj
      cases hj

/-- No step but a client's, nor a wakeup for no reason, makes up for the service counted twice. -/
theorem Overdrawn.step (h : Overdrawn s)
    (hkind : ∀ i t, s.threads[i]? = some (.running t) → t.ofMain = decide (i = 0))
    {l : Monitor.Label Given} (hl : ¬ External l) (hs : s.step code l = some s') :
    Overdrawn s' := by
  cases l with
  | run i =>
    rcases run_cases hs with ⟨t, ht, hexec⟩
    have hof := hkind i t ht
    cases i with
    | zero => exact h.run_main ht hof hexec
    | succ i => exact h.run_thread hof hexec
  | act i a => exact h.act hl (hkind i) hs
  | signal i woken => exact h.signal (hkind i) hs
  | spurious i => exact absurd trivial hl

/-- Once more services have been counted down than `main` hands over, the server does not
come to rest before the next client, whatever the order of its steps, as long as `count`
stays an `int`. -/
theorem pool_never_rests (ls : List (Monitor.Label Given)) (s : Server) (hrun : ServerRun ls s)
    (hover : Overdrawn s) (ls' : List (Monitor.Label Given)) (s' : Server)
    (hgo : Machine.Run (State.step code) (fun s l => ¬ External l ∧ Fits s l) s ls' s') :
    ∃ l, ¬ External l ∧ (s'.step code l).isSome := by
  have hkeep : (∃ ks, ServerRun ks s') ∧ Overdrawn s' := by
    induction hgo with
    | init => exact ⟨⟨ls, hrun⟩, hover⟩
    | step _ hl hs ih =>
      rcases ih with ⟨⟨ks, hks⟩, h⟩
      exact ⟨⟨_, hks.step hl.2 hs⟩, h.step (kind_of_run hks) hl.1 hs⟩
  rcases hkeep with ⟨⟨ks, hks⟩, t, ht, hcount⟩
  by_contra hnone
  have hrest : Resting s' := by
    intro l hl
    by_contra hsome
    exact hnone ⟨l, hl, Option.isSome_iff_ne_none.mpr hsome⟩
  -- a server at rest would have counted right
  rcases rest_threads hks (alert_of_run hks) hrest with ⟨hmain, hpool⟩
  have hne : (s'.data ()).count ≠ 0 := by
    intro hzero
    cases hmain _ ht
    rw [hzero] at hcount
    exact absurd hcount (by decide)
  rcases (alert_of_run hks).awake hne with ⟨u, idx, hu, hidx⟩ | ⟨i, u, hu⟩
  · cases hmain _ hu
    cases hidx
  · rcases hpool i _ hu with ⟨c, hc⟩
    cases hc

/-- Two threads read the connection of one client. -/
def collision : List (Monitor.Label Given) :=
  [.act 0 (.accepted 4), .run 0, .run 0, .run 0, .run 0, .run 0] ++
    [.run 1, .run 1, .run 1, .run 1, .run 2, .run 2, .run 2, .run 2] ++
    [.act 1 .nothing, .act 1 .nothing, .act 2 .nothing, .act 2 .nothing] ++
    [.run 1, .run 1, .run 1, .run 1, .run 2, .run 2, .run 2, .run 2]

/-- `count` is -1 when `main` is about to signal. -/
theorem pool_never_rests_collision : ∃ s, ServerRun collision s ∧ ∀ ls' s',
    Machine.Run (State.step code) (fun s l => ¬ External l ∧ Fits s l) s ls' s' →
      ∃ l, ¬ External l ∧ (s'.step code l).isSome := by
  have hrun : (Machine.exec (Machine.guarded (State.step code) Fits) Server.init collision).map
      (fun s => (s.threads[0]?, (s.data ()).count)) = some (some (.running (.signalling 0)), -1) := by
    decide +kernel
  rcases Machine.Run.exists_of_exec hrun with ⟨s, hrun, hend⟩
  rcases Prod.mk.inj hend with ⟨hthread, hcount⟩
  have hover : Overdrawn s := by
    refine ⟨_, hthread, ?_⟩
    rw [hcount]
    decide
  exact ⟨s, hrun, pool_never_rests collision s hrun hover⟩

end EmbeddedCourse.PullThreads
