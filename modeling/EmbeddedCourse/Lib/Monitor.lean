import Mathlib.Logic.Function.Basic
import EmbeddedCourse.Lib.Cells
import EmbeddedCourse.Lib.Run

/-! # Threads with mutexes and condition variables

Threads run one statement at a time over data that a mutex guards and data that
no mutex guards. A wait gives the mutex back and falls asleep; a thread that was
woken up, by a signal or for no reason, first takes the mutex again. Where each
thread touches guarded data between taking and giving back the mutex only
(`Disciplined`), at most one thread is in the sections of a mutex (`Exclusive`), and
a section has the effect of one step (`settled_step`): the state that a run
is taken to has the rest of each open section done.
-/

namespace EmbeddedCourse.Monitor

/-- The next statement of a thread: `κ` are the mutexes, `γ` the condition variables, `δ` the
data under a mutex, `ε` the other data, and `ι` what a statement outside gets from elsewhere. -/
inductive Instr (κ γ δ ε ι τ : Type*) where
  | lock (m : κ) (next : τ)
  | unlock (m : κ) (next : τ)
  | wait (m : κ) (c : γ) (again : τ)
  | signal (c : γ) (next : τ)
  | inside (m : κ) (f : δ → δ × τ)
  | outside (f : ι → ε → Option (ε × τ))

/-- A thread in front of a statement, or asleep in front of the mutex. -/
inductive Place (γ τ : Type*) where
  | running (t : τ)
  | asleep (c : γ) (t : τ)
deriving DecidableEq, Repr

/-- The data under each mutex, who has the mutexes, the other data, and the threads. -/
structure State (κ γ δ ε τ : Type*) where
  data : κ → δ
  owner : κ → Option ℕ
  env : ε
  threads : List (Place γ τ)

/-- Thread `i` goes on; for a signal, with the thread that it wakes up. -/
inductive Label (ι : Type*) where
  | run (i : ℕ)
  | act (i : ℕ) (a : ι)
  | signal (i : ℕ) (woken : Option ℕ)
  | spurious (i : ℕ)
deriving DecidableEq, Repr

variable {κ γ δ ε ι τ : Type*}

/-- Whether a signal for `c` may wake up the thread. -/
def Place.sleepsOn [DecidableEq γ] (c : γ) : Place γ τ → Bool
  | .running _ => false
  | .asleep c' _ => c' = c

namespace State

def setThread (s : State κ γ δ ε τ) (i : ℕ) (p : Place γ τ) : State κ γ δ ε τ :=
  { s with threads := s.threads.set i p }

/-- `pthread_cond_signal` wakes up a thread that sleeps on `c` when there is one. -/
def wake [DecidableEq γ] (s : State κ γ δ ε τ) (c : γ) : Option ℕ → Option (State κ γ δ ε τ)
  | none => if s.threads.any (Place.sleepsOn c) = true then none else some s
  | some j =>
    match s.threads[j]? with
    | some (.asleep c' t) => if c' = c then some (s.setThread j (.running t)) else none
    | _ => none

/-- A statement of thread `i`, apart from signals and those outside. -/
def exec [DecidableEq κ] (s : State κ γ δ ε τ) (i : ℕ) : Instr κ γ δ ε ι τ → Option (State κ γ δ ε τ)
  | .lock m next =>
    if s.owner m = none then
      some { s.setThread i (.running next) with owner := Function.update s.owner m (some i) }
    else none
  | .unlock m next =>
    some { s.setThread i (.running next) with owner := Function.update s.owner m none }
  | .wait m c again =>
    some { s.setThread i (.asleep c again) with owner := Function.update s.owner m none }
  | .inside m f =>
    let r := f (s.data m)
    some { s.setThread i (.running r.2) with data := Function.update s.data m r.1 }
  | .signal _ _ | .outside _ => none

/-- One step: `code i t` is the statement of thread `i` at `t`. -/
def step [DecidableEq κ] [DecidableEq γ] (code : ℕ → τ → Instr κ γ δ ε ι τ) (s : State κ γ δ ε τ) :
    Label ι → Option (State κ γ δ ε τ)
  | .run i =>
    match s.threads[i]? with
    | some (.running t) => s.exec i (code i t)
    | _ => none
  | .act i a =>
    match s.threads[i]? with
    | some (.running t) =>
      match code i t with
      | .outside f => (f a s.env).map fun r => { s.setThread i (.running r.2) with env := r.1 }
      | _ => none
    | _ => none
  | .signal i woken =>
    match s.threads[i]? with
    | some (.running t) =>
      match code i t with
      | .signal c next => (s.setThread i (.running next)).wake c woken
      | _ => none
    | _ => none
  | .spurious i =>
    match s.threads[i]? with
    | some (.asleep _ t) => some (s.setThread i (.running t))
    | _ => none

end State

/-- There is one mutex only. -/
theorem data_unit (f : Unit → δ) (d : δ) : Function.update f () d = fun _ => d := by
  funext x
  exact Function.update_self ..

/-! ## Sections as single steps -/

/-- The threads where they stand between two sections, and the data that they leave. -/
structure Settled (κ δ ε τ : Type*) where
  data : κ → δ
  env : ε
  threads : List τ

/-- Thread `i` does a whole section, a statement outside, or a signal outside. -/
inductive Stride (ι : Type*) where
  | enter (i : ℕ)
  | act (i : ℕ) (a : ι)
  | pass (i : ℕ)
deriving DecidableEq, Repr

/-- The whole step that a step may stand for. -/
def Label.stride : Label ι → Stride ι
  | .run i => .enter i
  | .act i a => .act i a
  | .signal i _ | .spurious i => .pass i

/-- `finish i t d` is what is left to be done for thread `i` from `t` to the end of its section. -/
def Settled.step [DecidableEq κ] (code : ℕ → τ → Instr κ γ δ ε ι τ) (finish : ℕ → τ → δ → δ × τ)
    (s : Settled κ δ ε τ) : Stride ι → Option (Settled κ δ ε τ)
  | .enter i =>
    match s.threads[i]? with
    | some t =>
      match code i t with
      | .lock m next =>
        let r := finish i next (s.data m)
        some { s with data := Function.update s.data m r.1, threads := s.threads.set i r.2 }
      | _ => none
    | none => none
  | .act i a =>
    match s.threads[i]? with
    | some t =>
      match code i t with
      | .outside f => (f a s.env).map fun r => { s with env := r.1, threads := s.threads.set i r.2 }
      | _ => none
    | none => none
  | .pass i =>
    match s.threads[i]? with
    | some t =>
      match code i t with
      | .signal _ next => some { s with threads := s.threads.set i next }
      | _ => none
    | none => none

/-- Guarded data is used between lock and unlock only, and `finish` runs a section to its end.
`holds t` is the mutex of the section that a thread at `t` is in. -/
structure Disciplined (code : ℕ → τ → Instr κ γ δ ε ι τ) (holds : τ → Option κ)
    (finish : ℕ → τ → δ → δ × τ) : Prop where
  lock : ∀ {i t m next}, code i t = .lock m next → holds t = none ∧ holds next = some m
  unlock : ∀ {i t m next}, code i t = .unlock m next →
    holds t = some m ∧ holds next = none ∧ ∀ d, finish i t d = (d, next)
  wait : ∀ {i t m c again}, code i t = .wait m c again →
    holds t = some m ∧ holds again = none ∧ ∀ d, finish i t d = (d, again)
  signal : ∀ {i t c next}, code i t = .signal c next →
    holds next = holds t ∧ (holds t ≠ none → ∀ d, finish i t d = finish i next d)
  inside : ∀ {i t m f}, code i t = .inside m f →
    holds t = some m ∧ ∀ d, holds (f d).2 = some m ∧ finish i t d = finish i (f d).2 (f d).1
  outside : ∀ {i t f}, code i t = .outside f →
    holds t = none ∧ ∀ a e r, f a e = some r → holds r.2 = none

/-- The mutexes that a thread has taken. -/
def Place.holds (holds : τ → Option κ) : Place γ τ → Option κ
  | .running t => holds t
  | .asleep _ _ => none

/-- Whoever is in a section owns its mutex, and sleepers are outside of all sections. -/
structure Exclusive (holds : τ → Option κ) (s : State κ γ δ ε τ) : Prop where
  owner : ∀ m i, s.owner m = some i ↔ ∃ p, s.threads[i]? = some p ∧ p.holds holds = some m
  asleep : ∀ (i : ℕ) (c : γ) (t : τ), s.threads[i]? = some (Place.asleep c t) → holds t = none

/-- What a thread does until it is outside of all sections. -/
def Place.settle (holds : τ → Option κ) (finish : ℕ → τ → δ → δ × τ) (data : κ → δ) (i : ℕ) :
    Place γ τ → τ
  | .asleep _ t => t
  | .running t =>
    match holds t with
    | none => t
    | some m => (finish i t (data m)).2

/-- The data under mutex `m` when its owner is through. -/
def settleData (finish : ℕ → τ → δ → δ × τ) (s : State κ γ δ ε τ) (m : κ) : δ :=
  match s.owner m with
  | none => s.data m
  | some i =>
    match s.threads[i]? with
    | some (.running t) => (finish i t (s.data m)).1
    | _ => s.data m

/-- The rest of each open section is done. -/
def settled (holds : τ → Option κ) (finish : ℕ → τ → δ → δ × τ) (s : State κ γ δ ε τ) :
    Settled κ δ ε τ where
  data := settleData finish s
  env := s.env
  threads := s.threads.mapIdx fun i p => p.settle holds finish s.data i

/-- Whoever sleeps after another thread has gone on has slept before. -/
theorem asleep_of_set {ts : List (Place γ τ)} {i j : ℕ} {c : γ} {t u : τ}
    (h : (ts.set i (.running t))[j]? = some (.asleep c u)) :
    j ≠ i ∧ ts[j]? = some (.asleep c u) := by
  rw [List.getElem?_set] at h
  split_ifs at h with hij hlt
  · cases h
  · exact ⟨Ne.symm hij, h⟩

section

variable {code : ℕ → τ → Instr κ γ δ ε ι τ} {holds : τ → Option κ} {finish : ℕ → τ → δ → δ × τ}
  {s s' : State κ γ δ ε τ} {i : ℕ} {p p' : Place γ τ}

/-! ## The rest of a section -/

/-- The thread with number `j` between two sections. -/
theorem getElem?_settled (j : ℕ) : (settled holds finish s).threads[j]? =
    s.threads[j]?.map fun p => p.settle holds finish s.data j := by
  rw [settled, List.getElem?_mapIdx]

/-- A thread outside of all sections stands where it stands. -/
theorem settled_here {t : τ} (ht : s.threads[i]? = some (.running t)) (hnone : holds t = none) :
    (settled holds finish s).threads[i]? = some t := by
  rw [getElem?_settled, ht, Option.map_some, Place.settle, hnone]

/-- The rest of a section depends on the data under its own mutex. -/
theorem settle_of_data {data data' : κ → δ} (h : ∀ m, p.holds holds = some m → data' m = data m) :
    p.settle holds finish data' i = p.settle holds finish data i := by
  cases p with
  | asleep c t => rfl
  | running t =>
    simp only [Place.settle]
    split
    · rfl
    · rename_i m hm
      rw [h m hm]

/-- The owner of a mutex is about to finish its section. -/
theorem settleData_of_holds (h : Exclusive holds s) {t : τ} (ht : s.threads[i]? = some (.running t)) {m : κ}
    (hm : holds t = some m) : settleData finish s m = (finish i t (s.data m)).1 := by
  rw [settleData, (h.owner m i).mpr ⟨_, ht, hm⟩]
  dsimp only
  rw [ht]

/-- Nobody is in a section of `m`. -/
theorem settleData_of_free {m : κ} (hfree : s.owner m = none) : settleData finish s m = s.data m := by
  rw [settleData, hfree]

/-- The others stay where they are. -/
theorem settled_threads (h : Exclusive holds s) (hp : s.threads[i]? = some p)
    (hthreads : s'.threads = s.threads.set i p')
    (hdata : ∀ m, p.holds holds ≠ some m → s'.data m = s.data m) :
    (settled holds finish s').threads =
      (settled holds finish s).threads.set i (p'.settle holds finish s'.data i) := by
  have hi : i < s.threads.length := (List.getElem?_eq_some_iff.mp hp).1
  have hlen : i < (settled holds finish s).threads.length := by simpa [settled] using hi
  apply List.ext_getElem?
  intro j
  rw [getElem?_settled, hthreads]
  by_cases hj : j = i
  · subst hj
    rw [List.getElem?_set_self hi, List.getElem?_set_self hlen, Option.map_some]
  · rw [List.getElem?_set_ne (Ne.symm hj), List.getElem?_set_ne (Ne.symm hj), getElem?_settled]
    cases hq : s.threads[j]? with
    | none => rfl
    | some q =>
      -- thread `j` cannot be in a section of what thread `i` has changed
      rw [Option.map_some, Option.map_some, settle_of_data]
      intro m hm
      apply hdata
      intro hpm
      have hown := (h.owner m i).mpr ⟨p, hp, hpm⟩
      rw [(h.owner m j).mpr ⟨q, hq, hm⟩] at hown
      exact hj (Option.some.inj hown)

/-- The data of the other mutexes stays as it is. -/
theorem settleData_other (h : Exclusive holds s) (hp : s.threads[i]? = some p)
    (hthreads : s'.threads = s.threads.set i p') {m : κ} (hm : p.holds holds ≠ some m)
    (hdata : s'.data m = s.data m) (howner : s'.owner m = s.owner m) :
    settleData finish s' m = settleData finish s m := by
  rw [settleData, settleData, howner, hdata]
  cases hown : s.owner m with
  | none => rfl
  | some j =>
    -- whoever is in a section of `m` is not the thread that goes on
    have hj : j ≠ i := by
      rintro rfl
      rcases (h.owner m j).mp hown with ⟨q, hq, hqm⟩
      obtain rfl := Option.some.inj (hp.symm.trans hq)
      exact hm hqm
    dsimp only
    rw [hthreads, List.getElem?_set_ne hj.symm]

/-- A thread that goes on with what it would have done anyway. -/
theorem settled_eq (h : Exclusive holds s) (hp : s.threads[i]? = some p)
    (hthreads : s'.threads = s.threads.set i p') (henv : s'.env = s.env)
    (hdata : ∀ m, p.holds holds ≠ some m → s'.data m = s.data m ∧ s'.owner m = s.owner m)
    (hmine : ∀ m, p.holds holds = some m → settleData finish s' m = settleData finish s m)
    (hplace : p'.settle holds finish s'.data i = p.settle holds finish s.data i) :
    settled holds finish s' = settled holds finish s := by
  have hthread : (settled holds finish s').threads = _ := settled_threads h hp hthreads fun m hm => (hdata m hm).1
  have hhere : (settled holds finish s).threads[i]? = some (p'.settle holds finish s'.data i) := by
    rw [getElem?_settled, hp, Option.map_some, hplace]
  have hsame : (settled holds finish s').threads = (settled holds finish s).threads := by
    rw [hthread, Cells.set_of_getElem? hhere]
  -- under its own mutexes thread `i` leaves what it would have left, under the others nothing moves
  have hall : settleData finish s' = settleData finish s := by
    funext m
    by_cases hm : p.holds holds = some m
    · exact hmine m hm
    · exact settleData_other h hp hthreads hm (hdata m hm).1 (hdata m hm).2
  show (⟨settleData finish s', s'.env, (settled holds finish s').threads⟩ : Settled κ δ ε τ) =
    ⟨settleData finish s, s.env, (settled holds finish s).threads⟩
  rw [hall, henv, hsame]

/-- Whoever sleeps would take the mutex before anything else. -/
theorem settled_wakeUp (h : Exclusive holds s) {c : γ} {t : τ} (hp : s.threads[i]? = some (.asleep c t)) :
    settled holds finish (s.setThread i (.running t)) = settled holds finish s := by
  have hnone := h.asleep i c t hp
  have hthreads : (s.setThread i (.running t)).threads = s.threads.set i (.running t) := rfl
  apply settled_eq h hp hthreads rfl fun m _ => ⟨rfl, rfl⟩
  · intro m hm
    cases hm
  · show (match holds t with | none => t | some m => (finish i t (s.data m)).2) = t
    rw [hnone]

/-- A thread goes on outside of all sections. -/
theorem settled_outside (h : Exclusive holds s) {t u : τ} (ht : s.threads[i]? = some (.running t))
    (hnone : holds t = none) (hu : holds u = none) (e : ε) :
    settled holds finish { s.setThread i (.running u) with env := e } =
      { settled holds finish s with env := e, threads := (settled holds finish s).threads.set i u } := by
  have hthread : (settled holds finish { s.setThread i (.running u) with env := e }).threads = _ :=
    settled_threads h ht rfl fun m _ => rfl
  have hdata : settleData finish { s.setThread i (.running u) with env := e } = settleData finish s := by
    funext m
    refine settleData_other h ht rfl ?_ rfl rfl
    rw [Place.holds, hnone]
    exact (Option.some_ne_none m).symm
  show (⟨_, e, _⟩ : Settled κ δ ε τ) = _
  rw [hdata]
  congr 1
  refine hthread.trans ?_
  simp only [Place.settle, hu]

/-- No thread starts in a section. -/
theorem settled_init {data : κ → δ} {env : ε} {ts : List τ} (h : ∀ t ∈ ts, holds t = none) :
    settled holds finish (⟨data, fun _ => none, env, ts.map Place.running⟩ : State κ γ δ ε τ) =
      ⟨data, env, ts⟩ := by
  have hthreads : (ts.map Place.running).mapIdx
      (fun i (p : Place γ τ) => p.settle holds finish data i) = ts := by
    apply List.ext_getElem?
    intro i
    rw [List.getElem?_mapIdx, List.getElem?_map]
    cases ht : ts[i]? with
    | none => rfl
    | some t =>
      rw [Option.map_some, Option.map_some, Place.settle, h t (List.mem_of_getElem? ht)]
  show (⟨data, env, _⟩ : Settled κ δ ε τ) = _
  rw [hthreads]

/-! ## One thread in the sections of a mutex -/

theorem Exclusive.init {data : κ → δ} {env : ε} {ts : List τ} (h : ∀ t ∈ ts, holds t = none) :
    Exclusive holds
      (⟨data, fun _ => none, env, ts.map Place.running⟩ : State κ γ δ ε τ) := by
  have hplace : ∀ (j : ℕ) (p : Place γ τ), (ts.map Place.running)[j]? = some p →
      ∃ t ∈ ts, p = .running t := by
    intro j p hp
    rw [List.getElem?_map, Option.map_eq_some_iff] at hp
    rcases hp with ⟨t, ht, rfl⟩
    exact ⟨t, List.mem_of_getElem? ht, rfl⟩
  constructor
  · intro m j
    constructor
    · intro hnone
      cases hnone
    · rintro ⟨p, hp, hm⟩
      rcases hplace j p hp with ⟨t, ht, rfl⟩
      rw [Place.holds, h t ht] at hm
      cases hm
  · intro j c t hp
    rcases hplace j _ hp with ⟨u, -, hcase⟩
    cases hcase

variable [DecidableEq κ]

/-- Thread `i` gives back what it has and takes what it has next. -/
theorem Exclusive.update (h : Exclusive holds s) (hp : s.threads[i]? = some p)
    (hthreads : s'.threads = s.threads.set i p')
    (howner : ∀ m, s'.owner m =
      if p'.holds holds = some m then some i else if p.holds holds = some m then none else s.owner m)
    (htaken : ∀ m, p'.holds holds = some m → p.holds holds = some m ∨ s.owner m = none)
    (hasleep : ∀ c t, p' = .asleep c t → holds t = none) : Exclusive holds s' := by
  have hi : i < s.threads.length := (List.getElem?_eq_some_iff.mp hp).1
  have hmine : ∀ m, s.owner m = some i ↔ p.holds holds = some m := by
    intro m
    rw [h.owner, hp]
    constructor
    · rintro ⟨q, hq, hm⟩
      rwa [Option.some.inj hq]
    · exact fun hm => ⟨p, rfl, hm⟩
  constructor
  · intro m j
    rw [howner m, hthreads]
    by_cases hj : j = i
    · subst hj
      rw [List.getElem?_set_self hi]
      have hm := hmine m
      constructor
      · intro hsome
        refine ⟨p', rfl, ?_⟩
        split_ifs at hsome with h1 h2
        · exact h1
        · exact absurd (hm.mp hsome) h2
      · rintro ⟨q, hq, hq'⟩
        rw [← Option.some.inj hq] at hq'
        rw [if_pos hq']
    · rw [List.getElem?_set_ne (Ne.symm hj)]
      constructor
      · intro hsome
        split_ifs at hsome with h1 h2
        · exact absurd (Option.some.inj hsome).symm hj
        · exact (h.owner m j).mp hsome
      · intro hq
        have hown := (h.owner m j).mpr hq
        -- a mutex of thread `j` is none that thread `i` has or takes
        have hnot : ¬ p.holds holds = some m := by
          intro hpm
          rw [(hmine m).mpr hpm] at hown
          exact hj (Option.some.inj hown).symm
        rw [if_neg, if_neg hnot, hown]
        intro hpm
        rcases htaken m hpm with hpm | hfree
        · exact hnot hpm
        · rw [hfree] at hown
          cases hown
  · intro j c t hj
    rw [hthreads] at hj
    by_cases hji : j = i
    · subst hji
      rw [List.getElem?_set_self hi] at hj
      exact hasleep c t (Option.some.inj hj)
    · rw [List.getElem?_set_ne (Ne.symm hji)] at hj
      exact h.asleep j c t hj

/-- A thread goes on in its section, or outside of all sections. -/
theorem Exclusive.move (h : Exclusive holds s) (hp : s.threads[i]? = some p) {t : τ}
    (hholds : holds t = p.holds holds) {data : κ → δ} {env : ε} :
    Exclusive holds { s.setThread i (.running t) with data := data, env := env } := by
  have hmine : ∀ m, p.holds holds = some m → s.owner m = some i := fun m hm => (h.owner m i).mpr ⟨p, hp, hm⟩
  apply h.update hp rfl
  · intro m
    show s.owner m = if holds t = some m then some i else if p.holds holds = some m then none else s.owner m
    rw [hholds]
    split_ifs with hm
    · exact hmine m hm
    · rfl
  · intro m hm
    exact Or.inl (hholds.symm.trans hm)
  · intro c u hu
    cases hu

/-- A sleeper has no mutex, awake or not. -/
theorem Exclusive.wakeUp (h : Exclusive holds s) {c : γ} {t : τ}
    (hp : s.threads[i]? = some (.asleep c t)) : Exclusive holds (s.setThread i (.running t)) :=
  h.move hp (h.asleep i c t hp)

/-- A thread takes a mutex that nobody has. -/
theorem Exclusive.lock (h : Exclusive holds s) {t next : τ} {m : κ}
    (ht : s.threads[i]? = some (.running t)) (hfree : s.owner m = none) (hnone : holds t = none)
    (hnext : holds next = some m) :
    Exclusive holds
      { s.setThread i (.running next) with owner := Function.update s.owner m (some i) } := by
  apply h.update ht rfl
  · intro m'
    show Function.update s.owner m (some i) m' =
      if holds next = some m' then some i else if holds t = some m' then none else s.owner m'
    rw [hnone, hnext]
    by_cases hm : m' = m
    · subst hm
      rw [Function.update_self, if_pos rfl]
    · rw [Function.update_of_ne hm, if_neg fun heq => hm (Option.some.inj heq).symm,
        if_neg (Option.some_ne_none m').symm]
  · intro m' hm'
    have hm : m = m' := Option.some.inj (hnext.symm.trans hm')
    exact Or.inr (hm ▸ hfree)
  · intro c u hu
    cases hu

/-- A thread gives its mutex back, and goes on or falls asleep. -/
theorem Exclusive.release (h : Exclusive holds s) {t : τ} {m : κ}
    (ht : s.threads[i]? = some (.running t)) (hm : holds t = some m)
    (hnext : p'.holds holds = none) (hasleep : ∀ c u, p' = .asleep c u → holds u = none) :
    Exclusive holds { s.setThread i p' with owner := Function.update s.owner m none } := by
  apply h.update ht rfl
  · intro m'
    show Function.update s.owner m none m' =
      if p'.holds holds = some m' then some i else if holds t = some m' then none else s.owner m'
    rw [hnext, hm, if_neg (Option.some_ne_none m').symm]
    by_cases hm' : m' = m
    · subst hm'
      rw [Function.update_self, if_pos rfl]
    · rw [Function.update_of_ne hm', if_neg fun heq => hm' (Option.some.inj heq).symm]
  · intro m' hm'
    rw [hnext] at hm'
    cases hm'
  · exact hasleep

/-! ## A section has the effect of one step -/

/-- The last statement of a section, which gives the mutex back. -/
theorem settled_leave (h : Exclusive holds s) {t u : τ} {m : κ} (ht : s.threads[i]? = some (.running t))
    (hm : holds t = some m) (hfinish : ∀ d, finish i t d = (d, u))
    (hplace : p'.settle holds finish s.data i = u) :
    settled holds finish { s.setThread i p' with owner := Function.update s.owner m none } =
      settled holds finish s := by
  have hthreads : ({ s.setThread i p' with owner := Function.update s.owner m none } :
      State κ γ δ ε τ).threads = s.threads.set i p' := rfl
  apply settled_eq h ht hthreads rfl
  · intro m' hm'
    refine ⟨rfl, Function.update_of_ne ?_ _ _⟩
    rintro rfl
    exact hm' hm
  · intro m' hm'
    obtain rfl := Option.some.inj (hm.symm.trans hm')
    have hfree : Function.update s.owner m none m = none := Function.update_self ..
    rw [settleData_of_holds h ht hm, hfinish]
    exact settleData_of_free hfree
  · show p'.settle holds finish s.data i = _
    rw [hplace, Place.settle, hm]
    dsimp only
    rw [hfinish]

/-- A thread goes on without a change of the data. -/
theorem settled_move (h : Exclusive holds s) {t u : τ} (ht : s.threads[i]? = some (.running t))
    (hholds : holds u = holds t) (hfinish : holds t ≠ none → ∀ d, finish i t d = finish i u d)
    (hsome : holds t ≠ none) :
    settled holds finish (s.setThread i (.running u)) = settled holds finish s := by
  have hthreads : (s.setThread i (.running u)).threads = s.threads.set i (.running u) := rfl
  have h' : Exclusive holds (s.setThread i (.running u)) := h.move ht hholds
  apply settled_eq h ht hthreads rfl fun m _ => ⟨rfl, rfl⟩
  · intro m hm
    have hi : i < s.threads.length := (List.getElem?_eq_some_iff.mp ht).1
    rw [settleData_of_holds h ht hm, settleData_of_holds h' (List.getElem?_set_self hi) (hholds.trans hm),
      hfinish hsome]
    rfl
  · simp only [Place.settle, hholds]
    split
    · rename_i hnone
      exact absurd hnone hsome
    · rw [hfinish hsome]
      rfl

/-- A statement of a section is the first part of its rest. -/
theorem settled_inside (h : Exclusive holds s) {t : τ} {m : κ} {f : δ → δ × τ}
    (ht : s.threads[i]? = some (.running t)) (hm : holds t = some m)
    (hf : ∀ d, holds (f d).2 = some m ∧ finish i t d = finish i (f d).2 (f d).1) :
    settled holds finish { s.setThread i (.running (f (s.data m)).2) with
      data := Function.update s.data m (f (s.data m)).1 } = settled holds finish s := by
  have hthreads : ({ s.setThread i (.running (f (s.data m)).2) with
      data := Function.update s.data m (f (s.data m)).1 } : State κ γ δ ε τ).threads =
        s.threads.set i (.running (f (s.data m)).2) := rfl
  have h' : Exclusive holds { s.setThread i (.running (f (s.data m)).2) with
      data := Function.update s.data m (f (s.data m)).1 } := h.move ht ((hf _).1.trans hm.symm)
  have hi : i < s.threads.length := (List.getElem?_eq_some_iff.mp ht).1
  have hself : Function.update s.data m (f (s.data m)).1 m = (f (s.data m)).1 := Function.update_self ..
  apply settled_eq h ht hthreads rfl
  · intro m' hm'
    refine ⟨Function.update_of_ne ?_ _ _, rfl⟩
    rintro rfl
    exact hm' hm
  · intro m' hm'
    obtain rfl := Option.some.inj (hm.symm.trans hm')
    rw [settleData_of_holds h ht hm, settleData_of_holds h' (List.getElem?_set_self hi) (hf _).1, (hf _).2]
    dsimp only
    rw [hself]
  · simp only [Place.settle, hm, (hf _).1]
    rw [hself, (hf _).2]

/-- A thread takes a mutex, and with it does the whole section. -/
theorem settled_lock (h : Exclusive holds s) {t next : τ} {m : κ}
    (ht : s.threads[i]? = some (.running t)) (hfree : s.owner m = none) (hnone : holds t = none)
    (hnext : holds next = some m)
    (h' : Exclusive holds { s.setThread i (.running next) with owner := Function.update s.owner m (some i) }) :
    settled holds finish { s.setThread i (.running next) with owner := Function.update s.owner m (some i) } =
      { settled holds finish s with
        data := Function.update (settled holds finish s).data m
          (finish i next ((settled holds finish s).data m)).1
        threads := (settled holds finish s).threads.set i
          (finish i next ((settled holds finish s).data m)).2 } := by
  have hi : i < s.threads.length := (List.getElem?_eq_some_iff.mp ht).1
  have hhere : (settled holds finish s).data m = s.data m := settleData_of_free hfree
  have hthread : (settled holds finish
      { s.setThread i (.running next) with owner := Function.update s.owner m (some i) }).threads = _ :=
    settled_threads h ht rfl fun m _ => rfl
  -- the mutex was free, so that its data is settled from here on by this thread
  have hdata : settleData finish
      { s.setThread i (.running next) with owner := Function.update s.owner m (some i) } =
      Function.update (settled holds finish s).data m (finish i next (s.data m)).1 := by
    funext m'
    by_cases hm' : m' = m
    · subst hm'
      rw [Function.update_self, settleData_of_holds h' (List.getElem?_set_self hi) hnext]
      rfl
    · rw [Function.update_of_ne hm']
      refine settleData_other h ht rfl ?_ rfl (Function.update_of_ne hm' _ _)
      rw [Place.holds, hnone]
      exact (Option.some_ne_none m').symm
  rw [hhere]
  show (⟨_, s.env, _⟩ : Settled κ δ ε τ) = _
  rw [hdata]
  congr 1
  refine hthread.trans ?_
  simp only [Place.settle, hnext]
  rfl

/-! ## What a step can do -/

variable [DecidableEq γ]

/-- A statement is executed by a thread that is awake. -/
theorem run_cases (hs : s.step code (.run i) = some s') :
    ∃ t, s.threads[i]? = some (.running t) ∧ s.exec i (code i t) = some s' := by
  simp only [State.step] at hs
  split at hs
  · rename_i t ht
    exact ⟨t, ht, hs⟩
  · cases hs

theorem act_cases {a : ι} (hs : s.step code (.act i a) = some s') :
    ∃ t f r, s.threads[i]? = some (.running t) ∧ code i t = .outside f ∧ f a s.env = some r ∧
      s' = { s.setThread i (.running r.2) with env := r.1 } := by
  simp only [State.step] at hs
  split at hs
  · rename_i t ht
    split at hs
    · rename_i f hcode
      rcases Option.map_eq_some_iff.mp hs with ⟨r, hr, rfl⟩
      exact ⟨t, f, r, ht, hcode, hr, rfl⟩
    · cases hs
  · cases hs

omit [DecidableEq κ] in
/-- A signal is lost when nobody sleeps on its variable, and wakes up somebody otherwise. -/
theorem wake_cases {c : γ} {woken : Option ℕ} (hs : s.wake c woken = some s') :
    (s' = s ∧ s.threads.any (Place.sleepsOn c) = false) ∨
      ∃ j t, s.threads[j]? = some (.asleep c t) ∧ s' = s.setThread j (.running t) := by
  cases woken with
  | none =>
    simp only [State.wake] at hs
    split_ifs at hs with hany
    exact Or.inl ⟨(Option.some.inj hs).symm, Bool.eq_false_iff.mpr hany⟩
  | some j =>
    simp only [State.wake] at hs
    split at hs
    · rename_i c' t ht
      split_ifs at hs with hc
      subst hc
      exact Or.inr ⟨j, t, ht, (Option.some.inj hs).symm⟩
    · cases hs

/-- The thread that signals goes on; nobody sleeps, or one of the sleepers wakes up. -/
theorem signal_cases {woken : Option ℕ} (hs : s.step code (.signal i woken) = some s') :
    ∃ t c next, s.threads[i]? = some (.running t) ∧ code i t = .signal c next ∧
      ((s' = s.setThread i (.running next) ∧
        (s.setThread i (.running next)).threads.any (Place.sleepsOn c) = false) ∨
      ∃ j u, (s.setThread i (.running next)).threads[j]? = some (.asleep c u) ∧
        s' = (s.setThread i (.running next)).setThread j (.running u)) := by
  simp only [State.step] at hs
  split at hs
  · rename_i t ht
    split at hs
    · rename_i c next hcode
      exact ⟨t, c, next, ht, hcode, wake_cases hs⟩
    · cases hs
  · cases hs

theorem spurious_cases (hs : s.step code (.spurious i) = some s') :
    ∃ c t, s.threads[i]? = some (.asleep c t) ∧ s' = s.setThread i (.running t) := by
  simp only [State.step] at hs
  split at hs
  · rename_i c t ht
    exact ⟨c, t, ht, (Option.some.inj hs).symm⟩
  · cases hs

/-- At most one thread is in the sections of a mutex, whoever goes on. -/
theorem Exclusive.step (hd : Disciplined code holds finish) (h : Exclusive holds s) {l : Label ι}
    (hs : s.step code l = some s') : Exclusive holds s' := by
  cases l with
  | run i =>
    rcases run_cases hs with ⟨t, ht, hexec⟩
    cases hcode : code i t with
    | lock m next =>
      rw [hcode] at hexec
      simp only [State.exec] at hexec
      split_ifs at hexec with hfree
      obtain rfl := Option.some.inj hexec
      rcases hd.lock hcode with ⟨hnone, hnext⟩
      exact h.lock ht hfree hnone hnext
    | unlock m next =>
      rw [hcode] at hexec
      obtain rfl := Option.some.inj hexec
      rcases hd.unlock hcode with ⟨hm, hnext, -⟩
      have hfree : (Place.running next : Place γ τ).holds holds = none := hnext
      -- the mutex is given back, and nobody goes to sleep
      apply h.release ht hm hfree
      intro c u hu
      cases hu
    | wait m c again =>
      rw [hcode] at hexec
      obtain rfl := Option.some.inj hexec
      rcases hd.wait hcode with ⟨hm, hagain, -⟩
      -- the mutex is given back, and the sleeper takes it again later
      apply h.release ht hm rfl
      intro c' u hu
      cases hu
      exact hagain
    | inside m f =>
      rw [hcode] at hexec
      obtain rfl := Option.some.inj hexec
      rcases hd.inside hcode with ⟨hm, hf⟩
      exact h.move ht ((hf _).1.trans hm.symm)
    | signal c next =>
      rw [hcode] at hexec
      cases hexec
    | outside f =>
      rw [hcode] at hexec
      cases hexec
  | act i a =>
    rcases act_cases hs with ⟨t, f, r, ht, hcode, hr, rfl⟩
    rcases hd.outside hcode with ⟨hnone, hnext⟩
    exact h.move ht ((hnext a s.env r hr).trans hnone.symm)
  | signal i woken =>
    rcases signal_cases hs with ⟨t, c, next, ht, hcode, ⟨rfl, -⟩ | ⟨j, u, hj, rfl⟩⟩
    · exact h.move ht (hd.signal hcode).1
    · -- first the thread goes on, then the other one wakes up
      have hmove : Exclusive holds (s.setThread i (.running next)) := h.move ht (hd.signal hcode).1
      exact hmove.wakeUp hj
  | spurious i =>
    rcases spurious_cases hs with ⟨c, t, ht, rfl⟩
    exact h.wakeUp ht

omit [DecidableEq γ] in
/-- A statement in a section is none of the whole steps; the lock in front of it is the
whole section. -/
theorem settled_exec (hd : Disciplined code holds finish) (h : Exclusive holds s) {t : τ}
    (ht : s.threads[i]? = some (.running t)) (hexec : s.exec i (code i t) = some s')
    (h' : Exclusive holds s') :
    settled holds finish s' = settled holds finish s ∨
      (settled holds finish s).step code finish (.enter i) = some (settled holds finish s') := by
  cases hcode : code i t with
  | lock m next =>
    right
    rw [hcode] at hexec
    simp only [State.exec] at hexec
    split_ifs at hexec with hfree
    obtain rfl := Option.some.inj hexec
    rcases hd.lock hcode with ⟨hnone, hnext⟩
    -- the lock stands for all that the thread does until it unlocks
    simp only [Settled.step, settled_here ht hnone, hcode]
    rw [settled_lock h ht hfree hnone hnext h']
  | unlock m next =>
    rw [hcode] at hexec
    obtain rfl := Option.some.inj hexec
    rcases hd.unlock hcode with ⟨hm, hnext, hfinish⟩
    -- the rest of the section has been done with the lock
    refine Or.inl (settled_leave h ht hm hfinish ?_)
    rw [Place.settle, hnext]
  | wait m c again =>
    rw [hcode] at hexec
    obtain rfl := Option.some.inj hexec
    rcases hd.wait hcode with ⟨hm, -, hfinish⟩
    exact Or.inl (settled_leave h ht hm hfinish rfl)
  | inside m f =>
    rw [hcode] at hexec
    obtain rfl := Option.some.inj hexec
    rcases hd.inside hcode with ⟨hm, hf⟩
    exact Or.inl (settled_inside h ht hm hf)
  | signal c next =>
    rw [hcode] at hexec
    cases hexec
  | outside f =>
    rw [hcode] at hexec
    cases hexec

/-- A signal outside of all sections is a step of its own, whoever wakes up. -/
theorem settled_signal (hd : Disciplined code holds finish) (h : Exclusive holds s)
    {woken : Option ℕ} (hs : s.step code (.signal i woken) = some s') :
    settled holds finish s' = settled holds finish s ∨
      (settled holds finish s).step code finish (.pass i) = some (settled holds finish s') := by
  rcases signal_cases hs with ⟨t, c, next, ht, hcode, hcase⟩
  rcases hd.signal hcode with ⟨hholds, hfinish⟩
  have hmove : Exclusive holds (s.setThread i (.running next)) := h.move ht hholds
  -- the thread that is woken up does not count
  have hwoken : settled holds finish s' = settled holds finish (s.setThread i (.running next)) := by
    rcases hcase with ⟨rfl, -⟩ | ⟨j, u, hj, rfl⟩
    · rfl
    · exact settled_wakeUp hmove hj
  rw [hwoken]
  by_cases hnone : holds t = none
  · right
    simp only [Settled.step, settled_here ht hnone, hcode]
    have houtside : settled holds finish (s.setThread i (.running next)) = _ :=
      settled_outside h ht hnone (hholds.trans hnone) s.env
    exact congrArg some houtside.symm
  · left
    exact settled_move h ht hholds hfinish hnone

/-- Every step is a step of whole sections, or none at all. -/
theorem settled_step (hd : Disciplined code holds finish) (h : Exclusive holds s) {l : Label ι}
    (hs : s.step code l = some s') : settled holds finish s' = settled holds finish s ∨
      (settled holds finish s).step code finish l.stride = some (settled holds finish s') := by
  have h' := h.step hd hs
  cases l with
  | run i =>
    rcases run_cases hs with ⟨t, ht, hexec⟩
    exact settled_exec hd h ht hexec h'
  | act i a =>
    right
    rcases act_cases hs with ⟨t, f, r, ht, hcode, hr, rfl⟩
    rcases hd.outside hcode with ⟨hnone, hnext⟩
    simp only [Label.stride, Settled.step, settled_here ht hnone, hcode]
    rw [settled_outside h ht hnone (hnext a s.env r hr)]
    show (f a s.env).map _ = _
    rw [hr]
    rfl
  | signal i woken => exact settled_signal hd h hs
  | spurious i =>
    left
    rcases spurious_cases hs with ⟨c, t, ht, rfl⟩
    exact settled_wakeUp h ht

omit [DecidableEq γ] in
/-- A whole section begins with its lock. -/
theorem enter_cases {u u' : Settled κ δ ε τ} (hs : u.step code finish (.enter i : Stride ι) = some u') :
    ∃ t m next, u.threads[i]? = some t ∧ code i t = .lock m next ∧
      u' = { u with
        data := Function.update u.data m (finish i next (u.data m)).1
        threads := u.threads.set i (finish i next (u.data m)).2 } := by
  simp only [Settled.step] at hs
  split at hs
  · rename_i t ht
    split at hs
    · rename_i m next hcode
      exact ⟨t, m, next, ht, hcode, (Option.some.inj hs).symm⟩
    · cases hs
  · cases hs

omit [DecidableEq γ] in
/-- A statement outside is a whole step. -/
theorem stride_act_cases {u u' : Settled κ δ ε τ} {a : ι} (hs : u.step code finish (.act i a) = some u') :
    ∃ t f r, u.threads[i]? = some t ∧ code i t = .outside f ∧ f a u.env = some r ∧
      u' = { u with env := r.1, threads := u.threads.set i r.2 } := by
  simp only [Settled.step] at hs
  split at hs
  · rename_i t ht
    split at hs
    · rename_i f hcode
      rcases Option.map_eq_some_iff.mp hs with ⟨r, hr, rfl⟩
      exact ⟨t, f, r, ht, hcode, hr, rfl⟩
    · cases hs
  · cases hs

omit [DecidableEq γ] in
/-- A signal outside of all sections is a whole step. -/
theorem pass_cases {u u' : Settled κ δ ε τ} (hs : u.step code finish (.pass i : Stride ι) = some u') :
    ∃ t c next, u.threads[i]? = some t ∧ code i t = .signal c next ∧
      u' = { u with threads := u.threads.set i next } := by
  simp only [Settled.step] at hs
  split at hs
  · rename_i t ht
    split at hs
    · rename_i c next hcode
      exact ⟨t, c, next, ht, hcode, (Option.some.inj hs).symm⟩
    · cases hs
  · cases hs

/-- A run of statements is a run of whole sections, which meet a condition that the steps with
an effect on them meet. -/
theorem settled_run_of (hd : Disciplined code holds finish) {ok : State κ γ δ ε τ → Label ι → Prop}
    {ok' : Settled κ δ ε τ → Stride ι → Prop}
    (hok' : ∀ s l s', Exclusive holds s → ok s l → s.step code l = some s' →
      ok' (settled holds finish s) l.stride)
    {s₀ : State κ γ δ ε τ} (h₀ : Exclusive holds s₀) {ls : List (Label ι)}
    (hrun : Machine.Run (State.step code) ok s₀ ls s) : Exclusive holds s ∧
      ∃ ls', Machine.Run (Settled.step code finish) ok' (settled holds finish s₀) ls' (settled holds finish s) := by
  induction hrun with
  | init => exact ⟨h₀, [], .init⟩
  | step _ hok hs ih =>
    rcases ih with ⟨h, ls', hls'⟩
    refine ⟨h.step hd hs, ?_⟩
    rcases settled_step hd h hs with heq | hstride
    · rw [heq]
      exact ⟨ls', hls'⟩
    · exact ⟨_, hls'.step (hok' _ _ _ h hok hs) hstride⟩

/-- A run of statements is a run of whole sections. -/
theorem settled_run (hd : Disciplined code holds finish) {ok : State κ γ δ ε τ → Label ι → Prop}
    {s₀ : State κ γ δ ε τ} (h₀ : Exclusive holds s₀) {ls : List (Label ι)}
    (hrun : Machine.Run (State.step code) ok s₀ ls s) : Exclusive holds s ∧
      ∃ ls', Machine.Run (Settled.step code finish) (fun _ _ => True)
        (settled holds finish s₀) ls' (settled holds finish s) :=
  settled_run_of hd (fun _ _ _ _ _ _ => trivial) h₀ hrun

/-! ## Assertions in sections -/

/-- `inv` is what whoever takes a mutex finds and leaves, and `assn t` what a thread in
front of `t` knows while it has the mutex. -/
structure Annotated (code : ℕ → τ → Instr κ γ δ ε ι τ) (holds : τ → Option κ) (inv : δ → Prop)
    (assn : τ → δ → Prop) : Prop where
  lock : ∀ {i t m next}, code i t = .lock m next → ∀ d, inv d → assn next d
  unlock : ∀ {i t m next}, code i t = .unlock m next → ∀ d, assn t d → inv d
  wait : ∀ {i t m c again}, code i t = .wait m c again → ∀ d, assn t d → inv d
  signal : ∀ {i t c next}, code i t = .signal c next → holds t ≠ none → ∀ d, assn t d → assn next d
  inside : ∀ {i t m f}, code i t = .inside m f → ∀ d, assn t d → assn (f d).2 (f d).1

/-- The invariant holds of the data that is free, and whoever is in a section knows what
stands in front of its statement. -/
structure Meets (holds : τ → Option κ) (inv : δ → Prop) (assn : τ → δ → Prop) (s : State κ γ δ ε τ) :
    Prop where
  free : ∀ m, s.owner m = none → inv (s.data m)
  taken : ∀ (i : ℕ) (t : τ) (m : κ), s.threads[i]? = some (Place.running t) → holds t = some m → assn t (s.data m)

variable {inv : δ → Prop} {assn : τ → δ → Prop}

omit [DecidableEq κ] [DecidableEq γ] in
theorem Meets.init {data : κ → δ} {env : ε} {ts : List τ} (h : ∀ t ∈ ts, holds t = none)
    (hinv : ∀ m, inv (data m)) :
    Meets holds inv assn (⟨data, fun _ => none, env, ts.map Place.running⟩ : State κ γ δ ε τ) where
  free m _ := hinv m
  taken i t m ht hm := by
    rw [List.getElem?_map, Option.map_eq_some_iff] at ht
    rcases ht with ⟨u, hu, heq⟩
    cases heq
    rw [h t (List.mem_of_getElem? hu)] at hm
    cases hm

omit [DecidableEq κ] [DecidableEq γ] in
/-- What the others know stays true when thread `i` changes what only it may. -/
theorem Meets.update (hm : Meets holds inv assn s) (h : Exclusive holds s) (hp : s.threads[i]? = some p)
    (hthreads : s'.threads = s.threads.set i p')
    (hdata : ∀ m, p.holds holds ≠ some m → s'.data m = s.data m)
    (hfree : ∀ m, s'.owner m = none → (s.owner m = none ∧ s'.data m = s.data m) ∨ inv (s'.data m))
    (hmine : ∀ t m, p' = .running t → holds t = some m → assn t (s'.data m)) :
    Meets holds inv assn s' := by
  have hi : i < s.threads.length := (List.getElem?_eq_some_iff.mp hp).1
  constructor
  · intro m hnone
    rcases hfree m hnone with ⟨hold, hsame⟩ | hinv
    · rw [hsame]
      exact hm.free m hold
    · exact hinv
  · intro j t m hj hjm
    rw [hthreads] at hj
    by_cases hji : j = i
    · subst hji
      rw [List.getElem?_set_self hi] at hj
      exact hmine t m (Option.some.inj hj) hjm
    · rw [List.getElem?_set_ne (Ne.symm hji)] at hj
      -- thread `j` is in a section of `m`, so thread `i` is not
      have hother : p.holds holds ≠ some m := by
        intro hpm
        have hown := (h.owner m i).mpr ⟨p, hp, hpm⟩
        rw [(h.owner m j).mpr ⟨_, hj, hjm⟩] at hown
        exact hji (Option.some.inj hown)
      rw [hdata m hother]
      exact hm.taken j t m hj hjm

omit [DecidableEq κ] [DecidableEq γ] in
/-- A thread goes on without a change of the data. -/
theorem Meets.move (hm : Meets holds inv assn s) (h : Exclusive holds s) (hp : s.threads[i]? = some p) {t : τ}
    {env : ε} (hmine : ∀ m, holds t = some m → assn t (s.data m)) :
    Meets holds inv assn { s.setThread i (.running t) with env := env } := by
  have hthreads : ({ s.setThread i (.running t) with env := env } : State κ γ δ ε τ).threads =
    s.threads.set i (.running t) := rfl
  apply hm.update h hp hthreads (fun _ _ => rfl) (fun m hnone => Or.inl ⟨hnone, rfl⟩)
  intro u m hu hum
  cases hu
  exact hmine m hum

omit [DecidableEq κ] [DecidableEq γ] in
/-- A sleeper wakes up knowing nothing. -/
theorem Meets.wakeUp (hm : Meets holds inv assn s) (h : Exclusive holds s) {c : γ} {t : τ}
    (hp : s.threads[i]? = some (.asleep c t)) : Meets holds inv assn (s.setThread i (.running t)) := by
  apply hm.move h hp
  intro m ht
  rw [h.asleep i c t hp] at ht
  cases ht

omit [DecidableEq γ] in
/-- Whoever takes a mutex finds its invariant. -/
theorem Meets.lock (hm : Meets holds inv assn s) (h : Exclusive holds s) {t next : τ} {m : κ}
    (ht : s.threads[i]? = some (.running t)) (hfree : s.owner m = none)
    (hnext : holds next = some m) (hassn : ∀ d, inv d → assn next d) :
    Meets holds inv assn
      { s.setThread i (.running next) with owner := Function.update s.owner m (some i) } := by
  apply hm.update h ht rfl
  · exact fun _ _ => rfl
  · intro m' (hnone : Function.update s.owner m (some i) m' = none)
    have hne : m' ≠ m := by
      rintro rfl
      rw [Function.update_self] at hnone
      cases hnone
    rw [Function.update_of_ne hne] at hnone
    exact Or.inl ⟨hnone, rfl⟩
  · intro u m' hu hum
    cases hu
    obtain rfl := Option.some.inj (hnext.symm.trans hum)
    exact hassn _ (hm.free _ hfree)

omit [DecidableEq γ] in
/-- Whoever gives a mutex back leaves its invariant. -/
theorem Meets.release (hm : Meets holds inv assn s) (h : Exclusive holds s) {t : τ} {m : κ}
    (ht : s.threads[i]? = some (.running t)) (hhas : holds t = some m)
    (hnext : p'.holds holds = none) (hinv : ∀ d, assn t d → inv d) :
    Meets holds inv assn { s.setThread i p' with owner := Function.update s.owner m none } := by
  apply hm.update h ht rfl
  · exact fun _ _ => rfl
  · intro m' (hnone : Function.update s.owner m none m' = none)
    by_cases hm' : m' = m
    · subst hm'
      exact Or.inr (hinv _ (hm.taken i t m' ht hhas))
    · exact Or.inl ⟨by rwa [Function.update_of_ne hm'] at hnone, rfl⟩
  · intro u m' hu hum
    subst hu
    rw [Place.holds, hum] at hnext
    cases hnext

omit [DecidableEq γ] in
/-- A statement of a section changes the data of its own mutex only, which nobody else may use. -/
theorem Meets.inside (hm : Meets holds inv assn s) (h : Exclusive holds s) {t : τ} {m : κ}
    {f : δ → δ × τ} (ht : s.threads[i]? = some (.running t)) (hhas : holds t = some m)
    (hstays : holds (f (s.data m)).2 = some m)
    (hassn : ∀ d, assn t d → assn (f d).2 (f d).1) :
    Meets holds inv assn { s.setThread i (.running (f (s.data m)).2) with
      data := Function.update s.data m (f (s.data m)).1 } := by
  have hown : s.owner m = some i := (h.owner m i).mpr ⟨_, ht, hhas⟩
  apply hm.update h ht rfl
  · intro m' hm'
    apply Function.update_of_ne
    rintro rfl
    exact hm' hhas
  · intro m' hnone
    left
    refine ⟨hnone, Function.update_of_ne ?_ _ _⟩
    rintro rfl
    rw [show s.owner m' = none from hnone] at hown
    cases hown
  · intro u m' hu hum
    cases hu
    obtain rfl := Option.some.inj (hstays.symm.trans hum)
    show assn _ (Function.update s.data m (f (s.data m)).1 m)
    rw [Function.update_self]
    exact hassn _ (hm.taken i t m ht hhas)

/-- The assertions stand, whoever goes on. -/
theorem Meets.step (hd : Disciplined code holds finish) (ha : Annotated code holds inv assn)
    (h : Exclusive holds s) (hm : Meets holds inv assn s) {l : Label ι}
    (hs : s.step code l = some s') : Meets holds inv assn s' := by
  cases l with
  | run i =>
    rcases run_cases hs with ⟨t, ht, hexec⟩
    cases hcode : code i t with
    | lock m next =>
      rw [hcode] at hexec
      simp only [State.exec] at hexec
      split_ifs at hexec with hfree
      obtain rfl := Option.some.inj hexec
      exact hm.lock h ht hfree (hd.lock hcode).2 (ha.lock hcode)
    | unlock m next =>
      rw [hcode] at hexec
      obtain rfl := Option.some.inj hexec
      rcases hd.unlock hcode with ⟨hhas, hnext, -⟩
      exact hm.release h ht hhas hnext (ha.unlock hcode)
    | wait m c again =>
      rw [hcode] at hexec
      obtain rfl := Option.some.inj hexec
      exact hm.release h ht (hd.wait hcode).1 rfl (ha.wait hcode)
    | inside m f =>
      rw [hcode] at hexec
      obtain rfl := Option.some.inj hexec
      rcases hd.inside hcode with ⟨hhas, hf⟩
      exact hm.inside h ht hhas (hf _).1 (ha.inside hcode)
    | signal c next =>
      rw [hcode] at hexec
      cases hexec
    | outside f =>
      rw [hcode] at hexec
      cases hexec
  | act i a =>
    rcases act_cases hs with ⟨t, f, r, ht, hcode, hr, rfl⟩
    apply hm.move h ht
    intro m hum
    rw [(hd.outside hcode).2 a s.env r hr] at hum
    cases hum
  | signal i woken =>
    rcases signal_cases hs with ⟨t, c, next, ht, hcode, hcase⟩
    have hholds := (hd.signal hcode).1
    -- first the thread that signals goes on, then the one that it wakes up
    have hmove : Exclusive holds (s.setThread i (.running next)) := h.move ht hholds
    have hnext : Meets holds inv assn (s.setThread i (.running next)) := by
      apply hm.move h ht
      intro m hum
      have hhas : holds t = some m := hholds.symm.trans hum
      exact ha.signal hcode (by rw [hhas]; exact Option.some_ne_none m) _ (hm.taken i t m ht hhas)
    rcases hcase with ⟨rfl, -⟩ | ⟨j, u, hj, rfl⟩
    · exact hnext
    · exact hnext.wakeUp hmove hj
  | spurious i =>
    rcases spurious_cases hs with ⟨c, t, ht, rfl⟩
    exact hm.wakeUp h ht

/-! ## Threads that cannot go on -/

omit [DecidableEq κ] in
/-- A signal can always be executed. -/
theorem exists_wake (s : State κ γ δ ε τ) (c : γ) : ∃ woken, (s.wake c woken).isSome := by
  by_cases hany : s.threads.any (Place.sleepsOn c) = true
  · rcases List.any_eq_true.mp hany with ⟨p, hp, hc⟩
    rcases List.mem_iff_getElem?.mp hp with ⟨j, hj⟩
    refine ⟨some j, ?_⟩
    cases p with
    | running t => cases hc
    | asleep c' t => simp [State.wake, hj, of_decide_eq_true hc]
  · exact ⟨none, by simp [State.wake, hany]⟩

/-- Whoever is in a section can go on. -/
theorem exists_step_of_holds (hd : Disciplined code holds finish) {t : τ} {m : κ}
    (ht : s.threads[i]? = some (.running t)) (hm : holds t = some m) :
    (s.step code (.run i)).isSome ∨ ∃ woken, (s.step code (.signal i woken)).isSome := by
  cases hcode : code i t with
  | lock m' next =>
    rw [(hd.lock hcode).1] at hm
    cases hm
  | outside f =>
    rw [(hd.outside hcode).1] at hm
    cases hm
  | signal c next =>
    right
    rcases exists_wake (s.setThread i (.running next)) c with ⟨woken, hwoken⟩
    exact ⟨woken, by simpa [State.step, ht, hcode] using hwoken⟩
  | unlock m' next => exact Or.inl (by simp [State.step, ht, hcode, State.exec])
  | wait m' c again => exact Or.inl (by simp [State.step, ht, hcode, State.exec])
  | inside m' f => exact Or.inl (by simp [State.step, ht, hcode, State.exec])

/-- When no thread can go on but for a statement outside, all others are asleep. -/
theorem rest_cases (hd : Disciplined code holds finish) (h : Exclusive holds s)
    (hrun : ∀ j, s.step code (.run j) = none) (hsignal : ∀ j woken, s.step code (.signal j woken) = none)
    (hp : s.threads[i]? = some p) :
    (∃ c t, p = .asleep c t) ∨ ∃ t f, p = .running t ∧ code i t = .outside f := by
  -- a section that is open could go on
  have hfree : ∀ m, s.owner m = none := by
    intro m
    cases hown : s.owner m with
    | none => rfl
    | some j =>
      rcases (h.owner m j).mp hown with ⟨q, hq, hm⟩
      cases q with
      | asleep c t => cases hm
      | running t =>
        rcases exists_step_of_holds hd hq hm with hsome | ⟨woken, hsome⟩
        · rw [hrun j] at hsome
          cases hsome
        · rw [hsignal j woken] at hsome
          cases hsome
  cases p with
  | asleep c t => exact Or.inl ⟨c, t, rfl⟩
  | running t =>
    right
    have hstep := hrun i
    simp only [State.step, hp] at hstep
    cases hcode : code i t with
    | outside f => exact ⟨t, f, rfl, hcode⟩
    | signal c next =>
      rcases exists_wake (s.setThread i (.running next)) c with ⟨woken, hwoken⟩
      have hnone := hsignal i woken
      simp only [State.step, hp, hcode] at hnone
      rw [hnone] at hwoken
      cases hwoken
    | lock m next =>
      rw [hcode] at hstep
      simp only [State.exec, if_pos (hfree m)] at hstep
      cases hstep
    | unlock m next =>
      rw [hcode] at hstep
      cases hstep
    | wait m c again =>
      rw [hcode] at hstep
      cases hstep
    | inside m f =>
      rw [hcode] at hstep
      cases hstep

end

end EmbeddedCourse.Monitor
