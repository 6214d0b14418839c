import EmbeddedCourse.Echo.Capacity
import EmbeddedCourse.Taxi.Loop

/-! # The room in the table of the taxi server

`create_driver` writes behind the last driver and does not ask whether there is
room, and drivers are never removed. How many drivers there are is told from the
reads alone: laid over one another in the buffer, so many of them leave
`create_driver` at its start. At the end the tables of the two servers are looked
at together.
-/

namespace EmbeddedCourse.Taxi

open CString

/-- `"create_driver"`. -/
def createDriverWord : Bytes :=
  ascii ['c', 'r', 'e', 'a', 't', 'e', '_', 'd', 'r', 'i', 'v', 'e', 'r']

theorem parse_eq_createDriver_iff (text : Bytes) : parse text = .createDriver ↔ text = createDriverWord := by
  constructor
  · intro h
    by_contra hne
    unfold createDriverWord at hne
    unfold parse at h
    rw [if_neg hne] at h
    split_ifs at h
    · cases hpid : scanInt (text.drop 10) with
      | none => simp [hpid] at h
      | some q => cases htimer : scanInt q.2 <;> simp [hpid, htimer] at h
    · cases hpid : scanInt (text.drop 11) <;> simp [hpid] at h
  · intro h
    exact if_pos h

theorem length_change (pid : Int) (f : Driver → Driver) (drivers : List Driver) :
    (change pid f drivers).length = drivers.length := by
  induction drivers with
  | nil => rfl
  | cons d drivers ih =>
    rw [change]
    split_ifs
    · rfl
    · rw [List.length_cons, ih, List.length_cons]

/-- With a `fork` that succeeds, `create_driver` adds a driver, and nothing else does. -/
theorem length_execute {calls : Calls} (hfork : 0 < calls.forked) (drivers : List Driver) (c : Command) :
    (execute calls drivers c).2.1.length = drivers.length + if c = .createDriver then 1 else 0 := by
  cases c with
  | createDriver =>
    have hnot : ¬ calls.forked < 0 := by omega
    simp [execute, createDriver, hnot]
  | sendTask pid timer =>
    rcases sendTask_cases pid timer calls.unwritten calls.sent drivers with hsame | ⟨d, -, -, hchange⟩
    · simp [execute, hsame]
    · simp [execute, hchange, length_change]
  | sendTaskUsage | getStatus | getStatusUsage | getDrivers | exit | incorrect => simp [execute]

/-! ## The reads, laid over one another -/

/-- The buffer with what a pass reads written over its start. -/
def Pass.overlaid (a : Pass) (line : Bytes) : Bytes :=
  match a.input with
  | .bytes chunk => overlay line chunk
  | .none | .failed => line

/-- The pass reads, and then the string at the start of the buffer, up to a newline
or a NUL, is `"create_driver"`. -/
def Pass.hiring (a : Pass) (line : Bytes) : Bool :=
  match a.input with
  | .bytes chunk => Main.text (overlay line chunk) a.behind = createDriverWord
  | .none | .failed => false

/-- How many of the reads leave `"create_driver"` in the buffer. -/
def hires (line : Bytes) : List Pass → ℕ
  | [] => 0
  | a :: as => (if a.hiring line then 1 else 0) + hires (a.overlaid line) as

/-- What all the reads leave in the buffer. -/
def laid (line : Bytes) (as : List Pass) : Bytes := as.foldl (fun line a => a.overlaid line) line

theorem hires_append (line : Bytes) (as as' : List Pass) :
    hires line (as ++ as') = hires line as + hires (laid line as) as' := by
  induction as generalizing line with
  | nil => simp [hires, laid]
  | cons a as ih =>
    rw [List.cons_append, hires, hires, ih, Nat.add_assoc]
    rfl

/-- A newline ends the string as the NUL does that `main` puts in its place. -/
def ended (b : UInt8) : UInt8 := if b = 10 then 0 else b

theorem text_eq_cstr (line behind : Bytes) :
    Main.text line behind = cstr (line.map ended ++ behind.map ended) := by
  rw [Main.text, ← List.map_append]
  induction line ++ behind with
  | nil => rfl
  | cons b l ih =>
    rw [List.takeWhile_cons, List.map_cons, ended]
    by_cases hnewline : b = 10
    · simp [hnewline, cstr]
    · by_cases hnul : b = 0
      · simp [hnul, cstr]
      · rw [if_neg hnewline, cstr_cons hnul, ← ih]
        simp [hnewline, hnul]

theorem map_ended_overlay (line chunk : Bytes) :
    (overlay line chunk).map ended = overlay (line.map ended) (chunk.map ended) := by
  simp [overlay]

/-- Where the string ends there is a newline or a NUL, or the buffer has ended. -/
theorem map_ended_set (line behind : Bytes) :
    (line.set (Main.text line behind).length 0).map ended = line.map ended := by
  rw [List.map_set]
  have hend : ended 0 = 0 := rfl
  rw [hend]
  induction line with
  | nil => rfl
  | cons b line ih =>
    rw [Main.text, List.cons_append, List.takeWhile_cons]
    split_ifs with hgoes
    · rw [List.length_cons, List.map_cons, List.set_cons_succ]
      exact congrArg _ ih
    · have hstop : ended b = 0 := by
        unfold ended
        split_ifs with hnewline
        · rfl
        · simpa [hnewline] using hgoes
      rw [List.length_nil, List.map_cons, List.set_cons_zero, hstop]

namespace Main

/-- The index of `drivers` that `create_driver` writes in a pass, if it is called. -/
def driversWritten (m : Main) (a : Pass) : List ℕ :=
  if m.done then []
  else
    match a.input with
    | .bytes chunk =>
      if parse (text (overlay m.line chunk) a.behind) = .createDriver then [m.drivers.length] else []
    | .none | .failed => []

/-- Every `fork` succeeds. -/
def Forks (_ : Main) (a : Pass) : Prop := 0 < a.calls.forked

instance (m : Main) (a : Pass) : Decidable (Forks m a) := inferInstanceAs (Decidable (_ < _))

/-- Wherever a run has come to, the drivers are in the table, and so is the one
that the next pass creates. -/
def DriversInTable (line : Bytes) (as : List Pass) : Prop :=
  ∀ as' m, as' <+: as → LoopRun Forks line as' m →
    m.drivers.length ≤ maxDrivers ∧ ∀ a, as' ++ [a] <+: as → ∀ k ∈ driversWritten m a, k < maxDrivers

variable {m m' : Main} {a : Pass} {as : List Pass} {line : Bytes}

theorem length_collect (m : Main) (mail : Option Message) :
    (m.collect mail).drivers.length = m.drivers.length := by
  cases mail with
  | none => rfl
  | some msg => exact length_change msg.pid _ m.drivers

/-- A pass creates a driver for each command that asks for one. -/
theorem iterate_created (h : m.iterate a = some m') (hfork : Forks m a) :
    m'.drivers.length = m.drivers.length + (driversWritten m a).length := by
  rcases a with ⟨input, behind, calls, mail⟩
  unfold iterate at h
  unfold driversWritten
  split_ifs at h ⊢ with hdone
  cases input with
  | none =>
    obtain rfl := Option.some.inj h
    exact length_collect m mail
  | failed =>
    obtain rfl := Option.some.inj h
    rfl
  | bytes chunk =>
    -- behind the command only completions change the table
    have hrun : m'.drivers.length = (m.runLine chunk behind calls).drivers.length := by
      obtain rfl := Option.some.inj h
      split_ifs
      · rfl
      · exact length_collect _ _
    have hlen := length_execute hfork m.drivers (parse (text (overlay m.line chunk) behind))
    have hdrivers : (m.runLine chunk behind calls).drivers =
        (execute calls m.drivers (parse (text (overlay m.line chunk) behind))).2.1 := rfl
    rw [hrun, hdrivers, hlen]
    dsimp only
    split_ifs <;> rfl

/-- With the buffer of `main` and the reads laid over one another the same up to
newlines, a pass creates a driver exactly when the read leaves its word. -/
theorem length_driversWritten (h : m.iterate a = some m') {line : Bytes}
    (hline : m.line.map ended = line.map ended) :
    (driversWritten m a).length = (if a.hiring line then 1 else 0) ∧
      m'.line.map ended = (a.overlaid line).map ended := by
  have hdone : ¬ m.done := by
    intro hdone
    simp [iterate, hdone] at h
  rcases iterate_cases h with ⟨hinput, hkept, -, -⟩ | ⟨chunk, hinput, hnext, -, -⟩
  · rw [hkept, hline]
    rcases hinput with hinput | hinput <;> simp [driversWritten, Pass.hiring, Pass.overlaid, hinput]
  · have hfull : (overlay m.line chunk).map ended = (overlay line chunk).map ended := by
      rw [map_ended_overlay, map_ended_overlay, hline]
    have htext : text (overlay m.line chunk) a.behind = text (overlay line chunk) a.behind := by
      rw [text_eq_cstr, text_eq_cstr, hfull]
    constructor
    · by_cases hword : text (overlay line chunk) a.behind = createDriverWord
      · simp [driversWritten, Pass.hiring, hdone, hinput, htext, parse_eq_createDriver_iff, hword]
      · simp [driversWritten, Pass.hiring, hdone, hinput, htext, parse_eq_createDriver_iff, hword]
    · rw [hnext, map_ended_set, hfull, Pass.overlaid, hinput]

/-- There are as many drivers as reads that leave `create_driver` in the buffer. -/
theorem drivers_of_run (h : LoopRun Forks line as m) :
    m.drivers.length = hires line as ∧ m.line.map ended = (laid line as).map ended := by
  induction h with
  | init => exact ⟨rfl, rfl⟩
  | @step as m a m' hr hok hs ih =>
    rcases length_driversWritten hs ih.2 with ⟨hwritten, hline⟩
    constructor
    · rw [iterate_created hs hok.2, hwritten, hires_append, ih.1, hires, hires, Nat.add_zero]
    · rw [hline, laid, laid, List.foldl_concat]

/-- For every run in which every `fork` succeeds: the table of drivers is not overrun
if and only if at most `MAX_DRIVERS` reads leave `create_driver` in the buffer. -/
theorem driversInTable_iff (h : LoopRun Forks line as m) :
    DriversInTable line as ↔ hires line as ≤ maxDrivers := by
  constructor
  · intro hin
    rw [← (drivers_of_run h).1]
    exact (hin as m (List.prefix_refl as) h).1
  · intro hcount
    rw [← (drivers_of_run h).1] at hcount
    have hgrow : ∀ as' m', as' <+: as → LoopRun Forks line as' m' → m'.drivers.length ≤ m.drivers.length := by
      intro as' m' hpre h'
      apply h.le_of_prefix (fun m m' => m.drivers.length ≤ m'.drivers.length) _ _ _ hpre h'
      · exact fun m => Nat.le_refl _
      · exact fun m₁ m₂ m₃ => Nat.le_trans
      · intro m a m' hok hs
        have hmore := iterate_created hs hok.2
        omega
    intro as' m' hpre h'
    constructor
    · exact Nat.le_trans (hgrow as' m' hpre h') hcount
    · intro a hnext k hk
      rcases hnext with ⟨rest, rfl⟩
      rcases h.take with ⟨m₂, h₂⟩
      rcases h₂.of_concat with ⟨t, ht, hok, hs⟩
      obtain rfl := ht.unique h'
      have hmore := iterate_created hs hok.2
      have hle := hgrow (as' ++ [a]) m₂ ⟨rest, rfl⟩ h₂
      -- the pass that writes the record has one driver more behind it
      have hone : k = t.drivers.length ∧ (driversWritten t a).length = 1 := by
        unfold driversWritten at hk ⊢
        split_ifs at hk ⊢
        · cases hk
        · cases hinput : a.input with
          | none => simp [hinput] at hk
          | failed => simp [hinput] at hk
          | bytes chunk =>
            rw [hinput] at hk
            dsimp only at hk ⊢
            split_ifs at hk ⊢
            · exact ⟨List.mem_singleton.mp hk, rfl⟩
            · cases hk
      omega

end Main

end EmbeddedCourse.Taxi

/-! ## Both servers -/

namespace EmbeddedCourse

open CString Taxi Taxi.Main

/-- For every sequence of datagrams, and every run of the taxi server in which every
`fork` succeeds: the table of clients is not overrun if and only if there are
never more than `MAX_CLIENTS` clients of which a message has come since their last
`CLOSE`, and the table of drivers is not if and only if at most `MAX_DRIVERS` reads
leave `create_driver` as the string at the start of the buffer. -/
theorem tables_not_overrun_iff {buffer : Bytes} (hbuf : buffer.length = Echo.maxBuf) (ds : List Bytes)
    {line : Bytes} {as : List Pass} {m : Main} (hrun : LoopRun Forks line as m) :
    (Echo.ClientsInTable buffer ds ↔ Echo.Seated buffer ds) ∧
      (DriversInTable line as ↔ hires line as ≤ maxDrivers) :=
  ⟨Echo.clientsInTable_iff hbuf ds, driversInTable_iff hrun⟩

/-- A pass that creates a driver with this process id. -/
def creating (pid : Int) : Pass := ⟨.bytes (createDriverWord ++ [10]), [], ⟨pid, 0, true⟩, .none⟩

/-- Datagrams from the ports 1 to `n` of a host, and `n` commands for the drivers 1 to `n`. -/
def visitors (n : ℕ) : List Bytes :=
  (List.range' 1 n).map fun i => Echo.datagramFrom (UInt16.ofNat i) (ascii ['h', 'i'])

def hirings (n : ℕ) : List Pass := (List.range' 1 n).map fun i => creating i

/-- One `create_driver`, and reads of 0 bytes that leave it where it is. -/
example : hires (List.replicate 256 0) (creating 1 :: List.replicate 100 (reading [])) = 101 := by
  decide +kernel

theorem tables_not_overrun_iff_three :
    Echo.ClientsInTable (List.replicate 4096 0) (visitors 3) ∧
    hires (List.replicate 256 0) (hirings 3) = 3 ∧
    DriversInTable (List.replicate 256 0) (hirings 3) := by
  have hexec : (Machine.exec (Machine.guarded iterate fun m a => Admissible m a ∧ Forks m a)
      (init (List.replicate 256 0)) (hirings 3)).map Main.done = some false := by
    decide +kernel
  rcases Machine.Run.exists_of_exec hexec with ⟨m, hrun, -⟩
  have hbuf : (List.replicate 4096 (0 : UInt8)).length = Echo.maxBuf := List.length_replicate
  have hiff := tables_not_overrun_iff hbuf (visitors 3) hrun
  exact ⟨hiff.1.mpr (Echo.seated_of_length (by decide)), by decide +kernel,
    hiff.2.mpr (by decide +kernel)⟩

/-- One client and one driver too many. -/
theorem tables_overrun :
    ¬ Echo.ClientsInTable (List.replicate 4096 0) (visitors 101) ∧
      ¬ DriversInTable (List.replicate 256 0) (hirings 101) := by
  constructor
  · intro hin
    have hexec : (Machine.exec (Machine.guarded Echo.Audience.hear fun _ _ => True)
        ⟨List.replicate 4096 0, []⟩ (visitors 101)).map (fun a => a.keys.length) = some 101 := by
      decide +kernel
    rcases Machine.Run.exists_of_exec hexec with ⟨a, ha, hlen⟩
    have hbuf : (List.replicate 4096 (0 : UInt8)).length = Echo.maxBuf := List.length_replicate
    have hseated := (Echo.clientsInTable_iff hbuf (visitors 101)).mp hin
    have hle := hseated (visitors 101) a (List.prefix_refl _) ha
    rw [hlen] at hle
    exact absurd hle (by decide)
  · intro hin
    have hexec : (Machine.exec (Machine.guarded iterate fun m a => Admissible m a ∧ Forks m a)
        (init (List.replicate 256 0)) (hirings 101)).map (fun m => m.drivers.length) = some 101 := by
      decide +kernel
    rcases Machine.Run.exists_of_exec hexec with ⟨m, hrun, hlen⟩
    have hle := (hin (hirings 101) m (List.prefix_refl _) hrun).1
    rw [hlen] at hle
    exact absurd hle (by decide)

end EmbeddedCourse
