import Mathlib.Algebra.BigOperators.Group.Finset.Basic
import Mathlib.Algebra.Order.BigOperators.Group.Finset
import EmbeddedCourse.Lib.CString
import EmbeddedCourse.Lib.Streams
import EmbeddedCourse.Shells.Parsing
import EmbeddedCourse.Shells.Wiring

/-! # What a pipeline computes

The commands of a line run while `run_process` still makes and closes descriptors.
A command is a program on streams; it has the descriptors that its process has at
`execvp`. A read waits while the pipe is empty and somebody can still write to it, a
write waits while the pipe is full, and a write that nobody can read ends the process.
Whatever the order of all steps and the size of the pipes, the line is done after
finitely many of them, and what stands on the terminal is what the commands compute
one after the other. So a line that is typed means the composition of its commands.
-/

namespace EmbeddedCourse.Shells.Pipeline

open CString Descriptors Streams Wiring

/-! ## The open ends -/

/-- The standard descriptors of a process, and those in its array `pipes`. -/
def descriptors (p : Wiring.Process) : List ℕ := [0, 1, 2] ++ p.pipes.flatMap fun q => [q.1, q.2]

def has (p : Wiring.Process) (e : End) : Bool := (descriptors p).any fun fd => p.table fd = some e

/-- Some process has this end open. -/
def isOpen (w : Wiring.System) (e : End) : Bool :=
  has w.parent e || w.children.any fun c => has c.toProcess e

/-! ## The commands at work -/

/-- All processes, what has been written into each pipe and not been read, what is left of
the input and what stands on the terminal, and where each command is. -/
structure Job (σ : Type) where
  wiring : Wiring.System
  pipes : ℕ → Bytes
  stdin : Bytes
  stdout : Bytes
  commands : List σ

inductive Label where
  | setup (l : Wiring.Label)
  | run (i : ℕ)
deriving DecidableEq, Repr

namespace Job

variable {σ : Type}

def init (commands : List σ) (input : Bytes) : Job σ where
  wiring := Wiring.System.init
  pipes _ := []
  stdin := input
  stdout := []
  commands := commands

/-- Command `i` asks for a byte of its standard input. -/
def read (s : Job σ) (i : ℕ) (stdin : Option End) (next : Option UInt8 → σ) : Option (Job σ) :=
  match stdin with
  | none =>
    some { s with stdin := s.stdin.tail, commands := s.commands.set i (next s.stdin.head?) }
  | some (.read j) =>
    if s.pipes j = [] ∧ isOpen s.wiring (.write j) = true then none
    else
      some { s with
        pipes := Function.update s.pipes j (s.pipes j).tail
        commands := s.commands.set i (next (s.pipes j).head?) }
  | some (.write _) => none

/-- The process of command `i` ends. -/
def exit (s : Job σ) (i : ℕ) : Option (Job σ) :=
  (s.wiring.step s.commands.length (.exit i)).map fun w => { s with wiring := w }

/-- Command `i` writes a byte to its standard output. -/
def write (capacity : ℕ) (s : Job σ) (i : ℕ) (stdout : Option End) (b : UInt8) (q : σ) :
    Option (Job σ) :=
  match stdout with
  | none => some { s with stdout := s.stdout ++ [b], commands := s.commands.set i q }
  | some (.write j) =>
    if isOpen s.wiring (.read j) = true then
      if (s.pipes j).length < capacity then
        some { s with
          pipes := Function.update s.pipes j (s.pipes j ++ [b])
          commands := s.commands.set i q }
      else none
    else
      -- `SIGPIPE`
      s.exit i
  | some (.read _) => none

def run (act : σ → Act σ UInt8) (capacity : ℕ) (s : Job σ) (i : ℕ) (c : Child) (q : σ) :
    Option (Job σ) :=
  match act q with
  | .read next => s.read i (c.table 0) next
  | .write b q => s.write capacity i (c.table 1) b q
  | .exit => s.exit i

def step (act : σ → Act σ UInt8) (capacity : ℕ) (s : Job σ) : Label → Option (Job σ)
  | .setup (.exit _) => none
  | .setup l => (s.wiring.step s.commands.length l).map fun w => { s with wiring := w }
  | .run i =>
    s.wiring.children[i]?.bind fun c =>
      if c.pos = .exec then s.commands[i]?.bind fun q => s.run act capacity i c q else none

/-- `pipe` returns descriptors that are not in use. -/
def Fresh (s : Job σ) : Label → Prop
  | .setup l => s.wiring.Fresh l
  | .run _ => True

instance : ∀ (s : Job σ) (l : Label), Decidable (s.Fresh l)
  | s, .setup l => inferInstanceAs (Decidable (s.wiring.Fresh l))
  | _, .run _ => .isTrue trivial

/-- `run_process` returns. -/
structure Finished (s : Job σ) : Prop where
  waiting : s.wiring.pos = .waiting
  exited : ∀ c ∈ s.wiring.children, c.pos = .exited

end Job

/-- The runs of a line of commands. -/
abbrev PipelineRun {σ : Type} (act : σ → Act σ UInt8) (capacity : ℕ) (commands : List σ) (input : Bytes)
    (ls : List Label) (s : Job σ) : Prop :=
  Machine.Run (Job.step act capacity) Job.Fresh (Job.init commands input) ls s

/-! ## Which ends are open -/

/-- The process of command `i` has not ended; it may not have been forked yet. -/
def Live (w : Wiring.System) (i : ℕ) : Prop := ∀ c, w.children[i]? = some c → c.pos ≠ .exited

section

variable {n : ℕ} {w w' : Wiring.System}

theorem has_of_table {p : Wiring.Process} {fd : ℕ} {e : End} (hfd : fd ∈ descriptors p)
    (h : p.table fd = some e) : has p e = true :=
  List.any_eq_true.mpr ⟨fd, hfd, by simpa using h⟩

theorem has_of_names {p : Wiring.Process} {W : ℕ → End → Prop} {fd : ℕ} {e : End}
    (h : Descriptors.Holds p.table W p.pipes 0) (hnames : Names p.pipes 0 fd e) : has p e = true := by
  apply has_of_table _ ((h fd e).mpr (Or.inr hnames))
  rcases hnames with ⟨j, q, -, hq, hcase⟩
  have hmem : fd ∈ p.pipes.flatMap fun q => [q.1, q.2] := by
    refine List.mem_flatMap.mpr ⟨q, List.mem_of_getElem? hq, ?_⟩
    rcases hcase with ⟨rfl, -⟩ | ⟨rfl, -⟩ <;> simp
  exact List.mem_append_right _ hmem

theorem isOpen_of_child {i : ℕ} {c : Child} {e : End} (hc : w.children[i]? = some c)
    (h : has c.toProcess e = true) : isOpen w e = true := by
  rw [isOpen, Bool.or_eq_true]
  exact Or.inr (List.any_eq_true.mpr ⟨c, List.mem_of_getElem? hc, h⟩)

/-- An end that is open is open in some process. -/
theorem exists_of_isOpen {e : End} (h : isOpen w e = true) : ∃ p fd, w.tableOf p fd = some e := by
  rw [isOpen, Bool.or_eq_true] at h
  rcases h with h | h
  · rcases List.any_eq_true.mp h with ⟨fd, -, hfd⟩
    exact ⟨none, fd, by simpa [Wiring.System.tableOf] using hfd⟩
  · rcases List.any_eq_true.mp h with ⟨c, hc, hhas⟩
    rcases List.mem_iff_getElem?.mp hc with ⟨i, hi⟩
    rcases List.any_eq_true.mp hhas with ⟨fd, -, hfd⟩
    exact ⟨some i, fd, by simpa [Wiring.System.tableOf, hi] using hfd⟩

/-- Until its process ends, command `i` can write into the pipe behind it. -/
theorem write_isOpen (h : w.Wired n) {i : ℕ} {c : Child} (hc : w.children[i]? = some c) (hi : i < n - 1)
    (hlive : c.pos ≠ .exited) : isOpen w (.write i) = true := by
  apply isOpen_of_child hc
  have hends := h.child i c hc
  have hlen := (h.pipes c (List.mem_of_getElem? hc)).2
  have hpipe : c.pipes[i]? = some c.pipes[i] := List.getElem?_eq_getElem (by omega)
  have hout : Output n i 1 (.write i) := ⟨hi, rfl, rfl⟩
  unfold Child.Ends at hends
  cases hpos : c.pos with
  | stdin | stdout =>
    rw [hpos] at hends
    exact has_of_names hends (names_write hpipe)
  | closing k =>
    rw [hpos] at hends
    exact has_of_table (by simp [descriptors]) ((hends 1 _).mpr (Or.inl (Or.inr hout)))
  | exec =>
    rw [hpos] at hends
    exact has_of_table (by simp [descriptors]) ((hends 1 _).mpr (Or.inr hout))
  | exited => exact absurd hpos hlive

/-- Until its process ends, command `i + 1` can read from the pipe before it; as long as it
is not forked, its parent can. -/
theorem read_isOpen (h : w.Wired n) {i : ℕ} (hi : i < n - 1) (hlive : Live w (i + 1))
    (hsome : i < w.children.length) : isOpen w (.read i) = true := by
  cases hc : w.children[i + 1]? with
  -- the command is not forked yet, and its parent has all ends open
  | none =>
    have hparent := h.parent
    have hfew := List.getElem?_eq_none_iff.mp hc
    unfold Wiring.System.Ends at hparent
    cases hpos : w.pos with
    | piping =>
      rw [hpos] at hparent
      rw [hparent.2.2] at hsome
      cases hsome
    | forking =>
      rw [hpos] at hparent
      have hpipe : w.parent.pipes[i]? = some w.parent.pipes[i] := List.getElem?_eq_getElem (by omega)
      rw [isOpen, Bool.or_eq_true]
      exact Or.inl (has_of_names hparent.1 (names_read hpipe))
    | closing k | waiting =>
      rw [hpos] at hparent
      have hall := hparent.2.2
      omega
  | some c =>
    -- it has the end as it came from its parent, or as its standard input
    apply isOpen_of_child hc
    have hends := h.child (i + 1) c hc
    have hlen := (h.pipes c (List.mem_of_getElem? hc)).2
    have hpipe : c.pipes[i]? = some c.pipes[i] := List.getElem?_eq_getElem (by omega)
    have hin : Input (i + 1) 0 (.read i) := ⟨Nat.succ_pos i, rfl, rfl⟩
    unfold Child.Ends at hends
    cases hpos : c.pos with
    | stdin | stdout =>
      rw [hpos] at hends
      exact has_of_names hends (names_read hpipe)
    | closing k =>
      rw [hpos] at hends
      exact has_of_table (by simp [descriptors]) ((hends 0 _).mpr (Or.inl (Or.inl hin)))
    | exec =>
      rw [hpos] at hends
      exact has_of_table (by simp [descriptors]) ((hends 0 _).mpr (Or.inl hin))
    | exited => exact absurd hpos (hlive c hc)

/-- The standard input of command `i` at work. -/
theorem table_zero (h : w.Wired n) {i : ℕ} {c : Child} (hc : w.children[i]? = some c)
    (hpos : c.pos = .exec) : c.table 0 = if i = 0 then none else some (.read (i - 1)) := by
  have hiff := h.exec hc hpos 0
  split_ifs with hi
  · cases htable : c.table 0 with
    | none => rfl
    | some e =>
      rcases (hiff e).mp htable with ⟨h0, -⟩ | ⟨-, h1, -⟩
      · omega
      · cases h1
  · exact (hiff _).mpr (Or.inl ⟨Nat.pos_of_ne_zero hi, rfl, rfl⟩)

/-- Its standard output. -/
theorem table_one (h : w.Wired n) {i : ℕ} {c : Child} (hc : w.children[i]? = some c)
    (hpos : c.pos = .exec) : c.table 1 = if i < n - 1 then some (.write i) else none := by
  have hiff := h.exec hc hpos 1
  split_ifs with hi
  · exact (hiff _).mpr (Or.inr ⟨hi, rfl, rfl⟩)
  · cases htable : c.table 1 with
    | none => rfl
    | some e =>
      rcases (hiff e).mp htable with ⟨-, h0, -⟩ | ⟨hlt, -⟩
      · cases h0
      · exact absurd hlt hi

end

/-! ## What is left to do before the commands run -/

/-- The steps of a child up to `execvp`, at most. -/
def childRank (n : ℕ) (c : Child) : ℕ :=
  match c.pos with
  | .stdin => n + 3
  | .stdout => n + 2
  | .closing k => n - 1 - k + 1
  | .exec | .exited => 0

/-- The steps of the parent up to `wait`, with those of the children still to be forked. -/
def parentRank (n : ℕ) (w : Wiring.System) : ℕ :=
  match w.pos with
  | .piping => n - 1 - w.parent.pipes.length + 1 + (n * (n + 4) + n + 2)
  | .forking => (n - w.children.length) * (n + 4) + n + 2
  | .closing i => n - 1 - i + 1
  | .waiting => 0

def rank (n : ℕ) (w : Wiring.System) : ℕ := parentRank n w + (w.children.map (childRank n)).sum

section

variable {n : ℕ} {w w' : Wiring.System}

/-- A step of a child brings it closer to `execvp`. -/
theorem child_step {i : ℕ} {c c' : Child} (h : c.step n i = some c') :
    childRank n c' < childRank n c ∧ c'.pos ≠ .exited := by
  unfold Child.step at h
  unfold childRank
  cases hpos : c.pos with
  | stdin =>
    rw [hpos] at h
    dsimp only at h
    split_ifs at h with hi
    · rcases Option.bind_eq_some_iff.mp h with ⟨p, -, h⟩
      rcases Option.map_eq_some_iff.mp h with ⟨t, -, rfl⟩
      exact ⟨Nat.lt_succ_self _, by simp⟩
    · obtain rfl := Option.some.inj h
      exact ⟨Nat.lt_succ_self _, by simp⟩
  | stdout =>
    rw [hpos] at h
    dsimp only at h
    split_ifs at h with hi
    · rcases Option.bind_eq_some_iff.mp h with ⟨p, -, h⟩
      rcases Option.map_eq_some_iff.mp h with ⟨t, -, rfl⟩
      dsimp only
      exact ⟨by omega, by simp⟩
    · obtain rfl := Option.some.inj h
      dsimp only
      exact ⟨by omega, by simp⟩
  | closing k =>
    rw [hpos] at h
    dsimp only at h
    split_ifs at h with hk
    · rcases Option.map_eq_some_iff.mp h with ⟨p, -, rfl⟩
      dsimp only
      exact ⟨by omega, by simp⟩
    · obtain rfl := Option.some.inj h
      exact ⟨Nat.succ_pos _, by simp⟩
  | exec | exited => simp [hpos] at h

theorem parentRank_stepParent (h : w.stepParent n = some w') : rank n w' < rank n w := by
  unfold Wiring.System.stepParent at h
  unfold rank parentRank
  cases hpos : w.pos with
  | piping =>
    rw [hpos] at h
    dsimp only at h
    split_ifs at h
    obtain rfl := Option.some.inj h
    have hle : (n - w.children.length) * (n + 4) ≤ n * (n + 4) := Nat.mul_le_mul_right _ (Nat.sub_le _ _)
    dsimp only
    omega
  | forking =>
    rw [hpos] at h
    dsimp only at h
    split_ifs at h with hroom
    · obtain rfl := Option.some.inj h
      -- the child takes over what the parent has counted for it
      have hone : n - w.children.length = n - (w.children.length + 1) + 1 := by omega
      simp only [hone, Nat.add_mul, List.length_append, List.length_singleton, List.map_append,
        List.map_singleton, List.sum_append, List.sum_singleton, childRank]
      omega
    · obtain rfl := Option.some.inj h
      dsimp only
      omega
  | closing i =>
    rw [hpos] at h
    dsimp only at h
    split_ifs at h with hi
    · rcases Option.map_eq_some_iff.mp h with ⟨p, -, rfl⟩
      dsimp only
      omega
    · obtain rfl := Option.some.inj h
      dsimp only
      omega
  | waiting =>
    rw [hpos] at h
    cases h

/-- Every step that makes, copies or closes descriptors brings all processes closer to the
point where there is nothing left to do. -/
theorem rank_step {l : Wiring.Label} (hl : ∀ i, l ≠ .exit i) (h : w.step n l = some w') :
    rank n w' < rank n w := by
  cases l with
  | pipe r q =>
    unfold Wiring.System.step at h
    dsimp only at h
    split_ifs at h with hguard
    obtain rfl := Option.some.inj h
    unfold rank parentRank
    simp only [hguard.1, List.length_append, List.length_singleton]
    omega
  | parent => exact parentRank_stepParent h
  | child i =>
    rcases Option.bind_eq_some_iff.mp h with ⟨c, hc, h⟩
    rcases Option.map_eq_some_iff.mp h with ⟨c', hstep, rfl⟩
    have hlt := (child_step hstep).1
    have hsum := Cells.sum_map_set (childRank n) hc c'
    -- the step of a child changes nothing of its parent
    have hsame : parentRank n { w with children := w.children.set i c' } = parentRank n w := by
      simp [parentRank]
    rw [rank, rank, hsame]
    dsimp only
    omega
  | exit i => exact absurd rfl (hl i)

/-- The process of a command at `execvp` can end, and then it has ended. -/
theorem exit_spec {i : ℕ} {c : Child} (hc : w.children[i]? = some c) (hpos : c.pos = .exec) :
    ∃ w', w.step n (.exit i) = some w' ∧ rank n w' = rank n w ∧ ¬ Live w' i ∧
      (∀ j, j ≠ i → (Live w' j ↔ Live w j)) := by
  have hlt := (List.getElem?_eq_some_iff.mp hc).1
  have hexit : c.exit = some { c with table := fun _ => none, pos := .exited } := if_pos hpos
  refine ⟨_, by rw [Wiring.System.step, hc, Option.bind_some, hexit, Option.map_some], ?_, ?_, ?_⟩
  · have hsum := Cells.sum_map_set (childRank n) hc { c with table := fun _ => none, pos := .exited }
    have hzero : childRank n c = 0 := by simp [childRank, hpos]
    have hzero' : childRank n { c with table := fun _ => none, pos := .exited } = 0 := rfl
    rw [hzero, hzero'] at hsum
    simp only [rank, parentRank, List.length_set]
    omega
  · intro hlive
    exact hlive _ (List.getElem?_set_self hlt) rfl
  · intro j hj
    unfold Live
    dsimp only
    rw [List.getElem?_set_ne (Ne.symm hj)]

/-- Nobody ends in any other step. -/
theorem live_step {l : Wiring.Label} (hl : ∀ i, l ≠ .exit i) (h : w.step n l = some w') (i : ℕ) :
    Live w' i ↔ Live w i := by
  cases l with
  | pipe r q =>
    unfold Wiring.System.step at h
    dsimp only at h
    split_ifs at h
    obtain rfl := Option.some.inj h
    rfl
  | parent =>
    have h : w.stepParent n = some w' := h
    unfold Wiring.System.stepParent at h
    cases hpos : w.pos with
    | piping =>
      rw [hpos] at h
      dsimp only at h
      split_ifs at h
      obtain rfl := Option.some.inj h
      rfl
    | forking =>
      rw [hpos] at h
      dsimp only at h
      split_ifs at h
      · obtain rfl := Option.some.inj h
        -- the new child has only begun
        rcases Nat.lt_trichotomy i w.children.length with hlt | rfl | hgt
        · unfold Live
          dsimp only
          rw [List.getElem?_append_left hlt]
        · simp [Live]
        · have hnone : w.children[i]? = none := List.getElem?_eq_none (Nat.le_of_lt hgt)
          have hnone' : (w.children ++ [{ w.parent with pos := .stdin }])[i]? = none :=
            List.getElem?_eq_none (by rw [List.length_append, List.length_singleton]; exact hgt)
          simp [Live, hnone, hnone']
      · obtain rfl := Option.some.inj h
        rfl
    | closing k =>
      rw [hpos] at h
      dsimp only at h
      split_ifs at h
      · rcases Option.map_eq_some_iff.mp h with ⟨p, -, rfl⟩
        rfl
      · obtain rfl := Option.some.inj h
        rfl
    | waiting =>
      rw [hpos] at h
      cases h
  | child j =>
    rcases Option.bind_eq_some_iff.mp h with ⟨c, hc, h⟩
    rcases Option.map_eq_some_iff.mp h with ⟨c', hstep, rfl⟩
    rcases child_step hstep with ⟨hrank, hpos'⟩
    have hpos : c.pos ≠ .exited := by
      intro hpos
      simp [childRank, hpos] at hrank
    by_cases hij : j = i
    · subst hij
      have hlt := (List.getElem?_eq_some_iff.mp hc).1
      apply iff_of_true
      · intro d hd
        rw [List.getElem?_set_self hlt] at hd
        obtain rfl := Option.some.inj hd
        exact hpos'
      · intro d hd
        obtain rfl := Option.some.inj (hc.symm.trans hd)
        exact hpos
    · unfold Live
      dsimp only
      rw [List.getElem?_set_ne hij]
  | exit j => exact absurd rfl (hl j)

end

/-! ## What is still to flow -/

namespace Job

variable {σ : Type} {act : σ → Act σ UInt8} {capacity n : ℕ} {output : Bytes} {s s' : Job σ}
  {I O : ℕ → Bytes} {K : ℕ → ℕ}

/-- Command `i` has the input `I i` and the output `O i` still before it, and `K i` steps. What
it reads is in the pipe before it or is still to be written there; nothing of the output
is lost. -/
structure Flows (act : σ → Act σ UInt8) (n : ℕ) (output : Bytes) (s : Job σ) (I O : ℕ → Bytes)
    (K : ℕ → ℕ) : Prop where
  length : s.commands.length = n
  wiring : Machine.Reach (Wiring.System.step n) Wiring.System.Fresh Wiring.System.init s.wiring
  runs : ∀ i q, s.commands[i]? = some q → Live s.wiring i → Runs act q (I i) (O i) (K i)
  stdin : Live s.wiring 0 → I 0 = s.stdin
  link : ∀ i, i + 1 < n → Live s.wiring (i + 1) → I (i + 1) = s.pipes i ++ O i
  ended : ∀ i, i < n → ¬ Live s.wiring i → O i = []
  stdout : s.stdout ++ O (n - 1) = output

/-- The steps that are left, at most. -/
def left (n : ℕ) (s : Job σ) (K : ℕ → ℕ) : ℕ := rank n s.wiring + ∑ i ∈ Finset.range n, K i

theorem Flows.wired (h : s.Flows act n output I O K) : s.wiring.Wired n := by
  rcases h.wiring with ⟨ls, hrun⟩
  exact Wiring.System.wired_of_run hrun

theorem left_lt {i : ℕ} (hi : i < n) {K' : ℕ} (hw : rank n s'.wiring = rank n s.wiring) (hlt : K' < K i) :
    left n s' (Function.update K i K') < left n s K := by
  have hsum : ∑ j ∈ Finset.range n, Function.update K i K' j < ∑ j ∈ Finset.range n, K j := by
    apply Finset.sum_lt_sum
    · intro j _
      by_cases hj : j = i
      · rw [hj, Function.update_self]
        exact Nat.le_of_lt hlt
      · rw [Function.update_of_ne hj]
    · exact ⟨i, Finset.mem_range.mpr hi, by rwa [Function.update_self]⟩
  rw [left, left, hw]
  omega

theorem step_setup {l : Wiring.Label} (hl : ∀ i, l ≠ .exit i) :
    s.step act capacity (.setup l) =
      (s.wiring.step s.commands.length l).map fun w => { s with wiring := w } := by
  cases l with
  | exit i => exact absurd rfl (hl i)
  | pipe | parent | child => rfl

/-- A step that makes, copies or closes descriptors. -/
theorem Flows.setup (h : s.Flows act n output I O K) {l : Wiring.Label} (hl : ∀ i, l ≠ .exit i)
    (hfresh : s.wiring.Fresh l) {w : Wiring.System} (hs : s.wiring.step n l = some w) :
    Flows act n output { s with wiring := w } I O K ∧ left n { s with wiring := w } K < left n s K := by
  have hlive := live_step hl hs
  constructor
  · refine ⟨h.length, ?_, ?_, ?_, ?_, ?_, h.stdout⟩
    · rcases h.wiring with ⟨ls, hrun⟩
      exact ⟨_, hrun.step hfresh hs⟩
    · intro i q hq hi
      exact h.runs i q hq ((hlive i).mp hi)
    · intro hi
      exact h.stdin ((hlive 0).mp hi)
    · intro i hi hl
      exact h.link i hi ((hlive (i + 1)).mp hl)
    · intro i hi hl
      exact h.ended i hi fun hold => hl ((hlive i).mpr hold)
  · exact Nat.add_lt_add_right (rank_step hl hs) _

/-- A command takes a step of its own: what has been read is off its input, and what has been
written is off its output. -/
theorem Flows.advance (h : s.Flows act n output I O K) {i k : ℕ} (hi : i < n) {q : σ}
    {input rest stdin stdout : Bytes} {pipes : ℕ → Bytes} (hk : K i = k + 1)
    (hruns : Runs act q input rest k)
    (hstdin : Live s.wiring 0 → Function.update I i input 0 = stdin)
    (hlink : ∀ j, j + 1 < n → Live s.wiring (j + 1) →
      Function.update I i input (j + 1) = pipes j ++ Function.update O i rest j)
    (hlive : Live s.wiring i) (hstdout : stdout ++ Function.update O i rest (n - 1) = output) :
    Flows act n output
        { s with pipes := pipes, stdin := stdin, stdout := stdout, commands := s.commands.set i q }
        (Function.update I i input) (Function.update O i rest) (Function.update K i k) ∧
      left n { s with pipes := pipes, stdin := stdin, stdout := stdout, commands := s.commands.set i q }
        (Function.update K i k) < left n s K := by
  constructor
  · refine ⟨?_, h.wiring, ?_, hstdin, hlink, ?_, hstdout⟩
    · rw [List.length_set]
      exact h.length
    · intro j p hp hj
      by_cases hij : j = i
      · subst hij
        rw [List.getElem?_set_self (Nat.lt_of_lt_of_eq hi h.length.symm)] at hp
        obtain rfl := Option.some.inj hp
        rw [Function.update_self, Function.update_self, Function.update_self]
        exact hruns
      · -- the other commands run on as they did
        rw [List.getElem?_set_ne (Ne.symm hij)] at hp
        rw [Function.update_of_ne hij, Function.update_of_ne hij, Function.update_of_ne hij]
        exact h.runs j p hp hj
    · intro j hj hdead
      -- the command that takes the step has not ended
      have hij : j ≠ i := fun heq => hdead (heq ▸ hlive)
      rw [Function.update_of_ne hij]
      exact h.ended j hj hdead
  · exact left_lt hi rfl (by omega)

/-- The process of a command ends: nothing more comes from it. If there is output left, it
is not the last one, and nobody waits for what it writes. -/
theorem Flows.exit (h : s.Flows act n output I O K) {i : ℕ} (hi : i < n) {c : Child}
    (hc : s.wiring.children[i]? = some c) (hpos : c.pos = .exec) (hk : 0 < K i)
    (hrest : O i = [] ∨ i < n - 1 ∧ ¬ Live s.wiring (i + 1)) :
    ∃ s', s.exit i = some s' ∧ Flows act n output s' I (Function.update O i []) (Function.update K i 0) ∧
      left n s' (Function.update K i 0) < left n s K := by
  rcases exit_spec (n := n) hc hpos with ⟨w, hw, hrank, hdead, hothers⟩
  -- who runs behind the step has run before it
  have holder : ∀ j, Live w j → Live s.wiring j := by
    intro j hj
    by_cases hij : j = i
    · exact absurd (hij ▸ hj) hdead
    · exact (hothers j hij).mp hj
  refine ⟨{ s with wiring := w }, ?_, ?_, left_lt hi hrank hk⟩
  · rw [Job.exit, h.length, hw, Option.map_some]
  · refine ⟨h.length, ?_, ?_, ?_, ?_, ?_, ?_⟩
    · rcases h.wiring with ⟨ls, hrun⟩
      have hfresh : s.wiring.Fresh (.exit i) := trivial
      exact ⟨_, hrun.step hfresh hw⟩
    · intro j p hp hj
      have hij : j ≠ i := fun heq => hdead (heq ▸ hj)
      rw [Function.update_of_ne hij, Function.update_of_ne hij]
      exact h.runs j p hp (holder j hj)
    · intro hj
      exact h.stdin (holder 0 hj)
    · intro j hj hlive
      -- what command `j` has left to write is what command `j + 1` waits for
      have hold := h.link j hj (holder (j + 1) hlive)
      by_cases hij : j = i
      · subst hij
        rcases hrest with hnil | ⟨-, hgone⟩
        · rw [Function.update_self, hold, hnil]
        · exact absurd (holder (j + 1) hlive) hgone
      · rw [Function.update_of_ne hij]
        exact hold
    · intro j hj hj'
      by_cases hij : j = i
      · rw [hij, Function.update_self]
      · rw [Function.update_of_ne hij]
        exact h.ended j hj fun hlive => hj' ((hothers j hij).mpr hlive)
    · -- the last command only ends when it has written everything
      by_cases hij : n - 1 = i
      · rcases hrest with hnil | ⟨hlt, -⟩
        · have hout := h.stdout
          rw [hij, hnil] at hout
          rw [hij, Function.update_self]
          exact hout
        · omega
      · rw [Function.update_of_ne hij]
        exact h.stdout

/-- A read: the end of a pipe is seen only when all that was to come has come. -/
theorem Flows.read (h : s.Flows act n output I O K) {i k : ℕ} (hi : i < n) {q : σ} {c : Child}
    (hq : s.commands[i]? = some q) (hc : s.wiring.children[i]? = some c) (hpos : c.pos = .exec)
    (hk : K i = k + 1) {next : Option UInt8 → σ} (hact : act q = .read next)
    (hs : s.read i (c.table 0) next = some s') :
    ∃ I' O' K', Flows act n output s' I' O' K' ∧ left n s' K' < left n s K := by
  have hlive : Live s.wiring i := by
    intro d hd
    obtain rfl := Option.some.inj (hc.symm.trans hd)
    rw [hpos]
    exact ChildAt.noConfusion
  have hrun := h.runs i q hq hlive
  rw [hk] at hrun
  have hrest := hrun.of_read hact
  have hwrites : Function.update O i (O i) = O := Function.update_eq_self i O
  rw [table_zero h.wired hc hpos] at hs
  unfold Job.read at hs
  split_ifs at hs with h0
  · -- the first command reads what was typed
    subst h0
    dsimp only at hs
    obtain rfl := Option.some.inj hs
    have hin := h.stdin hlive
    rw [hin] at hrest
    refine ⟨_, _, _, h.advance hi hk hrest ?_ ?_ hlive ?_⟩
    · intro _
      rw [Function.update_self]
    · intro j hj hl
      rw [hwrites, Function.update_of_ne (Nat.succ_ne_zero j)]
      exact h.link j hj hl
    · rw [hwrites]
      exact h.stdout
  · obtain ⟨j, rfl⟩ := Nat.exists_eq_succ_of_ne_zero h0
    rw [Nat.succ_eq_add_one, Nat.add_sub_cancel] at hs
    dsimp only at hs
    split_ifs at hs with hwait
    obtain rfl := Option.some.inj hs
    have hj : j < n - 1 := by omega
    have hin := h.link j hi hlive
    -- an empty pipe is read only when its writer has ended
    have hends : s.pipes j = [] → O j = [] := by
      intro hempty
      apply h.ended j (by omega)
      intro hwriter
      have hlt := (List.getElem?_eq_some_iff.mp hc).1
      have hprev : s.wiring.children[j]? = some s.wiring.children[j] := List.getElem?_eq_getElem (by omega)
      exact hwait ⟨hempty, write_isOpen h.wired hprev hj (hwriter _ hprev)⟩
    -- what is read is the head of the input, or its end
    have hhead : (I (j + 1)).head? = (s.pipes j).head? := by
      rw [hin]
      cases hpipe : s.pipes j with
      | nil => rw [hends hpipe]; rfl
      | cons b rest => rfl
    have htail : (I (j + 1)).tail = (s.pipes j).tail ++ O j := by
      rw [hin]
      cases hpipe : s.pipes j with
      | nil => rw [hends hpipe]; rfl
      | cons b rest => rfl
    rw [hhead] at hrest
    refine ⟨_, _, _, h.advance hi hk hrest ?_ ?_ hlive ?_⟩
    · intro hl
      rw [Function.update_of_ne (Nat.succ_ne_zero j).symm]
      exact h.stdin hl
    · intro m hm hl
      rw [hwrites]
      by_cases hmj : m = j
      · rw [hmj, Function.update_self, Function.update_self]
        exact htail
      · rw [Function.update_of_ne (by omega), Function.update_of_ne hmj]
        exact h.link m hm hl
    · rw [hwrites]
      exact h.stdout

/-- A write: what goes into a pipe goes to the command behind it, as long as that has not
ended. -/
theorem Flows.write (h : s.Flows act n output I O K) {i k : ℕ} (hi : i < n) {q q' : σ} {b : UInt8}
    {c : Child} (hq : s.commands[i]? = some q) (hc : s.wiring.children[i]? = some c)
    (hpos : c.pos = .exec) (hk : K i = k + 1) (hact : act q = .write b q')
    (hs : s.write capacity i (c.table 1) b q' = some s') :
    ∃ I' O' K', Flows act n output s' I' O' K' ∧ left n s' K' < left n s K := by
  have hlive : Live s.wiring i := by
    intro d hd
    obtain rfl := Option.some.inj (hc.symm.trans hd)
    rw [hpos]
    exact ChildAt.noConfusion
  have hrun := h.runs i q hq hlive
  rw [hk] at hrun
  rcases hrun.of_write hact with ⟨rest, hO, hrest⟩
  have hreads : Function.update I i (I i) = I := Function.update_eq_self i I
  have hstdin : Live s.wiring 0 → Function.update I i (I i) 0 = s.stdin := by
    rw [hreads]
    exact h.stdin
  rw [table_one h.wired hc hpos] at hs
  unfold Job.write at hs
  split_ifs at hs with hlast
  · dsimp only at hs
    -- the pipe has a reader and room, or nobody reads it any more
    split_ifs at hs with hopen hroom
    · obtain rfl := Option.some.inj hs
      refine ⟨_, _, _, h.advance hi hk hrest hstdin ?_ hlive ?_⟩
      · intro m hm hl
        rw [hreads, h.link m hm hl]
        by_cases hmi : m = i
        · subst hmi
          rw [Function.update_self, Function.update_self, hO, List.append_assoc, List.singleton_append]
        · rw [Function.update_of_ne hmi, Function.update_of_ne hmi]
      · rw [Function.update_of_ne (by omega)]
        exact h.stdout
    · have hgone : ¬ Live s.wiring (i + 1) := fun hl =>
        hopen (read_isOpen h.wired hlast hl (List.getElem?_eq_some_iff.mp hc).1)
      rcases h.exit hi hc hpos (by omega) (Or.inr ⟨hlast, hgone⟩) with ⟨t, ht, hflows, hlt⟩
      obtain rfl := Option.some.inj (ht.symm.trans hs)
      exact ⟨_, _, _, hflows, hlt⟩
  · dsimp only at hs
    obtain rfl := Option.some.inj hs
    obtain rfl : i = n - 1 := by omega
    refine ⟨_, _, _, h.advance hi hk hrest hstdin ?_ hlive ?_⟩
    · intro m hm hl
      rw [hreads, h.link m hm hl, Function.update_of_ne (by omega)]
    · -- the last command writes to the terminal
      have hout := h.stdout
      rw [hO] at hout
      rw [Function.update_self, List.append_assoc]
      exact hout

/-- Every step keeps what still flows, and takes at least one off the steps that are left. -/
theorem Flows.step (h : s.Flows act n output I O K) {l : Label} (hfresh : s.Fresh l)
    (hs : s.step act capacity l = some s') :
    ∃ I' O' K', Flows act n output s' I' O' K' ∧ left n s' K' < left n s K := by
  cases l with
  | setup l =>
    have hl : ∀ i, l ≠ .exit i := by
      rintro i rfl
      cases hs
    rw [step_setup hl, h.length] at hs
    rcases Option.map_eq_some_iff.mp hs with ⟨w, hw, rfl⟩
    exact ⟨I, O, K, h.setup hl hfresh hw⟩
  | run i =>
    rcases Option.bind_eq_some_iff.mp hs with ⟨c, hc, hs⟩
    split_ifs at hs with hpos
    rcases Option.bind_eq_some_iff.mp hs with ⟨q, hq, hs⟩
    have hi : i < n := h.length ▸ (List.getElem?_eq_some_iff.mp hq).1
    -- a command that takes a step has not ended
    have hlive : Live s.wiring i := by
      intro d hd
      obtain rfl := Option.some.inj (hc.symm.trans hd)
      rw [hpos]
      exact ChildAt.noConfusion
    have hrun := h.runs i q hq hlive
    obtain ⟨k, hk⟩ : ∃ k, K i = k + 1 := ⟨K i - 1, by have := hrun.pos; omega⟩
    unfold Job.run at hs
    cases hact : act q with
    | read next =>
      rw [hact] at hs
      exact h.read hi hq hc hpos hk hact hs
    | write b q' =>
      rw [hact] at hs
      exact h.write hi hq hc hpos hk hact hs
    | exit =>
      rw [hact] at hs
      rcases h.exit hi hc hpos hrun.pos (Or.inl (hrun.of_exit hact)) with ⟨t, ht, hflows, hlt⟩
      obtain rfl := Option.some.inj (ht.symm.trans hs)
      exact ⟨_, _, _, hflows, hlt⟩

/-- At the start every command has all of its input and output before it. -/
theorem Flows.init {commands : List σ} {input : Bytes} (hne : commands ≠ [])
    (h : Composes act commands input output) :
    ∃ I O K, Flows act commands.length output (Job.init commands input) I O K := by
  rcases h.exists_runs with ⟨streams, count, hfirst, hlast, hruns⟩
  have hpos := List.length_pos_of_ne_nil hne
  refine ⟨streams, fun i => streams (i + 1), count, rfl, ⟨[], .init⟩, ?_, ?_, ?_, ?_, ?_⟩
  · exact fun i q hq _ => hruns i q hq
  · exact fun _ => hfirst
  · exact fun i _ _ => rfl
  · intro i _ hdead
    refine absurd ?_ hdead
    intro c hc
    cases hc
  · have hsucc : commands.length - 1 + 1 = commands.length := by omega
    show [] ++ streams (commands.length - 1 + 1) = output
    rw [hsucc, hlast, List.nil_append]

/-! ## Nobody waits for ever -/

theorem step_run {i : ℕ} {c : Child} {q : σ} (hc : s.wiring.children[i]? = some c)
    (hpos : c.pos = .exec) (hq : s.commands[i]? = some q) :
    s.step act capacity (.run i) = s.run act capacity i c q := by
  rw [Job.step, hc, Option.bind_some, if_pos hpos, hq, Option.bind_some]

theorem exit_isSome {i : ℕ} {c : Child} (hc : s.wiring.children[i]? = some c) (hpos : c.pos = .exec) :
    (s.exit i).isSome := by
  rcases exit_spec (n := s.commands.length) hc hpos with ⟨w, hw, -⟩
  rw [Job.exit, hw]
  rfl

theorem Flows.command (h : s.Flows act n output I O K) {i : ℕ} {c : Child}
    (hc : s.wiring.children[i]? = some c) : i < n ∧ ∃ q, s.commands[i]? = some q := by
  have hi : i < n := Nat.lt_of_lt_of_le (List.getElem?_eq_some_iff.mp hc).1 h.wired.length_children_le
  exact ⟨hi, _, List.getElem?_eq_getElem (Nat.lt_of_lt_of_eq hi h.length.symm)⟩

/-- A command that is at a write can take its step, or somebody behind it can: a pipe that
is full is read by a command that has not ended, and the last one writes to the terminal. -/
theorem Flows.exists_step_of_write (hcap : 0 < capacity) (h : s.Flows act n output I O K)
    (hstarted : s.wiring.Started) (m : ℕ) {i : ℕ} (him : i + m = n) {c : Child}
    (hc : s.wiring.children[i]? = some c) (hpos : c.pos = .exec) {q q' : σ} {b : UInt8}
    (hq : s.commands[i]? = some q) (hact : act q = .write b q') :
    ∃ j, (s.step act capacity (.run j)).isSome := by
  induction m generalizing i c q q' b with
  | zero =>
    have hi := (h.command hc).1
    omega
  | succ m ih =>
    have hown : s.step act capacity (.run i) = s.write capacity i (c.table 1) b q' := by
      rw [step_run hc hpos hq, Job.run, hact]
    rw [table_one h.wired hc hpos] at hown
    unfold Job.write at hown
    split_ifs at hown with hlast
    · dsimp only at hown
      split_ifs at hown with hopen hroom
      · exact ⟨i, by rw [hown]; rfl⟩
      · -- the pipe is full, and the command behind it is there
        rcases exists_of_isOpen hopen with ⟨p, fd, hfd⟩
        rcases (h.wired.reads_iff hstarted).mp ⟨fd, hfd⟩ with ⟨-, d, hd, hexec⟩
        rcases (h.command hd).2 with ⟨q₂, hq₂⟩
        cases hact₂ : act q₂ with
        | read next =>
          have hfull : ¬ (s.pipes i = [] ∧ isOpen s.wiring (.write i) = true) := by
            rintro ⟨hempty, -⟩
            rw [hempty] at hroom
            exact hroom hcap
          refine ⟨i + 1, ?_⟩
          rw [step_run hd hexec hq₂, Job.run, hact₂]
          dsimp only
          rw [table_zero h.wired hd hexec, if_neg (Nat.succ_ne_zero i), Job.read]
          rw [Nat.add_sub_cancel, if_neg hfull]
          rfl
        | write b₂ q₂' => exact ih (by omega) hd hexec hq₂ hact₂
        | exit =>
          refine ⟨i + 1, ?_⟩
          rw [step_run hd hexec hq₂, Job.run, hact₂]
          exact exit_isSome hd hexec
      · exact ⟨i, by rw [hown]; exact exit_isSome hc hpos⟩
    · exact ⟨i, by rw [hown]; rfl⟩

/-- Once everything is started, the first command that has not ended is not kept waiting for
its input, since whoever could write it has ended. -/
theorem Flows.exists_run (hcap : 0 < capacity) (h : s.Flows act n output I O K)
    (hstarted : s.wiring.Started) (hnot : ¬ s.Finished) :
    ∃ i, (s.step act capacity (.run i)).isSome := by
  classical
  have hex : ∃ i : ℕ, ∃ c : Child, s.wiring.children[i]? = some c ∧ c.pos = .exec := by
    by_contra hnone
    apply hnot
    refine ⟨hstarted.waiting, ?_⟩
    intro c hc
    rcases hstarted.children c hc with hexec | hexited
    · rcases List.mem_iff_getElem?.mp hc with ⟨i, hi⟩
      exact absurd ⟨i, c, hi, hexec⟩ hnone
    · exact hexited
  obtain ⟨c, hc, hpos⟩ := Nat.find_spec hex
  -- the first command that runs: all before it have ended
  have hfirst : ∀ j < Nat.find hex, ¬ ∃ d : Child, s.wiring.children[j]? = some d ∧ d.pos = .exec :=
    fun j hj => Nat.find_min hex hj
  generalize Nat.find hex = i at hc hfirst
  rcases h.command hc with ⟨hi, q, hq⟩
  cases hact : act q with
  | write b q' => exact h.exists_step_of_write hcap hstarted (n - i) (by omega) hc hpos hq hact
  | exit =>
    refine ⟨i, ?_⟩
    rw [step_run hc hpos hq, Job.run, hact]
    exact exit_isSome hc hpos
  | read next =>
    refine ⟨i, ?_⟩
    rw [step_run hc hpos hq, Job.run, hact]
    dsimp only
    rw [table_zero h.wired hc hpos]
    unfold Job.read
    split_ifs with h0
    · rfl
    · obtain ⟨j, rfl⟩ := Nat.exists_eq_succ_of_ne_zero h0
      -- nobody is left who could write to its input
      have hclosed : ¬ (s.pipes j = [] ∧ isOpen s.wiring (.write j) = true) := by
        rintro ⟨-, hopen⟩
        rcases exists_of_isOpen hopen with ⟨p, fd, hfd⟩
        exact hfirst j (Nat.lt_succ_self j) ((h.wired.writes_iff hstarted (by omega)).mp ⟨fd, hfd⟩).2
      rw [Nat.succ_eq_add_one, Nat.add_sub_cancel]
      dsimp only
      rw [if_neg hclosed]
      rfl

/-- There are always two descriptors that are not in use. -/
theorem exists_fresh {w : Wiring.System} (h : w.Wired n) (hpos : w.pos = .piping) :
    ∃ r q, w.Fresh (.pipe r q) := by
  have hparent := h.parent
  unfold Wiring.System.Ends at hparent
  rw [hpos] at hparent
  have hm : ∀ fd ∈ w.parent.pipes.flatMap (fun p => [p.1, p.2]),
      fd ≤ (w.parent.pipes.flatMap fun p => [p.1, p.2]).sum := fun fd hfd => List.le_sum_of_mem hfd
  generalize (w.parent.pipes.flatMap fun p => [p.1, p.2]).sum = m at hm
  -- above the sum of all descriptors in `pipes` nothing is open
  have hunused : ∀ fd, m < fd → w.parent.table fd = none := by
    intro fd hfd
    cases htable : w.parent.table fd with
    | none => rfl
    | some e =>
      rcases (hparent.1 fd e).mp htable with hfalse | ⟨j, p, -, hp, hcase⟩
      · exact hfalse.elim
      · have hmem : fd ∈ w.parent.pipes.flatMap fun p => [p.1, p.2] := by
          refine List.mem_flatMap.mpr ⟨p, List.mem_of_getElem? hp, ?_⟩
          rcases hcase with ⟨rfl, -⟩ | ⟨rfl, -⟩ <;> simp
        have hle := hm fd hmem
        omega
  exact ⟨m + 3, m + 4, by omega, by omega, hunused _ (by omega), hunused _ (by omega)⟩

/-- As long as the line is not done, somebody can take a step. -/
theorem Flows.exists_step (hcap : 0 < capacity) (h : s.Flows act n output I O K) (hnot : ¬ s.Finished) :
    ∃ l, s.Fresh l ∧ (s.step act capacity l).isSome := by
  by_cases hstarted : s.wiring.Started
  · rcases h.exists_run hcap hstarted hnot with ⟨i, hi⟩
    exact ⟨.run i, trivial, hi⟩
  · rcases h.wiring with ⟨ls, hrun⟩
    rcases Wiring.System.proceeds_of_run hrun with ⟨hparent, hchild⟩
    by_cases hwait : s.wiring.pos = .waiting
    · -- the parent waits, so a child has not come to `execvp`
      obtain ⟨c, hc, hexec, hexited⟩ :
          ∃ c ∈ s.wiring.children, c.pos ≠ .exec ∧ c.pos ≠ .exited := by
        by_contra hnone
        apply hstarted
        refine ⟨hwait, ?_⟩
        intro c hc
        by_contra hneither
        exact hnone ⟨c, hc, fun h => hneither (Or.inl h), fun h => hneither (Or.inr h)⟩
      rcases List.mem_iff_getElem?.mp hc with ⟨i, hi⟩
      refine ⟨.setup (.child i), trivial, ?_⟩
      rw [step_setup fun _ => Wiring.Label.noConfusion, h.length, Option.isSome_map]
      exact hchild i c hi hexec hexited
    · rcases hparent hwait with hstep | hpipe
      · refine ⟨.setup .parent, trivial, ?_⟩
        rw [step_setup fun _ => Wiring.Label.noConfusion, h.length, Option.isSome_map]
        exact hstep
      · -- the parent is to make a pipe
        have hpiping : s.wiring.pos = .piping := by
          have hsome := hpipe 0 0
          unfold Wiring.System.step at hsome
          dsimp only at hsome
          split_ifs at hsome with hguard
          · exact hguard.1
          · cases hsome
        rcases exists_fresh h.wired hpiping with ⟨r, q, hfresh⟩
        refine ⟨.setup (.pipe r q), hfresh, ?_⟩
        rw [step_setup fun _ => Wiring.Label.noConfusion, h.length, Option.isSome_map]
        exact hpipe r q

/-! ## The result -/

/-- For all commands, each of which ends on what it is given, pipes of any size and every order
of the steps of all processes: the line is done after a bounded number of steps, until
then somebody can always take one, and when it is done the terminal shows what the commands
compute one after the other. -/
theorem pipeline_composes {σ : Type} (act : σ → Act σ UInt8) (capacity : ℕ) (hcap : 0 < capacity)
    (commands : List σ) (hne : commands ≠ []) (input output : Bytes)
    (h : Composes act commands input output) :
    (∃ bound, ∀ ls s, PipelineRun act capacity commands input ls s → ls.length ≤ bound) ∧
    ∀ ls s, PipelineRun act capacity commands input ls s →
      (s.Finished → s.stdout = output) ∧
      (¬ s.Finished → ∃ l, s.Fresh l ∧ (s.step act capacity l).isSome) := by
  rcases Flows.init hne h with ⟨I, O, K, hinit⟩
  -- every step takes at least one off the steps that are left
  have hrun : ∀ ls s, PipelineRun act capacity commands input ls s →
      ∃ r, (∃ I O K, Flows act commands.length output s I O K ∧ left commands.length s K = r) ∧
        ls.length + r ≤ left commands.length (Job.init commands input) K := by
    intro ls s hrun
    apply hrun.length_le fun s r => ∃ I O K, Flows act commands.length output s I O K ∧
      left commands.length s K = r
    · exact ⟨I, O, K, hinit, rfl⟩
    · rintro s l s' r ⟨I, O, K, hflows, rfl⟩ hfresh hs
      rcases hflows.step hfresh hs with ⟨I', O', K', hflows', hlt⟩
      exact ⟨_, hlt, I', O', K', hflows', rfl⟩
  constructor
  · refine ⟨left commands.length (Job.init commands input) K, ?_⟩
    intro ls s hs
    rcases hrun ls s hs with ⟨r, -, hle⟩
    omega
  · intro ls s hs
    rcases hrun ls s hs with ⟨r, ⟨I', O', K', hflows, -⟩, -⟩
    constructor
    · intro hfinished
      -- the last command has ended, and left nothing unwritten
      have hlast : ¬ Live s.wiring (commands.length - 1) := by
        intro hlive
        have hlen := (hflows.wired.waiting hfinished.waiting).2
        have hpos := List.length_pos_of_ne_nil hne
        have hc : s.wiring.children[commands.length - 1]? = some s.wiring.children[commands.length - 1] :=
          List.getElem?_eq_getElem (by omega)
        exact hlive _ hc (hfinished.exited _ (List.mem_of_getElem? hc))
      have hend := hflows.ended _ (Nat.sub_lt (List.length_pos_of_ne_nil hne) Nat.one_pos) hlast
      have hout := hflows.stdout
      rw [hend, List.append_nil] at hout
      exact hout
    · exact hflows.exists_step hcap

end Job

/-! ## The line that is typed -/

/-- The commands that `run_process` starts are the strings of its rows. -/
theorem runProcess_rows {p : Pipes.Parsed} {cmds : List (List Bytes)} (hn : p.numberCommands = cmds.length)
    (hargs : p.args.map (argv p.line) = cmds.map some) : Pipes.runProcess p = .ok cmds := by
  have hlens := congrArg List.length hargs
  rw [List.length_map, List.length_map] at hlens
  rw [Pipes.runProcess, List.take_of_length_le (by omega)]
  -- the rest is about the rows alone
  clear hn hlens
  revert hargs
  generalize p.args = rows
  induction rows generalizing cmds with
  | nil =>
    intro hargs
    rw [List.map_nil, eq_comm, List.map_eq_nil_iff] at hargs
    rw [hargs]
    rfl
  | cons row rows ih =>
    intro hargs
    cases cmds with
    | nil => cases hargs
    | cons c cmds =>
      rw [List.map_cons, List.map_cons, List.cons.injEq] at hargs
      rw [List.mapM_cons, ih hargs.2, hargs.1]
      rfl

/-- A line of commands is taken apart into its commands. -/
theorem round_text {cmds : List (List Bytes)} (hcmds : ∀ c ∈ cmds, Pipes.Command c) (hne : cmds ≠ [])
    (hlen : (Pipes.text cmds).length ≤ 1022) (line rest : Bytes) :
    ∃ line', Pipes.round ⟨line, Pipes.text cmds ++ 10 :: rest⟩ = .ok (cmds, ⟨line', rest⟩) := by
  have htyped := Pipes.typed_text hcmds
  have hwords : ∀ w ∈ Pipes.pipeline cmds, Tokens.Word space w := by
    intro w hw
    rcases Pipes.mem_pipeline hw with rfl | ⟨c, hc, hw⟩
    · exact Tokens.word_singleton (by decide)
    · exact ((hcmds c hc).plain w hw).word
  have hlexed : Tokens.Lexed space (Pipes.text cmds) (Pipes.pipeline cmds) := by
    rcases List.exists_cons_of_ne_nil hne with ⟨c, cs, rfl⟩
    have hfirst : Pipes.pipeline (c :: cs) ≠ [] := Pipes.pipeline_ne_nil (hcmds c (by simp)).nonempty cs
    rcases List.exists_cons_of_ne_nil hfirst with ⟨w, ws, hw⟩
    rw [Pipes.text_eq_join fun d hd => (hcmds d hd).nonempty, hw]
    apply Pipes.lexed_join
    rw [← hw]
    exact hwords
  rcases readLine_line htyped.noNewline hlen line rest with ⟨r, hread⟩
  rw [cstr_of_noNul htyped.noNul] at hread
  rcases Pipes.parse_lexed (fun c hc => (hcmds c hc).fits) hne htyped.noNul hlexed
      (Pipes.findNumberCommand_text hcmds hne r) with ⟨p, hparse, hnumber, hargs, -⟩
  refine ⟨p.line, ?_⟩
  rw [Pipes.round, hread]
  dsimp only
  rw [hparse]
  show (Pipes.runProcess p).bind _ = _
  rw [runProcess_rows hnumber hargs]
  rfl

/-- For every line of commands of up to 1022 bytes, typed at the prompt: a round of the
shell starts exactly these commands, and on whatever programs they name, each of which ends on what it is given, with
pipes of any size and every order of the steps of all processes, the line is done after
a bounded number of steps, until then somebody can always take one, and when it is done
the terminal shows what the commands compute one after the other. -/
theorem typed_pipeline_composes {σ : Type} (load : List Bytes → σ) (act : σ → Act σ UInt8) (capacity : ℕ)
    (hcap : 0 < capacity) (cmds : List (List Bytes)) (hcmds : ∀ c ∈ cmds, Pipes.Command c) (hne : cmds ≠ [])
    (hlen : (Pipes.text cmds).length ≤ 1022) (line rest input output : Bytes)
    (h : Composes act (cmds.map load) input output) :
    (∃ line', Pipes.round ⟨line, Pipes.text cmds ++ 10 :: rest⟩ = .ok (cmds, ⟨line', rest⟩)) ∧
    (∃ bound, ∀ ls s, PipelineRun act capacity (cmds.map load) input ls s → ls.length ≤ bound) ∧
    ∀ ls s, PipelineRun act capacity (cmds.map load) input ls s →
      (s.Finished → s.stdout = output) ∧
      (¬ s.Finished → ∃ l, s.Fresh l ∧ (s.step act capacity l).isSome) := by
  have hload : cmds.map load ≠ [] := fun hnil => hne (List.map_eq_nil_iff.mp hnil)
  exact ⟨round_text hcmds hne hlen line rest,
    Job.pipeline_composes act capacity hcap (cmds.map load) hload input output h⟩

/-- A program that copies its input, and one that copies its first byte and ends. -/
inductive Tool where
  | cat
  | put (b : UInt8)
  | head
  | last (b : UInt8)
  | done

def Tool.act : Tool → Act Tool UInt8
  | .cat => .read fun b => b.elim .done .put
  | .put b => .write b .cat
  | .head => .read fun b => b.elim .done .last
  | .last b => .write b .done
  | .done => .exit

def Tool.load : List Bytes → Tool
  | [[99, 97, 116]] => .cat
  | [[104, 101, 97, 100]] => .head
  | _ => .done

/-- `cat | head`, where the second program ends while the first one still has something to write. -/
theorem typed_pipeline_composes_head :
    (∃ line', Pipes.round ⟨[], Pipes.text [[[99, 97, 116]], [[104, 101, 97, 100]]] ++ 10 :: []⟩ =
      .ok ([[[99, 97, 116]], [[104, 101, 97, 100]]], ⟨line', []⟩)) ∧
    (∃ bound, ∀ ls s, PipelineRun Tool.act 1 [.cat, .head] [97, 98] ls s → ls.length ≤ bound) ∧
    ∀ ls s, PipelineRun Tool.act 1 [.cat, .head] [97, 98] ls s →
      (s.Finished → s.stdout = [97]) ∧
      (¬ s.Finished → ∃ l, s.Fresh l ∧ (s.step Tool.act 1 l).isSome) := by
  have hcat : Outputs Tool.act .cat [97, 98] [97, 98] :=
    ⟨_, .read rfl (.write rfl (.read rfl (.write rfl (.read rfl (.exit rfl)))))⟩
  have hhead : Outputs Tool.act .head [97, 98] [97] := ⟨_, .read rfl (.write rfl (.exit rfl))⟩
  exact typed_pipeline_composes Tool.load Tool.act 1 Nat.one_pos [[[99, 97, 116]], [[104, 101, 97, 100]]]
    (by decide +kernel) (by simp) (by decide) [] [] [97, 98] [97] ⟨_, hcat, _, hhead, rfl⟩

end EmbeddedCourse.Shells.Pipeline
