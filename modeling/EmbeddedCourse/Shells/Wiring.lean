import EmbeddedCourse.Lib.Descriptors
import EmbeddedCourse.Lib.Run

/-! # The pipes between the commands

`run_process` of `Channels/Bash_with_pipe/main.c`. The parent makes the pipes,
forks a child for each command, closes its own ends and waits; each child turns
two ends into its standard input and output and closes the others. The parent and
the children take their steps in any order; both `close` calls for a pipe are one
step. A command has the descriptors that the child has at `execvp`, and here it
only exits.
-/

namespace EmbeddedCourse.Shells.Wiring

open Descriptors

/-- Where the parent is. -/
inductive ParentAt where
  | piping
  | forking
  | closing (i : ℕ)
  | waiting
deriving DecidableEq, Repr

/-- Where a child is. -/
inductive ChildAt where
  | stdin
  | stdout
  | closing (i : ℕ)
  | exec
  | exited
deriving DecidableEq, Repr

/-- A process: its descriptors, and its array `pipes`. -/
structure Process where
  table : Table
  pipes : List (ℕ × ℕ)

structure Child extends Process where
  pos : ChildAt

/-- The parent, and its children in the order of the commands. -/
structure System where
  parent : Process
  pos : ParentAt
  children : List Child

inductive Label where
  | pipe (r w : ℕ)
  | parent
  | child (i : ℕ)
  | exit (i : ℕ)
deriving DecidableEq, Repr

namespace System

/-- No pipe has been made. -/
def init : System := { parent := { table := fun _ => none, pipes := [] }, pos := .piping, children := [] }

/-- A step of the parent that makes no pipe. -/
def stepParent (numberCommands : ℕ) (s : System) : Option System :=
  match s.pos with
  | .piping => if s.parent.pipes.length < numberCommands - 1 then none else some { s with pos := .forking }
  | .forking =>
    if s.children.length < numberCommands then
      some { s with children := s.children ++ [{ s.parent with pos := .stdin }] }
    else some { s with pos := .closing 0 }
  | .closing i =>
    if i < numberCommands - 1 then
      s.parent.pipes[i]?.map fun p =>
        { s with parent := { s.parent with table := closePipe s.parent.table p }, pos := .closing (i + 1) }
    else some { s with pos := .waiting }
  | .waiting => none

end System

/-- A step of child `i`. -/
def Child.step (numberCommands i : ℕ) (c : Child) : Option Child :=
  match c.pos with
  | .stdin =>
    if 0 < i then
      c.pipes[i - 1]?.bind fun p => (dup2 c.table p.1 0).map fun t => { c with table := t, pos := .stdout }
    else some { c with pos := .stdout }
  | .stdout =>
    if i < numberCommands - 1 then
      c.pipes[i]?.bind fun p => (dup2 c.table p.2 1).map fun t => { c with table := t, pos := .closing 0 }
    else some { c with pos := .closing 0 }
  | .closing k =>
    if k < numberCommands - 1 then
      c.pipes[k]?.map fun p => { c with table := closePipe c.table p, pos := .closing (k + 1) }
    else some { c with pos := .exec }
  | .exec | .exited => none

/-- The command ends, and all its descriptors are closed. -/
def Child.exit (c : Child) : Option Child :=
  if c.pos = .exec then some { c with table := fun _ => none, pos := .exited } else none

namespace System

def step (numberCommands : ℕ) (s : System) : Label → Option System
  | .pipe r w =>
    if s.pos = .piping ∧ s.parent.pipes.length < numberCommands - 1 then
      some { s with
        parent :=
          { table := addPipe s.parent.table s.parent.pipes.length (r, w)
            pipes := s.parent.pipes ++ [(r, w)] } }
    else none
  | .parent => s.stepParent numberCommands
  | .child i =>
    s.children[i]?.bind fun c => (c.step numberCommands i).map fun c => { s with children := s.children.set i c }
  | .exit i => s.children[i]?.bind fun c => c.exit.map fun c => { s with children := s.children.set i c }

/-- `pipe` returns two descriptors above 2 that are not open. -/
def Fresh (s : System) : Label → Prop
  | .pipe r w => r ≠ w ∧ (2 < r ∧ 2 < w) ∧ s.parent.table r = none ∧ s.parent.table w = none
  | .parent | .child _ | .exit _ => True

instance : ∀ (s : System) (l : Label), Decidable (s.Fresh l)
  | s, .pipe r w => inferInstanceAs (Decidable (r ≠ w ∧ (2 < r ∧ 2 < w) ∧
      s.parent.table r = none ∧ s.parent.table w = none))
  | _, .parent | _, .child _ | _, .exit _ => .isTrue trivial

/-- The runs of `run_process` for so many commands. -/
abbrev WiringRun (numberCommands : ℕ) (ls : List Label) (s : System) : Prop :=
  Machine.Run (System.step numberCommands) System.Fresh System.init ls s

/-- The descriptors of the parent, or of a child. -/
def tableOf (s : System) : Option ℕ → Table
  | none => s.parent.table
  | some i =>
    match s.children[i]? with
    | some c => c.table
    | none => fun _ => none

/-- A process has the read end of a pipe open. -/
def Reads (s : System) (p : Option ℕ) (pipe : ℕ) : Prop := ∃ fd, s.tableOf p fd = some (.read pipe)

/-- A process has the write end of a pipe open. -/
def Writes (s : System) (p : Option ℕ) (pipe : ℕ) : Prop := ∃ fd, s.tableOf p fd = some (.write pipe)

end System

/-! ## What is open -/

/-- The end that is the standard input of child `i`. -/
def Input (i fd : ℕ) (e : End) : Prop := 0 < i ∧ fd = 0 ∧ e = .read (i - 1)

/-- The end that is the standard output of child `i`. -/
def Output (numberCommands i fd : ℕ) (e : End) : Prop :=
  i < numberCommands - 1 ∧ fd = 1 ∧ e = .write i

/-- The pipe ends of child `i`, where it is. -/
def Child.Ends (numberCommands i : ℕ) (c : Child) : Prop :=
  match c.pos with
  | .stdin => Descriptors.Holds c.table (fun _ _ => False) c.pipes 0
  | .stdout => Descriptors.Holds c.table (Input i) c.pipes 0
  | .closing k => Descriptors.Holds c.table (fun fd e => Input i fd e ∨ Output numberCommands i fd e) c.pipes k
  | .exec => ∀ fd e, c.table fd = some e ↔ Input i fd e ∨ Output numberCommands i fd e
  | .exited => ∀ fd, c.table fd = none

/-- The pipe ends of the parent, where it is, and how many pipes and children there are. -/
def System.Ends (numberCommands : ℕ) (s : System) : Prop :=
  match s.pos with
  | .piping =>
    Descriptors.Holds s.parent.table (fun _ _ => False) s.parent.pipes 0 ∧
      s.parent.pipes.length ≤ numberCommands - 1 ∧ s.children = []
  | .forking =>
    Descriptors.Holds s.parent.table (fun _ _ => False) s.parent.pipes 0 ∧
      s.parent.pipes.length = numberCommands - 1 ∧ s.children.length ≤ numberCommands
  | .closing i =>
    Descriptors.Holds s.parent.table (fun _ _ => False) s.parent.pipes i ∧
      s.parent.pipes.length = numberCommands - 1 ∧ s.children.length = numberCommands
  | .waiting => (∀ fd, s.parent.table fd = none) ∧
      s.parent.pipes.length = numberCommands - 1 ∧ s.children.length = numberCommands

/-- The pipes of every process are the parent's, and each has the ends that it should have where it is. -/
structure System.Wired (numberCommands : ℕ) (s : System) : Prop where
  apart : Apart s.parent.pipes
  parent : s.Ends numberCommands
  pipes : ∀ c ∈ s.children, c.pipes = s.parent.pipes ∧ c.pipes.length = numberCommands - 1
  child : ∀ (i : ℕ) c, s.children[i]? = some c → c.Ends numberCommands i

/-! ## A step of a child -/

section

variable {n i : ℕ} {c c' : Child}

theorem le_two_of_input_or_output {fd : ℕ} {e : End} (h : Input i fd e ∨ Output n i fd e) : fd ≤ 2 := by
  rcases h with ⟨-, rfl, -⟩ | ⟨-, rfl, -⟩
  · exact Nat.zero_le 2
  · exact Nat.le_succ 1

/-- The standard input becomes the read end of the pipe before. -/
theorem Child.ends_of_stdin (hpos : c.pos = .stdin) (h : c.Ends n i) (hapart : Apart c.pipes)
    (hs : c.step n i = some c') : c'.Ends n i ∧ c'.pipes = c.pipes := by
  unfold Child.Ends at h
  rw [hpos] at h
  unfold Child.step at hs
  rw [hpos] at hs
  dsimp only at h hs
  split_ifs at hs with hi
  · -- the read end is open under the descriptor in `pipes`, so that `dup2` succeeds
    rcases Option.bind_eq_some_iff.mp hs with ⟨p, hp, hs⟩
    rcases h.dup2 hapart (names_read hp) (Nat.zero_le 2) (fun _ => id) with ⟨t, ht, hholds⟩
    rw [ht] at hs
    obtain rfl := Option.some.inj hs
    refine ⟨hholds.congr ?_, rfl⟩
    intro fd e
    simp [Input, hi]
  · -- the first command keeps the standard input of the shell
    obtain rfl := Option.some.inj hs
    refine ⟨h.congr ?_, rfl⟩
    intro fd e
    simp [Input, hi]

/-- The standard output becomes the write end of the pipe behind. -/
theorem Child.ends_of_stdout (hpos : c.pos = .stdout) (h : c.Ends n i) (hapart : Apart c.pipes)
    (hs : c.step n i = some c') : c'.Ends n i ∧ c'.pipes = c.pipes := by
  unfold Child.Ends at h
  rw [hpos] at h
  unfold Child.step at hs
  rw [hpos] at hs
  dsimp only at h hs
  split_ifs at hs with hi
  · -- descriptor 1 is not yet an end of a pipe: the input has become 0
    rcases Option.bind_eq_some_iff.mp hs with ⟨p, hp, hs⟩
    have hfree : ∀ e, ¬ Input i 1 e := fun e hin => absurd hin.2.1 (by decide)
    rcases h.dup2 hapart (names_write hp) (Nat.le_succ 1) hfree with ⟨t, ht, hholds⟩
    rw [ht] at hs
    obtain rfl := Option.some.inj hs
    refine ⟨hholds.congr ?_, rfl⟩
    intro fd e
    simp [Output, hi]
  · -- the last command keeps the standard output of the shell
    obtain rfl := Option.some.inj hs
    refine ⟨h.congr ?_, rfl⟩
    intro fd e
    simp [Output, hi]

/-- A child closes its own ends of a pipe, or comes to `execvp`. -/
theorem Child.ends_of_closing {k : ℕ} (hpos : c.pos = .closing k) (h : c.Ends n i) (hapart : Apart c.pipes)
    (hlen : c.pipes.length = n - 1) (hs : c.step n i = some c') : c'.Ends n i ∧ c'.pipes = c.pipes := by
  unfold Child.Ends at h
  rw [hpos] at h
  unfold Child.step at hs
  rw [hpos] at hs
  dsimp only at h hs
  split_ifs at hs with hk
  · -- input and output are below 3, where no pipe was made
    rcases Option.map_eq_some_iff.mp hs with ⟨p, hp, rfl⟩
    exact ⟨h.closePipe hapart hp fun fd e => le_two_of_input_or_output, rfl⟩
  · -- the loop is through: input and output are all that is left
    obtain rfl := Option.some.inj hs
    exact ⟨h.all_closed (by omega), rfl⟩

/-- A step of a child leaves it with the ends that it should have where it comes to. -/
theorem Child.ends_step (h : c.Ends n i) (hapart : Apart c.pipes) (hlen : c.pipes.length = n - 1)
    (hs : c.step n i = some c') : c'.Ends n i ∧ c'.pipes = c.pipes := by
  cases hpos : c.pos with
  | stdin => exact Child.ends_of_stdin hpos h hapart hs
  | stdout => exact Child.ends_of_stdout hpos h hapart hs
  | closing k => exact Child.ends_of_closing hpos h hapart hlen hs
  | exec => simp [Child.step, hpos] at hs
  | exited => simp [Child.step, hpos] at hs

/-- All that a command has open is closed when it ends. -/
theorem Child.ends_exit (hs : c.exit = some c') : c'.Ends n i ∧ c'.pipes = c.pipes := by
  unfold Child.exit at hs
  split_ifs at hs
  obtain rfl := Option.some.inj hs
  exact ⟨fun _ => rfl, rfl⟩

/-- A child that has not come to `execvp` can take a step: its pipes are there, and
what it duplicates is open. -/
theorem Child.step_isSome (h : c.Ends n i) (hapart : Apart c.pipes) (hlen : c.pipes.length = n - 1)
    (hi : i < n) (hexec : c.pos ≠ .exec) (hexited : c.pos ≠ .exited) : (c.step n i).isSome := by
  have hpipe : ∀ j, j < n - 1 → ∃ p, c.pipes[j]? = some p := fun j hj =>
    ⟨_, List.getElem?_eq_getElem (by omega)⟩
  unfold Child.Ends at h
  unfold Child.step
  cases hpos : c.pos with
  | stdin =>
    rw [hpos] at h
    dsimp only at h ⊢
    split_ifs with h0
    · rcases hpipe (i - 1) (by omega) with ⟨p, hp⟩
      rcases h.dup2 hapart (names_read hp) (Nat.zero_le 2) (fun _ => id) with ⟨t, ht, -⟩
      rw [hp, Option.bind_some, ht]
      rfl
    · rfl
  | stdout =>
    rw [hpos] at h
    dsimp only at h ⊢
    split_ifs with hlast
    · rcases hpipe i hlast with ⟨p, hp⟩
      have hfree : ∀ e, ¬ Input i 1 e := fun e hin => absurd hin.2.1 (by decide)
      rcases h.dup2 hapart (names_write hp) (Nat.le_succ 1) hfree with ⟨t, ht, -⟩
      rw [hp, Option.bind_some, ht]
      rfl
    · rfl
  | closing k =>
    dsimp only
    split_ifs with hk
    · rcases hpipe k hk with ⟨p, hp⟩
      rw [hp]
      rfl
    · rfl
  | exec => exact absurd hpos hexec
  | exited => exact absurd hpos hexited

end

/-! ## A step of the system -/

namespace System

variable {n : ℕ} {s s' : System}

/-- Nothing is open at the start. -/
theorem Wired.init (n : ℕ) : Wired n System.init := by
  constructor
  · constructor
    · exact fun fd e hin => absurd hin not_names_nil
    · exact fun fd e e' hin => absurd hin not_names_nil
  · refine ⟨?_, Nat.zero_le _, rfl⟩
    intro fd e
    exact iff_of_false (by simp [System.init]) (by simp [System.init, not_names_nil])
  · exact fun c hc => absurd hc List.not_mem_nil
  · exact fun i c hc => absurd hc (by simp [System.init])

/-- A child that is put in its place leaves the others and the parent as they are. -/
theorem Wired.setChild (h : s.Wired n) {i : ℕ} {c c' : Child} (hc : s.children[i]? = some c)
    (hends : c'.Ends n i) (hpipes : c'.pipes = c.pipes) :
    Wired n { s with children := s.children.set i c' } := by
  have hold := h.pipes c (List.mem_of_getElem? hc)
  constructor
  · exact h.apart
  · -- of its children the parent knows only how many there are
    have hparent := h.parent
    unfold System.Ends at hparent ⊢
    cases hpos : s.pos with
    | piping =>
      rw [hpos] at hparent
      have hnil := hparent.2.2
      rw [hnil] at hc
      cases hc
    | forking | closing k | waiting =>
      rw [hpos] at hparent
      simpa using hparent
  · intro x hx
    rcases List.mem_or_eq_of_mem_set hx with hx | rfl
    · exact h.pipes x hx
    · rw [hpipes]
      exact hold
  · intro j x hx
    by_cases hij : i = j
    · subst hij
      have hlt := (List.getElem?_eq_some_iff.mp hc).1
      rw [List.getElem?_set_self hlt] at hx
      obtain rfl := Option.some.inj hx
      exact hends
    · rw [List.getElem?_set_ne hij] at hx
      exact h.child j x hx

/-- A pipe is made. -/
theorem Wired.pipe (h : s.Wired n) {r w : ℕ} (hfresh : s.Fresh (.pipe r w))
    (hs : s.step n (.pipe r w) = some s') : s'.Wired n := by
  rcases hfresh with ⟨hne, habove, hr, hw⟩
  unfold System.step at hs
  dsimp only at hs
  split_ifs at hs with hguard
  rcases hguard with ⟨hpos, hlen⟩
  obtain rfl := Option.some.inj hs
  have hparent := h.parent
  unfold System.Ends at hparent
  rw [hpos] at hparent
  -- pipes are made before there is a child
  rcases hparent with ⟨hholds, -, hnil⟩
  constructor
  · exact h.apart.addPipe hholds hne habove hr hw
  · unfold System.Ends
    dsimp only
    rw [hpos]
    refine ⟨hholds.addPipe hne hr hw, ?_, hnil⟩
    rw [List.length_append, List.length_singleton]
    exact hlen
  · intro c hc
    dsimp only at hc
    rw [hnil] at hc
    exact absurd hc List.not_mem_nil
  · intro i c hc
    dsimp only at hc
    rw [hnil] at hc
    cases hc

/-- A child begins with what the parent has. -/
theorem Wired.fork (h : s.Wired n) (hpos : s.pos = .forking) (hroom : s.children.length < n) :
    Wired n { s with children := s.children ++ [{ s.parent with pos := .stdin }] } := by
  have hparent := h.parent
  unfold System.Ends at hparent
  rw [hpos] at hparent
  rcases hparent with ⟨hholds, hlen, -⟩
  constructor
  · exact h.apart
  · unfold System.Ends
    dsimp only
    rw [hpos]
    refine ⟨hholds, hlen, ?_⟩
    rw [List.length_append, List.length_singleton]
    exact hroom
  · intro c hc
    rcases List.mem_append.mp hc with hc | hc
    · exact h.pipes c hc
    · rw [List.mem_singleton.mp hc]
      exact ⟨rfl, hlen⟩
  · intro i c hc
    dsimp only at hc
    rcases Nat.lt_or_ge i s.children.length with hlt | hge
    · rw [List.getElem?_append_left hlt] at hc
      exact h.child i c hc
    · -- the new child is the last one
      have hbound := (List.getElem?_eq_some_iff.mp hc).1
      rw [List.length_append, List.length_singleton] at hbound
      obtain rfl : i = s.children.length := by omega
      rw [List.getElem?_concat_length] at hc
      obtain rfl := Option.some.inj hc
      exact hholds

/-- The parent does something else. -/
theorem Wired.stepParent (h : s.Wired n) (hs : s.stepParent n = some s') : s'.Wired n := by
  have hparent := h.parent
  unfold System.Ends at hparent
  unfold System.stepParent at hs
  cases hpos : s.pos with
  | piping =>
    rw [hpos] at hparent hs
    dsimp only at hparent hs
    split_ifs at hs with hfew
    -- all pipes are made, and there is no child yet
    obtain rfl := Option.some.inj hs
    rcases hparent with ⟨hholds, hle, hnil⟩
    refine ⟨h.apart, ⟨hholds, Nat.le_antisymm hle (Nat.le_of_not_lt hfew), ?_⟩, h.pipes, h.child⟩
    rw [hnil]
    exact Nat.zero_le n
  | forking =>
    rw [hpos] at hparent hs
    dsimp only at hparent hs
    split_ifs at hs with hroom
    · obtain rfl := Option.some.inj hs
      have hfork := h.fork hpos hroom
      rwa [hpos] at hfork
    · -- all commands are forked
      obtain rfl := Option.some.inj hs
      rcases hparent with ⟨hholds, hlen, hle⟩
      exact ⟨h.apart, ⟨hholds, hlen, Nat.le_antisymm hle (Nat.le_of_not_lt hroom)⟩, h.pipes, h.child⟩
  | closing i =>
    rw [hpos] at hparent hs
    dsimp only at hparent hs
    rcases hparent with ⟨hholds, hlen, hall⟩
    split_ifs at hs with hi
    · rcases Option.map_eq_some_iff.mp hs with ⟨p, hp, rfl⟩
      have hclosed := hholds.closePipe h.apart hp fun _ _ hfalse => hfalse.elim
      exact ⟨h.apart, ⟨hclosed, hlen, hall⟩, h.pipes, h.child⟩
    · obtain rfl := Option.some.inj hs
      refine ⟨h.apart, ⟨?_, hlen, hall⟩, h.pipes, h.child⟩
      intro fd
      cases hfd : s.parent.table fd with
      | none => rfl
      | some e => exact ((hholds.all_closed (by omega) fd e).mp hfd).elim
  | waiting =>
    rw [hpos] at hs
    cases hs

/-- Whoever takes a step, all have the ends that they should have. -/
theorem Wired.step (h : s.Wired n) {l : Label} (hfresh : s.Fresh l) (hs : s.step n l = some s') :
    s'.Wired n := by
  cases l with
  | pipe r w => exact h.pipe hfresh hs
  | parent => exact h.stepParent hs
  | child i =>
    rcases Option.bind_eq_some_iff.mp hs with ⟨c, hc, hs⟩
    rcases Option.map_eq_some_iff.mp hs with ⟨c', hstep, rfl⟩
    rcases h.pipes c (List.mem_of_getElem? hc) with ⟨hpipes, hlen⟩
    have hapart : Apart c.pipes := by
      rw [hpipes]
      exact h.apart
    rcases Child.ends_step (h.child i c hc) hapart hlen hstep with ⟨hends, hsame⟩
    exact h.setChild hc hends hsame
  | exit i =>
    rcases Option.bind_eq_some_iff.mp hs with ⟨c, hc, hs⟩
    rcases Option.map_eq_some_iff.mp hs with ⟨c', hexit, rfl⟩
    rcases Child.ends_exit (n := n) (i := i) hexit with ⟨hends, hsame⟩
    exact h.setChild hc hends hsame

/-- In every run all have the ends that they should have. -/
theorem wired_of_run {ls : List Label} (h : WiringRun n ls s) : s.Wired n := by
  apply h.invariant (Wired n)
  · exact Wired.init n
  · exact fun s l s' hwired hfresh hs => hwired.step hfresh hs

theorem Wired.length_children_le (h : s.Wired n) : s.children.length ≤ n := by
  have hparent := h.parent
  unfold System.Ends at hparent
  cases hpos : s.pos with
  | piping =>
    rw [hpos] at hparent
    rw [hparent.2.2]
    exact Nat.zero_le n
  | forking =>
    rw [hpos] at hparent
    exact hparent.2.2
  | closing i | waiting =>
    rw [hpos] at hparent
    exact Nat.le_of_eq hparent.2.2

/-- Nobody is stuck before its end: the pipes that are used have been made, and the
ends that are duplicated are open. -/
theorem proceeds_of_run {ls : List Label} (hrun : WiringRun n ls s) :
    (s.pos ≠ .waiting → (s.step n .parent).isSome ∨ ∀ r w, (s.step n (.pipe r w)).isSome) ∧
    ∀ (i : ℕ) c, s.children[i]? = some c → c.pos ≠ .exec → c.pos ≠ .exited →
      (s.step n (.child i)).isSome := by
  have h := wired_of_run hrun
  constructor
  · intro hnot
    have hparent := h.parent
    unfold System.Ends at hparent
    unfold System.step System.stepParent
    cases hpos : s.pos with
    | piping =>
      dsimp only
      -- either a pipe is missing, or the loop over the pipes ends
      by_cases hfew : s.parent.pipes.length < n - 1
      · right
        intro r w
        rw [if_pos ⟨rfl, hfew⟩]
        rfl
      · left
        rw [if_neg hfew]
        rfl
    | forking =>
      left
      dsimp only
      split_ifs
      · rfl
      · rfl
    | closing i =>
      left
      rw [hpos] at hparent
      dsimp only
      split_ifs with hi
      · rw [List.getElem?_eq_getElem (Nat.lt_of_lt_of_eq hi hparent.2.1.symm)]
        rfl
      · rfl
    | waiting => exact absurd hpos hnot
  · intro i c hc hexec hexited
    rcases h.pipes c (List.mem_of_getElem? hc) with ⟨hpipes, hlen⟩
    have hapart : Apart c.pipes := by
      rw [hpipes]
      exact h.apart
    have hi : i < n := Nat.lt_of_lt_of_le (List.getElem?_eq_some_iff.mp hc).1 h.length_children_le
    have hstep := Child.step_isSome (h.child i c hc) hapart hlen hi hexec hexited
    unfold System.step
    dsimp only
    rw [hc, Option.bind_some, Option.isSome_map]
    exact hstep

/-! ## When all is connected -/

/-- The commands are all there, and each has been started. -/
structure Started (s : System) : Prop where
  waiting : s.pos = .waiting
  children : ∀ c ∈ s.children, c.pos = .exec ∨ c.pos = .exited

/-- The parent waits with no end, and all commands have been forked. -/
theorem Wired.waiting (h : s.Wired n) (hpos : s.pos = .waiting) :
    (∀ fd, s.parent.table fd = none) ∧ s.children.length = n := by
  have hparent := h.parent
  unfold System.Ends at hparent
  rw [hpos] at hparent
  exact ⟨hparent.1, hparent.2.2⟩

/-- A started command has its input and its output, and no other end. -/
theorem Wired.exec (h : s.Wired n) {i : ℕ} {c : Child} (hc : s.children[i]? = some c)
    (hpos : c.pos = .exec) (fd : ℕ) (e : End) :
    c.table fd = some e ↔ Input i fd e ∨ Output n i fd e := by
  have hends := h.child i c hc
  unfold Child.Ends at hends
  rw [hpos] at hends
  exact hends fd e

/-- Once all is started, an open end belongs to a command that has not ended, and
is its input or its output. -/
theorem Wired.tableOf (h : s.Wired n) (hstarted : s.Started) {p : Option ℕ} {fd : ℕ} {e : End} :
    s.tableOf p fd = some e ↔ ∃ i c, p = some i ∧ s.children[i]? = some c ∧ c.pos = .exec ∧
      (Input i fd e ∨ Output n i fd e) := by
  cases p with
  | none =>
    -- the parent has closed all it had
    have hnone : s.tableOf none fd = none := (h.waiting hstarted.waiting).1 fd
    rw [hnone]
    exact iff_of_false (by simp) (by simp)
  | some i =>
    cases hc : s.children[i]? with
    | none =>
      have hnone : s.tableOf (some i) fd = none := by simp [System.tableOf, hc]
      rw [hnone]
      refine iff_of_false (by simp) ?_
      rintro ⟨j, c, hj, hget, -⟩
      obtain rfl := Option.some.inj hj
      rw [hc] at hget
      cases hget
    | some c =>
      have htable : s.tableOf (some i) = c.table := by simp [System.tableOf, hc]
      rw [htable]
      rcases hstarted.children c (List.mem_of_getElem? hc) with hpos | hpos
      · rw [h.exec hc hpos]
        constructor
        · intro hin
          exact ⟨i, c, rfl, hc, hpos, hin⟩
        · rintro ⟨j, d, hj, hget, -, hin⟩
          obtain rfl := Option.some.inj hj
          exact hin
      · -- an ended command has nothing open
        have hends := h.child i c hc
        unfold Child.Ends at hends
        rw [hpos] at hends
        rw [hends fd]
        refine iff_of_false (by simp) ?_
        rintro ⟨j, d, hj, hget, hexec, -⟩
        obtain rfl := Option.some.inj hj
        obtain rfl := Option.some.inj (hc.symm.trans hget)
        rw [hpos] at hexec
        cases hexec

/-- A pipe is read by the command behind it, as long as that runs. -/
theorem Wired.reads_iff (h : s.Wired n) (hstarted : s.Started) {p : Option ℕ} {j : ℕ} :
    s.Reads p j ↔ p = some (j + 1) ∧ ∃ c, s.children[j + 1]? = some c ∧ c.pos = .exec := by
  constructor
  · rintro ⟨fd, hfd⟩
    rcases (h.tableOf hstarted).mp hfd with ⟨i, c, rfl, hc, hpos, ⟨hi, -, he⟩ | ⟨-, -, he⟩⟩
    · obtain rfl : i = j + 1 := by
        have hij := End.read.inj he
        omega
      exact ⟨rfl, c, hc, hpos⟩
    · cases he
  · rintro ⟨rfl, c, hc, hpos⟩
    refine ⟨0, (h.tableOf hstarted).mpr ⟨j + 1, c, rfl, hc, hpos, Or.inl ⟨Nat.succ_pos j, rfl, rfl⟩⟩⟩

/-- A pipe is written by the command before it, as long as that runs. -/
theorem Wired.writes_iff (h : s.Wired n) (hstarted : s.Started) {p : Option ℕ} {j : ℕ} (hj : j < n - 1) :
    s.Writes p j ↔ p = some j ∧ ∃ c, s.children[j]? = some c ∧ c.pos = .exec := by
  constructor
  · rintro ⟨fd, hfd⟩
    rcases (h.tableOf hstarted).mp hfd with ⟨i, c, rfl, hc, hpos, ⟨-, -, he⟩ | ⟨-, -, he⟩⟩
    · cases he
    · obtain rfl : j = i := End.write.inj he
      exact ⟨rfl, c, hc, hpos⟩
  · rintro ⟨rfl, c, hc, hpos⟩
    exact ⟨1, (h.tableOf hstarted).mpr ⟨j, c, rfl, hc, hpos, Or.inr ⟨hj, rfl, rfl⟩⟩⟩

/-- For every number of commands and every order of the steps of all processes: a
child that comes to `execvp` has the read end of the pipe before it as standard
input and the write end of the pipe behind it as standard output, where there is
one, and no other end; the parent waits with no end. Once all commands are started,
each pipe is read by the one behind it and written by the one before it and by
nobody else, and by nobody at all when the writer has ended. -/
theorem pipes_connected (numberCommands : ℕ) (hn : 1 ≤ numberCommands) (ls : List Label) (s : System)
    (hrun : WiringRun numberCommands ls s) :
    (∀ (i : ℕ) c, s.children[i]? = some c → c.pos = .exec → ∀ fd e, c.table fd = some e ↔
      (0 < i ∧ fd = 0 ∧ e = .read (i - 1)) ∨ (i < numberCommands - 1 ∧ fd = 1 ∧ e = .write i)) ∧
    (s.pos = .waiting → ∀ fd, s.parent.table fd = none) ∧
    (s.pos = .waiting → (∀ c ∈ s.children, c.pos = .exec) → ∀ j < numberCommands - 1, ∀ p,
      (s.Reads p j ↔ p = some (j + 1)) ∧ (s.Writes p j ↔ p = some j)) ∧
    (s.Started → ∀ j < numberCommands - 1, ∀ c, s.children[j]? = some c → c.pos = .exited →
      ∀ p, ¬ s.Writes p j) := by
  have hwired := wired_of_run hrun
  refine ⟨?_, ?_, ?_, ?_⟩
  · exact fun i c hc hpos => hwired.exec hc hpos
  · exact fun hpos => (hwired.waiting hpos).1
  · intro hpos hexec j hj p
    have hstarted : s.Started := ⟨hpos, fun c hc => Or.inl (hexec c hc)⟩
    have hlen := (hwired.waiting hpos).2
    -- the reader and the writer of pipe `j` are among the commands
    have hthere : ∀ i, i < numberCommands → ∃ c, s.children[i]? = some c ∧ c.pos = .exec := by
      intro i hi
      have hget := List.getElem?_eq_getElem (Nat.lt_of_lt_of_eq hi hlen.symm)
      exact ⟨_, hget, hexec _ (List.mem_of_getElem? hget)⟩
    rw [hwired.reads_iff hstarted, hwired.writes_iff hstarted hj]
    exact ⟨and_iff_left (hthere (j + 1) (by omega)), and_iff_left (hthere j (by omega))⟩
  · intro hstarted j hj c hc hpos p hwrites
    -- only command `j` writes to pipe `j`, and it has ended
    rcases (hwired.writes_iff hstarted hj).mp hwrites with ⟨-, d, hd, hexec⟩
    obtain rfl := Option.some.inj (hc.symm.trans hd)
    rw [hpos] at hexec
    cases hexec

/-- Three commands; the first child begins before the second one is forked, and the
last one is ready after the parent. -/
def connected : List Label :=
  [.pipe 3 4, .pipe 5 6, .parent, .parent, .child 0, .parent, .child 1, .parent, .parent] ++
    List.replicate 4 (.child 0) ++ List.replicate 3 .parent ++ List.replicate 4 (.child 1) ++
    List.replicate 5 (.child 2)

theorem pipes_connected_three : ∃ s, WiringRun 3 connected s ∧ s.pos = .waiting ∧
    s.children.map Child.pos = [.exec, .exec, .exec] ∧
    ∀ j < 2, ∀ p, (s.Reads p j ↔ p = some (j + 1)) ∧ (s.Writes p j ↔ p = some j) := by
  have hexec : (Machine.exec (Machine.guarded (System.step 3) System.Fresh) System.init connected).map
      (fun s => (s.pos, s.children.map Child.pos)) = some (.waiting, [.exec, .exec, .exec]) := by
    decide +kernel
  rcases Machine.Run.exists_of_exec hexec with ⟨s, hrun, hf⟩
  rcases Prod.mk.inj hf with ⟨hpos, hchildren⟩
  have hall : ∀ c ∈ s.children, c.pos = .exec := by
    intro c hc
    have hin := List.mem_map_of_mem (f := Child.pos) hc
    rw [hchildren] at hin
    simpa using hin
  have hconnected := (pipes_connected 3 (by decide) connected s hrun).2.2.1 hpos hall
  exact ⟨s, hrun, hpos, hchildren, hconnected⟩

end System

end EmbeddedCourse.Shells.Wiring
