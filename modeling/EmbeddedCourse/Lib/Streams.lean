import Mathlib.Data.List.Basic

/-! # Programs that read a stream and write one

A program is a deterministic machine: in each state it asks for the next symbol of
its input, of which there may be no more, or it writes a symbol, or it ends. What it
writes on a complete input is determined, and so is the number of its steps, whoever
supplies the input and at whatever pace.
-/

namespace EmbeddedCourse.Streams

variable {σ α : Type}

/-- What a program does next. -/
inductive Act (σ α : Type) where
  | read (next : Option α → σ)
  | write (a : α) (next : σ)
  | exit

/-- From the state `q`, with `input` still to come, the program writes `output` and ends,
in `k` steps. -/
inductive Runs (act : σ → Act σ α) : σ → List α → List α → ℕ → Prop where
  | read {q : σ} {next : Option α → σ} {input output : List α} {k : ℕ} (hact : act q = .read next)
      (h : Runs act (next input.head?) input.tail output k) : Runs act q input output (k + 1)
  | write {q q' : σ} {a : α} {input output : List α} {k : ℕ} (hact : act q = .write a q')
      (h : Runs act q' input output k) : Runs act q input (a :: output) (k + 1)
  | exit {q : σ} {input : List α} (hact : act q = .exit) : Runs act q input [] 1

/-- What the program writes on a complete input. -/
def Outputs (act : σ → Act σ α) (q : σ) (input output : List α) : Prop :=
  ∃ k, Runs act q input output k

/-- What a row of programs writes, each of which reads what the one before it writes. -/
def Composes (act : σ → Act σ α) : List σ → List α → List α → Prop
  | [], input, output => output = input
  | q :: qs, input, output => ∃ mid, Outputs act q input mid ∧ Composes act qs mid output

variable {act : σ → Act σ α} {q q' : σ} {a : α} {next : Option α → σ} {input output output' : List α}
  {k k' : ℕ}

theorem Runs.pos (h : Runs act q input output k) : 0 < k := by
  cases h <;> exact Nat.succ_pos _

/-- A program that reads goes on with what is left of its input. -/
theorem Runs.of_read (h : Runs act q input output (k + 1)) (hact : act q = .read next) :
    Runs act (next input.head?) input.tail output k := by
  cases h with
  | read hact' h =>
    rw [hact] at hact'
    obtain rfl := Act.read.inj hact'
    exact h
  | write hact' h =>
    rw [hact] at hact'
    cases hact'
  | exit hact' =>
    rw [hact] at hact'
    cases hact'

theorem Runs.of_write (h : Runs act q input output (k + 1)) (hact : act q = .write a q') :
    ∃ rest, output = a :: rest ∧ Runs act q' input rest k := by
  cases h with
  | read hact' h =>
    rw [hact] at hact'
    cases hact'
  | write hact' h =>
    rw [hact] at hact'
    rcases Act.write.inj hact' with ⟨rfl, rfl⟩
    exact ⟨_, rfl, h⟩
  | exit hact' =>
    rw [hact] at hact'
    cases hact'

theorem Runs.of_exit (h : Runs act q input output k) (hact : act q = .exit) : output = [] := by
  cases h with
  | read hact' h =>
    rw [hact] at hact'
    cases hact'
  | write hact' h =>
    rw [hact] at hact'
    cases hact'
  | exit hact' => rfl

/-- In a row of programs the output of each is the input of the one behind it. -/
theorem Composes.exists_runs {qs : List σ} (h : Composes act qs input output) :
    ∃ (streams : ℕ → List α) (count : ℕ → ℕ), streams 0 = input ∧ streams qs.length = output ∧
      ∀ i q, qs[i]? = some q → Runs act q (streams i) (streams (i + 1)) (count i) := by
  induction qs generalizing input with
  | nil =>
    obtain rfl := h
    exact ⟨fun _ => output, fun _ => 0, rfl, rfl, by simp⟩
  | cons q qs ih =>
    rcases h with ⟨mid, ⟨k, hq⟩, hrest⟩
    rcases ih hrest with ⟨streams, count, hfirst, hlast, hruns⟩
    refine ⟨fun i => if i = 0 then input else streams (i - 1),
      fun i => if i = 0 then k else count (i - 1), rfl, ?_, ?_⟩
    · simpa using hlast
    · intro i p hp
      cases i with
      | zero =>
        obtain rfl : q = p := by simpa using hp
        simpa [hfirst] using hq
      | succ i => simpa using hruns i p (by simpa using hp)

end EmbeddedCourse.Streams
