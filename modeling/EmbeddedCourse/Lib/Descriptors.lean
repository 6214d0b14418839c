import Mathlib.Data.List.Basic
import Mathlib.Logic.Function.Basic

/-! # Pipe ends in a descriptor table

Of the descriptors of a process only those are looked at that are ends of certain
pipes. A process that has a list of pipes closes them one after the other; until
then each descriptor in the list is the end that it was made for. Descriptors 0, 1
and 2 come to be pipe ends by `dup2` only.
-/

namespace EmbeddedCourse.Descriptors

/-- The ends of the pipe with the number `pipe`. -/
inductive End where
  | read (pipe : ℕ)
  | write (pipe : ℕ)
deriving DecidableEq, Repr

/-- What is open as a pipe end. -/
abbrev Table := ℕ → Option End

def close (t : Table) (fd : ℕ) : Table := Function.update t fd none

/-- `dup2(old, new)`; none if `old` is not open. -/
def dup2 (t : Table) (old new : ℕ) : Option Table :=
  (t old).map fun e => Function.update t new (some e)

/-- `pipe`, which returns the descriptors `p`. -/
def addPipe (t : Table) (pipe : ℕ) (p : ℕ × ℕ) : Table :=
  Function.update (Function.update t p.1 (some (.read pipe))) p.2 (some (.write pipe))

/-- Both ends of a pipe. -/
def closePipe (t : Table) (p : ℕ × ℕ) : Table := close (close t p.1) p.2

/-- The descriptor is in the list of pipes, from the pipe `k` on, as the end `e`. -/
def Names (pipes : List (ℕ × ℕ)) (k fd : ℕ) (e : End) : Prop :=
  ∃ j p, k ≤ j ∧ pipes[j]? = some p ∧ (fd = p.1 ∧ e = .read j ∨ fd = p.2 ∧ e = .write j)

/-- No descriptor is in the list twice, and none is 0, 1 or 2. -/
structure Apart (pipes : List (ℕ × ℕ)) : Prop where
  above : ∀ fd e, Names pipes 0 fd e → 2 < fd
  once : ∀ fd e e', Names pipes 0 fd e → Names pipes 0 fd e' → e = e'

/-- The pipe ends that are open are those of `W` and those in the list from `k` on. -/
def Holds (t : Table) (W : ℕ → End → Prop) (pipes : List (ℕ × ℕ)) (k : ℕ) : Prop :=
  ∀ fd e, t fd = some e ↔ W fd e ∨ Names pipes k fd e

variable {t : Table} {W : ℕ → End → Prop} {pipes : List (ℕ × ℕ)} {k fd : ℕ} {e : End} {p : ℕ × ℕ}

theorem Holds.congr {W' : ℕ → End → Prop} (h : Holds t W pipes k) (hW : ∀ fd e, W fd e ↔ W' fd e) :
    Holds t W' pipes k := by
  intro fd e
  rw [h fd e, hW fd e]

theorem Names.zero (h : Names pipes k fd e) : Names pipes 0 fd e := by
  rcases h with ⟨j, p, -, hp, hcase⟩
  exact ⟨j, p, Nat.zero_le j, hp, hcase⟩

theorem names_read (hp : pipes[k]? = some p) : Names pipes 0 p.1 (.read k) :=
  ⟨k, p, Nat.zero_le k, hp, Or.inl ⟨rfl, rfl⟩⟩

theorem names_write (hp : pipes[k]? = some p) : Names pipes 0 p.2 (.write k) :=
  ⟨k, p, Nat.zero_le k, hp, Or.inr ⟨rfl, rfl⟩⟩

theorem not_names_nil : ¬ Names [] k fd e := by
  rintro ⟨j, p, -, hp, -⟩
  cases hp

theorem not_names_of_length_le (h : pipes.length ≤ k) : ¬ Names pipes k fd e := by
  rintro ⟨j, p, hj, hp, -⟩
  have hlt : j < pipes.length := (List.getElem?_eq_some_iff.mp hp).1
  omega

/-- The first pipe from `k` on, and the others. -/
theorem names_iff_succ (hp : pipes[k]? = some p) :
    Names pipes k fd e ↔
      (fd = p.1 ∧ e = .read k ∨ fd = p.2 ∧ e = .write k) ∨ Names pipes (k + 1) fd e := by
  constructor
  · rintro ⟨j, q, hj, hq, hcase⟩
    rcases Nat.lt_or_eq_of_le hj with hlt | rfl
    · exact Or.inr ⟨j, q, hlt, hq, hcase⟩
    · obtain rfl : p = q := Option.some.inj (hp.symm.trans hq)
      exact Or.inl hcase
  · rintro (hcase | ⟨j, q, hj, hq, hcase⟩)
    · exact ⟨k, p, Nat.le_refl k, hp, hcase⟩
    · exact ⟨j, q, by omega, hq, hcase⟩

theorem names_concat :
    Names (pipes ++ [p]) 0 fd e ↔ Names pipes 0 fd e ∨
      fd = p.1 ∧ e = .read pipes.length ∨ fd = p.2 ∧ e = .write pipes.length := by
  constructor
  · rintro ⟨j, q, -, hq, hcase⟩
    rcases Nat.lt_or_ge j pipes.length with hlt | hge
    · rw [List.getElem?_append_left hlt] at hq
      exact Or.inl ⟨j, q, Nat.zero_le j, hq, hcase⟩
    · obtain rfl : j = pipes.length := by
        have hlen := (List.getElem?_eq_some_iff.mp hq).1
        rw [List.length_append, List.length_singleton] at hlen
        omega
      rw [List.getElem?_concat_length] at hq
      obtain rfl := Option.some.inj hq
      exact Or.inr hcase
  · rintro (⟨j, q, hj, hq, hcase⟩ | hcase)
    · have hlt := (List.getElem?_eq_some_iff.mp hq).1
      refine ⟨j, q, hj, ?_, hcase⟩
      rw [List.getElem?_append_left hlt]
      exact hq
    · exact ⟨pipes.length, p, Nat.zero_le _, List.getElem?_concat_length, hcase⟩

/-! ## The calls -/

/-- `pipe` with descriptors that are not in use. -/
theorem Holds.addPipe (h : Holds t W pipes 0) (hne : p.1 ≠ p.2) (hread : t p.1 = none)
    (hwrite : t p.2 = none) : Holds (addPipe t pipes.length p) W (pipes ++ [p]) 0 := by
  -- a descriptor that is not in use is no end so far
  have hnone : ∀ fd, t fd = none → ∀ e, ¬ (W fd e ∨ Names pipes 0 fd e) := by
    intro fd hfd e hor
    have hsome := (h fd e).mpr hor
    rw [hfd] at hsome
    cases hsome
  intro fd e
  rw [names_concat, ← or_assoc]
  by_cases hw : fd = p.2
  · subst hw
    -- the new write end
    have hfree := hnone p.2 hwrite e
    rw [Descriptors.addPipe, Function.update_self, Option.some.injEq]
    constructor
    · rintro rfl
      exact Or.inr (Or.inr ⟨rfl, rfl⟩)
    · rintro (hor | ⟨heq, -⟩ | ⟨-, rfl⟩)
      · exact absurd hor hfree
      · exact absurd heq.symm hne
      · rfl
  · by_cases hr : fd = p.1
    · subst hr
      -- the new read end
      have hfree := hnone p.1 hread e
      rw [Descriptors.addPipe, Function.update_of_ne hw, Function.update_self, Option.some.injEq]
      constructor
      · rintro rfl
        exact Or.inr (Or.inl ⟨rfl, rfl⟩)
      · rintro (hor | ⟨-, rfl⟩ | ⟨heq, -⟩)
        · exact absurd hor hfree
        · rfl
        · exact absurd heq hw
    · rw [Descriptors.addPipe, Function.update_of_ne hw, Function.update_of_ne hr, h fd e]
      constructor
      · exact Or.inl
      · rintro (hor | ⟨heq, -⟩ | ⟨heq, -⟩)
        · exact hor
        · exact absurd heq hr
        · exact absurd heq hw

/-- Descriptors that are not in use are put into the list. -/
theorem Apart.addPipe (h : Apart pipes) (hholds : Holds t W pipes 0) (hne : p.1 ≠ p.2)
    (habove : 2 < p.1 ∧ 2 < p.2) (hread : t p.1 = none) (hwrite : t p.2 = none) :
    Apart (pipes ++ [p]) := by
  -- the new descriptors are not in the list yet
  have hnew : ∀ fd, t fd = none → ∀ e, ¬ Names pipes 0 fd e := by
    intro fd hfd e hin
    have hsome := (hholds fd e).mpr (Or.inr hin)
    rw [hfd] at hsome
    cases hsome
  constructor
  · intro fd e hin
    rcases names_concat.mp hin with hin | ⟨rfl, -⟩ | ⟨rfl, -⟩
    · exact h.above fd e hin
    · exact habove.1
    · exact habove.2
  · intro fd e e' hin hin'
    rcases names_concat.mp hin with hin | ⟨rfl, rfl⟩ | ⟨rfl, rfl⟩
    · rcases names_concat.mp hin' with hin' | ⟨rfl, -⟩ | ⟨rfl, -⟩
      · exact h.once fd e e' hin hin'
      · exact absurd hin (hnew _ hread e)
      · exact absurd hin (hnew _ hwrite e)
    · rcases names_concat.mp hin' with hin' | ⟨-, rfl⟩ | ⟨heq, -⟩
      · exact absurd hin' (hnew _ hread e')
      · rfl
      · exact absurd heq hne
    · rcases names_concat.mp hin' with hin' | ⟨heq, -⟩ | ⟨-, rfl⟩
      · exact absurd hin' (hnew _ hwrite e')
      · exact absurd heq.symm hne
      · rfl

/-- `dup2` of a descriptor in the list to one of 0, 1 and 2 that is no pipe end. -/
theorem Holds.dup2 (h : Holds t W pipes 0) (hapart : Apart pipes) {old new : ℕ} {d : End}
    (hold : Names pipes 0 old d) (hnew : new ≤ 2) (hfree : ∀ e, ¬ W new e) :
    ∃ t', dup2 t old new = some t' ∧ Holds t' (fun fd e => W fd e ∨ fd = new ∧ e = d) pipes 0 := by
  have hopen : t old = some d := (h old d).mpr (Or.inr hold)
  refine ⟨Function.update t new (some d), by rw [Descriptors.dup2, hopen, Option.map_some], ?_⟩
  intro fd e
  by_cases hfd : fd = new
  · subst hfd
    rw [Function.update_self, Option.some.injEq]
    constructor
    · rintro rfl
      exact Or.inl (Or.inr ⟨rfl, rfl⟩)
    · rintro ((hW | ⟨-, rfl⟩) | hin)
      · exact absurd hW (hfree e)
      · rfl
      · -- the descriptors of the list are above 2
        have habove := hapart.above fd e hin
        omega
  · rw [Function.update_of_ne hfd, h fd e]
    constructor
    · rintro (hW | hin)
      · exact Or.inl (Or.inl hW)
      · exact Or.inr hin
    · rintro ((hW | ⟨heq, -⟩) | hin)
      · exact Or.inl hW
      · exact absurd heq hfd
      · exact Or.inr hin

/-- Both ends of the next pipe in the list are closed. -/
theorem Holds.closePipe (h : Holds t W pipes k) (hapart : Apart pipes) (hp : pipes[k]? = some p)
    (hW : ∀ fd e, W fd e → fd ≤ 2) : Holds (closePipe t p) W pipes (k + 1) := by
  -- what is closed is neither kept nor in the rest of the list
  have hclosed : ∀ fd, (∃ d, Names pipes 0 fd d ∧ (d = .read k ∨ d = .write k)) →
      ∀ e, ¬ (W fd e ∨ Names pipes (k + 1) fd e) := by
    rintro fd ⟨d, hd, hkind⟩ e (hin | hin)
    · have hle := hW fd e hin
      have habove := hapart.above fd d hd
      omega
    · obtain rfl : d = e := hapart.once fd d e hd hin.zero
      rcases hin with ⟨j, q, hj, -, ⟨-, rfl⟩ | ⟨-, rfl⟩⟩
      · rcases hkind with hkind | hkind
        · have hjk : j = k := End.read.inj hkind
          omega
        · cases hkind
      · rcases hkind with hkind | hkind
        · cases hkind
        · have hjk : j = k := End.write.inj hkind
          omega
  intro fd e
  by_cases hw : fd = p.2
  · subst hw
    have hnot := hclosed p.2 ⟨_, names_write hp, Or.inr rfl⟩ e
    rw [Descriptors.closePipe, close, Function.update_self]
    exact iff_of_false (by simp) hnot
  · by_cases hr : fd = p.1
    · subst hr
      have hnot := hclosed p.1 ⟨_, names_read hp, Or.inl rfl⟩ e
      rw [Descriptors.closePipe, close, Function.update_of_ne hw, close, Function.update_self]
      exact iff_of_false (by simp) hnot
    · rw [Descriptors.closePipe, close, Function.update_of_ne hw, close, Function.update_of_ne hr, h fd e,
        names_iff_succ hp]
      constructor
      · rintro (hin | (⟨heq, -⟩ | ⟨heq, -⟩) | hin)
        · exact Or.inl hin
        · exact absurd heq hr
        · exact absurd heq hw
        · exact Or.inr hin
      · rintro (hin | hin)
        · exact Or.inl hin
        · exact Or.inr (Or.inr hin)

/-- With all pipes closed only what is in `W` is open. -/
theorem Holds.all_closed (h : Holds t W pipes k) (hk : pipes.length ≤ k) (fd : ℕ) (e : End) :
    t fd = some e ↔ W fd e := by
  rw [h fd e]
  constructor
  · rintro (hW | hin)
    · exact hW
    · exact absurd hin (not_names_of_length_le hk)
  · exact Or.inl

end EmbeddedCourse.Descriptors
