import Mathlib.Algebra.BigOperators.Group.Finset.Piecewise
import Mathlib.Algebra.BigOperators.Group.List.Basic
import Mathlib.Algebra.Ring.Int.Defs
import Mathlib.Data.List.Basic
import Mathlib.Data.Fintype.Basic
import Mathlib.Logic.Function.Basic

/-! # Threads as scripts over counting semaphores

A thread is the list of operations it still has to do: waits and posts on
counting semaphores and actions of its own. Counting arguments about such
threads (no permit is created or lost) are arguments about weights: give every
operation a weight, and the load of a thread is the weight of what it still has
to do. An operation takes its weight off the load of its thread, so if it puts
the same amount into the shared state, the sum of both is conserved.
-/

namespace EmbeddedCourse.Script

/-- One operation of a thread. -/
inductive Op (σ α : Type) where
  | wait (s : σ)
  | post (s : σ)
  | act (a : α)
deriving DecidableEq, Repr

/-- The weight of what is still to be done. -/
def load {ι : Type} (w : ι → Int) (ops : List ι) : Int := (ops.map w).sum

/-- A thread that starts its loop again when the list is done. -/
def refill {ι : Type} (loop ops : List ι) : List ι :=
  match ops with
  | [] => loop
  | op :: ops => op :: ops

section

variable {ι : Type} (w : ι → Int)

@[simp] theorem load_nil : load w [] = 0 := rfl

@[simp] theorem load_cons (op : ι) (ops : List ι) : load w (op :: ops) = w op + load w ops := by
  simp [load]

@[simp] theorem load_append (ops ops' : List ι) :
    load w (ops ++ ops') = load w ops + load w ops' := by
  simp [load]

@[simp] theorem load_replicate (n : ℕ) (op : ι) : load w (List.replicate n op) = n * w op := by
  simp [load]

theorem load_refill {loop : List ι} (hloop : load w loop = 0) (ops : List ι) :
    load w (refill loop ops) = load w ops := by
  cases ops with
  | nil => exact hloop
  | cons op ops => rfl

/-- Replacing one entry changes a load by the difference. -/
theorem load_set {l : List ι} {i : ℕ} {x : ι} (h : l[i]? = some x) (y : ι) :
    load w (l.set i y) = load w l - w x + w y := by
  induction l generalizing i with
  | nil => simp at h
  | cons a l ih =>
    cases i with
    | zero =>
      obtain rfl : a = x := by simpa using h
      simp only [List.set_cons_zero, load_cons]
      omega
    | succ i =>
      have htail := ih (i := i) (by simpa using h)
      simp only [List.set_cons_succ, load_cons, htail]
      omega

/-- Entries of no weight can be left out. -/
theorem load_filter {l : List ι} {p : ι → Bool} (h : ∀ x ∈ l, p x = false → w x = 0) :
    load w (l.filter p) = load w l := by
  induction l with
  | nil => rfl
  | cons a l ih =>
    have htail := ih fun x hx => h x (List.mem_cons_of_mem a hx)
    cases hp : p a with
    | true => rw [List.filter_cons_of_pos hp, load_cons, load_cons, htail]
    | false =>
      have hskip : ¬ p a = true := by simp [hp]
      rw [List.filter_cons_of_neg hskip, load_cons, htail, h a List.mem_cons_self hp, Int.zero_add]

theorem load_nonneg {l : List ι} (h : ∀ x ∈ l, 0 ≤ w x) : 0 ≤ load w l := by
  induction l with
  | nil => simp
  | cons a l ih =>
    have ha := h a (by simp)
    have hl := ih fun x hx => h x (List.mem_cons_of_mem a hx)
    rw [load_cons]
    omega

/-- Non-negative weights that add up to nothing are all nothing. -/
theorem eq_zero_of_load {l : List ι} (h : ∀ x ∈ l, 0 ≤ w x) (hload : load w l ≤ 0) :
    ∀ x ∈ l, w x = 0 := by
  induction l with
  | nil => simp
  | cons a l ih =>
    have ha := h a (by simp)
    have hl : ∀ x ∈ l, 0 ≤ w x := fun x hx => h x (List.mem_cons_of_mem a hx)
    have hnn := load_nonneg w hl
    rw [load_cons] at hload
    intro x hx
    rcases List.mem_cons.mp hx with rfl | hx
    · omega
    · exact ih hl (by omega) x hx

theorem load_map {κ : Type} (f : κ → ι) (l : List κ) : load w (l.map f) = load (fun x => w (f x)) l := by
  simp [load, Function.comp_def]

/-- Weights of at most one that add up to the number of entries are all one. -/
theorem eq_one_of_load {l : List ι} (h : ∀ x ∈ l, w x ≤ 1) (hload : l.length ≤ load w l) :
    ∀ x ∈ l, w x = 1 := by
  -- what is missing to one is nowhere negative and nothing in all
  have hsum : load (fun x => 1 - w x) l = l.length - load w l := by
    clear h hload
    induction l with
    | nil => rfl
    | cons a l ih =>
      simp only [load_cons, ih, List.length_cons]
      push_cast
      omega
  intro x hx
  have hzero := eq_zero_of_load (fun x => 1 - w x) (fun x hx => by have := h x hx; omega)
    (by omega) x hx
  omega

end

/-! ## Semaphores -/

/-- The values of the semaphores. -/
abbrev Sems (σ : Type) := σ → ℕ

section

variable {σ α : Type} [DecidableEq σ]

/-- `sem_wait` that does not block. -/
def take (v : Sems σ) (x : σ) : Option (Sems σ) :=
  if 0 < v x then some (Function.update v x (v x - 1)) else none

/-- `sem_post`. -/
def give (v : Sems σ) (x : σ) : Sems σ := Function.update v x (v x + 1)

/-- What an operation does to the semaphores; `none` where it blocks. -/
def run (v : Sems σ) : Op σ α → Option (Sems σ)
  | .wait x => take v x
  | .post x => some (give v x)
  | .act _ => some v

/-- What an operation adds to the value `c` gives to the permits. -/
def effect (c : σ → Int) : Op σ α → Int
  | .wait x => - c x
  | .post x => c x
  | .act _ => 0

/-- The permits of the semaphores, a permit of `x` counted as `c x`. -/
def value [Fintype σ] (c : σ → Int) (v : Sems σ) : Int := ∑ x, c x * v x

theorem value_update [Fintype σ] (c : σ → Int) (v : Sems σ) (x : σ) (n : ℕ) :
    value c (Function.update v x n) = value c v + c x * (n - v x) := by
  have hterm : ∀ y, c y * (Function.update v x n y : Int) =
      c y * v y + if y = x then c x * (n - v x) else 0 := by
    intro y
    by_cases hy : y = x
    · subst hy
      rw [Function.update_self, if_pos rfl, ← mul_add]
      congr 1
      omega
    · rw [Function.update_of_ne hy, if_neg hy, add_zero]
  simp only [value, hterm, Finset.sum_add_distrib, Finset.sum_ite_eq', Finset.mem_univ, if_true]

theorem value_run [Fintype σ] (c : σ → Int) {v v' : Sems σ} {op : Op σ α}
    (h : run v op = some v') : value c v' = value c v + effect c op := by
  cases op with
  | wait x =>
    simp only [run, take] at h
    split_ifs at h with hpos
    obtain rfl := Option.some.inj h
    have hdiff : ((v x - 1 : ℕ) : Int) - v x = -1 := by omega
    rw [value_update, hdiff, effect, mul_neg_one]
  | post x =>
    obtain rfl := Option.some.inj h
    have hdiff : ((v x + 1 : ℕ) : Int) - v x = 1 := by omega
    rw [give, value_update, hdiff, effect, mul_one]
  | act a =>
    obtain rfl := Option.some.inj h
    rw [effect, add_zero]

/-- One permit of `m` counts one, all others nothing. -/
def only (m : σ) : σ → Int := fun x => if x = m then 1 else 0

@[simp] theorem value_only [Fintype σ] (m : σ) (v : Sems σ) : value (only m) v = v m := by
  simp [value, only]

end

end EmbeddedCourse.Script
