import EmbeddedCourse.Lib.Cells
import Mathlib.Data.List.Perm.Basic

/-! # Bubble sort

Rounds over the front of a list that exchange neighbours where `swap` says so,
each round one element shorter than the one before. A round is a walk that
carries an element along (`carry`). With an order that `swap` decides, what it
carries to the end is a greatest element, and so the list ends up sorted. An
element that `swap` never exchanges divides the list into two that are sorted
apart.
-/

namespace EmbeddedCourse.Bubble

variable {α : Type*} (swap : α → α → Bool)

/-- Exchange the elements `j - 1` and `j` where `swap` says so. -/
def exchange (l : List α) (j : ℕ) : List α :=
  match l[j - 1]?, l[j]? with
  | some a, some b => if swap a b then (l.set j a).set (j - 1) b else l
  | _, _ => l

/-- `for (j = 1; j < m; ++j)` -/
def round (l : List α) (m : ℕ) : List α := (List.range' 1 (m - 1)).foldl (exchange swap) l

/-- `for (i = 0; i < n; ++i)` around a round over the first `n - i` elements. -/
def sort (l : List α) : List α :=
  (List.range l.length).foldl (fun r i => round swap r (l.length - i)) l

/-! ## A round -/

/-- The element `a` is carried along the list, and put down for a greater one. -/
def carry (a : α) : List α → List α
  | [] => [a]
  | b :: t => if swap a b then b :: carry a t else a :: carry b t

variable {swap}

theorem carry_perm (a : α) (t : List α) : (carry swap a t).Perm (a :: t) := by
  induction t generalizing a with
  | nil => exact List.Perm.refl _
  | cons b t ih =>
    rw [carry]
    split_ifs with hswap
    · exact ((ih a).cons b).trans (List.Perm.swap a b t)
    · exact (ih b).cons a

theorem exchange_middle (d : List α) (a b : α) (t : List α) :
    exchange swap (d ++ a :: b :: t) (d.length + 1) =
      if swap a b then d ++ b :: a :: t else d ++ a :: b :: t := by
  have ha : (d ++ a :: b :: t)[d.length + 1 - 1]? = some a := by simp
  have hb : (d ++ a :: b :: t)[d.length + 1]? = some b := by simp
  have hset : ((d ++ a :: b :: t).set (d.length + 1) a).set (d.length + 1 - 1) b = d ++ b :: a :: t := by
    have hcons : d ++ a :: b :: t = (d ++ [a]) ++ b :: t := by simp
    rw [hcons, Cells.set_middle (by simp), List.append_assoc, List.singleton_append, Nat.add_sub_cancel,
      Cells.set_middle rfl]
  unfold exchange
  rw [ha, hb]
  dsimp only
  rw [hset]

/-- The steps from an element on are the walk that carries it. -/
theorem foldl_exchange (d : List α) (a : α) (t r : List α) :
    (List.range' (d.length + 1) t.length).foldl (exchange swap) (d ++ a :: (t ++ r)) =
      d ++ carry swap a t ++ r := by
  induction t generalizing d a with
  | nil => simp [carry]
  | cons b t ih =>
    rw [List.length_cons, List.range'_succ, List.foldl_cons, List.cons_append, exchange_middle, carry]
    split_ifs with hswap
    · have hrest := ih (d ++ [b]) a
      rw [List.length_append, List.length_singleton] at hrest
      simpa using hrest
    · have hrest := ih (d ++ [a]) b
      rw [List.length_append, List.length_singleton] at hrest
      simpa using hrest

theorem round_cons (a : α) (t r : List α) :
    round swap (a :: (t ++ r)) (t.length + 1) = carry swap a t ++ r :=
  foldl_exchange [] a t r

/-! ## Rounds over a part of the list -/

theorem round_zero (l : List α) : round swap l 0 = l := rfl

/-- A round over the front of a list leaves the rest alone. -/
theorem round_append {l : List α} {m : ℕ} (hm : m ≤ l.length) (r : List α) :
    round swap (l ++ r) m = round swap l m ++ r := by
  cases l with
  | nil =>
    obtain rfl : m = 0 := Nat.le_zero.mp hm
    rfl
  | cons a t =>
    cases m with
    | zero => rfl
    | succ n =>
      have hn : (t.take n).length = n := by
        rw [List.length_take]
        exact Nat.min_eq_left (Nat.le_of_succ_le_succ hm)
      have hfront : ∀ r : List α,
          round swap (a :: (t.take n ++ r)) (n + 1) = carry swap a (t.take n) ++ r := by
        intro r
        have hround : round swap (a :: (t.take n ++ r)) ((t.take n).length + 1) = _ := round_cons a (t.take n) r
        rwa [hn] at hround
      have hsplit : t ++ r = t.take n ++ (t.drop n ++ r) := by
        rw [← List.append_assoc, List.take_append_drop]
      have hself := hfront (t.drop n)
      rw [List.take_append_drop] at hself
      rw [List.cons_append, hsplit, hfront, hself, List.append_assoc]

/-- A round over the whole list. -/
theorem round_length (a : α) (t : List α) : round swap (a :: t) (a :: t).length = carry swap a t := by
  have hround : round swap (a :: (t ++ [])) (t.length + 1) = _ := round_cons a t []
  rwa [List.append_nil, List.append_nil] at hround

theorem round_perm {l : List α} {m : ℕ} (hm : m ≤ l.length) : (round swap l m).Perm l := by
  have hfront : (round swap (l.take m) (l.take m).length).Perm (l.take m) := by
    cases l.take m with
    | nil => exact List.Perm.refl _
    | cons a t =>
      rw [round_length]
      exact carry_perm a t
  have hlen : (l.take m).length = m := List.length_take_of_le hm
  have hround : round swap (l.take m ++ l.drop m) m = _ := round_append (Nat.le_of_eq hlen.symm) (l.drop m)
  rw [hlen] at hfront
  rw [List.take_append_drop] at hround
  rw [hround]
  exact (hfront.append_right _).trans (List.Perm.of_eq (List.take_append_drop m l))

/-- The rounds of `sort` on a list, up to `n` of them. -/
def rounds (swap : α → α → Bool) (l : List α) (m n : ℕ) : List α :=
  (List.range n).foldl (fun r i => round swap r (m - i)) l

theorem rounds_succ (l : List α) (m n : ℕ) :
    rounds swap l m (n + 1) = round swap (rounds swap l m n) (m - n) := by
  unfold rounds
  rw [List.range_succ, List.foldl_append, List.foldl_cons, List.foldl_nil]

theorem rounds_perm {l : List α} {m : ℕ} (hm : m ≤ l.length) (n : ℕ) : (rounds swap l m n).Perm l := by
  induction n with
  | zero => exact List.Perm.refl _
  | succ n ih =>
    rw [rounds_succ]
    have hlen := ih.length_eq
    exact (round_perm (by omega)).trans ih

theorem sort_perm (l : List α) : (sort swap l).Perm l := rounds_perm (Nat.le_refl _) _

/-! ## The order -/

section

variable {le : α → α → Prop} (htotal : ∀ a b, le a b ∨ le b a)
  (htrans : ∀ a b c, le a b → le b c → le a c)

include htotal htrans

/-- What has been carried to the end is not below anything. -/
theorem carry_greatest (a : α) (t : List α)
    (hswap : ∀ x ∈ a :: t, ∀ y ∈ a :: t, swap x y ↔ ¬ le x y) :
    ∃ f m, carry swap a t = f ++ [m] ∧ ∀ x ∈ f, le x m := by
  induction t generalizing a with
  | nil => exact ⟨[], a, rfl, by simp⟩
  | cons b t ih =>
    have hab := hswap a (by simp) b (by simp)
    rw [carry]
    split_ifs with hs
    · -- `a` is carried on, and is not below `b`
      have hmem : ∀ x ∈ a :: t, x ∈ a :: b :: t := fun x hx => by
        rcases List.mem_cons.mp hx with rfl | hx <;> simp [*]
      rcases ih a fun x hx y hy => hswap x (hmem x hx) y (hmem y hy) with ⟨f, m, hcarry, hle⟩
      have ham : le a m := by
        have ha : a ∈ f ++ [m] := hcarry ▸ (carry_perm a t).mem_iff.mpr (by simp)
        rcases List.mem_append.mp ha with ha | ha
        · exact hle a ha
        · rw [List.mem_singleton.mp ha]
          exact (htotal m m).elim id id
      have hba : le b a := (htotal a b).resolve_left (hab.mp hs)
      refine ⟨b :: f, m, by rw [hcarry, List.cons_append], ?_⟩
      exact List.forall_mem_cons.mpr ⟨htrans b a m hba ham, hle⟩
    · have hmem : ∀ x ∈ b :: t, x ∈ a :: b :: t := fun x hx => List.mem_cons_of_mem a hx
      rcases ih b fun x hx y hy => hswap x (hmem x hx) y (hmem y hy) with ⟨f, m, hcarry, hle⟩
      have hbm : le b m := by
        have hb : b ∈ f ++ [m] := hcarry ▸ (carry_perm b t).mem_iff.mpr (by simp)
        rcases List.mem_append.mp hb with hb | hb
        · exact hle b hb
        · rw [List.mem_singleton.mp hb]
          exact (htotal m m).elim id id
      have hab' : le a b := by
        by_contra hnot
        exact hs (hab.mpr hnot)
      refine ⟨a :: f, m, by rw [hcarry, List.cons_append], ?_⟩
      exact List.forall_mem_cons.mpr ⟨htrans a b m hab' hbm, hle⟩

omit htotal htrans

/-- After some rounds the end of the list is sorted, and nothing in front of it is above it. -/
structure Settled (swap : α → α → Bool) (le : α → α → Prop) (l front back : List α) : Prop where
  perm : (front ++ back).Perm l
  sorted : back.Pairwise le
  above : ∀ x ∈ front, ∀ y ∈ back, le x y

include htotal htrans

/-- A round settles one element more. -/
theorem Settled.round {l front back : List α} (h : Settled swap le l front back) (hne : front ≠ [])
    (hswap : ∀ x ∈ l, ∀ y ∈ l, swap x y ↔ ¬ le x y) :
    ∃ f m, Bubble.round swap (front ++ back) front.length = f ++ (m :: back) ∧
      f.length + 1 = front.length ∧ Settled swap le l f (m :: back) := by
  rcases List.exists_cons_of_ne_nil hne with ⟨a, t, rfl⟩
  have hmem : ∀ x ∈ a :: t, x ∈ l := fun x hx => h.perm.mem_iff.mp (List.mem_append_left back hx)
  -- the round carries a greatest element of the front to its end
  rcases carry_greatest htotal htrans a t fun x hx y hy => hswap x (hmem x hx) y (hmem y hy)
    with ⟨f, m, hcarry, hle⟩
  have hperm : (f ++ [m]).Perm (a :: t) := hcarry ▸ carry_perm a t
  have hround : Bubble.round swap (a :: t ++ back) (a :: t).length = f ++ (m :: back) := by
    rw [List.cons_append, List.length_cons, round_cons, hcarry, List.append_assoc, List.singleton_append]
  have hlen : f.length + 1 = (a :: t).length := by
    have hl := hperm.length_eq
    rw [List.length_append, List.length_singleton] at hl
    exact hl
  have hin : ∀ x ∈ f ++ [m], x ∈ a :: t := fun x hx => hperm.mem_iff.mp hx
  refine ⟨f, m, hround, hlen, ?_, ?_, ?_⟩
  · -- the greatest element joins the sorted end
    have hassoc : f ++ (m :: back) = (f ++ [m]) ++ back := by simp
    rw [hassoc]
    exact (hperm.append_right back).trans h.perm
  · exact List.pairwise_cons.mpr ⟨fun y hy => h.above m (hin m (by simp)) y hy, h.sorted⟩
  · intro x hx y hy
    rcases List.mem_cons.mp hy with rfl | hy
    · exact hle x hx
    · exact h.above x (hin x (by simp [hx])) y hy

/-- The rounds leave a sorted list of the same elements. -/
theorem sort_spec (l : List α) (hswap : ∀ x ∈ l, ∀ y ∈ l, swap x y ↔ ¬ le x y) :
    (sort swap l).Perm l ∧ (sort swap l).Pairwise le := by
  have hrounds : ∀ n ≤ l.length, ∃ front back,
      (List.range n).foldl (fun r i => Bubble.round swap r (l.length - i)) l = front ++ back ∧
      front.length = l.length - n ∧ Settled swap le l front back := by
    intro n
    induction n with
    | zero =>
      intro _
      exact ⟨l, [], by simp, rfl, by simp, List.Pairwise.nil, by simp⟩
    | succ n ih =>
      intro hn
      rcases ih (by omega) with ⟨front, back, hfold, hlen, hset⟩
      have hne : front ≠ [] := List.ne_nil_of_length_pos (by omega)
      rcases hset.round htotal htrans hne hswap with ⟨f, m, hround, hf, hset'⟩
      refine ⟨f, m :: back, ?_, by omega, hset'⟩
      rw [List.range_succ, List.foldl_append, hfold, List.foldl_cons, List.foldl_nil, ← hlen, hround]
  rcases hrounds l.length (Nat.le_refl _) with ⟨front, back, hfold, hlen, hset⟩
  have hnil : front = [] := List.eq_nil_of_length_eq_zero (by omega)
  subst hnil
  unfold sort
  rw [hfold]
  exact ⟨hset.perm, hset.sorted⟩

end

/-! ## An element that is never exchanged -/

section

variable {x : α} (hx : ∀ y, swap y x = false ∧ swap x y = false)

include hx

theorem carry_self (r : List α) : carry swap x r = x :: round swap r r.length := by
  cases r with
  | nil => rfl
  | cons b r => rw [carry, if_neg (by simp [(hx b).2]), round_length]

/-- A walk puts down what it carries in front of such an element. -/
theorem carry_barrier (a : α) (t r : List α) :
    carry swap a (t ++ x :: r) = carry swap a t ++ x :: round swap r r.length := by
  induction t generalizing a with
  | nil =>
    have hstop : carry swap a (x :: r) = a :: carry swap x r := by
      rw [carry, if_neg (by simp [(hx a).1])]
    rw [List.nil_append, hstop, carry_self hx]
    rfl
  | cons b t ih =>
    rw [List.cons_append, carry, carry]
    split_ifs
    · rw [ih, List.cons_append]
    · rw [ih, List.cons_append]

/-- A round that goes beyond it is one over all that is in front and one over a
part of what is behind. -/
theorem round_barrier (A : List α) {B : List α} {m : ℕ} (hm : m ≤ B.length) :
    round swap (A ++ x :: B) (A.length + 1 + m) = round swap A A.length ++ x :: round swap B m := by
  have hlen : (B.take m).length = m := List.length_take_of_le hm
  have hfront : round swap (A ++ x :: B.take m) (A.length + 1 + m) =
      round swap A A.length ++ x :: round swap (B.take m) m := by
    have hall : A.length + 1 + m = (A ++ x :: B.take m).length := by
      rw [List.length_append, List.length_cons, hlen]
      omega
    rw [hall]
    cases A with
    | nil =>
      rw [List.nil_append, round_length, carry_self hx, hlen]
      rfl
    | cons a t =>
      rw [List.cons_append, round_length, carry_barrier hx, round_length, hlen]
  have hcut : A ++ x :: B = (A ++ x :: B.take m) ++ B.drop m := by
    rw [List.append_assoc, List.cons_append, List.take_append_drop]
  have hB : round swap B m = round swap (B.take m) m ++ B.drop m := by
    have hround : round swap (B.take m ++ B.drop m) m = _ := round_append (Nat.le_of_eq hlen.symm) (B.drop m)
    rwa [List.take_append_drop] at hround
  rw [hcut, round_append (by rw [List.length_append, List.length_cons, hlen]; omega), hfront, hB,
    List.append_assoc, List.cons_append]

/-- The rounds sort what is behind such an element on its own, and what is in
front of it up to a permutation. -/
theorem sort_barrier (A B : List α) :
    ∃ A', A'.Perm A ∧ sort swap (A ++ x :: B) = sort swap A' ++ x :: sort swap B := by
  have hlen : (A ++ x :: B).length = A.length + 1 + B.length := by
    rw [List.length_append, List.length_cons]
    omega
  -- as long as a round goes beyond the element, it goes over all that is in front
  have hlong : ∀ n ≤ B.length + 1, ∃ A', A'.Perm A ∧
      rounds swap (A ++ x :: B) (A.length + 1 + B.length) n = A' ++ x :: rounds swap B B.length n := by
    intro n
    induction n with
    | zero => exact fun _ => ⟨A, List.Perm.refl A, rfl⟩
    | succ n ih =>
      intro hn
      rcases ih (by omega) with ⟨A', hperm, hrounds⟩
      have hA := hperm.length_eq
      have hB : (rounds swap B B.length n).length = B.length := (rounds_perm (Nat.le_refl _) n).length_eq
      refine ⟨round swap A' A'.length, (round_perm (Nat.le_refl _)).trans hperm, ?_⟩
      have hm : A.length + 1 + B.length - n = A'.length + 1 + (B.length - n) := by omega
      rw [rounds_succ, hrounds, hm, round_barrier hx _ (by omega), rounds_succ]
  rcases hlong (B.length + 1) (Nat.le_refl _) with ⟨A', hperm, hrounds⟩
  have hA := hperm.length_eq
  have hsortB : rounds swap B B.length (B.length + 1) = sort swap B := by
    rw [rounds_succ, Nat.sub_self, round_zero]
    rfl
  rw [hsortB] at hrounds
  -- the other rounds do not reach it
  have hshort : ∀ n, rounds swap (A ++ x :: B) (A.length + 1 + B.length) (B.length + 1 + n) =
      rounds swap A' A'.length n ++ x :: sort swap B := by
    intro n
    induction n with
    | zero => exact hrounds
    | succ n ih =>
      have hm : A.length + 1 + B.length - (B.length + 1 + n) = A'.length - n := by omega
      have hkept : (rounds swap A' A'.length n).length = A'.length := (rounds_perm (Nat.le_refl _) n).length_eq
      rw [← Nat.add_assoc, rounds_succ, ih, hm, round_append (by omega), rounds_succ]
  refine ⟨A', hperm, ?_⟩
  have hall := hshort A'.length
  have hn : B.length + 1 + A'.length = (A ++ x :: B).length := by omega
  rw [hn, ← hlen] at hall
  exact hall

end

end EmbeddedCourse.Bubble
