import Mathlib.Data.List.Basic
import Mathlib.Data.List.Nodup

/-! # Doubly linked chains

A heap maps addresses to cells, and a cell has a link to the next one, a link
back, and a content. `Linked` says that the cells at the given addresses hold
the given contents and are linked to their neighbours in both directions. It
speaks of a cell by the parts of the chain before and behind it, so that taking
a cell out of the middle and adding one at the end need no induction.
-/

namespace EmbeddedCourse.DLinked

/-- The links of a kind of cell, and how they are set. -/
structure Links (ν α δ : Type) where
  next : ν → Option α
  pred : ν → Option α
  content : ν → δ
  setNext : ν → Option α → ν
  setPred : ν → Option α → ν
  next_setNext : ∀ c v, next (setNext c v) = v
  pred_setNext : ∀ c v, pred (setNext c v) = pred c
  content_setNext : ∀ c v, content (setNext c v) = content c
  next_setPred : ∀ c v, next (setPred c v) = next c
  pred_setPred : ∀ c v, pred (setPred c v) = v
  content_setPred : ∀ c v, content (setPred c v) = content c

attribute [simp] Links.next_setNext Links.pred_setNext Links.content_setNext
  Links.next_setPred Links.pred_setPred Links.content_setPred

section

variable {ν α δ : Type}

/-- The address of the first cell. -/
def first (xs : List (α × δ)) : Option α := xs.head?.map Prod.fst

/-- The address of the last cell. -/
def last (xs : List (α × δ)) : Option α := xs.getLast?.map Prod.fst

@[simp] theorem first_nil : first ([] : List (α × δ)) = none := rfl

@[simp] theorem first_cons (p : α × δ) (xs : List (α × δ)) : first (p :: xs) = some p.1 := rfl

@[simp] theorem last_nil : last ([] : List (α × δ)) = none := rfl

@[simp] theorem last_concat (xs : List (α × δ)) (p : α × δ) : last (xs ++ [p]) = some p.1 := by
  simp [last]

theorem first_append (xs ys : List (α × δ)) :
    first (xs ++ ys) = if xs = [] then first ys else first xs := by
  cases xs <;> simp [first]

theorem last_append (xs ys : List (α × δ)) :
    last (xs ++ ys) = if ys = [] then last xs else last ys := by
  cases hys : ys.getLast? with
  | none =>
    have hnil : ys = [] := List.getLast?_eq_none_iff.mp hys
    simp [hnil]
  | some p =>
    have hne : ys ≠ [] := by
      rintro rfl
      simp at hys
    rw [if_neg hne, last, last, List.getLast?_append, hys]
    rfl

theorem last_append_cons (l : List (α × δ)) (p : α × δ) (r : List (α × δ)) :
    last (l ++ p :: r) = if r = [] then some p.1 else last r := by
  have hcons : l ++ p :: r = (l ++ [p]) ++ r := by simp
  rw [hcons, last_append, last_concat]

theorem mem_of_first {xs : List (α × δ)} {a : α} (h : first xs = some a) :
    a ∈ xs.map Prod.fst := by
  cases xs with
  | nil => simp at h
  | cons p xs =>
    obtain rfl : p.1 = a := by simpa using h
    simp

theorem mem_of_last {xs : List (α × δ)} {a : α} (h : last xs = some a) :
    a ∈ xs.map Prod.fst := by
  rcases Option.map_eq_some_iff.mp h with ⟨p, hp, rfl⟩
  exact List.mem_map_of_mem (List.mem_of_getLast? hp)

/-- No address comes twice. -/
theorem last_ne {l r : List (α × δ)} {p : α × δ} (h : ((l ++ p :: r).map Prod.fst).Nodup) :
    last r ≠ some p.1 := by
  intro he
  rw [List.map_append, List.map_cons, List.nodup_middle, List.nodup_cons] at h
  exact h.1 (List.mem_append_right _ (mem_of_last he))

theorem first_ne {l r : List (α × δ)} {p : α × δ} (h : ((l ++ p :: r).map Prod.fst).Nodup) :
    first l ≠ some p.1 := by
  intro he
  rw [List.map_append, List.map_cons, List.nodup_middle, List.nodup_cons] at h
  exact h.1 (List.mem_append_left _ (mem_of_first he))

variable (K : Links ν α δ)

/-- The cells of the chain `xs`. -/
structure Linked (h : α → Option ν) (xs : List (α × δ)) : Prop where
  nodup : (xs.map Prod.fst).Nodup
  cell : ∀ l p r, xs = l ++ p :: r →
    ∃ c, h p.1 = some c ∧ K.content c = p.2 ∧ K.pred c = last l ∧ K.next c = first r

variable {K} {h : α → Option ν} {xs l r : List (α × δ)} {p : α × δ}

theorem Linked.nil : Linked K h [] where
  nodup := List.nodup_nil
  cell := by simp

/-- What a cell of the chain is linked to. -/
theorem Linked.at (hl : Linked K h (l ++ p :: r)) :
    ∃ c, h p.1 = some c ∧ K.content c = p.2 ∧ K.pred c = last l ∧ K.next c = first r :=
  hl.cell l p r rfl

theorem Linked.live (hl : Linked K h xs) {a : α} (ha : a ∈ xs.map Prod.fst) : ∃ c, h a = some c := by
  rcases List.mem_map.mp ha with ⟨p, hp, rfl⟩
  rcases List.append_of_mem hp with ⟨l, r, rfl⟩
  rcases hl.at with ⟨c, hc, -⟩
  exact ⟨c, hc⟩

/-! ## Changing a heap -/

variable [DecidableEq α]

/-- Change the cell a link points to. -/
def patch (h : α → Option ν) (link : Option α) (f : ν → ν) : α → Option ν :=
  fun x => if link = some x then (h x).map f else h x

/-- Take a cell away. -/
def clear (h : α → Option ν) (a : α) : α → Option ν := fun x => if x = a then none else h x

/-- Add a cell. -/
def add (h : α → Option ν) (a : α) (c : ν) : α → Option ν := fun x => if x = a then some c else h x

@[simp] theorem patch_none (h : α → Option ν) (f : ν → ν) : patch h none f = h := by
  funext x
  simp [patch]

/-- Changing one cell and taking another one away can be done in either order. -/
theorem patch_clear (h : α → Option ν) {a : α} {link : Option α} (hne : link ≠ some a)
    (f : ν → ν) : patch (clear h a) link f = clear (patch h link f) a := by
  funext x
  by_cases hx : x = a
  · subst hx
    simp [patch, clear, hne]
  · simp [patch, clear, hx]

theorem patch_add (h : α → Option ν) {a : α} {link : Option α} (hne : link ≠ some a) (c : ν)
    (f : ν → ν) : patch (add h a c) link f = add (patch h link f) a c := by
  funext x
  by_cases hx : x = a
  · subst hx
    simp [patch, add, hne]
  · simp [patch, add, hx]

variable (K) in
/-- Link the neighbours of a cell to each other and take it away. -/
def unlink (h : α → Option ν) (before after : Option α) (a : α) : α → Option ν :=
  clear (patch (patch h before fun c => K.setNext c after) after fun c => K.setPred c before) a

variable (K) in
/-- Link a new cell behind the last one. -/
def link (h : α → Option ν) (before : Option α) (a : α) (c : ν) : α → Option ν :=
  add (patch h before fun c => K.setNext c (some a)) a c

/-- Where the entry `q` of a chain `l ++ r` is. -/
theorem append_split {β : Type} {l r l₁ r₁ : List β} {q : β} (h : l ++ r = l₁ ++ q :: r₁) :
    (∃ l₂, l = l₁ ++ q :: l₂ ∧ r₁ = l₂ ++ r) ∨ ∃ r₂, r = r₂ ++ q :: r₁ ∧ l₁ = l ++ r₂ := by
  rcases List.append_eq_append_iff.mp h with ⟨m, hl₁, hr⟩ | ⟨m, hl, hqr⟩
  · exact Or.inr ⟨m, hr, hl₁⟩
  · cases m with
    | nil =>
      rw [List.append_nil] at hl
      exact Or.inr ⟨[], by simpa using hqr.symm, by simp [hl]⟩
    | cons b m =>
      rcases List.cons.inj hqr with ⟨rfl, rfl⟩
      exact Or.inl ⟨m, hl, rfl⟩

/-- Unlinking a cell takes it out of the chain. -/
theorem Linked.unlink (hl : Linked K h (l ++ p :: r)) :
    Linked K (DLinked.unlink K h (last l) (first r) p.1) (l ++ r) := by
  have hnodup := hl.nodup
  rw [List.map_append, List.map_cons, List.nodup_middle, List.nodup_cons, List.nodup_append] at hnodup
  rcases hnodup with ⟨hp, hnl, hnr, hdisj⟩
  constructor
  · rw [List.map_append, List.nodup_append]
    exact ⟨hnl, hnr, hdisj⟩
  · intro l₁ q r₁ hsplit
    rcases append_split hsplit with ⟨l₂, rfl, rfl⟩ | ⟨r₂, rfl, rfl⟩
    · -- a cell in front of the one taken out
      have hold := (show Linked K h (l₁ ++ q :: (l₂ ++ p :: r)) by simpa using hl).at
      rcases hold with ⟨c, hc, hcon, hpred, hnext⟩
      have hqp : q.1 ≠ p.1 := fun he => hp (by simp [← he])
      have hafter : first r ≠ some q.1 := fun he =>
        hdisj q.1 (by simp) q.1 (mem_of_first he) rfl
      by_cases hlast : l₂ = []
      · subst hlast
        refine ⟨K.setNext c (first r), ?_, by simp [hcon], by simp [hpred], by simp⟩
        simp [DLinked.unlink, clear, patch, hqp, hafter, hc]
      · have hbefore : last (l₁ ++ q :: l₂) ≠ some q.1 := by
          rw [last_append_cons, if_neg hlast]
          exact last_ne hnl
        refine ⟨c, ?_, hcon, hpred, ?_⟩
        · simp [DLinked.unlink, clear, patch, hqp, hafter, hbefore, hc]
        · rw [hnext, first_append, first_append, if_neg hlast, if_neg hlast]
    · -- a cell behind it
      have hold := (show Linked K h ((l ++ p :: r₂) ++ q :: r₁) by simpa using hl).at
      rcases hold with ⟨c, hc, hcon, hpred, hnext⟩
      have hqp : q.1 ≠ p.1 := fun he => hp (by simp [← he])
      have hbefore : last l ≠ some q.1 := fun he =>
        hdisj q.1 (mem_of_last he) q.1 (by simp) rfl
      by_cases hfirst : r₂ = []
      · subst hfirst
        refine ⟨K.setPred c (last l), ?_, by simp [hcon], by simp, by simp [hnext]⟩
        simp [DLinked.unlink, clear, patch, hqp, hbefore, hc]
      · have hafter : first (r₂ ++ q :: r₁) ≠ some q.1 := by
          rw [first_append, if_neg hfirst]
          exact first_ne hnr
        refine ⟨c, ?_, hcon, ?_, hnext⟩
        · simp [DLinked.unlink, clear, patch, hqp, hafter, hbefore, hc]
        · rw [hpred, last_append_cons, last_append, if_neg hfirst, if_neg hfirst]

/-- Linking a new cell behind the last one adds it to the chain. -/
theorem Linked.link (hl : Linked K h xs) {a : α} (ha : a ∉ xs.map Prod.fst) {c : ν}
    (hpred : K.pred c = last xs) (hnext : K.next c = none) :
    Linked K (DLinked.link K h (last xs) a c) (xs ++ [(a, K.content c)]) where
  nodup := by
    rw [List.map_append, List.nodup_append]
    refine ⟨hl.nodup, by simp, fun b hb b' hb' he => ha ?_⟩
    obtain rfl : b' = a := by simpa using hb'
    exact he ▸ hb
  cell := by
    intro l₁ q r₁ hsplit
    rcases append_split hsplit with ⟨l₂, rfl, rfl⟩ | ⟨r₂, hr, rfl⟩
    · rcases hl.at with ⟨d, hd, hcon, hpred', hnext'⟩
      have hqa : q.1 ≠ a := fun he => ha (by simp [← he])
      by_cases hlast : l₂ = []
      · subst hlast
        refine ⟨K.setNext d (some a), ?_, by simp [hcon], by simp [hpred'], by simp⟩
        simp [DLinked.link, add, patch, hqa, hd]
      · have hbefore : last (l₁ ++ q :: l₂) ≠ some q.1 := by
          rw [last_append_cons, if_neg hlast]
          exact last_ne hl.nodup
        refine ⟨d, ?_, hcon, hpred', ?_⟩
        · simp [DLinked.link, add, patch, hqa, hbefore, hd]
        · rw [hnext', first_append, if_neg hlast]
    · -- the new cell
      have hone : r₂ = [] ∧ q = (a, K.content c) ∧ r₁ = [] := by
        cases r₂ with
        | nil =>
          rcases List.cons.inj hr with ⟨hq, hr₁⟩
          exact ⟨rfl, hq.symm, hr₁.symm⟩
        | cons b r₂ => simp at hr
      rcases hone with ⟨rfl, rfl, rfl⟩
      refine ⟨c, by simp [DLinked.link, add], rfl, by simpa using hpred, by simpa using hnext⟩

end

end EmbeddedCourse.DLinked
