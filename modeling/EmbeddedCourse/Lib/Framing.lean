import Mathlib.Data.List.Basic

/-! # Lines of a stream

A stream is cut into lines at a separator. `frame` starts from the unfinished
line of what came before, so that a stream may come in pieces: the lines of two
pieces are those of the first one and then those of the second one behind the
unfinished line (`frame_append`). A reader may stop at a last line (`upTo`).
-/

namespace EmbeddedCourse.Framing

variable {α : Type*} [DecidableEq α] (sep : α)

/-- The lines that `s` finishes behind the unfinished line `p`, and the line that
is unfinished then. -/
def frame : List α → List α → List (List α) × List α
  | p, [] => ([], p)
  | p, b :: s =>
    if b = sep then
      let r := frame [] s
      (p :: r.1, r.2)
    else frame (p ++ [b]) s

/-- The finished lines of a stream. -/
def complete (s : List α) : List (List α) := (frame sep [] s).1

/-- What stands behind the last separator. -/
def pending (s : List α) : List α := (frame sep [] s).2

theorem frame_append (p a b : List α) :
    frame sep p (a ++ b) =
      ((frame sep p a).1 ++ (frame sep (frame sep p a).2 b).1, (frame sep (frame sep p a).2 b).2) := by
  induction a generalizing p with
  | nil => rfl
  | cons x a ih =>
    rw [List.cons_append, frame, frame]
    by_cases hx : x = sep
    · rw [if_pos hx, if_pos hx, ih]
      rfl
    · rw [if_neg hx, if_neg hx, ih]

variable {sep}

/-- Without a separator the line goes on. -/
theorem frame_open (p : List α) {q : List α} (hq : sep ∉ q) : frame sep p q = ([], p ++ q) := by
  induction q generalizing p with
  | nil => simp [frame]
  | cons b q ih =>
    have hb : b ≠ sep := fun he => hq (by simp [he])
    rw [frame, if_neg hb, ih _ fun hmem => hq (List.mem_cons_of_mem b hmem), List.append_assoc,
      List.singleton_append]

/-- The first separator finishes the line. -/
theorem frame_line (p : List α) {x : List α} (hx : sep ∉ x) (y : List α) :
    frame sep p (x ++ sep :: y) = ((p ++ x) :: (frame sep [] y).1, (frame sep [] y).2) := by
  rw [frame_append, frame_open p hx, frame, if_pos rfl]
  rfl

/-- One more piece of a stream. -/
theorem complete_append (a b : List α) :
    complete sep (a ++ b) = complete sep a ++ (frame sep (pending sep a) b).1 := by
  rw [complete, frame_append]
  rfl

/-- A stream of finished lines. -/
theorem complete_join {ls : List (List α)} (h : ∀ l ∈ ls, sep ∉ l) :
    complete sep (ls.map (· ++ [sep])).flatten = ls := by
  induction ls with
  | nil => rfl
  | cons l ls ih =>
    have hl := h l (by simp)
    have hih := ih fun x hx => h x (List.mem_cons_of_mem l hx)
    rw [List.map_cons, List.flatten_cons, List.append_assoc, List.singleton_append, complete,
      frame_line [] hl, List.nil_append]
    exact congrArg (l :: ·) hih

/-- The first line that a piece finishes ends at its first separator. -/
theorem frame_eq_cons {p s l : List α} {ls : List (List α)} (h : (frame sep p s).1 = l :: ls) :
    ∃ x y, s = x ++ sep :: y ∧ sep ∉ x ∧ l = p ++ x ∧ ls = complete sep y := by
  have hmem : sep ∈ s := by
    by_contra hout
    rw [frame_open p hout] at h
    exact absurd h (by simp)
  rcases List.eq_append_cons_of_mem hmem with ⟨x, y, rfl, hx⟩
  rw [frame_line p hx] at h
  rcases List.cons.inj h with ⟨hl, hrest⟩
  exact ⟨x, y, rfl, hx, hl.symm, hrest.symm⟩

/-! ## Up to a last line -/

variable {β : Type*} [DecidableEq β] {last : β}

/-- The lines up to the first one that is `last`, with it. -/
def upTo (last : β) : List β → List β
  | [] => []
  | l :: ls => if l = last then [l] else l :: upTo last ls

theorem upTo_append {ls : List β} (h : last ∉ ls) (ls' : List β) :
    upTo last (ls ++ ls') = ls ++ upTo last ls' := by
  induction ls with
  | nil => rfl
  | cons l ls ih =>
    have hl : l ≠ last := fun he => h (by simp [he])
    rw [List.cons_append, upTo, if_neg hl, ih fun hmem => h (List.mem_cons_of_mem l hmem)]
    rfl

theorem upTo_of_not_mem {ls : List β} (h : last ∉ ls) : upTo last ls = ls := by
  simpa [upTo] using upTo_append h []

/-- Without the last line among them, these are all lines. -/
theorem not_mem_of_upTo {ls : List β} (h : last ∉ upTo last ls) : last ∉ ls := by
  induction ls with
  | nil => exact List.not_mem_nil
  | cons l ls ih =>
    rw [upTo] at h
    split_ifs at h with hl
    · exact absurd (by simp [hl]) h
    · rcases not_or.mp (fun hmem => h (List.mem_cons.mpr hmem)) with ⟨hne, hrest⟩
      exact List.not_mem_cons_of_ne_of_not_mem hne (ih hrest)

/-- One line up to the last: it is the only line, or the last one. -/
theorem upTo_eq_singleton_iff {ls : List β} {l : β} :
    upTo last ls = [l] ↔ ∃ rest, ls = l :: rest ∧ (rest = [] ∨ l = last) := by
  cases ls with
  | nil => simp [upTo]
  | cons m rest =>
    rw [upTo]
    split_ifs with hm
    · simp only [List.cons.injEq, and_true]
      constructor
      · rintro rfl
        exact ⟨rest, ⟨rfl, rfl⟩, Or.inr hm⟩
      · rintro ⟨-, ⟨rfl, -⟩, -⟩
        rfl
    · cases rest with
      | nil => simp [upTo, eq_comm]
      | cons x rest =>
        constructor
        · intro h
          rw [upTo] at h
          split_ifs at h <;> simp at h
        · rintro ⟨rest', h, hor⟩
          rcases List.cons.inj h with ⟨rfl, rfl⟩
          exact absurd hor (by simp [hm])

end EmbeddedCourse.Framing
