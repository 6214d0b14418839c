import EmbeddedCourse.Calculator.Plugins
import EmbeddedCourse.Directory.Menu

/-! # The menu of the calculator

`menu` of `Calculator_v3/header.c`. With the loops of the two directories it makes up the
loops of the repository that go on after a failed `scanf`: at the end of the input it fails
again.
-/

namespace EmbeddedCourse.Calculator

open CString InputLoop
open Directory (scanfInt cleanBuffer length_scanfInt_le length_scanfInt_lt length_cleanBuffer_lt)

/-- A pass of the loop of `menu`; `call` is whether the function of a plugin comes back. -/
def pass (size : ℕ) (call : ℕ → Int → Int → Bool) (_ : Unit) (_ : Unit) (stdin : Bytes) :
    Option (Turn Unit UInt8) :=
  let (num, stdin) := scanfInt stdin
  match (num.map fun num => choose size (unsigned num)).getD .invalid with
  | .invalid => some (.go () (cleanBuffer stdin))
  | .exit => some .done
  | .plugin i =>
    let (x, stdin) := scanfInt stdin
    match x with
    | none => some (.go () (cleanBuffer stdin))
    | some x =>
      let (y, stdin) := scanfInt stdin
      match y with
      | none => some (.go () (cleanBuffer stdin))
      | some y => some (if call i x y = true then .go () stdin else .done)

theorem pass_eats (size : ℕ) (call : ℕ → Int → Int → Bool) :
    Eats (pass size call) (fun _ _ => True) (fun _ => True) where
  idle e s _ _ := rfl
  comes_back e s stdin _ _ hne := by
    have hread := length_scanfInt_le stdin
    unfold pass
    cases hscan : scanfInt stdin with
    | mk num text =>
      rw [hscan] at hread
      dsimp only at hread ⊢
      -- where one of the three numbers is missing, the rest of the line is read away
      cases num with
      | none => exact Or.inr ⟨(), _, rfl, trivial, length_cleanBuffer_lt hne hread⟩
      | some num =>
        have hlt := length_scanfInt_lt hscan
        rw [Option.map_some, Option.getD_some]
        cases choose size (unsigned num) with
        | invalid => exact Or.inr ⟨(), _, rfl, trivial, length_cleanBuffer_lt hne hread⟩
        | exit => exact Or.inl rfl
        | plugin i =>
          have hx := length_scanfInt_le text
          dsimp only
          generalize scanfInt text = first at hx ⊢
          obtain ⟨x, textx⟩ := first
          dsimp only at hx ⊢
          cases x with
          | none => exact Or.inr ⟨(), _, rfl, trivial, length_cleanBuffer_lt hne (by omega)⟩
          | some x =>
            have hy := length_scanfInt_le textx
            dsimp only
            generalize scanfInt textx = second at hy ⊢
            obtain ⟨y, texty⟩ := second
            dsimp only at hy ⊢
            cases y with
            | none => exact Or.inr ⟨(), _, rfl, trivial, length_cleanBuffer_lt hne (by omega)⟩
            | some y =>
              dsimp only
              split_ifs
              · exact Or.inr ⟨(), texty, rfl, trivial, by omega⟩
              · exact Or.inl rfl

/-! ## The three loops -/

open Directory

/-- Each menu loop makes finitely many passes exactly if no pass begins with the input used
up: without input nothing is read, and the loop goes on as it is. This is so for any input,
whatever the buffers hold when nothing can be read, wherever `malloc` finds room for a node
of the linked directory, and for any plugins. -/
theorem menus_end_iff (stdin : Bytes) (stale : ℕ → Record) {fuel : ℕ} (hfuel : 102 ≤ fuel)
    {env : ℕ → Record × Chain.Addr}
    (henv : Admissible (Menu.pass (Chain.operate fuel)) Chain.Unused env Chain.init stdin)
    (size : ℕ) (call : ℕ → Int → Int → Bool) :
    (Ends (Menu.pass Table.operate) stale Table.init stdin ↔
      ∀ n array, after (Menu.pass Table.operate) stale Table.init stdin n ≠ some (.go array [])) ∧
    (Ends (Menu.pass (Chain.operate fuel)) env Chain.init stdin ↔
      ∀ n array, after (Menu.pass (Chain.operate fuel)) env Chain.init stdin n ≠
        some (.go array [])) ∧
    (Ends (pass size call) (fun _ => ()) () stdin ↔
      ∀ n s, after (pass size call) (fun _ => ()) () stdin n ≠ some (.go s [])) := by
  refine ⟨?_, ?_, ?_⟩
  · exact ends_iff (Menu.pass_eats Table.operate_returns) ⟨_, _, Table.Packed.init⟩
      fun _ _ _ _ => trivial
  · exact ends_iff (Menu.pass_eats (Chain.operate_returns hfuel))
      ⟨[], Chain.Holds.init, Nat.zero_le _⟩ henv
  · exact ends_iff (pass_eats size call) trivial fun _ _ _ _ => trivial

/-- With 5 as the only input the loops end, four plugins loaded; no pass begins without. -/
theorem menus_end_five :
    (Ends (Menu.pass Table.operate) (fun _ => ⟨[], [], []⟩) Table.init [53, 10] ∧
      ∀ n array, after (Menu.pass Table.operate) (fun _ => ⟨[], [], []⟩) Table.init [53, 10] n ≠
        some (.go array [])) ∧
    (Ends (Menu.pass (Chain.operate 102)) (fun n => (⟨[], [], []⟩, n)) Chain.init [53, 10] ∧
      ∀ n array, after (Menu.pass (Chain.operate 102)) (fun n => (⟨[], [], []⟩, n)) Chain.init
        [53, 10] n ≠ some (.go array [])) ∧
    (Ends (pass 4 fun _ _ _ => true) (fun _ => ()) () [53, 10] ∧
      ∀ n s, after (pass 4 fun _ _ _ => true) (fun _ => ()) () [53, 10] n ≠ some (.go s [])) := by
  -- the one pass is that of item 5, which ends the loop
  have hdone : after (Menu.pass (Chain.operate 102)) (fun n => (⟨[], [], []⟩, n)) Chain.init
      [53, 10] 1 = some .done := rfl
  -- only the first pass gets an address from `malloc`
  have henv : Admissible (Menu.pass (Chain.operate 102)) Chain.Unused
      (fun n => (⟨[], [], []⟩, n)) Chain.init [53, 10] := by
    intro n array rest hgo
    cases n with
    | zero =>
      injection hgo with hgo
      injection hgo with harray
      rw [← harray]
      rfl
    | succ n =>
      rw [Nat.add_comm, after_done hdone] at hgo
      exact absurd hgo (by simp)
  rcases menus_end_iff [53, 10] (fun _ => ⟨[], [], []⟩) le_rfl henv 4 (fun _ _ _ => true) with
    ⟨htable, hchain, hcalculator⟩
  exact ⟨⟨⟨1, rfl⟩, htable.mp ⟨1, rfl⟩⟩, ⟨⟨1, hdone⟩, hchain.mp ⟨1, hdone⟩⟩,
    ⟨⟨1, rfl⟩, hcalculator.mp ⟨1, rfl⟩⟩⟩

/-- Without any input none of the loops ends. -/
theorem menus_without_input :
    ¬ Ends (Menu.pass Table.operate) (fun _ => ⟨[], [], []⟩) Table.init [] ∧
    ¬ Ends (Menu.pass (Chain.operate 102)) (fun n => (⟨[], [], []⟩, n)) Chain.init [] ∧
    ¬ Ends (pass 4 fun _ _ _ => true) (fun _ => ()) () [] := by
  refine ⟨?_, ?_, ?_⟩
  · exact not_ends_nil fun _ => rfl
  · exact not_ends_nil fun _ => rfl
  · exact not_ends_nil fun _ => rfl

end EmbeddedCourse.Calculator
