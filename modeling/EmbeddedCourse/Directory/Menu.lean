import EmbeddedCourse.Lib.InputLoop
import EmbeddedCourse.Directory.Scanning
import EmbeddedCourse.Directory.TableOccupancy
import EmbeddedCourse.Directory.ChainMenu

/-! # The menu loops of the directories

`main` of `Subscriber_directory` and `Subscriber_directory_v.2.0`: a number is read, the rest
of its line is dropped, and the operation reads its lines behind that. The two loops differ
in the operations only.
-/

namespace EmbeddedCourse.Directory.Menu

open CString InputLoop
open Chain (Item)

/-- The operation that a number stands for. -/
def item (ch : Int) : Option Item :=
  if ch = 1 then some .insert
  else if ch = 2 then some .delete
  else if ch = 3 then some .search
  else if ch = 4 then some .print
  else none

variable {σ ε : Type}

/-- A pass of the loop. An operation leaves a directory and the rest of the input. -/
def pass (op : Item → ε → σ → Bytes → Option (σ × Bytes)) (e : ε) (s : σ) (stdin : Bytes) :
    Option (Turn σ UInt8) :=
  let (ch, stdin) := scanfInt stdin
  let stdin := cleanBuffer stdin
  match ch with
  | none => some (.go s stdin)
  | some ch =>
    if ch = 5 then some .done
    else
      match item ch with
      | some i => (op i e s stdin).map fun (s, stdin) => .go s stdin
      | none => some (.go s stdin)

/-- The operations come back where `inv` holds, keep it, and give nothing back to the input. -/
def Returns (op : Item → ε → σ → Bytes → Option (σ × Bytes)) (ok : ε → σ → Prop) (inv : σ → Prop) :
    Prop :=
  ∀ i e s stdin, inv s → ok e s →
    ∃ s' rest, op i e s stdin = some (s', rest) ∧ inv s' ∧ rest.length ≤ stdin.length

theorem pass_eats {op : Item → ε → σ → Bytes → Option (σ × Bytes)} {ok : ε → σ → Prop}
    {inv : σ → Prop} (h : Returns op ok inv) : Eats (pass op) ok inv where
  idle e s _ _ := rfl
  comes_back e s stdin hs hok hne := by
    have hread := length_cleanBuffer_lt hne (length_scanfInt_le stdin)
    unfold pass
    generalize scanfInt stdin = out at hread
    obtain ⟨ch, text⟩ := out
    dsimp only at hread ⊢
    cases ch with
    | none => exact Or.inr ⟨s, _, rfl, hs, hread⟩
    | some ch =>
      dsimp only
      split_ifs with hexit
      · exact Or.inl rfl
      · cases item ch with
        | none => exact Or.inr ⟨s, _, rfl, hs, hread⟩
        | some i =>
          rcases h i e s (cleanBuffer text) hs hok with ⟨s', rest, hop, hs', hle⟩
          refine Or.inr ⟨s', rest, ?_, hs', by omega⟩
          simp only [hop, Option.map_some]

end EmbeddedCourse.Directory.Menu

namespace EmbeddedCourse.Directory.Table

open CString
open Chain (Item)

/-- The operations of the array directory. -/
def operate (i : Item) (stale : Record) (array : List Abonent) (stdin : Bytes) :
    Option (List Abonent × Bytes) :=
  match i with
  | .insert => some (insertAbonent stale array stdin).2
  | .delete => (deleteAbonent array stdin).map Prod.snd
  | .search => some (array, (searchAbonent array stdin).2)
  | .print => some (array, stdin)

theorem insertAbonent_rest_le (stale : Record) (array : List Abonent) (stdin : Bytes) :
    (insertAbonent stale array stdin).2.2.length ≤ stdin.length := by
  unfold insertAbonent
  dsimp only
  split_ifs
  · exact le_rfl
  · have hname := length_prompt_le stale.name stdin
    have hsecond := length_prompt_le stale.secondName (prompt stale.name stdin).2
    have htel := length_prompt_le stale.tel (prompt stale.secondName (prompt stale.name stdin).2).2
    dsimp only
    omega

theorem deleteAbonent_rest_le {array array' : List Abonent} {stdin rest : Bytes} {answer : Answer}
    (h : deleteAbonent array stdin = some (answer, array', rest)) : rest.length ≤ stdin.length := by
  have hname := length_prompt_le [] stdin
  unfold deleteAbonent at h
  dsimp only at h
  split_ifs at h
  · obtain rfl := (Prod.mk.inj (Prod.mk.inj (Option.some.inj h)).2).2
    exact le_rfl
  · rcases Option.map_eq_some_iff.mp h with ⟨array'', -, heq⟩
    obtain rfl := (Prod.mk.inj (Prod.mk.inj heq).2).2
    exact hname
  · obtain rfl := (Prod.mk.inj (Prod.mk.inj (Option.some.inj h)).2).2
    exact hname

theorem searchAbonent_rest_le (array : List Abonent) (stdin : Bytes) :
    (searchAbonent array stdin).2.length ≤ stdin.length := by
  unfold searchAbonent
  dsimp only
  split_ifs
  · exact le_rfl
  · exact length_prompt_le [] stdin
  · exact length_prompt_le [] stdin

/-- The records in use stand in front. -/
def InFront (array : List Abonent) : Prop := ∃ C Z, Packed C Z array

theorem operate_returns : Menu.Returns operate (fun _ _ => True) InFront := by
  rintro i stale array stdin ⟨C, Z, h⟩ -
  cases i with
  | insert =>
    rcases h.serve (q := .insert stale stdin) rfl with ⟨C', Z', h', -⟩
    exact ⟨_, _, rfl, ⟨C', Z', h'⟩, insertAbonent_rest_le stale array stdin⟩
  | delete =>
    rcases h.delete stdin with ⟨answer, array', rest, Z', hdel, h'⟩
    refine ⟨array', rest, ?_, ⟨_, Z', h'⟩, deleteAbonent_rest_le hdel⟩
    rw [operate, hdel, Option.map_some]
  | search => exact ⟨array, _, rfl, ⟨C, Z, h⟩, searchAbonent_rest_le array stdin⟩
  | print => exact ⟨array, stdin, rfl, ⟨C, Z, h⟩, le_rfl⟩

end EmbeddedCourse.Directory.Table

namespace EmbeddedCourse.Directory.Chain

open CString

/-- The operations of the linked directory; a pass gets what the buffers hold when nothing can
be read, and where `malloc` puts a node. -/
def operate (fuel : ℕ) (i : Item) (e : Record × Addr) (array : Abonent) (stdin : Bytes) :
    Option (Abonent × Bytes) :=
  match i with
  | .insert => (insertAbonent fuel e.2 e.1 array stdin).map Prod.snd
  | .delete => (deleteAbonent fuel e.1.name array stdin).map Prod.snd
  | .search => (searchAbonent fuel e.1.name array stdin).map fun (_, stdin) => (array, stdin)
  | .print => (printAllAbonents fuel array).map fun _ => (array, stdin)

/-- The address is not in use. -/
def Unused (e : Record × Addr) (array : Abonent) : Prop := array.heap e.2 = none

/-- A chain of no more than 101 nodes. -/
def Short (array : Abonent) : Prop := ∃ xs, Holds array xs ∧ xs.length ≤ 101

theorem length_entered_le (stale : Record) (stdin : Bytes) :
    (entered stale stdin).2.length ≤ stdin.length := by
  have hname := length_myGetline_le stale.name stdin
  have hsecond := length_myGetline_le stale.secondName (myGetline stale.name stdin).2
  have htel := length_myGetline_le stale.tel
    (myGetline stale.secondName (myGetline stale.name stdin).2).2
  unfold entered
  dsimp only
  omega

theorem operate_returns {fuel : ℕ} (hfuel : 102 ≤ fuel) : Menu.Returns (operate fuel) Unused Short := by
  rintro i ⟨stale, new⟩ array stdin ⟨xs, ha, hlen⟩ hnew
  have hfits : xs.length < fuel := by omega
  have hline := length_myGetline_le stale.name stdin
  cases i with
  | insert =>
    by_cases hroom : xs.length ≤ 100
    · rcases insertAbonent_entered ha hroom hfits hnew stale stdin with ⟨array', hins, ha'⟩
      refine ⟨array', _, ?_, ⟨_, ha', ?_⟩, length_entered_le stale stdin⟩
      · rw [operate, hins, Option.map_some]
      · rw [List.length_append, List.length_singleton]
        omega
    · -- the list is full, and nothing is read
      have hins := insertAbonent_full ha (Nat.lt_of_not_le hroom) fuel new stale stdin
      refine ⟨array, stdin, ?_, ⟨xs, ha, hlen⟩, le_rfl⟩
      rw [operate, hins, Option.map_some]
  | delete =>
    rcases deleteAbonent_cases ha hfits stale.name stdin with
      ⟨-, hdel⟩ | ⟨-, -, hdel⟩ | ⟨-, -, array', hdel, ha'⟩
    · refine ⟨array, stdin, ?_, ⟨xs, ha, hlen⟩, le_rfl⟩
      rw [operate, hdel, Option.map_some]
    · refine ⟨array, _, ?_, ⟨xs, ha, hlen⟩, hline⟩
      rw [operate, hdel, Option.map_some]
    · -- what is left of the chain is no longer than it was
      have hle : (removeFrom (myGetline stale.name stdin).1 xs).length ≤ xs.length :=
        List.length_filter_le _ _
      refine ⟨array', _, ?_, ⟨_, ha', by omega⟩, hline⟩
      rw [operate, hdel, Option.map_some]
  | search =>
    rcases searchAbonent_cases ha hfits stale.name stdin with ⟨-, hsearch⟩ | ⟨-, hsearch⟩
    · refine ⟨array, stdin, ?_, ⟨xs, ha, hlen⟩, le_rfl⟩
      rw [operate, hsearch, Option.map_some]
    · refine ⟨array, _, ?_, ⟨xs, ha, hlen⟩, hline⟩
      rw [operate, hsearch, Option.map_some]
  | print =>
    rcases printAllAbonents_holds ha hfits with ⟨out, hprint⟩
    refine ⟨array, stdin, ?_, ⟨xs, ha, hlen⟩, le_rfl⟩
    rw [operate, hprint, Option.map_some]

end EmbeddedCourse.Directory.Chain
