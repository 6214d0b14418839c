import EmbeddedCourse.Shells.Line

/-! # The shell

`Processes/Bash/main.c`: one command a line. The array of arguments is kept from
one round to the next, as the line is; a store behind its end, and the comparison
of a NULL with `exit`, are undefined.
-/

namespace EmbeddedCourse.Shells.Bash

open CString Tokens

/-- The variables of `main`, and the input that is left. -/
structure State where
  line : Bytes
  args : List Arg
  stdin : Bytes

/-- `args[i] = a` -/
def store (args : List Arg) (i : ℕ) (a : Arg) : Except Stop (List Arg) :=
  if i < args.length then .ok (args.set i a) else .error .undefined

/-- The body of the loop over the tokens. -/
def parseToken (_ : Bytes) (token : ℕ) (p : ℕ × List Arg) : Except Stop (ℕ × List Arg) :=
  (store p.2 p.1 (.token token)).map fun args => (p.1 + 1, args)

/-- The loop over the tokens, and `args[i] = NULL` behind it. -/
def parse (line : Bytes) (args : List Arg) : Except Stop (Bytes × List Arg) := do
  let (line, i, args) ← eachToken space parseToken (line.length + 1) line 0 (0, args)
  let args ← store args i .null
  .ok (line, args)

/-- The command that is started, unless it is `exit`. -/
def launch (line : Bytes) (args : List Arg) : Except Stop (List Bytes) :=
  match args.head? with
  | some (.token a) =>
    if cstr (line.drop a) = wordExit then .error .exited
    else
      match argv line args with
      | none => .error .undefined
      | some command => .ok command
  | _ => .error .undefined

/-- A round of `main`: the command that it starts, and the state for the next round. -/
def round (s : State) : Except Stop (List Bytes × State) := do
  let (line, stdin) := readLine s.line s.stdin
  let (line, args) ← parse line s.args
  let command ← launch line args
  .ok (command, { line := line, args := args, stdin := stdin })

/-- `main` at its start, with what the stack held in place of the line. -/
def start (line stdin : Bytes) : State :=
  { line := line, args := List.replicate maxNumberArguments .indeterminate, stdin := stdin }

/-! ## A round on the words of the line -/

theorem foldlM_parseToken (es : List (ℕ × Bytes)) (done tail : List Arg) :
    es.foldlM (fun p e => parseToken e.2 e.1 p) ((done.length, done ++ tail) : ℕ × List Arg) =
      if es.length ≤ tail.length then
        .ok (done.length + es.length, done ++ es.map (fun e => Arg.token e.1) ++ tail.drop es.length)
      else .error .undefined := by
  induction es generalizing done tail with
  | nil => simp [pure, Except.pure]
  | cons e es ih =>
    cases tail with
    | nil => simp [parseToken, store, Except.map, bind, Except.bind]
    | cons x tail =>
      have hlt : done.length < (done ++ x :: tail).length := by simp
      have hstep : parseToken e.2 e.1 (done.length, done ++ x :: tail) =
          .ok ((done ++ [Arg.token e.1]).length, done ++ [Arg.token e.1] ++ tail) := by
        rw [parseToken, store, if_pos hlt, Cells.set_middle rfl]
        simp [Except.map]
      rw [List.foldlM_cons, hstep]
      show es.foldlM _ _ = _
      rw [ih]
      simp [Nat.add_comm, Nat.add_left_comm]

theorem parse_string {l r : Bytes} (hno : NoNul l) (args : List Arg) :
    ∃ es : List (ℕ × Bytes), ∃ l' : Bytes, es.map Prod.snd = words space l ∧
      (∀ e ∈ es, cstr ((l' ++ 0 :: r).drop e.1) = e.2) ∧
      Lexed space (cstr (l' ++ 0 :: r)) ((words space l).take 1) ∧
      parse (l ++ 0 :: r) args =
        if es.length < args.length then
          .ok (l' ++ 0 :: r, es.map (fun e => Arg.token e.1) ++ .null :: args.drop (es.length + 1))
        else .error .undefined := by
  rcases eachToken_string zero_notMem_space (lexed_words l) hno r with ⟨es, l', -, hes, hline, hagain, hloop⟩
  refine ⟨es, l', hes, hline, hagain, ?_⟩
  have hfold := foldlM_parseToken es [] args
  rw [List.length_nil, List.nil_append, List.nil_append, Nat.zero_add] at hfold
  rw [parse, hloop, hfold]
  by_cases hlt : es.length < args.length
  · -- behind the last token there is room for the NULL
    have hdrop : args.drop es.length = args[es.length] :: args.drop (es.length + 1) :=
      List.drop_eq_getElem_cons hlt
    rw [if_pos (Nat.le_of_lt hlt), if_pos hlt, hdrop]
    have hlen : (es.map fun e => Arg.token e.1).length = es.length := by simp
    have hroom : es.length <
        (es.map (fun e => Arg.token e.1) ++ args[es.length] :: args.drop (es.length + 1)).length := by
      rw [List.length_append, hlen, List.length_cons]
      omega
    have hstore : store (es.map (fun e => Arg.token e.1) ++ args[es.length] :: args.drop (es.length + 1))
        es.length .null =
        .ok (es.map (fun e => Arg.token e.1) ++ .null :: args.drop (es.length + 1)) := by
      rw [store, if_pos hroom, Cells.set_middle hlen]
    show (store _ _ _).bind (fun args => .ok (l' ++ 0 :: r, args)) = _
    rw [hstore]
    rfl
  · rw [if_neg hlt]
    by_cases hle : es.length ≤ args.length
    · have hfull : args.drop es.length = [] := List.drop_eq_nil_of_le (by omega)
      have hstore : store (es.map fun e => Arg.token e.1) es.length .null = .error .undefined := by
        rw [store, if_neg (by simp)]
      rw [if_pos hle, hfull, List.append_nil]
      show (store _ _ _).bind (fun args => .ok (l' ++ 0 :: r, args)) = _
      rw [hstore]
      rfl
    · rw [if_neg hle]
      rfl

/-- Words that a round starts as a command. -/
def Runs (ws : List Bytes) : Prop := ws ≠ [] ∧ ws.head? ≠ some wordExit ∧ ws.length ≤ 63

/-- The tokens of a line are started if they are a command. -/
theorem launch_tokens {line : Bytes} {es : List (ℕ × Bytes)}
    (hline : ∀ e ∈ es, cstr (line.drop e.1) = e.2) (t : List Arg) :
    (Runs (es.map Prod.snd) → launch line (es.map (fun e => Arg.token e.1) ++ .null :: t) =
      .ok (es.map Prod.snd)) ∧
    (es.length ≤ 63 → ¬ Runs (es.map Prod.snd) →
      ∃ e, launch line (es.map (fun e => Arg.token e.1) ++ .null :: t) = .error e) := by
  have htokens := argv_row hline t
  cases es with
  | nil => exact ⟨fun hruns => absurd rfl hruns.1, fun _ _ => ⟨.undefined, rfl⟩⟩
  | cons e es =>
    have hfirst : cstr (line.drop e.1) = e.2 := hline e (by simp)
    constructor
    · -- the words are a command: the first one is not `exit`
      intro hruns
      have hne : cstr (line.drop e.1) ≠ wordExit := by
        rw [hfirst]
        intro he
        exact hruns.2.1 (by rw [List.map_cons, he]; rfl)
      unfold launch
      rw [htokens]
      simp [hne]
    · intro hlen hruns
      -- there are few enough words, so that the first one is `exit`
      have he : cstr (line.drop e.1) = wordExit := by
        by_contra hne
        rw [hfirst] at hne
        apply hruns
        refine ⟨by simp, ?_, by simpa using hlen⟩
        intro hhead
        exact hne (by simpa using hhead)
      refine ⟨.exited, ?_⟩
      unfold launch
      simp [he]

section

variable {s : State} {l r stdin : Bytes} (hread : readLine s.line s.stdin = (l ++ 0 :: r, stdin))
  (hargs : s.args.length = maxNumberArguments) (hl : Directory.Typed l)

include hread hargs hl

/-- A round on a line starts its words, and leaves the first of them in the line;
a line whose words are no command is not got through. -/
theorem round_words : (Runs (words space l) → ∃ s', round s = .ok (words space l, s') ∧
      s'.args.length = maxNumberArguments ∧ s'.stdin = stdin ∧
        Holds s'.line ((words space l).take 1)) ∧
    (¬ Runs (words space l) → ∃ e, round s = .error e) := by
  rcases parse_string (r := r) hl.noNul s.args with ⟨es, l', hes, hline, hagain, hparse⟩
  have hlen : es.length = (words space l).length := by rw [← hes, List.length_map]
  rw [hargs] at hparse
  constructor
  · intro hruns
    -- the words and the NULL behind them have room in `args`
    have hlt : es.length < maxNumberArguments := by
      rw [hlen]
      exact Nat.lt_succ_of_le hruns.2.2
    have hlaunch := (launch_tokens hline (s.args.drop (es.length + 1))).1 (hes ▸ hruns)
    rw [if_pos hlt] at hparse
    refine ⟨⟨l' ++ 0 :: r, es.map (fun e => Arg.token e.1) ++ .null :: s.args.drop (es.length + 1), stdin⟩,
      ?_, ?_, rfl, holds_first hl hagain⟩
    · rw [round, hread]
      dsimp only
      rw [hparse]
      show (launch _ _).bind _ = _
      rw [hlaunch, hes]
      rfl
    · dsimp only
      rw [List.length_append, List.length_map, List.length_cons, List.length_drop, hargs]
      unfold maxNumberArguments at hlt ⊢
      omega
  · intro hruns
    rw [round, hread]
    dsimp only
    rw [hparse]
    by_cases hlt : es.length < maxNumberArguments
    · have hle : es.length ≤ 63 := Nat.le_of_lt_succ hlt
      rcases (launch_tokens hline (s.args.drop (es.length + 1))).2 hle (hes ▸ hruns) with ⟨e, hlaunch⟩
      refine ⟨e, ?_⟩
      rw [if_pos hlt]
      show (launch _ _).bind _ = _
      rw [hlaunch]
      rfl
    · -- the NULL is written behind `args`
      refine ⟨.undefined, ?_⟩
      rw [if_neg hlt]
      rfl

end

end EmbeddedCourse.Shells.Bash
