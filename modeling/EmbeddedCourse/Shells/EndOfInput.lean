import EmbeddedCourse.Shells.Bash
import EmbeddedCourse.Shells.Counting

/-! # The end of the input

Neither shell looks at the result of `fgets`. At the end of the input the line
buffer is as the round before has left it, with a NUL behind its first word, so
that this word is started as a command again, in every round from then on.
-/

namespace EmbeddedCourse.Shells

open CString Tokens

/-! ## A round of the shell with pipes on one command -/

namespace Pipes

theorem findNumberCommand_noBar {l : Bytes} (hno : NoNul l) (hbar : 124 ∉ l) (rest : Bytes) :
    findNumberCommand (strncpy [] (l ++ 0 :: rest) ((cstr (l ++ 0 :: rest)).length + 1)) = some 1 := by
  rw [cstr_terminated hno, strncpy_string hno, findNumberCommand, findLoop_last hno hbar]

/-- Words that a round starts as a command. -/
def Runs (ws : List Bytes) : Prop := ws.length ≤ 63 ∧ wordExit ∉ ws

/-- A row that is filled without the word `exit` and has room for its NULL is a command. -/
theorem foldlM_not_runs {es : List (ℕ × Bytes)} (hbar : ∀ e ∈ es, e.2 ≠ bar)
    (hruns : ¬ Runs (es.map Prod.snd)) :
    ∃ e, (es.foldlM (fun p e => parseToken e.2 e.1 p) (⟨0, 0, free 1⟩ : Parser)).bind
      (fun p => p.store .null) = .error e := by
  have hnobar : bar ∉ es.map Prod.snd := by
    intro hmem
    rcases List.mem_map.mp hmem with ⟨e, he, heq⟩
    exact hbar e he heq
  have hzero : ((es.map Prod.snd).takeWhile (· ≠ wordExit)).count bar = 0 :=
    List.count_eq_zero.mpr fun hmem => hnobar (List.takeWhile_subset _ hmem)
  cases hfold : es.foldlM (fun p e => parseToken e.2 e.1 p) (⟨0, 0, free 1⟩ : Parser) with
  | error e => exact ⟨e, rfl⟩
  | ok q =>
    have hexit := foldlM_noExit hfold
    have hordinary : Ordinary (es.map Prod.snd) := fun w hw =>
      ⟨fun heq => hexit (heq ▸ hw), fun heq => hnobar (heq ▸ hw)⟩
    refine ⟨.undefined, ?_⟩
    by_contra hstore
    have hroom := (foldlM_room es (rows_free 1) ordinary_nil rfl (Nat.zero_le _)
      (by rw [hzero]; exact Nat.zero_lt_one)).mp (by rw [hfold]; exact hstore)
    rw [List.nil_append] at hroom
    exact hruns ⟨Nat.le_of_lt_succ ((room_nil hordinary).mp hroom), hexit⟩

theorem ne_bar_of_noBar {l w : Bytes} (hbar : 124 ∉ l) (hw : w ∈ words space l) : w ≠ bar := by
  rintro rfl
  exact hbar ((lexed_words l).mem_of_word hw (by decide))

section

variable {s : State} {l r stdin : Bytes} (hread : readLine s.line s.stdin = (l ++ 0 :: r, stdin))
  (hl : Directory.Typed l) (hbar : 124 ∉ l)

include hread hl hbar

/-- A round on a line without a bar starts its words, and leaves the first of them
in the line; a line whose words are no command is not got through. -/
theorem round_words : (Runs (words space l) → ∃ s', round s = .ok ([words space l], s') ∧
      s'.stdin = stdin ∧ Holds s'.line ((words space l).take 1)) ∧
    (¬ Runs (words space l) → ∃ e, round s = .error e) := by
  have hcount := findNumberCommand_noBar hl.noNul hbar r
  constructor
  · intro hruns
    -- without a bar the line is one command
    have hfits : ∀ c ∈ [words space l], Fits c := by
      intro c hc
      rw [List.mem_singleton.mp hc]
      refine ⟨hruns.1, fun w hw => ⟨?_, ne_bar_of_noBar hbar hw⟩⟩
      rintro rfl
      exact hruns.2 hw
    have hlexed : Lexed space l (pipeline [words space l]) := by
      rw [pipeline_singleton]
      exact lexed_words l
    rcases parse_lexed hfits (by simp) hl.noNul hlexed hcount
      with ⟨p, hparse, hnumber, hargs, l', hline, hagain⟩
    rw [pipeline_singleton, hline] at hagain
    rcases List.map_eq_singleton_iff.mp hargs with ⟨row, hrow, hargv⟩
    have hrun : runProcess p = .ok [words space l] := by
      rw [runProcess, hnumber, hrow]
      simp [hargv, pure, Except.pure, bind, Except.bind]
    refine ⟨⟨p.line, stdin⟩, ?_, rfl, hline ▸ holds_first hl hagain⟩
    rw [round, hread]
    dsimp only
    rw [hparse]
    show (runProcess p).bind _ = _
    rw [hrun]
    rfl
  · intro hruns
    rcases parse_fold hl.noNul (lexed_words l) hcount with ⟨es, l', hes, hline, hagain, hparse⟩
    -- there is no word at which the loop goes to the next row
    have hnobar : ∀ e ∈ es, e.2 ≠ bar := fun e he =>
      ne_bar_of_noBar hbar (hes ▸ List.mem_map_of_mem he)
    rcases foldlM_not_runs hnobar (hes ▸ hruns) with ⟨e, herror⟩
    refine ⟨e, ?_⟩
    rw [round, hread]
    dsimp only
    rw [hparse, herror]
    rfl

end

end Pipes

/-! ## The rounds of a shell -/

/-- What a shell starts in its first `n` rounds. -/
def executed {σ α : Type} (round : σ → Except Stop (α × σ)) : ℕ → σ → List α
  | 0, _ => []
  | n + 1, s =>
    match round s with
    | .error _ => []
    | .ok (command, s) => command :: executed round n s

/-- The input with the given lines. -/
def input (lines : List Bytes) : Bytes := lines.flatMap (· ++ [10])

/-- What a line of the input is to be for the law. -/
structure Entered (l : Bytes) : Prop where
  noNewline : 10 ∉ l
  length : l.length ≤ 1022
  words : words space l ≠ []
  few : (Tokens.words space l).length ≤ 63
  noBar : 124 ∉ l
  noExit : wordExit ∉ Tokens.words space l

instance (l : Bytes) : Decidable (Entered l) :=
  decidable_of_iff (10 ∉ l ∧ l.length ≤ 1022 ∧ words space l ≠ [] ∧ (words space l).length ≤ 63 ∧
      124 ∉ l ∧ wordExit ∉ words space l)
    ⟨fun h => ⟨h.1, h.2.1, h.2.2.1, h.2.2.2.1, h.2.2.2.2.1, h.2.2.2.2.2⟩,
      fun h => ⟨h.noNewline, h.length, h.words, h.few, h.noBar, h.noExit⟩⟩

/-- What both shells do in a round with the string in the line: words that run
are started, and the first of them is left in the line; others end the shell. -/
structure Lawful {σ α : Type} (round : σ → Except Stop (α × σ)) (line stdin : σ → Bytes)
    (command : List Bytes → α) (Runs : List Bytes → Prop) (Ready : σ → Prop) : Prop where
  round_words : ∀ (s : σ) (l r rest : Bytes), Ready s →
    readLine (line s) (stdin s) = (l ++ 0 :: r, rest) → Directory.Typed l → 124 ∉ l →
      (Runs (words space l) → ∃ s', round s = .ok (command (words space l), s') ∧ Ready s' ∧
        stdin s' = rest ∧ Holds (line s') ((words space l).take 1)) ∧
      (¬ Runs (words space l) → ∃ e, round s = .error e)
  first : ∀ ws, Runs ws → Runs (ws.take 1)

theorem lawful_bash : Lawful Bash.round Bash.State.line Bash.State.stdin id Bash.Runs
    fun s => s.args.length = maxNumberArguments where
  round_words := by
    intro s l r rest hready hread hl _
    rcases Bash.round_words hread hready hl with ⟨hruns, hnot⟩
    exact ⟨hruns, hnot⟩
  first := by
    intro ws hruns
    rcases List.exists_cons_of_ne_nil hruns.1 with ⟨w, ws, rfl⟩
    exact ⟨by simp, hruns.2.1, by simp⟩

theorem lawful_pipes : Lawful Pipes.round Pipes.State.line Pipes.State.stdin (fun ws => [ws]) Pipes.Runs
    fun _ => True where
  round_words := by
    intro s l r rest _ hread hl hbar
    rcases Pipes.round_words hread hl hbar with ⟨hruns, hnot⟩
    refine ⟨?_, hnot⟩
    intro h
    rcases hruns h with ⟨s', hround, hstdin, hholds⟩
    exact ⟨s', hround, trivial, hstdin, hholds⟩
  first := by
    intro ws hruns
    refine ⟨?_, fun hmem => hruns.2 (List.mem_of_mem_take hmem)⟩
    rw [List.length_take]
    omega

namespace Lawful

variable {σ α : Type} {round : σ → Except Stop (α × σ)} {line stdin : σ → Bytes}
  {command : List Bytes → α} {Runs : List Bytes → Prop} {Ready : σ → Prop} {s : σ}

/-- A round on a line of the input. -/
theorem round_line (h : Lawful round line stdin command Runs Ready) (hready : Ready s) {l : Bytes}
    (hnl : 10 ∉ l) (hlen : l.length ≤ 1022) (hbar : 124 ∉ l) {lines : List Bytes}
    (hstdin : stdin s = input (l :: lines)) :
    (Runs (words space (cstr l)) → ∃ s', round s = .ok (command (words space (cstr l)), s') ∧
      Ready s' ∧ stdin s' = input lines ∧ Holds (line s') ((words space (cstr l)).take 1)) ∧
    (¬ Runs (words space (cstr l)) → ∃ e, round s = .error e) := by
  have hcons : input (l :: lines) = l ++ 10 :: input lines := by simp [input]
  rcases readLine_line hnl hlen (line s) (input lines) with ⟨r, hread⟩
  rw [← hcons, ← hstdin] at hread
  apply h.round_words s (cstr l) r (input lines) hready hread
  · exact ⟨noNul_cstr l, fun h10 => hnl (List.takeWhile_subset _ h10)⟩
  · exact fun hmem => hbar (List.takeWhile_subset _ hmem)

/-- A round at the end of the input starts what the line still holds. -/
theorem round_eof (h : Lawful round line stdin command Runs Ready) (hready : Ready s)
    (hstdin : stdin s = []) {ws : List Bytes} (hholds : Holds (line s) ws)
    (hbar : ∀ w ∈ ws, 124 ∉ w) (hruns : Runs ws) :
    ∃ s', round s = .ok (command ws, s') ∧ Ready s' ∧ stdin s' = [] ∧ Holds (line s') (ws.take 1) := by
  rcases hholds with ⟨l, r, hline, hl, rfl⟩
  have hread : readLine (line s) (stdin s) = (l ++ 0 :: r, []) := by
    rw [hstdin, hline, readLine_nil hl]
  have hbarl : 124 ∉ l := by
    intro hmem
    rcases (lexed_words l).mem hmem with hspace | ⟨w, hw, hin⟩
    · exact absurd (show (124 : UInt8) ∈ space from hspace) (by decide)
    · exact hbar w hw hin
  exact (h.round_words s l r [] hready hread hl hbarl).1 hruns

/-- The first words of a line without a bar have none. -/
theorem noBar_first {l : Bytes} (hbar : 124 ∉ l) : ∀ w ∈ (words space (cstr l)).take 1, 124 ∉ w := by
  intro w hw hmem
  have hin := (lexed_words (cstr l)).mem_of_word (List.mem_of_mem_take hw) hmem
  exact hbar (List.takeWhile_subset _ hin)

/-- After a line there is always one command too many. -/
theorem not_once (h : Lawful round line stdin command Runs Ready) {lines : List Bytes}
    (hne : lines ≠ []) (hlines : ∀ l ∈ lines, Entered l) (hready : Ready s)
    (hstdin : stdin s = input lines) :
    ¬ ∀ n, executed round n s = (lines.map fun l => command (words space l)).take n := by
  induction lines generalizing s with
  | nil => exact absurd rfl hne
  | cons l lines ih =>
    intro honce
    have hl := hlines l (by simp)
    rcases h.round_line hready hl.noNewline hl.length hl.noBar hstdin with ⟨hround, hnot⟩
    by_cases hruns : Runs (words space (cstr l))
    · rcases hround hruns with ⟨s', hround, hready', hstdin', hholds⟩
      have htail : ∀ n, executed round n s' = (lines.map fun l => command (words space l)).take n := by
        intro n
        have hn := honce (n + 1)
        rw [executed, hround, List.map_cons, List.take_succ_cons] at hn
        exact (List.cons.inj hn).2
      cases lines with
      | nil =>
        -- the end of the input
        rcases h.round_eof hready' hstdin' hholds (noBar_first hl.noBar) (h.first _ hruns)
          with ⟨s'', hround', -⟩
        have hone := htail 1
        rw [executed, hround'] at hone
        simp at hone
      | cons k lines =>
        exact ih (by simp) (fun j hj => hlines j (List.mem_cons_of_mem l hj)) hready' hstdin' htail
    · rcases hnot hruns with ⟨e, herror⟩
      have hone := honce 1
      rw [executed, herror] at hone
      simp at hone

theorem take_append_replicate (L : List α) (x : α) {n m : ℕ} (h : n ≤ m) :
    (L ++ List.replicate m x).take n = L.take n ++ List.replicate (n - L.length) x := by
  rw [List.take_append, List.take_replicate, Nat.min_eq_left (by omega)]

/-- The rounds at the end of the input start the same word. -/
theorem executed_eof (h : Lawful round line stdin command Runs Ready) (hready : Ready s)
    (hstdin : stdin s = []) {ws : List Bytes} (hfirst : ws.take 1 = ws) (hholds : Holds (line s) ws)
    (hbar : ∀ w ∈ ws, 124 ∉ w) (hruns : Runs ws) (n : ℕ) :
    executed round n s = List.replicate n (command ws) := by
  induction n generalizing s with
  | zero => rfl
  | succ n ih =>
    rcases h.round_eof hready hstdin hholds hbar hruns with ⟨s', hround, hready', hstdin', hholds'⟩
    rw [hfirst] at hholds'
    rw [executed, hround, List.replicate_succ]
    dsimp only
    rw [ih hready' hstdin' hholds']

/-- Each line is started once, and then the first word of the last one for ever. -/
theorem executed_eq (h : Lawful round line stdin command Runs Ready) {ls : List Bytes} {l : Bytes}
    (hlines : ∀ k ∈ ls ++ [l], Entered k ∧ NoNul k ∧ Runs (words space k)) (hready : Ready s)
    (hstdin : stdin s = input (ls ++ [l])) (n : ℕ) :
    executed round n s = ((ls ++ [l]).map (fun k => command (words space k)) ++
      List.replicate n (command ((words space l).take 1))).take n := by
  induction ls generalizing s n with
  | nil =>
    rcases hlines l (by simp) with ⟨hl, hno, hruns⟩
    cases n with
    | zero => rfl
    | succ n =>
      have hstr := cstr_of_noNul hno
      rcases (h.round_line hready hl.noNewline hl.length hl.noBar hstdin).1 (hstr.symm ▸ hruns)
        with ⟨s', hround, hready', hstdin', hholds⟩
      have hbar := noBar_first hl.noBar
      rw [hstr] at hround hholds hbar
      have hfirst : ((words space l).take 1).take 1 = (words space l).take 1 := by
        rw [List.take_take, Nat.min_self]
      -- behind the last line `fgets` leaves the line as the round has left it
      have heof := h.executed_eof hready' hstdin' hfirst hholds hbar (h.first _ hruns) n
      rw [executed, hround, take_append_replicate _ _ (Nat.le_refl _)]
      dsimp only
      rw [heof]
      simp
  | cons k ls ih =>
    rcases hlines k (by simp) with ⟨hk, hno, hruns⟩
    cases n with
    | zero => rfl
    | succ n =>
      have hstr := cstr_of_noNul hno
      rcases (h.round_line hready hk.noNewline hk.length hk.noBar hstdin).1 (hstr.symm ▸ hruns)
        with ⟨s', hround, hready', hstdin', -⟩
      rw [hstr] at hround
      -- the first line is started, and the rest is that of the other lines
      have hrest := ih (fun j hj => hlines j (List.mem_cons_of_mem k hj)) hready' hstdin' n
      rw [executed, hround, List.cons_append, List.map_cons, List.cons_append, List.take_succ_cons,
        take_append_replicate _ _ (Nat.le_succ n)]
      dsimp only
      rw [hrest, take_append_replicate _ _ (Nat.le_refl n)]

end Lawful

/-! ## The result -/

/-- One command for each line of the input, with its words and in order, and
nothing behind them, whatever the line buffer holds at the start. -/
def OncePerLine {σ α : Type} (round : σ → Except Stop (α × σ)) (start : Bytes → Bytes → σ)
    (command : List Bytes → α) (lines : List Bytes) : Prop :=
  ∀ stale : Bytes, stale.length = maxLengthInputString → ∀ n,
    executed round n (start stale (input lines)) = (lines.map fun l => command (words space l)).take n

/-- A word in the buffer before anything has been read is started. -/
theorem Lawful.not_nothing {σ α : Type} {round : σ → Except Stop (α × σ)} {line stdin : σ → Bytes}
    {command : List Bytes → α} {Runs : List Bytes → Prop} {Ready : σ → Prop}
    (h : Lawful round line stdin command Runs Ready) {start : Bytes → Bytes → σ}
    (hline : ∀ stale i, line (start stale i) = stale) (hstdin : ∀ stale i, stdin (start stale i) = i)
    (hready : ∀ stale i, Ready (start stale i)) (hruns : Runs [[97]]) :
    ¬ OncePerLine round start command [] := by
  intro honce
  let stale : Bytes := [97] ++ 0 :: List.replicate 1022 0
  have hlen : stale.length = maxLengthInputString := by
    rw [List.length_append, List.length_cons, List.length_cons, List.length_replicate]
    rfl
  have hholds : Holds (line (start stale (input []))) [[97]] :=
    ⟨[97], List.replicate 1022 0, hline _ _, by decide, words_last (word_singleton (by decide))⟩
  rcases h.round_eof (s := start stale (input [])) (hready stale _) (hstdin stale _) hholds (by decide)
    hruns with ⟨s', hround, -⟩
  have hone := honce stale hlen 1
  rw [executed, hround] at hone
  simp at hone

/-- On no input does either shell start one command for each line and then none.
On lines without NUL each of them starts every line once, and then the first
word of the last line in every further round. -/
theorem shells_run_on (lines : List Bytes) (hlines : ∀ l ∈ lines, Entered l) :
    ¬ OncePerLine Bash.round Bash.start id lines ∧
      ¬ OncePerLine Pipes.round Pipes.start (fun ws => [ws]) lines ∧
      ∀ ls l, lines = ls ++ [l] → (∀ k ∈ lines, NoNul k) → ∀ stale n,
        executed Bash.round n (Bash.start stale (input lines)) =
          (lines.map (fun k => words space k) ++ List.replicate n ((words space l).take 1)).take n ∧
        executed Pipes.round n (Pipes.start stale (input lines)) =
          (lines.map (fun k => [words space k]) ++ List.replicate n [(words space l).take 1]).take n := by
  have hbash : ∀ l ∈ lines, Bash.Runs (words space l) := by
    intro l hl
    refine ⟨(hlines l hl).words, ?_, (hlines l hl).few⟩
    intro hhead
    exact (hlines l hl).noExit (List.mem_of_mem_head? hhead)
  have hready : ∀ stale i, (Bash.start stale i).args.length = maxNumberArguments := fun _ _ =>
    List.length_replicate ..
  refine ⟨?_, ?_, ?_⟩
  · by_cases hne : lines = []
    · -- with no input at all the first round has nothing to start
      rw [hne]
      exact lawful_bash.not_nothing (fun _ _ => rfl) (fun _ _ => rfl) hready ⟨by simp, by decide, by simp⟩
    · intro honce
      exact lawful_bash.not_once hne hlines (hready _ _) rfl (honce (List.replicate _ 0) List.length_replicate)
  · by_cases hne : lines = []
    · rw [hne]
      exact lawful_pipes.not_nothing (fun _ _ => rfl) (fun _ _ => rfl) (fun _ _ => trivial)
        ⟨by simp, by decide⟩
    · intro honce
      exact lawful_pipes.not_once hne hlines trivial rfl (honce (List.replicate _ 0) List.length_replicate)
  · rintro ls l rfl hno stale n
    constructor
    · exact lawful_bash.executed_eq (fun k hk => ⟨hlines k hk, hno k hk, hbash k hk⟩) (hready _ _) rfl n
    · exact lawful_pipes.executed_eq (fun k hk => ⟨hlines k hk, hno k hk, (hlines k hk).few,
        (hlines k hk).noExit⟩) trivial rfl n

/-- `ls -l` -/
def lsLong : Bytes := ascii ['l', 's', ' ', '-', 'l']

theorem shells_run_on_lsLong : ¬ OncePerLine Bash.round Bash.start id [lsLong] ∧
    ∀ stale, executed Pipes.round 2 (Pipes.start stale (input [lsLong])) =
      [[[ascii ['l', 's'], ascii ['-', 'l']]], [[ascii ['l', 's']]]] := by
  rcases shells_run_on [lsLong] (by decide) with ⟨hbash, -, hexact⟩
  refine ⟨hbash, fun stale => ?_⟩
  rw [(hexact [] lsLong rfl (by decide) stale 2).2]
  decide +kernel

/-- After `ls -l` both shells start `ls`. -/
theorem lsLong_not_once : ¬ OncePerLine Bash.round Bash.start id [lsLong] ∧
    ¬ OncePerLine Pipes.round Pipes.start (fun ws => [ws]) [lsLong] := by
  have hbash : executed Bash.round 2 (Bash.start (List.replicate 1024 0) (input [lsLong])) =
      [[ascii ['l', 's'], ascii ['-', 'l']], [ascii ['l', 's']]] := by
    decide +kernel
  have hpipes : executed Pipes.round 2 (Pipes.start (List.replicate 1024 0) (input [lsLong])) =
      [[[ascii ['l', 's'], ascii ['-', 'l']]], [[ascii ['l', 's']]]] := by
    decide +kernel
  constructor
  · intro honce
    have htwo := honce (List.replicate 1024 0) List.length_replicate 2
    rw [hbash] at htwo
    exact absurd htwo (by decide +kernel)
  · intro honce
    have htwo := honce (List.replicate 1024 0) List.length_replicate 2
    rw [hpipes] at htwo
    exact absurd htwo (by decide +kernel)

end EmbeddedCourse.Shells
