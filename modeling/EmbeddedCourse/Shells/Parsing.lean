import EmbeddedCourse.Shells.Pipes

/-! # Parsing inverts printing

A pipeline is printed with one space between two words and `" | "` between two
commands. The scan that counts the commands takes one command off the front of
the copy in each round (`findLoop_text`), and the loop over the tokens fills one
row of `args` after the other (`foldlM_pipeline`): both find the commands that
were printed.
-/

namespace EmbeddedCourse.Shells.Pipes

open CString Tokens

/-! ## Printing -/

/-- Words joined by one space. -/
def join (ws : List Bytes) : Bytes := space.intercalate ws

/-- Commands joined by `" | "`. -/
def text (cmds : List (List Bytes)) : Bytes := (ascii [' ', '|', ' ']).intercalate (cmds.map join)

/-- A word that a command can have. -/
structure Plain (w : Bytes) : Prop where
  nonempty : w ≠ []
  noNul : NoNul w
  noSpace : 32 ∉ w
  noNewline : 10 ∉ w
  noBar : 124 ∉ w
  notExit : w ≠ wordExit

instance (w : Bytes) : Decidable (Plain w) :=
  decidable_of_iff (w ≠ [] ∧ NoNul w ∧ 32 ∉ w ∧ 10 ∉ w ∧ 124 ∉ w ∧ w ≠ wordExit)
    ⟨fun h => ⟨h.1, h.2.1, h.2.2.1, h.2.2.2.1, h.2.2.2.2.1, h.2.2.2.2.2⟩,
      fun h => ⟨h.nonempty, h.noNul, h.noSpace, h.noNewline, h.noBar, h.notExit⟩⟩

/-- A command that fits a row of `args`. -/
structure Command (c : List Bytes) : Prop where
  nonempty : c ≠ []
  length : c.length ≤ 63
  plain : ∀ w ∈ c, Plain w

instance (c : List Bytes) : Decidable (Command c) :=
  decidable_of_iff (c ≠ [] ∧ c.length ≤ 63 ∧ ∀ w ∈ c, Plain w)
    ⟨fun h => ⟨h.1, h.2.1, h.2.2⟩, fun h => ⟨h.nonempty, h.length, h.plain⟩⟩

theorem Plain.word {w : Bytes} (h : Plain w) : Word space w := by
  refine ⟨h.nonempty, ?_⟩
  intro b hb hmem
  obtain rfl : b = 32 := by simpa [space, ascii] using hmem
  exact h.noSpace hb

theorem Plain.ne_bar {w : Bytes} (h : Plain w) : w ≠ bar := by
  rintro rfl
  exact h.noBar (by decide)

theorem join_cons (w w' : Bytes) (ws : List Bytes) : join (w :: w' :: ws) = w ++ 32 :: join (w' :: ws) := rfl

theorem text_cons (c c' : List Bytes) (cs : List (List Bytes)) :
    text (c :: c' :: cs) = join c ++ 32 :: 124 :: 32 :: text (c' :: cs) := rfl

@[simp] theorem join_singleton (w : Bytes) : join [w] = w := by simp [join]

@[simp] theorem text_singleton (c : List Bytes) : text [c] = join c := by simp [text]

theorem join_append (c : List Bytes) (hc : c ≠ []) (w : Bytes) (ws : List Bytes) :
    join (c ++ w :: ws) = join c ++ 32 :: join (w :: ws) := by
  induction c with
  | nil => exact absurd rfl hc
  | cons a c ih =>
    cases c with
    | nil => simp [join_cons]
    | cons b c =>
      rw [List.cons_append, List.cons_append, join_cons, join_cons, ← List.cons_append,
        ih (by simp), List.append_assoc, List.cons_append]

/-- The words of a pipeline, the bars between its commands included. -/
def pipeline (cmds : List (List Bytes)) : List Bytes := [bar].intercalate cmds

theorem pipeline_cons (c c' : List Bytes) (cs : List (List Bytes)) :
    pipeline (c :: c' :: cs) = c ++ bar :: pipeline (c' :: cs) := rfl

@[simp] theorem pipeline_singleton (c : List Bytes) : pipeline [c] = c := by simp [pipeline]

theorem pipeline_ne_nil {c : List Bytes} (hc : c ≠ []) (cs : List (List Bytes)) :
    pipeline (c :: cs) ≠ [] := by
  cases cs with
  | nil => simpa using hc
  | cons c' cs => simp [pipeline_cons]

/-- A pipeline is printed as its words are. -/
theorem text_eq_join {cmds : List (List Bytes)} (h : ∀ c ∈ cmds, c ≠ []) :
    text cmds = join (pipeline cmds) := by
  induction cmds with
  | nil => rfl
  | cons c cs ih =>
    cases cs with
    | nil => simp
    | cons c' cs =>
      have hc : c ≠ [] := h c (by simp)
      have hrest := ih fun d hd => h d (List.mem_cons_of_mem c hd)
      rcases List.exists_cons_of_ne_nil (pipeline_ne_nil (h c' (by simp)) cs) with ⟨w, ws, hw⟩
      rw [text_cons, pipeline_cons, join_append c hc, hrest, hw, join_cons]
      rfl

theorem lexed_join {w : Bytes} {ws : List Bytes} (h : ∀ v ∈ w :: ws, Word space v) :
    Lexed space (join (w :: ws)) (w :: ws) := by
  have hnil : Gap space [] := by simp [Gap]
  induction ws generalizing w with
  | nil =>
    rw [join_singleton]
    exact .last hnil (h w (by simp))
  | cons v ws ih =>
    rw [join_cons]
    exact .cons hnil (h w (by simp)) (by decide) (ih fun u hu => h u (List.mem_cons_of_mem w hu))

theorem mem_pipeline {cmds : List (List Bytes)} {w : Bytes} (hw : w ∈ pipeline cmds) :
    w = bar ∨ ∃ c ∈ cmds, w ∈ c := by
  induction cmds with
  | nil => exact absurd hw (by simp [pipeline])
  | cons c cs ih =>
    cases cs with
    | nil => exact Or.inr ⟨c, by simp, by simpa using hw⟩
    | cons c' cs =>
      rw [pipeline_cons] at hw
      rcases List.mem_append.mp hw with hw | hw
      · exact Or.inr ⟨c, by simp, hw⟩
      · rcases List.mem_cons.mp hw with hw | hw
        · exact Or.inl hw
        · rcases ih hw with hw | ⟨d, hd, hw⟩
          · exact Or.inl hw
          · exact Or.inr ⟨d, List.mem_cons_of_mem c hd, hw⟩

theorem mem_join {ws : List Bytes} {b : UInt8} (hb : b ∈ join ws) : b = 32 ∨ ∃ w ∈ ws, b ∈ w := by
  induction ws with
  | nil => exact absurd hb (by simp [join])
  | cons w ws ih =>
    cases ws with
    | nil => exact Or.inr ⟨w, by simp, by simpa using hb⟩
    | cons v ws =>
      rw [join_cons] at hb
      rcases List.mem_append.mp hb with hb | hb
      · exact Or.inr ⟨w, by simp, hb⟩
      · rcases List.mem_cons.mp hb with hb | hb
        · exact Or.inl hb
        · rcases ih hb with hb | ⟨u, hu, hb⟩
          · exact Or.inl hb
          · exact Or.inr ⟨u, List.mem_cons_of_mem w hu, hb⟩

section

variable {cmds : List (List Bytes)} (hcmds : ∀ c ∈ cmds, Command c)

include hcmds

theorem mem_text {b : UInt8} (hb : b ∈ text cmds) :
    b = 32 ∨ b = 124 ∨ ∃ c ∈ cmds, ∃ w ∈ c, b ∈ w := by
  rw [text_eq_join fun c hc => (hcmds c hc).nonempty] at hb
  rcases mem_join hb with rfl | ⟨w, hw, hb⟩
  · exact Or.inl rfl
  · rcases mem_pipeline hw with rfl | ⟨c, hc, hw⟩
    · exact Or.inr (Or.inl (by simpa [bar, ascii] using hb))
    · exact Or.inr (Or.inr ⟨c, hc, w, hw, hb⟩)

/-- A pipeline can be typed. -/
theorem typed_text : Directory.Typed (text cmds) := by
  constructor
  · intro h0
    rcases mem_text hcmds h0 with h0 | h0 | ⟨c, hc, w, hw, h0⟩
    · exact absurd h0 (by decide)
    · exact absurd h0 (by decide)
    · exact ((hcmds c hc).plain w hw).noNul h0
  · intro h10
    rcases mem_text hcmds h10 with h10 | h10 | ⟨c, hc, w, hw, h10⟩
    · exact absurd h10 (by decide)
    · exact absurd h10 (by decide)
    · exact ((hcmds c hc).plain w hw).noNewline h10

end

/-! ## Counting -/

theorem noBar_join {c : List Bytes} (hc : Command c) : 124 ∉ join c := by
  intro hmem
  rcases mem_join hmem with h | ⟨w, hw, h⟩
  · exact absurd h (by decide)
  · exact (hc.plain w hw).noBar h

theorem noNul_join {c : List Bytes} (hc : Command c) : NoNul (join c) := by
  intro hmem
  rcases mem_join hmem with h | ⟨w, hw, h⟩
  · exact absurd h (by decide)
  · exact (hc.plain w hw).noNul h

theorem strcspn_bar {l : Bytes} (hno : NoNul l) (hbar : 124 ∉ l) {b : UInt8} (hb : b = 0 ∨ b ∈ bar)
    (rest : Bytes) : strcspn (l ++ b :: rest) bar = l.length := by
  apply strcspn_stop hno _ hb
  intro c hc hmem
  obtain rfl : c = 124 := by simpa [bar, ascii] using hmem
  exact hbar hc

/-- A string without a bar is the last command. -/
theorem findLoop_last {l : Bytes} (hno : NoNul l) (hbar : 124 ∉ l) (n : ℕ) (rest : Bytes)
    (numberCommand : ℕ) : findLoop (n + 1) (l ++ 0 :: rest) numberCommand = some numberCommand := by
  rw [findLoop, strcspn_bar hno hbar (Or.inl rfl), cstr_terminated hno, if_pos rfl]

/-- A round at the first bar of the copy takes it off with the byte behind it. -/
theorem findLoop_bar {a t : Bytes} {b : UInt8} (hno : NoNul (a ++ 124 :: b :: t)) (hbar : 124 ∉ a)
    (n : ℕ) (rest : Bytes) (numberCommand : ℕ) :
    ∃ r, findLoop (n + 1) (a ++ 124 :: b :: t ++ 0 :: rest) numberCommand =
      findLoop n (t ++ 0 :: r) (numberCommand + 1) := by
  have hnoa : NoNul a := (NoNul.of_append hno).1
  have hnot : NoNul t := fun hmem => hno (by simp [hmem])
  have hsize : strcspn (a ++ 124 :: b :: t ++ 0 :: rest) bar = a.length := by
    rw [List.append_assoc]
    exact strcspn_bar hnoa hbar (Or.inr (by decide)) _
  have hlen : (a ++ 124 :: b :: t).length = a.length + 2 + t.length := by
    simp
    omega
  have hpre : a ++ 124 :: b :: t ++ 0 :: rest = (a ++ [124, b]) ++ (t ++ 0 :: rest) := by simp
  have hoff : a.length + 2 = (a ++ [124, b]).length := by simp
  have hdrop : (a ++ 124 :: b :: t ++ 0 :: rest).drop (a.length + 2) = t ++ 0 :: rest := by
    rw [hpre, hoff, List.drop_left]
  rcases memmove_string (a ++ [124, b]) t rest with ⟨r, hmove⟩
  refine ⟨r, ?_⟩
  rw [findLoop, hsize, cstr_terminated hno, if_neg (by omega), if_neg (by omega), hdrop,
    cstr_terminated hnot, hpre, hoff, hmove]

/-- Each round takes the first command off the copy, whatever stands behind its end. -/
theorem findLoop_text {cmds : List (List Bytes)} (hcmds : ∀ c ∈ cmds, Command c) (hne : cmds ≠ [])
    (n : ℕ) (hn : (text cmds).length < n) (rest : Bytes) (numberCommand : ℕ) :
    findLoop n (text cmds ++ 0 :: rest) numberCommand = some (numberCommand + cmds.length - 1) := by
  induction cmds generalizing n rest numberCommand with
  | nil => exact absurd rfl hne
  | cons c cs ih =>
    have hc := hcmds c (by simp)
    have hno := (typed_text hcmds).noNul
    obtain ⟨m, rfl⟩ : ∃ m, n = m + 1 := ⟨n - 1, by omega⟩
    cases cs with
    | nil =>
      rw [text_singleton, findLoop_last (noNul_join hc) (noBar_join hc)]
      simp
    | cons c' cs =>
      -- the bar is the first one behind the command and its space
      have hrest : ∀ d ∈ c' :: cs, Command d := fun d hd => hcmds d (List.mem_cons_of_mem c hd)
      have hstr : text (c :: c' :: cs) = (join c ++ [32]) ++ 124 :: 32 :: text (c' :: cs) := by
        simp [text_cons]
      have hnobar : 124 ∉ join c ++ [32] := by
        intro hmem
        rcases List.mem_append.mp hmem with hmem | hmem
        · exact noBar_join hc hmem
        · exact absurd hmem (by decide)
      rw [hstr] at hn hno
      rcases findLoop_bar hno hnobar m rest numberCommand with ⟨r, hround⟩
      rw [hstr, hround, ih hrest (by simp) m (by simp at hn; omega)]
      simp
      omega

/-- The commands are counted, in the copy that `main` makes of the line. -/
theorem findNumberCommand_text {cmds : List (List Bytes)} (hcmds : ∀ c ∈ cmds, Command c)
    (hne : cmds ≠ []) (rest : Bytes) :
    findNumberCommand (strncpy [] (text cmds ++ 0 :: rest) ((cstr (text cmds ++ 0 :: rest)).length + 1)) =
      some cmds.length := by
  have hno := (typed_text hcmds).noNul
  rw [cstr_terminated hno, strncpy_string hno, findNumberCommand, cstr_terminated hno,
    findLoop_text hcmds hne _ (by omega), Nat.add_sub_cancel_left]

/-! ## Filling the rows -/

/-- A store behind what has been stored in the row. -/
theorem store_middle (A : List (List Arg)) (done : List Arg) (x : Arg) (tail : List Arg)
    (R : List (List Arg)) (a : Arg) :
    Parser.store ⟨done.length, A.length, A ++ (done ++ x :: tail) :: R⟩ a =
      .ok ⟨done.length, A.length, A ++ (done ++ a :: tail) :: R⟩ := by
  have hget : (A ++ (done ++ x :: tail) :: R)[A.length]? = some (done ++ x :: tail) := by simp
  have hlt : done.length < (done ++ x :: tail).length := by simp
  rw [Parser.store]
  dsimp only
  rw [hget]
  dsimp only
  rw [if_pos hlt, Cells.set_middle rfl, Cells.set_middle rfl]

/-- The words of one command go into the free elements of its row. -/
theorem foldlM_command (es : List (ℕ × Bytes)) (hes : ∀ e ∈ es, e.2 ≠ wordExit ∧ e.2 ≠ bar)
    (A : List (List Arg))
    (done tail : List Arg) (htail : es.length ≤ tail.length) (R : List (List Arg)) :
    es.foldlM (fun p e => parseToken e.2 e.1 p) (⟨done.length, A.length, A ++ (done ++ tail) :: R⟩ : Parser) =
      .ok ⟨done.length + es.length, A.length,
        A ++ (done ++ es.map (fun e => Arg.token e.1) ++ tail.drop es.length) :: R⟩ := by
  induction es generalizing done tail with
  | nil => simp [pure, Except.pure]
  | cons e es ih =>
    have he := hes e (by simp)
    cases tail with
    | nil => simp at htail
    | cons x tail =>
      have hstore : parseToken e.2 e.1 ⟨done.length, A.length, A ++ (done ++ x :: tail) :: R⟩ =
          .ok ⟨(done ++ [Arg.token e.1]).length, A.length, A ++ (done ++ [Arg.token e.1] ++ tail) :: R⟩ := by
        rw [parseToken, if_neg he.1, if_neg he.2, store_middle]
        simp [Except.map]
      have hrest := ih (fun a ha => hes a (by simp [ha])) (done ++ [Arg.token e.1]) tail
        (by simpa using htail)
      rw [List.foldlM_cons, hstore]
      show es.foldlM _ _ = _
      rw [hrest]
      simp [Nat.add_comm, Nat.add_left_comm]

/-- The words of a command have room in a row, and none of them is special. -/
def Fits (c : List Bytes) : Prop := c.length ≤ 63 ∧ ∀ w ∈ c, w ≠ wordExit ∧ w ≠ bar

theorem Command.fits {c : List Bytes} (h : Command c) : Fits c :=
  ⟨h.length, fun w hw => ⟨(h.plain w hw).notExit, (h.plain w hw).ne_bar⟩⟩

/-- A command and the NULL behind it, in a row that was free. -/
theorem foldlM_row {c : List Bytes} (hc : Fits c) {es : List (ℕ × Bytes)}
    (hes : es.map Prod.snd = c) (A : List (List Arg)) {row : List Arg}
    (hrow : row.length = maxNumberArguments) (R : List (List Arg)) :
    ∃ t, (es.foldlM (fun p e => parseToken e.2 e.1 p) (⟨0, A.length, A ++ row :: R⟩ : Parser)).bind
        (fun p => p.store .null) =
      .ok ⟨es.length, A.length, A ++ (es.map (fun e => Arg.token e.1) ++ .null :: t) :: R⟩ := by
  have hlen : es.length = c.length := by rw [← hes, List.length_map]
  have hfits : es.length < row.length := by
    have hle := hc.1
    rw [hrow, maxNumberArguments]
    omega
  have hplain : ∀ e ∈ es, e.2 ≠ wordExit ∧ e.2 ≠ bar := fun e he =>
    hc.2 _ (hes ▸ List.mem_map_of_mem he)
  have hfold := foldlM_command es hplain A [] row (Nat.le_of_lt hfits) R
  rcases List.exists_cons_of_length_pos (l := row.drop es.length) (by simp; omega) with ⟨x, t, ht⟩
  refine ⟨t, ?_⟩
  rw [List.nil_append, List.nil_append, ht, List.length_nil, Nat.zero_add] at hfold
  have hdone : es.length = (es.map fun e => Arg.token e.1).length := by simp
  rw [hfold]
  show Parser.store _ _ = _
  rw [hdone, store_middle]

/-- A command and the bar behind it; the tokens behind the bar go to the next row. -/
theorem foldlM_row_bar {c : List Bytes} (hc : Fits c) {es : List (ℕ × Bytes)} (hes : es.map Prod.snd = c)
    {e : ℕ × Bytes} (hbar : e.2 = bar) (A : List (List Arg)) {row : List Arg}
    (hrow : row.length = maxNumberArguments) (R : List (List Arg)) :
    ∃ t, ∀ es₂ : List (ℕ × Bytes),
      (es ++ e :: es₂).foldlM (fun p e => parseToken e.2 e.1 p) (⟨0, A.length, A ++ row :: R⟩ : Parser) =
        es₂.foldlM (fun p e => parseToken e.2 e.1 p)
          (⟨0, A.length + 1, A ++ (es.map (fun e => Arg.token e.1) ++ .null :: t) :: R⟩ : Parser) := by
  rcases foldlM_row hc hes A hrow R with ⟨t, hfold⟩
  refine ⟨t, ?_⟩
  intro es₂
  rw [List.foldlM_append]
  cases hcmd : es.foldlM (fun p e => parseToken e.2 e.1 p) (⟨0, A.length, A ++ row :: R⟩ : Parser) with
  | error x =>
    rw [hcmd] at hfold
    cases hfold
  | ok q =>
    -- the NULL that would end the line is stored in the same place by the bar
    have hstore : q.store .null = .ok ⟨es.length, A.length,
        A ++ (es.map (fun e => Arg.token e.1) ++ .null :: t) :: R⟩ := by
      rw [hcmd] at hfold
      exact hfold
    have htoken : parseToken e.2 e.1 q = .ok ⟨0, A.length + 1,
        A ++ (es.map (fun e => Arg.token e.1) ++ .null :: t) :: R⟩ := by
      rw [hbar, parseToken, if_neg (by decide), if_pos rfl, hstore]
      rfl
    show (e :: es₂).foldlM (fun (p : Parser) (e : ℕ × Bytes) => parseToken e.2 e.1 p) q = _
    rw [List.foldlM_cons, htoken]
    rfl

/-- The loop over the tokens and the store behind it fill one row for each command. -/
theorem foldlM_pipeline {cmds : List (List Bytes)} (hcmds : ∀ c ∈ cmds, Fits c) (hne : cmds ≠ [])
    {es : List (ℕ × Bytes)} (hes : es.map Prod.snd = pipeline cmds) {line : Bytes}
    (hline : ∀ e ∈ es, cstr (line.drop e.1) = e.2) (A R : List (List Arg))
    (hR : R.length = cmds.length) (hrow : ∀ row ∈ R, row.length = maxNumberArguments) :
    ∃ p rows, (es.foldlM (fun p e => parseToken e.2 e.1 p) (⟨0, A.length, A ++ R⟩ : Parser)).bind
        (fun p => p.store .null) = .ok p ∧
      p.args = A ++ rows ∧ rows.map (argv line) = cmds.map some := by
  induction cmds generalizing es A R with
  | nil => exact absurd rfl hne
  | cons c cs ih =>
    have hc := hcmds c (by simp)
    cases R with
    | nil => simp at hR
    | cons row R =>
      cases cs with
      | nil =>
        obtain rfl : R = [] := by simpa using hR
        rw [pipeline_singleton] at hes
        rcases foldlM_row hc hes A (hrow row (by simp)) [] with ⟨t, hfold⟩
        refine ⟨_, [_], hfold, rfl, ?_⟩
        rw [List.map_singleton, argv_row hline, hes, List.map_singleton]
      | cons c' cs =>
        -- the command, the bar, and the commands behind it
        rw [pipeline_cons] at hes
        rcases List.map_eq_append_iff.mp hes with ⟨es₁, es₂, rfl, h₁, h₂⟩
        rcases List.map_eq_cons_iff.mp h₂ with ⟨e, es₂, rfl, hbar, h₂⟩
        rcases foldlM_row_bar hc h₁ hbar A (hrow row (by simp)) R with ⟨t, hfold⟩
        have hline₁ : ∀ e ∈ es₁, cstr (line.drop e.1) = e.2 := fun e he =>
          hline e (List.mem_append_left _ he)
        have hline₂ : ∀ e ∈ es₂, cstr (line.drop e.1) = e.2 := fun a ha =>
          hline a (List.mem_append_right _ (List.mem_cons_of_mem e ha))
        rcases ih (fun d hd => hcmds d (List.mem_cons_of_mem c hd)) (by simp) h₂ hline₂
          (A ++ [es₁.map (fun e => Arg.token e.1) ++ .null :: t]) R (by simpa using hR)
          (fun r hr => hrow r (List.mem_cons_of_mem row hr)) with ⟨p, rows, hrest, hargs, hrows⟩
        refine ⟨p, (es₁.map (fun e => Arg.token e.1) ++ .null :: t) :: rows, ?_, ?_, ?_⟩
        · rw [hfold, ← hrest, List.length_append, List.length_singleton, List.append_assoc]
          rfl
        · rw [hargs, List.append_assoc]
          rfl
        · rw [List.map_cons, argv_row hline₁, h₁, hrows]
          rfl

/-! ## The round trip -/

/-- The free rows of `args`. -/
def free (n : ℕ) : List (List Arg) :=
  List.replicate n (List.replicate maxNumberArguments .indeterminate)

/-- The loop over the tokens as a fold, when the commands have been counted. -/
theorem parse_fold {l : Bytes} {ws : List Bytes} (hno : NoNul l) (hlexed : Lexed space l ws)
    {rest : Bytes} {n : ℕ}
    (hcount : findNumberCommand (strncpy [] (l ++ 0 :: rest) ((cstr (l ++ 0 :: rest)).length + 1)) =
      some n) :
    ∃ es : List (ℕ × Bytes), ∃ l' : Bytes, es.map Prod.snd = ws ∧
      (∀ e ∈ es, cstr ((l' ++ 0 :: rest).drop e.1) = e.2) ∧
      Lexed space (cstr (l' ++ 0 :: rest)) (ws.take 1) ∧
      parse (l ++ 0 :: rest) =
        ((es.foldlM (fun p e => parseToken e.2 e.1 p) (⟨0, 0, free n⟩ : Parser)).bind
          fun p => p.store .null).map fun p => ⟨n, p.args, l' ++ 0 :: rest⟩ := by
  rcases eachToken_string zero_notMem_space hlexed hno rest
    with ⟨es, l', -, hes, hline, hagain, hloop⟩
  refine ⟨es, l', hes, hline, hagain, ?_⟩
  have hrun := hloop parseToken ⟨0, 0, free n⟩
  unfold free at hrun
  rw [parse]
  dsimp only
  rw [hcount]
  dsimp only
  rw [hrun]
  unfold free
  cases es.foldlM (fun p e => parseToken e.2 e.1 p) (⟨0, 0, List.replicate n
      (List.replicate maxNumberArguments .indeterminate)⟩ : Parser) with
  | error e => rfl
  | ok q =>
    show (q.store .null).bind (fun p => .ok (⟨n, p.args, l' ++ 0 :: rest⟩ : Parsed)) =
      (q.store .null).map fun p => ⟨n, p.args, l' ++ 0 :: rest⟩
    -- and behind the loop the last row gets its NULL
    cases q.store .null <;> rfl

/-- What a round of `main` makes of a line that consists of the words of `cmds`. -/
theorem parse_lexed {cmds : List (List Bytes)} (hcmds : ∀ c ∈ cmds, Fits c) (hne : cmds ≠ [])
    {l : Bytes} (hno : NoNul l) (hlexed : Lexed space l (pipeline cmds)) {rest : Bytes}
    (hcount : findNumberCommand (strncpy [] (l ++ 0 :: rest) ((cstr (l ++ 0 :: rest)).length + 1)) =
      some cmds.length) :
    ∃ p, parse (l ++ 0 :: rest) = .ok p ∧ p.numberCommands = cmds.length ∧
      p.args.map (argv p.line) = cmds.map some ∧
      ∃ l', p.line = l' ++ 0 :: rest ∧ Lexed space (cstr p.line) ((pipeline cmds).take 1) := by
  rcases parse_fold hno hlexed hcount with ⟨es, l', hes, hline, hagain, hparse⟩
  have hfree : ∀ row ∈ free cmds.length, row.length = maxNumberArguments := by
    intro row hrow
    rw [List.eq_of_mem_replicate hrow, List.length_replicate]
  rcases foldlM_pipeline hcmds hne hes hline [] (free cmds.length) (List.length_replicate ..) hfree
    with ⟨p, rows, hfold, hargs, hrows⟩
  rw [List.nil_append, List.length_nil] at hfold
  rw [hfold] at hparse
  refine ⟨⟨cmds.length, p.args, l' ++ 0 :: rest⟩, hparse, rfl, ?_, l', rfl, hagain⟩
  rw [hargs]
  exact hrows

/-- For every pipeline that fits the line, typed at the prompt, whatever the
buffer held before and whatever is typed after it: the commands are counted
right, and row `k` of `args` is the words of command `k` followed by NULL. -/
theorem parse_text (cmds : List (List Bytes)) (hcmds : ∀ c ∈ cmds, Command c) (hne : cmds ≠ [])
    (hlen : (text cmds).length ≤ 1022) (line rest : Bytes) :
    ∃ p, parse (readLine line (text cmds ++ 10 :: rest)).1 = .ok p ∧
      p.numberCommands = cmds.length ∧ p.args.length = cmds.length ∧
      ∀ k (hk : k < cmds.length), (p.args[k]?).bind (argv p.line) = some cmds[k] := by
  have htyped := typed_text hcmds
  have hwords : ∀ w ∈ pipeline cmds, Word space w := by
    intro w hw
    rcases mem_pipeline hw with rfl | ⟨c, hc, hw⟩
    · exact word_singleton (by decide)
    · exact ((hcmds c hc).plain w hw).word
  -- typed with single blanks, the line is the words of the pipeline
  have hlexed : Lexed space (text cmds) (pipeline cmds) := by
    rcases List.exists_cons_of_ne_nil hne with ⟨c, cs, rfl⟩
    rcases List.exists_cons_of_ne_nil (pipeline_ne_nil (hcmds c (by simp)).nonempty cs) with ⟨w, ws, hw⟩
    rw [text_eq_join fun d hd => (hcmds d hd).nonempty, hw]
    apply lexed_join
    rw [← hw]
    exact hwords
  rcases readLine_line htyped.noNewline hlen line rest with ⟨r, hread⟩
  rw [cstr_of_noNul htyped.noNul] at hread
  rw [hread]
  rcases parse_lexed (fun c hc => (hcmds c hc).fits) hne htyped.noNul hlexed (findNumberCommand_text hcmds hne r)
    with ⟨p, hparse, hnumber, hargs, -⟩
  refine ⟨p, hparse, hnumber, ?_, ?_⟩
  · have hlens := congrArg List.length hargs
    simpa using hlens
  · intro k hk
    have hget := congrArg (fun rows => rows[k]?) hargs
    simp only [List.getElem?_map, List.getElem?_eq_getElem hk, Option.map_some] at hget
    cases hrow : p.args[k]? with
    | none =>
      rw [hrow] at hget
      cases hget
    | some row =>
      rw [hrow] at hget
      exact Option.some.inj hget

/-- `ls -l | wc -l` -/
theorem parse_text_ls : ∃ p,
    parse (readLine [] (text [[[108, 115], [45, 108]], [[119, 99], [45, 108]]] ++ 10 :: [])).1 = .ok p ∧
      p.numberCommands = 2 ∧ (p.args[1]?).bind (argv p.line) = some [[119, 99], [45, 108]] := by
  rcases parse_text [[[108, 115], [45, 108]], [[119, 99], [45, 108]]] (by decide +kernel) (by simp)
    (by decide) [] [] with ⟨p, hparse, hnumber, -, hargs⟩
  exact ⟨p, hparse, hnumber, hargs 1 (by decide)⟩

end EmbeddedCourse.Shells.Pipes
