import EmbeddedCourse.Shells.Parsing

/-! # The counted and the parsed commands

The rows of `args` are counted by one scan of the line and filled by another.
`find_number_command` counts every bar that it comes to and skips the byte behind it;
the loop over the tokens ends a row at a bar between blanks only. They agree exactly
on the lines whose bars stand alone (`agree_iff`).
-/

namespace EmbeddedCourse.Shells.Pipes

open CString Tokens

/-! ## Counting in any line -/

/-- A bar at the end of the string would be skipped with the terminator. -/
theorem findLoop_end {a : Bytes} (hno : NoNul a) (hbar : 124 ∉ a) (n : ℕ) (rest : Bytes)
    (numberCommand : ℕ) : findLoop (n + 1) (a ++ 124 :: 0 :: rest) numberCommand = none := by
  have hsize : strcspn (a ++ 124 :: 0 :: rest) bar = a.length :=
    strcspn_bar hno hbar (Or.inr (by decide)) _
  have hcstr : cstr (a ++ 124 :: 0 :: rest) = a ++ [124] := by
    have hend : NoNul (a ++ [124]) := hno.append (by decide)
    have hassoc : a ++ 124 :: 0 :: rest = (a ++ [124]) ++ 0 :: rest := by simp
    rw [hassoc, cstr_terminated hend]
  rw [findLoop, hsize, hcstr, if_neg (by simp), if_pos (by simp)]

/-- The bars that are counted in a string: behind each of them a byte is skipped, which
has to be one of the string. -/
def scan : Bytes → Option ℕ
  | [] => some 0
  | [b] => if b = 124 then none else some 0
  | b :: c :: l => if b = 124 then (scan l).map (· + 1) else scan (c :: l)

theorem scan_cons {b : UInt8} (hb : b ≠ 124) (l : Bytes) : scan (b :: l) = scan l := by
  cases l with
  | nil => simp [scan, hb]
  | cons c l => rw [scan, if_neg hb]

theorem scan_bar (c : UInt8) (l : Bytes) : scan (124 :: c :: l) = (scan l).map (· + 1) := by
  rw [scan, if_pos rfl]

theorem scan_append {a : Bytes} (ha : 124 ∉ a) (l : Bytes) : scan (a ++ l) = scan l := by
  induction a with
  | nil => rfl
  | cons b a ih =>
    rw [List.cons_append, scan_cons (Ne.symm (List.ne_of_not_mem_cons ha)),
      ih (List.not_mem_of_not_mem_cons ha)]

theorem scan_noBar {a : Bytes} (ha : 124 ∉ a) : scan a = some 0 := by
  have hnil := scan_append ha []
  rwa [List.append_nil] at hnil

/-- The loop counts what the scan of the string does. -/
theorem findLoop_scan {s : Bytes} (hno : NoNul s) (n : ℕ) (hn : s.length < n) (rest : Bytes)
    (numberCommand : ℕ) :
    findLoop n (s ++ 0 :: rest) numberCommand = (scan s).map (numberCommand + ·) := by
  induction n generalizing s rest numberCommand with
  | zero => exact absurd hn (Nat.not_lt_zero _)
  | succ n ih =>
    by_cases hmem : 124 ∈ s
    · rcases List.eq_append_cons_of_mem hmem with ⟨a, t, rfl, ha⟩
      rw [scan_append ha]
      cases t with
      | nil =>
        rw [List.append_assoc]
        exact findLoop_end (NoNul.of_append hno).1 ha n rest numberCommand
      | cons b t =>
        have hnot : NoNul t := fun h0 => hno (by simp [h0])
        rcases findLoop_bar hno ha n rest numberCommand with ⟨r, hloop⟩
        rw [hloop, ih hnot (by simp at hn; omega), scan_bar, Option.map_map]
        congr 1
        funext k
        exact (Nat.add_assoc ..).trans (congrArg _ (Nat.add_comm ..))
    · rw [findLoop_last hno hmem, scan_noBar hmem]
      rfl

/-- The count in the copy that `main` makes of the line. -/
theorem findNumberCommand_scan {l : Bytes} (hno : NoNul l) (rest : Bytes) :
    findNumberCommand (strncpy [] (l ++ 0 :: rest) ((cstr (l ++ 0 :: rest)).length + 1)) =
      (scan l).map (1 + ·) := by
  rw [cstr_terminated hno, strncpy_string hno, findNumberCommand, cstr_terminated hno]
  exact findLoop_scan hno _ (Nat.lt_succ_self _) [] 1

/-! ## Bars that stand alone -/

/-- What is counted in the end of a string is counted in the string. -/
theorem scan_le (t : Bytes) {l : Bytes} {n : ℕ} (h : scan (t ++ 32 :: l) = some n) :
    ∃ m, scan l = some m ∧ m ≤ n := by
  induction hlen : t.length using Nat.strong_induction_on generalizing t n with
  | _ k ih =>
    by_cases hmem : 124 ∈ t
    · rcases List.eq_append_cons_of_mem hmem with ⟨a, t, rfl, ha⟩
      rw [List.append_assoc, scan_append ha] at h
      cases t with
      | nil =>
        -- the blank is skipped
        rcases Option.map_eq_some_iff.mp ((scan_bar 32 l).symm.trans h) with ⟨m, hm, rfl⟩
        exact ⟨m, hm, Nat.le_succ m⟩
      | cons b t =>
        rcases Option.map_eq_some_iff.mp ((scan_bar b (t ++ 32 :: l)).symm.trans h) with ⟨m, hm, rfl⟩
        rcases ih t.length (by simp at hlen; omega) t hm rfl with ⟨m', hm', hle⟩
        exact ⟨m', hm', Nat.le_succ_of_le hle⟩
    · rw [scan_append hmem, scan_cons (by decide)] at h
      exact ⟨n, h, le_rfl⟩

/-- A word with a bar in it adds to the count. -/
theorem scan_lt {w : Bytes} (hmem : 124 ∈ w) {l : Bytes} {n : ℕ}
    (h : scan (w ++ 32 :: l) = some n) : ∃ m, scan l = some m ∧ m < n := by
  rcases List.eq_append_cons_of_mem hmem with ⟨a, t, rfl, ha⟩
  rw [List.append_assoc, scan_append ha] at h
  cases t with
  | nil =>
    rcases Option.map_eq_some_iff.mp ((scan_bar 32 l).symm.trans h) with ⟨m, hm, rfl⟩
    exact ⟨m, hm, Nat.lt_succ_self m⟩
  | cons b t =>
    rcases Option.map_eq_some_iff.mp ((scan_bar b (t ++ 32 :: l)).symm.trans h) with ⟨m, hm, rfl⟩
    rcases scan_le t hm with ⟨m', hm', hle⟩
    exact ⟨m', hm', Nat.lt_succ_of_le hle⟩

theorem scan_pos {w : Bytes} (hmem : 124 ∈ w) {n : ℕ} (h : scan w = some n) : w ≠ bar ∧ 0 < n := by
  constructor
  · rintro rfl
    have hend : scan bar = none := by decide
    rw [hend] at h
    cases h
  · rcases List.eq_append_cons_of_mem hmem with ⟨a, t, rfl, ha⟩
    rw [scan_append ha] at h
    cases t with
    | nil => cases h
    | cons b t =>
      rcases Option.map_eq_some_iff.mp ((scan_bar b t).symm.trans h) with ⟨m, -, rfl⟩
      exact Nat.succ_pos m

/-- The bars stand alone, and none of them at the end of the string. -/
def Alone (l : Bytes) (ws : List Bytes) : Prop :=
  (∀ w ∈ ws, 124 ∈ w → w = bar) ∧ l.getLast? ≠ some 124

theorem ne_bar {w : Bytes} (hw : 124 ∉ w) : w ≠ bar := by
  rintro rfl
  exact hw (by decide)

theorem gap_noBar {g : Bytes} (hg : Gap space g) : 124 ∉ g := fun hmem => absurd (hg 124 hmem) (by decide)

theorem getLast?_ne_cons (g w l : Bytes) :
    (g ++ (w ++ 32 :: l)).getLast? ≠ some 124 ↔ l.getLast? ≠ some 124 := by
  rw [← List.append_assoc]
  cases l with
  | nil => simp
  | cons b l => simp [List.getLast?_cons_cons]

/-- Every bar that is a word is counted, and nothing else exactly when the bars stand alone. -/
theorem scan_words {l : Bytes} {ws : List Bytes} (h : Lexed space l ws) {n : ℕ} (hn : scan l = some n) :
    ws.count bar ≤ n ∧ (n = ws.count bar → Alone l ws) := by
  induction h generalizing n with
  | @gap g hg =>
    refine ⟨by simp, ?_⟩
    intro _
    refine ⟨by simp, ?_⟩
    intro hlast
    exact gap_noBar hg (List.mem_of_getLast? hlast)
  | @last g w hg hw =>
    rw [scan_append (gap_noBar hg)] at hn
    by_cases hmem : 124 ∈ w
    · rcases scan_pos hmem hn with ⟨hne, hpos⟩
      -- a bar inside a word is counted, though it is no bar between commands
      have hcount : [w].count bar = 0 := List.count_eq_zero.mpr (by simpa using Ne.symm hne)
      rw [hcount]
      exact ⟨Nat.zero_le n, fun h0 => absurd h0 (Nat.ne_of_gt hpos)⟩
    · have hne := ne_bar hmem
      have hcount : [w].count bar = 0 := List.count_eq_zero.mpr (by simpa using Ne.symm hne)
      rw [hcount]
      refine ⟨Nat.zero_le n, ?_⟩
      intro _
      refine ⟨by simpa using fun h124 => absurd h124 hmem, ?_⟩
      intro hlast
      rcases List.mem_append.mp (List.mem_of_getLast? hlast) with hin | hin
      · exact gap_noBar hg hin
      · exact hmem hin
  | @cons g w l sep ws hg hw hsep _ ih =>
    obtain rfl : sep = 32 := by simpa [space, ascii] using hsep
    rw [scan_append (gap_noBar hg)] at hn
    unfold Alone
    rw [getLast?_ne_cons, List.forall_mem_cons]
    by_cases hmem : 124 ∈ w
    · rcases scan_lt hmem hn with ⟨m, hm, hlt⟩
      rcases ih hm with ⟨hle, halone⟩
      by_cases hbar : w = bar
      · obtain rfl := hbar
        -- a bar that is a word is counted once on both sides
        have hsucc : n = m + 1 := by
          have hone := (scan_bar 32 l).symm.trans hn
          rw [hm] at hone
          exact (Option.some.inj hone).symm
        rw [List.count_cons_self, hsucc]
        refine ⟨Nat.succ_le_succ hle, ?_⟩
        intro heq
        rcases halone (Nat.succ.inj heq) with ⟨hwords, hlast⟩
        exact ⟨⟨fun _ => rfl, hwords⟩, hlast⟩
      · -- here the count has got ahead for good
        rw [List.count_cons_of_ne hbar]
        refine ⟨by omega, ?_⟩
        intro heq
        omega
    · have hne := ne_bar hmem
      rw [scan_append hmem, scan_cons (by decide)] at hn
      rcases ih hn with ⟨hle, halone⟩
      rw [List.count_cons_of_ne hne]
      refine ⟨hle, ?_⟩
      intro heq
      rcases halone heq with ⟨hwords, hlast⟩
      exact ⟨⟨fun h124 => absurd h124 hmem, hwords⟩, hlast⟩

theorem scan_alone {l : Bytes} {ws : List Bytes} (h : Lexed space l ws) (halone : Alone l ws) :
    scan l = some (ws.count bar) := by
  induction h with
  | gap hg => exact scan_noBar (gap_noBar hg)
  | @last g w hg hw =>
    have hmem : 124 ∉ w := by
      intro hmem
      obtain rfl := halone.1 w (by simp) hmem
      exact halone.2 (by simp [bar, ascii])
    have hne := ne_bar hmem
    rw [scan_append (gap_noBar hg), scan_noBar hmem, List.count_eq_zero.mpr (by simpa using Ne.symm hne)]
  | @cons g w l sep ws hg hw hsep _ ih =>
    obtain rfl : sep = 32 := by simpa [space, ascii] using hsep
    rcases halone with ⟨hwords, hlast⟩
    rw [List.forall_mem_cons] at hwords
    have hrest := ih ⟨hwords.2, (getLast?_ne_cons g w l).mp hlast⟩
    rw [scan_append (gap_noBar hg)]
    by_cases hmem : 124 ∈ w
    · obtain rfl := hwords.1 hmem
      rw [List.count_cons_self, ← Option.map_some (f := (· + 1)), ← hrest]
      exact scan_bar 32 l
    · have hne := ne_bar hmem
      rw [scan_append hmem, scan_cons (by decide), List.count_cons_of_ne hne, hrest]

/-! ## Room in the rows -/

theorem takeWhile_noExit {ws : List Bytes} (h : wordExit ∉ ws) : ws.takeWhile (· ≠ wordExit) = ws := by
  rw [List.takeWhile_eq_self_iff]
  intro w hw
  have hne : w ≠ wordExit := by
    rintro rfl
    exact h hw
  simpa using hne

/-- The commands of a line with the words `ws`, up to the first `exit`. -/
def commands (ws : List Bytes) : List (List Bytes) := (ws.takeWhile (· ≠ wordExit)).splitOn bar

/-- Each command has room in a row with the NULL behind it. Only the command that
`exit` stands in gets no NULL. -/
def Room (ws : List Bytes) : Prop :=
  (∀ c ∈ (commands ws).dropLast, c.length < maxNumberArguments) ∧
    ∀ c ∈ (commands ws).getLast?,
      c.length < maxNumberArguments ∨ wordExit ∈ ws ∧ c.length = maxNumberArguments

/-- Words that a row takes as they are. -/
def Ordinary (done : List Bytes) : Prop := ∀ w ∈ done, w ≠ wordExit ∧ w ≠ bar

theorem ordinary_nil : Ordinary [] := List.forall_mem_nil _

theorem Ordinary.concat {done : List Bytes} (hdone : Ordinary done) {w : Bytes} (hexit : w ≠ wordExit)
    (hbar : w ≠ bar) : Ordinary (done ++ [w]) := by
  intro v hv
  rcases List.mem_append.mp hv with hv | hv
  · exact hdone v hv
  · obtain rfl := List.mem_singleton.mp hv
    exact ⟨hexit, hbar⟩

section

variable {done : List Bytes} (hdone : Ordinary done)

include hdone

theorem commands_append (ws : List Bytes) :
    commands (done ++ ws) = (done ++ ws.takeWhile (· ≠ wordExit)).splitOn bar := by
  unfold commands
  rw [List.takeWhile_append_of_pos (fun w hw => by simpa using (hdone w hw).1)]

theorem notMem_bar : bar ∉ done := fun hmem => (hdone bar hmem).2 rfl

theorem notMem_exit : wordExit ∉ done := fun hmem => (hdone wordExit hmem).1 rfl

theorem room_nil : Room done ↔ done.length < maxNumberArguments := by
  have hcommands : commands done = [done] := by
    have happend := commands_append hdone []
    rw [List.append_nil] at happend
    rw [happend, List.takeWhile_nil, List.append_nil, List.splitOn_eq_singleton (notMem_bar hdone)]
  unfold Room
  rw [hcommands]
  simp [notMem_exit hdone]

theorem room_exit (ws : List Bytes) :
    Room (done ++ wordExit :: ws) ↔ done.length ≤ maxNumberArguments := by
  have hcommands : commands (done ++ wordExit :: ws) = [done] := by
    rw [commands_append hdone, List.takeWhile_cons_of_neg (by simp), List.append_nil,
      List.splitOn_eq_singleton (notMem_bar hdone)]
  unfold Room
  rw [hcommands]
  simp [Nat.le_iff_lt_or_eq]

theorem room_bar (ws : List Bytes) :
    Room (done ++ bar :: ws) ↔ done.length < maxNumberArguments ∧ Room ws := by
  have hcommands : commands (done ++ bar :: ws) = done :: commands ws := by
    rw [commands_append hdone, List.takeWhile_cons_of_pos (by decide),
      List.splitOn_append_cons_self_of_not_mem (notMem_bar hdone)]
    rfl
  have hne : commands ws ≠ [] := List.splitOn_ne_nil _ _
  have hmem : wordExit ∈ done ++ bar :: ws ↔ wordExit ∈ ws := by
    simp [notMem_exit hdone, show wordExit ≠ bar by decide]
  unfold Room
  rw [hcommands, List.dropLast_cons_of_ne_nil hne, List.getLast?_cons_of_ne_nil hne, hmem,
    List.forall_mem_cons, and_assoc]

/-- The words behind the first ones do not make less room. -/
theorem Room.length_le {ws : List Bytes} (h : Room (done ++ ws)) : done.length ≤ maxNumberArguments := by
  induction ws generalizing done with
  | nil =>
    rw [List.append_nil, room_nil hdone] at h
    exact h.le
  | cons w ws ih =>
    by_cases hexit : w = wordExit
    · obtain rfl := hexit
      exact (room_exit hdone ws).mp h
    · by_cases hbar : w = bar
      · obtain rfl := hbar
        exact ((room_bar hdone ws).mp h).1.le
      · have hone := hdone.concat hexit hbar
        rw [List.append_cons] at h
        have hle := ih hone h
        rw [List.length_append] at hle
        exact (Nat.le_add_right ..).trans hle

end

/-! ## Stores -/

/-- All rows of `args` are there. -/
def Rows (n : ℕ) (p : Parser) : Prop :=
  p.args.length = n ∧ ∀ row ∈ p.args, row.length = maxNumberArguments

theorem Parser.store_ok {n : ℕ} {p : Parser} (h : Rows n p) (hindex : p.indexComand < n)
    (hi : p.i < maxNumberArguments) (a : Arg) :
    ∃ args, p.store a = .ok { p with args := args } ∧ Rows n { p with args := args } := by
  rcases h with ⟨hlen, hrows⟩
  have hlt : p.indexComand < p.args.length := hlen ▸ hindex
  have hrow := hrows _ (List.getElem_mem hlt)
  refine ⟨p.args.set p.indexComand (p.args[p.indexComand].set p.i a), ?_, ?_, ?_⟩
  · rw [Parser.store, List.getElem?_eq_getElem hlt]
    dsimp only
    rw [if_pos (hrow ▸ hi)]
  · exact (List.length_set ..).trans hlen
  · intro row hmem
    rcases List.mem_or_eq_of_mem_set hmem with hmem | rfl
    · exact hrows row hmem
    · exact (List.length_set ..).trans hrow

theorem Parser.store_error {n : ℕ} {p : Parser} (h : Rows n p) (hi : maxNumberArguments ≤ p.i) (a : Arg) :
    p.store a = .error .undefined := by
  rw [Parser.store]
  cases hget : p.args[p.indexComand]? with
  | none => rfl
  | some row =>
    dsimp only
    rw [if_neg (by rw [h.2 row (List.mem_of_getElem? hget)]; exact Nat.not_lt.mpr hi)]

/-- In a full row there is no room for a word, nor for the `NULL` of a bar. -/
theorem parseToken_full {n : ℕ} {p : Parser} (hp : Rows n p) (hi : maxNumberArguments ≤ p.i) {w : Bytes}
    (hexit : w ≠ wordExit) (a : ℕ) : parseToken w a p = .error .undefined := by
  rw [parseToken, if_neg hexit, Parser.store_error hp hi, Parser.store_error hp hi]
  split <;> rfl

theorem not_room_full {done : List Bytes} (hdone : Ordinary done) (hfull : maxNumberArguments ≤ done.length)
    {w : Bytes} (hexit : w ≠ wordExit) (ws : List Bytes) : ¬ Room (done ++ w :: ws) := by
  intro hroom
  by_cases hbar : w = bar
  · obtain rfl := hbar
    exact Nat.not_lt.mpr hfull ((room_bar hdone _).mp hroom).1
  · rw [List.append_cons] at hroom
    have hlong := hroom.length_le (hdone.concat hexit hbar)
    rw [List.length_append, List.length_singleton] at hlong
    exact Nat.not_lt.mpr hfull hlong

/-- With rows for all bars, the only store that goes wrong is one behind the end of a row. -/
theorem foldlM_room {n : ℕ} (es : List (ℕ × Bytes)) {p : Parser} (hp : Rows n p) {done : List Bytes}
    (hdone : Ordinary done) (hi : p.i = done.length) (hle : done.length ≤ maxNumberArguments)
    (hindex : p.indexComand + ((es.map Prod.snd).takeWhile (· ≠ wordExit)).count bar < n) :
    (es.foldlM (fun p e => parseToken e.2 e.1 p) p).bind (fun p => p.store .null) ≠ .error .undefined ↔
      Room (done ++ es.map Prod.snd) := by
  induction es generalizing p done with
  | nil =>
    rw [List.map_nil, List.append_nil, room_nil hdone, ← hi]
    show p.store .null ≠ .error .undefined ↔ p.i < maxNumberArguments
    by_cases hlt : p.i < maxNumberArguments
    · rcases Parser.store_ok hp (by simpa using hindex) hlt .null with ⟨args, hstore, -⟩
      simp [hstore, hlt]
    · simp [Parser.store_error hp (Nat.not_lt.mp hlt), hlt]
  | cons e es ih =>
    rcases e with ⟨a, w⟩
    rw [List.map_cons, List.foldlM_cons]
    rw [List.map_cons] at hindex
    have hpos : p.indexComand < n := Nat.lt_of_le_of_lt (Nat.le_add_right ..) hindex
    by_cases hexit : w = wordExit
    · -- the program ends here, with all stores before it made
      obtain rfl := hexit
      have htoken : parseToken wordExit a p = .error .exited := by rw [parseToken, if_pos rfl]
      rw [htoken, room_exit hdone]
      exact ⟨fun _ => hle, fun _ => by rintro ⟨⟩⟩
    · rw [List.takeWhile_cons_of_pos (by simpa using hexit)] at hindex
      by_cases hlt : p.i < maxNumberArguments
      · by_cases hbar : w = bar
        · -- the row is ended, and the next one starts
          obtain rfl := hbar
          rcases Parser.store_ok hp hpos hlt .null with ⟨args, hstore, hrows⟩
          have htoken : parseToken bar a p = .ok ⟨0, p.indexComand + 1, args⟩ := by
            rw [parseToken, if_neg hexit, if_pos rfl, hstore]
            rfl
          rw [List.count_cons_self] at hindex
          have hrest := ih (p := ⟨0, p.indexComand + 1, args⟩) hrows ordinary_nil rfl (Nat.zero_le _)
            (by dsimp only; omega)
          rw [htoken, room_bar hdone, and_iff_right (hi ▸ hlt)]
          exact hrest
        · rcases Parser.store_ok hp hpos hlt (.token a) with ⟨args, hstore, hrows⟩
          have htoken : parseToken w a p = .ok ⟨p.i + 1, p.indexComand, args⟩ := by
            rw [parseToken, if_neg hexit, if_neg hbar, hstore]
            rfl
          rw [List.count_cons_of_ne hbar] at hindex
          have hone := hdone.concat hexit hbar
          have hlen : p.i + 1 = (done ++ [w]).length := by rw [List.length_append, hi, List.length_singleton]
          have hrest := ih (p := ⟨p.i + 1, p.indexComand, args⟩) hrows hone hlen (hlen ▸ hlt) hindex
          rw [htoken, List.append_cons]
          exact hrest
      · have hfull := Nat.not_lt.mp hlt
        have hnot := not_room_full hdone (hi ▸ hfull) hexit (es.map Prod.snd)
        rw [parseToken_full hp hfull hexit]
        exact ⟨fun h => absurd rfl h, fun h => absurd h hnot⟩

/-- A command of a line is made of its words, and has no bar. -/
theorem mem_splitOn {ws c : List Bytes} (hc : c ∈ ws.splitOn bar) : bar ∉ c ∧ ∀ w ∈ c, w ∈ ws := by
  induction ws generalizing c with
  | nil =>
    obtain rfl : c = [] := by simpa using hc
    simp
  | cons v ws ih =>
    rw [List.splitOn_cons_eq_if_modifyHead] at hc
    split at hc
    · rcases List.mem_cons.mp hc with rfl | hc
      · simp
      · exact ⟨(ih hc).1, fun w hw => List.mem_cons_of_mem v ((ih hc).2 w hw)⟩
    · rename_i hv
      cases hsplit : ws.splitOn bar with
      | nil => exact absurd hsplit (List.splitOn_ne_nil _ _)
      | cons d ds =>
        rw [hsplit, List.modifyHead_cons] at hc
        rcases List.mem_cons.mp hc with rfl | hc
        · -- the word goes in front of the first command
          have hd := ih (hsplit ▸ List.mem_cons_self)
          refine ⟨?_, ?_⟩
          · rw [List.mem_cons, not_or]
            exact ⟨fun h => hv (by simp [h]), hd.1⟩
          · intro w hw
            rcases List.mem_cons.mp hw with rfl | hw
            · exact List.mem_cons_self
            · exact List.mem_cons_of_mem v (hd.2 w hw)
        · have hd := ih (hsplit ▸ List.mem_cons_of_mem d hc)
          exact ⟨hd.1, fun w hw => List.mem_cons_of_mem v (hd.2 w hw)⟩

theorem length_splitOn (ws : List Bytes) : (ws.splitOn bar).length = ws.count bar + 1 := by
  induction ws with
  | nil => simp
  | cons v ws ih =>
    rw [List.splitOn_cons_eq_if_modifyHead, List.count_cons]
    split
    · rw [List.length_cons, ih]
    · rw [List.length_modifyHead, ih]

/-- Without `exit` the commands are the words between the bars, and fit. -/
theorem Room.commands_eq {ws : List Bytes} (h : Room ws) (hexit : wordExit ∉ ws) :
    pipeline (commands ws) = ws ∧ commands ws ≠ [] ∧ ∀ c ∈ commands ws, Fits c := by
  have hcommands : commands ws = ws.splitOn bar := by rw [commands, takeWhile_noExit hexit]
  have hne : commands ws ≠ [] := List.splitOn_ne_nil _ _
  refine ⟨?_, hne, ?_⟩
  · rw [hcommands]
    exact List.intercalate_splitOn bar
  · intro c hc
    constructor
    · have hlt : c.length < maxNumberArguments := by
        rw [← List.dropLast_append_getLast hne] at hc
        rcases List.mem_append.mp hc with hc | hc
        · exact h.1 c hc
        · obtain rfl := List.mem_singleton.mp hc
          rcases h.2 _ (List.getLast?_eq_some_getLast hne) with hlt | ⟨hmem, -⟩
          · exact hlt
          · exact absurd hmem hexit
      exact Nat.le_of_lt_succ hlt
    · intro w hw
      rw [hcommands] at hc
      rcases mem_splitOn hc with ⟨hbar, hmem⟩
      exact ⟨fun heq => hexit (heq ▸ hmem w hw), fun heq => hbar (heq ▸ hw)⟩

/-- A fold that comes to its end has met no `exit`. -/
theorem foldlM_noExit {es : List (ℕ × Bytes)} {p q : Parser}
    (h : es.foldlM (fun p e => parseToken e.2 e.1 p) p = .ok q) : wordExit ∉ es.map Prod.snd := by
  induction es generalizing p with
  | nil => simp
  | cons e es ih =>
    rw [List.foldlM_cons] at h
    cases htoken : parseToken e.2 e.1 p with
    | error x =>
      rw [htoken] at h
      cases h
    | ok p' =>
      rw [htoken] at h
      rw [List.map_cons, List.mem_cons, not_or]
      refine ⟨?_, ih h⟩
      intro hexit
      rw [parseToken, if_pos hexit.symm] at htoken
      cases htoken

/-! ## Both at once -/

/-- The body of the loop over the tokens, with nothing but the bars counted. -/
def meet (word : Bytes) (_ : ℕ) (bars : ℕ) : Except ℕ ℕ :=
  if word = wordExit then .error bars
  else if word = bar then .ok (bars + 1)
  else .ok bars

/-- The number of bars that the loop over the tokens meets. -/
def metBars (line : Bytes) : ℕ :=
  match eachToken space meet (line.length + 1) line 0 0 with
  | .ok (_, bars) => bars
  | .error bars => bars

/-- The loop over the tokens meets every bar up to `exit`. -/
theorem foldlM_meet (es : List (ℕ × Bytes)) (k : ℕ) :
    (es.foldlM (fun bars e => meet e.2 e.1 bars) k = .ok (k + (es.map Prod.snd).count bar) ∧
        wordExit ∉ es.map Prod.snd) ∨
      es.foldlM (fun bars e => meet e.2 e.1 bars) k =
        .error (k + ((es.map Prod.snd).takeWhile (· ≠ wordExit)).count bar) := by
  induction es generalizing k with
  | nil => exact Or.inl ⟨rfl, by simp⟩
  | cons e es ih =>
    rcases e with ⟨a, w⟩
    rw [List.map_cons, List.foldlM_cons]
    by_cases hexit : w = wordExit
    · obtain rfl := hexit
      right
      -- `exit` ends the loop where it stands
      simp [meet, bind, Except.bind]
    · rw [List.takeWhile_cons_of_pos (by simpa using hexit)]
      have hmem : wordExit ∉ w :: es.map Prod.snd ↔ wordExit ∉ es.map Prod.snd := by
        simp [Ne.symm hexit]
      rw [hmem]
      by_cases hbar : w = bar
      · obtain rfl := hbar
        have hstep : meet bar a k = .ok (k + 1) := by rw [meet, if_neg hexit, if_pos rfl]
        have hadd : ∀ m, k + 1 + m = k + (m + 1) := by
          intro m
          omega
        rw [hstep, List.count_cons_self, List.count_cons_self, ← hadd (List.count ..), ← hadd (List.count ..)]
        exact ih (k + 1)
      · have hstep : meet w a k = .ok k := by rw [meet, if_neg hexit, if_neg hbar]
        have hrest := ih k
        rw [hstep, List.count_cons_of_ne hbar, List.count_cons_of_ne hbar]
        exact hrest

/-- The bars in front of the first `exit` are met. -/
theorem metBars_words {l : Bytes} (hno : NoNul l) (rest : Bytes) :
    metBars (l ++ 0 :: rest) = ((words space l).takeWhile (· ≠ wordExit)).count bar := by
  rcases eachToken_string zero_notMem_space (lexed_words l) hno rest with ⟨es, l', -, hes, -, -, hloop⟩
  rw [metBars, hloop meet 0, ← hes]
  rcases foldlM_meet es 0 with ⟨hfold, hexit⟩ | hfold
  · rw [hfold, takeWhile_noExit hexit, Nat.zero_add]
    rfl
  · rw [hfold, Nat.zero_add]
    rfl

/-- The count and the loop over the tokens agree on a line: the count is of the bars
that the loop meets, no read of the copy and no store leaves its array, and the rows
that `run_process` executes are filled up to a NULL. -/
structure Agree (line : Bytes) : Prop where
  counted : findNumberCommand (strncpy [] line ((cstr line).length + 1)) = some (1 + metBars line)
  inBounds : parse line ≠ .error .undefined
  filled : ∀ p, parse line = .ok p → ∀ row ∈ p.args.take p.numberCommands, (argv p.line row).isSome

/-- A line that is typed as both expect it: the bars stand alone, with something behind the
last one and none of them behind `exit`, and each command has room in its row. -/
structure Regular (l : Bytes) : Prop where
  alone : Alone l (words space l)
  ended : bar ∉ (words space l).dropWhile (· ≠ wordExit)
  room : Room (words space l)

theorem rows_free (n : ℕ) : Rows n ⟨0, 0, free n⟩ := by
  refine ⟨List.length_replicate .., ?_⟩
  intro row hmem
  rw [List.eq_of_mem_replicate hmem, List.length_replicate]

theorem count_takeWhile_add (ws : List Bytes) :
    (ws.takeWhile (· ≠ wordExit)).count bar + (ws.dropWhile (· ≠ wordExit)).count bar = ws.count bar := by
  rw [← List.count_append, List.takeWhile_append_dropWhile]

section

variable {l : Bytes} (hno : NoNul l) (rest : Bytes)

include hno

/-- The count agrees with the loop exactly when the bars stand alone, up to the first `exit`. -/
theorem counted_iff :
    findNumberCommand (strncpy [] (l ++ 0 :: rest) ((cstr (l ++ 0 :: rest)).length + 1)) =
        some (1 + metBars (l ++ 0 :: rest)) ↔
      Alone l (words space l) ∧ bar ∉ (words space l).dropWhile (· ≠ wordExit) := by
  have hsum := count_takeWhile_add (words space l)
  rw [findNumberCommand_scan hno, metBars_words hno, ← List.count_eq_zero]
  constructor
  · intro h
    rcases Option.map_eq_some_iff.mp h with ⟨n, hn, hadd⟩
    rcases scan_words (lexed_words l) hn with ⟨hle, halone⟩
    have hn' := Nat.add_left_cancel hadd
    exact ⟨halone (by omega), by omega⟩
  · rintro ⟨halone, hzero⟩
    rw [scan_alone (lexed_words l) halone, Option.map_some, ← hsum, hzero, Nat.add_zero]

/-- With the commands counted right, the stores are in bounds exactly when there is room. -/
theorem inBounds_iff
    (hcount : findNumberCommand (strncpy [] (l ++ 0 :: rest) ((cstr (l ++ 0 :: rest)).length + 1)) =
      some (1 + metBars (l ++ 0 :: rest))) :
    parse (l ++ 0 :: rest) ≠ .error .undefined ↔ Room (words space l) := by
  rcases parse_fold hno (lexed_words l) hcount with ⟨es, l', hes, -, -, hparse⟩
  rw [metBars_words hno] at hparse
  have hroom := foldlM_room es (rows_free (1 + ((words space l).takeWhile (· ≠ wordExit)).count bar))
    ordinary_nil rfl (Nat.zero_le _) (by rw [hes]; simp)
  rw [List.nil_append, hes] at hroom
  rw [hparse, ← hroom]
  cases (es.foldlM (fun p e => parseToken e.2 e.1 p) (⟨0, 0, free _⟩ : Parser)).bind
    (fun p => p.store .null) <;> simp [Except.map]

/-- A line that is parsed to its end has no `exit` in it. -/
theorem noExit_of_parse {n : ℕ}
    (hcount : findNumberCommand (strncpy [] (l ++ 0 :: rest) ((cstr (l ++ 0 :: rest)).length + 1)) =
      some n) {p : Parsed} (hparse : parse (l ++ 0 :: rest) = .ok p) : wordExit ∉ words space l := by
  rcases parse_fold hno (lexed_words l) hcount with ⟨es, l', hes, -, -, hfold⟩
  rw [hfold] at hparse
  rw [← hes]
  cases hrun : es.foldlM (fun p e => parseToken e.2 e.1 p) (⟨0, 0, free n⟩ : Parser) with
  | error x =>
    rw [hrun] at hparse
    cases hparse
  | ok q => exact foldlM_noExit hrun

/-- The rows of a line without `exit` are its commands. -/
theorem filled_of_regular (h : Regular l) {p : Parsed} (hparse : parse (l ++ 0 :: rest) = .ok p) :
    ∀ row ∈ p.args.take p.numberCommands, (argv p.line row).isSome := by
  have hcount := (counted_iff hno rest).mpr ⟨h.alone, h.ended⟩
  have hexit := noExit_of_parse hno rest hcount hparse
  rcases h.room.commands_eq hexit with ⟨hpipeline, hne, hfits⟩
  have hlexed : Lexed space l (pipeline (commands (words space l))) := by
    rw [hpipeline]
    exact lexed_words l
  have hlength : 1 + metBars (l ++ 0 :: rest) = (commands (words space l)).length := by
    rw [metBars_words hno, commands, length_splitOn, Nat.add_comm]
  rw [hlength] at hcount
  rcases parse_lexed hfits hne hno hlexed hcount with ⟨q, hq, -, hargs, -⟩
  obtain rfl : q = p := Except.ok.inj (hq.symm.trans hparse)
  intro row hrow
  have hmem : argv q.line row ∈ (commands (words space l)).map some := by
    rw [← hargs]
    exact List.mem_map_of_mem (List.mem_of_mem_take hrow)
  rcases List.mem_map.mp hmem with ⟨c, -, hc⟩
  rw [← hc]
  rfl

/-- The count and the loop over the tokens agree on the string that has been read. -/
theorem agree_string : Agree (l ++ 0 :: rest) ↔ Regular l := by
  constructor
  · intro h
    rcases (counted_iff hno rest).mp h.counted with ⟨halone, hended⟩
    exact ⟨halone, hended, (inBounds_iff hno rest h.counted).mp h.inBounds⟩
  · intro h
    have hcount := (counted_iff hno rest).mpr ⟨h.alone, h.ended⟩
    exact ⟨hcount, (inBounds_iff hno rest hcount).mpr h.room, fun p => filled_of_regular hno rest h⟩

end

/-- For every line that fits the buffer, whatever the buffer held before and whatever is
typed after it. -/
theorem agree_iff {l : Bytes} (hl : Directory.Typed l) (hlen : l.length ≤ 1022) (line rest : Bytes) :
    Agree (readLine line (l ++ 10 :: rest)).1 ↔ Regular l := by
  rcases readLine_line hl.noNewline hlen line rest with ⟨r, hread⟩
  rw [hread, cstr_of_noNul hl.noNul]
  exact agree_string hl.noNul r

/-- `ls -l | wc` -/
theorem agree_iff_ls :
    Agree (readLine (List.replicate 1024 0)
      (ascii ['l', 's', ' ', '-', 'l', ' ', '|', ' ', 'w', 'c'] ++ 10 :: [])).1 :=
  (agree_iff ⟨by decide, by decide⟩ (by decide) _ []).mpr
    ⟨⟨by decide +kernel, by decide⟩, by decide +kernel, ⟨by decide +kernel, by decide +kernel⟩⟩

/-- `ls|wc` is counted as two commands, and no bar is met. -/
theorem not_agree_glued :
    ¬ Agree (readLine (List.replicate 1024 0) (ascii ['l', 's', '|', 'w', 'c'] ++ 10 :: [])).1 := by
  intro h
  have hcounted := h.counted
  revert hcounted
  decide +kernel

end EmbeddedCourse.Shells.Pipes
