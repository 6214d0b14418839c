import EmbeddedCourse.Lib.CString

/-! # Cutting a line into words in place

`strspn`, `strcspn`, `memmove` and `strtok_r` on the bytes of a buffer, and the
loop that takes one token after the other. A string is a run of words with gaps
between them (`Lexed`); the loop visits the words in order, ends each of them by
a NUL in the buffer, and so leaves a string that has one word only.
-/

namespace EmbeddedCourse.Tokens

open CString

def strspn (s accept : Bytes) : ℕ := (s.takeWhile (· ∈ accept)).length

def strcspn (s reject : Bytes) : ℕ := ((cstr s).takeWhile (· ∉ reject)).length

/-- `memmove(buf, buf + from, n)` -/
def memmove (buf : Bytes) (src n : ℕ) : Bytes := overlay buf ((buf.drop src).take n)

/-- `strtok_r(s, delim, &save)` with `s` an offset into the buffer: the token, the
buffer with a NUL behind it, and `save`. -/
def strtokR (buf delim : Bytes) (s : ℕ) : Option ℕ × Bytes × ℕ :=
  let start := s + strspn (buf.drop s) delim
  if buf.getD start 0 = 0 then (none, buf, start)
  else
    let stop := start + strcspn (buf.drop start) delim
    if buf.getD stop 0 = 0 then (some start, buf, stop)
    else (some start, buf.set stop 0, stop + 1)

/-- `while ((token = strtok_r(tmp, delim, &tmp))) body`, with the string of the
token and its offset given to `body`. -/
def eachToken {σ ε : Type*} (delim : Bytes) (body : Bytes → ℕ → σ → Except ε σ) :
    ℕ → Bytes → ℕ → σ → Except ε (Bytes × σ)
  | 0, buf, _, st => .ok (buf, st)
  | n + 1, buf, tmp, st =>
    match strtokR buf delim tmp with
    | (none, buf, _) => .ok (buf, st)
    | (some token, buf, tmp) =>
      match body (cstr (buf.drop token)) token st with
      | .error e => .error e
      | .ok st => eachToken delim body n buf tmp st

/-- A string is moved to the start of its buffer with its terminator. -/
theorem memmove_string (pre s rest : Bytes) :
    ∃ r, memmove (pre ++ (s ++ 0 :: rest)) pre.length (s.length + 1) = s ++ 0 :: r := by
  have htake : (s ++ 0 :: rest).take (s.length + 1) = s ++ [0] := by
    rw [List.take_append, List.take_of_length_le (by omega)]
    simp
  have hfit : (s ++ [0]).take (pre ++ (s ++ 0 :: rest)).length = s ++ [0] :=
    List.take_of_length_le (by simp; omega)
  refine ⟨(pre ++ (s ++ 0 :: rest)).drop (s ++ [(0 : UInt8)]).length, ?_⟩
  rw [memmove, List.drop_left, htake, overlay, hfit, List.append_assoc]
  rfl

/-! ## Words and gaps -/

/-- A word has no delimiter in it. -/
def Word (delim w : Bytes) : Prop := w ≠ [] ∧ ∀ b ∈ w, b ∉ delim

def Gap (delim g : Bytes) : Prop := ∀ b ∈ g, b ∈ delim

/-- The string is the words with at least one delimiter between any two. -/
inductive Lexed (delim : Bytes) : Bytes → List Bytes → Prop where
  | gap {g : Bytes} : Gap delim g → Lexed delim g []
  | last {g w : Bytes} : Gap delim g → Word delim w → Lexed delim (g ++ w) [w]
  | cons {g w l : Bytes} {sep : UInt8} {ws : List Bytes} : Gap delim g → Word delim w →
      sep ∈ delim → Lexed delim l ws → Lexed delim (g ++ (w ++ sep :: l)) (w :: ws)

/-- The words of a string. -/
def words (delim l : Bytes) : List Bytes := (l.splitOnP (· ∈ delim)).filter (· ≠ [])

variable {delim : Bytes}

theorem word_singleton {b : UInt8} (hb : b ∉ delim) : Word delim [b] := by
  constructor
  · exact List.cons_ne_nil b []
  · intro c hc
    rwa [List.mem_singleton.mp hc]

theorem words_gap {b : UInt8} (hb : b ∈ delim) (l : Bytes) : words delim (b :: l) = words delim l := by
  have hsplit : (b :: l).splitOnP (· ∈ delim) = [] :: l.splitOnP (· ∈ delim) :=
    List.splitOnP_append_cons_of_forall_mem (List.forall_mem_nil _) b (by simpa using hb) l
  unfold words
  rw [hsplit]
  simp

theorem words_last {w : Bytes} (hw : Word delim w) : words delim w = [w] := by
  unfold words
  rw [List.splitOnP_eq_singleton (fun b hb => by simpa using hw.2 b hb)]
  simp [hw.1]

theorem words_cons {w : Bytes} (hw : Word delim w) {sep : UInt8} (hsep : sep ∈ delim) (l : Bytes) :
    words delim (w ++ sep :: l) = w :: words delim l := by
  unfold words
  rw [List.splitOnP_append_cons_of_forall_mem (fun b hb => by simpa using hw.2 b hb) sep
    (by simpa using hsep)]
  simp [hw.1]

/-- A string is its first word with what comes before and behind it. -/
theorem word_cases (delim l : Bytes) :
    Gap delim l ∨ (∃ g w, Gap delim g ∧ Word delim w ∧ l = g ++ w) ∨
      ∃ g w sep r, Gap delim g ∧ Word delim w ∧ sep ∈ delim ∧ l = g ++ (w ++ sep :: r) := by
  induction l with
  | nil => exact Or.inl (by simp [Gap])
  | cons b l ih =>
    by_cases hb : b ∈ delim
    · -- the gap grows
      rcases ih with hg | ⟨g, w, hg, hw, rfl⟩ | ⟨g, w, sep, r, hg, hw, hsep, rfl⟩
      · exact Or.inl (List.forall_mem_cons.mpr ⟨hb, hg⟩)
      · exact Or.inr (Or.inl ⟨b :: g, w, List.forall_mem_cons.mpr ⟨hb, hg⟩, hw, rfl⟩)
      · exact Or.inr (Or.inr ⟨b :: g, w, sep, r, List.forall_mem_cons.mpr ⟨hb, hg⟩, hw, hsep, rfl⟩)
    · -- a word starts here
      right
      have hword : Word delim [b] := ⟨by simp, by simpa using hb⟩
      have hnil : Gap delim [] := by simp [Gap]
      rcases ih with hg | ⟨g, w, hg, hw, rfl⟩ | ⟨g, w, sep, r, hg, hw, hsep, rfl⟩
      · cases l with
        | nil => exact Or.inl ⟨[], [b], hnil, hword, rfl⟩
        | cons a l => exact Or.inr ⟨[], [b], a, l, hnil, hword, hg a (by simp), rfl⟩
      · cases g with
        | nil =>
          exact Or.inl ⟨[], b :: w, hnil, ⟨by simp, List.forall_mem_cons.mpr ⟨hb, hw.2⟩⟩, rfl⟩
        | cons a g => exact Or.inr ⟨[], [b], a, g ++ w, hnil, hword, hg a (by simp), rfl⟩
      · cases g with
        | nil =>
          exact Or.inr ⟨[], b :: w, sep, r, hnil,
            ⟨by simp, List.forall_mem_cons.mpr ⟨hb, hw.2⟩⟩, hsep, rfl⟩
        | cons a g =>
          exact Or.inr ⟨[], [b], a, g ++ (w ++ sep :: r), hnil, hword, hg a (by simp), rfl⟩

theorem words_gap_append {g : Bytes} (hg : Gap delim g) (l : Bytes) :
    words delim (g ++ l) = words delim l := by
  induction g with
  | nil => rfl
  | cons b g ih =>
    rw [List.cons_append, words_gap (hg b (by simp)), ih fun a ha => hg a (by simp [ha])]

/-- What the words of a lexed string are. -/
theorem Lexed.words_eq {l : Bytes} {ws : List Bytes} (h : Lexed delim l ws) : words delim l = ws := by
  induction h with
  | @gap g hg =>
    have hnil := words_gap_append hg []
    rw [List.append_nil] at hnil
    rw [hnil]
    rfl
  | last hg hw => rw [words_gap_append hg, words_last hw]
  | cons hg hw hsep _ ih => rw [words_gap_append hg, words_cons hw hsep, ih]

theorem lexed_words (l : Bytes) : Lexed delim l (words delim l) := by
  -- every word makes the rest shorter
  induction hn : l.length using Nat.strong_induction_on generalizing l with
  | _ n ih =>
    rcases word_cases delim l with hg | ⟨g, w, hg, hw, rfl⟩ | ⟨g, w, sep, r, hg, hw, hsep, rfl⟩
    · rw [(Lexed.gap hg).words_eq]
      exact .gap hg
    · rw [(Lexed.last hg hw).words_eq]
      exact .last hg hw
    · have hr := ih r.length (by simp at hn; omega) r rfl
      rw [(Lexed.cons hg hw hsep hr).words_eq]
      exact .cons hg hw hsep hr

theorem Lexed.mem {l : Bytes} {ws : List Bytes} (h : Lexed delim l ws) {b : UInt8} (hb : b ∈ l) :
    b ∈ delim ∨ ∃ w ∈ ws, b ∈ w := by
  induction h with
  | gap hg => exact Or.inl (hg b hb)
  | @last g w hg _ =>
    rcases List.mem_append.mp hb with hb | hb
    · exact Or.inl (hg b hb)
    · exact Or.inr ⟨w, by simp, hb⟩
  | @cons g w l sep ws hg _ hsep _ ih =>
    rcases List.mem_append.mp hb with hb | hb
    · exact Or.inl (hg b hb)
    · rcases List.mem_append.mp hb with hb | hb
      · exact Or.inr ⟨w, by simp, hb⟩
      · rcases List.mem_cons.mp hb with rfl | hb
        · exact Or.inl hsep
        · rcases ih hb with hb | ⟨v, hv, hb⟩
          · exact Or.inl hb
          · exact Or.inr ⟨v, List.mem_cons_of_mem w hv, hb⟩

/-- The words of a lexed string are parts of it. -/
theorem Lexed.mem_of_word {l : Bytes} {ws : List Bytes} (h : Lexed delim l ws) {w : Bytes}
    (hw : w ∈ ws) {b : UInt8} (hb : b ∈ w) : b ∈ l := by
  induction h with
  | gap => exact absurd hw (by simp)
  | last =>
    obtain rfl := List.mem_singleton.mp hw
    exact List.mem_append_right _ hb
  | cons _ _ _ _ ih =>
    rcases List.mem_cons.mp hw with rfl | hw
    · exact List.mem_append_right _ (List.mem_append_left _ hb)
    · exact List.mem_append_right _ (List.mem_append_right _ (List.mem_cons_of_mem _ (ih hw)))

/-! ## One token -/

theorem NoNul.of_append {s t : Bytes} (h : NoNul (s ++ t)) : NoNul s ∧ NoNul t :=
  ⟨fun h0 => h (List.mem_append_left t h0), fun h0 => h (List.mem_append_right s h0)⟩

theorem takeWhile_gap {g : Bytes} (hg : Gap delim g) {b : UInt8} (hb : b ∉ delim) (r : Bytes) :
    (g ++ b :: r).takeWhile (· ∈ delim) = g := by
  rw [List.takeWhile_append_of_pos (fun a ha => by simpa using hg a ha), List.takeWhile_cons]
  simp [hb]

theorem strspn_gap {g : Bytes} (hg : Gap delim g) {b : UInt8} (hb : b ∉ delim) (r : Bytes) :
    strspn (g ++ b :: r) delim = g.length := by
  rw [strspn, takeWhile_gap hg hb]

/-- A text up to the first byte that is one of `reject` or ends the string. -/
theorem strcspn_stop {w : Bytes} (hno : NoNul w) (hw : ∀ b ∈ w, b ∉ delim) {b : UInt8}
    (hb : b = 0 ∨ b ∈ delim) (r : Bytes) : strcspn (w ++ b :: r) delim = w.length := by
  have htake : (w ++ cstr (b :: r)).takeWhile (· ∉ delim) = w := by
    rw [List.takeWhile_append_of_pos (fun a ha => by simpa using hw a ha)]
    by_cases h0 : b = 0
    · simp [h0]
    · rcases hb with rfl | hb
      · exact absurd rfl h0
      · rw [cstr_cons h0, List.takeWhile_cons]
        simp [hb]
  rw [strcspn, cstr_append hno, htake]

variable {pre rest g w : Bytes} {sep : UInt8}

/-- Only a gap is left. -/
theorem strtokR_gap (pre : Bytes) (h0 : (0 : UInt8) ∉ delim) (hg : Gap delim g) (rest : Bytes) :
    strtokR (pre ++ (g ++ 0 :: rest)) delim pre.length =
      (none, pre ++ (g ++ 0 :: rest), pre.length + g.length) := by
  have hspn : strspn ((pre ++ (g ++ 0 :: rest)).drop pre.length) delim = g.length := by
    rw [List.drop_left, strspn_gap hg h0]
  have hend : (pre ++ (g ++ 0 :: rest)).getD (pre.length + g.length) 0 = 0 := by
    rw [← List.append_assoc]
    exact Cells.getD_middle (by simp) 0 rest 0
  rw [strtokR, hspn, if_pos hend]

/-- The byte in which a word starts ends the gap, and is not the end of the string. -/
theorem strtokR_start (pre : Bytes) (hg : Gap delim g) (hno : NoNul w) (hw : Word delim w) (t : Bytes) :
    strspn ((pre ++ (g ++ (w ++ t))).drop pre.length) delim = g.length ∧
      (pre ++ (g ++ (w ++ t))).getD (pre.length + g.length) 0 ≠ 0 ∧
      (pre ++ (g ++ (w ++ t))).drop (pre.length + g.length) = w ++ t := by
  have hdrop : (pre ++ (g ++ (w ++ t))).drop (pre.length + g.length) = w ++ t := by
    rw [← List.append_assoc]
    exact List.drop_left' (by simp)
  rcases List.exists_cons_of_ne_nil hw.1 with ⟨b, w', rfl⟩
  have hb : b ∉ delim := hw.2 b (by simp)
  refine ⟨?_, ?_, hdrop⟩
  · rw [List.drop_left]
    exact strspn_gap hg hb (w' ++ t)
  · have hmid : (pre ++ (g ++ (b :: w' ++ t))).getD (pre.length + g.length) 0 = b := by
      rw [← List.append_assoc]
      exact Cells.getD_middle (by simp) b (w' ++ t) 0
    rw [hmid]
    rintro rfl
    exact hno (by simp)

/-- The last word is left as it stands. -/
theorem strtokR_last (hg : Gap delim g) (hno : NoNul w) (hw : Word delim w) :
    strtokR (pre ++ (g ++ (w ++ 0 :: rest))) delim pre.length =
      (some (pre.length + g.length), pre ++ (g ++ (w ++ 0 :: rest)),
        pre.length + g.length + w.length) := by
  rcases strtokR_start pre hg hno hw (0 :: rest) with ⟨hspn, hstart, hdrop⟩
  have hstop : strcspn (w ++ 0 :: rest) delim = w.length := strcspn_stop hno hw.2 (Or.inl rfl) rest
  have hend : (pre ++ (g ++ (w ++ 0 :: rest))).getD (pre.length + g.length + w.length) 0 = 0 := by
    rw [← List.append_assoc, ← List.append_assoc]
    exact Cells.getD_middle (by simp [Nat.add_assoc]) 0 rest 0
  rw [strtokR, hspn, if_neg hstart, hdrop, hstop, if_pos hend]

/-- Any other word gets a NUL in place of the delimiter behind it. -/
theorem strtokR_word (h0 : (0 : UInt8) ∉ delim) (hg : Gap delim g) (hno : NoNul w)
    (hw : Word delim w) (hsep : sep ∈ delim) :
    strtokR (pre ++ (g ++ (w ++ sep :: rest))) delim pre.length =
      (some (pre.length + g.length), pre ++ (g ++ (w ++ 0 :: rest)),
        pre.length + g.length + w.length + 1) := by
  rcases strtokR_start pre hg hno hw (sep :: rest) with ⟨hspn, hstart, hdrop⟩
  have hstop : strcspn (w ++ sep :: rest) delim = w.length := strcspn_stop hno hw.2 (Or.inr hsep) rest
  have hend : (pre ++ (g ++ (w ++ sep :: rest))).getD (pre.length + g.length + w.length) 0 ≠ 0 := by
    rw [← List.append_assoc, ← List.append_assoc, Cells.getD_middle (by simp [Nat.add_assoc])]
    rintro rfl
    exact h0 hsep
  have hset : (pre ++ (g ++ (w ++ sep :: rest))).set (pre.length + g.length + w.length) 0 =
      pre ++ (g ++ (w ++ 0 :: rest)) := by
    rw [← List.append_assoc, ← List.append_assoc, Cells.set_middle (by simp [Nat.add_assoc]), List.append_assoc,
      List.append_assoc]
  rw [strtokR, hspn, if_neg hstart, hdrop, hstop, if_neg hend, hset]

/-! ## All tokens -/

/-- A round at the last word; behind it there is nothing left. -/
theorem eachToken_last {σ ε : Type} (body : Bytes → ℕ → σ → Except ε σ) (pre : Bytes)
    (h0 : (0 : UInt8) ∉ delim) (hg : Gap delim g) (hno : NoNul w) (hw : Word delim w) (rest : Bytes)
    (m : ℕ) (st : σ) :
    eachToken delim body (m + 2) (pre ++ (g ++ (w ++ 0 :: rest))) pre.length st =
      (body w (pre.length + g.length) st).map fun st => (pre ++ (g ++ (w ++ 0 :: rest)), st) := by
  have hword : cstr ((pre ++ (g ++ (w ++ 0 :: rest))).drop (pre.length + g.length)) = w := by
    rw [← List.append_assoc, List.drop_left' (by simp), cstr_terminated hno]
  have hrest : strtokR (pre ++ (g ++ (w ++ 0 :: rest))) delim (pre.length + g.length + w.length) =
      (none, pre ++ (g ++ (w ++ 0 :: rest)), pre.length + g.length + w.length) := by
    have hnil := strtokR_gap (pre ++ g ++ w) h0 (show Gap delim [] by simp [Gap]) rest
    simpa [Nat.add_assoc] using hnil
  rw [eachToken, strtokR_last hg hno hw]
  dsimp only
  rw [hword]
  cases hb : body w (pre.length + g.length) st with
  | error e => rfl
  | ok st' =>
    dsimp only
    rw [eachToken, hrest]
    rfl

/-- A round at any other word; the loop goes on behind the NUL that ends it. -/
theorem eachToken_word {σ ε : Type} (body : Bytes → ℕ → σ → Except ε σ) (pre : Bytes)
    (h0 : (0 : UInt8) ∉ delim) (hg : Gap delim g) (hno : NoNul w) (hw : Word delim w)
    (hsep : sep ∈ delim) (rest : Bytes) (m : ℕ) (st : σ) :
    eachToken delim body (m + 1) (pre ++ (g ++ (w ++ sep :: rest))) pre.length st =
      (body w (pre.length + g.length) st).bind fun st =>
        eachToken delim body m (pre ++ g ++ w ++ [0] ++ rest) (pre ++ g ++ w ++ [0]).length st := by
  have hword : cstr ((pre ++ (g ++ (w ++ 0 :: rest))).drop (pre.length + g.length)) = w := by
    rw [← List.append_assoc, List.drop_left' (by simp), cstr_terminated hno]
  rw [eachToken, strtokR_word h0 hg hno hw hsep]
  dsimp only
  rw [hword]
  cases hb : body w (pre.length + g.length) st with
  | error e => rfl
  | ok st' =>
    have hbuf : pre ++ (g ++ (w ++ 0 :: rest)) = pre ++ g ++ w ++ [0] ++ rest := by simp
    have hsave : pre.length + g.length + w.length + 1 = (pre ++ g ++ w ++ [(0 : UInt8)]).length := by
      simp [Nat.add_assoc]
    rw [hbuf, hsave]
    rfl

/-- The loop on a lexed string: `body` is given the words in order, with where
they start; afterwards they stand there as strings, and the string at the
start of the buffer has lost all words but the first. -/
theorem eachToken_lexed (h0 : (0 : UInt8) ∉ delim) {l : Bytes} {ws : List Bytes}
    (h : Lexed delim l ws) (hno : NoNul l) (rest : Bytes) (n : ℕ) (hn : l.length < n) (pre : Bytes) :
    ∃ starts : List ℕ, ∃ l' : Bytes, l'.length = l.length ∧
      starts.map (fun a => cstr ((pre ++ (l' ++ 0 :: rest)).drop a)) = ws ∧
      Lexed delim (cstr (l' ++ 0 :: rest)) (ws.take 1) ∧
      ∀ {σ ε : Type} (body : Bytes → ℕ → σ → Except ε σ) (st : σ),
        eachToken delim body n (pre ++ (l ++ 0 :: rest)) pre.length st =
          ((starts.zip ws).foldlM (fun st e => body e.2 e.1 st) st).map
            fun st => (pre ++ (l' ++ 0 :: rest), st) := by
  induction h generalizing n pre with
  | @gap g hg =>
    refine ⟨[], g, rfl, rfl, ?_, ?_⟩
    · rw [cstr_terminated hno]
      exact .gap hg
    · intro σ ε body st
      rcases Nat.exists_eq_succ_of_ne_zero (Nat.ne_of_gt (Nat.zero_lt_of_lt hn)) with ⟨m, rfl⟩
      rw [eachToken, strtokR_gap pre h0 hg]
      rfl
  | @last g w hg hw =>
    have hnow := (NoNul.of_append hno).2
    have hword : cstr ((pre ++ (g ++ w ++ 0 :: rest)).drop (pre.length + g.length)) = w := by
      rw [List.append_assoc, ← List.append_assoc, List.drop_left' (by simp), cstr_terminated hnow]
    refine ⟨[pre.length + g.length], g ++ w, rfl, by rw [List.map_singleton, hword], ?_, ?_⟩
    · rw [cstr_terminated hno]
      exact .last hg hw
    · intro σ ε body st
      have hpos : 0 < w.length := List.length_pos_iff.mpr hw.1
      rw [List.length_append] at hn
      obtain ⟨m, rfl⟩ : ∃ m, n = m + 2 := ⟨n - 2, by omega⟩
      rw [List.append_assoc, eachToken_last body pre h0 hg hnow hw, List.zip_cons_cons, List.foldlM_cons]
      cases body w (pre.length + g.length) st <;> rfl
  | @cons g w l sep ws hg hw hsep _ ih =>
    have hnow : NoNul w := (NoNul.of_append (NoNul.of_append hno).2).1
    have hnol : NoNul l := fun hmem => hno (by simp [hmem])
    rw [List.length_append, List.length_append, List.length_cons] at hn
    obtain ⟨m, rfl⟩ : ∃ m, n = m + 1 := ⟨n - 1, by omega⟩
    -- the loop goes on behind the NUL that ends the word
    rcases ih hnol m (by omega) (pre ++ g ++ w ++ [0]) with ⟨starts, l', hlen, hwords, -, hloop⟩
    have hbuf : pre ++ (g ++ (w ++ 0 :: l') ++ 0 :: rest) = pre ++ g ++ w ++ [0] ++ (l' ++ 0 :: rest) := by
      simp
    refine ⟨(pre.length + g.length) :: starts, g ++ (w ++ 0 :: l'), by simp [hlen], ?_, ?_, ?_⟩
    · rw [List.map_cons, hbuf, hwords]
      congr 1
      have hdrop : (pre ++ g ++ w ++ [0] ++ (l' ++ 0 :: rest)).drop (pre.length + g.length) =
          w ++ 0 :: (l' ++ 0 :: rest) := by
        have hassoc : pre ++ g ++ w ++ [0] ++ (l' ++ 0 :: rest) = (pre ++ g) ++ (w ++ 0 :: (l' ++ 0 :: rest)) := by
          simp
        rw [hassoc]
        exact List.drop_left' (by simp)
      rw [hdrop, cstr_terminated hnow]
    · -- the string ends behind its first word
      have hnogw : NoNul (g ++ w) := fun hmem => hno (by
        rcases List.mem_append.mp hmem with hmem | hmem <;> simp [hmem])
      have hassoc : g ++ (w ++ 0 :: l') ++ 0 :: rest = (g ++ w) ++ 0 :: (l' ++ 0 :: rest) := by simp
      rw [hassoc, cstr_terminated hnogw]
      exact .last hg hw
    · intro σ ε body st
      have hcons : g ++ (w ++ sep :: l) ++ 0 :: rest = g ++ (w ++ sep :: (l ++ 0 :: rest)) := by simp
      rw [hcons, eachToken_word body pre h0 hg hnow hw hsep, List.zip_cons_cons, List.foldlM_cons, hbuf]
      cases body w (pre.length + g.length) st with
      | error e => rfl
      | ok st' => exact hloop body st'

/-- The loop on the string at the start of a buffer, as a fold over its tokens,
each with the string that it is in the end. -/
theorem eachToken_string (h0 : (0 : UInt8) ∉ delim) {l : Bytes} {ws : List Bytes}
    (h : Lexed delim l ws) (hno : NoNul l) (rest : Bytes) :
    ∃ es : List (ℕ × Bytes), ∃ l' : Bytes, l'.length = l.length ∧ es.map Prod.snd = ws ∧
      (∀ e ∈ es, cstr ((l' ++ 0 :: rest).drop e.1) = e.2) ∧
      Lexed delim (cstr (l' ++ 0 :: rest)) (ws.take 1) ∧
      ∀ {σ ε : Type} (body : Bytes → ℕ → σ → Except ε σ) (st : σ),
        eachToken delim body ((l ++ 0 :: rest).length + 1) (l ++ 0 :: rest) 0 st =
          (es.foldlM (fun st e => body e.2 e.1 st) st).map fun st => (l' ++ 0 :: rest, st) := by
  have hfuel : l.length < (l ++ 0 :: rest).length + 1 := by
    rw [List.length_append]
    omega
  rcases eachToken_lexed h0 h hno rest ((l ++ 0 :: rest).length + 1) hfuel []
    with ⟨starts, l', hlen, hstarts, hagain, hloop⟩
  have hzip : starts.zip ws = starts.map fun a => (a, cstr ((l' ++ 0 :: rest).drop a)) := by
    rw [← hstarts, List.map_prod_left_eq_zip]
    rfl
  refine ⟨starts.zip ws, l', hlen, ?_, ?_, hagain, hloop⟩
  · rw [hzip, List.map_map]
    exact hstarts
  · rw [hzip]
    intro e he
    rcases List.mem_map.mp he with ⟨a, -, rfl⟩
    rfl

end EmbeddedCourse.Tokens
