import EmbeddedCourse.Taxi.Commands
import EmbeddedCourse.Lib.Framing
import EmbeddedCourse.Lib.Run

/-! # The loop of the taxi server

A pass of the loop takes what one `read` returns for one line: the bytes go over
the start of the buffer, the string up to the first newline is the command, and
neither the bytes behind that newline nor the line that has only begun are kept.
At the end of the input `read` returns 0 and the last command is still there. The
commands are the lines of the input up to `exit` exactly as long as every `read`
returns one line, from its start, or `exit` and whatever stands behind it.
-/

namespace EmbeddedCourse.Taxi

open CString Framing

/-- `BUFFER_SIZE`. -/
def bufferSize : ℕ := 256

/-- What comes of the input in a pass: `select` reports none, or `read` fails, or
it returns bytes, none of them at the end of the input. -/
inductive Input where
  | none
  | failed
  | bytes (chunk : Bytes)
deriving DecidableEq, Repr

/-- The variables of `main`, with what it has printed and put on the queue, the
commands it has executed, and all that it has read. -/
structure Main where
  line : Bytes
  drivers : List Driver
  posted : List Message
  replies : List Reply
  executed : List Bytes
  input : Bytes
  done : Bool
deriving DecidableEq, Repr

/-- What a pass meets: the input, the bytes behind the buffer, what the system
calls come to, and the message that `msgrcv` returns, if any. -/
structure Pass where
  input : Input
  behind : Bytes
  calls : Calls
  mail : Option Message
deriving DecidableEq, Repr

namespace Main

/-- The buffer is not initialised. -/
def init (line : Bytes) : Main :=
  { line := line, drivers := [], posted := [], replies := [], executed := [], input := [],
    done := false }

/-- The end of the pass: `msgrcv` and `update_status_driver`. -/
def collect (m : Main) : Option Message → Main
  | .none => m
  | .some msg => { m with drivers := updateStatusDriver msg.pid m.drivers }

/-- The string up to the first newline or NUL, which may be behind the buffer. -/
def text (line behind : Bytes) : Bytes := (line ++ behind).takeWhile fun b => b != 10 && b != 0

/-- The bytes of a `read`, taken for a command. -/
def runLine (m : Main) (chunk behind : Bytes) (calls : Calls) : Main :=
  let line := overlay m.line chunk
  let text := text line behind
  let r := execute calls m.drivers (parse text)
  { -- the newline becomes a NUL; behind the buffer nothing is kept track of
    line := line.set text.length 0
    drivers := r.2.1
    posted := m.posted ++ r.2.2.toList
    replies := m.replies ++ [r.1]
    executed := m.executed ++ [text]
    input := m.input ++ chunk
    done := parse text = .exit }

/-- A pass of the loop; none after `break`. -/
def iterate (m : Main) (a : Pass) : Option Main :=
  if m.done then .none
  else
    match a.input with
    | .none => some (m.collect a.mail)
    | .failed => some { m with done := true }
    | .bytes chunk =>
      let m := m.runLine chunk a.behind a.calls
      some (if m.done then m else m.collect a.mail)

/-- `read` returns no more bytes than the buffer has. -/
def Admissible (_ : Main) (a : Pass) : Prop :=
  match a.input with
  | .bytes chunk => chunk.length ≤ bufferSize
  | .none | .failed => True

instance (m : Main) : ∀ a : Pass, Decidable (Admissible m a)
  | ⟨.bytes chunk, _, _, _⟩ => inferInstanceAs (Decidable (chunk.length ≤ bufferSize))
  | ⟨.none, _, _, _⟩ | ⟨.failed, _, _, _⟩ => .isTrue trivial

/-- `"exit"`. -/
def exitWord : Bytes := ascii ['e', 'x', 'i', 't']

/-- The first of the lines is a text, and it is the only one or `exit`. -/
def OneOrExit : List Bytes → Prop
  | [] => False
  | l :: ls => NoNul l ∧ (ls = [] ∨ l = exitWord)

instance : (ls : List Bytes) → Decidable (OneOrExit ls)
  | [] => .isFalse id
  | l :: ls => inferInstanceAs (Decidable (NoNul l ∧ (ls = [] ∨ l = exitWord)))

/-- What is read begins with the start of a line and ends this line, a text, and
no other unless this is `exit`. -/
def OneLine (m : Main) (a : Pass) : Prop :=
  match a.input with
  | .bytes chunk => pending 10 m.input = [] ∧ OneOrExit (complete 10 chunk)
  | .none | .failed => True

instance (m : Main) : ∀ a : Pass, Decidable (OneLine m a)
  | ⟨.bytes chunk, _, _, _⟩ =>
    inferInstanceAs (Decidable (pending 10 m.input = [] ∧ OneOrExit (complete 10 chunk)))
  | ⟨.none, _, _, _⟩ | ⟨.failed, _, _, _⟩ => .isTrue trivial

/-- The commands executed so far are the lines read so far, up to `exit`. -/
def Faithful (m : Main) : Prop := m.executed = upTo exitWord (complete 10 m.input)

instance (m : Main) : Decidable m.Faithful := inferInstanceAs (Decidable (_ = _))

variable {m m' : Main} {a : Pass} {as : List Pass} {line : Bytes}

/-! ## One pass -/

@[simp] theorem collect_line (m : Main) (mail : Option Message) : (m.collect mail).line = m.line := by
  cases mail <;> rfl

@[simp] theorem collect_executed (m : Main) (mail : Option Message) :
    (m.collect mail).executed = m.executed := by
  cases mail <;> rfl

@[simp] theorem collect_input (m : Main) (mail : Option Message) :
    (m.collect mail).input = m.input := by
  cases mail <;> rfl

/-- What a pass does to the buffer, the commands and the input: nothing, or what
one `read` brings. -/
theorem iterate_cases (h : m.iterate a = some m') :
    ((a.input = .none ∨ a.input = .failed) ∧ m'.line = m.line ∧ m'.executed = m.executed ∧
      m'.input = m.input) ∨
    ∃ chunk, a.input = .bytes chunk ∧
      m'.line = (overlay m.line chunk).set (text (overlay m.line chunk) a.behind).length 0 ∧
      m'.executed = m.executed ++ [text (overlay m.line chunk) a.behind] ∧
      m'.input = m.input ++ chunk := by
  rcases a with ⟨input, behind, calls, mail⟩
  unfold iterate at h
  split_ifs at h
  cases input with
  | none =>
    obtain rfl := Option.some.inj h
    exact Or.inl ⟨Or.inl rfl, by simp, by simp, by simp⟩
  | failed =>
    obtain rfl := Option.some.inj h
    exact Or.inl ⟨Or.inr rfl, rfl, rfl, rfl⟩
  | bytes chunk =>
    right
    refine ⟨chunk, rfl, ?_⟩
    obtain rfl := Option.some.inj h
    -- the command is `exit`, or another one
    dsimp only
    split_ifs
    · exact ⟨rfl, rfl, rfl⟩
    · simp [runLine]

/-- The buffer keeps its size. -/
theorem length_iterate (h : m.iterate a = some m') (hlen : m.line.length = bufferSize)
    (hok : Admissible m a) : m'.line.length = bufferSize := by
  rcases iterate_cases h with ⟨-, hline, -, -⟩ | ⟨chunk, hinput, hline, -, -⟩
  · rw [hline, hlen]
  · have hchunk : chunk.length ≤ bufferSize := by
      simpa [Admissible, hinput] using hok
    rw [hline, List.length_set, overlay, List.length_append, List.length_drop,
      List.take_of_length_le (by omega)]
    omega

/-- A newline in what was read ends the command, unless a NUL does before. -/
theorem text_line {x y : Bytes} (hx : 10 ∉ x) (hlen : (x ++ 10 :: y).length ≤ line.length)
    (behind : Bytes) : text (overlay line (x ++ 10 :: y)) behind = cstr x := by
  rw [text, overlay, List.take_of_length_le hlen, List.append_assoc, List.append_assoc,
    List.cons_append]
  generalize y ++ (line.drop (x ++ 10 :: y).length ++ behind) = rest
  clear hlen
  induction x with
  | nil => rfl
  | cons b x ih =>
    have hb : b ≠ 10 := fun he => hx (by simp [he])
    have hih := ih fun hmem => hx (List.mem_cons_of_mem b hmem)
    by_cases h0 : b = 0
    · simp [h0]
    · rw [List.cons_append, cstr_cons h0, ← hih, List.takeWhile_cons]
      simp [hb, h0]

/-- The loop has ended with `exit`, or has not seen it. -/
def Open (m : Main) : Prop := m.done = false → exitWord ∉ m.executed

/-- A pass keeps what is said of the end of the loop. -/
theorem Open.iterate (ho : m.Open) (h : m.iterate a = some m') : m'.Open := by
  rcases a with ⟨input, behind, calls, mail⟩
  unfold Main.iterate at h
  split_ifs at h with hdone
  have hold := ho (Bool.eq_false_iff.mpr hdone)
  cases input with
  | none =>
    obtain rfl := Option.some.inj h
    intro _
    rwa [collect_executed]
  | failed =>
    obtain rfl := Option.some.inj h
    exact fun _ => hold
  | bytes chunk =>
    obtain rfl := Option.some.inj h
    dsimp only
    split_ifs with hexit
    · exact fun hopen => absurd hexit (Bool.eq_false_iff.mp hopen)
    · intro _
      -- a command that is not `exit` leaves the loop open
      have hword : text (overlay m.line chunk) behind ≠ exitWord := by
        intro he
        refine hexit (decide_eq_true ?_)
        rw [he]
        rfl
      rw [collect_executed]
      exact List.not_mem_append hold (by simpa using hword.symm)

theorem not_done_of_iterate (h : m.iterate a = some m') : m.done = false := by
  unfold Main.iterate at h
  split_ifs at h with hdone
  exact Bool.eq_false_iff.mpr hdone

/-- As long as the loop goes on, all lines read have been executed. -/
theorem Faithful.all (hm : m.Faithful) (hopen : exitWord ∉ m.executed) :
    exitWord ∉ complete 10 m.input ∧ m.executed = complete 10 m.input := by
  unfold Faithful at hm
  have hnone := not_mem_of_upTo (hm ▸ hopen)
  exact ⟨hnone, by rwa [upTo_of_not_mem hnone] at hm⟩

/-- One line from its start, or `exit`, is executed as it is. -/
theorem faithful_of_oneLine (h : m.iterate a = some m') (hlen : m.line.length = bufferSize)
    (hok : Admissible m a) (hone : OneLine m a) (ho : m.Open) (hm : m.Faithful) : m'.Faithful := by
  rcases hm.all (ho (not_done_of_iterate h)) with ⟨hnone, hall⟩
  unfold Faithful at hm ⊢
  rcases iterate_cases h with ⟨-, -, hexec, hin⟩ | ⟨chunk, hinput, -, hexec, hin⟩
  · rw [hexec, hin, hm]
  · have hchunk : chunk.length ≤ bufferSize := by
      simpa [Admissible, hinput] using hok
    obtain ⟨hpend, hfirst⟩ : pending 10 m.input = [] ∧ OneOrExit (complete 10 chunk) := by
      simpa [OneLine, hinput] using hone
    cases hlines : complete 10 chunk with
    | nil => simp [hlines, OneOrExit] at hfirst
    | cons l ls =>
      rw [hlines] at hfirst
      rcases hfirst with ⟨hnul, hlast⟩
      rcases frame_eq_cons hlines with ⟨x, y, rfl, hx, rfl, -⟩
      -- the command is the first line, and with it the lines end
      rw [hexec, hin, complete_append, hpend, ← complete, upTo_append hnone, hlines, hall,
        text_line hx (by rw [hlen]; exact hchunk), cstr_of_noNul hnul,
        upTo_eq_singleton_iff.mpr ⟨ls, rfl, hlast⟩]

/-- What is executed as a line was one line from its start, or `exit`. -/
theorem oneLine_of_faithful (h : m.iterate a = some m') (hlen : m.line.length = bufferSize)
    (hok : Admissible m a) (ho : m.Open) (hm : m.Faithful) (hm' : m'.Faithful) : OneLine m a := by
  rcases hm.all (ho (not_done_of_iterate h)) with ⟨hnone, hall⟩
  unfold Faithful at hm'
  rcases iterate_cases h with ⟨hinput, -⟩ | ⟨chunk, hinput, -, hexec, hin⟩
  · rcases hinput with hinput | hinput <;> simp [OneLine, hinput]
  · have hchunk : chunk.length ≤ bufferSize := by
      simpa [Admissible, hinput] using hok
    rw [hexec, hin, complete_append, upTo_append hnone, ← hall] at hm'
    rcases upTo_eq_singleton_iff.mp (List.append_cancel_left hm').symm with ⟨ls, hlines, hlast⟩
    rcases frame_eq_cons hlines with ⟨x, y, rfl, hx, hl, hrest⟩
    rw [text_line hx (by rw [hlen]; exact hchunk)] at hl hlast
    -- the command is not longer than what was read of the line
    have hle : (cstr x).length ≤ x.length := (List.takeWhile_sublist _).length_le
    have hpend : pending 10 m.input = [] := by
      have hlength := congrArg List.length hl
      rw [List.length_append] at hlength
      exact List.eq_nil_of_length_eq_zero (by omega)
    rw [hpend, List.nil_append] at hl
    have hnul : NoNul x := hl ▸ noNul_cstr x
    have hcomplete : complete 10 (x ++ 10 :: y) = x :: ls := by
      rw [complete, frame_line [] hx, List.nil_append, hrest]
      rfl
    rw [hl] at hlast
    simpa [OneLine, OneOrExit, hinput, hpend, hcomplete] using ⟨hnul, hlast⟩

/-! ## Runs -/

/-- The runs of the loop whose passes meet a condition. -/
abbrev LoopRun (c : Main → Pass → Prop) (line : Bytes) (as : List Pass) (m : Main) : Prop :=
  Machine.Run iterate (fun m a => Admissible m a ∧ c m a) (init line) as m

theorem length_of_run {c : Main → Pass → Prop} (hline : line.length = bufferSize)
    (hrun : LoopRun c line as m) : m.line.length = bufferSize := by
  apply hrun.invariant fun m => m.line.length = bufferSize
  · exact hline
  · intro m a m' hlen hok h
    exact length_iterate h hlen hok.1

theorem open_of_run {c : Main → Pass → Prop} (hrun : LoopRun c line as m) : m.Open := by
  apply hrun.invariant Main.Open
  · exact fun _ => List.not_mem_nil
  · exact fun m a m' ho _ h => ho.iterate h

theorem faithful_of_run (hline : line.length = bufferSize) (hrun : LoopRun OneLine line as m) :
    m.Faithful := by
  have hall : m.line.length = bufferSize ∧ m.Open ∧ m.Faithful := by
    apply hrun.invariant fun m => m.line.length = bufferSize ∧ m.Open ∧ m.Faithful
    · exact ⟨hline, fun _ => List.not_mem_nil, rfl⟩
    · rintro m a m' ⟨hlen, ho, hm⟩ hok h
      exact ⟨length_iterate h hlen hok.1, ho.iterate h,
        faithful_of_oneLine h hlen hok.1 hok.2 ho hm⟩
  exact hall.2.2

/-- All along a run the commands executed are the lines read, up to `exit`, exactly
when every `read` returns one line from its start, or `exit` and more; and then
they are the lines of the input up to `exit`. -/
theorem executed_lines_iff (line : Bytes) (hline : line.length = bufferSize) (as : List Pass) (m : Main)
    (hrun : LoopRun (fun _ _ => True) line as m) :
    ((∀ as₁ as₂ m₁, as = as₁ ++ as₂ → LoopRun (fun _ _ => True) line as₁ m₁ → m₁.Faithful) ↔
      LoopRun OneLine line as m) ∧
    (LoopRun OneLine line as m → ∀ ls : List Bytes, (∀ l ∈ ls, 10 ∉ l) →
      m.input = (ls.map (· ++ [10])).flatten → m.executed = upTo exitWord ls) := by
  constructor
  · constructor
    · intro hall
      induction hrun with
      | init => exact .init
      | @step as m a m' hr hok h ih =>
        have hprefix := ih fun as₁ as₂ m₁ hsplit => hall as₁ (as₂ ++ [a]) m₁ (by simp [hsplit])
        have hm : m.Faithful := hall as [a] m rfl hr
        have hm' : m'.Faithful := hall (as ++ [a]) [] m' (by simp) (hr.step hok h)
        have hone := oneLine_of_faithful h (length_of_run hline hr) hok.1 (open_of_run hr) hm hm'
        exact hprefix.step ⟨hok.1, hone⟩ h
    · rintro hone as₁ as₂ m₁ rfl hrun₁
      rcases hone.take with ⟨t, ht⟩
      obtain rfl := ht.unique hrun₁
      exact faithful_of_run hline ht
  · intro hone ls hls hin
    have hm : m.executed = upTo exitWord (complete 10 m.input) := faithful_of_run hline hone
    rw [hm, hin, complete_join hls]

/-- `"get_drivers"`. -/
def getDriversWord : Bytes := ascii ['g', 'e', 't', '_', 'd', 'r', 'i', 'v', 'e', 'r', 's']

/-- A pass that reads these bytes. -/
def reading (chunk : Bytes) : Pass := ⟨.bytes chunk, [], ⟨2, 0, true⟩, .none⟩

/-- Two commands, one `read` each, with a pass without input in between; behind
`exit` one more line is read and not executed. -/
def oneByOne : List Pass :=
  [reading (getDriversWord ++ [10]), ⟨.none, [], ⟨2, 0, true⟩, .none⟩,
    reading (exitWord ++ [10] ++ getDriversWord ++ [10])]

theorem executed_lines_oneByOne : ∃ m, LoopRun (fun _ _ => True) (List.replicate 256 63) oneByOne m ∧
    LoopRun OneLine (List.replicate 256 63) oneByOne m ∧ m.Faithful ∧
    m.executed = [getDriversWord, exitWord] := by
  have hrun : (Machine.exec (Machine.guarded iterate fun m a => Admissible m a ∧ OneLine m a)
      (init (List.replicate 256 63)) oneByOne).map Main.input =
        some (([getDriversWord, exitWord, getDriversWord].map (· ++ [10])).flatten) := by
    decide +kernel
  rcases Machine.Run.exists_of_exec hrun with ⟨m, hone, hinput⟩
  have hplain : LoopRun (fun _ _ => True) (List.replicate 256 63) oneByOne m :=
    hone.mono fun _ _ hok => ⟨hok.1, trivial⟩
  have hiff := executed_lines_iff (List.replicate 256 63) (List.length_replicate ..) oneByOne m hplain
  exact ⟨m, hplain, hone, hiff.1.mpr hone oneByOne [] m (by simp) hplain,
    hiff.2 hone _ (by decide) hinput⟩

/-- Both commands come with one `read`: `exit` is not executed, and at the end of
the input the first command is executed again. -/
theorem exit_skipped : ∃ m, LoopRun (fun _ _ => True) (List.replicate 256 63)
      [reading (getDriversWord ++ [10] ++ exitWord ++ [10]), reading []] m ∧
    complete 10 m.input = [getDriversWord, exitWord] ∧
    m.executed = [getDriversWord, getDriversWord] ∧ m.done = false := by
  have hrun : (Machine.exec (Machine.guarded iterate fun m a => Admissible m a ∧ True)
      (init (List.replicate 256 63))
        [reading (getDriversWord ++ [10] ++ exitWord ++ [10]), reading []]).map
      (fun m => (complete 10 m.input, m.executed, m.done)) =
        some ([getDriversWord, exitWord], [getDriversWord, getDriversWord], false) := by
    decide +kernel
  rcases Machine.Run.exists_of_exec hrun with ⟨m, hrun, hf⟩
  rcases Prod.mk.inj hf with ⟨hinput, hf⟩
  rcases Prod.mk.inj hf with ⟨hexec, hdone⟩
  exact ⟨m, hrun, hinput, hexec, hdone⟩

end Main

end EmbeddedCourse.Taxi
