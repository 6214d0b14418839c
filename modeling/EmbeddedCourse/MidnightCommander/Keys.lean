import EmbeddedCourse.MidnightCommander.Entering
import Mathlib.Data.List.Induction
import Mathlib.Logic.Function.Basic

/-! # A session of keys

`run` and `main_window` of the Midnight Commander. A key moves a cursor, changes the
panel, opens a directory or ends the session; when a directory was opened both panels are
filled anew and `main_window` is entered again. An `int` that overflows has no meaning.
-/

namespace EmbeddedCourse.MidnightCommander

open CString

/-- An index of the two panels. -/
inductive Side where
  | left
  | right
deriving DecidableEq

def Side.other : Side → Side
  | .left => .right
  | .right => .left

/-- The rows of a panel: there is one, and they are counted by an `int` with the entry that
has no row. -/
structure Rows where
  rows : List InfoCatalog
  pos : 1 ≤ rows.length
  lt : rows.length < intMax

/-- What the file system answers when the panels are filled. -/
structure Disk where
  stat : Bytes → Option Stat
  mcTime : Int → Bytes
  scandir : Bytes → List Dirent
  two_le : ∀ path, 2 ≤ (scandir path).length
  le : ∀ path, (scandir path).length ≤ intMax

theorem length_createInfoCatalog (stat : Bytes → Option Stat) (mcTime : Int → Bytes) (pathC : PathT)
    (entries : List Dirent) :
    (createInfoCatalog stat pathC mcTime entries).length = entries.length - 1 := by
  have hperm : (sortList stat pathC entries).length = entries.length := (Bubble.sort_perm entries).length_eq
  rw [createInfoCatalog, updateInfoCatalog, List.length_zipWith, List.length_drop,
    List.length_replicate, hperm, Nat.min_self]

/-- `create_infoCatalog` for the panel with the path. -/
def Disk.rows (d : Disk) (pc : PathT) : Rows where
  rows := createInfoCatalog d.stat pc d.mcTime (d.scandir (cstr pc.path))
  pos := by
    have htwo := d.two_le (cstr pc.path)
    rw [length_createInfoCatalog]
    omega
  lt := by
    have htwo := d.two_le (cstr pc.path)
    have hle := d.le (cstr pc.path)
    rw [length_createInfoCatalog]
    omega

inductive Key where
  | tab
  | down
  | up
  | enter
  | f1
  | other
deriving DecidableEq

/-- A key, with what is found behind a path that grows, and what the panels are filled from if
a directory is opened. -/
structure Event where
  key : Key
  fresh : Bytes
  disk : Disk

/-- `auxStr`, the lists, the paths, and the panel that `active_panel` is. -/
structure Screen where
  currentIndex : Side → ℤ
  currentCatalog : Side
  run : Bool
  infCatalogList : Side → Rows
  pathCatalog : Side → PathT
  activePanel : Side

namespace Screen

/-- `auxStr->size` -/
def size (s : Screen) (side : Side) : ℤ := (s.infCatalogList side).rows.length

def setIndex (s : Screen) (side : Side) (i : ℤ) : Screen :=
  { s with currentIndex := Function.update s.currentIndex side i }

/-- The value of an `int` expression. -/
def int (v : ℤ) : Option ℤ := if -2147483648 ≤ v ∧ v ≤ intMax then some v else none

/-- The body of the loop of `run` up to the first key. -/
def reload (d : Disk) (s : Screen) : Screen :=
  { s with
    currentIndex := fun _ => 0
    infCatalogList := fun side => d.rows (s.pathCatalog side)
    activePanel := .left }

/-- The start of `run`. -/
def start (d : Disk) : Screen where
  currentIndex _ := 0
  currentCatalog := .left
  run := true
  infCatalogList _ := d.rows createPathT
  pathCatalog _ := createPathT
  activePanel := .left

/-- `case 9`; with an index behind the rows no row is shown as the current one. -/
def tab (s : Screen) : Option Screen := do
  let temp := s.currentIndex s.currentCatalog
  let behind ← int (s.size s.currentCatalog + 1)
  let s' := (s.setIndex s.currentCatalog behind).setIndex s.currentCatalog temp
  some { s' with activePanel := s.activePanel.other, currentCatalog := s.currentCatalog.other }

/-- `KEY_DOWN` with 1, `KEY_UP` with -1. -/
def move (d : ℤ) (s : Screen) : Option Screen := do
  let sum ← int (s.currentIndex s.currentCatalog + s.size s.currentCatalog)
  let sum ← int (sum + d)
  some (s.setIndex s.currentCatalog (sum.tmod (s.size s.currentCatalog)))

/-- The name that `changePathCatalog` is called with, if it is. -/
def chosen (s : Screen) : Option Bytes :=
  if 0 ≤ s.currentIndex s.currentCatalog then
    entered (s.infCatalogList s.currentCatalog).rows (s.currentIndex s.currentCatalog).toNat
  else none

/-- The path after Enter, if a directory is opened. -/
def opened (s : Screen) (fresh : Bytes) : Option PathT := do
  let name ← s.chosen
  changePathCatalog fresh name (s.pathCatalog s.currentCatalog)

def enter (e : Event) (s : Screen) : Screen :=
  match s.chosen, s.opened e.fresh with
  | none, _ => s
  -- the path does not grow any more; no other key is waited for
  | some _, none => { s with run := false }
  | some _, some pc =>
    reload e.disk { s with pathCatalog := Function.update s.pathCatalog s.currentCatalog pc }

/-- A key; behind the last one nothing is waited for. -/
def step (s : Screen) (e : Event) : Option Screen :=
  if s.run = true then
    match e.key with
    | .tab => s.tab
    | .down => s.move 1
    | .up => s.move (-1)
    | .enter => some (s.enter e)
    | .f1 => some { s with run := false }
    | .other => some s
  else some s

def exec (d : Disk) (events : List Event) : Option Screen := events.foldlM step (start d)

/-! ## The state at a key -/

/-- The cursors are on rows, and the active panel is the current one. -/
structure Consistent (s : Screen) : Prop where
  index : ∀ side, 0 ≤ s.currentIndex side ∧ s.currentIndex side < s.size side
  active : s.activePanel = s.currentCatalog

/-- The steps that keep the state consistent: Enter opens no directory in the right panel,
and the sum for a cursor is an `int`. -/
def Steady (s : Screen) (e : Event) : Prop :=
  match e.key with
  | .down => s.currentIndex s.currentCatalog + s.size s.currentCatalog + 1 ≤ intMax
  | .up => s.currentIndex s.currentCatalog + s.size s.currentCatalog ≤ intMax
  | .enter => (s.opened e.fresh).isSome = true → s.currentCatalog = .left
  | _ => True

variable {s : Screen} {e : Event}

theorem size_pos (s : Screen) (side : Side) : 0 < s.size side ∧ s.size side < intMax := by
  have hpos := (s.infCatalogList side).pos
  have hlt := (s.infCatalogList side).lt
  unfold size
  omega

theorem consistent_start (d : Disk) : (start d).Consistent where
  index _ := ⟨Int.le_refl 0, (size_pos _ _).1⟩
  active := rfl

theorem int_eq {v : ℤ} (hlow : 0 ≤ v) (hhigh : v ≤ intMax) : int v = some v := by
  rw [int, if_pos ⟨by omega, hhigh⟩]

theorem int_eq_none {v : ℤ} (h : ↑intMax < v) : int v = none := by
  rw [int, if_neg]
  omega

/-- A cursor that moves stays on the rows. -/
theorem Consistent.move (h : s.Consistent) {d : ℤ} (hd : d = 1 ∨ d = -1)
    (hlow : s.currentIndex s.currentCatalog + s.size s.currentCatalog ≤ intMax)
    (hhigh : s.currentIndex s.currentCatalog + s.size s.currentCatalog + d ≤ intMax) :
    ∃ s', s.move d = some s' ∧ s'.Consistent := by
  have hsize := size_pos s s.currentCatalog
  have hindex := h.index s.currentCatalog
  rw [Screen.move, int_eq (by omega) hlow]
  simp only [Option.bind_eq_bind, Option.bind_some]
  rw [int_eq (by omega) hhigh]
  refine ⟨_, rfl, ?_, h.active⟩
  intro side
  by_cases hside : side = s.currentCatalog
  · subst hside
    have hsum : 0 ≤ s.currentIndex s.currentCatalog + s.size s.currentCatalog + d := by omega
    simp only [setIndex, Function.update_self]
    exact ⟨Int.tmod_nonneg _ hsum, Int.tmod_lt_of_pos _ hsize.1⟩
  · simp only [setIndex, Function.update_of_ne hside]
    exact h.index side

/-- A sum that is too large is no `int`. -/
theorem move_eq_none {d : ℤ}
    (h : ↑intMax < s.currentIndex s.currentCatalog + s.size s.currentCatalog ∨
      ↑intMax < s.currentIndex s.currentCatalog + s.size s.currentCatalog + d) : s.move d = none := by
  unfold Screen.move
  by_cases hfirst : ↑intMax < s.currentIndex s.currentCatalog + s.size s.currentCatalog
  · rw [int_eq_none hfirst]
    rfl
  · -- where the first sum is an `int` still, adding `d` makes it too large
    have hsecond := int_eq_none (h.resolve_left hfirst)
    cases hsum : int (s.currentIndex s.currentCatalog + s.size s.currentCatalog) with
    | none => rfl
    | some sum =>
      unfold int at hsum
      split_ifs at hsum
      obtain rfl := Option.some.inj hsum
      rw [Option.bind_eq_bind, Option.bind_some, hsecond]
      rfl

/-- Tab changes the panel and leaves the cursors. -/
theorem tab_spec (s : Screen) : ∃ s', s.tab = some s' ∧ s'.currentIndex = s.currentIndex ∧
    (s.Consistent → s'.Consistent) := by
  have hsize := size_pos s s.currentCatalog
  have hback : Function.update (Function.update s.currentIndex s.currentCatalog
      (s.size s.currentCatalog + 1)) s.currentCatalog (s.currentIndex s.currentCatalog) =
      s.currentIndex := by
    rw [Function.update_idem, Function.update_eq_self]
  rw [tab, int_eq (by omega) (by omega)]
  refine ⟨_, rfl, hback, ?_⟩
  intro h
  constructor
  · intro side
    simp only [setIndex, hback]
    exact h.index side
  · simp only [h.active]

/-- Filling the panels puts the cursors on the first rows and makes the left panel active. -/
theorem reload_consistent_iff (d : Disk) (s : Screen) :
    (reload d s).Consistent ↔ s.currentCatalog = .left := by
  constructor
  · intro h
    exact h.active.symm
  · intro h
    exact ⟨fun side => ⟨Int.le_refl 0, (size_pos _ _).1⟩, h.symm⟩

/-- Enter keeps the state consistent unless it opens a directory in the right panel. -/
theorem enter_consistent_iff (h : s.Consistent) (hrun : s.run = true) :
    ((s.enter e).run = true → (s.enter e).Consistent) ↔
      ((s.opened e.fresh).isSome = true → s.currentCatalog = .left) := by
  unfold enter
  cases hname : s.chosen with
  | none =>
    have hopen : s.opened e.fresh = none := by rw [opened, hname]; rfl
    simp [hopen, h]
  | some name =>
    cases hopen : s.opened e.fresh with
    | none => simp
    | some pc =>
      have hfill := reload_consistent_iff e.disk
        { s with pathCatalog := Function.update s.pathCatalog s.currentCatalog pc }
      constructor
      · intro hcons _
        exact hfill.mp (hcons hrun)
      · intro hleft _
        exact hfill.mpr (hleft rfl)

/-- A step from a consistent state is steady exactly if it leads to a consistent state. -/
theorem steady_iff (h : s.Consistent) (hrun : s.run = true) :
    s.Steady e ↔ ∃ s', s.step e = some s' ∧ (s'.run = true → s'.Consistent) := by
  have hsize := size_pos s s.currentCatalog
  have hindex := h.index s.currentCatalog
  rw [step, if_pos hrun, Steady]
  cases hkey : e.key with
  | tab =>
    rcases tab_spec s with ⟨s', htab, -, hkept⟩
    constructor
    · intro _
      exact ⟨s', htab, fun _ => hkept h⟩
    · intro _
      trivial
  | down =>
    dsimp only
    constructor
    · intro hfits
      rcases h.move (Or.inl rfl) (by omega) hfits with ⟨s', hmove, hs'⟩
      exact ⟨s', hmove, fun _ => hs'⟩
    · rintro ⟨s', hmove, -⟩
      by_contra hover
      -- the second sum is the one that overflows
      rw [move_eq_none (Or.inr (by omega))] at hmove
      exact absurd hmove (by simp)
  | up =>
    dsimp only
    constructor
    · intro hfits
      rcases h.move (Or.inr rfl) hfits (by omega) with ⟨s', hmove, hs'⟩
      exact ⟨s', hmove, fun _ => hs'⟩
    · rintro ⟨s', hmove, -⟩
      by_contra hover
      rw [move_eq_none (Or.inl (by omega))] at hmove
      exact absurd hmove (by simp)
  | enter =>
    dsimp only
    rw [← enter_consistent_iff h hrun]
    constructor
    · intro hkept
      exact ⟨_, rfl, hkept⟩
    · rintro ⟨s', hs', hkept⟩
      obtain rfl := Option.some.inj hs'
      exact hkept
  | f1 =>
    constructor
    · intro _
      exact ⟨_, rfl, fun hstopped => absurd hstopped (by simp)⟩
    · intro _
      trivial
  | other =>
    constructor
    · intro _
      exact ⟨s, rfl, fun _ => h⟩
    · intro _
      trivial

theorem step_stopped (h : s.run = false) (e : Event) : s.step e = some s := by
  simp [step, h]

/-! ## Sessions -/

theorem exec_concat (d : Disk) (es : List Event) (e : Event) :
    exec d (es ++ [e]) = (exec d es).bind fun s => s.step e := by
  simp only [exec, List.foldlM_append, List.foldlM_cons, List.foldlM_nil, bind_pure,
    Option.bind_eq_bind]

/-- Whenever a key is waited for the state is consistent, and Tab leaves the cursors as they
were. -/
structure Orderly (d : Disk) (events : List Event) : Prop where
  waiting : ∀ es, es <+: events → ∃ s, exec d es = some s ∧ (s.run = true → s.Consistent)
  tab : ∀ es e s s', es ++ [e] <+: events → exec d es = some s → exec d (es ++ [e]) = some s' →
    e.key = .tab → s'.currentIndex = s.currentIndex

theorem waiting_of_steady {d : Disk} {events : List Event}
    (h : ∀ es e s, es ++ [e] <+: events → exec d es = some s → s.run = true → s.Steady e)
    {es : List Event} (hes : es <+: events) :
    ∃ s, exec d es = some s ∧ (s.run = true → s.Consistent) := by
  induction es using List.reverseRecOn with
  | nil => exact ⟨start d, rfl, fun _ => consistent_start d⟩
  | append_singleton es e ih =>
    rcases ih ((List.prefix_append es [e]).trans hes) with ⟨s, hs, hcons⟩
    rw [exec_concat, hs, Option.bind_some]
    cases hrun : s.run with
    | true => exact (steady_iff (hcons hrun) hrun).mp (h es e s hes hs hrun)
    | false =>
      refine ⟨s, step_stopped hrun e, ?_⟩
      intro hgo
      rw [hrun] at hgo
      exact absurd hgo (by simp)

theorem tab_keeps {d : Disk} {es : List Event} {e : Event} {s s' : Screen} (hs : exec d es = some s)
    (hs' : exec d (es ++ [e]) = some s') (hkey : e.key = .tab) :
    s'.currentIndex = s.currentIndex := by
  rw [exec_concat, hs, Option.bind_some] at hs'
  cases hrun : s.run with
  | true =>
    rcases tab_spec s with ⟨t, htab, hindex, -⟩
    rw [step, if_pos hrun, hkey] at hs'
    obtain rfl := Option.some.inj (htab.symm.trans hs')
    exact hindex
  | false =>
    rw [step_stopped hrun] at hs'
    obtain rfl := Option.some.inj hs'
    rfl

/-- A session is orderly if and only if every key of it is steady where it is pressed. -/
theorem orderly_iff (d : Disk) (events : List Event) :
    Orderly d events ↔
      ∀ es e s, es ++ [e] <+: events → exec d es = some s → s.run = true → s.Steady e := by
  constructor
  · intro h es e s hes hs hrun
    rcases h.waiting es ((List.prefix_append es [e]).trans hes) with ⟨t, ht, hcons⟩
    rcases h.waiting (es ++ [e]) hes with ⟨s', hs', hnext⟩
    obtain rfl := Option.some.inj (hs.symm.trans ht)
    rw [exec_concat, hs, Option.bind_some] at hs'
    exact (steady_iff (hcons hrun) hrun).mpr ⟨s', hs', hnext⟩
  · intro h
    exact ⟨fun es hes => waiting_of_steady h hes,
      fun es e s s' _ hs hs' hkey => tab_keeps hs hs' hkey⟩

/-- A disk where every panel has the one row `..`. -/
def parentOnly : Disk where
  stat _ := some ⟨.directory, false, 0, 0⟩
  mcTime _ := []
  scandir _ := [⟨[46]⟩, ⟨[46, 46]⟩]
  two_le _ := le_rfl
  le _ := by decide

/-- Tab and Enter: the panels are filled, and the left one is active while the right one is
the current one. -/
theorem not_orderly_tab_enter :
    ¬ Orderly parentOnly [⟨.tab, [], parentOnly⟩, ⟨.enter, [], parentOnly⟩] := by
  intro h
  rcases h.waiting _ List.prefix_rfl with ⟨s, hs, hcons⟩
  have hseen : (exec parentOnly [⟨.tab, [], parentOnly⟩, ⟨.enter, [], parentOnly⟩]).map
      (fun s => (s.run, s.activePanel, s.currentCatalog)) = some (true, .left, .right) := by
    decide +kernel
  rw [hs] at hseen
  simp only [Option.map_some, Option.some_inj, Prod.mk.injEq] at hseen
  rcases hseen with ⟨hrun, hpanel, hcatalog⟩
  have hactive := (hcons hrun).active
  rw [hpanel, hcatalog] at hactive
  exact absurd hactive (by decide)

end Screen

end EmbeddedCourse.MidnightCommander
