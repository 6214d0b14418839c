import EmbeddedCourse.MidnightCommander.Panel

/-! # Entering a directory

Enter passes the name of a row with status 0 to `changePathCatalog`. A row of
`calloc` has that status, and `update_infoCatalog` sets another one for regular
files only: it stays with the empty name for what is neither a directory nor a
regular file, and for an entry on which `stat` fails. A name of 255 bytes behind
a mark fills the field without a terminator.
-/

namespace EmbeddedCourse.MidnightCommander

open CString

/-- `case '\n'` of `main_window`: the name that `changePathCatalog` is called with, if it is. -/
def entered (infCatalogList : List InfoCatalog) (currentIndex : ℕ) : Option Bytes :=
  match infCatalogList[currentIndex]? with
  | some row => if row.status = 0 then some row.shown else none
  | none => none

section

variable (stat : Bytes → Option Stat) (pathC : PathT)

/-- The name of an entry behind the mark of its kind; only what has been examined has a mark. -/
def marked (e : Dirent) : Bytes :=
  match stat (fullName pathC e.dName) with
  | some st => label st e.dName
  | none => e.dName

/-- The row of an entry has its name, terminated inside `name[256]`, and the status
0 for a directory only. -/
structure Shows (e : Dirent) (row : InfoCatalog) : Prop where
  terminated : 0 ∈ row.name.take 256
  nonempty : row.shown ≠ []
  name : row.shown = marked stat pathC e
  status : row.status = 0 ↔ isDirectory stat pathC e

/-- Every row shows the entry that it was made of, and Enter passes names of directories only. -/
structure Enterable (dCatalogList : List Dirent) (infCatalogList : List InfoCatalog) : Prop where
  rows : ∀ (k : ℕ) row, infCatalogList[k]? = some row →
    ∃ e, dCatalogList[k + 1]? = some e ∧ Shows stat pathC e row
  enter : ∀ (k : ℕ) name, entered infCatalogList k = some name →
    ∃ e, dCatalogList[k + 1]? = some e ∧ isDirectory stat pathC e ∧ name = 47 :: e.dName

/-- The entry is a directory or a regular file whose label and terminator fit the
field, and whose time fits its own, or leaves this label behind it. -/
def Legible (mcTime : Int → Bytes) (e : Dirent) : Prop :=
  ∃ st, stat (fullName pathC e.dName) = some st ∧ st.stMode ≠ .other ∧
    ((mcTime st.stMtime).length ≤ 12 ∧ (label st e.dName).length ≤ 255 ∨
      13 ≤ (mcTime st.stMtime).length ∧ (mcTime st.stMtime).drop 13 = label st e.dName)

end

/-! ## One row -/

section

variable {stat : Bytes → Option Stat} {pathC : PathT} {mcTime : Int → Bytes} {e : Dirent} {st : Stat}

theorem label_ne_nil (st : Stat) {name : Bytes} (h : 1 ≤ name.length) : label st name ≠ [] := by
  have hne : name ≠ [] := List.ne_nil_of_length_pos h
  unfold label
  cases st.stMode with
  | directory => exact List.cons_ne_nil _ _
  | regular =>
    cases st.executable with
    | true => exact List.cons_ne_nil _ _
    | false => exact hne
  | other => exact hne

/-- A row of zeros keeps the status 0 unless the entry is a regular file. -/
theorem status_fillRow (hstat : stat (fullName pathC e.dName) = some st) :
    (fillRow stat pathC mcTime e zeroRow).status = 0 ↔ st.stMode ≠ .regular := by
  have hrow : (fillRow stat pathC mcTime e zeroRow).status = (markRow st e.dName zeroRow).status := by
    unfold fillRow
    rw [hstat]
    rfl
  rw [hrow, markRow]
  cases st.stMode with
  | directory => simp
  | regular => cases st.executable <;> simp
  | other => exact iff_of_true rfl (by simp)

/-- The time fits: the field has a terminator when the label leaves room for one. -/
theorem terminated_short (hstat : stat (fullName pathC e.dName) = some st) (hkind : st.stMode ≠ .other)
    (hname : NoNul e.dName) (htext : (mcTime st.stMtime).length ≤ 12) :
    0 ∈ (fillRow stat pathC mcTime e zeroRow).name.take 256 ↔ (label st e.dName).length ≤ 255 := by
  have hrow : (fillRow stat pathC mcTime e zeroRow).name =
      label st e.dName ++ List.replicate (256 - (label st e.dName).length) 0 := by
    have hedit := (markRow_zeroRow st hname).1
    unfold fillRow
    rw [hstat, ← name_markRow hkind hname]
    exact name_formatMcTime hedit htext
  rw [hrow]
  constructor
  · intro hzero
    by_contra hlong
    have hfull : 256 - (label st e.dName).length = 0 := by omega
    rw [hfull, List.replicate_zero, List.append_nil] at hzero
    exact noNul_label st hname (List.mem_of_mem_take hzero)
  · intro hfits
    have hlen : (label st e.dName ++ List.replicate (256 - (label st e.dName).length) 0).length ≤ 256 := by
      rw [List.length_append, List.length_replicate]
      omega
    rw [List.take_of_length_le hlen]
    apply List.mem_append_right
    exact List.mem_replicate.mpr ⟨by omega, rfl⟩

/-- The time does not fit: its terminator is inside the field of the name. -/
theorem terminated_long (hstat : stat (fullName pathC e.dName) = some st) (hname : NoNul e.dName)
    (htime : TimeText (mcTime st.stMtime)) (htext : 13 ≤ (mcTime st.stMtime).length) :
    0 ∈ (fillRow stat pathC mcTime e zeroRow).name.take 256 := by
  have hlt := htime.lt
  have hedit := (markRow_zeroRow st hname).1
  have hroom : (mcTime st.stMtime ++ [(0 : UInt8)]).length ≤
      ((markRow st e.dName zeroRow).editTime ++ (markRow st e.dName zeroRow).name).length := by
    have hfield := (markRow_zeroRow st hname).2.1
    rw [List.length_append, List.length_singleton, List.length_append, hedit]
    omega
  -- what does not fit `edit_time` runs into the field of the name
  have hrow : ∃ rest, (fillRow stat pathC mcTime e zeroRow).name =
      (mcTime st.stMtime).drop 13 ++ 0 :: rest := by
    unfold fillRow formatMcTime
    rw [hstat]
    dsimp only
    rw [overlay_of_le hroom, List.append_assoc, List.drop_append_of_le_length htext]
    exact ⟨_, rfl⟩
  rcases hrow with ⟨rest, hrow⟩
  have hlen : ((mcTime st.stMtime).drop 13 ++ [(0 : UInt8)]).length ≤ 256 := by
    rw [List.length_append, List.length_drop, List.length_singleton]
    omega
  have hcut : (mcTime st.stMtime).drop 13 ++ 0 :: rest =
      ((mcTime st.stMtime).drop 13 ++ [0]) ++ rest := by
    rw [List.append_assoc, List.singleton_append]
  rw [hrow, hcut, List.take_append, List.take_of_length_le hlen]
  simp

theorem isDirectory_iff (hstat : stat (fullName pathC e.dName) = some st) :
    isDirectory stat pathC e ↔ st.stMode = .directory := by
  unfold isDirectory
  rw [hstat]
  simp [Stat.isDir]

theorem marked_directory (hdir : isDirectory stat pathC e) : marked stat pathC e = 47 :: e.dName := by
  rcases exists_directory hdir with ⟨st, hst, hmode⟩
  unfold marked
  rw [hst]
  dsimp only
  rw [label, hmode]

/-- One entry: its row shows it exactly when it is legible. -/
theorem shows_fillRow_iff (hname : NoNul e.dName) (hpos : 1 ≤ e.dName.length)
    (htime : ∀ t, TimeText (mcTime t)) :
    Shows stat pathC e (fillRow stat pathC mcTime e zeroRow) ↔ Legible stat pathC mcTime e := by
  cases hstat : stat (fullName pathC e.dName) with
  | none =>
    constructor
    · intro h
      -- `stat` has failed, and the row stays empty
      have hrow : fillRow stat pathC mcTime e zeroRow = zeroRow := by rw [fillRow, hstat]
      have hshown := h.nonempty
      rw [hrow] at hshown
      exact absurd rfl hshown
    · rintro ⟨st, hst, -⟩
      rw [hstat] at hst
      cases hst
  | some st =>
    have hmarked : marked stat pathC e = label st e.dName := by rw [marked, hstat]
    have hshown := shown_fillRow hstat hname (htime st.stMtime)
    have hstatus : (fillRow stat pathC mcTime e zeroRow).status = 0 ↔ st.stMode ≠ .regular :=
      status_fillRow hstat
    have hdir : isDirectory stat pathC e ↔ st.stMode = .directory := isDirectory_iff hstat
    constructor
    · intro h
      -- status 0 and no directory: an entry of another kind is never shown right
      have hkind : st.stMode ≠ .other := by
        intro hother
        have hisDir := hdir.mp (h.status.mp (hstatus.mpr (by simp [hother])))
        rw [hother] at hisDir
        cases hisDir
      refine ⟨st, hstat, hkind, ?_⟩
      by_cases htext : (mcTime st.stMtime).length ≤ 12
      · exact Or.inl ⟨htext, (terminated_short hstat hkind hname htext).mp h.terminated⟩
      · refine Or.inr ⟨by omega, ?_⟩
        have hleft := h.name
        rw [hmarked, hshown, if_neg (fun hfits => htext hfits.1)] at hleft
        exact hleft
    · rintro ⟨st', hst', hkind, hcase⟩
      obtain rfl : st = st' := Option.some.inj (hstat.symm.trans hst')
      -- the name is that of the entry in both cases of the time
      have hname' : (fillRow stat pathC mcTime e zeroRow).shown = label st e.dName := by
        rw [hshown]
        rcases hcase with ⟨htext, -⟩ | ⟨htext, hleft⟩
        · rw [if_pos ⟨htext, hkind⟩]
        · rw [if_neg (by omega), hleft]
      constructor
      · rcases hcase with ⟨htext, hfits⟩ | ⟨htext, -⟩
        · exact (terminated_short hstat hkind hname htext).mpr hfits
        · exact terminated_long hstat hname (htime _) htext
      · rw [hname']
        exact label_ne_nil st hpos
      · rw [hname', hmarked]
      · rw [hstatus, hdir]
        cases hmode : st.stMode with
        | directory => simp
        | regular => simp
        | other => exact absurd hmode hkind

/-- With every row as it should be, Enter passes names of directories only. -/
theorem enterable_of_rows {dCatalogList : List Dirent} {infCatalogList : List InfoCatalog}
    (h : ∀ (k : ℕ) row, infCatalogList[k]? = some row →
      ∃ e, dCatalogList[k + 1]? = some e ∧ Shows stat pathC e row) :
    Enterable stat pathC dCatalogList infCatalogList := by
  constructor
  · exact h
  · intro k name hname
    unfold entered at hname
    cases hrow : infCatalogList[k]? with
    | none =>
      rw [hrow] at hname
      cases hname
    | some row =>
      rw [hrow] at hname
      dsimp only at hname
      split_ifs at hname with hstatus
      rcases h k row hrow with ⟨e, he, hshows⟩
      have hdir := hshows.status.mp hstatus
      refine ⟨e, he, hdir, ?_⟩
      rw [← Option.some.inj hname, hshows.name]
      exact marked_directory hdir

end

/-- For every listing: the rows of `update_infoCatalog` show their entries and Enter
passes names of directories only if and only if every entry that has a row is legible. -/
theorem enterable_iff (stat : Bytes → Option Stat) (pathC : PathT) (mcTime : Int → Bytes)
    (htime : ∀ t, TimeText (mcTime t)) (dCatalogList : List Dirent)
    (hnames : ∀ e ∈ dCatalogList, NoNul e.dName ∧ 1 ≤ e.dName.length ∧ e.dName.length ≤ 255) :
    Enterable stat pathC dCatalogList (updateInfoCatalog stat pathC mcTime dCatalogList
        (List.replicate (dCatalogList.length - 1) zeroRow)) ↔
      ∀ e ∈ dCatalogList.drop 1, Legible stat pathC mcTime e := by
  have hentry : ∀ (k : ℕ) e, dCatalogList[k + 1]? = some e ↔ (dCatalogList.drop 1)[k]? = some e := by
    intro k e
    rw [List.getElem?_drop, Nat.add_comm]
  -- row `k` is made of entry `k + 1`, and of nothing else
  have hshows : ∀ e ∈ dCatalogList.drop 1,
      (Shows stat pathC e (fillRow stat pathC mcTime e zeroRow) ↔ Legible stat pathC mcTime e) := by
    intro e he
    rcases hnames e (List.mem_of_mem_drop he) with ⟨hnoNul, hpos, -⟩
    exact shows_fillRow_iff hnoNul hpos htime
  rw [update_zeroRows]
  constructor
  · intro h e he
    rcases List.getElem?_of_mem he with ⟨k, hk⟩
    have hrow : ((dCatalogList.drop 1).map fun e => fillRow stat pathC mcTime e zeroRow)[k]? =
        some (fillRow stat pathC mcTime e zeroRow) := by
      rw [List.getElem?_map, hk, Option.map_some]
    rcases h.rows k _ hrow with ⟨e', he', hshow⟩
    obtain rfl : e = e' := Option.some.inj (hk.symm.trans ((hentry k e').mp he'))
    exact (hshows e he).mp hshow
  · intro h
    apply enterable_of_rows
    intro k row hrow
    rw [List.getElem?_map] at hrow
    rcases Option.map_eq_some_iff.mp hrow with ⟨e, he, rfl⟩
    have hin := List.mem_of_getElem? he
    exact ⟨e, (hentry k e).mpr he, (hshows e hin).mpr (h e hin)⟩

/-- `..`, `b` and `.`, all of them directories. -/
theorem enterable_iff_home :
    Enterable homeStat createPathT home (updateInfoCatalog homeStat createPathT newYear home
      (List.replicate (home.length - 1) zeroRow)) := by
  apply (enterable_iff homeStat createPathT newYear timeText_newYear home (by decide)).mpr
  intro e he
  have hdir : homeStat (fullName createPathT e.dName) =
      some { stMode := .directory, executable := false, stSize := 0, stMtime := 0 } := by
    revert e
    decide
  refine ⟨_, hdir, by decide, Or.inl ⟨by decide, ?_⟩⟩
  revert e
  decide

/-- `p` is a FIFO. -/
def pipeStat (name : Bytes) : Option Stat :=
  some { stMode := if name = [46, 47, 112] then .other else .directory
         executable := false, stSize := 0, stMtime := 0 }

def piped : List Dirent := [⟨dot⟩, ⟨dotdot⟩, ⟨[112]⟩]

/-- The row of a FIFO has no name and the status of a directory, and Enter appends it to the path. -/
theorem piped_entered :
    (∀ e ∈ piped, NoNul e.dName ∧ 1 ≤ e.dName.length ∧ e.dName.length ≤ 255) ∧
      ¬ isDirectory pipeStat createPathT ⟨[112]⟩ ∧
      entered (updateInfoCatalog pipeStat createPathT newYear piped
        (List.replicate (piped.length - 1) zeroRow)) 1 = some [] ∧
      ¬ Enterable pipeStat createPathT piped (updateInfoCatalog pipeStat createPathT newYear piped
        (List.replicate (piped.length - 1) zeroRow)) := by
  have hentered : entered (updateInfoCatalog pipeStat createPathT newYear piped
      (List.replicate (piped.length - 1) zeroRow)) 1 = some [] := by
    decide +kernel
  refine ⟨by decide, by decide +kernel, hentered, ?_⟩
  intro h
  rcases h.enter 1 [] hentered with ⟨e, -, -, hname⟩
  cases hname

end EmbeddedCourse.MidnightCommander
