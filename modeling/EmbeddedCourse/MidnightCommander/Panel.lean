import EmbeddedCourse.MidnightCommander.Catalog

/-! # What a panel lists

`update_infoCatalog` leaves out the entry that `sortList` has put first. This is
`"."` unless the name of another directory is below it, and the row behind it is
that of `".."` unless the name of another directory is below that. An entry that
is neither a directory nor a regular file leaves its row empty, and a time of 13
bytes or more runs over the name.
-/

namespace EmbeddedCourse.MidnightCommander

open CString

def dot : Bytes := [46]

def dotdot : Bytes := [46, 46]

/-- How an entry is shown. -/
def label (st : Stat) (dName : Bytes) : Bytes :=
  match st.stMode with
  | .directory => 47 :: dName
  | .regular => if st.executable then 42 :: dName else dName
  | .other => dName

/-- What `strftime` writes with a bound of 20 bytes, for the formats of `format_mc_time`. -/
structure TimeText (text : Bytes) : Prop where
  lt : text.length < 20
  noNul : NoNul text
  noSlash : 47 ∉ text

section

variable {row : InfoCatalog} {text : Bytes}

theorem name_formatMcTime (hedit : row.editTime.length = 13) (htext : text.length ≤ 12) :
    (formatMcTime text row).name = row.name := by
  have hlen : (text ++ [(0 : UInt8)]).length ≤ 13 := by
    rw [List.length_append, List.length_singleton]
    omega
  have hroom : (text ++ [(0 : UInt8)]).length ≤ (row.editTime ++ row.name).length := by
    refine Nat.le_trans hlen ?_
    rw [List.length_append, hedit]
    omega
  unfold formatMcTime
  dsimp only
  rw [drop_overlay hroom hlen, List.drop_left' hedit]

/-- The end of a long time, and its terminator. -/
theorem shown_formatMcTime_long (hedit : row.editTime.length = 13) (hname : 256 ≤ row.name.length)
    (htime : TimeText text) (htext : 13 ≤ text.length) :
    (formatMcTime text row).shown = text.drop 13 := by
  have hlt := htime.lt
  have hroom : (text ++ [(0 : UInt8)]).length ≤ (row.editTime ++ row.name).length := by
    rw [List.length_append, List.length_singleton, List.length_append, hedit]
    omega
  have hrest : NoNul (text.drop 13) := fun h => htime.noNul (List.mem_of_mem_drop h)
  unfold InfoCatalog.shown formatMcTime
  dsimp only
  rw [overlay_of_le hroom, List.append_assoc, List.drop_append_of_le_length htext, List.singleton_append,
    cstr_terminated hrest]

end

section

variable {stat : Bytes → Option Stat} {pathC : PathT} {mcTime : Int → Bytes} {e : Dirent} {st : Stat}

theorem noNul_label (st : Stat) {name : Bytes} (h : NoNul name) : NoNul (label st name) := by
  have hmark : ∀ mark : UInt8, mark ≠ 0 → NoNul (mark :: name) := by
    intro mark hne hin
    rcases List.mem_cons.mp hin with hzero | hin
    · exact hne hzero.symm
    · exact h hin
  unfold label
  cases st.stMode with
  | directory => exact hmark 47 (by decide)
  | regular =>
    cases st.executable with
    | true => exact hmark 42 (by decide)
    | false => exact h
  | other => exact h

/-- The mark and the name stand in front of the zeros that are left of the field. -/
theorem name_markRow {st : Stat} (hkind : st.stMode ≠ .other) {name : Bytes} (h : NoNul name) :
    (markRow st name zeroRow).name =
      label st name ++ List.replicate (256 - (label st name).length) 0 := by
  have hmarked : ∀ mark : UInt8, mark :: strncpy (List.replicate 255 0) name name.length =
      (mark :: name) ++ List.replicate (256 - (mark :: name).length) 0 := by
    intro mark
    rw [strncpy_strlen h, List.drop_replicate, List.length_cons, Nat.succ_sub_succ]
    rfl
  unfold markRow label
  cases hmode : st.stMode with
  | directory => exact hmarked 47
  | regular =>
    cases st.executable with
    | true => exact hmarked 42
    | false =>
      show strncpy (List.replicate 256 0) name name.length = _
      rw [strncpy_strlen h, List.drop_replicate]
      rfl
  | other => exact absurd hmode hkind

/-- The row in front of `format_mc_time`. -/
theorem markRow_zeroRow (st : Stat) {name : Bytes} (h : NoNul name) :
    (markRow st name zeroRow).editTime.length = 13 ∧ 256 ≤ (markRow st name zeroRow).name.length ∧
      cstr (markRow st name zeroRow).name = if st.stMode = .other then [] else label st name := by
  by_cases hkind : st.stMode = .other
  · have hrow : markRow st name zeroRow = zeroRow := by rw [markRow, hkind]
    rw [hrow, if_pos hkind]
    exact ⟨List.length_replicate, Nat.le_of_eq List.length_replicate.symm, rfl⟩
  · refine ⟨?_, ?_, ?_⟩
    · unfold markRow
      cases st.stMode <;> cases st.executable <;> exact List.length_replicate
    · rw [name_markRow hkind h, List.length_append, List.length_replicate]
      omega
    · rw [name_markRow hkind h, if_neg hkind, cstr_append (noNul_label st h), cstr_replicate_zero,
        List.append_nil]

/-- What is shown of an entry that has been examined. -/
theorem shown_fillRow (hstat : stat (fullName pathC e.dName) = some st) (hname : NoNul e.dName)
    (htime : TimeText (mcTime st.stMtime)) :
    (fillRow stat pathC mcTime e zeroRow).shown =
      if (mcTime st.stMtime).length ≤ 12 ∧ st.stMode ≠ .other then label st e.dName
      else (mcTime st.stMtime).drop 13 := by
  have hrow : ∀ row : InfoCatalog, row.editTime.length = 13 → 256 ≤ row.name.length →
      (cstr row.name = if st.stMode = .other then [] else label st e.dName) →
      (formatMcTime (mcTime st.stMtime) row).shown =
        if (mcTime st.stMtime).length ≤ 12 ∧ st.stMode ≠ .other then label st e.dName
        else (mcTime st.stMtime).drop 13 := by
    intro row hedit hroom hcstr
    by_cases hfits : (mcTime st.stMtime).length ≤ 12
    · have hnil : (mcTime st.stMtime).drop 13 = [] := List.drop_eq_nil_of_le (by omega)
      rw [InfoCatalog.shown, name_formatMcTime hedit hfits, hcstr, hnil]
      by_cases hkind : st.stMode = .other <;> simp [hfits, hkind]
    · rw [shown_formatMcTime_long hedit hroom htime (by omega), if_neg (fun h => hfits h.1)]
  rcases markRow_zeroRow st hname with ⟨hedit, hroom, hcstr⟩
  unfold fillRow
  rw [hstat]
  exact hrow { markRow st e.dName zeroRow with size := st.stSize % 2 ^ 32 } hedit hroom hcstr

end

/-! ## The listing -/

/-- The content of a directory: `.` and `..` are directories in it, names are
names of files and distinct, and `stat` succeeds on every entry. -/
structure Listing (stat : Bytes → Option Stat) (pathC : PathT) (entries : List Dirent) : Prop where
  dot : ⟨dot⟩ ∈ entries
  dotdot : ⟨dotdot⟩ ∈ entries
  dirs : isDirectory stat pathC ⟨MidnightCommander.dot⟩ ∧ isDirectory stat pathC ⟨MidnightCommander.dotdot⟩
  nodup : entries.Nodup
  names : ∀ e ∈ entries, FileName e.dName
  stat : ∀ e ∈ entries, (stat (fullName pathC e.dName)).isSome

/-- How an entry is shown, if it can be examined. -/
def labelOf (stat : Bytes → Option Stat) (pathC : PathT) (e : Dirent) : Bytes :=
  ((stat (fullName pathC e.dName)).map fun st => label st e.dName).getD []

/-- The panel shows every entry but `.` once, does not show `.`, and `..` in its first row. -/
structure Listed (stat : Bytes → Option Stat) (pathC : PathT) (entries : List Dirent)
    (rows : List InfoCatalog) : Prop where
  once : (rows.map InfoCatalog.shown).Perm
    ((entries.filter fun e => e.dName ≠ dot).map (labelOf stat pathC))
  noDot : 47 :: dot ∉ rows.map InfoCatalog.shown
  up : rows.head?.map InfoCatalog.shown = some (47 :: dotdot)

section

variable (stat : Bytes → Option Stat) (pathC : PathT) (mcTime : Int → Bytes)

/-- A directory or a regular file, with a time that fits its field. -/
def keepsName (e : Dirent) : Bool :=
  (stat (fullName pathC e.dName)).any fun st => (mcTime st.stMtime).length ≤ 12 ∧ st.stMode ≠ .other

/-- What the time of an entry leaves in the field of the name. -/
def overrun (e : Dirent) : Bytes :=
  ((stat (fullName pathC e.dName)).map fun st => (mcTime st.stMtime).drop 13).getD []

/-- The entries but `.` that do not keep their names. -/
def lost (entries : List Dirent) : List Dirent :=
  (entries.filter fun e => e.dName ≠ dot).filter fun e => !keepsName stat pathC mcTime e

end

section

variable {stat : Bytes → Option Stat} {pathC : PathT} {mcTime : Int → Bytes} {entries : List Dirent}

/-- The rows are those of the entries behind the first one. -/
theorem update_zeroRows (stat : Bytes → Option Stat) (pathC : PathT) (mcTime : Int → Bytes)
    (dCatalogList : List Dirent) :
    updateInfoCatalog stat pathC mcTime dCatalogList (List.replicate (dCatalogList.length - 1) zeroRow) =
      (dCatalogList.drop 1).map fun e => fillRow stat pathC mcTime e zeroRow := by
  unfold updateInfoCatalog
  rw [← List.length_drop]
  generalize dCatalogList.drop 1 = l
  induction l with
  | nil => rfl
  | cons e l ih => rw [List.length_cons, List.replicate_succ, List.zipWith_cons_cons, ih, List.map_cons]

theorem shown_create (stat : Bytes → Option Stat) (pathC : PathT) (mcTime : Int → Bytes)
    (entries : List Dirent) :
    (createInfoCatalog stat pathC mcTime entries).map InfoCatalog.shown =
      ((sortList stat pathC entries).drop 1).map fun e => (fillRow stat pathC mcTime e zeroRow).shown := by
  unfold createInfoCatalog
  dsimp only
  rw [update_zeroRows, List.map_map]
  rfl

/-- The row of an entry shows its label or what its time leaves. -/
theorem shown_row (h : Listing stat pathC entries) (htime : ∀ t, TimeText (mcTime t)) {e : Dirent}
    (he : e ∈ entries) :
    (fillRow stat pathC mcTime e zeroRow).shown =
      if keepsName stat pathC mcTime e then labelOf stat pathC e else overrun stat pathC mcTime e := by
  rcases Option.isSome_iff_exists.mp (h.stat e he) with ⟨st, hst⟩
  rw [shown_fillRow hst (h.names e he).noNul (htime _)]
  simp [keepsName, labelOf, overrun, hst]

/-- No time is shown as a directory is. -/
theorem overrun_ne (htime : ∀ t, TimeText (mcTime t)) (e : Dirent) (name : Bytes) :
    overrun stat pathC mcTime e ≠ 47 :: name := by
  unfold overrun
  cases stat (fullName pathC e.dName) with
  | none => exact List.cons_ne_nil _ _ |>.symm
  | some st =>
    intro heq
    apply (htime st.stMtime).noSlash
    apply List.mem_of_mem_drop
    exact heq ▸ List.mem_cons_self

/-- No other entry is shown as `.` is. -/
theorem labelOf_ne_dot (h : Listing stat pathC entries) {e : Dirent} (he : e ∈ entries)
    (hne : e.dName ≠ dot) : labelOf stat pathC e ≠ 47 :: dot := by
  rcases Option.isSome_iff_exists.mp (h.stat e he) with ⟨st, hst⟩
  have hplain : e.dName ≠ 47 :: dot := by
    intro heq
    apply (h.names e he).noSlash
    rw [heq]
    exact List.mem_cons_self
  unfold labelOf label
  rw [hst, Option.map_some, Option.getD_some]
  cases st.stMode with
  | directory => simp [hne]
  | regular => cases st.executable <;> simp [hplain]
  | other => exact hplain

theorem exists_directory {e : Dirent} (hdir : isDirectory stat pathC e) :
    ∃ st, stat (fullName pathC e.dName) = some st ∧ st.stMode = .directory := by
  unfold isDirectory at hdir
  rcases (Option.any_eq_true _ _).mp hdir with ⟨st, hst, hmode⟩
  exact ⟨st, hst, of_decide_eq_true hmode⟩

theorem labelOf_directory {e : Dirent} (hdir : isDirectory stat pathC e) :
    labelOf stat pathC e = 47 :: e.dName := by
  rcases exists_directory hdir with ⟨st, hst, hmode⟩
  rw [labelOf, hst, Option.map_some, Option.getD_some, label, hmode]

/-- No directory but `.` stands in front of `..`. -/
def Clear (stat : Bytes → Option Stat) (pathC : PathT) (entries : List Dirent) : Prop :=
  ∀ e ∈ entries, isDirectory stat pathC e → e.dName ≠ dot → dotdot ≤ e.dName

theorem le_of_before {a b : Dirent} (h : Before stat pathC a b) (hb : isDirectory stat pathC b) :
    isDirectory stat pathC a ∧ a.dName ≤ b.dName := by
  rcases h with ⟨-, hnot⟩ | ⟨hkind, hle⟩
  · exact absurd hb hnot
  · exact ⟨hkind.mpr hb, hle⟩

theorem dirent_eq {e : Dirent} {name : Bytes} (h : e.dName = name) : e = ⟨name⟩ := by
  cases e
  cases h
  rfl

/-- The sorted entries: two at least, the second one a directory. -/
theorem sortList_front (h : Listing stat pathC entries) {l : List Dirent} (hperm : l.Perm entries)
    (hsorted : l.Pairwise (Before stat pathC)) :
    ∃ x y t, l = x :: y :: t ∧ isDirectory stat pathC y := by
  have hne : (⟨dot⟩ : Dirent) ≠ ⟨dotdot⟩ := by decide
  have hdot := hperm.mem_iff.mpr h.dot
  have hdotdot := hperm.mem_iff.mpr h.dotdot
  cases l with
  | nil => simp at hdot
  | cons x l =>
    cases l with
    | nil =>
      have hx := List.mem_singleton.mp hdot
      exact absurd (hx.trans (List.mem_singleton.mp hdotdot).symm) hne
    | cons y t =>
      refine ⟨x, y, t, rfl, ?_⟩
      -- one of the two directories is not the first entry
      obtain ⟨d, hd, hdir⟩ : ∃ d ∈ y :: t, isDirectory stat pathC d := by
        rcases List.mem_cons.mp hdot with hx | hin
        · rcases List.mem_cons.mp hdotdot with hx' | hin
          · exact absurd (hx.trans hx'.symm) hne
          · exact ⟨_, hin, h.dirs.2⟩
        · exact ⟨_, hin, h.dirs.1⟩
      rcases List.mem_cons.mp hd with rfl | hd
      · exact hdir
      · have hbefore := (List.pairwise_cons.mp (List.pairwise_cons.mp hsorted).2).1 d hd
        exact (le_of_before hbefore hdir).1

section

variable {x y : Dirent} {t : List Dirent}

/-- With `..` in the second place, `.` is in front of it and no other directory. -/
theorem clear_of_second (h : Listing stat pathC entries) (hperm : (x :: ⟨dotdot⟩ :: t).Perm entries)
    (hsorted : (x :: ⟨dotdot⟩ :: t).Pairwise (Before stat pathC)) :
    x = ⟨dot⟩ ∧ Clear stat pathC entries := by
  rcases List.pairwise_cons.mp (List.pairwise_cons.mp hsorted).2 with ⟨hy, -⟩
  have hfirst : x = ⟨dot⟩ := by
    rcases List.mem_cons.mp (hperm.mem_iff.mpr h.dot) with rfl | hin
    · rfl
    · rcases List.mem_cons.mp hin with heq | hin
      · exact absurd heq (by decide)
      · have hle := (le_of_before (hy _ hin) h.dirs.1).2
        exact absurd hle (by decide)
  constructor
  · exact hfirst
  · intro e he hdir hne
    rcases List.mem_cons.mp (hperm.mem_iff.mpr he) with rfl | hin
    · rw [hfirst] at hne
      exact absurd rfl hne
    · rcases List.mem_cons.mp hin with rfl | hin
      · exact List.le_refl _
      · exact (le_of_before (hy e hin) hdir).2

/-- With no other directory in front of `..`, the first two are `.` and `..`. -/
theorem second_of_clear (h : Listing stat pathC entries) (hperm : (x :: y :: t).Perm entries)
    (hsorted : (x :: y :: t).Pairwise (Before stat pathC)) (hclear : Clear stat pathC entries) :
    x = ⟨dot⟩ ∧ y = ⟨dotdot⟩ := by
  rcases List.pairwise_cons.mp hsorted with ⟨hx, hsorted'⟩
  rcases List.pairwise_cons.mp hsorted' with ⟨hy, -⟩
  -- a directory with a name up to `..` is one of the two
  have hsmall : ∀ e ∈ x :: y :: t, isDirectory stat pathC e → e.dName ≤ dotdot →
      e = ⟨dot⟩ ∨ e = ⟨dotdot⟩ := by
    intro e he hdir hle
    by_cases hne : e.dName = dot
    · exact Or.inl (dirent_eq hne)
    · exact Or.inr (dirent_eq (List.le_antisymm hle (hclear e (hperm.mem_iff.mp he) hdir hne)))
  obtain rfl : x = ⟨dot⟩ := by
    rcases List.mem_cons.mp (hperm.mem_iff.mpr h.dot) with rfl | hin
    · rfl
    · rcases le_of_before (hx _ hin) h.dirs.1 with ⟨hdir, hle⟩
      rcases hsmall x (by simp) hdir (List.le_trans hle (by decide)) with hxdot | rfl
      · exact hxdot
      · exact absurd hle (by decide)
  have hin : (⟨dotdot⟩ : Dirent) ∈ y :: t := by
    rcases List.mem_cons.mp (hperm.mem_iff.mpr h.dotdot) with heq | hin
    · exact absurd heq (by decide)
    · exact hin
  have hle : isDirectory stat pathC y ∧ y.dName ≤ dotdot := by
    rcases List.mem_cons.mp hin with rfl | hin
    · exact ⟨h.dirs.2, List.le_refl _⟩
    · exact le_of_before (hy _ hin) h.dirs.2
  constructor
  · rfl
  · rcases hsmall y (by simp) hle.1 hle.2 with rfl | hdd
    · have hnodup : ((⟨dot⟩ : Dirent) :: ⟨dot⟩ :: t).Nodup := hperm.nodup_iff.mpr h.nodup
      exact absurd List.mem_cons_self (List.nodup_cons.mp hnodup).1
    · exact hdd

end

/-- The entries but `.`, when `.` has been sorted to the front. -/
theorem filter_dot {t : List Dirent} (h : Listing stat pathC entries)
    (hperm : ((⟨dot⟩ : Dirent) :: t).Perm entries) :
    t.Perm (entries.filter fun e => e.dName ≠ dot) := by
  have hnodup : ((⟨dot⟩ : Dirent) :: t).Nodup := hperm.nodup_iff.mpr h.nodup
  have hkeep : t.filter (fun e => e.dName ≠ dot) = t := by
    rw [List.filter_eq_self]
    intro e he
    have hne : e.dName ≠ dot := by
      intro hdot
      exact (List.nodup_cons.mp hnodup).1 (dirent_eq hdot ▸ he)
    simpa using hne
  have hfilter := hperm.filter fun e => e.dName ≠ dot
  rw [List.filter_cons_of_neg (by simp), hkeep] at hfilter
  exact hfilter

/-- Values of `f` or of `g`: they are those of `f` when they are where `g` was taken. -/
theorem perm_map_ite_iff {α β : Type} (p : α → Bool) (f g : α → β) (l : List α) :
    (l.map fun a => if p a then f a else g a).Perm (l.map f) ↔
      ((l.filter fun a => !p a).map g).Perm ((l.filter fun a => !p a).map f) := by
  have hsplit : ∀ h : α → β,
      (l.map h).Perm ((l.filter p).map h ++ (l.filter fun a => !p a).map h) := by
    intro h
    rw [← List.map_append]
    exact ((List.filter_append_perm p l).map h).symm
  have hkept : (l.filter p).map (fun a => if p a then f a else g a) = (l.filter p).map f := by
    apply List.map_congr_left
    intro a ha
    rw [if_pos (List.mem_filter.mp ha).2]
  have hother : (l.filter fun a => !p a).map (fun a => if p a then f a else g a) =
      (l.filter fun a => !p a).map g := by
    apply List.map_congr_left
    intro a ha
    have hnot : p a = false := by simpa using (List.mem_filter.mp ha).2
    rw [if_neg (by simp [hnot])]
  have hleft := hsplit fun a => if p a then f a else g a
  rw [hkept, hother] at hleft
  rw [hleft.congr_left, (hsplit f).congr_right, List.perm_append_left_iff]

/-- `..` keeps its name, since no time is shown as its label. -/
theorem keepsName_dotdot (h : Listing stat pathC entries) (htime : ∀ t, TimeText (mcTime t))
    (hlost : ((lost stat pathC mcTime entries).map (overrun stat pathC mcTime)).Perm
      ((lost stat pathC mcTime entries).map (labelOf stat pathC))) :
    keepsName stat pathC mcTime ⟨dotdot⟩ = true := by
  by_contra hnot
  have hin : (⟨dotdot⟩ : Dirent) ∈ lost stat pathC mcTime entries := by
    unfold lost
    rw [List.mem_filter, List.mem_filter]
    exact ⟨⟨h.dotdot, by decide⟩, by simpa using hnot⟩
  have hlabel := hlost.mem_iff.mpr (List.mem_map_of_mem hin)
  rcases List.mem_map.mp hlabel with ⟨e, -, he⟩
  rw [labelOf_directory h.dirs.2] at he
  exact overrun_ne htime e dotdot he

/-- For every content of a directory, in any order: the panel lists it if and only
if no directory but `.` has a name below `..`, and the entries that do not keep
their names have, in some order, the names that their times leave. -/
theorem listed_iff (stat : Bytes → Option Stat) (pathC : PathT) (mcTime : Int → Bytes)
    (htime : ∀ t, TimeText (mcTime t)) (entries : List Dirent) (h : Listing stat pathC entries) :
    Listed stat pathC entries (createInfoCatalog stat pathC mcTime entries) ↔
      Clear stat pathC entries ∧
        ((lost stat pathC mcTime entries).map (overrun stat pathC mcTime)).Perm
          ((lost stat pathC mcTime entries).map (labelOf stat pathC)) := by
  rcases sortList_spec h.stat (fun e he => (h.names e he).noNul) with ⟨hperm, hsorted⟩
  have hshown := shown_create stat pathC mcTime entries
  rcases sortList_front h hperm hsorted with ⟨x, y, t, hl, hdir⟩
  rw [hl] at hperm hsorted hshown
  rw [List.drop_one, List.tail_cons] at hshown
  have hmem : ∀ e ∈ y :: t, e ∈ entries := fun e he => hperm.mem_iff.mp (List.mem_cons_of_mem x he)
  have hrows : (createInfoCatalog stat pathC mcTime entries).map InfoCatalog.shown =
      (y :: t).map fun e =>
        if keepsName stat pathC mcTime e then labelOf stat pathC e else overrun stat pathC mcTime e := by
    rw [hshown]
    exact List.map_congr_left fun e he => shown_row h htime (hmem e he)
  constructor
  · intro hlisted
    -- the first row is that of `..`
    obtain rfl : y = ⟨dotdot⟩ := by
      have hup := hlisted.up
      rw [← List.head?_map, hrows, List.map_cons, List.head?_cons] at hup
      cases hkeeps : keepsName stat pathC mcTime y with
      | true =>
        rw [if_pos hkeeps, labelOf_directory hdir] at hup
        exact dirent_eq (List.cons.inj (Option.some.inj hup)).2
      | false =>
        rw [if_neg (by simp [hkeeps])] at hup
        exact absurd (Option.some.inj hup) (overrun_ne htime y dotdot)
    rcases clear_of_second h hperm hsorted with ⟨rfl, hcl⟩
    have honce := hlisted.once
    rw [hrows, ((filter_dot h hperm).map _).congr_left] at honce
    exact ⟨hcl, (perm_map_ite_iff _ _ _ _).mp honce⟩
  · rintro ⟨hcl, hlost⟩
    rcases second_of_clear h hperm hsorted hcl with ⟨rfl, rfl⟩
    have hfilter := filter_dot h hperm
    have honce : ((createInfoCatalog stat pathC mcTime entries).map InfoCatalog.shown).Perm
        ((entries.filter fun e => e.dName ≠ dot).map (labelOf stat pathC)) := by
      rw [hrows, (hfilter.map _).congr_left]
      exact (perm_map_ite_iff _ _ _ _).mpr hlost
    constructor
    · exact honce
    · intro hin
      rcases List.mem_map.mp (honce.mem_iff.mp hin) with ⟨e, he, hlabel⟩
      have hne : e.dName ≠ dot := by simpa using (List.mem_filter.mp he).2
      exact labelOf_ne_dot h (List.mem_of_mem_filter he) hne hlabel
    · have hkeeps := keepsName_dotdot h htime hlost
      rw [← List.head?_map, hrows, List.map_cons, List.head?_cons, if_pos hkeeps, labelOf_directory h.dirs.2]

end

/-- A regular file `a`, and directories otherwise. -/
def homeStat (name : Bytes) : Option Stat :=
  some { stMode := if name = [46, 47, 97] then .regular else .directory
         executable := false, stSize := 0, stMtime := 0 }

def newYear (_ : Int) : Bytes := ascii ['J', 'a', 'n', ' ', '0', '1', ' ', ' ', '1', '9', '7', '0']

theorem timeText_newYear (t : Int) : TimeText (newYear t) := by
  unfold newYear
  exact ⟨by decide, by decide, by decide⟩

/-- In an order of `scandir`. -/
def home : List Dirent := [⟨[97]⟩, ⟨dotdot⟩, ⟨[98]⟩, ⟨dot⟩]

/-- No directory stands in front of `..`, and every entry keeps its name. -/
theorem listed_iff_home :
    Listing homeStat createPathT home ∧
      Listed homeStat createPathT home (createInfoCatalog homeStat createPathT newYear home) := by
  have hlisting : Listing homeStat createPathT home := by
    constructor <;> decide +kernel
  have hclear : ∀ e ∈ home, isDirectory homeStat createPathT e → e.dName ≠ dot →
      dotdot ≤ e.dName := by
    decide +kernel
  have hkept : lost homeStat createPathT newYear home = [] := by decide +kernel
  refine ⟨hlisting, (listed_iff homeStat createPathT newYear timeText_newYear home hlisting).mpr
    ⟨hclear, ?_⟩⟩
  rw [hkept]
  exact List.Perm.refl []

/-- A directory `!x`, which stands in front of `.`. -/
def exclaimed : List Dirent := [⟨dot⟩, ⟨dotdot⟩, ⟨[33, 120]⟩]

/-- The panel shows `.` in its first row, and does not show `!x`. -/
theorem exclaimed_not_listed :
    Listing homeStat createPathT exclaimed ∧ (∀ t, TimeText (newYear t)) ∧
      (createInfoCatalog homeStat createPathT newYear exclaimed).map InfoCatalog.shown =
        [47 :: dot, 47 :: dotdot] ∧
      ¬ Listed homeStat createPathT exclaimed
        (createInfoCatalog homeStat createPathT newYear exclaimed) := by
  have hlisting : Listing homeStat createPathT exclaimed := by
    constructor <;> decide +kernel
  have hrows : (createInfoCatalog homeStat createPathT newYear exclaimed).map InfoCatalog.shown =
      [47 :: dot, 47 :: dotdot] := by
    decide +kernel
  refine ⟨hlisting, timeText_newYear, hrows, ?_⟩
  intro hlisted
  apply hlisted.noDot
  rw [hrows]
  exact List.mem_cons_self

end EmbeddedCourse.MidnightCommander
