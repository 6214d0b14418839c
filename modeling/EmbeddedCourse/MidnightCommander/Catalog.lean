import EmbeddedCourse.Lib.Bubble
import EmbeddedCourse.MidnightCommander.Path

/-! # The list of a panel

`Midnight_Commander/header.c`, from what `scandir` returns to the rows that are
printed. `stat` is a function of the full name, fixed during a call; `mcTime` is
the text that `strftime` makes of a time. It is written with a bound of 20 bytes
into the 13 of `edit_time`, and the name stands right behind them.
-/

namespace EmbeddedCourse.MidnightCommander

open CString

structure Dirent where
  dName : Bytes
deriving DecidableEq, Repr

/-- What `S_ISDIR` and `S_ISREG` tell apart. -/
inductive FileType where
  | directory
  | regular
  | other
deriving DecidableEq, Repr

/-- The fields of `struct stat` that are read; `executable` is whether one of the
`x` bits is set. -/
structure Stat where
  stMode : FileType
  executable : Bool
  stSize : ℕ
  stMtime : Int
deriving DecidableEq, Repr

def Stat.isDir (st : Stat) : Bool := st.stMode = .directory

/-- A row of a panel; `edit_time` and `name` are 13 and 256 bytes. -/
structure InfoCatalog where
  size : ℕ
  status : Int
  editTime : Bytes
  name : Bytes
deriving DecidableEq, Repr

/-- A row of `calloc`. -/
def zeroRow : InfoCatalog :=
  { size := 0, status := 0, editTime := List.replicate 13 0, name := List.replicate 256 0 }

/-- The name that `stat` is called with: the path and the name behind it. -/
def fullName (pathC : PathT) (dName : Bytes) : Bytes :=
  cstr (strncpy [] pathC.path pathC.size ++ dName)

section

variable (stat : Bytes → Option Stat) (pathC : PathT)

/-- The test of `sortList` on two neighbours. -/
def exchanged (a b : Dirent) : Bool :=
  match stat (fullName pathC a.dName), stat (fullName pathC b.dName) with
  | some sa, some sb =>
    let s := strcmp a.dName b.dName
    (sb.isDir && !sa.isDir) || (0 < s && ((sb.isDir && sa.isDir) || (!sb.isDir && !sa.isDir)))
  | _, _ => false

def sortList (catalogList : List Dirent) : List Dirent :=
  Bubble.sort (exchanged stat pathC) catalogList

/-- `format_mc_time(t, edit_time, 20)`, with the text of the time. -/
def formatMcTime (text : Bytes) (row : InfoCatalog) : InfoCatalog :=
  let bytes := overlay (row.editTime ++ row.name) (text ++ [0])
  { row with editTime := bytes.take 13, name := bytes.drop 13 }

/-- The name with the mark of its kind, and the status. -/
def markRow (st : Stat) (dName : Bytes) (row : InfoCatalog) : InfoCatalog :=
  match st.stMode with
  | .directory => { row with name := 47 :: strncpy (row.name.drop 1) dName dName.length, status := 0 }
  | .regular =>
    if st.executable then
      { row with name := 42 :: strncpy (row.name.drop 1) dName dName.length, status := 1 }
    else { row with name := strncpy row.name dName dName.length, status := 2 }
  | .other => row

variable (mcTime : Int → Bytes)

/-- The body of the loop of `update_infoCatalog`: the row for one entry. -/
def fillRow (entry : Dirent) (row : InfoCatalog) : InfoCatalog :=
  match stat (fullName pathC entry.dName) with
  | none => row
  | some st =>
    formatMcTime (mcTime st.stMtime)
      { markRow st entry.dName row with size := st.stSize % 2 ^ 32 }

/-- Row `i - 1` is filled from entry `i`. -/
def updateInfoCatalog (dCatalogList : List Dirent) (infCatalogList : List InfoCatalog) :
    List InfoCatalog :=
  List.zipWith (fillRow stat pathC mcTime) (dCatalogList.drop 1) infCatalogList

/-- The rows for the entries in the order of `scandir`. -/
def createInfoCatalog (entries : List Dirent) : List InfoCatalog :=
  let dCatalogList := sortList stat pathC entries
  updateInfoCatalog stat pathC mcTime dCatalogList (List.replicate (dCatalogList.length - 1) zeroRow)

end

/-- What is printed of a row's name. -/
def InfoCatalog.shown (row : InfoCatalog) : Bytes := cstr row.name

/-! ## The order of the entries -/

/-- The name of a file. -/
structure FileName (name : Bytes) : Prop where
  pos : 1 ≤ name.length
  le : name.length ≤ 255
  noNul : NoNul name
  noSlash : 47 ∉ name

instance (name : Bytes) : Decidable (FileName name) :=
  decidable_of_iff (1 ≤ name.length ∧ name.length ≤ 255 ∧ NoNul name ∧ 47 ∉ name)
    ⟨fun h => ⟨h.1, h.2.1, h.2.2.1, h.2.2.2⟩, fun h => ⟨h.pos, h.le, h.noNul, h.noSlash⟩⟩

section

variable (stat : Bytes → Option Stat) (pathC : PathT)

/-- The entry is a directory. -/
def isDirectory (e : Dirent) : Prop := (stat (fullName pathC e.dName)).any Stat.isDir = true

instance (e : Dirent) : Decidable (isDirectory stat pathC e) := inferInstanceAs (Decidable (_ = true))

/-- Directories come first, and names of one kind in the order of `strcmp`. -/
def Before (a b : Dirent) : Prop :=
  (isDirectory stat pathC a ∧ ¬ isDirectory stat pathC b) ∨
    ((isDirectory stat pathC a ↔ isDirectory stat pathC b) ∧ a.dName ≤ b.dName)

variable {stat pathC}

theorem before_total (a b : Dirent) : Before stat pathC a b ∨ Before stat pathC b a := by
  unfold Before
  have hle := List.le_total a.dName b.dName
  by_cases ha : isDirectory stat pathC a <;> by_cases hb : isDirectory stat pathC b <;> simp [ha, hb, hle]

theorem before_trans (a b c : Dirent) (hab : Before stat pathC a b) (hbc : Before stat pathC b c) :
    Before stat pathC a c := by
  unfold Before at hab hbc ⊢
  rcases hab with ⟨ha, hb⟩ | ⟨hkind, hle⟩
  · rcases hbc with ⟨hb', -⟩ | ⟨hkind', -⟩
    · exact absurd hb' hb
    · exact Or.inl ⟨ha, fun hc => hb (hkind'.mpr hc)⟩
  · rcases hbc with ⟨hb', hc⟩ | ⟨hkind', hle'⟩
    · exact Or.inl ⟨hkind.mpr hb', hc⟩
    · exact Or.inr ⟨hkind.trans hkind', List.le_trans hle hle'⟩

/-- Two entries that can be examined are exchanged when they stand in the wrong order. -/
theorem exchanged_iff {a b : Dirent} (ha : (stat (fullName pathC a.dName)).isSome)
    (hb : (stat (fullName pathC b.dName)).isSome) (hname : NoNul a.dName) :
    exchanged stat pathC a b ↔ ¬ Before stat pathC a b := by
  rcases Option.isSome_iff_exists.mp ha with ⟨sa, hsa⟩
  rcases Option.isSome_iff_exists.mp hb with ⟨sb, hsb⟩
  have hpos : 0 < strcmp a.dName b.dName ↔ b.dName < a.dName := strcmp_pos_iff hname
  have hnot : ¬ a.dName ≤ b.dName ↔ b.dName < a.dName := List.not_le
  unfold exchanged Before isDirectory
  rw [hsa, hsb]
  cases hda : sa.isDir <;> cases hdb : sb.isDir <;> simp [hda, hdb, hpos, hnot]

/-- `sortList` on entries that can all be examined. -/
theorem sortList_spec {entries : List Dirent}
    (hstat : ∀ e ∈ entries, (stat (fullName pathC e.dName)).isSome)
    (hnames : ∀ e ∈ entries, NoNul e.dName) :
    (sortList stat pathC entries).Perm entries ∧
      (sortList stat pathC entries).Pairwise (Before stat pathC) := by
  apply Bubble.sort_spec before_total before_trans
  intro a ha b hb
  exact exchanged_iff (hstat a ha) (hstat b hb) (hnames a ha)

end

end EmbeddedCourse.MidnightCommander
