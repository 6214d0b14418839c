import EmbeddedCourse.MidnightCommander.Keys
import EmbeddedCourse.MidnightCommander.Sorting
import Mathlib.Data.List.Infix
import Mathlib.Data.List.Nodup
import Mathlib.Data.List.Sort

/-! # Two panels on a tree

What the Midnight Commander is for: each panel stands in a directory of a tree, shows
it with the way up first, then the directories and then the files by name, and goes
where the user tells it to. The C code keeps strings, rows with marks and times, and
a buffer for the path; on the keys of a session they come to the same.
-/

namespace EmbeddedCourse.MidnightCommander

open CString

/-! ## The tree -/

inductive Kind where
  | directory
  | program
  | file
deriving DecidableEq, Repr

structure Node where
  name : Bytes
  kind : Kind
deriving DecidableEq, Repr

/-- The directory above. -/
def parent : Node := ⟨dotdot, .directory⟩

/-- A node as it is shown. -/
def Node.label (n : Node) : Bytes :=
  match n.kind with
  | .directory => 47 :: n.name
  | .program => 42 :: n.name
  | .file => n.name

/-- Directories come first, and nodes of one kind in the order of their names. -/
def Node.Before (a b : Node) : Prop :=
  (a.kind = .directory ∧ b.kind ≠ .directory) ∨
    ((a.kind = .directory ↔ b.kind = .directory) ∧ a.name ≤ b.name)

instance (a b : Node) : Decidable (a.Before b) := inferInstanceAs (Decidable (_ ∨ _))

/-- What the directories contain, each under the names that lead to it. -/
abbrev Tree := List Bytes → List Node

/-- The content of a directory, in order. -/
def Tree.list (tree : Tree) (trail : List Bytes) : List Node :=
  parent :: (tree trail).insertionSort Node.Before

/-! ## The browser -/

/-- Where the panels stand, what they show, and the cursors. -/
structure Browser where
  trail : Side → List Bytes
  folder : Side → List Node
  cursor : Side → ℕ
  current : Side
  isOpen : Bool

namespace Browser

def start (tree : Tree) : Browser where
  trail _ := []
  folder _ := tree.list []
  cursor _ := 0
  current := .left
  isOpen := true

/-- The cursor of the current panel goes `d` rows down, and around. -/
def move (b : Browser) (d : ℕ) : Browser :=
  { b with
    cursor := Function.update b.cursor b.current
      ((b.cursor b.current + d) % (b.folder b.current).length) }

/-- The directory under the cursor is entered, and both panels are read again. -/
def enter (b : Browser) (tree : Tree) : Browser :=
  match (b.folder b.current)[b.cursor b.current]? with
  | some n =>
    if n.kind = .directory then
      let trail := Function.update b.trail b.current (b.trail b.current ++ [n.name])
      { b with trail := trail, folder := fun side => tree.list (trail side), cursor := fun _ => 0 }
    else b
  | none => b

def press (b : Browser) (key : Key) (tree : Tree) : Browser :=
  if b.isOpen then
    match key with
    | .tab => { b with current := b.current.other }
    | .down => b.move 1
    | .up => b.move ((b.folder b.current).length - 1)
    | .enter => b.enter tree
    | .f1 => { b with isOpen := false }
    | .other => b
  else b

end Browser

/-! ## The tree on a disk -/

/-- The text of a path. -/
def pathText (trail : List Bytes) : Bytes := [46, 47] ++ trail.flatMap fun name => 47 :: name ++ [47]

/-- What is said of a node by `stat`. -/
def Kind.Agrees (kind : Kind) (st : Stat) : Prop :=
  match kind with
  | .directory => st.stMode = .directory
  | .program => st.stMode = .regular ∧ st.executable = true
  | .file => st.stMode = .regular ∧ st.executable = false

/-- Names are those of files and leave room for a mark; no directory stands in front of
the one above, and an `int` counts the rows. -/
structure Tree.Tidy (tree : Tree) : Prop where
  names : ∀ trail, ∀ n ∈ tree trail, FileName n.name ∧ n.name.length ≤ 254 ∧ n.name ≠ dot ∧ n.name ≠ dotdot
  nodup : ∀ trail, ((tree trail).map Node.name).Nodup
  above : ∀ trail, ∀ n ∈ tree trail, n.kind = .directory → dotdot ≤ n.name
  few : ∀ trail, (tree trail).length < 2 ^ 30 - 2

/-- `scandir` and `stat` tell what stands in the tree, and a time fits its field. -/
structure Disk.Reads (d : Disk) (tree : Tree) : Prop where
  entries : ∀ trail, (d.scandir (pathText trail)).Perm
    (⟨dot⟩ :: ⟨dotdot⟩ :: (tree trail).map fun n => ⟨n.name⟩)
  dirs : ∀ trail, ∀ name ∈ [dot, dotdot], ∃ st, d.stat (pathText trail ++ name) = some st ∧
    st.stMode = .directory
  nodes : ∀ trail, ∀ n ∈ tree trail, ∃ st, d.stat (pathText trail ++ n.name) = some st ∧ n.kind.Agrees st
  time : ∀ t, TimeText (d.mcTime t) ∧ (d.mcTime t).length ≤ 12

/-- A path that the buffer holds, and that is no full buffer. -/
def Fits (trail : List Bytes) : Prop :=
  (pathText trail).length < 2 ^ 30 ∧ ∀ k, (pathText trail).length ≠ 256 * 2 ^ k

/-- The path of a panel is in its buffer. -/
structure Housed (trail : List Bytes) (pc : PathT) : Prop where
  stored : Stored (pathText trail) pc
  noNul : NoNul (pathText trail)
  doubled : ∃ k, pc.capacity = 256 * 2 ^ k

section

variable {d : Disk} {tree : Tree} {trail : List Bytes} {pc : PathT}

theorem housed_createPathT : Housed [] createPathT where
  stored := Kept.init.stored
  noNul := by decide
  doubled := ⟨0, rfl⟩

theorem Housed.cstr_path (h : Housed trail pc) : cstr pc.path = pathText trail := by
  rcases h.stored.path with ⟨r, hr⟩
  rw [hr, cstr_terminated h.noNul]

theorem Housed.fullName (h : Housed trail pc) {name : Bytes} (hname : NoNul name) :
    fullName pc name = pathText trail ++ name := by
  have hpath : strncpy [] pc.path pc.size = pathText trail := by
    rw [strncpy, h.cstr_path, h.stored.size, List.drop_nil, List.append_nil, List.takeD_eq_take _ le_rfl,
      List.take_length]
  rw [MidnightCommander.fullName, hpath, cstr_of_noNul (h.noNul.append hname)]

theorem pathText_concat (trail : List Bytes) (name : Bytes) :
    pathText (trail ++ [name]) = pathText trail ++ (47 :: name ++ [47]) := by
  simp [pathText]

/-- A directory is entered: the path is the longer one, if that is no full buffer. -/
theorem Housed.enter (h : Housed trail pc) {name : Bytes} (hname : NoNul name) (hlen : name.length ≤ 254)
    (hfits : Fits (trail ++ [name])) (fresh : Bytes) :
    ∃ pc', changePathCatalog fresh (47 :: name) pc = some pc' ∧ Housed (trail ++ [name]) pc' := by
  rcases h.doubled with ⟨k, hk⟩
  have hsize := h.stored.size
  have hlong : (pathText (trail ++ [name])).length = pc.size + (47 :: name).length + 1 := by
    rw [pathText_concat, hsize]
    simp
    omega
  have hnul : NoNul (pathText (trail ++ [name])) := by
    rw [pathText_concat]
    apply h.noNul.append
    intro hmem
    rcases List.mem_append.mp hmem with hmem | hmem
    · rcases List.mem_cons.mp hmem with h0 | h0
      · exact absurd h0 (by decide)
      · exact hname h0
    · exact absurd hmem (by decide)
  have hdoor : ∀ k', pc.size + (47 :: name).length + 1 ≠ 256 * 2 ^ k' := fun k' => hlong ▸ hfits.2 k'
  have hbelow : pc.size < pc.capacity := by
    rcases h.stored.path with ⟨r, hr⟩
    rw [← h.stored.capacity, hr, hsize, List.length_append, List.length_cons]
    omega
  have hnameLen : (47 :: name).length = name.length + 1 := rfl
  unfold changePathCatalog
  split_ifs with hfull
  · -- the buffer is doubled first
    have hshort := hfits.1
    have hgrow : grow fresh pc =
        some { pc with path := pc.path ++ fresh.takeD pc.capacity 0, capacity := pc.capacity * 2 } := by
      apply if_pos
      rw [intMax]
      omega
    rcases h.stored.grow hgrow with ⟨hstored, -, -⟩
    have hwide := h.stored.wide
    rw [hgrow, Option.map_some]
    refine ⟨_, rfl, ?_, hnul, k + 1, ?_⟩
    · rw [pathText_concat]
      apply hstored.append
      dsimp only
      omega
    · show pc.capacity * 2 = _
      rw [hk, Nat.pow_succ, Nat.mul_assoc]
  · refine ⟨_, rfl, ?_, hnul, k, hk⟩
    rw [pathText_concat]
    apply h.stored.append
    have hne := hdoor k
    omega

/-! ## What a panel shows -/

theorem node_before_trans (a b c : Node) (hab : a.Before b) (hbc : b.Before c) : a.Before c := by
  unfold Node.Before at hab hbc ⊢
  rcases hab with ⟨ha, hb⟩ | ⟨hkind, hle⟩
  · rcases hbc with ⟨hb', -⟩ | ⟨hkind', -⟩
    · exact absurd hb' hb
    · exact Or.inl ⟨ha, fun hc => hb (hkind'.mpr hc)⟩
  · rcases hbc with ⟨hb', hc⟩ | ⟨hkind', hle'⟩
    · exact Or.inl ⟨hkind.mpr hb', hc⟩
    · exact Or.inr ⟨hkind.trans hkind', List.le_trans hle hle'⟩

theorem node_before_total (a b : Node) : a.Before b ∨ b.Before a := by
  unfold Node.Before
  have hle := List.le_total a.name b.name
  by_cases ha : a.kind = .directory <;> by_cases hb : b.kind = .directory <;> simp [ha, hb, hle]

instance : Std.Total Node.Before := ⟨node_before_total⟩

instance : IsTrans Node Node.Before := ⟨node_before_trans⟩

/-- The entry of a node. -/
def Node.entry (n : Node) : Dirent := ⟨n.name⟩

theorem mem_list {n : Node} : n ∈ tree.list trail ↔ n = parent ∨ n ∈ tree trail := by
  rw [Tree.list, List.mem_cons, List.mem_insertionSort]

/-- `stat` agrees with the tree. -/
theorem Disk.Reads.stat (hd : d.Reads tree) (ht : tree.Tidy) (h : Housed trail pc) {n : Node}
    (hn : n ∈ tree.list trail) : ∃ st, d.stat (fullName pc n.entry.dName) = some st ∧ n.kind.Agrees st := by
  rcases mem_list.mp hn with rfl | hn
  · rcases hd.dirs trail dotdot (by simp) with ⟨st, hst, hmode⟩
    refine ⟨st, ?_, hmode⟩
    rw [h.fullName (by decide)]
    exact hst
  · rcases hd.nodes trail n hn with ⟨st, hst, hkind⟩
    refine ⟨st, ?_, hkind⟩
    rw [show n.entry.dName = n.name from rfl, h.fullName (ht.names trail n hn).1.noNul]
    exact hst

theorem isDirectory_iff_kind (hd : d.Reads tree) (ht : tree.Tidy) (h : Housed trail pc) {n : Node}
    (hn : n ∈ tree.list trail) : isDirectory d.stat pc n.entry ↔ n.kind = .directory := by
  rcases hd.stat ht h hn with ⟨st, hst, hkind⟩
  rw [isDirectory_iff hst]
  unfold Kind.Agrees at hkind
  cases hk : n.kind <;> simp_all

/-- The content of a directory, as `scandir` returns it. -/
theorem Disk.Reads.listing (hd : d.Reads tree) (ht : tree.Tidy) (h : Housed trail pc) :
    Listing d.stat pc (d.scandir (cstr pc.path)) ∧
      Clear d.stat pc (d.scandir (cstr pc.path)) := by
  have hperm := hd.entries trail
  rw [h.cstr_path]
  -- an entry is `.`, or one that the browser shows
  have hmem : ∀ e ∈ d.scandir (pathText trail), e = ⟨dot⟩ ∨ ∃ n ∈ tree.list trail, e = n.entry := by
    intro e he
    rcases List.mem_cons.mp (hperm.mem_iff.mp he) with rfl | he
    · exact Or.inl rfl
    · right
      rcases List.mem_cons.mp he with rfl | he
      · exact ⟨parent, mem_list.mpr (Or.inl rfl), rfl⟩
      · rcases List.mem_map.mp he with ⟨n, hn, rfl⟩
        exact ⟨n, mem_list.mpr (Or.inr hn), rfl⟩
  have hdot : isDirectory d.stat pc ⟨dot⟩ := by
    rcases hd.dirs trail dot (by simp) with ⟨st, hst, hmode⟩
    have hstat : d.stat (MidnightCommander.fullName pc dot) = some st := by
      rw [h.fullName (by decide)]
      exact hst
    exact (isDirectory_iff hstat).mpr hmode
  have hparent : isDirectory d.stat pc ⟨dotdot⟩ :=
    (isDirectory_iff_kind hd ht h (mem_list.mpr (Or.inl rfl))).mpr rfl
  constructor
  · constructor
    · exact hperm.mem_iff.mpr List.mem_cons_self
    · exact hperm.mem_iff.mpr (List.mem_cons_of_mem _ List.mem_cons_self)
    · exact ⟨hdot, hparent⟩
    · apply hperm.nodup_iff.mpr
      have hnodup := ht.nodup trail
      have hentries : ((tree trail).map fun n => (⟨n.name⟩ : Dirent)).Nodup := by
        apply List.Nodup.of_map Dirent.dName
        rwa [List.map_map]
      refine List.nodup_cons.mpr ⟨?_, List.nodup_cons.mpr ⟨?_, hentries⟩⟩
      · -- neither `..` nor `.` is the name of a node
        intro hin
        rcases List.mem_cons.mp hin with heq | hin
        · exact absurd heq (by decide)
        · rcases List.mem_map.mp hin with ⟨n, hn, heq⟩
          exact (ht.names trail n hn).2.2.1 (Dirent.mk.inj heq)
      · intro hin
        rcases List.mem_map.mp hin with ⟨n, hn, heq⟩
        exact (ht.names trail n hn).2.2.2 (Dirent.mk.inj heq)
    · intro e he
      rcases hmem e he with rfl | ⟨n, hn, rfl⟩
      · exact ⟨by decide, by decide, by decide, by decide⟩
      · rcases mem_list.mp hn with rfl | hn
        · exact ⟨by decide, by decide, by decide, by decide⟩
        · exact (ht.names trail n hn).1
    · intro e he
      rcases hmem e he with rfl | ⟨n, hn, rfl⟩
      · rcases exists_directory hdot with ⟨st, hst, -⟩
        exact Option.isSome_iff_exists.mpr ⟨st, hst⟩
      · rcases hd.stat ht h hn with ⟨st, hst, -⟩
        exact Option.isSome_iff_exists.mpr ⟨st, hst⟩
  · -- a directory does not stand in front of `..`
    intro e he hdir hne
    rcases hmem e he with rfl | ⟨n, hn, rfl⟩
    · exact absurd rfl hne
    · have hkind := (isDirectory_iff_kind hd ht h hn).mp hdir
      rcases mem_list.mp hn with rfl | hn
      · exact List.le_refl _
      · exact ht.above trail n hn hkind

/-- `sortList` puts `.` in front of the list of the directory. -/
theorem Disk.Reads.sortList (hd : d.Reads tree) (ht : tree.Tidy) (h : Housed trail pc) :
    sortList d.stat pc (d.scandir (cstr pc.path)) = ⟨dot⟩ :: (tree.list trail).map Node.entry := by
  rcases hd.listing ht h with ⟨hlisting, hclear⟩
  rcases sortList_spec hlisting.stat (fun e he => (hlisting.names e he).noNul) with ⟨hperm, hsorted⟩
  rcases sortList_front hlisting hperm hsorted with ⟨x, y, t, hl, -⟩
  rw [hl] at hperm hsorted ⊢
  rcases second_of_clear hlisting hperm hsorted hclear with ⟨rfl, rfl⟩
  have hentries := hd.entries trail
  rw [h.cstr_path] at hperm
  -- both lists are the nodes of the directory
  have hrest : t.Perm (((tree trail).insertionSort Node.Before).map Node.entry) := by
    have hall := hperm.trans hentries
    rw [List.perm_cons, List.perm_cons] at hall
    exact hall.trans ((List.perm_insertionSort _ _).symm.map _)
  -- and both are in order, so that they are one list
  have hpair : (((tree trail).insertionSort Node.Before).map Node.entry).Pairwise
      (MidnightCommander.Before d.stat pc) := by
    rw [List.pairwise_map]
    apply (List.pairwise_insertionSort Node.Before (tree trail)).imp_of_mem
    intro a b ha hb hab
    have hmem : ∀ n ∈ (tree trail).insertionSort Node.Before, n ∈ tree.list trail :=
      fun n hn => List.mem_cons_of_mem _ hn
    unfold MidnightCommander.Before
    rw [isDirectory_iff_kind hd ht h (hmem a ha), isDirectory_iff_kind hd ht h (hmem b hb)]
    exact hab
  have htail : t.Pairwise (MidnightCommander.Before d.stat pc) :=
    (List.pairwise_cons.mp (List.pairwise_cons.mp hsorted).2).2
  rw [hrest.eq_of_pairwise (fun a b _ _ hab hba => before_antisymm hab hba) htail hpair]
  rfl

/-- The row of a node. -/
theorem Disk.Reads.fillRow (hd : d.Reads tree) (ht : tree.Tidy) (h : Housed trail pc) {n : Node}
    (hn : n ∈ tree.list trail) :
    (fillRow d.stat pc d.mcTime n.entry zeroRow).shown = n.label ∧
      ((fillRow d.stat pc d.mcTime n.entry zeroRow).status = 0 ↔ n.kind = .directory) := by
  rcases hd.stat ht h hn with ⟨st, hst, hkind⟩
  have hname : NoNul n.entry.dName := by
    rcases mem_list.mp hn with rfl | hn
    · decide
    · exact (ht.names trail n hn).1.noNul
  have hmode : st.stMode ≠ .other ∧ label st n.name = n.label ∧ (st.stMode ≠ .regular ↔ n.kind = .directory) := by
    unfold Kind.Agrees at hkind
    unfold label Node.label
    cases hk : n.kind <;> simp_all
  constructor
  · rw [shown_fillRow hst hname (hd.time _).1, if_pos ⟨(hd.time _).2, hmode.1⟩]
    exact hmode.2.1
  · rw [status_fillRow hst, hmode.2.2]

end

/-- What the user sees of a row: the name, and whether Enter does something. -/
def InfoCatalog.seen (row : InfoCatalog) : Bytes × Bool := (row.shown, decide (row.status = 0))

def Node.seen (n : Node) : Bytes × Bool := (n.label, decide (n.kind = .directory))

/-- A panel that is filled shows the directory. -/
theorem Disk.Reads.rows {d : Disk} {tree : Tree} {trail : List Bytes} {pc : PathT} (hd : d.Reads tree)
    (ht : tree.Tidy) (h : Housed trail pc) :
    (d.rows pc).rows.map InfoCatalog.seen = (tree.list trail).map Node.seen := by
  show (createInfoCatalog d.stat pc d.mcTime (d.scandir (cstr pc.path))).map _ = _
  unfold createInfoCatalog
  dsimp only
  rw [update_zeroRows, hd.sortList ht h, List.drop_one, List.tail_cons, List.map_map, List.map_map]
  apply List.map_congr_left
  intro n hn
  rcases hd.fillRow ht h hn with ⟨hshown, hstatus⟩
  show ((MidnightCommander.fillRow d.stat pc d.mcTime n.entry zeroRow).shown, _) = _
  rw [hshown, Node.seen, decide_eq_decide.mpr hstatus]

/-! ## A key -/

/-- A folder that fits a panel: `..` is in it, and its names fit their rows. -/
structure Readable (folder : List Node) : Prop where
  pos : 0 < folder.length
  few : folder.length < 2 ^ 30 - 1
  names : ∀ n ∈ folder, NoNul n.name ∧ n.name.length ≤ 254

theorem Tree.Tidy.readable {tree : Tree} (ht : tree.Tidy) (trail : List Bytes) :
    Readable (tree.list trail) where
  pos := Nat.zero_lt_succ _
  few := by
    have hfew := ht.few trail
    rw [Tree.list, List.length_cons, List.length_insertionSort]
    omega
  names n hn := by
    rcases mem_list.mp hn with rfl | hn
    · exact ⟨by decide, by decide⟩
    · exact ⟨(ht.names trail n hn).1.noNul, (ht.names trail n hn).2.1⟩

/-- The screen is that of the browser: the path of each panel, its rows and its cursor. -/
structure Displays (s : Screen) (b : Browser) : Prop where
  run : s.run = b.isOpen
  current : s.currentCatalog = b.current
  path : ∀ side, Housed (b.trail side) (s.pathCatalog side)
  rows : ∀ side, (s.infCatalogList side).rows.map InfoCatalog.seen = (b.folder side).map Node.seen
  cursor : ∀ side, s.currentIndex side = b.cursor side ∧ b.cursor side < (b.folder side).length
  readable : ∀ side, Readable (b.folder side)

namespace Displays

variable {s : Screen} {b : Browser} {d : Disk} {tree : Tree}

theorem start (hd : d.Reads tree) (ht : tree.Tidy) : Displays (Screen.start d) (Browser.start tree) where
  run := rfl
  current := rfl
  path _ := housed_createPathT
  rows _ := hd.rows ht housed_createPathT
  cursor _ := ⟨rfl, (ht.readable []).pos⟩
  readable _ := ht.readable []

theorem size (h : Displays s b) (side : Side) : s.size side = (b.folder side).length := by
  have hlen := congrArg List.length (h.rows side)
  rw [List.length_map, List.length_map] at hlen
  exact congrArg Nat.cast hlen

/-- The cursor goes down, or up where the rows are counted around. -/
theorem move (h : Displays s b) {v : ℤ} {k : ℕ} (hv : v = 1 ∨ v = -1)
    (hk : (b.cursor b.current + (b.folder b.current).length + v).toNat % (b.folder b.current).length =
      (b.cursor b.current + k) % (b.folder b.current).length) :
    ∃ s', s.move v = some s' ∧ Displays s' (b.move k) := by
  have hsize := h.size b.current
  rcases h.cursor b.current with ⟨hcursor, hinside⟩
  have hfew := (h.readable b.current).few
  -- the sum of an index and a length is an `int`, and so is the step
  have hsum : s.currentIndex s.currentCatalog + s.size s.currentCatalog =
      b.cursor b.current + (b.folder b.current).length := by
    rw [h.current, hcursor, hsize]
  have hmax : (intMax : ℤ) = 2147483647 := rfl
  rw [Screen.move, hsum, Screen.int_eq (by omega) (by omega)]
  simp only [Option.bind_eq_bind, Option.bind_some]
  rw [Screen.int_eq (by omega) (by omega)]
  simp only [Option.bind_some]
  -- it is not negative, so that `%` is the remainder
  have hmod : (b.cursor b.current + (b.folder b.current).length + v : ℤ).tmod (b.folder b.current).length =
      ((b.cursor b.current + k) % (b.folder b.current).length : ℕ) := by
    rw [← hk, Int.tmod_eq_emod_of_nonneg (by omega), Int.natCast_mod, Int.toNat_of_nonneg (by omega)]
  refine ⟨_, rfl, h.run, h.current, h.path, h.rows, ?_, h.readable⟩
  intro side
  show Function.update s.currentIndex s.currentCatalog _ side = (Function.update b.cursor b.current _ side : ℕ) ∧
    Function.update b.cursor b.current _ side < (b.folder side).length
  rw [h.current, hsize, hmod]
  by_cases hside : side = b.current
  · subst hside
    rw [Function.update_self, Function.update_self]
    exact ⟨rfl, Nat.mod_lt _ (by omega)⟩
  · rw [Function.update_of_ne hside, Function.update_of_ne hside]
    exact h.cursor side

/-- The row under the cursor is that of a node. -/
theorem chosen (h : Displays s b) : ∃ n, (b.folder b.current)[b.cursor b.current]? = some n ∧
    s.chosen = if n.kind = .directory then some (47 :: n.name) else none := by
  rcases h.cursor b.current with ⟨hcursor, hinside⟩
  refine ⟨_, List.getElem?_eq_getElem hinside, ?_⟩
  generalize hn : (b.folder b.current)[b.cursor b.current] = n
  have hrow := congrArg (fun l => l[b.cursor b.current]?) (h.rows b.current)
  simp only [List.getElem?_map] at hrow
  rw [List.getElem?_eq_getElem hinside, hn, Option.map_some] at hrow
  rcases Option.map_eq_some_iff.mp hrow with ⟨row, hget, hseen⟩
  have hshown : row.shown = n.label := congrArg Prod.fst hseen
  have hstatus : row.status = 0 ↔ n.kind = .directory := decide_eq_decide.mp (congrArg Prod.snd hseen)
  have hchosen : s.chosen = if row.status = 0 then some row.shown else none := by
    rw [Screen.chosen, h.current, hcursor, if_pos (Int.natCast_nonneg _), Int.toNat_natCast, entered, hget]
  rw [hchosen]
  by_cases hdir : n.kind = .directory
  · rw [if_pos (hstatus.mpr hdir), if_pos hdir, hshown, Node.label, hdir]
  · rw [if_neg (fun h0 => hdir (hstatus.mp h0)), if_neg hdir]

/-- Enter goes into the directory under the cursor, and nowhere from a file. -/
theorem enter (h : Displays s b) {e : Event} (hd : e.disk.Reads tree) (ht : tree.Tidy)
    (hfits : ∀ side, Fits ((b.enter tree).trail side)) : Displays (s.enter e) (b.enter tree) := by
  rcases h.chosen with ⟨n, hn, hchosen⟩
  have hmem : n ∈ b.folder b.current := List.mem_of_getElem? hn
  rcases (h.readable b.current).names n hmem with ⟨hnul, hlen⟩
  unfold Browser.enter at hfits ⊢
  rw [hn] at hfits ⊢
  dsimp only at hfits ⊢
  unfold Screen.enter
  by_cases hdir : n.kind = .directory
  · rw [if_pos hdir] at hchosen
    rw [if_pos hdir] at hfits ⊢
    -- the longer path fits its buffer
    have hlong := hfits b.current
    dsimp only at hlong
    rw [Function.update_self] at hlong
    rcases (h.path b.current).enter hnul hlen hlong e.fresh with ⟨pc, hpc, hhoused⟩
    have hopened : s.opened e.fresh = some pc := by
      rw [Screen.opened, hchosen, h.current]
      exact hpc
    rw [hchosen, hopened]
    -- the path of the other panel stays
    have hpaths : ∀ side, Housed (Function.update b.trail b.current (b.trail b.current ++ [n.name]) side)
        (Function.update s.pathCatalog s.currentCatalog pc side) := by
      intro side
      rw [h.current]
      by_cases hside : side = b.current
      · subst hside
        rw [Function.update_self, Function.update_self]
        exact hhoused
      · rw [Function.update_of_ne hside, Function.update_of_ne hside]
        exact h.path side
    exact
      { run := h.run
        current := h.current
        path := hpaths
        rows := fun side => hd.rows ht (hpaths side)
        cursor := fun _ => ⟨rfl, (ht.readable _).pos⟩
        readable := fun _ => ht.readable _ }
  · rw [if_neg hdir] at hchosen ⊢
    rw [hchosen]
    exact h

/-- A key does to the screen what it does to the browser. -/
theorem press (h : Displays s b) {e : Event} (hd : e.disk.Reads tree) (ht : tree.Tidy)
    (hfits : ∀ side, Fits ((b.press e.key tree).trail side)) :
    ∃ s', s.step e = some s' ∧ Displays s' (b.press e.key tree) := by
  unfold Screen.step
  unfold Browser.press at hfits ⊢
  by_cases hopen : b.isOpen = true
  · rw [if_pos (h.run.trans hopen)]
    rw [if_pos hopen] at hfits ⊢
    have hinside := (h.cursor b.current).2
    cases hkey : e.key with
    | tab =>
      have hsize := Screen.size_pos s s.currentCatalog
      have hback : Function.update (Function.update s.currentIndex s.currentCatalog
          (s.size s.currentCatalog + 1)) s.currentCatalog (s.currentIndex s.currentCatalog) =
          s.currentIndex := by
        rw [Function.update_idem, Function.update_eq_self]
      dsimp only
      rw [Screen.tab, Screen.int_eq (by omega) (by omega)]
      refine ⟨_, rfl, h.run, congrArg Side.other h.current, h.path, h.rows, ?_, h.readable⟩
      intro side
      exact ⟨(congrFun hback side).trans (h.cursor side).1, (h.cursor side).2⟩
    | down =>
      apply h.move (Or.inl rfl)
      have hsum : (b.cursor b.current + (b.folder b.current).length + 1 : ℤ).toNat =
          b.cursor b.current + 1 + (b.folder b.current).length := by omega
      rw [hsum, Nat.add_mod_right]
    | up =>
      apply h.move (Or.inr rfl)
      congr 1
      omega
    | enter =>
      rw [hkey] at hfits
      exact ⟨_, rfl, h.enter hd ht hfits⟩
    | f1 => exact ⟨_, rfl, rfl, h.current, h.path, h.rows, h.cursor, h.readable⟩
    | other => exact ⟨s, rfl, h⟩
  · -- the session is over
    have hclosed : ¬ s.run = true := fun hrun => hopen (h.run.symm.trans hrun)
    rw [if_neg hclosed, if_neg hopen]
    exact ⟨s, rfl, h⟩

end Displays

/-! ## The session -/

/-- A key, and the tree from which the panels are read when a directory is entered. -/
structure Press where
  event : Event
  tree : Tree

def Browser.browse (tree : Tree) (ps : List Press) : Browser :=
  ps.foldl (fun b p => b.press p.event.key p.tree) (Browser.start tree)

/-- Whatever keys are pressed, and however the tree changes in between: as long as no path
fills its buffer, the session goes on without an access outside an array or an overflow,
and each panel has the path, the rows and the cursor that it has in the browser. -/
theorem session_browses {d : Disk} {tree : Tree} (hd : d.Reads tree) (ht : tree.Tidy) {ps : List Press}
    (hreads : ∀ p ∈ ps, p.event.disk.Reads p.tree ∧ p.tree.Tidy)
    (hfits : ∀ ps', ps' <+: ps → ∀ side, Fits ((Browser.browse tree ps').trail side)) :
    ∃ s, Screen.exec d (ps.map Press.event) = some s ∧ Displays s (Browser.browse tree ps) := by
  induction ps using List.reverseRecOn with
  | nil => exact ⟨_, rfl, Displays.start hd ht⟩
  | append_singleton ps p ih =>
    have hpre : ps <+: ps ++ [p] := List.prefix_append ps [p]
    rcases ih (fun q hq => hreads q (List.mem_append_left _ hq)) (fun ps' h => hfits ps' (h.trans hpre)) with
      ⟨s, hs, hdisplays⟩
    rcases hreads p (by simp) with ⟨hp, htp⟩
    have hlast : Browser.browse tree (ps ++ [p]) = (Browser.browse tree ps).press p.event.key p.tree := by
      rw [Browser.browse, List.foldl_append]
      rfl
    have hend := hfits (ps ++ [p]) List.prefix_rfl
    rw [hlast] at hend ⊢
    rcases hdisplays.press hp htp hend with ⟨s', hs', hdisplays'⟩
    refine ⟨s', ?_, hdisplays'⟩
    rw [List.map_append, List.map_singleton, Screen.exec_concat, hs, Option.bind_some]
    exact hs'

/-- Every directory is empty. -/
def bare : Tree := fun _ => []

theorem reads_bare : Screen.parentOnly.Reads bare where
  entries _ := List.Perm.refl _
  dirs _ _ _ := ⟨_, rfl, rfl⟩
  nodes _ _ hn := by cases hn
  time t := by
    show TimeText [] ∧ ([] : Bytes).length ≤ 12
    exact ⟨⟨by decide, by decide, by decide⟩, by decide⟩

theorem tidy_bare : bare.Tidy where
  names _ _ hn := by cases hn
  nodup _ := List.nodup_nil
  above _ _ hn := by cases hn
  few _ := show 0 < 2 ^ 30 - 2 by decide

/-- Up in the right panel, and the cursor around. -/
def upRight : List Press := [.tab, .enter, .down].map fun key => ⟨⟨key, [], Screen.parentOnly⟩, bare⟩

theorem session_browses_upRight : ∃ s, Screen.exec Screen.parentOnly (upRight.map Press.event) = some s ∧
    Displays s (Browser.browse bare upRight) ∧ (Browser.browse bare upRight).trail .right = [dotdot] := by
  have hreads : ∀ p ∈ upRight, p.event.disk.Reads p.tree ∧ p.tree.Tidy := by
    intro p hp
    rcases List.mem_map.mp hp with ⟨key, -, rfl⟩
    exact ⟨reads_bare, tidy_bare⟩
  have hshort : ∀ ps ∈ upRight.inits, (pathText ((Browser.browse bare ps).trail .left)).length < 256 ∧
      (pathText ((Browser.browse bare ps).trail .right)).length < 256 := by
    decide +kernel
  have hfits : ∀ ps, ps <+: upRight → ∀ side, Fits ((Browser.browse bare ps).trail side) := by
    intro ps hps side
    have hlt : (pathText ((Browser.browse bare ps).trail side)).length < 256 := by
      rcases hshort ps ((List.mem_inits ps upRight).mpr hps) with ⟨hleft, hright⟩
      cases side with
      | left => exact hleft
      | right => exact hright
    refine ⟨by omega, ?_⟩
    intro k hk
    have hpow := Nat.one_le_two_pow (n := k)
    omega
  rcases session_browses reads_bare tidy_bare hreads hfits with ⟨s, hs, hdisplays⟩
  exact ⟨s, hs, hdisplays, rfl⟩

end EmbeddedCourse.MidnightCommander
