import EmbeddedCourse.Lib.CString
import EmbeddedCourse.Lib.Run

/-! # The path of a panel

`changePathCatalog` of `Midnight_Commander/header.c` appends the name of a
directory to the path, in a buffer that is doubled when the name does not fit.
The test leaves no room for the terminator when the name and the separator fill
the buffer exactly. A request for more bytes than an `int` counts does not
succeed.
-/

namespace EmbeddedCourse.MidnightCommander

open CString

structure PathT where
  size : ℕ
  capacity : ℕ
  path : Bytes
deriving DecidableEq, Repr

/-- `"./"` in 256 bytes of `calloc`. -/
def createPathT : PathT :=
  { size := 2, capacity := 256, path := 46 :: 47 :: List.replicate 254 0 }

def intMax : ℕ := 2147483647

/-- `realloc` to twice the size, with the bytes `fresh` behind the old ones. -/
def grow (fresh : Bytes) (pc : PathT) : Option PathT :=
  if pc.capacity * 2 ≤ intMax then
    some { pc with path := pc.path ++ fresh.takeD pc.capacity 0, capacity := pc.capacity * 2 }
  else none

/-- The bytes that are written from `size` on: the name, the separator and the terminator. -/
def appended (name : Bytes) : Bytes := name ++ [47, 0]

/-- What a write behind the buffer does is not modelled. -/
def append (name : Bytes) (pc : PathT) : PathT :=
  { pc with
    path := Cells.writeFrom pc.path pc.size (appended name)
    size := pc.size + name.length + 1 }

def changePathCatalog (fresh name : Bytes) (pc : PathT) : Option PathT :=
  if pc.capacity ≤ pc.size + name.length then (grow fresh pc).map (append name)
  else some (append name pc)

/-- A panel over a session: its path, the names that were appended, and each
index that was written, with the size that the buffer had then. -/
structure Session where
  pc : PathT
  names : List Bytes
  written : List (ℕ × ℕ)
deriving DecidableEq, Repr

/-- A call with a name, and the bytes that a `realloc` finds behind the path. -/
structure Call where
  name : Bytes
  fresh : Bytes
deriving DecidableEq, Repr

namespace Session

def init : Session := { pc := createPathT, names := [], written := [] }

def step (s : Session) (call : Call) : Option Session :=
  (changePathCatalog call.fresh call.name s.pc).map fun pc =>
    { pc := pc
      names := s.names ++ [call.name]
      written := s.written ++
        (List.range (appended call.name).length).map fun k => (s.pc.size + k, pc.capacity) }

/-- The name of a directory. -/
def Named (_ : Session) (call : Call) : Prop :=
  NoNul call.name ∧ 1 ≤ call.name.length ∧ call.name.length ≤ 255

instance : ∀ (s : Session) (call : Call), Decidable (Named s call) := fun _ _ =>
  inferInstanceAs (Decidable (_ ∧ _ ∧ _))

/-- `"./"`, and every name followed by `/`. -/
def text (s : Session) : Bytes := [46, 47] ++ s.names.flatMap (· ++ [47])

/-- The path is what the names make it, and every byte was written inside the buffer. -/
structure Law (s : Session) : Prop where
  path : cstr s.pc.path = s.text
  size : s.pc.size = s.text.length
  terminator : s.pc.path[s.pc.size]? = some 0
  capacity : s.pc.path.length = s.pc.capacity
  written : ∀ w ∈ s.written, w.1 < w.2

/-- The name and the separator do not fill the buffer exactly. -/
def Roomy (s : Session) (call : Call) : Prop :=
  s.pc.size + call.name.length + 1 ≠ s.pc.capacity

instance (s : Session) (call : Call) : Decidable (Roomy s call) := inferInstanceAs (Decidable (_ ≠ _))

end Session

/-! ## What a call does -/

open Session

variable {s s' : Session} {call : Call}

theorem step_cases (hs : s.step call = some s') :
    (s.pc.size + call.name.length < s.pc.capacity ∧
      s' = { pc := append call.name s.pc
             names := s.names ++ [call.name]
             written := s.written ++
               (List.range (appended call.name).length).map fun k => (s.pc.size + k, s.pc.capacity) }) ∨
    (s.pc.capacity ≤ s.pc.size + call.name.length ∧ ∃ pc, grow call.fresh s.pc = some pc ∧
      s' = { pc := append call.name pc
             names := s.names ++ [call.name]
             written := s.written ++
               (List.range (appended call.name).length).map fun k => (s.pc.size + k, pc.capacity) }) := by
  rcases Option.map_eq_some_iff.mp hs with ⟨pc, hpc, rfl⟩
  unfold changePathCatalog at hpc
  split_ifs at hpc with hfull
  · rcases Option.map_eq_some_iff.mp hpc with ⟨pc', hgrow, rfl⟩
    exact Or.inr ⟨hfull, pc', hgrow, rfl⟩
  · obtain rfl := Option.some.inj hpc
    exact Or.inl ⟨Nat.lt_of_not_le hfull, rfl⟩

/-- The path with its terminator, in a buffer of its capacity. -/
structure Stored (t : Bytes) (pc : PathT) : Prop where
  path : ∃ r, pc.path = t ++ 0 :: r
  size : pc.size = t.length
  capacity : pc.path.length = pc.capacity
  wide : 256 ≤ pc.capacity

/-- A name with room behind the path is appended. -/
theorem Stored.append {t : Bytes} {pc : PathT} (h : Stored t pc) {name : Bytes}
    (hroom : pc.size + name.length + 1 < pc.capacity) :
    Stored (t ++ (name ++ [47])) (append name pc) := by
  rcases h.path with ⟨r, hr⟩
  have hlen : t.length + (r.length + 1) = pc.capacity := by
    rw [← h.capacity, hr, List.length_append, List.length_cons]
  -- the name, the separator and the terminator are inside the buffer
  have hwritten : Cells.writeFrom pc.path pc.size (appended name) =
      t ++ appended name ++ (0 :: r).drop (appended name).length := by
    rw [hr, h.size]
    apply Cells.writeFrom_append
    have hsize := h.size
    simp [appended]
    omega
  constructor
  · refine ⟨(0 :: r).drop (appended name).length, ?_⟩
    show Cells.writeFrom pc.path pc.size (appended name) = _
    rw [hwritten, appended]
    simp
  · show pc.size + name.length + 1 = _
    rw [h.size]
    simp
    omega
  · show (Cells.writeFrom pc.path pc.size (appended name)).length = pc.capacity
    have hsize := h.size
    rw [hwritten, appended]
    simp
    omega
  · exact h.wide

theorem Stored.grow {t : Bytes} {pc pc' : PathT} (h : Stored t pc) {fresh : Bytes}
    (hgrow : grow fresh pc = some pc') : Stored t pc' ∧ pc'.size = pc.size ∧
      pc'.capacity = pc.capacity * 2 := by
  unfold MidnightCommander.grow at hgrow
  split_ifs at hgrow with hint
  obtain rfl := Option.some.inj hgrow
  rcases h.path with ⟨r, hr⟩
  refine ⟨⟨⟨r ++ fresh.takeD pc.capacity 0, ?_⟩, h.size, ?_, ?_⟩, rfl, rfl⟩
  · dsimp only
    rw [hr, List.append_assoc, List.cons_append]
  · have hcap := h.capacity
    dsimp only
    rw [List.length_append, List.takeD_length, hcap]
    omega
  · have hwide := h.wide
    dsimp only
    omega

/-! ## A session -/

/-- The path is in order, and nothing was written behind the buffer. -/
structure Kept (s : Session) : Prop where
  stored : Stored s.text s.pc
  noNul : NoNul s.text
  written : ∀ w ∈ s.written, w.1 < w.2

theorem Kept.init : Kept Session.init where
  stored := by
    refine ⟨⟨List.replicate 253 0, rfl⟩, rfl, ?_, Nat.le_refl 256⟩
    show (46 :: 47 :: List.replicate 254 0).length = 256
    rw [List.length_cons, List.length_cons, List.length_replicate]
  noNul := by decide
  written := by simp [Session.init]

theorem Kept.step (h : Kept s) (hname : Named s call) (hroomy : Roomy s call)
    (hs : s.step call = some s') : Kept s' := by
  rcases hname with ⟨hno, hpos, hlen⟩
  have hwide := h.stored.wide
  have htext : ∀ names : List Bytes, ([46, 47] : Bytes) ++ (names ++ [call.name]).flatMap (· ++ [47]) =
      [46, 47] ++ names.flatMap (· ++ [47]) ++ (call.name ++ [47]) := by
    intro names
    simp
  have hnul : NoNul ([46, 47] ++ (s.names ++ [call.name]).flatMap (· ++ [47])) := by
    rw [htext]
    exact h.noNul.append (hno.append (by decide))
  have hlast : (appended call.name).length = call.name.length + 2 := by simp [appended]
  have hindices : ∀ capacity, s.pc.size + call.name.length + 1 < capacity → ∀ w ∈ s.written ++
      (List.range (appended call.name).length).map (fun k => (s.pc.size + k, capacity)), w.1 < w.2 := by
    intro capacity hroom w hw
    rcases List.mem_append.mp hw with hw | hw
    · exact h.written w hw
    · rcases List.mem_map.mp hw with ⟨k, hk, rfl⟩
      have hklt := List.mem_range.mp hk
      dsimp only
      omega
  rcases step_cases hs with ⟨hfits, rfl⟩ | ⟨hfull, pc, hgrow, rfl⟩
  · have hroom : s.pc.size + call.name.length + 1 < s.pc.capacity := by
      unfold Roomy at hroomy
      omega
    refine ⟨?_, hnul, hindices s.pc.capacity hroom⟩
    unfold text
    rw [htext]
    exact h.stored.append hroom
  · -- the doubled buffer has room for any name
    rcases h.stored.grow hgrow with ⟨hstored, hsize, hcap⟩
    have hbelow : s.pc.size < s.pc.capacity := by
      rcases h.stored.path with ⟨r, hr⟩
      rw [← h.stored.capacity, hr, h.stored.size, List.length_append, List.length_cons]
      omega
    have hroom : pc.size + call.name.length + 1 < pc.capacity := by omega
    refine ⟨?_, hnul, hindices pc.capacity (by omega)⟩
    unfold text
    rw [htext]
    exact hstored.append hroom

theorem Kept.law (h : Kept s) : Law s := by
  rcases h.stored.path with ⟨r, hr⟩
  constructor
  · rw [hr, cstr_terminated h.noNul]
  · exact h.stored.size
  · rw [hr, h.stored.size]
    simp
  · exact h.stored.capacity
  · exact h.written

/-- A byte has been written behind the buffer. -/
def Overrun (s : Session) : Prop := ∃ w ∈ s.written, w.2 ≤ w.1

theorem Overrun.of_step (hroomy : ¬ Roomy s call) (hs : s.step call = some s') : Overrun s' := by
  have hfull : s.pc.size + call.name.length + 1 = s.pc.capacity := by
    by_contra hne
    exact hroomy hne
  rcases step_cases hs with ⟨-, rfl⟩ | ⟨hge, -⟩
  · -- the terminator
    refine ⟨(s.pc.size + (call.name.length + 1), s.pc.capacity), List.mem_append_right _ ?_, by
      dsimp only
      omega⟩
    apply List.mem_map.mpr
    exact ⟨call.name.length + 1, List.mem_range.mpr (by simp [appended]), rfl⟩
  · omega

theorem Overrun.keep (h : Overrun s) (hs : s.step call = some s') : Overrun s' := by
  rcases h with ⟨w, hw, hle⟩
  rcases step_cases hs with ⟨-, rfl⟩ | ⟨-, pc, -, rfl⟩
  · exact ⟨w, List.mem_append_left _ hw, hle⟩
  · exact ⟨w, List.mem_append_left _ hw, hle⟩

/-- After a sequence of calls with names of directories, every `realloc` of which
has succeeded, the path is in order and every byte has been written inside the
buffer, if and only if no call has filled the buffer with its name and separator. -/
theorem law_iff_roomy (calls : List Call) (s : Session)
    (hrun : Machine.Run Session.step Named Session.init calls s) :
    Law s ↔ Machine.Run Session.step (fun s call => Named s call ∧ Roomy s call) Session.init calls s := by
  constructor
  · intro hlaw
    have hsplit := hrun.all_or_bad Roomy Overrun
      (fun _ _ _ _ _ _ hroomy hs => Overrun.of_step hroomy hs)
      (fun _ _ _ _ _ hover _ hs => hover.keep hs)
    rcases hsplit with hall | ⟨w, hw, hle⟩
    · exact hall
    · exact absurd (hlaw.written w hw) (Nat.not_lt.mpr hle)
  · intro hroomy
    have hkept : Kept s := by
      apply hroomy.invariant Kept Kept.init
      intro s call s' hkept hok hs
      exact hkept.step hok.1 hok.2 hs
    exact hkept.law

/-- Names that make the buffer grow once. -/
def longNames : List Call := List.replicate 3 { name := List.replicate 100 97, fresh := [] }

theorem law_iff_roomy_longNames : ∃ s,
    Machine.Run Session.step (fun s call => Named s call ∧ Roomy s call) Session.init longNames s ∧
      s.pc.capacity = 512 ∧ Law s := by
  have hexec : (Machine.exec (Machine.guarded Session.step fun s call => Named s call ∧ Roomy s call)
      Session.init longNames).map (fun s => s.pc.capacity) = some 512 := by
    decide +kernel
  rcases Machine.Run.exists_of_exec hexec with ⟨s, hrun, hcap⟩
  exact ⟨s, hrun, hcap, (law_iff_roomy longNames s (hrun.mono fun _ _ hok => hok.1)).mpr hrun⟩

/-- One name of 253 bytes: its terminator is written to `path[256]`. -/
def exactName : List Call := [{ name := List.replicate 253 97, fresh := [] }]

theorem exactName_not_law : ∃ s, Machine.Run Session.step Named Session.init exactName s ∧
    (256, 256) ∈ s.written ∧ ¬ Law s := by
  have hrun : (Machine.exec (Machine.guarded Session.step Named) Session.init exactName).map
      (fun s => s.written.getLast?) = some (some (256, 256)) := by
    decide +kernel
  rcases Machine.Run.exists_of_exec hrun with ⟨s, hrun, hlast⟩
  have hmem : (256, 256) ∈ s.written := List.mem_of_getLast? hlast
  refine ⟨s, hrun, hmem, ?_⟩
  intro hlaw
  exact absurd (hlaw.written _ hmem) (by decide)

end EmbeddedCourse.MidnightCommander
