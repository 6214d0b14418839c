import EmbeddedCourse.Directory.TableOccupancy

/-! # The end of the array directory

Each operation with the records that it reads or writes, in the order of its
accesses; a string that runs on counts where it starts. The loop of
`find_free_index` looks at a record before it compares the index, and
`insert_abonent` refuses an index above 100 only. So the record behind the
array is touched as soon as an operation is called while 100 records are held,
and never before. What is behind the array matters only from then on.
-/

namespace EmbeddedCourse.Directory.Table

open CString

/-- The records of the loop of `find_free_index`. -/
def scanTouched : List Abonent → ℕ → List ℕ
  | [], index => [index]
  | a :: array, index =>
    if a.Occupied ∧ index < 100 then index :: scanTouched array (index + 1) else [index]

def findFreeIndexTouched (array : List Abonent) : List ℕ := scanTouched array 0

def insertAbonentTouched (array : List Abonent) : List ℕ :=
  let index := findFreeIndex array
  findFreeIndexTouched array ++ if 100 < index then [] else [index]

/-- The records of the loop of `search`. -/
def searchLoopTouched (array : List Abonent) (name : Bytes) : ℕ → ℕ → List ℕ
  | _, 0 => []
  | i, n + 1 => if nameAt array i = name then [i] else i :: searchLoopTouched array name (i + 1) n

def searchTouched (array : List Abonent) (name : Bytes) : List ℕ :=
  findFreeIndexTouched array ++ searchLoopTouched array name 0 (findFreeIndex array)

def searchAbonentTouched (array : List Abonent) (stdin : Bytes) : List ℕ :=
  findFreeIndexTouched array ++
    if findFreeIndex array = 0 then []
    else
      let name := (prompt [] stdin).1
      let i := search array name
      searchTouched array name ++ if i = -1 then [] else [i.toNat]

def printAllAbonentsTouched (array : List Abonent) : List ℕ :=
  findFreeIndexTouched array ++
    if findFreeIndex array = 0 then []
    else findFreeIndexTouched array ++ List.range (findFreeIndex array)

/-- The records of the loop of `delete_`. -/
def compactTouched (index : ℕ) : ℕ → ℕ → ℕ → List Abonent → List ℕ
  | 0, _, _, _ => []
  | fuel + 1, l, r, array =>
    if r < index then
      if (get array l).Vacant then
        if (get array r).Occupied then
          let b := get array r
          l :: r :: compactTouched index fuel (l + 1) (r + 1)
            ((array.set l (insert (get array l) b.name b.secondName b.tel)).set r zero)
        else l :: r :: compactTouched index fuel l (r + 1) array
      else l :: compactTouched index fuel (l + 1) r array
    else []

def deleteTouched (array : List Abonent) (delI index : ℕ) : List ℕ :=
  compactTouched index (index + array.length) delI (delI + 1) array

def deleteAbonentTouched (array : List Abonent) (stdin : Bytes) : List ℕ :=
  findFreeIndexTouched array ++
    if findFreeIndex array = 0 then []
    else
      let name := (prompt [] stdin).1
      let index := findFreeIndex array
      let m := (List.range index).foldl (mark name) ⟨array, -1, 0⟩
      findFreeIndexTouched array ++ List.range index ++
        if 0 < m.countDel then deleteTouched m.array m.delI.toNat index else []

/-! ## The menu -/

/-- A pass of the loop in `main`: the number that `scanf` has read, if any, what
the buffers hold when the input ends, and what is typed at the prompts. -/
structure Choice where
  ch : Option Int
  stale : Record
  stdin : Bytes
deriving DecidableEq, Repr

/-- One of the operations on the directory is chosen. -/
def Choice.Operates (c : Choice) : Prop := c.ch = some 1 ∨ c.ch = some 2 ∨ c.ch = some 3 ∨ c.ch = some 4

instance (c : Choice) : Decidable c.Operates := inferInstanceAs (Decidable (_ ∨ _))

/-- An insert: the array, the code that was returned, and the array then. -/
structure Outcome where
  before : List Abonent
  code : Int
  after : List Abonent
deriving DecidableEq, Repr

/-- A session of `main`, with the records that were touched and the inserts. -/
structure Session where
  array : List Abonent
  start : Bool
  touched : List ℕ
  inserts : List Outcome
deriving DecidableEq, Repr

namespace Session

def init : Session := { array := Table.init, start := true, touched := [], inserts := [] }

/-- The switch in `main`. -/
def switch (s : Session) (c : Choice) : Option Session :=
  if c.ch = some 1 then
    let out := insertAbonent c.stale s.array c.stdin
    some { s with
      array := out.2.1
      touched := s.touched ++ insertAbonentTouched s.array
      inserts := s.inserts ++ [⟨s.array, out.1.code, out.2.1⟩] }
  else if c.ch = some 2 then
    (deleteAbonent s.array c.stdin).map fun out =>
      { s with array := out.2.1, touched := s.touched ++ deleteAbonentTouched s.array c.stdin }
  else if c.ch = some 3 then some { s with touched := s.touched ++ searchAbonentTouched s.array c.stdin }
  else if c.ch = some 4 then some { s with touched := s.touched ++ printAllAbonentsTouched s.array }
  else if c.ch = some 5 then some { s with start := false }
  else some s

def step (s : Session) (c : Choice) : Option Session := if s.start then s.switch c else none

/-- Every record that was touched is in the array, and a full directory refuses an insert. -/
structure Bounded (s : Session) : Prop where
  touched : ∀ i ∈ s.touched, i < maxLen
  refused : ∀ o ∈ s.inserts, findFreeIndex o.before = maxLen → o.code = 1 ∧ o.after = o.before

/-- No operation is called while the directory is full. -/
def Room (s : Session) (c : Choice) : Prop := c.Operates → findFreeIndex s.array < maxLen

instance : ∀ (s : Session) (c : Choice), Decidable (Room s c) := fun _ _ =>
  inferInstanceAs (Decidable (_ → _))

end Session

/-! ## What the operations touch -/

section

variable {C Z array : List Abonent}

theorem mem_scanTouched (hC : ∀ a ∈ C, a.Occupied) (hZ : ∀ z ∈ Z.head?, ¬ z.Occupied) (i : ℕ)
    (hi : i + C.length ≤ 100) (k : ℕ) : k ∈ scanTouched (C ++ Z) i ↔ i ≤ k ∧ k ≤ i + C.length := by
  induction C generalizing i with
  | nil =>
    cases Z with
    | nil =>
      rw [List.nil_append, scanTouched, List.mem_singleton, List.length_nil]
      omega
    | cons z Z =>
      have hz : ¬ (z.Occupied ∧ i < 100) := fun h => hZ z rfl h.1
      rw [List.nil_append, scanTouched, if_neg hz, List.mem_singleton, List.length_nil]
      omega
  | cons a C ih =>
    have ha := hC a (by simp)
    rw [List.length_cons] at hi ⊢
    rw [List.cons_append, scanTouched, if_pos ⟨ha, by omega⟩, List.mem_cons,
      ih (fun x hx => hC x (List.mem_cons_of_mem a hx)) _ (by omega)]
    omega

/-- The scan touches the records in use and the one behind them. -/
theorem Packed.mem_findFreeIndexTouched (h : Packed C Z array) (k : ℕ) :
    k ∈ findFreeIndexTouched array ↔ k ≤ C.length := by
  have hlen := h.length
  rw [h.array, findFreeIndexTouched, mem_scanTouched (fun a ha => (h.used a ha).1)
    (fun z hz => (h.free z (List.mem_of_mem_head? hz)).1) 0 (by omega)]
  omega

theorem searchLoopTouched_lt (array : List Abonent) (name : Bytes) (i n : ℕ) :
    ∀ k ∈ searchLoopTouched array name i n, k < i + n := by
  induction n generalizing i with
  | zero => simp [searchLoopTouched]
  | succ n ih =>
    intro k hk
    rw [searchLoopTouched] at hk
    split_ifs at hk with hname
    · rw [List.mem_singleton] at hk
      omega
    · rcases List.mem_cons.mp hk with rfl | hk
      · omega
      · have hlt := ih (i + 1) k hk
        omega

/-- The index that `search` returns. -/
theorem searchLoop_lt (array : List Abonent) (name : Bytes) (i n : ℕ) :
    searchLoop array name i n = -1 ∨ (searchLoop array name i n).toNat < i + n := by
  induction n generalizing i with
  | zero => exact Or.inl rfl
  | succ n ih =>
    rw [searchLoop]
    split_ifs with hname
    · right
      omega
    · rcases ih (i + 1) with hnone | hlt
      · exact Or.inl hnone
      · right
        omega

/-- The pointers of `delete_` stay below the index where the records end. -/
theorem compactTouched_lt {B : List Abonent} (hB : ∀ b ∈ B, b = zero ∨ b.Occupied ∧ b.Padded)
    (Z A : List Abonent) (m : ℕ) {index : ℕ} (fuel : ℕ) (hm : 0 < m)
    (hindex : index = A.length + m + B.length) :
    ∀ k ∈ compactTouched index fuel A.length (A.length + m) (A ++ List.replicate m zero ++ B ++ Z),
      k < index := by
  induction fuel generalizing A m B with
  | zero => simp [compactTouched]
  | succ fuel ih =>
    cases B with
    | nil =>
      have hdone : ¬ A.length + m < index := by
        rw [hindex]
        simp
      simp [compactTouched, hdone]
    | cons b B =>
      rw [List.length_cons] at hindex
      rcases Nat.exists_eq_add_one.mpr hm with ⟨m, rfl⟩
      have hgo : A.length + (m + 1) < index := by omega
      have htail := fun x hx => hB x (List.mem_cons_of_mem b hx)
      rcases get_gap A m b (B ++ Z) with ⟨hleft, hright⟩
      rw [List.append_assoc _ (b :: B) Z, List.cons_append, compactTouched, if_pos hgo, hleft,
        if_pos vacant_zero, hright]
      intro k hk
      -- both pointers are looked at, and the rest is one pass less
      rcases hB b (by simp) with rfl | ⟨hocc, hpad⟩
      · have hih := ih htail A (m + 1 + 1) (by omega) (by omega)
        rw [if_neg not_occupied_zero, gap_zero, ← List.append_assoc, List.mem_cons, List.mem_cons] at hk
        rcases hk with rfl | rfl | hk
        · omega
        · exact hgo
        · exact hih k hk
      · have hlen : (A ++ [b]).length = A.length + 1 := by simp
        have hnext : A.length + (m + 1) + 1 = A.length + 1 + (m + 1) := by omega
        have hih := ih htail (A ++ [b]) (m + 1) (by omega) (by rw [hlen]; omega)
        rw [if_pos hocc] at hk
        dsimp only at hk
        rw [insert_padded hpad, gap_used, ← List.append_assoc, hnext, List.mem_cons, List.mem_cons] at hk
        rw [hlen] at hih
        rcases hk with rfl | rfl | hk
        · omega
        · exact hgo
        · exact hih k hk

theorem Packed.mem_insertAbonentTouched (h : Packed C Z array) :
    ∀ k ∈ insertAbonentTouched array, k ≤ C.length := by
  have hlen := h.length
  have hroom : ¬ 100 < C.length := by omega
  intro k hk
  unfold insertAbonentTouched at hk
  dsimp only at hk
  rw [h.findFreeIndex, if_neg hroom, List.mem_append, h.mem_findFreeIndexTouched, List.mem_singleton] at hk
  omega

theorem Packed.mem_searchAbonentTouched (h : Packed C Z array) (stdin : Bytes) :
    ∀ k ∈ searchAbonentTouched array stdin, k ≤ C.length := by
  intro k hk
  unfold searchAbonentTouched searchTouched search at hk
  dsimp only at hk
  rw [h.findFreeIndex, List.mem_append, h.mem_findFreeIndexTouched] at hk
  rcases hk with hk | hk
  · exact hk
  · split_ifs at hk with hzero hnone
    · cases hk
    · -- nobody is found
      rw [List.append_nil, List.mem_append, h.mem_findFreeIndexTouched] at hk
      rcases hk with hk | hk
      · exact hk
      · have hlt := searchLoopTouched_lt _ _ _ _ k hk
        omega
    · rw [List.mem_append, List.mem_append, h.mem_findFreeIndexTouched, List.mem_singleton] at hk
      rcases hk with (hk | hk) | rfl
      · exact hk
      · have hlt := searchLoopTouched_lt _ _ _ _ k hk
        omega
      · rcases searchLoop_lt array (prompt [] stdin).1 0 C.length with heq | hlt
        · exact absurd heq hnone
        · omega

theorem Packed.mem_printAllAbonentsTouched (h : Packed C Z array) :
    ∀ k ∈ printAllAbonentsTouched array, k ≤ C.length := by
  intro k hk
  unfold printAllAbonentsTouched at hk
  rw [h.findFreeIndex, List.mem_append, h.mem_findFreeIndexTouched] at hk
  rcases hk with hk | hk
  · exact hk
  · split_ifs at hk with hzero
    · cases hk
    · rw [List.mem_append, h.mem_findFreeIndexTouched, List.mem_range] at hk
      omega

/-- `delete_` on what the loop of `delete_abonent` leaves. -/
theorem Packed.mem_deleteTouched (h : Packed C Z array) {s : Bytes} (hcount : 0 < hits s Z C) :
    ∀ k ∈ deleteTouched (swept s Z C ++ Z) (firstHit s Z 0 C).toNat C.length, k < C.length := by
  rcases hit_cases s Z 0 C with ⟨-, hnone, -⟩ | ⟨C₁, a, C₂, rfl, hfirst, -, hswept⟩
  · omega
  · have hB := swept_used s Z fun x hx => h.used x (List.mem_append_right C₁ (List.mem_cons_of_mem a hx))
    have harray : C₁ ++ zero :: swept s Z C₂ ++ Z = C₁ ++ List.replicate 1 zero ++ swept s Z C₂ ++ Z := by
      simp
    have hindex : (C₁ ++ a :: C₂).length = C₁.length + 1 + (swept s Z C₂).length := by
      rw [length_swept, List.length_append, List.length_cons]
      omega
    rw [hfirst, Nat.zero_add, Int.toNat_natCast, hswept, harray]
    exact compactTouched_lt hB Z C₁ 1 _ (by decide) hindex

theorem Packed.mem_deleteAbonentTouched (h : Packed C Z array) (stdin : Bytes) :
    ∀ k ∈ deleteAbonentTouched array stdin, k ≤ C.length := by
  have hmark := foldl_mark_range (prompt [] stdin).1 (fun a ha => (h.used a ha).2.wide) Z
  rw [← h.array] at hmark
  intro k hk
  unfold deleteAbonentTouched at hk
  dsimp only at hk
  rw [h.findFreeIndex, hmark, List.mem_append, h.mem_findFreeIndexTouched] at hk
  dsimp only at hk
  rcases hk with hk | hk
  · exact hk
  · split_ifs at hk with hzero hcount
    · cases hk
    · rw [List.mem_append, List.mem_append, h.mem_findFreeIndexTouched, List.mem_range] at hk
      rcases hk with (hk | hk) | hk
      · exact hk
      · exact Nat.le_of_lt hk
      · exact Nat.le_of_lt (h.mem_deleteTouched hcount k hk)
    · rw [List.append_nil, List.mem_append, h.mem_findFreeIndexTouched, List.mem_range] at hk
      omega

end

/-! ## Sessions -/

namespace Session

variable {C Z : List Abonent} {s s' : Session} {c : Choice}

/-- What a pass of the menu does with `C` in use: the records still stand in front,
an operation touches the one behind them and none further on, and an insert is
one of the operations. -/
structure Pass (C : List Abonent) (s : Session) (c : Choice) (s' : Session) : Prop where
  packed : ∃ C' Z', Packed C' Z' s'.array
  touched : ∃ t, s'.touched = s.touched ++ t ∧ (∀ k ∈ t, c.Operates ∧ k ≤ C.length) ∧
    (c.Operates → C.length ∈ t)
  inserts : s'.inserts = s.inserts ∨
    c.Operates ∧ ∃ o, s'.inserts = s.inserts ++ [o] ∧ o.before = s.array

theorem switch_pass (h : Packed C Z s.array) (c : Choice) : ∃ s', s.switch c = some s' ∧ Pass C s c s' := by
  have hscan : C.length ∈ findFreeIndexTouched s.array := (h.mem_findFreeIndexTouched _).mpr (Nat.le_refl _)
  unfold switch
  split_ifs with h1 h2 h3 h4 h5
  · have hop : c.Operates := Or.inl h1
    rcases h.serve (q := .insert c.stale c.stdin) rfl with ⟨C', Z', h', -⟩
    exact ⟨_, rfl, ⟨C', Z', h'⟩, ⟨_, rfl, fun k hk => ⟨hop, h.mem_insertAbonentTouched k hk⟩,
      fun _ => List.mem_append_left _ hscan⟩, Or.inr ⟨hop, _, rfl, rfl⟩⟩
  · have hop : c.Operates := Or.inr (Or.inl h2)
    rcases h.delete c.stdin with ⟨answer, array', rest, Z', hdel, h'⟩
    rw [hdel]
    exact ⟨_, rfl, ⟨_, Z', h'⟩, ⟨_, rfl, fun k hk => ⟨hop, h.mem_deleteAbonentTouched c.stdin k hk⟩,
      fun _ => List.mem_append_left _ hscan⟩, Or.inl rfl⟩
  · have hop : c.Operates := Or.inr (Or.inr (Or.inl h3))
    exact ⟨_, rfl, ⟨C, Z, h⟩, ⟨_, rfl, fun k hk => ⟨hop, h.mem_searchAbonentTouched c.stdin k hk⟩,
      fun _ => List.mem_append_left _ hscan⟩, Or.inl rfl⟩
  · have hop : c.Operates := Or.inr (Or.inr (Or.inr h4))
    exact ⟨_, rfl, ⟨C, Z, h⟩, ⟨_, rfl, fun k hk => ⟨hop, h.mem_printAllAbonentsTouched k hk⟩,
      fun _ => List.mem_append_left _ hscan⟩, Or.inl rfl⟩
  all_goals
    -- the end, and a wrong key
    have hno : ¬ c.Operates := by
      unfold Choice.Operates
      simp only [h1, h2, h3, h4, or_self, not_false_eq_true]
    exact ⟨_, rfl, ⟨C, Z, h⟩, ⟨[], (List.append_nil _).symm, fun k hk => absurd hk List.not_mem_nil,
      fun hop => absurd hop hno⟩, Or.inl rfl⟩

theorem Pass.of_step (h : Packed C Z s.array) (hs : step s c = some s') : Pass C s c s' := by
  rcases switch_pass h c with ⟨s'', hswitch, hpass⟩
  unfold step at hs
  split_ifs at hs
  rw [hswitch] at hs
  obtain rfl := Option.some.inj hs
  exact hpass

theorem packed_of_run {ok : Session → Choice → Prop} {cs : List Choice}
    (hrun : Machine.Run step ok init cs s) : ∃ C Z, Packed C Z s.array := by
  apply hrun.invariant fun s => ∃ C Z, Packed C Z s.array
  · exact ⟨_, _, Packed.init⟩
  · rintro s c s' ⟨C, Z, h⟩ - hs
    exact (Pass.of_step h hs).packed

/-- A pass that meets the condition. -/
theorem Bounded.step (hb : Bounded s) (h : Packed C Z s.array) (hroom : Room s c)
    (hpass : Pass C s c s') : Bounded s' := by
  have hlt : c.Operates → C.length < maxLen := by
    intro hop
    rw [← h.findFreeIndex]
    exact hroom hop
  rcases hpass.touched with ⟨t, htouched, hle, -⟩
  constructor
  · intro k hk
    rw [htouched] at hk
    rcases List.mem_append.mp hk with hk | hk
    · exact hb.touched k hk
    · exact Nat.lt_of_le_of_lt (hle k hk).2 (hlt (hle k hk).1)
  · intro o ho hfull
    rcases hpass.inserts with hsame | ⟨hop, o', hmore, hbefore⟩
    · exact hb.refused o (hsame ▸ ho) hfull
    · rw [hmore] at ho
      rcases List.mem_append.mp ho with ho | ho
      · exact hb.refused o ho hfull
      · -- the new insert has found room
        obtain rfl := List.mem_singleton.mp ho
        rw [hbefore] at hfull
        exact absurd (hroom hop) (by rw [hfull]; exact lt_irrefl _)

/-- The scan of a full directory. -/
theorem overrun_of_full {ok : Session → Choice → Prop} {cs : List Choice}
    (hrun : Machine.Run step ok init cs s) (hfull : ¬ Room s c) (hs : step s c = some s') :
    maxLen ∈ s'.touched := by
  rcases packed_of_run hrun with ⟨C, Z, h⟩
  have hlen := h.length
  unfold Room at hfull
  rw [Classical.not_imp, h.findFreeIndex] at hfull
  have heq : C.length = maxLen := by
    unfold maxLen at hfull ⊢
    omega
  rcases (Pass.of_step h hs).touched with ⟨t, htouched, -, hmem⟩
  rw [htouched, ← heq]
  exact List.mem_append_right _ (hmem hfull.1)

theorem overrun_kept {ok : Session → Choice → Prop} {cs : List Choice}
    (hrun : Machine.Run step ok init cs s) (hmem : maxLen ∈ s.touched) (hs : step s c = some s') :
    maxLen ∈ s'.touched := by
  rcases packed_of_run hrun with ⟨C, Z, h⟩
  rcases (Pass.of_step h hs).touched with ⟨t, htouched, -⟩
  rw [htouched]
  exact List.mem_append_left t hmem

/-- In every session from the empty directory, whatever is chosen and typed: the
records that are touched are all in the array, and an insert into a full
directory returns 1 and changes nothing, if and only if no operation is called
while the directory is full. -/
theorem bounded_iff_room (cs : List Choice) (s : Session)
    (hrun : Machine.Run step (fun _ _ => True) init cs s) :
    Bounded s ↔ Machine.Run step Room init cs s := by
  constructor
  · intro hb
    have hsplit := hrun.all_or_bad Room (fun s => maxLen ∈ s.touched)
      (fun s c s' cs' hpre _ hfull hs => overrun_of_full hpre hfull hs)
      (fun s c s' cs' hpre hmem _ hs => overrun_kept hpre hmem hs)
    rcases hsplit with hall | hbad
    · exact hall.mono fun s c h => h.2
    · exact absurd (hb.touched _ hbad) (lt_irrefl _)
  · intro hroom
    have hinv : Bounded s ∧ ∃ C Z, Packed C Z s.array := by
      apply hroom.invariant fun s => Bounded s ∧ ∃ C Z, Packed C Z s.array
      · exact ⟨⟨by simp [init], by simp [init]⟩, _, _, Packed.init⟩
      · rintro s c s' ⟨hb, C, Z, h⟩ hroom hs
        have hpass := Pass.of_step h hs
        exact ⟨hb.step h hroom hpass, hpass.packed⟩
    exact hinv.1

/-- An insert, a search and a wrong key. -/
def fewChoices : List Choice :=
  [{ ch := some 1, stale := ⟨[], [], []⟩, stdin := ascii ['I', '\n', 'S', '\n', '2', '\n'] },
   { ch := some 3, stale := ⟨[], [], []⟩, stdin := ascii ['I', '\n'] },
   { ch := none, stale := ⟨[], [], []⟩, stdin := [] }]

theorem bounded_iff_room_fewChoices : ∃ s,
    Machine.Run step Room init fewChoices s ∧ s.touched = [0, 0, 0, 1, 0, 1, 0, 0] ∧ Bounded s := by
  have hexec : (Machine.exec (Machine.guarded step Room) init fewChoices).map
      (fun s => s.touched) = some [0, 0, 0, 1, 0, 1, 0, 0] := by
    decide +kernel
  rcases Machine.Run.exists_of_exec hexec with ⟨s, hrun, htouched⟩
  exact ⟨s, hrun, htouched,
    (bounded_iff_room fewChoices s (hrun.mono fun _ _ _ => trivial)).mpr hrun⟩

def anInsert : Choice :=
  { ch := some 1, stale := ⟨[], [], []⟩, stdin := ascii ['I', '\n', 'S', '\n', '2', '\n'] }

/-- The last of 101 inserts is accepted: the scan has touched the record behind the
array, and it is written. -/
theorem oneTooMany_not_bounded : ∃ s,
    Machine.Run step (fun _ _ => True) init (List.replicate 100 anInsert ++ [anInsert]) s ∧
      s.inserts.getLast?.map (fun o => (findFreeIndex o.before, o.code)) = some (100, 0) ∧
      maxLen ∈ s.touched ∧ ¬ Bounded s := by
  have hfull : (Machine.exec (Machine.guarded step fun _ _ => True) init (List.replicate 100 anInsert)).map
      (fun s => findFreeIndex s.array) = some 100 := by
    decide +kernel
  have hlast : (Machine.exec (Machine.guarded step fun _ _ => True) init
      (List.replicate 100 anInsert ++ [anInsert])).map
      (fun s => s.inserts.getLast?.map fun o => (findFreeIndex o.before, o.code)) = some (some (100, 0)) := by
    decide +kernel
  rcases Machine.Run.exists_of_exec hfull with ⟨t, ht, hheld⟩
  rcases Machine.Run.exists_of_exec hlast with ⟨s, hrun, hinsert⟩
  rcases hrun.of_concat with ⟨t', ht', -, hs⟩
  obtain rfl := ht.unique ht'
  have hnot : ¬ Room t anInsert := by
    intro hroom
    exact absurd (hroom (Or.inl rfl)) (by rw [hheld]; decide)
  have hmem := overrun_of_full ht hnot hs
  refine ⟨s, hrun, hinsert, hmem, ?_⟩
  intro hb
  exact absurd (hb.touched _ hmem) (lt_irrefl _)

end Session

end EmbeddedCourse.Directory.Table
