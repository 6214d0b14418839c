import EmbeddedCourse.Lib.CString
import EmbeddedCourse.Lib.Occurrences
import Mathlib.Data.List.Forall2
import Mathlib.Data.List.Induction

/-! # The plugins of the calculator

`Calculator_v3/main.c` and `library_processing`: every file of a directory whose name has
".so" in it is loaded into a table, which doubles when it is nearly full. `Handle` is what
`dlopen` returns, `Func` what `dlsym` does.
-/

namespace EmbeddedCourse.Calculator

open CString Occurrences

/-- What an `unsigned` holds of a value. -/
def unsigned (v : ℤ) : ℕ := (v % 4294967296).toNat

/-- `".so"` -/
def so : Bytes := ascii ['.', 's', 'o']

variable {Handle Func : Type}

/-- A file of the directory, with what the loader answers: `dlopen` a handle or NULL, and
`dlsym` for a name a function or an error. -/
structure Entry (Handle Func : Type) where
  dName : Bytes
  noNul : NoNul dName
  length_le : dName.length ≤ 255
  dlopen : Option Handle
  dlsym : Bytes → Option Func

/-- `lib_func` -/
structure LibFunc (Handle Func : Type) where
  libSo : Option Handle
  func : Option Func
  name : Bytes

/-- What stands in slots that were just allocated. -/
structure Memory (Handle Func : Type) where
  slot : ℕ → LibFunc Handle Func
  length_name : ∀ i, (slot i).name.length = 256

/-- `library_processing` on the slot `list_func[i]`: whether it returns 1, and the slot. -/
def libraryProcessing (libName : Entry Handle Func) (slot : LibFunc Handle Func) :
    Bool × LibFunc Handle Func :=
  let slot : LibFunc Handle Func := { libSo := none, func := none, name := slot.name.set 0 0 }
  match libName.dlopen with
  | none => (true, slot)
  | some libSo =>
    let slot := { slot with libSo := some libSo }
    -- `main` calls it for names with ".so" in them
    let idx := (strstr libName.dName so).getD 0
    let nameFunc := (strncpy (List.replicate 255 0) libName.dName idx).set idx 0
    match libName.dlsym (cstr nameFunc) with
    | none => (true, slot)
    | some func =>
      let n := (cstr nameFunc).length
      (false, { slot with func := some func, name := (strncpy slot.name nameFunc n).set n 0 })

/-- `list_func` and `info_list_func` in `main`. -/
structure Table (Handle Func : Type) where
  listFunc : List (LibFunc Handle Func)
  size : ℕ
  capacity : ℕ

/-- `realloc`: the old slots and new ones behind them. Nothing is allocated for no slots. -/
def realloc (memory : Memory Handle Func) (listFunc : List (LibFunc Handle Func)) (n : ℕ) :
    Option (List (LibFunc Handle Func)) :=
  if n = 0 then none
  else some ((listFunc ++ (List.range' listFunc.length (n - listFunc.length)).map memory.slot).take n)

/-- The table that `main` starts with. -/
def start (memory : Memory Handle Func) : Table Handle Func where
  listFunc := (List.range 4).map memory.slot
  size := 0
  capacity := 4

/-- `library_processing` for a file, and `size++`. -/
def process (memory : Memory Handle Func) (t : Table Handle Func) (e : Entry Handle Func) :
    Table Handle Func :=
  let (error, slot) := libraryProcessing e (t.listFunc.getD t.size (memory.slot t.size))
  { t with
    listFunc := t.listFunc.set t.size slot
    size := if error then t.size else unsigned (t.size + 1) }

/-- The growth of the table. -/
def grow (memory : Memory Handle Func) (t : Table Handle Func) : Option (Table Handle Func) :=
  if t.size = unsigned (t.capacity - 1) then do
    let capacity := unsigned (t.capacity * 2)
    let listFunc ← realloc memory t.listFunc capacity
    some { t with listFunc := listFunc, capacity := capacity }
  else some t

/-- The body of the loading loop; `none` when `realloc` fails. -/
def loadFile (memory : Memory Handle Func) (t : Table Handle Func) (e : Entry Handle Func) :
    Option (Table Handle Func) :=
  if (strstr e.dName so).isSome = true then grow memory (process memory t e) else some t

/-- The loading loop. -/
def load (memory : Memory Handle Func) (namelist : List (Entry Handle Func)) :
    Option (Table Handle Func) :=
  namelist.foldlM (loadFile memory) (start memory)

/-- What the menu takes a number for. -/
inductive Choice where
  | invalid
  | exit
  | plugin (i : ℕ)
deriving DecidableEq

/-- `num` in `menu`, with the index of `list_func` that it selects. -/
def choose (size num : ℕ) : Choice :=
  if num < 1 ∨ unsigned (size + 1) < num then .invalid
  else if num = unsigned (size + 1) then .exit
  else .plugin (unsigned (num - 1))

/-! ## What should be in the table -/

/-- A library that has loaded. -/
structure Library (Handle Func : Type) where
  handle : Handle
  func : Func
  name : Bytes

/-- A name up to its first ".so". -/
def cut (name : Bytes) : Bytes := name.take ((strstr name so).getD 0)

/-- The library in a file, if it loads. -/
def loaded (e : Entry Handle Func) : Option (Library Handle Func) :=
  if (strstr e.dName so).isSome = true then do
    let handle ← e.dlopen
    let func ← e.dlsym (cut e.dName)
    some ⟨handle, func, cut e.dName⟩
  else none

/-- The slot holds the library. -/
def Holds (slot : LibFunc Handle Func) (l : Library Handle Func) : Prop :=
  slot.libSo = some l.handle ∧ slot.func = some l.func ∧ cstr slot.name = l.name

/-! ## One file -/

section File

variable (e : Entry Handle Func) (slot : LibFunc Handle Func)

/-- ".so" stands behind the name. -/
theorem length_cut (he : (strstr e.dName so).isSome = true) :
    (strstr e.dName so).getD 0 + 3 ≤ e.dName.length ∧
      (cut e.dName).length = (strstr e.dName so).getD 0 := by
  rcases Option.isSome_iff_exists.mp he with ⟨p, hp⟩
  have hfirst := strstr_eq_some_iff.mp hp
  have hfit := add_length_le hfirst.le hfirst.here
  have hso : so.length = 3 := rfl
  rw [hso] at hfit
  rw [cut, hp, List.length_take, Option.getD_some]
  omega

/-- `name_func` has the name up to the first ".so". -/
theorem cstr_nameFunc (he : (strstr e.dName so).isSome = true) :
    cstr ((strncpy (List.replicate 255 0) e.dName ((strstr e.dName so).getD 0)).set
      ((strstr e.dName so).getD 0) 0) = cut e.dName := by
  have hlen := e.length_le
  have hfit := (length_cut e he).1
  have hname := cstr_of_noNul e.noNul
  rw [cstr_strncpy_set (by rw [hname]; omega) (by rw [List.length_replicate]; omega), hname]
  rfl

/-- `library_processing` fails exactly where the library does not load, and else the slot
holds it. -/
theorem libraryProcessing_spec {e : Entry Handle Func} {slot : LibFunc Handle Func}
    (he : (strstr e.dName so).isSome = true) (hslot : slot.name.length = 256) :
    (libraryProcessing e slot).2.name.length = 256 ∧
      ((loaded e = none ∧ (libraryProcessing e slot).1 = true) ∨
        ∃ l, loaded e = some l ∧ (libraryProcessing e slot).1 = false ∧
          Holds (libraryProcessing e slot).2 l) := by
  have hcut := cstr_nameFunc e he
  -- the name of a file without its ending leaves room for a terminator
  have hroom : (cut e.dName).length < (slot.name.set 0 0).length := by
    have hlen := length_cut e he
    have hmax := e.length_le
    rw [List.length_set, hslot]
    omega
  unfold libraryProcessing loaded
  dsimp only
  rw [hcut, if_pos he]
  cases hopen : e.dlopen with
  | none => exact ⟨by simpa using hslot, Or.inl ⟨by simp, rfl⟩⟩
  | some handle =>
    cases hsym : e.dlsym (cut e.dName) with
    | none => exact ⟨by simpa using hslot, Or.inl ⟨by simp, by simp⟩⟩
    | some func =>
      refine ⟨?_, Or.inr ⟨⟨handle, func, cut e.dName⟩, by simp, rfl, rfl, rfl, ?_⟩⟩
      · dsimp only
        rw [List.length_set, length_strncpy hroom.le, List.length_set, hslot]
      · dsimp only
        rw [cstr_strncpy_set (by rw [hcut]) hroom, hcut, List.take_length]

end File

/-! ## The table -/

def intMax : ℕ := 2147483647

theorem unsigned_of_lt {n : ℕ} (h : n < 4294967296) : unsigned n = n := by
  rw [unsigned]
  omega

/-- The table holds the libraries in its first slots and has the slots that it counts. -/
structure Filled (ls : List (Library Handle Func)) (t : Table Handle Func) : Prop where
  near : t.size < t.capacity
  capacity_lt : t.capacity < 4294967296
  length : t.listFunc.length = t.capacity
  wide : ∀ slot ∈ t.listFunc, slot.name.length = 256
  holds : List.Forall₂ Holds (t.listFunc.take t.size) ls

variable {memory : Memory Handle Func} {ls : List (Library Handle Func)} {t : Table Handle Func}

theorem Filled.size_eq (h : Filled ls t) : t.size = ls.length := by
  have hlen := h.holds.length_eq
  have hnear := h.near
  have hlength := h.length
  rw [List.length_take] at hlen
  omega

theorem filled_start (memory : Memory Handle Func) : Filled [] (start memory) where
  near := by simp [start]
  capacity_lt := by simp [start]
  length := by simp [start]
  wide := by
    intro slot hslot
    rcases List.mem_map.mp hslot with ⟨i, -, rfl⟩
    exact memory.length_name i
  holds := .nil

/-- A file is processed in the slot behind the libraries; there is room for one more. -/
theorem Filled.of_process (h : Filled ls t) (hroom : t.size + 1 < t.capacity) {e : Entry Handle Func}
    (he : (strstr e.dName so).isSome = true) :
    Filled (ls ++ (loaded e).toList) (process memory t e) := by
  have hlt : t.size < t.listFunc.length := h.length ▸ h.near
  have hcap := h.capacity_lt
  have hslot : (t.listFunc.getD t.size (memory.slot t.size)).name.length = 256 := by
    rw [List.getD_eq_getElem _ _ hlt]
    exact h.wide _ (List.getElem_mem hlt)
  rcases libraryProcessing_spec he hslot with ⟨hwide, hcase⟩
  have hset : ∀ slot ∈ t.listFunc.set t.size
      (libraryProcessing e (t.listFunc.getD t.size (memory.slot t.size))).2,
      slot.name.length = 256 := by
    intro slot hmem
    rcases List.mem_or_eq_of_mem_set hmem with hold | rfl
    · exact h.wide slot hold
    · exact hwide
  rcases hcase with ⟨hnone, herror⟩ | ⟨l, hsome, herror, hholds⟩
  · -- the slot stays behind the libraries
    refine ⟨?_, hcap, ?_, hset, ?_⟩
    · simp only [process, herror, if_true]
      exact h.near
    · simp only [process, List.length_set]
      exact h.length
    · simp only [process, herror, if_true, hnone, Option.toList_none, List.append_nil]
      rw [List.take_set_of_le le_rfl]
      exact h.holds
  · have hsize : unsigned (t.size + 1) = t.size + 1 := by
      have hnext := unsigned_of_lt (n := t.size + 1) (by omega)
      push_cast at hnext
      exact hnext
    refine ⟨?_, hcap, ?_, hset, ?_⟩
    · simp only [process, herror, Bool.false_eq_true, if_false, hsize]
      exact hroom
    · simp only [process, List.length_set]
      exact h.length
    · simp only [process, herror, Bool.false_eq_true, if_false, hsize, hsome,
        Option.toList_some]
      rw [Cells.take_set_succ hlt]
      exact List.rel_append h.holds (.cons hholds .nil)

/-- Growing keeps the libraries, and there is room for another one. -/
theorem Filled.of_grow {t' : Table Handle Func} (h : Filled ls t) (hls : ls.length ≤ intMax)
    (hgrow : grow memory t = some t') : Filled ls t' ∧ t'.size + 1 < t'.capacity := by
  have hnear := h.near
  have hcap := h.capacity_lt
  have hlength := h.length
  have hsize := h.size_eq
  have hfull : unsigned (t.capacity - 1) = t.capacity - 1 := by
    rw [unsigned]
    omega
  rw [grow, hfull] at hgrow
  split_ifs at hgrow with heq
  · -- the doubled capacity is a number of slots, or wraps to 0
    have hdouble : unsigned (t.capacity * 2) = 0 ∨
        (unsigned (t.capacity * 2) = t.capacity * 2 ∧ t.capacity * 2 < 4294967296) := by
      unfold unsigned
      unfold intMax at hls
      omega
    rcases hdouble with hzero | ⟨hdouble, hlt⟩
    · simp only [hzero, realloc, if_true] at hgrow
      exact absurd hgrow (by simp)
    · have hpos : t.capacity * 2 ≠ 0 := by omega
      simp only [hdouble, realloc, if_neg hpos] at hgrow
      obtain rfl := Option.some.inj hgrow
      have htake : t.size ≤ t.listFunc.length := by omega
      refine ⟨⟨?_, hlt, ?_, ?_, ?_⟩, ?_⟩
      · dsimp only
        omega
      · dsimp only
        rw [List.length_take, List.length_append, List.length_map, List.length_range']
        omega
      · intro slot hslot
        rcases List.mem_append.mp (List.mem_of_mem_take hslot) with hold | hnew
        · exact h.wide slot hold
        · rcases List.mem_map.mp hnew with ⟨i, -, rfl⟩
          exact memory.length_name i
      · dsimp only
        rw [List.take_take, Nat.min_eq_left (by omega), List.take_append_of_le_length htake]
        exact h.holds
      · dsimp only
        omega
  · obtain rfl := Option.some.inj hgrow
    exact ⟨h, by omega⟩

/-- `realloc` has nothing to fail for as long as fewer than `INT_MAX` libraries are loaded. -/
theorem Filled.grow_isSome (h : Filled ls t) (hls : ls.length < intMax) : grow memory t ≠ none := by
  have hnear := h.near
  have hcap := h.capacity_lt
  have hsize := h.size_eq
  have hfull : unsigned (t.capacity - 1) = t.capacity - 1 := by
    rw [unsigned]
    omega
  rw [grow, hfull]
  split_ifs with heq
  · have hpos : unsigned (t.capacity * 2) ≠ 0 := by
      unfold unsigned
      unfold intMax at hls
      omega
    simp [realloc, hpos]
  · simp

/-! ## The loading loop -/

theorem loaded_of_other {e : Entry Handle Func} (he : ¬ (strstr e.dName so).isSome = true) :
    loaded e = none := by
  rw [loaded, if_neg he]

theorem filterMap_concat (es : List (Entry Handle Func)) (e : Entry Handle Func) :
    (es ++ [e]).filterMap loaded = es.filterMap loaded ++ (loaded e).toList := by
  rw [List.filterMap_append]
  cases he : loaded e <;> simp [he]

/-- What the loop keeps: the libraries so far are in the table, with room for another one. -/
theorem load_filled {es : List (Entry Handle Func)} (hes : es.length ≤ intMax)
    (h : load memory es = some t) : Filled (es.filterMap loaded) t ∧ t.size + 1 < t.capacity := by
  induction es using List.reverseRecOn generalizing t with
  | nil =>
    obtain rfl := Option.some.inj h
    exact ⟨filled_start memory, by simp [start]⟩
  | append_singleton es e ih =>
    have hall := List.length_filterMap_le loaded (es ++ [e])
    rw [List.length_append, List.length_singleton] at hes hall
    rw [load, List.foldlM_append] at h
    rcases Option.bind_eq_some_iff.mp h with ⟨s, hs, hstep⟩
    rcases ih (by omega) hs with ⟨hfilled, hroom⟩
    simp only [List.foldlM_cons, List.foldlM_nil, bind_pure, loadFile] at hstep
    rw [filterMap_concat] at hall ⊢
    split_ifs at hstep with he
    · exact (hfilled.of_process hroom he).of_grow (by omega) hstep
    · obtain rfl := Option.some.inj hstep
      rw [loaded_of_other he, Option.toList_none, List.append_nil]
      exact ⟨hfilled, hroom⟩

theorem load_isSome {es : List (Entry Handle Func)}
    (hls : (es.filterMap loaded).length < intMax) (hes : es.length ≤ intMax) :
    ∃ t, load memory es = some t := by
  induction es using List.reverseRecOn with
  | nil => exact ⟨_, rfl⟩
  | append_singleton es e ih =>
    rw [List.length_append, List.length_singleton] at hes
    rw [filterMap_concat, List.length_append] at hls
    rcases ih (by omega) (by omega) with ⟨s, hs⟩
    rcases load_filled (by omega) hs with ⟨hfilled, hroom⟩
    have hstep : loadFile memory s e ≠ none := by
      rw [loadFile]
      split_ifs with he
      · exact (hfilled.of_process hroom he).grow_isSome (by rw [List.length_append]; omega)
      · simp
    rcases Option.ne_none_iff_exists'.mp hstep with ⟨t, ht⟩
    refine ⟨t, ?_⟩
    rw [load, List.foldlM_append]
    exact Option.bind_eq_some_iff.mpr ⟨s, hs, by simpa using ht⟩

/-- For every listing that `scandir` can return: at each file there is a slot for it; when
the menu starts, the first `size` slots hold the libraries that have loaded, in the order
of the listing, and a number that selects a plugin selects one of them. `realloc` fails only
where `INT_MAX` libraries load. -/
theorem plugin_table (memory : Memory Handle Func) {namelist : List (Entry Handle Func)}
    (hn : namelist.length ≤ intMax) :
    (∀ es e rest t, namelist = es ++ e :: rest → load memory es = some t →
      t.size < t.capacity ∧ t.listFunc.length = t.capacity) ∧
    (∀ t, load memory namelist = some t →
      t.size = (namelist.filterMap loaded).length ∧
        List.Forall₂ Holds (t.listFunc.take t.size) (namelist.filterMap loaded) ∧
        ∀ num i, choose t.size num = .plugin i → i < t.size) ∧
    ((namelist.filterMap loaded).length < intMax → ∃ t, load memory namelist = some t) := by
  refine ⟨?_, ?_, ?_⟩
  · rintro es e rest t rfl ht
    rw [List.length_append] at hn
    have hfilled := (load_filled (by omega) ht).1
    exact ⟨hfilled.near, hfilled.length⟩
  · intro t ht
    have hfilled := (load_filled hn ht).1
    have hall := List.length_filterMap_le loaded namelist
    have hsize := hfilled.size_eq
    refine ⟨hsize, hfilled.holds, ?_⟩
    intro num i hchoose
    -- the number of the item for the end does not wrap
    have hnext : unsigned (t.size + 1) = t.size + 1 := by
      unfold unsigned
      unfold intMax at hn
      omega
    rw [choose, hnext] at hchoose
    split_ifs at hchoose with hinvalid hexit
    have hi : unsigned (num - 1) = i := Choice.plugin.inj hchoose
    unfold unsigned at hi
    omega
  · intro hls
    exact load_isSome hls hn

def blank : Memory ℕ ℕ where
  slot _ := ⟨none, none, List.replicate 256 0⟩
  length_name _ := List.length_replicate

/-- Files that load, one that is no library, and one without a handle. -/
def plugins : List (Entry ℕ ℕ) :=
  [⟨ascii ['a', 'd', 'd', '.', 's', 'o'], by decide, by decide, some 1, fun _ => some 10⟩,
    ⟨ascii ['l', 'i', 's', 't'], by decide, by decide, none, fun _ => none⟩,
    ⟨ascii ['d', 'i', 'v', '.', 's', 'o'], by decide, by decide, none, fun _ => none⟩,
    ⟨ascii ['m', 'u', 'l', '.', 's', 'o'], by decide, by decide, some 2, fun _ => some 20⟩,
    ⟨ascii ['s', 'u', 'b', '.', 's', 'o'], by decide, by decide, some 3, fun _ => some 30⟩]

theorem plugin_table_plugins : ∃ t, load blank plugins = some t ∧ t.size = 3 ∧
    List.Forall₂ Holds (t.listFunc.take t.size) (plugins.filterMap loaded) := by
  have hn : plugins.length ≤ intMax := by decide
  rcases plugin_table blank hn with ⟨-, htable, hload⟩
  rcases hload (by decide) with ⟨t, ht⟩
  exact ⟨t, ht, (htable t ht).1, (htable t ht).2.1⟩

end EmbeddedCourse.Calculator
