import EmbeddedCourse.Directory.ChainRefines
import EmbeddedCourse.Directory.TableRefines
import EmbeddedCourse.Lib.Run

/-! # The two directories agree

Both directories are given the same operations. Each of them refines a list of
records, so as long as the records fit the array directory they hold the same
records and report the same.
-/

namespace EmbeddedCourse.Directory

open CString

/-- Both directories after the same operations, `none` once an operation has
not returned, and what both have reported, operation by operation. -/
structure Both where
  array : Option (List Table.Abonent)
  nodes : Option Chain.Abonent
  reports : List (Option Report × Option Report)

/-- An operation; where `malloc` puts a new node, and what the two programs'
buffers hold when the input ends. -/
structure Move where
  op : Op
  new : Chain.Addr
  stale : Record
  stale' : Record
deriving DecidableEq, Repr

namespace Both

def init : Both := { array := some Table.init, nodes := some Chain.init, reports := [] }

/-- The operation on both directories. -/
def step (fuel : ℕ) (s : Both) (m : Move) : Option Both :=
  let a := s.array.bind fun array => Table.perform m.stale array m.op
  let n := s.nodes.bind fun nodes => Chain.perform fuel m.new m.stale' nodes m.op
  some
    { array := a.map Prod.snd
      nodes := n.map Prod.snd
      reports := s.reports ++ [(a.bind fun x => x.1.report, n.bind fun x => x.1.report)] }

/-- The fields and names fit, `malloc` returns an address not in use, and no
more than 99 records are held afterwards. -/
def Admissible (s : Both) (m : Move) : Prop :=
  m.op.Fits 9 ∧ (∀ nodes ∈ s.nodes, nodes.heap m.new = none) ∧
    (m.op.isInsert → ∀ array ∈ s.array, Table.findFreeIndex array < 99)

instance (s : Both) (m : Move) : Decidable (Admissible s m) := inferInstanceAs (Decidable (_ ∧ _ ∧ _))

/-- Both directories are there, and hold and have reported the same. -/
def Agree (fuel : ℕ) (s : Both) : Prop :=
  (∃ array nodes, s.array = some array ∧ s.nodes = some nodes ∧
    Chain.listing nodes.heap fuel nodes.node = some (Table.listing array)) ∧
      ∀ rep ∈ s.reports, rep.1 = rep.2

/-- Both directories are the list `L`. -/
structure Related (L : List Record) (s : Both) : Prop where
  array : s.array = some (Table.table L)
  nodes : ∃ nodes xs, s.nodes = some nodes ∧ Chain.Holds nodes xs ∧ xs.map Prod.snd = L
  reports : ∀ rep ∈ s.reports, rep.1 = rep.2
  fits : ∀ r ∈ L, r.Fits 9
  room : L.length ≤ 99

variable {L : List Record} {s : Both} {m : Move} {fuel : ℕ}

theorem Related.init : Related [] Both.init where
  array := rfl
  nodes := ⟨Chain.init, [], rfl, Chain.Holds.init, rfl⟩
  reports := by simp [Both.init]
  fits := by simp
  room := by simp

/-- The records that an operation leaves fit as well. -/
theorem fits_apply {n : ℕ} {op : Op} (hL : ∀ r ∈ L, r.Fits n) (hop : op.Fits n) :
    ∀ r ∈ op.apply L, r.Fits n := by
  intro r hr
  cases op with
  | insert r' =>
    rcases List.mem_append.mp hr with hr | hr
    · exact hL r hr
    · obtain rfl := List.mem_singleton.mp hr
      exact hop
  | delete t => exact hL r (mem_remove.mp hr).1
  | search t => exact hL r hr

theorem Related.step (h : Related L s) (hfuel : 100 ≤ fuel) (hok : Admissible s m) {s' : Both}
    (hs : s.step fuel m = some s') : Related (m.op.apply L) s' := by
  rcases hok with ⟨hop, hfresh, hroom⟩
  rcases h.nodes with ⟨nodes, xs, hnodes, hholds, rfl⟩
  have h99 := h.room
  have hlen : xs.length ≤ 99 := by simpa using h99
  have hmax : (xs.map Prod.snd).length < Table.maxLen := by
    rw [Table.maxLen]
    omega
  -- each directory refines the list on its own; the list is what they share
  rcases Table.perform_table h.fits hmax hop m.stale with ⟨answer, hperf, hrep⟩
  obtain ⟨answer', nodes', xs', hperf', hholds', hmap, hrep'⟩ := Chain.perform_holds hop hholds
    (by omega) (show xs.length < fuel by omega) (hfresh nodes hnodes) m.stale'
  obtain rfl := Option.some.inj hs
  rw [h.array, hnodes]
  simp only [Option.bind_some, hperf, hperf', Option.map_some]
  refine ⟨rfl, ⟨nodes', xs', rfl, hholds', hmap⟩, ?_, fits_apply h.fits hop, ?_⟩
  · intro rep hmem
    rcases List.mem_append.mp hmem with hmem | hmem
    · exact h.reports rep hmem
    · obtain rfl := List.mem_singleton.mp hmem
      exact hrep.trans hrep'.symm
  · cases hcase : m.op with
    | insert r =>
      have hfree := hroom (by rw [hcase]; rfl) _ h.array
      rw [Table.findFreeIndex_table h.fits (by rw [Table.maxLen]; omega)] at hfree
      rw [Op.apply, List.length_append, List.length_singleton]
      omega
    | delete t => exact (length_remove_le _ t).trans h99
    | search t => exact h99

theorem Related.agree (h : Related L s) (hfuel : 100 ≤ fuel) : Agree fuel s := by
  rcases h.nodes with ⟨nodes, xs, hnodes, hholds, rfl⟩
  have h99 := h.room
  have hlen : xs.length ≤ 99 := by simpa using h99
  refine ⟨⟨_, nodes, h.array, hnodes, ?_⟩, h.reports⟩
  rw [Table.listing_table h.fits (by rw [Table.maxLen]; omega), hholds.node,
    Chain.listing_eq (l := []) hholds.linked (by omega)]

end Both

/-- After every sequence of operations both directories hold the same records in
the same order, and every search has reported the same in both. -/
theorem directories_agree {fuel : ℕ} (hfuel : 100 ≤ fuel) (ms : List Move) (s : Both)
    (h : Machine.Run (Both.step fuel) Both.Admissible Both.init ms s) : Both.Agree fuel s := by
  obtain ⟨L, hrel⟩ : ∃ L, Both.Related L s :=
    h.invariant (fun s => ∃ L, Both.Related L s) ⟨[], Both.Related.init⟩
      fun _ _ _ ⟨_, hrel⟩ hok hs => ⟨_, hrel.step hfuel hok hs⟩
  exact hrel.agree hfuel

/-- Two subscribers of one name around another one; the name is deleted. -/
def someMoves : List Move :=
  let anton : Record := ⟨ascii ['A', 'n', 't', 'o', 'n'], ascii ['I'], ascii ['1']⟩
  let petr : Record := ⟨ascii ['P', 'e', 't', 'r'], ascii ['S'], ascii ['2']⟩
  let none : Record := ⟨[], [], []⟩
  [⟨.insert anton, 1, none, none⟩, ⟨.insert petr, 2, none, none⟩, ⟨.insert anton, 3, none, none⟩,
    ⟨.search petr.name, 0, none, none⟩, ⟨.delete anton.name, 0, none, none⟩,
    ⟨.search petr.name, 0, none, none⟩, ⟨.search anton.name, 0, none, none⟩]

theorem directories_agree_some :
    ∃ s, Machine.Run (Both.step 100) Both.Admissible Both.init someMoves s ∧ Both.Agree 100 s ∧
      s.reports.length = 7 := by
  have hrun : (Machine.exec (Machine.guarded (Both.step 100) Both.Admissible) Both.init
      someMoves).map (fun s => s.reports.length) = some 7 := by
    decide +kernel
  rcases Machine.Run.exists_of_exec hrun with ⟨s, hrun, hlen⟩
  exact ⟨s, hrun, directories_agree (by decide) _ s hrun, hlen⟩

end EmbeddedCourse.Directory
