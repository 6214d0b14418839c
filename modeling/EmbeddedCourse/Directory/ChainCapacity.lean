import EmbeddedCourse.Directory.ChainMenu

/-! # How many nodes the linked directory has

`insert_abonent` says that the directory is full with 100 subscribers, and
compares its counter with `>`. It takes in one more at exactly 100, and refuses
the next one.
-/

namespace EmbeddedCourse.Directory.Chain

open CString DLinked

/-- What the message promises over a session: no more than 100 nodes, and an
insert is refused, and changes nothing, exactly when there are 100. -/
structure Capped (fuel : ℕ) (qs : List Request) : Prop where
  nodes : ∀ ls array visited, ls <+: qs → Machine.Run (serve fuel) Admissible init ls array →
    Path array.heap array.node visited → visited.length ≤ 100
  refused : ∀ ls q array visited, ls ++ [q] <+: qs → q.item = .insert →
    Machine.Run (serve fuel) Admissible init ls array → Path array.heap array.node visited →
      ((∃ answer rest, insertAbonent fuel q.new q.stale array q.stdin = some (answer, array, rest) ∧
        answer.code = 1) ↔ visited.length = 100)

/-- No insert with the counter at 100. -/
def Room (array : Abonent) (q : Request) : Prop := q.item = .insert → array.size ≠ 100

instance (array : Abonent) (q : Request) : Decidable (Room array q) := inferInstanceAs (Decidable (_ → _))

variable {h : Heap} {array : Abonent} {xs : List (Addr × Record)} {fuel : ℕ}

theorem Path.unique {p : Option Addr} {as bs : List Addr} (ha : Path h p as) (hb : Path h p bs) :
    as = bs := by
  induction ha generalizing bs with
  | nil =>
    cases hb
    rfl
  | cons hc hpath ih =>
    cases hb with
    | cons hc' hpath' =>
      rw [hc] at hc'
      cases hc'
      rw [ih hpath']

/-- The nodes are counted. -/
theorem Holds.length_visited (ha : Holds array xs) {visited : List Addr}
    (hpath : Path array.heap array.node visited) : visited.length = xs.length := by
  rw [hpath.unique ha.wellFormed.path, List.length_map]

/-- An insert below the limit of the code is not refused. -/
theorem Holds.accepts (ha : Holds array xs) (hlen : xs.length ≤ 100) (hfuel : 102 ≤ fuel) {q : Request}
    (hok : Admissible array q) (hins : q.item = .insert) :
    ¬ ∃ answer rest, insertAbonent fuel q.new q.stale array q.stdin = some (answer, array, rest) ∧
      answer.code = 1 := by
  rintro ⟨answer, rest, hrefused, hcode⟩
  rcases insertAbonent_entered ha hlen (show xs.length < fuel by omega) (hok hins) q.stale q.stdin with
    ⟨array', hentered, -⟩
  rw [hentered] at hrefused
  cases hrefused
  exact absurd hcode (by decide)

/-- Without an insert at 100 the directory stays within its limit. -/
theorem room_holds (hfuel : 102 ≤ fuel) {qs : List Request}
    (hrun : Machine.Run (serve fuel) (fun array q => Admissible array q ∧ Room array q) init qs array) :
    ∃ xs, Holds array xs ∧ xs.length ≤ 100 := by
  apply hrun.invariant fun array => ∃ xs, Holds array xs ∧ xs.length ≤ 100
  · exact ⟨[], Holds.init, by decide⟩
  · rintro array q array' ⟨xs, ha, hlen⟩ ⟨hok, hroom⟩ hserve
    rcases serve_holds ha (show xs.length < fuel by omega) hok with ⟨array'', xs', hserve', ha', hlen'⟩
    obtain rfl : array'' = array' := Option.some.inj (hserve'.symm.trans hserve)
    refine ⟨xs', ha', ?_⟩
    rcases hlen' with hle | ⟨hins, -, hmore⟩
    · omega
    · have hne := hroom hins
      rw [ha.size] at hne
      omega

/-- In every session from the empty directory: it has no more than 100 nodes, and
refuses an insert exactly when it has 100, if and only if no insert is called
with 100 nodes. -/
theorem capped_iff_room (fuel : ℕ) (hfuel : 102 ≤ fuel) (qs : List Request) (array : Abonent)
    (hrun : Machine.Run (serve fuel) Admissible init qs array) :
    Capped fuel qs ↔
      Machine.Run (serve fuel) (fun array q => Admissible array q ∧ Room array q) init qs array := by
  constructor
  · intro hcapped
    apply hrun.and_of_prefix Room
    intro ls q t hpre ht hok hins hfull
    -- an insert at 100 is not refused
    rcases menu_holds hfuel ht with ⟨xs, ha, -⟩
    have hsize := ha.size
    have hlen : xs.length = 100 := by omega
    have hrefused := hcapped.refused ls q t _ hpre hins ht ha.wellFormed.path
    rw [List.length_map] at hrefused
    exact ha.accepts (Nat.le_of_eq hlen) hfuel hok hins (hrefused.mpr hlen)
  · intro hroom
    constructor
    · rintro ls t visited ⟨rest, rfl⟩ ht hpath
      rcases hroom.take with ⟨t', ht'⟩
      obtain rfl := ht.unique ht'
      rcases room_holds hfuel ht' with ⟨xs, ha, hlen⟩
      rw [ha.length_visited hpath]
      exact hlen
    · intro ls q t visited hpre hins ht hpath
      rcases hroom.ok_of_prefix hpre with ⟨t', ht', hok, hne⟩
      obtain rfl := ht.unique ht'
      rcases room_holds hfuel ht' with ⟨xs, ha, hlen⟩
      have hbelow : visited.length ≠ 100 := by
        intro hfull
        rw [ha.length_visited hpath] at hfull
        apply hne hins
        rw [ha.size, hfull]
        rfl
      exact iff_of_false (ha.accepts hlen hfuel hok hins) hbelow

theorem capped_iff_room_some : ∃ array,
    Machine.Run (serve 102) (fun array q => Admissible array q ∧ Room array q) init someRequests
      array ∧ Capped 102 someRequests := by
  have hexec : (Machine.exec (Machine.guarded (serve 102) fun array q =>
      Admissible array q ∧ Room array q) init someRequests).map Abonent.size = some 1 := by
    decide +kernel
  rcases Machine.Run.exists_of_exec hexec with ⟨array, hrun, -⟩
  exact ⟨array, hrun,
    (capped_iff_room 102 (by decide) _ _ (hrun.mono fun _ _ hok => hok.1)).mpr hrun⟩

/-- Inserts one after the other. -/
def manyInserts (n : ℕ) : List Request :=
  (List.range n).map fun i => ⟨.insert, ascii ['A', '\n', 'I', '\n', '1', '\n'], ⟨[], [], []⟩, i⟩

/-- The 101st insert is accepted. -/
theorem manyInserts_not_capped : ∃ array,
    Machine.Run (serve 102) Admissible init (manyInserts 101) array ∧ array.size = 101 ∧
      ¬ Capped 102 (manyInserts 101) := by
  have hrun : (Machine.exec (Machine.guarded (serve 102) Admissible) init (manyInserts 101)).map
      Abonent.size = some 101 := by
    decide +kernel
  rcases Machine.Run.exists_of_exec hrun with ⟨array, hrun, hsize⟩
  refine ⟨array, hrun, hsize, ?_⟩
  intro hcapped
  rcases menu_holds (by decide) hrun with ⟨xs, ha, -⟩
  have hle := hcapped.nodes _ array _ (List.prefix_refl _) hrun ha.wellFormed.path
  rw [List.length_map] at hle
  have hlen := ha.size
  omega

end EmbeddedCourse.Directory.Chain
