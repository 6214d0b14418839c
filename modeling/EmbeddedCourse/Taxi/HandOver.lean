import EmbeddedCourse.Taxi.Server

/-! # A task that is not handed over

What `send_task` leaves in the table when no message is put on the queue.
-/

namespace EmbeddedCourse.Taxi

/-- With distinct pids the first driver with the pid is the only one. -/
theorem change_eq_map (f : Driver → Driver) (pid : Int) {drivers : List Driver}
    (hnd : (drivers.map Driver.pid).Nodup) :
    change pid f drivers = drivers.map fun d => if d.pid = pid then f d else d := by
  induction drivers with
  | nil => rfl
  | cons d drivers ih =>
    rw [List.map_cons, List.nodup_cons] at hnd
    rw [change, List.map_cons]
    by_cases hd : d.pid = pid
    · have hrest : drivers.map (fun d => if d.pid = pid then f d else d) = drivers := by
        have hother : ∀ x ∈ drivers, (if x.pid = pid then f x else x) = id x := by
          intro x hx
          apply if_neg
          intro hxp
          exact hnd.1 (List.mem_map.mpr ⟨x, hx, hxp.trans hd.symm⟩)
        rw [List.map_congr_left hother, List.map_id]
      rw [if_pos hd, if_pos hd, hrest]
    · rw [if_neg hd, if_neg hd, ih hnd.2]

/-- Without a message on the queue the table is as it was; with one the addressed driver,
who was free, is busy with the timer, and all others are as they were. -/
def TableKept (pid taskTimer : Int) (drivers : List Driver)
    (after : List Driver × Option Message) : Prop :=
  (after.2 = none → after.1 = drivers) ∧
    (after.2 ≠ none →
      (∃ d ∈ drivers, d.pid = pid ∧ d.isBusy = false) ∧
        after.1 = drivers.map fun d =>
          if d.pid = pid then { pid := pid, isBusy := true, taskTimer := taskTimer } else d)

/-- The table is kept exactly where `msgsnd` succeeds, or there is no free driver with
the pid to send a task to. -/
theorem sendTask_tableKept_iff {drivers : List Driver} (hnd : (drivers.map Driver.pid).Nodup)
    (pid taskTimer unwritten : Int) (sent : Bool) :
    TableKept pid taskTimer drivers (sendTask pid taskTimer unwritten sent drivers).2 ↔
      sent = true ∨ ∀ d ∈ drivers, d.pid = pid → d.isBusy = true := by
  by_cases hfree : ∃ d ∈ drivers, d.pid = pid ∧ d.isBusy = false
  · have hfree' := hfree
    rcases hfree with ⟨d, hd, rfl, hidle⟩
    have hsend : (sendTask d.pid taskTimer unwritten sent drivers).2 =
        (change d.pid (fun d => { d with isBusy := true, taskTimer := taskTimer }) drivers,
          if sent then some { mtype := d.pid, time := taskTimer, pid := unwritten } else none) := by
      unfold sendTask
      rw [find_of_mem hnd hd]
      simp [hidle]
    rw [hsend, change_eq_map _ _ hnd]
    cases sent with
    | true =>
      constructor
      · intro _
        exact Or.inl rfl
      · intro _
        refine ⟨by simp, fun _ => ⟨hfree', ?_⟩⟩
        apply List.map_congr_left
        intro x _
        split_ifs with hx
        · rw [← hx]
        · rfl
    | false =>
      constructor
      · intro h
        have hsame := h.1 rfl
        -- the free driver is busy in the new table
        have hmem : { d with isBusy := true, taskTimer := taskTimer } ∈ drivers := by
          rw [← hsame]
          exact List.mem_map.mpr ⟨d, hd, if_pos rfl⟩
        have hfind := find_of_mem hnd hmem
        rw [find_of_mem hnd hd, Option.some_inj] at hfind
        rw [hfind] at hidle
        exact absurd hidle (by simp)
      · rintro (h | h)
        · exact absurd h (by simp)
        · exact absurd (h d hd rfl) (by simp [hidle])
  · have hkept : (sendTask pid taskTimer unwritten sent drivers).2 = (drivers, none) := by
      rcases sendTask_cases pid taskTimer unwritten sent drivers with hsame | ⟨d, hfind, hidle, -⟩
      · exact hsame
      · have hpid : d.pid = pid := by simpa using List.find?_some hfind
        exact absurd ⟨d, List.mem_of_find?_eq_some hfind, hpid, hidle⟩ hfree
    rw [hkept]
    constructor
    · intro _
      refine Or.inr ?_
      intro d hd hpid
      by_contra hbusy
      exact hfree ⟨d, hd, hpid, Bool.eq_false_iff.mpr hbusy⟩
    · intro _
      exact ⟨fun _ => rfl, fun h => absurd rfl h⟩

theorem sendTask_tableKept_two :
    TableKept 7 3 [⟨5, true, 2⟩, ⟨7, false, 0⟩]
        (sendTask 7 3 0 true [⟨5, true, 2⟩, ⟨7, false, 0⟩]).2 ∧
    TableKept 5 3 [⟨5, true, 2⟩, ⟨7, false, 0⟩]
        (sendTask 5 3 0 false [⟨5, true, 2⟩, ⟨7, false, 0⟩]).2 :=
  ⟨(sendTask_tableKept_iff (by decide) 7 3 0 true).mpr (Or.inl rfl),
    (sendTask_tableKept_iff (by decide) 5 3 0 false).mpr (Or.inr (by decide))⟩

/-- A free driver stays busy with a task that was not sent. -/
theorem sendTask_unsent : ¬ TableKept 7 3 [⟨7, false, 0⟩] (sendTask 7 3 0 false [⟨7, false, 0⟩]).2 := by
  intro h
  exact absurd (h.1 rfl) (by decide)

end EmbeddedCourse.Taxi
