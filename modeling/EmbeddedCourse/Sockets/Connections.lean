import EmbeddedCourse.Lib.Keyed
import Mathlib.Data.List.Perm.Basic

/-! # Connections of a server

What `accept` and `close` do to the descriptors of a process. A closed
descriptor may be returned again for a later connection, so a connection is its
descriptor with the number of the `accept`. The servers handle the descriptor
only, and `close` closes whatever is open under it.
-/

namespace EmbeddedCourse.Sockets

structure Connection where
  fd : Int
  number : ℕ
deriving DecidableEq, Repr

/-- What the cells of a zeroed array stand for. -/
def noConnection : Connection := ⟨0, 0⟩

/-- The connections accepted so far, those open, and those closed, with who
closed each of them. -/
structure Kernel (κ : Type) where
  accepted : List Connection
  opened : List Connection
  closed : List (κ × Connection)

namespace Kernel

variable {κ : Type}

def init : Kernel κ := { accepted := [], opened := [], closed := [] }

/-- No connection is open under the descriptor. -/
def Free (k : Kernel κ) (fd : Int) : Prop := fd ∉ k.opened.map Connection.fd

instance (k : Kernel κ) (fd : Int) : Decidable (k.Free fd) := inferInstanceAs (Decidable (¬ _))

/-- The connection that the next `accept` returns as `fd`. -/
def next (k : Kernel κ) (fd : Int) : Connection := ⟨fd, k.accepted.length⟩

def accept (k : Kernel κ) (fd : Int) : Kernel κ :=
  { k with accepted := k.accepted ++ [k.next fd], opened := k.opened ++ [k.next fd] }

/-- `close(fd)`; a descriptor that is not open is an error without an effect. -/
def close (k : Kernel κ) (who : κ) (fd : Int) : Kernel κ :=
  match Keyed.lookup Connection.fd fd k.opened with
  | none => k
  | some c => { k with opened := k.opened.erase c, closed := k.closed ++ [(who, c)] }

@[simp] theorem accepted_close (k : Kernel κ) (who : κ) (fd : Int) :
    (k.close who fd).accepted = k.accepted := by
  unfold close
  split <;> rfl

/-- What `who` has closed, in order. -/
def closedBy [DecidableEq κ] (k : Kernel κ) (who : κ) : List Connection :=
  (k.closed.filter fun e => e.1 = who).map Prod.snd

theorem nodup_of_numbers {k : Kernel κ}
    (h : k.accepted.map Connection.number = List.range k.accepted.length) : k.accepted.Nodup := by
  apply List.Nodup.of_map Connection.number
  rw [h]
  exact List.nodup_range

/-- Accepts are numbered, open descriptors are distinct, and every accepted
connection is either open or closed once. -/
structure Sound (k : Kernel κ) : Prop where
  numbers : k.accepted.map Connection.number = List.range k.accepted.length
  fds : (k.opened.map Connection.fd).Nodup
  parts : k.accepted.Perm (k.opened ++ k.closed.map Prod.snd)

namespace Sound

variable {k : Kernel κ}

theorem init : (init : Kernel κ).Sound where
  numbers := rfl
  fds := List.nodup_nil
  parts := List.Perm.refl _

theorem nodup (h : k.Sound) : k.accepted.Nodup := nodup_of_numbers h.numbers

theorem accept (h : k.Sound) {fd : Int} (free : k.Free fd) : (k.accept fd).Sound where
  numbers := by
    show (k.accepted ++ [k.next fd]).map Connection.number = List.range (k.accepted ++ [k.next fd]).length
    rw [List.map_append, h.numbers, List.length_append, List.length_singleton, List.range_succ]
    rfl
  fds := by
    show ((k.opened ++ [k.next fd]).map Connection.fd).Nodup
    rw [List.map_append, List.map_singleton, ← List.concat_eq_append]
    exact h.fds.concat free
  parts := by
    show (k.accepted ++ [k.next fd]).Perm (k.opened ++ [k.next fd] ++ k.closed.map Prod.snd)
    rw [List.append_assoc]
    refine (h.parts.append_right _).trans ?_
    rw [List.append_assoc]
    exact List.perm_append_comm.append_left _

end Sound

/-- A holder of a connection that is open closes this one. -/
theorem close_of_mem {k : Kernel κ} (h : k.Sound) (who : κ) {c : Connection} (hc : c ∈ k.opened) :
    k.close who c.fd = { k with opened := k.opened.erase c, closed := k.closed ++ [(who, c)] } := by
  rw [close, Keyed.lookup_of_mem Connection.fd h.fds hc]

theorem Sound.close {k : Kernel κ} (h : k.Sound) (who : κ) {c : Connection} (hc : c ∈ k.opened) :
    (k.close who c.fd).Sound := by
  rw [close_of_mem h who hc]
  constructor
  · exact h.numbers
  · exact h.fds.sublist (List.erase_sublist.map Connection.fd)
  · -- the connection moves from the open ones to the closed ones
    refine h.parts.trans ?_
    refine ((List.perm_cons_erase hc).append_right _).trans ?_
    rw [List.map_append, List.map_singleton, ← List.append_assoc, List.cons_append]
    exact (List.perm_append_singleton c _).symm

theorem closedBy_close [DecidableEq κ] {k : Kernel κ} (h : k.Sound) (who w : κ) {c : Connection}
    (hc : c ∈ k.opened) :
    (k.close who c.fd).closedBy w = k.closedBy w ++ if who = w then [c] else [] := by
  rw [close_of_mem h who hc]
  unfold closedBy
  rw [List.filter_append, List.map_append]
  by_cases hw : who = w <;> simp [hw]

end Kernel

end EmbeddedCourse.Sockets
