import EmbeddedCourse.Lib.CString
import Mathlib.Data.List.InsertIdx
import Mathlib.Data.List.Nodup

/-! # The table of registered clients

Both chats (System V queues and shared memory) keep the registered clients in
`struct infoClients infCl[SIZE_CLIENTS]` with a separate counter, look a client
up with `find_name_client`, and take a client out by shifting the rest of the
table one cell to the left. Servers and clients run the same loops on their own
copies, so the table and its abstraction (`Roster.Holds`, a list of members)
are shared here.

Cells are addressed by C `int`s. A read outside `infCl[0 .. SIZE_CLIENTS)`
yields an arbitrary cell `past`, a parameter of the operation; a write outside
hits memory that is not part of the table.
-/

namespace EmbeddedCourse.Chat

open CString

/-- `SIZE_CLIENTS`. -/
def sizeClients : ℕ := 10

/-- `struct infoClients`: `char name[20]` and the process id. -/
structure InfoClients where
  name : Bytes
  pid : Int
deriving DecidableEq, Repr

/-- A table and its counter. -/
structure Roster where
  infCl : List InfoClients
  sizeInfcl : Int
deriving DecidableEq, Repr

/-- The read `infCl[i]`. -/
def cell (past : InfoClients) (infCl : List InfoClients) (i : Int) : InfoClients :=
  if 0 ≤ i then infCl.getD i.toNat past else past

/-- The write `infCl[i] = c`. -/
def setCell (infCl : List InfoClients) (i : Int) (c : InfoClients) : List InfoClients :=
  if 0 ≤ i then infCl.set i.toNat c else infCl

/-- `find_name_client`: the first of the `size` cells with this pid, or `-1`. -/
def findNameClient (infCl : List InfoClients) (pid size : Int) : Int :=
  match (infCl.take size.toNat).findIdx? fun c => c.pid = pid with
  | some i => i
  | none => -1

/-- `n` rounds of `infCl[i] = infCl[i + 1]`, `i` going up. -/
def shiftLeft (past : InfoClients) (infCl : List InfoClients) (i : Int) : ℕ → List InfoClients
  | 0 => infCl
  | n + 1 => shiftLeft past (setCell infCl i (cell past infCl (i + 1))) (i + 1) n

namespace Roster

/-- Write a cell behind the registered ones and count it. -/
def append (r : Roster) (c : InfoClients) : Roster :=
  { infCl := setCell r.infCl r.sizeInfcl c, sizeInfcl := r.sizeInfcl + 1 }

/-- The leave branch: shift from `idx` up to the counter, unless `idx` is the
last registered cell, and count down. -/
def removeAt (past : InfoClients) (r : Roster) (idx : Int) : Roster :=
  { infCl :=
      if idx + 1 < r.sizeInfcl then
        shiftLeft past r.infCl idx (r.sizeInfcl - idx).toNat
      else r.infCl
    sizeInfcl := r.sizeInfcl - 1 }

/-- The registered cells. -/
def cells (r : Roster) : List InfoClients := r.infCl.take r.sizeInfcl.toNat

end Roster

/-! ## The shift loop -/

@[simp] theorem length_setCell (infCl : List InfoClients) (i : Int) (c : InfoClients) :
    (setCell infCl i c).length = infCl.length := by
  unfold setCell
  split_ifs <;> simp

@[simp] theorem length_shiftLeft (past : InfoClients) (infCl : List InfoClients) (i : Int) (n : ℕ) :
    (shiftLeft past infCl i n).length = infCl.length := by
  induction n generalizing infCl i with
  | zero => rfl
  | succ n ih => rw [shiftLeft, ih, length_setCell]

@[simp] theorem setCell_natCast (infCl : List InfoClients) (i : ℕ) (c : InfoClients) :
    setCell infCl i c = infCl.set i c := by
  simp [setCell]

theorem cell_natCast (past : InfoClients) (infCl : List InfoClients) (i : ℕ) :
    cell past infCl i = infCl.getD i past := by
  simp [cell]

/-- Cell `j` after the loop holds the old cell `j + 1` when the loop passed it;
reading ahead of the writes, the loop only ever moves old values. -/
theorem getElem?_shiftLeft (past : InfoClients) (infCl : List InfoClients) (i n j : ℕ)
    (hj : j < infCl.length) :
    (shiftLeft past infCl i n)[j]? =
      if i ≤ j ∧ j < i + n then some (infCl.getD (j + 1) past) else infCl[j]? := by
  induction n generalizing infCl i with
  | zero =>
    have hno : ¬ (i ≤ j ∧ j < i + 0) := by omega
    rw [if_neg hno]
    rfl
  | succ n ih =>
    have hcast : ((i : Int) + 1) = ((i + 1 : ℕ) : Int) := by simp
    rw [shiftLeft, setCell_natCast, hcast, cell_natCast, ih _ _ (by simpa using hj)]
    by_cases hij : i = j
    · -- the first round writes this cell, later rounds are past it
      subst hij
      rw [if_neg (by omega), if_pos (by omega)]
      simp [hj]
    · have hget : (infCl.set i (infCl.getD (i + 1) past))[j]? = infCl[j]? :=
        List.getElem?_set_ne hij
      by_cases hlt : i ≤ j
      · have hne : i ≠ j + 1 := by omega
        rw [hget]
        simp only [List.getD_eq_getElem?_getD, List.getElem?_set_ne hne]
        congr 1
        simp only [eq_iff_iff]
        omega
      · rw [if_neg (by omega), if_neg (by omega), hget]

/-- A shift that starts in front of the table does nothing there. -/
theorem shiftLeft_neg_one (past : InfoClients) (infCl : List InfoClients) (n : ℕ) :
    shiftLeft past infCl (-1) (n + 1) = shiftLeft past infCl 0 n := by
  rw [shiftLeft]
  rfl

/-- Shifting from `i` to the counter takes cell `i` out of the first `k + 1` cells. -/
theorem take_shiftLeft (past : InfoClients) {infCl : List InfoClients} {i k : ℕ}
    (hi : i ≤ k) (hk : k < infCl.length) :
    (shiftLeft past infCl i (k + 1 - i)).take k = (infCl.take (k + 1)).eraseIdx i := by
  apply List.ext_getElem?
  intro j
  rw [List.getElem?_take, List.getElem?_eraseIdx]
  by_cases hj : j < k
  · rw [if_pos hj, getElem?_shiftLeft _ _ _ _ _ (by omega)]
    by_cases hij : j < i
    · rw [if_neg (by omega), if_pos hij, List.getElem?_take_of_lt (by omega)]
    · rw [if_pos (by omega), if_neg hij, List.getElem?_take_of_lt (by omega),
        List.getD_eq_getElem?_getD, List.getElem?_eq_getElem (by omega), Option.getD_some]
  · rw [if_neg hj]
    have hlen : (infCl.take (k + 1)).length = k + 1 := by simp; omega
    split_ifs with hij
    · omega
    · rw [List.getElem?_eq_none (by omega)]

/-! ## The table as a list of members -/

/-- A registered client as the chat sees it: its pid and its name, cut at 19 bytes. -/
abbrev Member := Int × Bytes

/-- Byte 20 of the field is not compared: `strncpy` of a client never writes it, so
there it is whatever was in the cell before. -/
def InfoClients.member (c : InfoClients) : Member := (c.pid, cstr (c.name.take 19))

/-- The members in table order. -/
def Roster.members (r : Roster) : List Member := r.cells.map InfoClients.member

/-- The table is the list `L` of members. -/
structure Roster.Holds (r : Roster) (L : List Member) : Prop where
  length : r.infCl.length = sizeClients
  size : r.sizeInfcl = L.length
  fits : L.length ≤ sizeClients
  members : r.members = L

theorem neg_one_le_findNameClient (infCl : List InfoClients) (pid size : Int) :
    -1 ≤ findNameClient infCl pid size := by
  unfold findNameClient
  split <;> omega

namespace Roster

variable {r : Roster} {L : List Member}

/-- The cell that is looked up for a registered pid is the first one with it. -/
theorem cell_of_find {pid : Int} {c : InfoClients} (h : (r.cells.find? fun c => c.pid = pid) = some c)
    (past : InfoClients) : cell past r.infCl (findNameClient r.infCl pid r.sizeInfcl) = c := by
  rcases List.find?_eq_some_iff_getElem.mp h with ⟨hpid, i, hi, hget, hmin⟩
  have hcell : (r.cells.findIdx? fun c => c.pid = pid) = some i := by
    rw [List.findIdx?_eq_some_iff_getElem]
    refine ⟨hi, by rwa [hget], ?_⟩
    intro j hj
    simpa using hmin j hj
  have hidx : ((r.infCl.take r.sizeInfcl.toNat).findIdx? fun c => c.pid = pid) = some i := hcell
  have hcells : r.cells[i]? = some c := by rw [List.getElem?_eq_getElem hi, hget]
  have hinfCl : r.infCl[i]? = some c := by
    unfold Roster.cells at hcells
    rw [List.getElem?_take] at hcells
    split_ifs at hcells
    exact hcells
  rw [findNameClient, hidx]
  dsimp only
  rw [cell_natCast, List.getD_eq_getElem?_getD, hinfCl, Option.getD_some]

theorem Holds.cells_length (h : r.Holds L) : r.cells.length = L.length := by
  rw [← h.members, Roster.members, List.length_map]

theorem Holds.map_pid (h : r.Holds L) : r.cells.map InfoClients.pid = L.map Prod.fst := by
  rw [← h.members, Roster.members, List.map_map]
  rfl

/-- The counter has room exactly when the list does. -/
theorem Holds.size_lt (h : r.Holds L) : r.sizeInfcl < sizeClients ↔ L.length < sizeClients := by
  rw [h.size]
  exact Int.ofNat_lt

/-- A cell written behind the registered ones becomes the last of them. -/
theorem cells_append (hnonneg : 0 ≤ r.sizeInfcl) (hsize : r.sizeInfcl < r.infCl.length)
    (c : InfoClients) : (r.append c).cells = r.cells ++ [c] := by
  rcases Int.eq_ofNat_of_zero_le hnonneg with ⟨n, hn⟩
  have hnat : (r.sizeInfcl + 1).toNat = n + 1 := by omega
  rw [Roster.cells, Roster.append, hnat, Roster.cells, hn, Int.toNat_natCast, setCell_natCast,
    Cells.take_set_succ (by omega)]

theorem Holds.cells_append (h : r.Holds L) (hroom : L.length < sizeClients) (c : InfoClients) :
    (r.append c).cells = r.cells ++ [c] := by
  have hlen := h.length
  have hsize := h.size
  exact Roster.cells_append (by omega) (by omega) c

theorem Holds.append (h : r.Holds L) (hroom : L.length < sizeClients) (c : InfoClients) :
    (r.append c).Holds (L ++ [c.member]) where
  length := by simp [Roster.append, h.length]
  size := by simp [Roster.append, h.size]
  fits := by
    rw [List.length_append, List.length_singleton]
    exact hroom
  members := by
    rw [Roster.members, h.cells_append hroom, List.map_append, ← h.members]
    rfl

/-- Looking up a pid in the table is looking it up in the list. -/
theorem Holds.findNameClient_eq (h : r.Holds L) (pid : Int) :
    findNameClient r.infCl pid r.sizeInfcl =
      match L.findIdx? fun m => m.1 = pid with
      | some i => (i : Int)
      | none => -1 := by
  have hfind : (r.cells.findIdx? fun c => c.pid = pid) = L.findIdx? fun m => m.1 = pid := by
    rw [← h.members, Roster.members, List.findIdx?_map]
    rfl
  rw [findNameClient, ← hfind]
  rfl

/-- Nobody is found, or the cell of a member. -/
theorem Holds.find_cases (h : r.Holds L) (pid : Int) :
    findNameClient r.infCl pid r.sizeInfcl = -1 ∧ pid ∉ L.map Prod.fst ∨
    ∃ i, i < L.length ∧ (L.findIdx? fun m => m.1 = pid) = some i ∧
      findNameClient r.infCl pid r.sizeInfcl = i := by
  rw [h.findNameClient_eq pid]
  cases hf : L.findIdx? fun m => decide (m.1 = pid) with
  | none =>
    left
    refine ⟨rfl, ?_⟩
    intro hp
    rw [List.findIdx?_eq_none_iff] at hf
    rcases List.mem_map.mp hp with ⟨m, hm, rfl⟩
    simpa using hf m hm
  | some i =>
    rcases List.findIdx?_eq_some_iff_getElem.mp hf with ⟨hi, -⟩
    exact Or.inr ⟨i, hi, rfl, rfl⟩

theorem Holds.find_of_mem (h : r.Holds L) {pid : Int} (hp : pid ∈ L.map Prod.fst) :
    ∃ i, i < L.length ∧ (L.findIdx? fun m => m.1 = pid) = some i ∧
      findNameClient r.infCl pid r.sizeInfcl = i := by
  rcases h.find_cases pid with ⟨-, hnot⟩ | hfound
  · exact absurd hp hnot
  · exact hfound

theorem Holds.removeAt (h : r.Holds L) (past : InfoClients) {i : ℕ} (hi : i < L.length) :
    (r.removeAt past i).Holds (L.eraseIdx i) := by
  have hlen := h.length
  have hsz := h.size
  have hfit := h.fits
  have herase : (L.eraseIdx i).length = L.length - 1 := List.length_eraseIdx_of_lt hi
  refine ⟨?_, ?_, by omega, ?_⟩
  · simp only [Roster.removeAt]
    split_ifs <;> simp [h.length]
  · simp only [Roster.removeAt, herase, hsz]
    omega
  · have hnat : (r.sizeInfcl - 1).toNat = L.length - 1 := by omega
    have hold : r.cells = r.infCl.take (L.length - 1 + 1) := by
      rw [Roster.cells, hsz, Int.toNat_natCast, Nat.sub_add_cancel (by omega)]
    have hmem : L.eraseIdx i = (r.cells.eraseIdx i).map InfoClients.member := by
      rw [← List.eraseIdx_map]
      exact congrArg (fun l => l.eraseIdx i) h.members.symm
    rw [hmem, Roster.members, hold, Roster.cells]
    simp only [Roster.removeAt, hnat]
    congr 1
    split_ifs with hlast
    · have hn : (r.sizeInfcl - i).toNat = L.length - 1 + 1 - i := by omega
      rw [hn, take_shiftLeft past (by omega) (by omega)]
    · -- the last cell leaves by the counter alone
      obtain rfl : i = L.length - 1 := by omega
      have htake : (r.infCl.take (L.length - 1)).length = L.length - 1 :=
        List.length_take_of_le (by omega)
      rw [List.take_succ_eq_append_getElem (by omega), List.eraseIdx_append_of_length_le htake.le,
        htake, Nat.sub_self]
      simp

/-- A leave takes the member with that pid out of the list. -/
theorem Holds.leave (h : r.Holds L) (past : InfoClients) {pid : Int} (hp : pid ∈ L.map Prod.fst) :
    (r.removeAt past (findNameClient r.infCl pid r.sizeInfcl)).Holds
      (L.eraseP fun m => m.1 = pid) := by
  rcases h.find_of_mem hp with ⟨i, hi, hfind, hidx⟩
  rw [hidx, List.eraseP_eq_eraseIdx, hfind]
  exact h.removeAt past hi

/-- Whatever the index was found to be, a leave only drops registered cells. -/
theorem cells_removeAt_sublist (past : InfoClients) {idx : Int} (hidx : -1 ≤ idx)
    (hsize : r.sizeInfcl ≤ r.infCl.length) : (r.removeAt past idx).cells.Sublist r.cells := by
  simp only [Roster.cells, Roster.removeAt]
  split_ifs with hlast
  · -- the loop ran, from the front of the table if nobody was found
    obtain ⟨k, hk⟩ : ∃ k : ℕ, r.sizeInfcl = k + 1 := ⟨(r.sizeInfcl - 1).toNat, by omega⟩
    have hshift : shiftLeft past r.infCl idx (r.sizeInfcl - idx).toNat =
        shiftLeft past r.infCl (idx.toNat : Int) (k + 1 - idx.toNat) := by
      by_cases h0 : 0 ≤ idx
      · have hn : (r.sizeInfcl - idx).toNat = k + 1 - idx.toNat := by omega
        rw [hn, Int.toNat_of_nonneg h0]
      · obtain rfl : idx = -1 := by omega
        have hn : (r.sizeInfcl - -1).toNat = k + 1 + 1 := by omega
        rw [hn, shiftLeft_neg_one]
        rfl
    have hk₁ : (r.sizeInfcl - 1).toNat = k := by omega
    have hk₂ : r.sizeInfcl.toNat = k + 1 := by omega
    rw [hshift, hk₁, hk₂, take_shiftLeft past (by omega) (by omega)]
    exact List.eraseIdx_sublist ..
  · exact List.take_sublist_take_left (by omega)

end Roster

end EmbeddedCourse.Chat
