import Mathlib.Data.List.Basic
import Mathlib.Data.List.Nodup

/-! # Lists with keys

A table that is searched from its start by a key. With distinct keys it is a
map: what is found under a key is the entry with it, wherever it stands.
-/

namespace EmbeddedCourse.Keyed

variable {α κ : Type*} [DecidableEq κ] (key : α → κ)

/-- The first entry with the key. -/
def lookup (k : κ) (L : List α) : Option α := L.find? fun c => key c = k

theorem lookup_append (k : κ) (A B : List α) :
    lookup key k (A ++ B) = (lookup key k A).or (lookup key k B) := List.find?_append

theorem lookup_eq_none_iff {k : κ} {L : List α} : lookup key k L = none ↔ k ∉ L.map key := by
  simp [lookup]

/-- An entry of another key does not matter. -/
theorem lookup_skip {k : κ} {c : α} (h : key c ≠ k) (A B : List α) :
    lookup key k (A ++ c :: B) = lookup key k (A ++ B) := by
  rw [lookup_append, lookup_append]
  simp [lookup, h]

/-- The first entry of the key is found. -/
theorem lookup_middle {k : κ} {A : List α} (hA : k ∉ A.map key) {c : α} (hc : key c = k)
    (B : List α) : lookup key k (A ++ c :: B) = some c := by
  rw [lookup_append, (lookup_eq_none_iff key).mpr hA]
  simp [lookup, hc]

/-- What an entry changes, when none in front of it has its key. -/
theorem lookup_insert {A : List α} {c : α} (hA : key c ∉ A.map key) (B : List α) (k : κ) :
    lookup key k (A ++ c :: B) = if key c = k then some c else lookup key k (A ++ B) := by
  split_ifs with hk
  · exact lookup_middle key (hk ▸ hA) hk B
  · exact lookup_skip key hk A B

/-- Under its own key an entry is found, when the keys are distinct. -/
theorem lookup_of_mem {L : List α} (hnd : (L.map key).Nodup) {c : α} (hc : c ∈ L) :
    lookup key (key c) L = some c := by
  rcases List.append_of_mem hc with ⟨A, B, rfl⟩
  rw [List.map_append, List.map_cons, List.nodup_middle, List.nodup_cons] at hnd
  exact lookup_middle key (fun hmem => hnd.1 (List.mem_append_left _ hmem)) rfl B

/-- Where the first entry with the key stands, and the table around it. -/
theorem findIdx_cases (k : κ) (L : List α) :
    (L.findIdx? (fun c => key c = k) = none ∧ k ∉ L.map key) ∨
    ∃ A c B, L = A ++ c :: B ∧ key c = k ∧ k ∉ A.map key ∧
      L.findIdx? (fun c => key c = k) = some A.length := by
  induction L with
  | nil => exact Or.inl ⟨rfl, by simp⟩
  | cons x L ih =>
    by_cases hx : key x = k
    · exact Or.inr ⟨[], x, L, rfl, hx, by simp, by simp [List.findIdx?_cons, hx]⟩
    · rcases ih with ⟨hnone, hout⟩ | ⟨A, c, B, rfl, hc, hA, hsome⟩
      · refine Or.inl ⟨by simp [List.findIdx?_cons, hx, hnone], ?_⟩
        rw [List.map_cons, List.mem_cons]
        rintro (he | hmem)
        · exact hx he.symm
        · exact hout hmem
      · refine Or.inr ⟨x :: A, c, B, rfl, hc, ?_, by simp [List.findIdx?_cons, hx, hsome]⟩
        rw [List.map_cons, List.mem_cons]
        rintro (he | hmem)
        · exact hx he.symm
        · exact hA hmem

end EmbeddedCourse.Keyed
