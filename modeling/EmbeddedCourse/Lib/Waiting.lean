import EmbeddedCourse.Lib.Run

/-! # Bounded waiting

A server among other labels: `count` is what it has done, and `wait` how many of
its own steps may pass until it has done the next. If the other labels cannot put
it off, what is asked for is done after a number of own steps that does not depend
on them, in any run.
-/

namespace EmbeddedCourse.Machine

variable {σ ι : Type*}

/-- Until `target` is reached every own step comes nearer to the next count, at which the
wait starts again with at most `cycle`. -/
structure Waits (step : σ → ι → Option σ) (ok : σ → ι → Prop) (own : ι → Prop) (inv : σ → Prop)
    (count wait : σ → ℕ) (cycle target : ℕ) : Prop where
  keep : ∀ s l s', inv s → ok s l → step s l = some s' → inv s'
  pos : ∀ s, inv s → count s < target → 0 < wait s
  mono : ∀ s l s', inv s → ok s l → step s l = some s' → count s ≤ count s'
  near : ∀ s l s', inv s → ok s l → step s l = some s' → own l → count s < target →
    (count s' = count s ∧ wait s' + 1 ≤ wait s) ∨ (count s' = count s + 1 ∧ wait s' ≤ cycle)
  other : ∀ s l s', inv s → ok s l → step s l = some s' → ¬ own l → count s < target →
    count s' = count s ∧ wait s' ≤ wait s

variable {step : σ → ι → Option σ} {ok : σ → ι → Prop} {own : ι → Prop} [DecidablePred own]
  {inv : σ → Prop} {count wait : σ → ℕ} {cycle target : ℕ} {s₀ s : σ} {ls : List ι}

/-- The own steps so far and those that may still pass are no more than at the start. -/
theorem Waits.budget (h : Waits step ok own inv count wait cycle target) (hinv : inv s₀)
    (hrun : Run step ok s₀ ls s) :
    inv s ∧ (target ≤ count s ∨ ls.countP own + wait s + cycle * (target - 1 - count s) ≤
      wait s₀ + cycle * (target - 1 - count s₀)) := by
  induction hrun with
  | init => exact ⟨hinv, Or.inr (by simp)⟩
  | @step ls s l s' _ hok hs ih =>
    rcases ih with ⟨hinv, ih⟩
    refine ⟨h.keep s l s' hinv hok hs, ?_⟩
    by_cases hdone : target ≤ count s
    · exact Or.inl (Nat.le_trans hdone (h.mono s l s' hinv hok hs))
    · have hlt : count s < target := Nat.lt_of_not_le hdone
      have hbudget := ih.resolve_left hdone
      have hpos := h.pos s hinv hlt
      by_cases hown : own l
      · have hcount : (ls ++ [l]).countP own = ls.countP own + 1 := by
          rw [List.countP_append, List.countP_singleton, if_pos (by simpa using hown)]
        rw [hcount]
        rcases h.near s l s' hinv hok hs hown hlt with ⟨hsame, hless⟩ | ⟨hnext, hcycle⟩
        · right
          rw [hsame]
          omega
        · -- one is done, and the wait starts again
          by_cases hlast : target ≤ count s + 1
          · exact Or.inl (hnext ▸ hlast)
          · right
            have hk : target - 1 - count s = (target - 1 - count s') + 1 := by omega
            rw [hk, Nat.mul_add, Nat.mul_one] at hbudget
            omega
      · have hcount : (ls ++ [l]).countP own = ls.countP own := by
          rw [List.countP_append, List.countP_singleton, if_neg (by simpa using hown)]
          rfl
        rcases h.other s l s' hinv hok hs hown hlt with ⟨hsame, hle⟩
        right
        rw [hcount, hsame]
        omega

/-- After enough own steps the target is reached. -/
theorem Waits.reached (h : Waits step ok own inv count wait cycle target) (hinv : inv s₀)
    (hrun : Run step ok s₀ ls s)
    (hlong : wait s₀ + cycle * (target - 1 - count s₀) ≤ ls.countP own) : target ≤ count s := by
  rcases h.budget hinv hrun with ⟨hinv', hdone | hbudget⟩
  · exact hdone
  · by_contra hnot
    have hpos := h.pos s hinv' (Nat.lt_of_not_le hnot)
    omega

end EmbeddedCourse.Machine
