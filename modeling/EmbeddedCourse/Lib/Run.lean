import Mathlib.Data.List.Basic
import Mathlib.Data.List.Forall2
import Mathlib.Data.List.Induction

/-! # Runs of a labelled machine

A machine is a partial step function over labels; `none` means that the label
is not enabled. A run carries a condition `ok` that each of its steps meets in
the state it starts from, so that the assumptions of a result are conditions
on the run and not on the machine. The rules here are the ones every safety
argument uses: invariant induction, and the split of a run at the first step
that breaks a condition.
-/

namespace EmbeddedCourse.Machine

variable {σ ι : Type*}

/-- `Run step ok s₀ ls s`: the labels `ls` lead from `s₀` to `s`, and each
step meets `ok` where it is taken. -/
inductive Run (step : σ → ι → Option σ) (ok : σ → ι → Prop) (s₀ : σ) : List ι → σ → Prop where
  | init : Run step ok s₀ [] s₀
  | step {ls : List ι} {s : σ} {l : ι} {s' : σ} : Run step ok s₀ ls s → ok s l →
      step s l = some s' → Run step ok s₀ (ls ++ [l]) s'

/-- The states that runs meeting `ok` reach. -/
def Reach (step : σ → ι → Option σ) (ok : σ → ι → Prop) (s₀ s : σ) : Prop :=
  ∃ ls, Run step ok s₀ ls s

variable {step : σ → ι → Option σ} {ok ok' : σ → ι → Prop} {s₀ s : σ} {ls : List ι}

/-- Invariant induction over a run. -/
theorem Run.invariant (inv : σ → Prop) (hinit : inv s₀)
    (hstep : ∀ s l s', inv s → ok s l → step s l = some s' → inv s')
    (h : Run step ok s₀ ls s) : inv s := by
  induction h with
  | init => exact hinit
  | step _ hok hs ih => exact hstep _ _ _ ih hok hs

/-- Invariant induction over the reachable states. -/
theorem Reach.invariant (inv : σ → Prop) (hinit : inv s₀)
    (hstep : ∀ s l s', inv s → ok s l → step s l = some s' → inv s')
    (h : Reach step ok s₀ s) : inv s := by
  rcases h with ⟨ls, hrun⟩
  exact hrun.invariant inv hinit hstep

theorem Run.mono (himp : ∀ s l, ok s l → ok' s l) (h : Run step ok s₀ ls s) :
    Run step ok' s₀ ls s := by
  induction h with
  | init => exact .init
  | step _ hok hs ih => exact ih.step (himp _ _ hok) hs

/-- The last step of a run. -/
theorem Run.of_concat {l : ι} (h : Run step ok s₀ (ls ++ [l]) s) :
    ∃ t, Run step ok s₀ ls t ∧ ok t l ∧ step t l = some s := by
  generalize hks : ls ++ [l] = ks at h
  cases h with
  | init => simp at hks
  | @step ls' t l' _ hr hok hs =>
    rcases List.append_inj' hks rfl with ⟨rfl, hl⟩
    obtain rfl := List.singleton_inj.mp hl
    exact ⟨t, hr, hok, hs⟩

/-- The first part of a run is one. -/
theorem Run.take {ls' : List ι} (h : Run step ok s₀ (ls ++ ls') s) : ∃ t, Run step ok s₀ ls t := by
  induction ls' using List.reverseRecOn generalizing s with
  | nil => exact ⟨s, by simpa using h⟩
  | append_singleton ls' l ih =>
    rw [← List.append_assoc] at h
    rcases h.of_concat with ⟨t, ht, -, -⟩
    exact ih ht

/-- Runs follow one another. -/
theorem Run.append {ls' : List ι} {s' : σ} (h : Run step ok s₀ ls s) (h' : Run step ok s ls' s') :
    Run step ok s₀ (ls ++ ls') s' := by
  induction h' with
  | init => simpa using h
  | step _ hok hs ih =>
    rw [← List.append_assoc]
    exact ih.step hok hs

/-- Simulation. Where a second machine answers each step with steps that keep the two
related, it answers a run with a run. -/
theorem Run.simulates {τ κ : Type*} {next : τ → κ → Option τ} {allowed : τ → κ → Prop} {t₀ : τ}
    (R : σ → τ → Prop) (answers : ι → List κ → Prop) (hinit : R s₀ t₀)
    (hstep : ∀ s l s' t, R s t → ok s l → step s l = some s' →
      ∃ ks t', answers l ks ∧ Run next allowed t ks t' ∧ R s' t')
    (h : Run step ok s₀ ls s) :
    ∃ kss t, List.Forall₂ answers ls kss ∧ Run next allowed t₀ kss.flatten t ∧ R s t := by
  induction h with
  | init => exact ⟨[], t₀, .nil, .init, hinit⟩
  | step _ hok hs ih =>
    rcases ih with ⟨kss, t, hanswers, hrun, hR⟩
    rcases hstep _ _ _ t hR hok hs with ⟨ks, t', hks, hrun', hR'⟩
    refine ⟨kss ++ [ks], t', List.rel_append hanswers (.cons hks .nil), ?_, hR'⟩
    simpa using hrun.append hrun'

/-- The labels of a run determine where it ends. -/
theorem Run.unique {s' : σ} (h : Run step ok s₀ ls s) (h' : Run step ok' s₀ ls s') : s = s' := by
  induction h generalizing s' with
  | init =>
    generalize hks : ([] : List ι) = ks at h'
    cases h' with
    | init => rfl
    | step => simp at hks
  | step _ _ hs ih =>
    rcases h'.of_concat with ⟨t, ht, -, hs'⟩
    obtain rfl := ih ht
    exact Option.some.inj (hs.symm.trans hs')

/-- What every step keeps up with holds between a part of a run and the whole. -/
theorem Run.le_of_prefix (le : σ → σ → Prop) (hrefl : ∀ s, le s s)
    (htrans : ∀ s t u, le s t → le t u → le s u)
    (hstep : ∀ s l s', ok s l → step s l = some s' → le s s') (h : Run step ok s₀ ls s)
    {ls' : List ι} {s' : σ} (hpre : ls' <+: ls) (h' : Run step ok s₀ ls' s') : le s' s := by
  induction h with
  | init =>
    obtain rfl := List.prefix_nil.mp hpre
    have hinit : Run step ok s₀ [] s₀ := .init
    obtain rfl := h'.unique hinit
    exact hrefl _
  | @step ls t l s hr hok hs ih =>
    rcases List.prefix_concat_iff.mp hpre with rfl | hpre
    · obtain rfl := h'.unique (hr.step hok hs)
      exact hrefl _
    · exact htrans _ _ _ (ih hpre) (hstep _ _ _ hok hs)

/-- A run either meets a further condition `c` at every step, or has taken a
step against `c`; if such a step establishes `bad` and every step keeps it,
`bad` holds at the end. -/
theorem Run.all_or_bad (c : σ → ι → Prop) (bad : σ → Prop)
    (hbreak : ∀ s l s' ls, Run step (fun s l => ok s l ∧ c s l) s₀ ls s → ok s l → ¬ c s l →
      step s l = some s' → bad s')
    (hkeep : ∀ s l s' ls, Run step ok s₀ ls s → bad s → ok s l → step s l = some s' → bad s')
    (h : Run step ok s₀ ls s) :
    Run step (fun s l => ok s l ∧ c s l) s₀ ls s ∨ bad s := by
  induction h with
  | init => exact Or.inl .init
  | @step ls s l s' hr hok hs ih =>
    -- once broken, `bad` is kept; until then this step decides
    rcases ih with hall | hbad
    · by_cases hc : c s l
      · exact Or.inl (hall.step ⟨hok, hc⟩ hs)
      · exact Or.inr (hbreak s l s' ls hall hok hc hs)
    · exact Or.inr (hkeep s l s' ls hr hbad hok hs)

/-- Each step of a run meets its condition where it is taken. -/
theorem Run.ok_of_prefix {ls' : List ι} {l : ι} (h : Run step ok s₀ ls s) (hpre : ls' ++ [l] <+: ls) :
    ∃ t, Run step ok s₀ ls' t ∧ ok t l := by
  rcases hpre with ⟨rest, rfl⟩
  rcases h.take with ⟨u, hu⟩
  rcases hu.of_concat with ⟨t, ht, hok, -⟩
  exact ⟨t, ht, hok⟩

/-- A run meets a further condition when each of its steps does. -/
theorem Run.and_of_prefix (c : σ → ι → Prop) (h : Run step ok s₀ ls s)
    (hc : ∀ ls' l t, ls' ++ [l] <+: ls → Run step ok s₀ ls' t → ok t l → c t l) :
    Run step (fun s l => ok s l ∧ c s l) s₀ ls s := by
  induction h with
  | init => exact .init
  | @step ls s l s' hr hok hs ih =>
    have hall := ih fun ls' l' t hpre => hc ls' l' t (hpre.trans (List.prefix_append ls [l]))
    exact hall.step ⟨hok, hc ls l s (List.prefix_refl _) hr hok⟩ hs

/-- Where every step uses something up, a run is no longer than what there is at the start. -/
theorem Run.length_le (inv : σ → ℕ → Prop) {r₀ : ℕ} (hinit : inv s₀ r₀)
    (hstep : ∀ s l s' r, inv s r → ok s l → step s l = some s' → ∃ r' < r, inv s' r')
    (h : Run step ok s₀ ls s) : ∃ r, inv s r ∧ ls.length + r ≤ r₀ := by
  induction h with
  | init => exact ⟨r₀, hinit, by simp⟩
  | step _ hok hs ih =>
    rcases ih with ⟨r, hr, hle⟩
    rcases hstep _ _ _ r hr hok hs with ⟨r', hlt, hr'⟩
    refine ⟨r', hr', ?_⟩
    rw [List.length_append, List.length_singleton]
    omega

/-- `step` restricted to the labels that meet `ok`. -/
def guarded (step : σ → ι → Option σ) (ok : σ → ι → Prop) [∀ s l, Decidable (ok s l)]
    (s : σ) (l : ι) : Option σ :=
  if ok s l then step s l else none

/-- Run a list of labels; `none` when one of them is not enabled. -/
def exec (step : σ → ι → Option σ) (s : σ) (ls : List ι) : Option σ := ls.foldlM step s

theorem exec_concat (ls : List ι) (l : ι) (s : σ) :
    exec step s (ls ++ [l]) = (exec step s ls).bind fun t => step t l := by
  simp [exec]

/-- A loop over an index comes to its end with what each round keeps. -/
theorem exec_range {body : σ → ℕ → Option σ} (P : ℕ → σ → Prop) (m : ℕ)
    (hbody : ∀ k, k < m → ∀ s, P k s → ∃ s', body s k = some s' ∧ P (k + 1) s') (h : P 0 s) :
    ∃ s', exec body s (List.range m) = some s' ∧ P m s' := by
  induction m with
  | zero => exact ⟨s, rfl, h⟩
  | succ m ih =>
    rcases ih fun k hk => hbody k (Nat.lt_succ_of_lt hk) with ⟨t, ht, hP⟩
    rcases hbody m (Nat.lt_succ_self m) t hP with ⟨t', ht', hP'⟩
    refine ⟨t', ?_, hP'⟩
    rw [List.range_succ, exec_concat, ht]
    exact ht'

/-- An executed list of labels is a run. -/
theorem Run.of_exec [∀ s l, Decidable (ok s l)] (hex : exec (guarded step ok) s₀ ls = some s) :
    Run step ok s₀ ls s := by
  -- runs grow at their end, and so does the list here
  induction ls using List.reverseRecOn generalizing s with
  | nil =>
    obtain rfl : s₀ = s := by simpa [exec] using hex
    exact .init
  | append_singleton ls l ih =>
    rw [exec_concat] at hex
    cases hls : exec (guarded step ok) s₀ ls with
    | none => simp [hls] at hex
    | some t =>
      simp only [hls, Option.bind_some, guarded] at hex
      split_ifs at hex with hok
      exact (ih hls).step hok hex

/-- A run and what `f` reads off its last state, by execution. -/
theorem Run.exists_of_exec {β : Type*} {f : σ → β} {b : β} [∀ s l, Decidable (ok s l)]
    (hex : (exec (guarded step ok) s₀ ls).map f = some b) : ∃ s, Run step ok s₀ ls s ∧ f s = b := by
  rcases Option.map_eq_some_iff.mp hex with ⟨s, hs, hf⟩
  exact ⟨s, Run.of_exec hs, hf⟩

end EmbeddedCourse.Machine
