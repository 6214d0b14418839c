import EmbeddedCourse.Sockets.Listening

/-! # One owner at a time

Every statement of `main` and of the threads keeps the owners of the cells and of
the connections apart, one lemma a statement.
-/

namespace EmbeddedCourse.Listening.Server

open Sockets

variable {s s' : Server} {l : Label} {i : ℕ} {t t' : Thread} {w : Who} {a : ℕ} {fd : Int}

/-! ## The steps of `main` -/

/-- At the start nobody owns anything. -/
theorem init_tended : init.Tended where
  sound := Kernel.Sound.init
  sane := rfl
  cells :=
    { used_iff := by
        intro a
        constructor
        · intro h
          exact absurd rfl h
        · rintro ⟨w, hw⟩
          cases w <;> cases hw
      unique := by
        intro w w' a hw
        cases w <;> cases hw }
  fds :=
    { used_iff := by
        intro fd
        constructor
        · intro h
          cases h
        · rintro ⟨w, hw⟩
          cases w <;> cases hw
      unique := by
        intro w w' fd hw
        cases w <;> cases hw }
  told :=
    { once := List.nodup_nil
      closed := by
        intro i c h
        cases h
      closing := by
        intro i c h
        cases h
      sent := by
        intro c h
        cases h
      refused := by
        intro c h
        cases h }
  mine :=
    { length := rfl
      owned := by
        intro i c h
        cases h
      closed := by
        intro i c h
        cases h
      kept := by
        intro i c h
        cases h }
  cell := by simp [init]

/-- A descriptor that is not open is not that of a thread. -/
theorem Tended.not_mem_fdsOf (h : s.Tended) (hnew : fd ∉ s.kernel.opened.map Connection.fd) (w : Who) :
    fd ∉ s.fdsOf w := fun hown => hnew (h.fds.used_of_owns hown)

/-- A new connection is none that somebody has sent on or is about to close. -/
theorem Tended.told_accept (h : s.Tended) (hge : 0 ≤ fd)
    (hnew : fd ∉ s.kernel.opened.map Connection.fd) {m : Main} :
    ({ s with main := m, kernel := s.kernel.accept fd } : Server).Told where
  once := h.told.once
  closed := h.told.closed
  closing := by
    intro i c hi hc
    rcases List.mem_append.mp hc with hc | hc
    · exact h.told.closing i c hi hc
    · obtain rfl := List.mem_singleton.mp hc
      exact absurd (mem_fdsOf_closing hi hge) (h.not_mem_fdsOf hnew (some i))
  sent := by
    intro c hc
    rcases h.told.sent c hc with hclosed | ⟨hopen, hi⟩
    · exact Or.inl hclosed
    · exact Or.inr ⟨List.mem_append_left _ hopen, hi⟩
  refused := h.told.refused

/-- A new connection is none that a thread was made for. -/
theorem Tended.mine_accept (h : s.Tended) (hnew : fd ∉ s.kernel.opened.map Connection.fd) {m : Main} :
    ({ s with main := m, kernel := s.kernel.accept fd } : Server).Mine where
  length := h.mine.length
  owned := by
    intro i c hc hown
    rcases List.mem_append.mp hc with hc | hc
    · exact h.mine.owned i c hc hown
    · obtain rfl := List.mem_singleton.mp hc
      exact absurd hown (h.not_mem_fdsOf hnew (some i))
  closed := h.mine.closed
  kept := by
    intro i c hmade
    rcases h.mine.kept i c hmade with hclosed | ⟨hopen, hown⟩
    · exact Or.inl hclosed
    · exact Or.inr ⟨List.mem_append_left _ hopen, hown⟩

/-- `accept` returns a descriptor that `main` owns from now on, or -1, which nobody owns. -/
theorem accept_tended (h : s.Tended) (hm : s.main = .accepting)
    (hfree : 0 ≤ fd → s.kernel.Free fd) :
    ({ s with
      main := .allocating fd
      kernel := if 0 ≤ fd then s.kernel.accept fd else s.kernel } : Server).Tended := by
  have hcells : ∀ (w : Who) (k : Kernel Who),
      ({ s with main := .allocating fd, kernel := k } : Server).cellsOf w = s.cellsOf w := by
    intro w k
    cases w with
    | none =>
      simp only [cellsOf, hm]
      rfl
    | some i => rfl
  have hmain : s.fdsOf none = [] := by
    rw [fdsOf, hm]
    rfl
  by_cases hge : 0 ≤ fd
  · -- a connection, which `main` did not own before
    simp only [if_pos hge]
    have hnew : fd ∉ s.kernel.opened.map Connection.fd := hfree hge
    exact
      { sound := h.sound.accept hnew
        sane := h.sane
        cells := h.cells.congr (fun w a => by simp only [hcells]) fun _ => Iff.rfl
        fds := by
          apply h.fds.acquire (w := none) hnew
          · intro w x
            cases w with
            | none =>
              show x ∈ owned fd ↔ _
              rw [mem_owned, hmain]
              simp [hge]
            | some i =>
              show x ∈ s.fdsOf (some i) ↔ _
              simp
          · intro x
            show x ∈ (s.kernel.opened ++ [s.kernel.next fd]).map Connection.fd ↔ _
            simp [Kernel.next]
        told := h.told_accept hge hnew
        mine := h.mine_accept hnew
        cell := by simp }
  · -- `accept` has failed: `main` carries on with -1
    simp only [if_neg hge]
    exact
      { sound := h.sound
        sane := h.sane
        cells := h.cells.congr (fun w a => by simp only [hcells]) fun _ => Iff.rfl
        fds := by
          refine h.fds.congr ?_ fun _ => Iff.rfl
          intro w x
          cases w with
          | none =>
            show x ∈ owned fd ↔ _
            rw [mem_owned, hmain]
            simp [hge]
          | some i => exact Iff.rfl
        told := h.told.congr rfl rfl fun _ _ => Iff.rfl
        mine := h.mine.congr rfl rfl rfl fun _ _ => Iff.rfl
        cell := by simp }

/-- `calloc` returns a cell that was free, and `main` owns it. -/
theorem calloc_tended (h : s.Tended) {tmp : Int} (hm : s.main = .allocating tmp)
    (hfree : s.heap a = none) :
    ({ s with
      main := .storing tmp (some a)
      heap := Function.update s.heap a (some 0) } : Server).Tended where
  sound := h.sound
  sane := h.sane
  cells := by
    have hfree' : ¬ s.heap a ≠ none := not_not.mpr hfree
    apply h.cells.acquire (w := none) hfree'
    · intro w b
      cases w with
      | none =>
        simp only [cellsOf, hm]
        simp [Main.cells]
      | some i =>
        show b ∈ s.cellsOf (some i) ↔ _
        simp
    · intro b
      -- the new cell is used, the others as before
      by_cases hb : b = a <;> simp [hb]
  fds := by
    refine h.fds.congr ?_ fun _ => Iff.rfl
    intro w x
    cases w with
    | none =>
      simp only [fdsOf, hm]
      rfl
    | some i =>
      -- the cell was free, so that no thread reads it
      have hnot : a ∉ s.cellsOf (some i) := fun hmem => h.cells.used_of_owns hmem hfree
      exact mem_fdsOf_heap hnot (some 0) x
  told := h.told.congr rfl rfl fun _ _ => Iff.rfl
  mine := h.mine.congr rfl rfl rfl fun i x =>
    mem_fdsOf_heap (fun hmem => h.cells.used_of_owns hmem hfree) (some 0) x
  cell := by simp

/-- The threads do not own what `main` owns. -/
theorem Tended.not_cell (h : s.Tended) (ha : a ∈ s.cellsOf w) {v : Who} (hne : v ≠ w) :
    a ∉ s.cellsOf v := fun hv => hne (h.cells.unique v w a hv ha)

/-- `main` writes the descriptor to the cell, and owns it through the cell from now on. -/
theorem store_tended (h : s.Tended) {tmp : Int} (hm : s.main = .storing tmp (some a)) :
    ({ s with main := .creating a, heap := Function.update s.heap a (some tmp) } : Server).Tended := by
  have hown : a ∈ s.cellsOf none := by simp [cellsOf, hm, Main.cells]
  have hother : ∀ i, a ∉ s.cellsOf (some i) := fun i => h.not_cell hown (by simp)
  exact
    { sound := h.sound
      sane := h.sane
      cells := by
        have hused := h.cells.used_of_owns hown
        apply h.cells.congr
        · intro w b
          cases w with
          | none =>
            simp only [cellsOf, hm]
            rfl
          | some i => exact Iff.rfl
        · intro b
          by_cases hb : b = a
          · rw [hb]
            simpa using hused
          · simp [hb]
      fds := by
        refine h.fds.congr ?_ fun _ => Iff.rfl
        intro w x
        cases w with
        | none =>
          -- the descriptor in `tmp` is the one in the cell now
          simp only [fdsOf, hm, Main.fds]
          simp
        | some i => exact mem_fdsOf_heap (hother i) (some tmp) x
      told := h.told.congr rfl rfl fun _ _ => Iff.rfl
      mine := h.mine.congr rfl rfl rfl fun i x => mem_fdsOf_heap (hother i) (some tmp) x
      cell := by simp }

/-- The new thread has the cell of `main`. -/
theorem created_tended (h : s.Tended) (hm : s.main = .creating a) :
    ({ s with
      main := .accepting
      threads := s.threads ++ [.loading a]
      made := s.made ++ [(s.heap a).bind s.connection] } : Server).Tended where
  sound := h.sound
  sane := h.sane
  cells := by
    -- what `main` owned the new thread owns, and nobody else anything more
    apply h.cells.handOver none (some s.threads.length)
    · intro b hb
      simp [cellsOf] at hb
    · intro w b
      cases w with
      | none =>
        simp only [cellsOf]
        simp [Main.cells]
      | some i =>
        simp only [cellsOf, hm, Cells.getElem?_concat]
        by_cases hi : i = s.threads.length <;> simp [hi, Thread.cells, Main.cells]
    · intro b
      exact Iff.rfl
  fds := by
    apply h.fds.handOver none (some s.threads.length)
    · intro x hx
      simp [fdsOf] at hx
    · intro w x
      cases w with
      | none =>
        simp only [fdsOf]
        simp [Main.fds]
      | some i =>
        simp only [fdsOf, hm, Cells.getElem?_concat]
        by_cases hi : i = s.threads.length <;> simp [hi, Thread.fds, Main.fds]
    · intro x
      exact Iff.rfl
  told := by
    -- the new thread is not about to close anything yet
    refine h.told.congr rfl rfl ?_
    intro i fd
    unfold Closes
    rw [Cells.getElem?_concat]
    by_cases hi : i = s.threads.length <;> simp [hi]
  mine :=
    { length := by
        show (s.made ++ [(s.heap a).bind s.connection]).length =
          (s.threads ++ [Thread.loading a]).length
        rw [List.length_append, List.length_append, h.mine.length]
        rfl
      owned := by
        intro i c hc hown
        show (s.made ++ [(s.heap a).bind s.connection])[i]? = some (some c)
        simp only [fdsOf, Cells.getElem?_concat] at hown
        rw [Cells.getElem?_concat, h.mine.length]
        by_cases hi : i = s.threads.length
        · -- the connection is what is open under the descriptor in the cell
          rw [if_pos hi] at hown ⊢
          rcases List.mem_flatMap.mp hown with ⟨x, hx, hxc⟩
          obtain rfl := (mem_owned.mp hxc).2
          have hcell : s.heap a = some c.fd := by simpa using hx
          rw [hcell, Option.bind_some, h.connection_eq hc]
        · rw [if_neg hi] at hown ⊢
          exact h.mine.owned i c hc hown
      closed := by
        -- who has closed something was made before
        intro i c hc
        show (s.made ++ [(s.heap a).bind s.connection])[i]? = some (some c)
        have hmade := h.mine.closed i c hc
        rcases List.getElem?_eq_some_iff.mp hmade with ⟨hlt, -⟩
        rw [List.getElem?_append_left hlt]
        exact hmade
      kept := by
        intro i c hmade
        replace hmade : (s.made ++ [(s.heap a).bind s.connection])[i]? = some (some c) := hmade
        simp only [fdsOf, Cells.getElem?_concat]
        rw [Cells.getElem?_concat, h.mine.length] at hmade
        by_cases hi : i = s.threads.length
        · -- the new thread finds the descriptor in the cell
          rw [if_pos hi] at hmade ⊢
          rcases Option.bind_eq_some_iff.mp (Option.some.inj hmade) with ⟨fd, hcell, hc⟩
          have hopen : c ∈ s.kernel.opened := List.mem_of_find?_eq_some hc
          have hfd : c.fd = fd := by simpa using List.find?_some hc
          refine Or.inr ⟨hopen, ?_⟩
          simp [Thread.fds, hcell, mem_owned, hfd ▸ h.nonneg hopen, hfd]
        · rw [if_neg hi] at hmade ⊢
          exact h.mine.kept i c hmade }
  cell := by simp

/-- `pthread_create` has failed. -/
theorem refused_tended (h : s.Tended) (hm : s.main = .creating a) :
    ({ s with main := .closing a } : Server).Tended where
  sound := h.sound
  sane := h.sane
  cells := by
    refine h.cells.congr ?_ fun _ => Iff.rfl
    intro w b
    cases w with
    | none =>
      simp only [cellsOf, hm]
      rfl
    | some i => exact Iff.rfl
  fds := by
    refine h.fds.congr ?_ fun _ => Iff.rfl
    intro w x
    cases w with
    | none =>
      simp only [fdsOf, hm]
      rfl
    | some i => exact Iff.rfl
  told := h.told.congr rfl rfl fun _ _ => Iff.rfl
  mine := h.mine.congr rfl rfl rfl fun _ _ => Iff.rfl
  cell := by simp

/-- `close` on a descriptor that is not open does nothing. -/
theorem Tended.sound_close (h : s.Tended) (w : Who) (fd : Int) : (s.kernel.close w fd).Sound := by
  cases hc : s.connection fd with
  | none =>
    rw [connection] at hc
    rw [Kernel.close, hc]
    exact h.sound
  | some c =>
    have hmem : c ∈ s.kernel.opened := List.mem_of_find?_eq_some hc
    have hfd : c.fd = fd := by simpa using List.find?_some hc
    rw [← hfd]
    exact h.sound.close w hmem

/-- No thread is about to close what `main` owns, and so nothing was sent on it. -/
theorem Tended.not_sent (h : s.Tended) {c : Connection} (hc : c ∈ s.kernel.opened)
    (hown : c.fd ∈ s.fdsOf none) : c ∉ s.sent := by
  intro hsent
  rcases h.told.sent c hsent with ⟨i, hclosed⟩ | ⟨-, i, hi⟩
  · exact h.not_closed hc _ hclosed
  · exact absurd (h.closes_unique hc hown hi) (by simp)

/-- `main` closes a connection that no thread was told about. -/
theorem Tended.told_closeMain (h : s.Tended) {c : Connection} (hc : c ∈ s.kernel.opened)
    (hown : c.fd ∈ s.fdsOf none) {m : Main} :
    ({ s with main := m, kernel := s.kernel.close none c.fd } : Server).Told := by
  rw [Kernel.close_of_mem h.sound none hc]
  have hsilent := h.not_sent hc hown
  exact
    { once := h.told.once
      closed := by
        intro i d hd
        rcases List.mem_append.mp hd with hd | hd
        · exact h.told.closed i d hd
        · simp at hd
      closing := fun i d hi hd => h.told.closing i d hi (List.mem_of_mem_erase hd)
      sent := by
        intro d hd
        -- the connection that is closed has not been sent the time
        have hne : d ≠ c := fun he => hsilent (he ▸ hd)
        rcases h.told.sent d hd with ⟨i, hclosed⟩ | ⟨hopen, hi⟩
        · exact Or.inl ⟨i, List.mem_append_left _ hclosed⟩
        · exact Or.inr ⟨(List.mem_erase_of_ne hne).mpr hopen, hi⟩
      refused := by
        intro d hd
        rcases List.mem_append.mp hd with hd | hd
        · exact h.told.refused d hd
        · have hdc : d = c := by simpa using hd
          exact hdc ▸ hsilent }

/-- Who closes a connection owns it. -/
theorem Tended.mine_close (h : s.Tended) {c : Connection} (hc : c ∈ s.kernel.opened)
    (hown : c.fd ∈ s.fdsOf w) (hk : s'.kernel = s.kernel.close w c.fd) (hm : s'.made = s.made)
    (hl : s'.threads.length = s.threads.length)
    (hf : ∀ i x, x ∈ s'.fdsOf (some i) → x ∈ s.fdsOf (some i))
    (hf' : ∀ i x, x ∈ s.fdsOf (some i) → x ≠ c.fd → x ∈ s'.fdsOf (some i)) : s'.Mine := by
  rw [Kernel.close_of_mem h.sound w hc] at hk
  exact
    { length := by
        rw [hm, hl]
        exact h.mine.length
      owned := by
        intro i d hd hd'
        rw [hk] at hd
        rw [hm]
        exact h.mine.owned i d (List.mem_of_mem_erase hd) (hf i d.fd hd')
      closed := by
        intro i d hd
        rw [hk] at hd
        rw [hm]
        rcases List.mem_append.mp hd with hd | hd
        · exact h.mine.closed i d hd
        · have hdc : i = w ∧ d = c := by
            have hpair := Prod.mk.inj (List.mem_singleton.mp hd)
            exact ⟨hpair.1, hpair.2⟩
          rw [hdc.2]
          exact h.mine.owned i c hc (hdc.1 ▸ hown)
      kept := by
        intro i d hmade
        rw [hm] at hmade
        rw [hk]
        rcases h.mine.kept i d hmade with hclosed | ⟨hopen, hd⟩
        · exact Or.inl (List.mem_append_left _ hclosed)
        · by_cases hdc : d = c
          · -- the thread it was made for is the one that closes it
            obtain rfl := hdc
            obtain rfl := h.fds.unique _ _ _ hown hd
            exact Or.inl (List.mem_append_right _ (List.mem_singleton_self _))
          · refine Or.inr ⟨(List.mem_erase_of_ne hdc).mpr hopen, hf' i d.fd hd ?_⟩
            exact fun he => hdc (h.eq_of_fd hopen hc he) }

/-- `main` closes what no thread was made for. -/
theorem closeMain_tended (h : s.Tended) (hm : s.main = .closing a) (hfd : s.heap a = some fd) :
    ({ s with main := .freeing a, kernel := s.kernel.close none fd } : Server).Tended := by
  have hmain : s.fdsOf none = owned fd := by
    simp only [fdsOf, hm, Main.fds, hfd]
    simp
  have hcells : ∀ w b, b ∈ ({ s with
      main := .freeing a, kernel := s.kernel.close none fd } : Server).cellsOf w ↔ b ∈ s.cellsOf w := by
    intro w b
    cases w with
    | none =>
      simp only [cellsOf, hm]
      rfl
    | some i => exact Iff.rfl
  by_cases hge : 0 ≤ fd
  · -- `main` owns the connection, and gives it up
    have hown : fd ∈ s.fdsOf none := by
      rw [hmain]
      exact mem_owned.mpr ⟨hge, rfl⟩
    rcases h.exists_connection hown with ⟨c, hc, rfl⟩
    exact
      { sound := h.sound_close none c.fd
        sane := h.sane
        cells := h.cells.congr hcells fun _ => Iff.rfl
        fds := by
          apply h.fds.release (n := c.fd)
          · intro w x
            cases w with
            | none =>
              show x ∈ ([] : List Int) ↔ _
              rw [hmain, mem_owned]
              simp
            | some i =>
              show x ∈ s.fdsOf (some i) ↔ _
              constructor
              · intro hx
                refine ⟨hx, ?_⟩
                rintro rfl
                exact absurd (h.fds.unique _ _ _ hown hx) (by simp)
              · exact fun hx => hx.1
          · exact h.used_close hc none
        told := h.told_closeMain hc hown
        mine := h.mine_close hc hown rfl rfl rfl (fun _ _ hx => hx) fun _ _ hx _ => hx
        cell := by simp }
  · rw [h.close_neg hge]
    exact
      { sound := h.sound
        sane := h.sane
        cells := h.cells.congr hcells fun _ => Iff.rfl
        fds := by
          refine h.fds.congr ?_ fun _ => Iff.rfl
          intro w x
          cases w with
          | none =>
            show x ∈ ([] : List Int) ↔ _
            rw [hmain, mem_owned]
            simp [hge]
          | some i => exact Iff.rfl
        told := h.told.congr rfl rfl fun _ _ => Iff.rfl
        mine := h.mine.congr rfl rfl rfl fun _ _ => Iff.rfl
        cell := by simp }

/-- A cell is freed by its owner. -/
theorem used_free (a b : ℕ) :
    Function.update s.heap a none b ≠ none ↔ s.heap b ≠ none ∧ b ≠ a := by
  by_cases hb : b = a <;> simp [hb]

/-- `main` frees the cell that no thread was made for. -/
theorem freeMain_tended (h : s.Tended) (hm : s.main = .freeing a) :
    ({ s with main := .accepting, heap := Function.update s.heap a none } : Server).Tended := by
  have hown : a ∈ s.cellsOf none := by simp [cellsOf, hm, Main.cells]
  have hother : ∀ i, a ∉ s.cellsOf (some i) := fun i => h.not_cell hown (by simp)
  exact
    { sound := h.sound
      sane := h.sane
      cells := by
        apply h.cells.release (n := a)
        · intro w b
          cases w with
          | none =>
            simp only [cellsOf, hm]
            simp [Main.cells]
          | some i =>
            show b ∈ s.cellsOf (some i) ↔ _
            constructor
            · -- nobody else has the cell
              intro hb
              exact ⟨hb, fun hba => hother i (hba ▸ hb)⟩
            · exact fun hb => hb.1
        · exact used_free a
      fds := by
        refine h.fds.congr ?_ fun _ => Iff.rfl
        intro w x
        cases w with
        | none =>
          simp only [fdsOf, hm]
          rfl
        | some i => exact mem_fdsOf_heap (hother i) none x
      told := h.told.congr rfl rfl fun _ _ => Iff.rfl
      mine := h.mine.congr rfl rfl rfl fun i x => mem_fdsOf_heap (hother i) none x
      cell := by simp }

/-! ## The steps of a thread -/

/-- The thread has the cells that it had. -/
theorem mem_cellsOf_setThread (ht : s.threads[i]? = some t) (hsame : t'.cells = t.cells) (w : Who)
    (b : ℕ) : b ∈ (s.setThread i t').cellsOf w ↔ b ∈ s.cellsOf w := by
  rw [cellsOf_setThread ht]
  by_cases hw : w = some i
  · rw [if_pos hw, hw, cellsOf_thread ht, hsame]
  · rw [if_neg hw]

/-- The thread has the descriptors that it had. -/
theorem mem_fdsOf_setThread (ht : s.threads[i]? = some t) (hsame : t'.fds s.heap = t.fds s.heap)
    (w : Who) (x : Int) : x ∈ (s.setThread i t').fdsOf w ↔ x ∈ s.fdsOf w := by
  rw [fdsOf_setThread ht]
  by_cases hw : w = some i
  · rw [if_pos hw, hw, fdsOf_thread ht, hsame]
  · rw [if_neg hw]

/-- The thread reads its descriptor out of its cell: it owns the one as it owned the other. -/
theorem load_tended (h : s.Tended) (ht : s.threads[i]? = some (.loading a))
    (hfd : s.heap a = some fd) : (s.setThread i (.freeing a fd)).Tended := by
  have hsame : (Thread.freeing a fd).fds s.heap = (Thread.loading a).fds s.heap := by
    rw [Thread.fds, Thread.fds, hfd]
    simp
  have hfds := mem_fdsOf_setThread ht hsame
  exact
    { sound := h.sound
      sane := h.sane
      cells := h.cells.congr (mem_cellsOf_setThread ht rfl) fun _ => Iff.rfl
      fds := h.fds.congr hfds fun _ => Iff.rfl
      told := h.told.congr rfl rfl (closes_setThread ht (by simp) (by simp))
      mine := h.mine.congr rfl rfl List.length_set fun i => hfds (some i)
      cell := h.cell }

/-- The thread frees its cell; what it has read it keeps. -/
theorem free_tended (h : s.Tended) (ht : s.threads[i]? = some (.freeing a fd)) :
    ({ s.setThread i (.sending fd) with heap := Function.update s.heap a none } : Server).Tended := by
  have hown : a ∈ s.cellsOf (some i) := by
    rw [cellsOf_thread ht]
    simp [Thread.cells]
  have hkeep : ∀ w x, x ∈ (s.setThread i (.sending fd)).fdsOf w ↔ x ∈ s.fdsOf w :=
    mem_fdsOf_setThread ht rfl
  have hfds : ∀ w x, x ∈ ({ s.setThread i (.sending fd) with
      heap := Function.update (s.setThread i (.sending fd)).heap a none } : Server).fdsOf w ↔
        x ∈ s.fdsOf w := by
    intro w x
    -- nobody looks for a descriptor in a cell that is free
    have hnot : a ∉ (s.setThread i (.sending fd)).cellsOf w := by
      rw [cellsOf_setThread ht]
      by_cases hw : w = some i
      · simp [hw, Thread.cells]
      · rw [if_neg hw]
        exact h.not_cell hown hw
    rw [fdsOf_heap hnot none]
    exact hkeep w x
  exact
    { sound := h.sound
      sane := h.sane
      cells := by
        apply h.cells.release (n := a)
        · intro w b
          show b ∈ (s.setThread i (.sending fd)).cellsOf w ↔ _
          rw [cellsOf_setThread ht]
          by_cases hw : w = some i
          · rw [if_pos hw, hw, cellsOf_thread ht]
            simp [Thread.cells]
          · rw [if_neg hw]
            constructor
            · intro hb
              refine ⟨hb, ?_⟩
              rintro rfl
              exact hw (h.cells.unique _ _ _ hb hown)
            · exact fun hb => hb.1
        · exact used_free a
      fds := h.fds.congr hfds fun _ => Iff.rfl
      told := h.told.congr rfl rfl (closes_setThread ht (by simp) (by simp))
      mine := h.mine.congr rfl rfl List.length_set fun i => hfds (some i)
      cell := h.cell }

/-- The thread sends on its connection, for the first time, and is about to close it. -/
theorem send_tended (h : s.Tended) (ht : s.threads[i]? = some (.sending fd)) :
    ({ s.setThread i (.closing fd) with sent := s.sent ++ (s.connection fd).toList } : Server).Tended := by
  have hfds : ∀ w x, x ∈ (s.setThread i (.closing fd)).fdsOf w ↔ x ∈ s.fdsOf w :=
    mem_fdsOf_setThread ht rfl
  have hcloses : ∀ j x, (s.setThread i (.closing fd)).Closes j x ↔
      s.Closes j x ∨ j = i ∧ x = fd := by
    intro j x
    unfold Closes
    rw [getElem?_setThread ht]
    by_cases hj : j = i
    · rw [if_pos hj, hj, ht]
      simp [eq_comm]
    · simp [hj]
  have hold : ∀ c, s.connection fd = some c → c ∈ s.kernel.opened ∧ c.fd = fd := by
    intro c hc
    exact ⟨List.mem_of_find?_eq_some hc, by simpa using List.find?_some hc⟩
  -- the thread owns the connection, and has not sent on it
  have hnew : ∀ c, s.connection fd = some c → c ∉ s.sent := by
    intro c hc hsent
    rcases hold c hc with ⟨hopen, rfl⟩
    rcases h.told.sent c hsent with ⟨j, hclosed⟩ | ⟨-, j, hj⟩
    · exact h.not_closed hopen _ hclosed
    · have hsame := h.closes_unique hopen (mem_fdsOf_sending ht (h.nonneg hopen)) hj
      obtain rfl := Option.some.inj hsame
      exact absurd (ht.symm.trans hj) (by simp)
  exact
    { sound := h.sound
      sane := h.sane
      cells := h.cells.congr (mem_cellsOf_setThread ht rfl) fun _ => Iff.rfl
      fds := h.fds.congr hfds fun _ => Iff.rfl
      told :=
        { once := by
            show (s.sent ++ (s.connection fd).toList).Nodup
            cases hc : s.connection fd with
            | none => simpa using h.told.once
            | some c =>
              rw [Option.toList_some, ← List.concat_eq_append]
              exact h.told.once.concat (hnew c hc)
          closed := fun j c hc => List.mem_append_left _ (h.told.closed j c hc)
          closing := by
            -- whoever is about to close has sent, the thread itself just now
            intro j c hj hc
            rcases (hcloses j c.fd).mp hj with hj | ⟨-, hfd⟩
            · exact List.mem_append_left _ (h.told.closing j c hj hc)
            · apply List.mem_append_right
              rw [← hfd, h.connection_eq hc]
              simp
          sent := by
            intro c hc
            rcases List.mem_append.mp hc with hc | hc
            · rcases h.told.sent c hc with hclosed | ⟨hopen, j, hj⟩
              · exact Or.inl hclosed
              · exact Or.inr ⟨hopen, j, (hcloses j c.fd).mpr (Or.inl hj)⟩
            · have hc' : s.connection fd = some c := by simpa using hc
              rcases hold c hc' with ⟨hopen, hfd⟩
              exact Or.inr ⟨hopen, i, (hcloses i c.fd).mpr (Or.inr ⟨rfl, hfd⟩)⟩
          refused := by
            intro c hclosed hc
            rcases List.mem_append.mp hc with hc | hc
            · exact h.told.refused c hclosed hc
            · have hc' : s.connection fd = some c := by simpa using hc
              exact h.not_closed (hold c hc').1 _ hclosed }
      mine := h.mine.congr rfl rfl List.length_set fun i => hfds (some i)
      cell := h.cell }

/-- The other threads are still about to close what they were. -/
theorem closes_done (ht : s.Closes i fd) (j : ℕ) (x : Int) :
    (s.setThread i .done).Closes j x ↔ s.Closes j x ∧ j ≠ i := by
  have ht' : s.threads[i]? = some (Thread.closing fd) := ht
  unfold Closes
  rw [getElem?_setThread ht']
  by_cases hj : j = i <;> simp [hj]

/-- A thread is about to close one descriptor. -/
theorem Closes.fd_eq {x : Int} (hx : s.Closes i x) (hfd : s.Closes i fd) : x = fd := by
  have hboth := Option.some.inj (hx.symm.trans hfd)
  simpa using hboth

/-- The thread closes the connection that it has sent on. -/
theorem Tended.told_close (h : s.Tended) {c : Connection} (ht : s.Closes i c.fd)
    (hc : c ∈ s.kernel.opened) :
    ({ s.setThread i .done with kernel := s.kernel.close (some i) c.fd } : Server).Told := by
  rw [Kernel.close_of_mem h.sound (some i) hc]
  exact
    { once := h.told.once
      closed := by
        intro j d hd
        rcases List.mem_append.mp hd with hd | hd
        · exact h.told.closed j d hd
        · have hdc : j = i ∧ d = c := by simpa using hd
          exact hdc.2 ▸ h.told.closing i c ht hc
      closing := by
        intro j d hj hd
        exact h.told.closing j d ((closes_done ht j d.fd).mp hj).1 (List.mem_of_mem_erase hd)
      sent := by
        intro d hd
        rcases h.told.sent d hd with ⟨j, hclosed⟩ | ⟨hopen, j, hj⟩
        · exact Or.inl ⟨j, List.mem_append_left _ hclosed⟩
        · by_cases hdc : d = c
          · exact Or.inl ⟨i, List.mem_append_right _ (by simp [hdc])⟩
          · -- another thread is about to close `d`, under another descriptor
            refine Or.inr ⟨(List.mem_erase_of_ne hdc).mpr hopen, j,
              (closes_done ht j d.fd).mpr ⟨hj, ?_⟩⟩
            rintro rfl
            exact hdc (h.eq_of_fd hopen hc (hj.fd_eq ht))
      refused := by
        intro d hd
        rcases List.mem_append.mp hd with hd | hd
        · exact h.told.refused d hd
        · simp at hd }

/-- The thread closes nothing: its descriptor is -1. -/
theorem Tended.told_close_neg (h : s.Tended) (ht : s.Closes i fd) (hneg : ¬ 0 ≤ fd) :
    (s.setThread i .done).Told where
  once := h.told.once
  closed := h.told.closed
  closing := fun j c hj hc => h.told.closing j c ((closes_done ht j c.fd).mp hj).1 hc
  sent := by
    intro c hc
    rcases h.told.sent c hc with hclosed | ⟨hopen, j, hj⟩
    · exact Or.inl hclosed
    · refine Or.inr ⟨hopen, j, (closes_done ht j c.fd).mpr ⟨hj, ?_⟩⟩
      rintro rfl
      exact hneg (hj.fd_eq ht ▸ h.nonneg hopen)
  refused := h.told.refused

/-- The thread closes its connection and ends. -/
theorem close_tended (h : s.Tended) (ht : s.Closes i fd) :
    ({ s.setThread i .done with kernel := s.kernel.close (some i) fd } : Server).Tended := by
  have ht' : s.threads[i]? = some (Thread.closing fd) := ht
  have hcells : ∀ w b, b ∈ (s.setThread i .done).cellsOf w ↔ b ∈ s.cellsOf w :=
    mem_cellsOf_setThread ht' rfl
  -- the thread has nothing any more, the others what they had
  have hless : ∀ j x, x ∈ (s.setThread i .done).fdsOf (some j) → x ∈ s.fdsOf (some j) := by
    intro j x hx
    rw [fdsOf_setThread ht'] at hx
    split_ifs at hx
    · cases hx
    · exact hx
  have hrest : ∀ j x, x ∈ s.fdsOf (some j) → ¬ (0 ≤ fd ∧ x = fd) →
      x ∈ (s.setThread i .done).fdsOf (some j) := by
    intro j x hx hne
    rw [fdsOf_setThread ht']
    split_ifs with hj
    · obtain rfl := Option.some.inj hj
      rw [fdsOf_thread ht'] at hx
      exact absurd (mem_owned.mp hx) hne
    · exact hx
  by_cases hge : 0 ≤ fd
  · -- the connection of the thread is open, and the thread is its only owner
    have hown := mem_fdsOf_closing ht hge
    rcases h.exists_connection hown with ⟨c, hc, rfl⟩
    exact
      { sound := h.sound_close (some i) c.fd
        sane := h.sane
        cells := h.cells.congr hcells fun _ => Iff.rfl
        fds := by
          apply h.fds.release (n := c.fd)
          · intro w x
            show x ∈ (s.setThread i .done).fdsOf w ↔ _
            rw [fdsOf_setThread ht']
            by_cases hw : w = some i
            · rw [if_pos hw, hw, fdsOf_thread ht', Thread.fds, Thread.fds, mem_owned]
              simp
            · rw [if_neg hw]
              constructor
              · intro hx
                refine ⟨hx, ?_⟩
                rintro rfl
                exact hw (h.fds.unique _ _ _ hx hown)
              · exact fun hx => hx.1
          · exact h.used_close hc (some i)
        told := h.told_close ht hc
        mine := h.mine_close hc hown rfl rfl List.length_set hless fun j x hx hne =>
          hrest j x hx fun hfd => hne hfd.2
        cell := h.cell }
  · rw [h.close_neg hge]
    exact
      { sound := h.sound
        sane := h.sane
        cells := h.cells.congr hcells fun _ => Iff.rfl
        fds := by
          refine h.fds.congr ?_ fun _ => Iff.rfl
          intro w x
          show x ∈ (s.setThread i .done).fdsOf w ↔ _
          rw [fdsOf_setThread ht']
          by_cases hw : w = some i
          · rw [if_pos hw, hw, fdsOf_thread ht', Thread.fds, Thread.fds, mem_owned]
            simp [hge]
          · rw [if_neg hw]
        told := h.told_close_neg ht hge
        mine :=
          { length := h.mine.length.trans List.length_set.symm
            owned := fun j c hc hj => h.mine.owned j c hc (hless j c.fd hj)
            closed := h.mine.closed
            kept := by
              intro j c hmade
              rcases h.mine.kept j c hmade with hclosed | ⟨hopen, hj⟩
              · exact Or.inl hclosed
              · exact Or.inr ⟨hopen, hrest j c.fd hj fun hfd => hge hfd.1⟩ }
        cell := h.cell }

end EmbeddedCourse.Listening.Server
