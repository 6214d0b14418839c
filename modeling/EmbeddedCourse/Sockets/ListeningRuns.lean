import EmbeddedCourse.Sockets.ListeningSteps

/-! # Every client is served once

The runs of the server, in every interleaving: none of its statements is undefined as
long as `calloc` succeeds, and when it has nothing to do but to wait for a client,
every connection has been closed, after the time was sent on it if it got a thread
(`clients_served`).
-/

namespace EmbeddedCourse.Listening

open Sockets

namespace Server

variable {s s' : Server} {l : Label} {i : ℕ} {t t' : Thread} {w : Who} {a : ℕ} {fd : Int}

/-- The steps of a server that is in order: no statement is undefined. -/
inductive Moves (s : Server) : Label → Server → Prop where
  | accept (fd : Int) : s.main = .accepting → Moves s (.accept fd)
      { s with
        main := .allocating fd
        kernel := if 0 ≤ fd then s.kernel.accept fd else s.kernel }
  | calloc (tmp : Int) (a : ℕ) : s.main = .allocating tmp → Moves s (.calloc (some a))
      { s with main := .storing tmp (some a), heap := Function.update s.heap a (some 0) }
  | store (tmp : Int) (a : ℕ) : s.main = .storing tmp (some a) → Moves s .main
      { s with main := .creating a, heap := Function.update s.heap a (some tmp) }
  | created (a : ℕ) : s.main = .creating a → Moves s (.create true)
      { s with
        main := .accepting
        threads := s.threads ++ [.loading a]
        made := s.made ++ [(s.heap a).bind s.connection] }
  | refused (a : ℕ) : s.main = .creating a → Moves s (.create false) { s with main := .closing a }
  | closeMain (a : ℕ) (fd : Int) : s.main = .closing a → s.heap a = some fd → Moves s .main
      { s with main := .freeing a, kernel := s.kernel.close none fd }
  | freeMain (a : ℕ) : s.main = .freeing a → Moves s .main
      { s with main := .accepting, heap := Function.update s.heap a none }
  | load (i a : ℕ) (fd : Int) : s.threads[i]? = some (.loading a) → s.heap a = some fd →
      Moves s (.thread i) (s.setThread i (.freeing a fd))
  | free (i a : ℕ) (fd : Int) : s.threads[i]? = some (.freeing a fd) → Moves s (.thread i)
      { s.setThread i (.sending fd) with heap := Function.update s.heap a none }
  | send (i : ℕ) (fd : Int) : s.threads[i]? = some (.sending fd) → Moves s (.thread i)
      { s.setThread i (.closing fd) with sent := s.sent ++ (s.connection fd).toList }
  | close (i : ℕ) (fd : Int) : s.threads[i]? = some (.closing fd) → Moves s (.thread i)
      { s.setThread i .done with kernel := s.kernel.close (some i) fd }

/-- The cell of a thread is in use. -/
theorem Tended.heap_thread (h : s.Tended) (ht : s.threads[i]? = some t) (ha : a ∈ t.cells) :
    s.heap a ≠ none :=
  h.cells.used_of_owns (w := some i) (by rwa [cellsOf_thread ht])

theorem Tended.heap_main (h : s.Tended) (ha : a ∈ s.main.cells) : s.heap a ≠ none :=
  h.cells.used_of_owns (w := none) ha

theorem mainStep_moves (h : s.Tended) (hs : s.mainStep = some s') : s.Moves .main s' := by
  unfold mainStep at hs
  cases hm : s.main with
  | accepting | allocating | creating => simp [hm] at hs
  | storing tmp cell =>
    cases cell with
    | none => exact absurd hm (h.cell tmp)
    | some a =>
      have hused := h.heap_main (a := a) (by simp [hm, Main.cells])
      simp only [hm, if_neg hused] at hs
      obtain rfl := Option.some.inj hs
      exact .store tmp a hm
  | closing a =>
    have hused := h.heap_main (a := a) (by simp [hm, Main.cells])
    rcases Option.ne_none_iff_exists'.mp hused with ⟨fd, hfd⟩
    simp only [hm, hfd] at hs
    obtain rfl := Option.some.inj hs
    exact .closeMain a fd hm hfd
  | freeing a =>
    have hused := h.heap_main (a := a) (by simp [hm, Main.cells])
    simp only [hm, if_neg hused] at hs
    obtain rfl := Option.some.inj hs
    exact .freeMain a hm

/-- The steps of the threads. -/
theorem threadStep_moves (h : s.Tended) (hs : s.threadStep i = some s') : s.Moves (.thread i) s' := by
  unfold threadStep at hs
  cases ht : s.threads[i]? with
  | none => simp [ht] at hs
  | some t =>
    cases t with
    | loading a =>
      -- the cell that is read has not been freed
      have hused := h.heap_thread ht (a := a) (by simp [Thread.cells])
      rcases Option.ne_none_iff_exists'.mp hused with ⟨fd, hfd⟩
      simp only [ht, hfd] at hs
      obtain rfl := Option.some.inj hs
      exact .load i a fd ht hfd
    | freeing a fd =>
      -- nor has the one that is to be freed
      have hused := h.heap_thread ht (a := a) (by simp [Thread.cells])
      simp only [ht, if_neg hused] at hs
      obtain rfl := Option.some.inj hs
      exact .free i a fd ht
    | sending fd =>
      simp only [ht] at hs
      obtain rfl := Option.some.inj hs
      exact .send i fd ht
    | closing fd =>
      simp only [ht] at hs
      obtain rfl := Option.some.inj hs
      exact .close i fd ht
    | done => simp [ht] at hs

/-- What a server that is in order can do: no freed cell is touched. -/
theorem step_moves (h : s.Tended) (hl : Supplied l) (hs : s.step l = some s') : s.Moves l s' := by
  -- nothing has gone wrong so far
  have hsane : ¬ s.fault = true := by simp [h.sane]
  unfold step at hs
  rw [if_neg hsane] at hs
  cases l with
  | accept fd =>
    dsimp only at hs
    split at hs
    · rename_i hm
      obtain rfl := Option.some.inj hs
      exact .accept fd hm
    · cases hs
  | calloc cell =>
    cases cell with
    | none => exact absurd rfl hl
    | some a =>
      dsimp only at hs
      split at hs
      · rename_i tmp hm
        obtain rfl := Option.some.inj hs
        exact .calloc tmp a hm
      · cases hs
  | create ok =>
    dsimp only at hs
    split at hs
    · rename_i a hm
      obtain rfl := Option.some.inj hs
      cases ok with
      | true => exact .created a hm
      | false => exact .refused a hm
    · cases hs
  | main => exact mainStep_moves h hs
  | thread i => exact threadStep_moves h hs

theorem Tended.step (h : s.Tended) (hok : s.Admissible l) (hmoves : s.Moves l s') : s'.Tended := by
  cases hmoves with
  | accept fd hm => exact accept_tended h hm hok
  | calloc tmp a hm => exact calloc_tended h hm hok
  | store tmp a hm => exact store_tended h hm
  | created a hm => exact created_tended h hm
  | refused a hm => exact refused_tended h hm
  | closeMain a fd hm hfd => exact closeMain_tended h hm hfd
  | freeMain a hm => exact freeMain_tended h hm
  | load i a fd ht hfd => exact load_tended h ht hfd
  | free i a fd ht => exact free_tended h ht
  | send i fd ht => exact send_tended h ht
  | close i fd ht => exact close_tended h ht

/-- The runs in which `calloc` does not fail. -/
abbrev SuppliedRun (ls : List Label) (s : Server) : Prop :=
  Machine.Run step (fun s l => s.Admissible l ∧ Supplied l) init ls s

theorem tended_of_run {ls : List Label} (hrun : SuppliedRun ls s) : s.Tended := by
  apply hrun.invariant Tended init_tended
  intro s l s' h hok hs
  exact h.step hok.1 (step_moves h hok.2 hs)

/-! ## How far it is to rest -/

end Server

/-- The statements that are left, those of the thread to be made included. -/
def Main.left : Main → ℕ
  | .accepting => 0
  | .allocating _ => 7
  | .storing _ _ => 6
  | .creating _ => 5
  | .closing _ => 2
  | .freeing _ => 1

def Thread.left : Thread → ℕ
  | .loading _ => 4
  | .freeing _ _ => 3
  | .sending _ => 2
  | .closing _ => 1
  | .done => 0

/-- The steps that a label is good for, itself included. -/
def Label.allowance : Label → ℕ
  | .accept _ => 8
  | .calloc _ | .create _ | .main | .thread _ => 0

namespace Server

variable {s s' : Server} {l : Label} {i : ℕ} {t t' : Thread} {w : Who} {a : ℕ} {fd : Int}

def left (s : Server) : ℕ := s.main.left + (s.threads.map Thread.left).sum

theorem left_thread (ht : s.threads[i]? = some t) (hlt : t'.left + 1 = t.left) :
    s.main.left + ((s.threads.set i t').map Thread.left).sum + 1 = s.left := by
  have hsum := Cells.sum_map_set Thread.left ht t'
  rw [left]
  omega

/-- Every step but an `accept` leaves less to do. -/
theorem left_moves (h : s.Moves l s') : s'.left + 1 ≤ s.left + l.allowance := by
  cases h with
  | accept fd hm | calloc tmp a hm | store tmp a hm | refused a hm | closeMain a fd hm | freeMain a hm =>
    simp only [left, hm, Main.left, Label.allowance]
    omega
  | created a hm =>
    simp only [left, hm, Main.left, Label.allowance, List.map_append, List.sum_append,
      List.map_singleton, List.sum_singleton, Thread.left]
    omega
  | load i a fd ht _ => exact Nat.le_of_eq (left_thread ht rfl)
  | free i a fd ht => exact Nat.le_of_eq (left_thread ht rfl)
  | send i fd ht => exact Nat.le_of_eq (left_thread ht rfl)
  | close i fd ht => exact Nat.le_of_eq (left_thread ht rfl)

theorem length_le {ls : List Label} (hrun : SuppliedRun ls s) :
    ls.length + s.left ≤ (ls.map Label.allowance).sum := by
  induction hrun with
  | init => exact Nat.le_refl 0
  | @step ls s l s' hr hok hs ih =>
    have hleft := left_moves (step_moves (tended_of_run hr) hok.2 hs)
    rw [List.length_append, List.length_singleton, List.map_append, List.sum_append, List.map_singleton,
      List.sum_singleton]
    omega

/-- There is nothing to do but to wait for a client. -/
def Resting (s : Server) : Prop :=
  ∀ l s', s.Admissible l → s.step l = some s' → ∃ fd, l = .accept fd

theorem Tended.of_resting (h : s.Tended) (hrest : s.Resting) :
    s.kernel.opened = [] ∧ ∀ a, s.heap a = none := by
  have hsane : ¬ s.fault = true := by simp [h.sane]
  -- every statement of `main` but `accept` can be executed, and every one of a thread
  have hstuck : ∀ l s', s.Admissible l → s.step l = some s' → (∀ fd, l ≠ .accept fd) → False := by
    intro l s' hok hs hl
    rcases hrest l s' hok hs with ⟨fd, rfl⟩
    exact hl fd rfl
  have hmain : s.main = .accepting := by
    cases hm : s.main with
    | accepting => rfl
    | allocating tmp =>
      exact (hstuck (.calloc none) { s with main := .storing tmp none } trivial
        (by simp [Server.step, hsane, hm]) (by simp)).elim
    | storing tmp cell =>
      cases cell with
      | none => exact absurd hm (h.cell tmp)
      | some a =>
        have hused := h.heap_main (a := a) (by simp [hm, Main.cells])
        exact (hstuck .main _ trivial
          (by simp only [Server.step, if_neg hsane, mainStep, hm, if_neg hused]; rfl) (by simp)).elim
    | creating a =>
      exact (hstuck (.create false) { s with main := .closing a } trivial
        (by simp [Server.step, hsane, hm]) (by simp)).elim
    | closing a =>
      have hused := h.heap_main (a := a) (by simp [hm, Main.cells])
      rcases Option.ne_none_iff_exists'.mp hused with ⟨fd, hfd⟩
      exact (hstuck .main _ trivial
        (by simp only [Server.step, if_neg hsane, mainStep, hm, hfd]; rfl) (by simp)).elim
    | freeing a =>
      have hused := h.heap_main (a := a) (by simp [hm, Main.cells])
      exact (hstuck .main _ trivial
        (by simp only [Server.step, if_neg hsane, mainStep, hm, if_neg hused]; rfl) (by simp)).elim
  have hdone : ∀ (i : ℕ) (t : Thread), s.threads[i]? = some t → t = .done := by
    intro i t ht
    cases t with
    | done => rfl
    | loading a =>
      have hused := h.heap_thread ht (a := a) (by simp [Thread.cells])
      rcases Option.ne_none_iff_exists'.mp hused with ⟨fd, hfd⟩
      exact (hstuck (.thread i) _ trivial
        (by simp only [Server.step, if_neg hsane, threadStep, ht, hfd]; rfl) (by simp)).elim
    | freeing a fd =>
      have hused := h.heap_thread ht (a := a) (by simp [Thread.cells])
      exact (hstuck (.thread i) _ trivial
        (by simp only [Server.step, if_neg hsane, threadStep, ht, if_neg hused]; rfl) (by simp)).elim
    | sending fd =>
      exact (hstuck (.thread i) _ trivial
        (by simp only [Server.step, if_neg hsane, threadStep, ht]; rfl) (by simp)).elim
    | closing fd =>
      exact (hstuck (.thread i) _ trivial
        (by simp only [Server.step, if_neg hsane, threadStep, ht]; rfl) (by simp)).elim
  constructor
  · apply List.eq_nil_iff_forall_not_mem.mpr
    intro c hc
    rcases (h.fds.used_iff c.fd).mp (List.mem_map_of_mem hc) with ⟨w, hw⟩
    cases w with
    | none => simp [fdsOf, hmain, Main.fds] at hw
    | some i =>
      cases ht : s.threads[i]? with
      | none => simp [fdsOf, ht] at hw
      | some t =>
        obtain rfl := hdone i t ht
        rw [fdsOf_thread ht] at hw
        cases hw
  · intro a
    by_contra hused
    rcases (h.cells.used_iff a).mp hused with ⟨w, hw⟩
    cases w with
    | none => simp [cellsOf, hmain, Main.cells] at hw
    | some i =>
      cases ht : s.threads[i]? with
      | none => simp [cellsOf, ht] at hw
      | some t =>
        obtain rfl := hdone i t ht
        rw [cellsOf_thread ht] at hw
        cases hw

theorem resting_of_done (hm : s.main = .accepting) (ht : ∀ t ∈ s.threads, t = .done) : s.Resting := by
  intro l s' _ hs
  unfold step at hs
  split_ifs at hs
  cases l with
  | accept fd => exact ⟨fd, rfl⟩
  | calloc cell => simp [hm] at hs
  | create created => simp [hm] at hs
  | main => simp [mainStep, hm] at hs
  | thread i =>
    cases hti : s.threads[i]? with
    | none => simp [threadStep, hti] at hs
    | some t =>
      obtain rfl := ht t (List.mem_of_getElem? hti)
      simp [threadStep, hti] at hs

/-- A connection that `main` has closed is one for which no thread was made. -/
theorem Tended.not_made (h : s.Tended) {c : Connection} (hc : (none, c) ∈ s.kernel.closed) (i : ℕ) :
    s.made[i]? ≠ some (some c) := by
  intro hmade
  rcases h.mine.kept i c hmade with hclosed | ⟨hopen, -⟩
  · -- it would have been closed twice
    have hparts := List.nodup_append.mp (h.sound.parts.nodup_iff.mp h.sound.nodup)
    have hsame := List.inj_on_of_nodup_map hparts.2.1 hc hclosed rfl
    cases hsame
  · exact h.not_closed hopen none hc

/-- As long as `calloc` does not fail, in every interleaving and however descriptors and
cells are used again: no freed cell is touched; no connection is closed twice or sent the
time twice; a thread closes the connection that it was made for, after the time was sent
on it, and `main` only those of the threads that could not be made. Each `accept` is good
for at most eight steps, and when nothing is left to do every accepted connection has been
closed and every cell freed. -/
theorem clients_served (ls : List Label) (s : Server) (hrun : SuppliedRun ls s) :
    s.fault = false ∧ ls.length ≤ (ls.map Label.allowance).sum ∧
    (s.kernel.closed.map Prod.snd).Nodup ∧ s.sent.Nodup ∧
    (∀ i c, (some i, c) ∈ s.kernel.closed → s.made[i]? = some (some c) ∧ c ∈ s.sent) ∧
    (∀ c, (none, c) ∈ s.kernel.closed → c ∉ s.sent ∧ ∀ i : ℕ, s.made[i]? ≠ some (some c)) ∧
    (s.Resting → s.kernel.opened = [] ∧ (∀ a, s.heap a = none) ∧
      s.kernel.accepted.Perm (s.kernel.closed.map Prod.snd) ∧
      ∀ c ∈ s.sent, ∃ i, (some i, c) ∈ s.kernel.closed) := by
  have h := tended_of_run hrun
  -- what is accepted is open or closed, and each connection only one of these
  have hparts := List.nodup_append.mp (h.sound.parts.nodup_iff.mp h.sound.nodup)
  refine ⟨h.sane, ?_, hparts.2.1, h.told.once, ?_, ?_, ?_⟩
  · have hlength := length_le hrun
    omega
  · intro i c hc
    exact ⟨h.mine.closed i c hc, h.told.closed i c hc⟩
  · exact fun c hc => ⟨h.told.refused c hc, h.not_made hc⟩
  · intro hrest
    rcases h.of_resting hrest with ⟨hopened, hheap⟩
    refine ⟨hopened, hheap, ?_, ?_⟩
    · have hall := h.sound.parts
      rwa [hopened, List.nil_append] at hall
    · intro c hc
      -- at rest nothing is open that could still be closed
      rcases h.told.sent c hc with hclosed | ⟨hopen, -⟩
      · exact hclosed
      · rw [hopened] at hopen
        cases hopen

/-- The descriptor 4 and the cell 0 of the first client are used again for the second, while
the first thread is still about to send; a third client gets no thread. -/
def threeClients : List Label :=
  [.accept 4, .calloc (some 0), .main, .create true, .thread 0, .thread 0, .accept 5,
    .calloc (some 0), .main, .create true, .thread 0, .thread 0, .accept 4, .thread 1, .thread 1,
    .thread 1, .thread 1, .calloc (some 0), .main, .create false, .main, .main]

theorem clients_served_threeClients : ∃ s, SuppliedRun threeClients s ∧ s.Resting ∧
    s.fault = false ∧
    s.kernel.closed = [(some 0, ⟨4, 0⟩), (some 1, ⟨5, 1⟩), (none, ⟨4, 2⟩)] ∧
    ⟨4, 2⟩ ∉ s.sent ∧ (∀ i : ℕ, s.made[i]? ≠ some (some ⟨4, 2⟩)) ∧
    s.kernel.opened = [] ∧ (∀ a, s.heap a = none) ∧
    s.kernel.accepted.Perm (s.kernel.closed.map Prod.snd) := by
  have hrun : (Machine.exec (Machine.guarded step fun s l => s.Admissible l ∧ Supplied l) init
      threeClients).map (fun s => (s.main, s.threads, s.kernel.closed)) =
        some (.accepting, [.done, .done], [(some 0, ⟨4, 0⟩), (some 1, ⟨5, 1⟩), (none, ⟨4, 2⟩)]) := by
    decide +kernel
  rcases Machine.Run.exists_of_exec hrun with ⟨s, hrun, hend⟩
  simp only [Prod.mk.injEq] at hend
  rcases hend with ⟨hmain, hthreads, hclosed⟩
  have hrest : s.Resting := resting_of_done hmain (by simp [hthreads])
  rcases clients_served threeClients s hrun with ⟨hsane, -, -, -, -, hrefused, hserved⟩
  rcases hserved hrest with ⟨hopened, hheap, hall, -⟩
  rcases hrefused ⟨4, 2⟩ (by simp [hclosed]) with ⟨hsilent, hunmade⟩
  exact ⟨s, hrun, hrest, hsane, hclosed, hsilent, hunmade, hopened, hheap, hall⟩

end Server

end EmbeddedCourse.Listening
