import EmbeddedCourse.Lib.Cells
import EmbeddedCourse.Lib.Owners
import EmbeddedCourse.Lib.Run
import EmbeddedCourse.Sockets.Connections
import Mathlib.Logic.Function.Basic

/-! # A thread for every client

`Sockets/Task_2/Listening_Server/server.c`. Each connection travels to its thread
in a cell of its own, which the thread frees; a thread closes its connection. Both
descriptors and cells are used again as soon as they have been given back, while
other threads are still at work. What keeps them apart is that each has one owner
at a time (`Tended`).
-/

namespace EmbeddedCourse.Listening

open Sockets

/-- The cells that `calloc` has returned and `free` has not been given, with the
descriptors in them. -/
abbrev Heap := ℕ → Option Int

/-- Where `main` is in its loop, with `tmp` and `client_fd`. -/
inductive Main where
  | accepting
  | allocating (tmp : Int)
  | storing (tmp : Int) (clientFd : Option ℕ)
  | creating (clientFd : ℕ)
  | closing (clientFd : ℕ)
  | freeing (clientFd : ℕ)
deriving DecidableEq, Repr

/-- Where a thread is in `serve_clients`. -/
inductive Thread where
  | loading (arg : ℕ)
  | freeing (arg : ℕ) (clientFd : Int)
  | sending (clientFd : Int)
  | closing (clientFd : Int)
  | done
deriving DecidableEq, Repr

/-- `none` is `main`. -/
abbrev Who := Option ℕ

/-- The process, with the connections for which the threads were made, and those that were
sent the time. `fault`: something undefined was done. -/
structure Server where
  main : Main
  threads : List Thread
  made : List (Option Connection)
  heap : Heap
  kernel : Kernel Who
  sent : List Connection
  fault : Bool

/-- What the calls of `main` return, its other statements, and the statements of a thread. -/
inductive Label where
  | accept (fd : Int)
  | calloc (clientFd : Option ℕ)
  | create (created : Bool)
  | main
  | thread (i : ℕ)
deriving DecidableEq, Repr

namespace Server

def init : Server :=
  { main := .accepting, threads := [], made := [], heap := fun _ => none, kernel := Kernel.init,
    sent := [], fault := false }

def crash (s : Server) : Server := { s with fault := true }

/-- What is open under a descriptor. -/
def connection (s : Server) (fd : Int) : Option Connection :=
  Keyed.lookup Connection.fd fd s.kernel.opened

/-- A statement of `main` that is not a call with a result. -/
def mainStep (s : Server) : Option Server :=
  match s.main with
  | .storing _ none => some s.crash
  | .storing tmp (some a) =>
    if s.heap a = none then some s.crash
    else some { s with main := .creating a, heap := Function.update s.heap a (some tmp) }
  | .closing a =>
    match s.heap a with
    | none => some s.crash
    | some fd => some { s with main := .freeing a, kernel := s.kernel.close none fd }
  | .freeing a =>
    if s.heap a = none then some s.crash
    else some { s with main := .accepting, heap := Function.update s.heap a none }
  | .accepting | .allocating _ | .creating _ => none

/-- Thread `i` goes on to `t`. -/
def setThread (s : Server) (i : ℕ) (t : Thread) : Server := { s with threads := s.threads.set i t }

/-- A statement of thread `i`. -/
def threadStep (s : Server) (i : ℕ) : Option Server :=
  match s.threads[i]? with
  | none | some .done => none
  | some (.loading arg) =>
    match s.heap arg with
    | none => some s.crash
    | some fd => some (s.setThread i (.freeing arg fd))
  | some (.freeing arg fd) =>
    if s.heap arg = none then some s.crash
    else some { s.setThread i (.sending fd) with heap := Function.update s.heap arg none }
  | some (.sending fd) =>
    some { s.setThread i (.closing fd) with sent := s.sent ++ (s.connection fd).toList }
  | some (.closing fd) => some { s.setThread i .done with kernel := s.kernel.close (some i) fd }

def step (s : Server) (l : Label) : Option Server :=
  if s.fault then none
  else
    match l with
    | .accept fd =>
      match s.main with
      | .accepting =>
        some { s with
          main := .allocating fd
          kernel := if 0 ≤ fd then s.kernel.accept fd else s.kernel }
      | _ => none
    | .calloc clientFd =>
      match s.main with
      | .allocating tmp =>
        some { s with
          main := .storing tmp clientFd
          heap := match clientFd with
            | none => s.heap
            | some a => Function.update s.heap a (some 0) }
      | _ => none
    | .create created =>
      match s.main with
      | .creating a =>
        some (if created then { s with
            main := .accepting
            threads := s.threads ++ [.loading a]
            made := s.made ++ [(s.heap a).bind s.connection] }
          else { s with main := .closing a })
      | _ => none
    | .main => s.mainStep
    | .thread i => s.threadStep i

/-- `accept` returns a descriptor that is not open, and `calloc` a cell that is not in use. -/
def Admissible (s : Server) (l : Label) : Prop :=
  match l with
  | .accept fd => 0 ≤ fd → s.kernel.Free fd
  | .calloc (some a) => s.heap a = none
  | .calloc none | .create _ | .main | .thread _ => True

instance (s : Server) : ∀ l : Label, Decidable (s.Admissible l)
  | .accept fd => inferInstanceAs (Decidable (0 ≤ fd → s.kernel.Free fd))
  | .calloc (some a) => inferInstanceAs (Decidable (s.heap a = none))
  | .calloc none | .create _ | .main | .thread _ => .isTrue trivial

/-- `calloc` does not fail. -/
def Supplied (l : Label) : Prop := l ≠ .calloc none

instance (l : Label) : Decidable (Supplied l) := inferInstanceAs (Decidable (_ ≠ _))

end Server

/-! ## Who owns what -/

/-- A descriptor to be closed, unless the `accept` has failed. -/
def owned (fd : Int) : List Int := if 0 ≤ fd then [fd] else []

def Main.cells : Main → List ℕ
  | .accepting | .allocating _ | .storing _ none => []
  | .storing _ (some a) | .creating a | .closing a | .freeing a => [a]

def Main.fds (h : Heap) : Main → List Int
  | .accepting | .freeing _ => []
  | .allocating tmp | .storing tmp _ => owned tmp
  | .creating a | .closing a => (h a).toList.flatMap owned

def Thread.cells : Thread → List ℕ
  | .loading a | .freeing a _ => [a]
  | .sending _ | .closing _ | .done => []

def Thread.fds (h : Heap) : Thread → List Int
  | .loading a => (h a).toList.flatMap owned
  | .freeing _ fd | .sending fd | .closing fd => owned fd
  | .done => []

namespace Server

variable {s s' : Server} {l : Label} {i : ℕ} {t t' : Thread} {w : Who} {a : ℕ} {fd : Int}

/-- The cells of `w`. -/
def cellsOf (s : Server) : Who → List ℕ
  | none => s.main.cells
  | some i => (s.threads[i]?.map Thread.cells).getD []

/-- The descriptors of `w`. -/
def fdsOf (s : Server) : Who → List Int
  | none => s.main.fds s.heap
  | some i => (s.threads[i]?.map (Thread.fds s.heap)).getD []

/-- Thread `i` is about to close the descriptor. -/
def Closes (s : Server) (i : ℕ) (fd : Int) : Prop := s.threads[i]? = some (Thread.closing fd)

/-- What has been sent the time is closed by its thread, or about to be, and nothing
else is. -/
structure Told (s : Server) : Prop where
  once : s.sent.Nodup
  closed : ∀ i c, (some i, c) ∈ s.kernel.closed → c ∈ s.sent
  closing : ∀ i c, s.Closes i c.fd → c ∈ s.kernel.opened → c ∈ s.sent
  sent : ∀ c ∈ s.sent, (∃ i, (some i, c) ∈ s.kernel.closed) ∨
    c ∈ s.kernel.opened ∧ ∃ i, s.Closes i c.fd
  refused : ∀ c, (none, c) ∈ s.kernel.closed → c ∉ s.sent

/-- What a thread owns, and what it has closed, is the connection it was made for;
and that connection stays its own until it has closed it. -/
structure Mine (s : Server) : Prop where
  length : s.made.length = s.threads.length
  owned : ∀ i c, c ∈ s.kernel.opened → c.fd ∈ s.fdsOf (some i) → s.made[i]? = some (some c)
  closed : ∀ i c, (some i, c) ∈ s.kernel.closed → s.made[i]? = some (some c)
  kept : ∀ i c, s.made[i]? = some (some c) →
    (some i, c) ∈ s.kernel.closed ∨ c ∈ s.kernel.opened ∧ c.fd ∈ s.fdsOf (some i)

/-- Every cell in use and every open connection has one owner. -/
structure Tended (s : Server) : Prop where
  sound : s.kernel.Sound
  sane : s.fault = false
  cells : Owned (fun w a => a ∈ s.cellsOf w) fun a => s.heap a ≠ none
  fds : Owned (fun w fd => fd ∈ s.fdsOf w) fun fd => fd ∈ s.kernel.opened.map Connection.fd
  told : s.Told
  mine : s.Mine
  cell : ∀ tmp, s.main ≠ .storing tmp none

/-! ## What does not change -/

theorem mem_owned {x : Int} : x ∈ owned fd ↔ 0 ≤ fd ∧ x = fd := by
  unfold owned
  split_ifs with h <;> simp [h]

theorem nonneg_flatMap {o : Option Int} (h : fd ∈ o.toList.flatMap owned) : 0 ≤ fd := by
  rcases List.mem_flatMap.mp h with ⟨x, -, hx⟩
  rcases mem_owned.mp hx with ⟨hge, rfl⟩
  exact hge

/-- What is owned is a descriptor. -/
theorem nonneg_of_mem_fdsOf (h : fd ∈ s.fdsOf w) : 0 ≤ fd := by
  cases w with
  | none =>
    rw [fdsOf] at h
    cases hm : s.main with
    | accepting | freeing => simp [hm, Main.fds] at h
    | allocating tmp | storing tmp =>
      rw [hm] at h
      -- a failed `accept` is not owned
      rcases mem_owned.mp h with ⟨hge, rfl⟩
      exact hge
    | creating a | closing a =>
      rw [hm] at h
      exact nonneg_flatMap h
  | some i =>
    rw [fdsOf] at h
    cases ht : s.threads[i]? with
    | none => simp [ht] at h
    | some t =>
      rw [ht] at h
      cases t with
      | done => cases h
      | loading arg => exact nonneg_flatMap h
      | freeing _ fd | sending fd | closing fd =>
        rcases mem_owned.mp h with ⟨hge, rfl⟩
        exact hge

theorem cellsOf_thread (ht : s.threads[i]? = some t) : s.cellsOf (some i) = t.cells := by
  rw [cellsOf, ht]
  rfl

theorem fdsOf_thread (ht : s.threads[i]? = some t) : s.fdsOf (some i) = t.fds s.heap := by
  rw [fdsOf, ht]
  rfl

theorem getElem?_setThread (ht : s.threads[i]? = some t) (j : ℕ) :
    (s.setThread i t').threads[j]? = if j = i then some t' else s.threads[j]? := by
  rcases List.getElem?_eq_some_iff.mp ht with ⟨hlt, -⟩
  show (s.threads.set i t')[j]? = _
  by_cases hj : j = i
  · rw [hj, if_pos rfl, List.getElem?_set_self hlt]
  · rw [if_neg hj, List.getElem?_set_ne (Ne.symm hj)]

theorem cellsOf_setThread (ht : s.threads[i]? = some t) (w : Who) :
    (s.setThread i t').cellsOf w = if w = some i then t'.cells else s.cellsOf w := by
  cases w with
  | none => rfl
  | some j =>
    rw [cellsOf, getElem?_setThread ht]
    by_cases hj : j = i
    · simp [hj]
    · simp [hj, cellsOf]

theorem fdsOf_setThread (ht : s.threads[i]? = some t) (w : Who) :
    (s.setThread i t').fdsOf w = if w = some i then t'.fds s.heap else s.fdsOf w := by
  cases w with
  | none => rfl
  | some j =>
    rw [fdsOf, getElem?_setThread ht]
    by_cases hj : j = i
    · simp [hj, setThread]
    · simp [hj, fdsOf, setThread]

/-- A change of somebody else's cell does not matter. -/
theorem fdsOf_heap (h : a ∉ s.cellsOf w) (v : Option Int) :
    fdsOf { s with heap := Function.update s.heap a v } w = s.fdsOf w := by
  cases w with
  | none =>
    rw [cellsOf] at h
    simp only [fdsOf]
    cases hm : s.main with
    | accepting | freeing | allocating | storing => rfl
    | creating b | closing b =>
      rw [hm] at h
      -- the descriptor is in the own cell
      have hne : b ≠ a := fun he => h (by simp [Main.cells, he])
      simp only [Main.fds]
      rw [Function.update_of_ne hne]
  | some i =>
    rw [cellsOf] at h
    simp only [fdsOf]
    cases ht : s.threads[i]? with
    | none => rfl
    | some t =>
      rw [ht] at h
      cases t with
      | done | freeing | sending | closing => rfl
      | loading b =>
        -- the descriptor is in the own cell
        have hne : b ≠ a := fun he => h (by simp [Thread.cells, he])
        simp only [Option.map_some, Option.getD_some, Thread.fds]
        rw [Function.update_of_ne hne]

theorem mem_fdsOf_heap (h : a ∉ s.cellsOf (some i)) (v : Option Int) {m : Main} (x : Int) :
    x ∈ ({ s with main := m, heap := Function.update s.heap a v } : Server).fdsOf (some i) ↔
      x ∈ s.fdsOf (some i) := by
  have hsame := fdsOf_heap h v
  show x ∈ ({ s with heap := Function.update s.heap a v } : Server).fdsOf (some i) ↔ _
  rw [hsame]

/-! ## The connections -/

namespace Tended

/-- What is open has not been closed. -/
theorem not_closed (h : s.Tended) {c : Connection} (hc : c ∈ s.kernel.opened) (w : Who) :
    (w, c) ∉ s.kernel.closed := by
  intro hclosed
  have hnd := h.sound.parts.nodup_iff.mp h.sound.nodup
  exact (List.nodup_append.mp hnd).2.2 c hc c (List.mem_map.mpr ⟨(w, c), hclosed, rfl⟩) rfl

theorem nodup_opened (h : s.Tended) : s.kernel.opened.Nodup :=
  (List.nodup_append.mp (h.sound.parts.nodup_iff.mp h.sound.nodup)).1

/-- The connection of a descriptor that somebody owns. -/
theorem exists_connection (h : s.Tended) (hfd : fd ∈ s.fdsOf w) :
    ∃ c ∈ s.kernel.opened, c.fd = fd := by
  rcases List.mem_map.mp (h.fds.used_of_owns hfd) with ⟨c, hc, hcfd⟩
  exact ⟨c, hc, hcfd⟩

theorem connection_eq (h : s.Tended) {c : Connection} (hc : c ∈ s.kernel.opened) :
    s.connection c.fd = some c :=
  Keyed.lookup_of_mem Connection.fd h.sound.fds hc

theorem eq_of_fd (h : s.Tended) {c d : Connection} (hc : c ∈ s.kernel.opened)
    (hd : d ∈ s.kernel.opened) (he : c.fd = d.fd) : c = d := by
  have hcc := h.connection_eq hc
  rw [he, h.connection_eq hd] at hcc
  exact (Option.some.inj hcc).symm

/-- Nothing is open under the result of an `accept` that has failed. -/
theorem connection_neg (h : s.Tended) (hneg : ¬ 0 ≤ fd) : s.connection fd = none := by
  rw [connection, Keyed.lookup_eq_none_iff]
  intro hmem
  rcases (h.fds.used_iff fd).mp hmem with ⟨w, hw⟩
  exact hneg (nonneg_of_mem_fdsOf hw)

theorem close_neg (h : s.Tended) (hneg : ¬ 0 ≤ fd) (w : Who) : s.kernel.close w fd = s.kernel := by
  have hnone := h.connection_neg hneg
  rw [connection] at hnone
  rw [Kernel.close, hnone]

/-- A descriptor is closed by who owns it. -/
theorem used_close (h : s.Tended) {c : Connection} (hc : c ∈ s.kernel.opened) (w : Who) (x : Int) :
    x ∈ (s.kernel.close w c.fd).opened.map Connection.fd ↔
      x ∈ s.kernel.opened.map Connection.fd ∧ x ≠ c.fd := by
  rw [Kernel.close_of_mem h.sound w hc]
  have herase : ∀ d, d ∈ s.kernel.opened.erase c ↔ d ≠ c ∧ d ∈ s.kernel.opened := fun d =>
    h.nodup_opened.mem_erase_iff
  constructor
  · intro hx
    rcases List.mem_map.mp hx with ⟨d, hd, rfl⟩
    rcases (herase d).mp hd with ⟨hne, hd⟩
    exact ⟨List.mem_map_of_mem hd, fun he => hne (h.eq_of_fd hd hc he)⟩
  · rintro ⟨hx, hne⟩
    rcases List.mem_map.mp hx with ⟨d, hd, rfl⟩
    exact List.mem_map_of_mem ((herase d).mpr ⟨fun he => hne (by rw [he]), hd⟩)

end Tended

theorem Told.congr (h : s.Told) (hk : s'.kernel = s.kernel) (hs : s'.sent = s.sent)
    (hc : ∀ i fd, s'.Closes i fd ↔ s.Closes i fd) : s'.Told where
  once := hs ▸ h.once
  closed := by
    intro i c
    rw [hk, hs]
    exact h.closed i c
  closing := by
    intro i c
    rw [hc, hk, hs]
    exact h.closing i c
  sent := by
    intro c
    simp only [hc, hk, hs]
    exact h.sent c
  refused := by
    intro c
    rw [hk, hs]
    exact h.refused c

theorem Mine.congr (h : s.Mine) (hk : s'.kernel = s.kernel) (hm : s'.made = s.made)
    (hl : s'.threads.length = s.threads.length)
    (hf : ∀ i x, x ∈ s'.fdsOf (some i) ↔ x ∈ s.fdsOf (some i)) : s'.Mine where
  length := by
    rw [hm, hl]
    exact h.length
  owned := by
    intro i c
    rw [hk, hf, hm]
    exact h.owned i c
  closed := by
    intro i c
    rw [hk, hm]
    exact h.closed i c
  kept := by
    intro i c
    rw [hk, hf, hm]
    exact h.kept i c

/-- A thread that neither was nor is about to close its connection. -/
theorem closes_setThread (ht : s.threads[i]? = some t) (hold : ∀ fd, t ≠ .closing fd)
    (hnew : ∀ fd, t' ≠ .closing fd) (j : ℕ) (fd : Int) :
    (s.setThread i t').Closes j fd ↔ s.Closes j fd := by
  unfold Closes
  rw [getElem?_setThread ht]
  by_cases hj : j = i
  · rw [if_pos hj, hj, ht, Option.some_inj, Option.some_inj]
    exact ⟨fun he => absurd he (hnew fd), fun he => absurd he (hold fd)⟩
  · rw [if_neg hj]

/-- The descriptor that a thread is about to use is its own. -/
theorem mem_fdsOf_sending (ht : s.threads[i]? = some (.sending fd)) (hge : 0 ≤ fd) :
    fd ∈ s.fdsOf (some i) := by
  rw [fdsOf_thread ht]
  exact mem_owned.mpr ⟨hge, rfl⟩

theorem mem_fdsOf_closing (ht : s.Closes i fd) (hge : 0 ≤ fd) : fd ∈ s.fdsOf (some i) := by
  rw [fdsOf_thread ht]
  exact mem_owned.mpr ⟨hge, rfl⟩

theorem Tended.nonneg (h : s.Tended) {c : Connection} (hc : c ∈ s.kernel.opened) : 0 ≤ c.fd := by
  rcases (h.fds.used_iff c.fd).mp (List.mem_map_of_mem hc) with ⟨w, hw⟩
  exact nonneg_of_mem_fdsOf hw

/-- Who else closes the descriptor than who owns it? -/
theorem Tended.closes_unique (h : s.Tended) {c : Connection} (hc : c ∈ s.kernel.opened)
    (hown : c.fd ∈ s.fdsOf w) {j : ℕ} (hj : s.Closes j c.fd) : w = some j :=
  h.fds.unique _ _ _ hown (mem_fdsOf_closing hj (h.nonneg hc))

end Server

end EmbeddedCourse.Listening
