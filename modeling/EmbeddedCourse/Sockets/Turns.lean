import EmbeddedCourse.Sockets.HandOff

/-! # Taking turns

Whether each connection is read once is a matter of turns (`InTurn`): nothing is
stored while a connection stands in `fd_socket` unread, nothing is read twice,
and a thread that finishes is one that is marked busy. The wait for `count` to be
positive sees to none of these, and the first step out of turn is never made good
(`Broken`).
-/

namespace EmbeddedCourse.PullThreads

open Sockets

variable {s s' : System} {i : ℕ}

/-- `fd_socket` holds a connection that no thread has read. -/
def Pending (s : System) : Prop :=
  s.fdSocket.fd ≠ -1 ∧ s.fdSocket ∈ s.handed ∧ s.fdSocket ∉ s.taken.map Prod.snd

instance (s : System) : Decidable (Pending s) := inferInstanceAs (Decidable (_ ∧ _ ∧ _))

/-- `main` does not store a connection over an unread one, a thread leaves the
wait for a connection that is unread (or for a failed accept), and a thread that
finishes is marked busy. -/
def InTurn (s : System) : Label → Prop
  | .decide => (s.idxThreads.findIdx? id).isSome → ¬ Pending s
  | .take _ => s.count ≠ 0 → s.fdSocket.fd = -1 ∨ Pending s
  | .finish i => s.idxThreads[i]? = some false
  | .accept _ | .refuse | .send _ | .close _ => True

instance (s : System) : ∀ l : Label, Decidable (InTurn s l)
  | .decide => inferInstanceAs (Decidable (_ → _))
  | .take _ => inferInstanceAs (Decidable (_ → _))
  | .finish i => inferInstanceAs (Decidable (s.idxThreads[i]? = some false))
  | .accept _ | .refuse | .send _ | .close _ => .isTrue trivial

/-- What holds as long as every step is in turn. -/
structure Orderly (s : System) : Prop where
  once : ∀ c : Connection, c.fd ≠ -1 → s.takes c ≤ s.handed.count c
  pending : ∀ c ∈ s.handed, c.fd ≠ -1 → s.takes c = 0 → s.fdSocket = c
  counted : s.count = s.idxThreads.count false

/-- The entry of an idle thread that `main` finds is set. -/
theorem count_false_set_false {l : List Bool} {idx : ℕ} (h : l.findIdx? id = some idx) :
    (l.set idx false).count false = l.count false + 1 := by
  rcases List.findIdx?_eq_some_iff_getElem.mp h with ⟨hlt, htrue, -⟩
  have hidx : l[idx] = true := htrue
  rw [List.count_set hlt, hidx]
  simp

theorem count_false_set_true {l : List Bool} (h : l[i]? = some false) :
    (l.set i true).count false + 1 = l.count false := by
  rcases List.getElem?_eq_some_iff.mp h with ⟨hlt, hfalse⟩
  have hpos : 0 < l.count false := List.count_pos_iff.mpr (List.mem_of_getElem? h)
  rw [List.count_set hlt, hfalse]
  simp
  omega

theorem count_false_le_set_true {l : List Bool} (h : l[i]? ≠ some false) :
    l.count false ≤ (l.set i true).count false := by
  by_cases hlt : i < l.length
  · have htrue : l[i] = true := by
      by_contra hfalse
      apply h
      rw [List.getElem?_eq_getElem hlt, Bool.eq_false_iff.mpr hfalse]
    rw [List.count_set hlt, htrue]
    simp
  · exact Nat.le_of_eq (by rw [List.set_eq_of_length_le (Nat.le_of_not_lt hlt)])

namespace Orderly

theorem init : Orderly System.init := by
  constructor
  · exact fun c _ => Nat.le_refl 0
  · simp [System.init]
  · rfl

theorem handOver (h : Orderly s) (client : Connection) {idx : ℕ}
    (hidx : s.idxThreads.findIdx? id = some idx) (hturn : ¬ Pending s) :
    Orderly { s with
      idxThreads := s.idxThreads.set idx false, count := s.count + 1, fdSocket := client
      main := .accepting, handed := s.handed ++ [client] } := by
  constructor
  · intro c hc
    have honce := h.once c hc
    show s.takes c ≤ (s.handed ++ [client]).count c
    rw [List.count_append]
    omega
  · intro c hc hreal hnone
    rcases List.mem_append.mp hc with hc | hc
    · -- an older connection that is unread would be the pending one
      obtain rfl := h.pending c hc hreal hnone
      exact absurd ⟨hreal, hc, List.count_eq_zero.mp hnone⟩ hturn
    · exact (List.mem_singleton.mp hc).symm
  · show s.count + 1 = (s.idxThreads.set idx false).count false
    rw [count_false_set_false hidx, h.counted]
    rfl

theorem take (h : Orderly s) (i : ℕ) (hturn : s.fdSocket.fd = -1 ∨ Pending s) :
    Orderly { s.setThread i (.sending s.fdSocket) with taken := s.taken ++ [(i, s.fdSocket)] } := by
  constructor
  · intro c hc
    have honce := h.once c hc
    show ((s.taken ++ [(i, s.fdSocket)]).map Prod.snd).count c ≤ s.handed.count c
    rw [takes_concat]
    by_cases hslot : s.fdSocket = c
    · -- it has been handed over and not been read
      obtain rfl := hslot
      rcases hturn with hfail | ⟨-, hhanded, hunread⟩
      · exact absurd hfail hc
      · have hnone : s.takes s.fdSocket = 0 := List.count_eq_zero.mpr hunread
        have hpos : 0 < s.handed.count s.fdSocket := List.count_pos_iff.mpr hhanded
        rw [hnone, List.count_singleton_self]
        exact hpos
    · rw [List.count_singleton, if_neg (by simpa using hslot)]
      exact honce
  · intro c hc hreal hnone
    apply h.pending c hc hreal
    have htakes : ((s.taken ++ [(i, s.fdSocket)]).map Prod.snd).count c = 0 := hnone
    rw [takes_concat] at htakes
    omega
  · exact h.counted

theorem finish (h : Orderly s) (hturn : s.idxThreads[i]? = some false) :
    Orderly { s.setThread i .waiting with
      count := s.count - 1, idxThreads := s.idxThreads.set i true } := by
  constructor
  · exact h.once
  · exact h.pending
  · have hset := count_false_set_true hturn
    have hcounted := h.counted
    show s.count - 1 = (s.idxThreads.set i true).count false
    omega

/-- A step in turn keeps the hand-over in order. -/
theorem step {l : Label} (h : Orderly s) (hturn : InTurn s l) (hs : s.step l = some s') :
    Orderly s' := by
  cases l with
  | accept fd =>
    rcases accept_cases hs with ⟨-, ⟨-, rfl⟩ | ⟨-, rfl⟩⟩
    · exact ⟨h.once, h.pending, h.counted⟩
    · exact ⟨h.once, h.pending, h.counted⟩
  | decide =>
    rcases decide_cases hs with ⟨client, -, ⟨-, rfl⟩ | ⟨idx, hidx, rfl⟩⟩
    · exact ⟨h.once, h.pending, h.counted⟩
    · -- the thread that was found is idle, and the connection before has been read
      exact h.handOver client hidx (hturn (by rw [hidx]; rfl))
  | refuse =>
    rcases refuse_cases hs with ⟨client, -, rfl⟩
    exact ⟨h.once, h.pending, h.counted⟩
  | take i =>
    rcases take_cases hs with ⟨-, ⟨-, rfl⟩ | ⟨hcount, rfl⟩⟩
    · exact h
    · exact h.take i (hturn hcount)
  | send i =>
    rcases send_cases hs with ⟨client, -, rfl⟩
    exact ⟨h.once, h.pending, h.counted⟩
  | close i =>
    rcases close_cases hs with ⟨client, -, rfl⟩
    exact ⟨h.once, h.pending, h.counted⟩
  | finish i =>
    rcases finish_cases hs with ⟨-, rfl⟩
    exact h.finish hturn

end Orderly

/-! ## Out of turn -/

/-- A connection that was handed over is overwritten unread or has been read twice. -/
def Mishandled (s : System) (c : Connection) : Prop :=
  c ∈ s.handed ∧ c.fd ≠ -1 ∧ ((s.takes c = 0 ∧ s.fdSocket ≠ c) ∨ 1 < s.takes c)

/-- A connection is mishandled, or `count` is below the number of threads marked busy. -/
def Broken (s : System) : Prop :=
  (∃ c, Mishandled s c) ∨ s.count < s.idxThreads.count false

/-- What has been handed over has been accepted and is not in the hands of `main`. -/
theorem Sound.of_handed (h : Sound s) {c : Connection} (hc : c ∈ s.handed) (hreal : c.fd ≠ -1) :
    c ∈ s.kernel.accepted ∧ c ∉ s.refused ∧ c ∉ s.main.undecided := by
  have harrived := h.arrived c hreal
  have hpos : 0 < s.handed.count c := List.count_pos_iff.mpr hc
  have hle : s.kernel.accepted.count c ≤ 1 := List.nodup_iff_count_le_one.mp h.nodup c
  refine ⟨List.count_pos_iff.mp (by omega), ?_, ?_⟩
  · exact List.count_eq_zero.mp (by omega)
  · exact List.count_eq_zero.mp (by omega)

theorem Broken.of_step {l : Label} (h : Sound s) (ho : Orderly s) (hturn : ¬ InTurn s l)
    (hs : s.step l = some s') : Broken s' := by
  cases l with
  | accept fd => exact absurd trivial hturn
  | refuse => exact absurd trivial hturn
  | send i => exact absurd trivial hturn
  | close i => exact absurd trivial hturn
  | decide =>
    -- the unread connection is overwritten by another one
    rcases decide_cases hs with ⟨client, hmain, ⟨hidx, rfl⟩ | ⟨idx, hidx, rfl⟩⟩
    · exact absurd (fun hsome => by rw [hidx] at hsome; cases hsome) hturn
    · have hpending : Pending s := by
        by_contra hnot
        exact hturn fun _ => hnot
      rcases hpending with ⟨hreal, hhanded, hunread⟩
      left
      refine ⟨s.fdSocket, List.mem_append_left _ hhanded, hreal, Or.inl ⟨?_, ?_⟩⟩
      · exact List.count_eq_zero.mpr hunread
      · rintro rfl
        apply (h.of_handed hhanded hreal).2.2
        rw [hmain]
        exact List.mem_singleton_self _
  | take i =>
    -- a connection that has been read is read again
    rcases take_cases hs with ⟨-, ⟨hzero, rfl⟩ | ⟨hcount, rfl⟩⟩
    · exact absurd (fun hne => absurd hzero hne) hturn
    · have hnot : ¬ (s.fdSocket.fd = -1 ∨ Pending s) := fun hor => hturn fun _ => hor
      have hhanded : s.fdSocket ∈ s.handed := h.slot fun hnil => hcount (h.idle hnil).1
      have hreal : s.fdSocket.fd ≠ -1 := fun hfail => hnot (Or.inl hfail)
      have hread : s.fdSocket ∈ s.taken.map Prod.snd := by
        by_contra hunread
        exact hnot (Or.inr ⟨hreal, hhanded, hunread⟩)
      left
      refine ⟨s.fdSocket, hhanded, hreal, Or.inr ?_⟩
      have hpos : 0 < s.takes s.fdSocket := List.count_pos_iff.mpr hread
      show 1 < ((s.taken ++ [(i, s.fdSocket)]).map Prod.snd).count s.fdSocket
      rw [takes_concat, List.count_singleton_self]
      omega
  | finish i =>
    -- `count` goes down, and no thread that was busy becomes idle
    rcases finish_cases hs with ⟨-, rfl⟩
    right
    have hcounted := ho.counted
    have hsame : s.idxThreads.count false ≤ (s.idxThreads.set i true).count false :=
      count_false_le_set_true hturn
    show s.count - 1 < (s.idxThreads.set i true).count false
    omega

theorem Mishandled.keep {l : Label} {c : Connection} (h : Sound s) (hc : Mishandled s c)
    (hs : s.step l = some s') : Mishandled s' c := by
  rcases hc with ⟨hhanded, hreal, hmis⟩
  cases l with
  | accept fd =>
    rcases accept_cases hs with ⟨-, ⟨-, rfl⟩ | ⟨-, rfl⟩⟩
    · exact ⟨hhanded, hreal, hmis⟩
    · exact ⟨hhanded, hreal, hmis⟩
  | decide =>
    rcases decide_cases hs with ⟨client, hmain, ⟨-, rfl⟩ | ⟨idx, -, rfl⟩⟩
    · exact ⟨hhanded, hreal, hmis⟩
    · -- `main` never stores the same connection again
      refine ⟨List.mem_append_left _ hhanded, hreal, ?_⟩
      rcases hmis with ⟨hunread, -⟩ | htwice
      · refine Or.inl ⟨hunread, ?_⟩
        rintro rfl
        apply (h.of_handed hhanded hreal).2.2
        rw [hmain]
        exact List.mem_singleton_self _
      · exact Or.inr htwice
  | refuse =>
    rcases refuse_cases hs with ⟨client, -, rfl⟩
    exact ⟨hhanded, hreal, hmis⟩
  | take i =>
    rcases take_cases hs with ⟨-, ⟨-, rfl⟩ | ⟨-, rfl⟩⟩
    · exact ⟨hhanded, hreal, hmis⟩
    · refine ⟨hhanded, hreal, ?_⟩
      unfold System.takes
      dsimp only [System.setThread]
      rw [takes_concat]
      rcases hmis with ⟨hunread, hslot⟩ | htwice
      · left
        rw [hunread, List.count_singleton, if_neg (by simpa using hslot)]
        exact ⟨rfl, hslot⟩
      · right
        omega
  | send i =>
    rcases send_cases hs with ⟨client, -, rfl⟩
    exact ⟨hhanded, hreal, hmis⟩
  | close i =>
    rcases close_cases hs with ⟨client, -, rfl⟩
    exact ⟨hhanded, hreal, hmis⟩
  | finish i =>
    rcases finish_cases hs with ⟨-, rfl⟩
    exact ⟨hhanded, hreal, hmis⟩

/-- `count` never catches up with the threads marked busy. -/
theorem short_keep {l : Label} (hshort : s.count < s.idxThreads.count false)
    (hs : s.step l = some s') : s'.count < s'.idxThreads.count false := by
  cases l with
  | accept fd =>
    rcases accept_cases hs with ⟨-, ⟨-, rfl⟩ | ⟨-, rfl⟩⟩
    · exact hshort
    · exact hshort
  | decide =>
    rcases decide_cases hs with ⟨client, -, ⟨-, rfl⟩ | ⟨idx, hidx, rfl⟩⟩
    · exact hshort
    · -- one more is counted, and one more is marked
      show s.count + 1 < (s.idxThreads.set idx false).count false
      rw [count_false_set_false hidx]
      omega
  | refuse =>
    rcases refuse_cases hs with ⟨client, -, rfl⟩
    exact hshort
  | take i =>
    rcases take_cases hs with ⟨-, ⟨-, rfl⟩ | ⟨-, rfl⟩⟩
    · exact hshort
    · exact hshort
  | send i =>
    rcases send_cases hs with ⟨client, -, rfl⟩
    exact hshort
  | close i =>
    rcases close_cases hs with ⟨client, -, rfl⟩
    exact hshort
  | finish i =>
    rcases finish_cases hs with ⟨-, rfl⟩
    -- at most one mark is taken away, and `count` goes down too
    have hle : s.idxThreads.count false ≤ (s.idxThreads.set i true).count false + 1 := by
      by_cases hturn : s.idxThreads[i]? = some false
      · exact Nat.le_of_eq (count_false_set_true hturn).symm
      · exact Nat.le_succ_of_le (count_false_le_set_true hturn)
    show s.count - 1 < (s.idxThreads.set i true).count false
    omega

theorem Broken.keep {l : Label} (h : Sound s) (hbroken : Broken s) (hs : s.step l = some s') :
    Broken s' := by
  rcases hbroken with ⟨c, hc⟩ | hshort
  · exact Or.inl ⟨c, hc.keep h hs⟩
  · exact Or.inr (short_keep hshort hs)

/-! ## The result -/

/-- The runs of the server in which `count` stays an `int`. -/
abbrev SystemRun (ls : List Label) (s : System) : Prop :=
  Machine.Run System.step InRange System.init ls s

/-- Every accepted connection that is not refused has been read once, or stands
in `fd_socket` unread; none has been sent to or closed twice; and `count` is the
number of threads marked busy. -/
structure Served (s : System) : Prop where
  once : ∀ c ∈ s.kernel.accepted, c ∉ s.refused → s.main ≠ .deciding c →
    s.takes c = 1 ∨ (s.takes c = 0 ∧ s.fdSocket = c)
  sends : ∀ c ∈ s.kernel.accepted, s.sends.count c ≤ 1
  closes : ∀ c ∈ s.kernel.accepted, s.closes.count c ≤ 1
  counted : s.count = s.idxThreads.count false

/-- In order, every connection is read once. -/
theorem Orderly.served (h : Sound s) (ho : Orderly s) : Served s := by
  have hread : ∀ c ∈ s.kernel.accepted, s.refused.count c + s.takes c ≤ 1 := by
    intro c hc
    have hreal := h.real c hc
    have harrived := h.arrived c hreal
    have honce := ho.once c hreal
    have hle : s.kernel.accepted.count c ≤ 1 := List.nodup_iff_count_le_one.mp h.nodup c
    omega
  constructor
  · intro c hc hrefused hmain
    have hreal := h.real c hc
    have hle := hread c hc
    by_cases hzero : s.takes c = 0
    · -- a connection that nobody has read is the one in `fd_socket`
      right
      refine ⟨hzero, ho.pending c ?_ hreal hzero⟩
      have harrived := h.arrived c hreal
      have hpos : 0 < s.kernel.accepted.count c := List.count_pos_iff.mpr hc
      have hnone : s.main.undecided.count c = 0 := by
        apply List.count_eq_zero.mpr
        cases hm : s.main with
        | accepting => simp [Main.undecided]
        | refusing client => simp [Main.undecided]
        | deciding client =>
          rw [Main.undecided, List.mem_singleton]
          rintro rfl
          exact hmain hm
      rw [List.count_eq_zero.mpr hrefused] at harrived
      exact List.count_pos_iff.mp (by omega)
    · left
      omega
  · intro c hc
    have hsent := h.sent c
    have hle := hread c hc
    omega
  · intro c hc
    have hclosed := h.closed c
    have hle := hread c hc
    omega
  · exact ho.counted

theorem Broken.not_served (h : Sound s) (hbroken : Broken s) : ¬ Served s := by
  intro hserved
  rcases hbroken with ⟨c, hhanded, hreal, hmis⟩ | hshort
  · rcases h.of_handed hhanded hreal with ⟨hacc, hrefused, hundecided⟩
    have hmain : s.main ≠ .deciding c := by
      intro hmain
      rw [hmain] at hundecided
      exact hundecided (List.mem_singleton_self c)
    have honce := hserved.once c hacc hrefused hmain
    rcases hmis with ⟨hzero, hslot⟩ | htwice
    · rcases honce with hone | ⟨-, hslot'⟩
      · omega
      · exact hslot hslot'
    · omega
  · have hcounted := hserved.counted
    omega

/-- In the last state of a run every connection is served once, and `count` is
the number of threads marked busy, if and only if every step has been in turn. -/
theorem served_once_iff (ls : List Label) (s : System) (hrun : SystemRun ls s) :
    Served s ↔ Machine.Run System.step InTurn System.init ls s := by
  have hsound : ∀ {ok : System → Label → Prop} {ls : List Label} {s : System},
      Machine.Run System.step ok System.init ls s → Sound s := by
    intro ok ls s hrun
    apply hrun.invariant Sound Sound.init
    intro s l s' h _ hs
    exact h.step hs
  have horderly : ∀ {ok : System → Label → Prop} {ls : List Label} {s : System},
      (∀ s l, ok s l → InTurn s l) → Machine.Run System.step ok System.init ls s → Orderly s := by
    intro ok ls s hok hrun
    apply hrun.invariant Orderly Orderly.init
    intro s l s' h hl hs
    exact h.step (hok s l hl) hs
  constructor
  · intro hserved
    -- the run is in turn, or there is a first step that is not, and what it breaks stays broken
    have hsplit := hrun.all_or_bad InTurn Broken
      (fun s l s' ls hr _ hturn hs =>
        Broken.of_step (hsound hr) (horderly (fun _ _ h => h.2) hr) hturn hs)
      (fun s l s' ls hr hb _ hs => hb.keep (hsound hr) hs)
    rcases hsplit with hall | hbad
    · exact hall.mono fun _ _ h => h.2
    · exact absurd hserved (hbad.not_served (hsound hrun))
  · intro hturns
    exact (horderly (fun _ _ h => h) hturns).served (hsound hturns)

/-- One connection, read by the thread it is meant for, sent to, closed and done with. -/
def oneClient : List Label := [.accept 4, .decide, .take 0, .send 0, .close 0, .finish 0]

theorem served_once_iff_oneClient : ∃ s, SystemRun oneClient s ∧ s.count = 0 ∧
    Machine.Run System.step InTurn System.init oneClient s ∧ Served s := by
  have hrun : (Machine.exec (Machine.guarded System.step fun s l => InRange s l ∧ InTurn s l)
      System.init oneClient).map System.count = some 0 := by
    decide +kernel
  rcases Machine.Run.exists_of_exec hrun with ⟨s, hrun, hcount⟩
  have hrange : SystemRun oneClient s := hrun.mono fun _ _ hok => hok.1
  have hturns : Machine.Run System.step InTurn System.init oneClient s := hrun.mono fun _ _ hok => hok.2
  exact ⟨s, hrange, hcount, hturns, (served_once_iff oneClient s hrange).mpr hturns⟩

/-- One connection, and a second thread that finds `count` positive. -/
def oneClientTwoThreads : List Label :=
  [.accept 4, .decide, .take 0, .take 1, .send 0, .send 1, .close 0, .close 1, .finish 0, .finish 1]

/-- The connection is sent to and closed twice, and `count` is -1. -/
theorem oneClientTwoThreads_not_served : ∃ s, SystemRun oneClientTwoThreads s ∧
    s.sends = [⟨4, 0⟩, ⟨4, 0⟩] ∧ s.closes = [⟨4, 0⟩, ⟨4, 0⟩] ∧ s.count = -1 ∧ ¬ Served s := by
  have hrun : (Machine.exec (Machine.guarded System.step InRange) System.init
      oneClientTwoThreads).map (fun s => (s.kernel.accepted, s.sends, s.closes, s.count)) =
      some ([⟨4, 0⟩], [⟨4, 0⟩, ⟨4, 0⟩], [⟨4, 0⟩, ⟨4, 0⟩], -1) := by
    decide +kernel
  rcases Machine.Run.exists_of_exec hrun with ⟨s, hrun, hf⟩
  simp only [Prod.mk.injEq] at hf
  rcases hf with ⟨haccepted, hsends, hcloses, hcount⟩
  refine ⟨s, hrun, hsends, hcloses, hcount, ?_⟩
  intro hserved
  have hle := hserved.sends ⟨4, 0⟩ (by rw [haccepted]; exact List.mem_singleton_self _)
  rw [hsends] at hle
  exact absurd hle (by decide)

end EmbeddedCourse.PullThreads
