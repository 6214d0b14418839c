import Mathlib.Data.List.Basic

/-! # Message queues keyed by type

A System V message queue is a list of messages in sending order; `msgrcv` with
a positive type takes the first message of that type and leaves the others as
they are. What one receiver sees is the sublist of its own type (`mail`), a
FIFO queue of its own: a send appends to it, a receive takes its head, and the
traffic of the other types does not touch it.
-/

namespace EmbeddedCourse.Mailbox

variable {μ κ : Type*} [DecidableEq κ] (key : μ → κ)

/-- The messages of type `k`, in order. -/
def mail (k : κ) (q : List μ) : List μ := q.filter fun m => key m = k

/-- `msgrcv` of type `k`: the first message of that type and the queue without it. -/
def receive (k : κ) : List μ → Option (μ × List μ)
  | [] => none
  | m :: q =>
    if key m = k then some (m, q)
    else match receive k q with
      | none => none
      | some (m', q') => some (m', m :: q')

@[simp] theorem mail_nil (k : κ) : mail key k [] = [] := rfl

@[simp] theorem mail_append (k : κ) (q q' : List μ) :
    mail key k (q ++ q') = mail key k q ++ mail key k q' := by
  simp [mail]

theorem mail_cons_self {k : κ} {m : μ} (h : key m = k) (q : List μ) :
    mail key k (m :: q) = m :: mail key k q := by
  simp [mail, h]

theorem mail_cons_ne {k : κ} {m : μ} (h : key m ≠ k) (q : List μ) :
    mail key k (m :: q) = mail key k q := by
  simp [mail, h]

theorem mem_mail {k : κ} {q : List μ} {m : μ} : m ∈ mail key k q ↔ m ∈ q ∧ key m = k := by
  simp [mail]

theorem mail_eq_nil_iff {k : κ} {q : List μ} : mail key k q = [] ↔ ∀ m ∈ q, key m ≠ k := by
  simp [mail]

theorem mail_eq_self {k : κ} {q : List μ} (h : ∀ m ∈ q, key m = k) : mail key k q = q :=
  List.filter_eq_self.mpr fun m hm => by simp [h m hm]

/-- A queue without mail for anybody is empty. -/
theorem eq_nil_of_mail {q : List μ} (h : ∀ k, mail key k q = []) : q = [] := by
  cases q with
  | nil => rfl
  | cons m q => exact absurd rfl ((mail_eq_nil_iff key).mp (h (key m)) m (by simp))

/-- A receive takes the first message of its type out of the queue. -/
theorem receive_split {k : κ} {q q' : List μ} {m : μ} (h : receive key k q = some (m, q')) :
    ∃ before behind, q = before ++ m :: behind ∧ q' = before ++ behind ∧ key m = k ∧
      ∀ x ∈ before, key x ≠ k := by
  induction q generalizing q' with
  | nil => simp [receive] at h
  | cons x q ih =>
    simp only [receive] at h
    -- the head is taken, or the message comes from behind it
    split_ifs at h with hx
    · rcases Prod.mk.inj (Option.some.inj h) with ⟨rfl, rfl⟩
      exact ⟨[], q, rfl, rfl, hx, by simp⟩
    · cases hr : receive key k q with
      | none => simp [hr] at h
      | some r =>
        rw [hr] at h
        rcases Prod.mk.inj (Option.some.inj h) with ⟨rfl, rfl⟩
        rcases ih hr with ⟨before, behind, hq, hq', hm, hbefore⟩
        refine ⟨x :: before, behind, ?_, ?_, hm, List.forall_mem_cons.mpr ⟨hx, hbefore⟩⟩
        · rw [hq, List.cons_append]
        · rw [hq', List.cons_append]

/-- It is the head of the receiver's own mail. -/
theorem mail_receive {k : κ} {q q' : List μ} {m : μ} (h : receive key k q = some (m, q')) :
    mail key k q = m :: mail key k q' := by
  rcases receive_split key h with ⟨before, behind, rfl, rfl, hm, hbefore⟩
  have hnil := (mail_eq_nil_iff key).mpr hbefore
  rw [mail_append, mail_append, hnil, mail_cons_self key hm, List.nil_append, List.nil_append]

/-- A receive leaves the mail of every other type alone. -/
theorem mail_receive_ne {k k' : κ} {q q' : List μ} {m : μ} (h : receive key k q = some (m, q'))
    (hne : k' ≠ k) : mail key k' q' = mail key k' q := by
  rcases receive_split key h with ⟨before, behind, rfl, rfl, hm, -⟩
  have hother : key m ≠ k' := fun hk => hne (hk.symm.trans hm)
  rw [mail_append, mail_append, mail_cons_ne key hother]

/-- Who has mail receives it. -/
theorem exists_receive {k : κ} {q ms : List μ} {m : μ} (h : mail key k q = m :: ms) :
    ∃ q', receive key k q = some (m, q') := by
  induction q with
  | nil => cases h
  | cons x q ih =>
    rw [receive]
    by_cases hx : key x = k
    · rw [mail_cons_self key hx] at h
      obtain rfl := (List.cons.inj h).1
      exact ⟨q, if_pos hx⟩
    · rw [mail_cons_ne key hx] at h
      rcases ih h with ⟨q', hq'⟩
      exact ⟨x :: q', by rw [if_neg hx, hq']⟩

theorem receive_perm {k : κ} {q q' : List μ} {m : μ} (h : receive key k q = some (m, q')) :
    key m = k ∧ q.Perm (m :: q') := by
  rcases receive_split key h with ⟨before, behind, rfl, rfl, hm, -⟩
  exact ⟨hm, List.perm_middle⟩

/-- A receive takes the message out of every count it is in. -/
theorem countP_receive {k : κ} {q q' : List μ} {m : μ} (h : receive key k q = some (m, q'))
    (c : μ → Bool) : q.countP c = q'.countP c + if c m then 1 else 0 := by
  rw [(receive_perm key h).2.countP_eq, List.countP_cons]

/-! ## Sending one message to a list of receivers -/

/-- A message sent once to each member of a roster, `stamp m k` being the copy
for the member `k`: each member gets exactly one. -/
theorem mail_fanout {stamp : μ → κ → μ} (hstamp : ∀ m k, key (stamp m k) = k) (m : μ) (k : κ)
    {ks : List κ} (hnd : ks.Nodup) :
    mail key k (ks.map (stamp m)) = if k ∈ ks then [stamp m k] else [] := by
  induction ks with
  | nil => simp
  | cons x ks ih =>
    have hx := List.nodup_cons.mp hnd
    rw [List.map_cons]
    by_cases hk : x = k
    · subst hk
      rw [mail_cons_self key (hstamp m x), ih hx.2]
      simp [hx.1]
    · rw [mail_cons_ne key (by rwa [hstamp]), ih hx.2]
      simp [Ne.symm hk]

end EmbeddedCourse.Mailbox
