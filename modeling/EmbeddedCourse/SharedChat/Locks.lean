import EmbeddedCourse.SharedChat.Scripts

/-! # The locks of one server iteration

What one iteration, with all its waits granted, does to the two mutexes. Every
section of `read_queue` and `write_queue` gives back what it takes, except the
one that a refused join leaves by the early return.
-/

namespace EmbeddedCourse.SharedChat

open CString Chat Script

/-- The values of the semaphores after the operations, every wait granted,
counting what this thread takes and gives only. -/
def returns (v : Sem → Int) : List ServerOp → Sem → Int
  | [] => v
  | .wait x :: ops => returns (Function.update v x (v x - 1)) ops
  | .post x :: ops => returns (Function.update v x (v x + 1)) ops
  | .act _ :: ops => returns v ops

theorem returns_eq (v : Sem → Int) (ops : List ServerOp) (m : Sem) :
    returns v ops m = v m + load (effect (only m)) ops := by
  induction ops generalizing v with
  | nil => simp [returns]
  | cons op ops ih =>
    cases op with
    | wait x =>
      rw [returns, ih, load_cons, effect, only]
      by_cases hx : x = m
      · simp [hx]
        omega
      · simp [hx, Function.update_of_ne (Ne.symm hx)]
    | post x =>
      rw [returns, ih, load_cons, effect, only]
      by_cases hx : x = m
      · simp [hx]
        omega
      · simp [hx, Function.update_of_ne (Ne.symm hx)]
    | act a => rw [returns, ih, load_cons, effect, Int.zero_add]

/-- The mutexes. -/
def Sem.IsMutex (m : Sem) : Prop := m = .mutex1 ∨ m = .mutex2

section

variable {m : Sem}

theorem load_receive (hm : m.IsMutex) : load (effect (only m)) receive = 0 := by
  rcases hm with rfl | rfl <;> rfl

/-- `write_queue` is balanced on every path. -/
theorem load_writeQueue_mutex (hm : m.IsMutex) (msg : Message) (s : Server) :
    load (effect (only m)) (writeQueue msg s) = 0 := by
  have hs : only m .server2 = 0 := by rcases hm with rfl | rfl <;> rfl
  have hc : only m .client = 0 := by rcases hm with rfl | rfl <;> rfl
  rw [load_writeQueue (hs.trans hc.symm), hs]
  simp

/-- A join that finds no room. -/
def Refused (msg : Message) (s : Server) : Prop :=
  msg.categoriyMessage = Kind.newClient.code ∧ (sizeClients : Int) ≤ s.roster.sizeInfcl

instance (msg : Message) (s : Server) : Decidable (Refused msg s) :=
  inferInstanceAs (Decidable (_ ∧ _))

/-- `read_queue` is balanced except when it refuses a join. -/
theorem load_readQueue (hm : m.IsMutex) (past : InfoClients) (msg : Message) (s : Server) :
    load (effect (only m)) (readQueue past msg s).1 = if Refused msg s ∧ m = .mutex1 then -1 else 0 := by
  unfold readQueue Refused
  rcases hm with rfl | rfl <;> split_ifs <;> simp_all [effect, only]

end

/-- The operations of one iteration on the message `msg`. -/
def iteration (past : InfoClients) (msg : Message) (s : Server) : List ServerOp :=
  receive ++ answer past msg s

/-- One iteration returns with both mutexes at their values on entry if and
only if it does not refuse a join; a join that is refused changes neither the
roster nor the store. -/
theorem locks_balanced_iff (v : Sem → Int) (past : InfoClients) (msg : Message) (s : Server) :
    ((returns v (iteration past msg s) .mutex1 = v .mutex1 ∧
        returns v (iteration past msg s) .mutex2 = v .mutex2) ↔ ¬ Refused msg s) ∧
      (Refused msg s → assigned s (iteration past msg s) = s) := by
  have hload : ∀ m : Sem, m.IsMutex →
      returns v (iteration past msg s) m = v m + if Refused msg s ∧ m = .mutex1 then -1 else 0 := by
    intro m hm
    rw [returns_eq, iteration, answer, load_append, load_append, load_receive hm,
      load_readQueue hm, load_writeQueue_mutex hm, Int.zero_add, Int.add_zero]
  constructor
  · rw [hload .mutex1 (Or.inl rfl), hload .mutex2 (Or.inr rfl)]
    by_cases hr : Refused msg s <;> simp [hr]
  · rintro ⟨kind, hfull⟩
    rw [iteration, assigned_append]
    show assigned s (answer past msg s) = s
    rw [assigned_answer, readQueue, if_pos kind, if_pos hfull]

/-- The eleventh join: `mutex1` is never given back. -/
theorem refused_join_keeps_mutex1 :
    let c : InfoClients := ⟨List.replicate 20 0, 1⟩
    let s : Server := { Server.init with roster := ⟨List.replicate 10 c, 10⟩ }
    let msg : Message := { zeroMessage with categoriyMessage := Kind.newClient.code, fromMessage := 11 }
    returns (fun _ => 1) (iteration c msg s) .mutex1 = 0 ∧
      returns (fun _ => 1) (iteration c msg s) .mutex2 = 1 := by
  decide +kernel

end EmbeddedCourse.SharedChat
