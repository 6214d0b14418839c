import EmbeddedCourse.Lib.Monitor
import EmbeddedCourse.Threads.Store

/-! # The statements of a visit

`Threads/main.c` with every statement on its own and a mutex for each store. A
customer reads the stock, takes it off its desire and empties the store in three
statements, so while it is inside the goods may be counted twice or not at all;
between the visits they are conserved. The supplier is thread 0, and
customer `i` is thread `i + 1`.
-/

namespace EmbeddedCourse.Stores

open Monitor

/-- The next statement of a customer, and of the supplier with the number of its visits. -/
inductive Position where
  | choosing (c : Customer)
  | locking (c : Customer) (numberStore : ℕ)
  | looking (c : Customer) (numberStore : ℕ)
  | buying (c : Customer) (numberStore : ℕ)
  | emptying (c : Customer) (numberStore : ℕ)
  | leaving (c : Customer) (numberStore : ℕ)
  | deciding (c : Customer)
  | left (c : Customer)
  | resting (supplied : ℕ)
  | stepping (supplied numberStore : ℕ)
  | adding (supplied numberStore : ℕ)
  | closing (supplied numberStore : ℕ)
deriving DecidableEq, Repr

/-- The store is empty: `desire_spend` stays as it is. -/
def Customer.pass (c : Customer) : Customer :=
  { c with place := .deciding, visits := c.visits ++ [c.desireSpend] }

/-- `desire_spend -= Store[numberStore]` -/
def Customer.buy (goods : Int) (c : Customer) : Customer :=
  let desire := toInt (c.desireSpend - goods)
  { c with
    desireSpend := desire
    place := .deciding
    bought := c.bought + goods
    visits := c.visits ++ [desire] }

/-- `rand() % 5` -/
def choose (next : ℕ → Position) (numberStore : ℕ) (_ : Unit) : Option (Unit × Position) :=
  if numberStore < numberStores then some ((), next numberStore) else none

/-- Behind the visit. -/
def goOn (c : Customer) (_ : ℕ) (_ : Unit) : Option (Unit × Position) :=
  some ((), if c.desireSpend ≤ 0 then .left c.decide else .choosing c.decide)

def code (_ : ℕ) : Position → Instr ℕ Empty Int Unit ℕ Position
  | .choosing c => .outside (choose (.locking c))
  | .locking c k => .lock k (.looking c k)
  | .looking c k => .inside k fun goods => (goods, if goods = 0 then .leaving c.pass k else .buying c k)
  | .buying c k => .inside k fun goods => (goods, .emptying (c.buy goods) k)
  | .emptying c k => .inside k fun _ => (0, .leaving c k)
  | .leaving c k => .unlock k (.deciding c)
  | .deciding c => .outside (goOn c)
  | .left _ => .outside fun _ _ => none
  | .resting n => .outside (choose (.stepping n))
  | .stepping n k => .lock k (.adding n k)
  | .adding n k => .inside k fun goods => (toInt (goods + 200), .closing (n + 1) k)
  | .closing n k => .unlock k (.resting n)

abbrev Shop : Type := State ℕ Empty Int Unit Position

def newCustomer (d : Int) : Customer := { desireSpend := d, place := .shopping, bought := 0, visits := [] }

def Shop.init (stock desires : List Int) : Shop where
  data k := stock.getD k 0
  owner _ := none
  env := ()
  threads := (.resting 0 :: desires.map fun d => .choosing (newCustomer d)).map Place.running

def roomy (s : Shop) : Monitor.Label ℕ → Bool
  | .run i =>
    match s.threads[i]? with
    | some (.running (.stepping _ k)) => decide (s.data k + 200 ≤ intMax)
    | _ => true
  | _ => true

/-- The supplier goes to a store only where no `int` overflows. -/
def Roomy (s : Shop) (l : Monitor.Label ℕ) : Prop := roomy s l = true

instance (s : Shop) (l : Monitor.Label ℕ) : Decidable (Roomy s l) := inferInstanceAs (Decidable (_ = _))

/-- The runs of the simulation, statement by statement. -/
abbrev ShopRun (stock desires : List Int) (ls : List (Monitor.Label ℕ)) (s : Shop) : Prop :=
  Machine.Run (State.step code) Roomy (Shop.init stock desires) ls s

/-! ## The sections -/

def Position.holds : Position → Option ℕ
  | .looking _ k | .buying _ k | .emptying _ k | .leaving _ k | .adding _ k | .closing _ k => some k
  | .choosing _ | .locking _ _ | .deciding _ | .left _ | .resting _ | .stepping _ _ => none

/-- What is left of a visit. -/
def finish (_ : ℕ) : Position → Int → Int × Position
  | .looking c _, goods => ((c.visit goods).1, .deciding (c.visit goods).2)
  | .buying c _, goods => (0, .deciding (c.buy goods))
  | .emptying c _, _ => (0, .deciding c)
  | .leaving c _, goods => (goods, .deciding c)
  | .adding n _, goods => (toInt (goods + 200), .resting (n + 1))
  | .closing n _, goods => (goods, .resting n)
  | p, goods => (goods, p)

theorem visit_eq (c : Customer) (goods : Int) :
    c.visit goods = if goods = 0 then (goods, c.pass) else (0, c.buy goods) := rfl

theorem choose_some {next : ℕ → Position} {k : ℕ} {e : Unit} {r : Unit × Position} (h : choose next k e = some r) :
    k < numberStores ∧ r = ((), next k) := by
  unfold choose at h
  split_ifs at h with hk
  exact ⟨hk, (Option.some.inj h).symm⟩

/-- Customers and supplier keep to the mutexes of the stores. -/
theorem disciplined : Disciplined code Position.holds finish := by
  constructor
  · intro i t m next h
    cases t <;> cases h <;> exact ⟨rfl, rfl⟩
  · intro i t m next h
    cases t <;> cases h <;> exact ⟨rfl, rfl, fun _ => rfl⟩
  · intro i t m c again h
    cases t <;> cases h
  · intro i t c next h
    cases t <;> cases h
  · -- guarded statements: what is left of the visit comes to the same
    intro i t m f h
    cases t with
    | looking c k =>
      cases h
      refine ⟨rfl, fun goods => ?_⟩
      simp only [finish, visit_eq]
      split_ifs <;> exact ⟨rfl, rfl⟩
    | buying _ _ | emptying _ _ | adding _ _ =>
      cases h
      exact ⟨rfl, fun _ => ⟨rfl, rfl⟩⟩
    | _ => cases h
  · -- statements outside lead to places outside
    intro i t f h
    cases t with
    | choosing c | resting n =>
      cases h
      refine ⟨rfl, fun k e r hr => ?_⟩
      rw [(choose_some hr).2]
      rfl
    | deciding c =>
      cases h
      refine ⟨rfl, fun k e r hr => ?_⟩
      obtain rfl := Option.some.inj hr
      dsimp only
      split_ifs <;> rfl
    | left c =>
      cases h
      refine ⟨rfl, fun k e r hr => ?_⟩
      cases hr
    | _ => cases h

/-! ## Whole sections are the atomic visits -/

/-- Where a customer may be between two sections. -/
def Customer.At (c : Customer) (p : Position) : Prop :=
  match c.place with
  | .shopping => p = .choosing c ∨ ∃ k < numberStores, p = .locking c k
  | .deciding => p = .deciding c
  | .left => p = .left c

def SupplierAt (supplied : ℕ) (p : Position) : Prop :=
  p = .resting supplied ∨ ∃ k < numberStores, p = .stepping supplied k

/-- The simulation between two sections. -/
structure Shows (u : Settled ℕ Int Unit Position) (s : System) : Prop where
  stores : ∀ k < numberStores, s.stores[k]? = some (u.data k)
  length : s.stores.length = numberStores
  supplier : ∃ p, u.threads[0]? = some p ∧ SupplierAt s.supplied p
  customers : ∀ i, (∀ c, s.customers[i]? = some c → ∃ p, u.threads[i + 1]? = some p ∧ c.At p) ∧
    (s.customers[i]? = none → u.threads[i + 1]? = none)

section

variable {u u' : Settled ℕ Int Unit Position} {s : System} {i : ℕ}

theorem Shows.customer (h : Shows u s) {p : Position} (hp : u.threads[i + 1]? = some p) :
    ∃ c, s.customers[i]? = some c ∧ c.At p := by
  cases hc : s.customers[i]? with
  | none =>
    rw [(h.customers i).2 hc] at hp
    cases hp
  | some c =>
    rcases (h.customers i).1 c hc with ⟨q, hq, hat⟩
    obtain rfl := Option.some.inj (hp.symm.trans hq)
    exact ⟨c, rfl, hat⟩

/-- A store is left with `goods`. -/
theorem Shows.setStore (h : Shows u s) {k : ℕ} (hk : k < numberStores) (goods : Int) :
    (∀ j < numberStores, (s.stores.set k goods)[j]? = some (Function.update u.data k goods j)) ∧
      (s.stores.set k goods).length = numberStores := by
  constructor
  · intro j hj
    by_cases hjk : j = k
    · subst hjk
      rw [Function.update_self, List.getElem?_set_self (by rw [h.length]; exact hk)]
    · rw [Function.update_of_ne hjk, List.getElem?_set_ne (Ne.symm hjk)]
      exact h.stores j hj
  · rw [List.length_set]
    exact h.length

/-- A customer goes on. -/
theorem Shows.setCustomer (h : Shows u s) {c c' : Customer} {p : Position} (hc : s.customers[i]? = some c)
    (hat : c'.At p) {stores : List Int} {data : ℕ → Int}
    (hstores : (∀ k < numberStores, stores[k]? = some (data k)) ∧ stores.length = numberStores) :
    Shows { u with data := data, threads := u.threads.set (i + 1) p }
      { s with stores := stores, customers := s.customers.set i c' } := by
  rcases (h.customers i).1 c hc with ⟨q, hq, -⟩
  have hi : i + 1 < u.threads.length := (List.getElem?_eq_some_iff.mp hq).1
  have hi' : i < s.customers.length := (List.getElem?_eq_some_iff.mp hc).1
  refine ⟨hstores.1, hstores.2, ?_, ?_⟩
  · -- the supplier is thread 0, and customer `i` is thread `i + 1`
    rcases h.supplier with ⟨q, hq, hat⟩
    refine ⟨q, ?_, hat⟩
    rw [List.getElem?_set_ne (by omega)]
    exact hq
  · intro j
    dsimp only
    by_cases hj : j = i
    · subst hj
      rw [List.getElem?_set_self hi', List.getElem?_set_self hi]
      refine ⟨fun b hb => ?_, fun hnone => by cases hnone⟩
      rw [← Option.some.inj hb]
      exact ⟨p, rfl, hat⟩
    · rw [List.getElem?_set_ne (Ne.symm hj), List.getElem?_set_ne (by omega)]
      exact h.customers j

/-- The supplier goes on. -/
theorem Shows.setSupplier (h : Shows u s) {p : Position} {supplied : ℕ} (hat : SupplierAt supplied p)
    {stores : List Int} {data : ℕ → Int}
    (hstores : (∀ k < numberStores, stores[k]? = some (data k)) ∧ stores.length = numberStores) :
    Shows { u with data := data, threads := u.threads.set 0 p }
      { s with stores := stores, supplied := supplied } := by
  refine ⟨hstores.1, hstores.2, ?_, ?_⟩
  · rcases h.supplier with ⟨q, hq, -⟩
    exact ⟨p, List.getElem?_set_self (List.getElem?_eq_some_iff.mp hq).1, hat⟩
  · intro j
    dsimp only
    rw [List.getElem?_set_ne (by omega)]
    exact h.customers j

theorem visit_place (c : Customer) (goods : Int) : (c.visit goods).2.place = .deciding := by
  rw [visit_eq]
  split_ifs <;> rfl

/-- The atomic visits of a run in which no stock leaves the range of an `int`. -/
def Room (u : Settled ℕ Int Unit Position) : Stride ℕ → Prop
  | .enter i => ∀ n k, u.threads[i]? = some (.stepping n k) → u.data k + 200 ≤ intMax
  | _ => True

/-- A section of a customer is a visit, and so is one of the supplier. -/
theorem enter_step (h : Shows u s) (hroom : Room u (.enter i)) (hs : u.step code finish (.enter i) = some u') :
    ∃ l s', InRange s l ∧ s.step l = some s' ∧ Shows u' s' := by
  rcases enter_cases hs with ⟨p, m, next, hp, hcode, rfl⟩
  cases i with
  | zero =>
    rcases h.supplier with ⟨q, hq, hat⟩
    obtain rfl := Option.some.inj (hp.symm.trans hq)
    rcases hat with rfl | ⟨k, hk, rfl⟩
    · cases hcode
    · -- the supplier comes to store `k`, where there is room
      obtain ⟨rfl, rfl⟩ : k = m ∧ next = .adding s.supplied k := by
        cases hcode
        exact ⟨rfl, rfl⟩
      have hstore := h.stores k hk
      refine ⟨.supply k, { s with
        stores := s.stores.set k (toInt (u.data k + 200)), supplied := s.supplied + 1 }, ?_, ?_, ?_⟩
      · intro goods hgoods
        rw [hstore] at hgoods
        rw [← Option.some.inj hgoods]
        exact hroom s.supplied k hp
      · simp [System.step, hstore]
      · exact h.setSupplier (Or.inl rfl) (h.setStore hk _)
  | succ i =>
    rcases h.customer hp with ⟨c, hc, hat⟩
    unfold Customer.At at hat
    cases hplace : c.place with
    | deciding =>
      rw [hplace] at hat
      obtain rfl := hat
      cases hcode
    | left =>
      rw [hplace] at hat
      obtain rfl := hat
      cases hcode
    | shopping =>
      rw [hplace] at hat
      rcases hat with rfl | ⟨k, hk, rfl⟩
      · cases hcode
      · -- the whole section is the visit of the store
        obtain ⟨rfl, rfl⟩ : k = m ∧ next = .looking c k := by
          cases hcode
          exact ⟨rfl, rfl⟩
        have hstore := h.stores k hk
        refine ⟨.visit i k, { s with
          stores := s.stores.set k (c.visit (u.data k)).1
          customers := s.customers.set i (c.visit (u.data k)).2 }, trivial, ?_, ?_⟩
        · simp [System.step, hc, hstore, hplace]
        · refine h.setCustomer hc ?_ (h.setStore hk _)
          unfold Customer.At
          rw [visit_place]
          rfl

/-- The choice of a store, and what a customer does behind its visit. -/
theorem act_step (h : Shows u s) {a : ℕ} (hs : u.step code finish (.act i a) = some u') :
    Shows u' s ∨ ∃ l s', InRange s l ∧ s.step l = some s' ∧ Shows u' s' := by
  rcases stride_act_cases hs with ⟨p, f, r, hp, hcode, hr, rfl⟩
  have hstores : (∀ k < numberStores, s.stores[k]? = some (u.data k)) ∧ s.stores.length = numberStores :=
    ⟨h.stores, h.length⟩
  cases i with
  | zero =>
    left
    rcases h.supplier with ⟨q, hq, hat⟩
    obtain rfl := Option.some.inj (hp.symm.trans hq)
    rcases hat with rfl | ⟨k, hk, rfl⟩
    · -- the choice of a store is no step of the visits
      cases hcode
      rcases choose_some hr with ⟨hk, rfl⟩
      exact h.setSupplier (Or.inr ⟨a, hk, rfl⟩) hstores
    · cases hcode
  | succ i =>
    rcases h.customer hp with ⟨c, hc, hat⟩
    unfold Customer.At at hat
    cases hplace : c.place with
    | shopping =>
      left
      rw [hplace] at hat
      rcases hat with rfl | ⟨k, hk, rfl⟩
      · cases hcode
        rcases choose_some hr with ⟨hk, rfl⟩
        have hat : c.At (.locking c a) := by
          unfold Customer.At
          rw [hplace]
          exact Or.inr ⟨a, hk, rfl⟩
        have hset := h.setCustomer hc hat hstores
        rw [Cells.set_of_getElem? hc] at hset
        exact hset
      · cases hcode
    | deciding =>
      right
      rw [hplace] at hat
      obtain rfl := hat
      cases hcode
      obtain rfl := Option.some.inj hr
      refine ⟨.decide i, { s with customers := s.customers.set i c.decide }, trivial, ?_, ?_⟩
      · simp [System.step, hc, hplace]
      · refine h.setCustomer hc ?_ hstores
        unfold Customer.At Customer.decide
        split_ifs
        · rfl
        · exact Or.inl rfl
    | left =>
      rw [hplace] at hat
      obtain rfl := hat
      cases hcode
      cases hr

theorem pass_step (hs : u.step code finish (.pass i) = some u') : False := by
  rcases pass_cases hs with ⟨p, c, next, -, hcode, -⟩
  cases p <;> cases hcode

end

/-! ## Runs -/

variable {stock desires : List Int} {ls : List (Monitor.Label ℕ)} {s s' : Shop}

theorem holds_init (desires : List Int) (t : Position)
    (ht : t ∈ Position.resting 0 :: desires.map fun d => .choosing (newCustomer d)) : t.holds = none := by
  rcases List.mem_cons.mp ht with rfl | ht
  · rfl
  · rcases List.mem_map.mp ht with ⟨d, -, rfl⟩
    rfl

theorem shows_start (hlen : stock.length = numberStores) :
    Shows (settled Position.holds finish (Shop.init stock desires)) (System.init stock desires) := by
  have hsettled : settled Position.holds finish (Shop.init stock desires) = _ :=
    settled_init (holds_init desires)
  rw [hsettled]
  refine ⟨?_, hlen, ⟨.resting 0, rfl, Or.inl rfl⟩, ?_⟩
  · intro k hk
    show stock[k]? = some (stock.getD k 0)
    rw [List.getD_eq_getElem?_getD, List.getElem?_eq_getElem (by omega)]
    rfl
  · intro i
    show (∀ c, (desires.map newCustomer)[i]? = some c → _) ∧ ((desires.map newCustomer)[i]? = none → _)
    rw [List.getElem?_map, List.getElem?_cons_succ, List.getElem?_map]
    cases desires[i]? with
    | none => exact ⟨fun c hc => (by cases hc), fun _ => rfl⟩
    | some d =>
      refine ⟨fun c hc => ?_, fun hnone => by cases hnone⟩
      obtain rfl := Option.some.inj hc
      exact ⟨_, rfl, Or.inl rfl⟩

/-- There are no condition variables, and so nobody sleeps. -/
theorem running_of_place : ∀ p : Monitor.Place Empty Position, ∃ t, p = .running t
  | .running t => ⟨t, rfl⟩
  | .asleep c _ => c.elim

theorem settle_stepping {t : Position} {data : ℕ → Int} {i n k : ℕ}
    (h : (Monitor.Place.running t : Monitor.Place Empty Position).settle Position.holds finish data i = .stepping n k) :
    t = .stepping n k := by
  cases t <;> cases h
  rfl

/-- The supplier has found room when it took the mutex. -/
theorem room_of_roomy {l : Monitor.Label ℕ} (hl : Roomy s l) (hs : s.step code l = some s') :
    Room (settled Position.holds finish s) l.stride := by
  cases l with
  | act i a => trivial
  | signal i woken => trivial
  | spurious i => trivial
  | run i =>
    intro n k hstep
    rcases run_cases hs with ⟨t, ht, hexec⟩
    rw [getElem?_settled, ht, Option.map_some, Option.some.injEq] at hstep
    obtain rfl := settle_stepping hstep
    simp only [code, State.exec] at hexec
    split_ifs at hexec with hfree
    have hdata : (settled Position.holds finish s).data k = s.data k := settleData_of_free hfree
    rw [hdata]
    simpa [Roomy, roomy, ht] using hl

/-- Every run of statements is one of visits, with the rest of the open visits done. -/
theorem systemRun_of_shopRun (hlen : stock.length = numberStores) (hrun : ShopRun stock desires ls s) :
    Exclusive Position.holds s ∧ ∃ ls' u, Machine.Run System.step InRange (System.init stock desires) ls' u ∧
      Shows (settled Position.holds finish s) u := by
  have hok : ∀ s l s', Exclusive Position.holds s → Roomy s l → s.step code l = some s' →
      Room (settled Position.holds finish s) l.stride := fun _ _ _ _ hl hs => room_of_roomy hl hs
  rcases settled_run_of disciplined hok (Exclusive.init (holds_init desires)) hrun with ⟨hexclusive, ls', hls'⟩
  refine ⟨hexclusive, ?_⟩
  have hstart : Shows (settled Position.holds finish (Shop.init stock desires)) (System.init stock desires) :=
    shows_start hlen
  rw [show (⟨_, _, _, _⟩ : Shop) = Shop.init stock desires from rfl] at hls'
  generalize settled Position.holds finish (Shop.init stock desires) = u₀ at hls' hstart
  generalize settled Position.holds finish s = u at hls'
  induction hls' with
  | init => exact ⟨[], _, .init, hstart⟩
  | @step ls u l u' _ hroom hs ih =>
    rcases ih with ⟨ks, t, hks, ht⟩
    -- a section or a statement outside is at most one visit
    have hstep : Shows u' t ∨ ∃ l' t', InRange t l' ∧ t.step l' = some t' ∧ Shows u' t' := by
      cases l with
      | enter i => exact Or.inr (enter_step ht hroom hs)
      | act i a => exact act_step ht hs
      | pass i => exact (pass_step hs).elim
    rcases hstep with hstay | ⟨l', t', hrange, hl', ht'⟩
    · exact ⟨ks, t, hks, hstay⟩
    · exact ⟨ks ++ [l'], t', hks.step hrange hl', ht'⟩

/-! ## The result -/

def Position.customer : Position → Option Customer
  | .choosing c | .locking c _ | .looking c _ | .buying c _ | .emptying c _ | .leaving c _ | .deciding c
  | .left c => some c
  | .resting _ | .stepping _ _ | .adding _ _ | .closing _ _ => none

/-- What a thread has bought. -/
def bought : Monitor.Place Empty Position → Int
  | .running t => (t.customer.map Customer.bought).getD 0
  | .asleep _ _ => 0

/-- How often the supplier has been to a store. -/
def supplied : Monitor.Place Empty Position → ℕ
  | .running (.resting n) | .running (.stepping n _) | .running (.adding n _) | .running (.closing n _) => n
  | _ => 0

theorem bought_of_at {c : Customer} {p : Position} (h : c.At p) : bought (.running p) = c.bought := by
  unfold Customer.At at h
  split at h
  · rcases h with rfl | ⟨k, -, rfl⟩ <;> rfl
  · rw [h]
    rfl
  · rw [h]
    rfl

theorem supplied_of_at {c : Customer} {p : Position} (h : c.At p) : supplied (.running p) = 0 := by
  unfold Customer.At at h
  split at h
  · rcases h with rfl | ⟨k, -, rfl⟩ <;> rfl
  · rw [h]
    rfl
  · rw [h]
    rfl

theorem supplied_of_supplierAt {n : ℕ} {p : Position} (h : SupplierAt n p) :
    supplied (.running p) = n ∧ bought (.running p) = 0 := by
  rcases h with rfl | ⟨k, -, rfl⟩ <;> exact ⟨rfl, rfl⟩

/-- Outside of all stores the simulation stands where its whole sections have led to. -/
theorem settled_of_free (hexclusive : Exclusive Position.holds s) (hfree : ∀ k, s.owner k = none) :
    (settled Position.holds finish s).data = s.data ∧
      s.threads = (settled Position.holds finish s).threads.map Monitor.Place.running := by
  constructor
  · funext k
    exact settleData_of_free (hfree k)
  · apply List.ext_getElem?
    intro i
    rw [List.getElem?_map, getElem?_settled]
    cases hp : s.threads[i]? with
    | none => rfl
    | some q =>
      rcases running_of_place q with ⟨t, rfl⟩
      rw [Option.map_some, Option.map_some, Monitor.Place.settle]
      cases hholds : t.holds with
      | none => rfl
      | some k =>
        have hown := (hexclusive.owner k i).mpr ⟨_, hp, hholds⟩
        rw [hfree k] at hown
        cases hown

/-- The customers, one by one. -/
theorem Shows.map_eq {α : Type} {u : Settled ℕ Int Unit Position} {s : System} (h : Shows u s)
    {f : Position → α} {g : Customer → α} (hfg : ∀ c p, Customer.At c p → f p = g c) :
    ∃ p, SupplierAt s.supplied p ∧ u.threads.map f = f p :: s.customers.map g := by
  rcases h.supplier with ⟨p, hp, hat⟩
  refine ⟨p, hat, ?_⟩
  apply List.ext_getElem?
  intro i
  cases i with
  | zero =>
    rw [List.getElem?_map, hp]
    rfl
  | succ i =>
    rw [List.getElem?_map, List.getElem?_cons_succ, List.getElem?_map]
    cases hc : s.customers[i]? with
    | none =>
      rw [(h.customers i).2 hc]
      rfl
    | some c =>
      rcases (h.customers i).1 c hc with ⟨q, hq, hqc⟩
      rw [hq, Option.map_some, Option.map_some, hfg c q hqc]

/-- What is in the stores, what has been bought, and how often the supplier has come. -/
theorem totals_of_free {u : System} (hexclusive : Exclusive Position.holds s) (hfree : ∀ k, s.owner k = none)
    (hu : Shows (settled Position.holds finish s) u) :
    ((List.range numberStores).map s.data).sum = u.stores.sum ∧
      (s.threads.map bought).sum = (u.customers.map Customer.bought).sum ∧
      (s.threads.map supplied).sum = u.supplied := by
  rcases settled_of_free hexclusive hfree with ⟨hdata, hthreads⟩
  -- when nobody is in a store nothing is left to be done for any
  have hstores : (List.range numberStores).map s.data = u.stores := by
    apply List.ext_getElem?
    intro k
    by_cases hk : k < numberStores
    · rw [List.getElem?_map, List.getElem?_range hk, hu.stores k hk, hdata]
      rfl
    · rw [List.getElem?_eq_none (by simpa using hk), List.getElem?_eq_none (by rw [hu.length]; omega)]
  refine ⟨congrArg List.sum hstores, ?_, ?_⟩
  · rcases hu.map_eq fun c p h => bought_of_at h with ⟨p, hp, hmap⟩
    rw [hthreads, List.map_map, show bought ∘ Monitor.Place.running = fun p => bought (.running p) from rfl, hmap,
      List.sum_cons, (supplied_of_supplierAt hp).2, Int.zero_add]
  · rcases hu.map_eq (g := fun _ => 0) fun c p h => supplied_of_at h with ⟨p, hp, hmap⟩
    rw [hthreads, List.map_map, show supplied ∘ Monitor.Place.running = fun p => supplied (.running p) from rfl, hmap,
      List.sum_cons, (supplied_of_supplierAt hp).1]
    simp

/-- Whoever has not left can go on, unless another one is in the store. -/
theorem exists_step (hexclusive : Exclusive Position.holds s) {i : ℕ} {t : Position}
    (ht : s.threads[i]? = some (.running t)) (hleft : ∀ c, t ≠ .left c) : ∃ l, (s.step code l).isSome := by
  by_contra hnone
  -- if nobody can take a step, all wait for each other
  have hall : ∀ l, s.step code l = none := by
    intro l
    by_contra hsome
    exact hnone ⟨l, Option.isSome_iff_ne_none.mpr hsome⟩
  rcases rest_cases disciplined hexclusive (fun j => hall (.run j)) (fun j w => hall (.signal j w)) ht with
    ⟨c, -⟩ | ⟨u, f, hu, hcode⟩
  · exact c.elim
  · cases hu
    have hact := hall (.act i 0)
    simp only [State.step, ht, hcode] at hact
    cases t with
    | choosing c | resting n =>
      cases hcode
      cases hact
    | deciding c =>
      cases hcode
      cases hact
    | left c => exact hleft c rfl
    | _ => cases hcode

/-- For any stock and any customers, statement by statement and with every interleaving in which
no stock leaves the range of an `int`: no two threads are in one store; someone can go on
as long as a customer has not left; and whenever nobody is in a store, the goods in the stores
and what has been bought are the initial stock and 200 for each visit of the supplier. -/
theorem goods_conserved_statements (stock desires : List Int) (hlen : stock.length = numberStores)
    (hstock : ∀ x ∈ stock, 0 ≤ x ∧ x ≤ intMax) (hdesires : ∀ d ∈ desires, 0 < d ∧ d ≤ intMax)
    (ls : List (Monitor.Label ℕ)) (s : Shop) (hrun : ShopRun stock desires ls s) :
    (∀ (i j k : ℕ) (t u : Position), s.threads[i]? = some (.running t) → s.threads[j]? = some (.running u) →
      t.holds = some k → u.holds = some k → i = j) ∧
    (∀ (i : ℕ) (t : Position), s.threads[i]? = some (.running t) → (∀ c, t ≠ .left c) →
      ∃ l, (s.step code l).isSome) ∧
    ((∀ k, s.owner k = none) →
      ((List.range numberStores).map s.data).sum + (s.threads.map bought).sum =
        stock.sum + 200 * (s.threads.map supplied).sum) := by
  rcases systemRun_of_shopRun hlen hrun with ⟨hexclusive, ls', u, hu, hshows⟩
  refine ⟨?_, fun i t ht hleft => exists_step hexclusive ht hleft, ?_⟩
  · -- who is in a store owns its mutex
    intro i j k t u ht hu hti huj
    have howner := (hexclusive.owner k i).mpr ⟨_, ht, hti⟩
    rw [(hexclusive.owner k j).mpr ⟨_, hu, huj⟩] at howner
    exact (Option.some.inj howner).symm
  · intro hfree
    rcases totals_of_free hexclusive hfree hshows with ⟨hstores, hbought, hsupplied⟩
    have hkept : Kept stock desires u := by
      apply hu.invariant (Kept stock desires) (Kept.init hstock hdesires)
      intro s l s' hkept hrange hs
      exact hkept.step hrange hs
    rw [hstores, hbought, hsupplied]
    exact hkept.total

/-- The supplier waits for a customer that is in the store. -/
def meeting : List (Monitor.Label ℕ) :=
  [.act 1 2, .run 1, .act 0 2, .run 1, .run 1, .run 1, .run 1, .run 0, .run 0, .run 0, .act 1 0]

theorem goods_conserved_statements_meeting : ∃ s, ShopRun (initStore fun n => n) [1500, 500] meeting s ∧
    (s.threads.map bought).sum = 902 ∧ ((List.range numberStores).map s.data).sum + (s.threads.map bought).sum =
      (initStore fun n => n).sum + 200 * (s.threads.map supplied).sum := by
  have hrun : (Machine.exec (Machine.guarded (State.step code) Roomy)
      (Shop.init (initStore fun n => n) [1500, 500]) meeting).map
      (fun s => (s.threads.all fun p => p.holds Position.holds = none, (s.threads.map bought).sum)) =
        some (true, 902) := by
    decide +kernel
  rcases Machine.Run.exists_of_exec hrun with ⟨s, hrun, hend⟩
  rcases Prod.mk.inj hend with ⟨houtside, hbought⟩
  have hfree : ∀ k, s.owner k = none := by
    intro k
    cases hown : s.owner k with
    | none => rfl
    | some i =>
      have hexclusive := (systemRun_of_shopRun (by decide) hrun).1
      rcases (hexclusive.owner k i).mp hown with ⟨p, hp, hholds⟩
      have hnone := List.all_eq_true.mp houtside p (List.mem_of_getElem? hp)
      rw [of_decide_eq_true hnone] at hholds
      cases hholds
  exact ⟨s, hrun, hbought, (goods_conserved_statements (initStore fun n => n) [1500, 500] (by decide)
    (by decide +kernel) (by decide +kernel) meeting s hrun).2.2 hfree⟩

end EmbeddedCourse.Stores
