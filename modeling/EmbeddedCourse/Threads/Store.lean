import EmbeddedCourse.Lib.Run
import Mathlib.Algebra.BigOperators.Group.List.Basic
import Mathlib.Algebra.Ring.Int.Defs

/-! # Customers, a supplier and five stores

`Threads/main.c`: what runs under the mutex of a store is one step. A customer is
in front of its next visit, whether it sleeps or waits for the mutex, or behind a
visit and in front of the test of `desire_spend`, or it has left.
-/

namespace EmbeddedCourse.Stores

/-- `NUMBER_STORES` -/
def numberStores : ℕ := 5

/-- The `int` that an operation on two ints leaves. -/
def toInt (x : Int) : Int := x.bmod (2 ^ 32)

def intMax : Int := 2147483647

/-- `init_store`, with what `rand` returns. -/
def initStore (rand : ℕ → ℕ) : List Int :=
  (List.range numberStores).map fun n => ((rand n % 200 + 900 : ℕ) : Int)

inductive Place where
  | shopping
  | deciding
  | left
deriving DecidableEq, Repr

/-- A customer, with what it has bought so far and its desire after each visit. -/
structure Customer where
  desireSpend : Int
  place : Place
  bought : Int
  visits : List Int
deriving DecidableEq, Repr

/-- The stores and the customers, and the number of visits of the supplier. -/
structure System where
  stores : List Int
  customers : List Customer
  supplied : ℕ
deriving DecidableEq, Repr

/-- Customer `i` visits a store, or goes on behind its visit; the supplier visits a store. -/
inductive Label where
  | visit (i numberStore : ℕ)
  | decide (i : ℕ)
  | supply (numberStore : ℕ)
deriving DecidableEq, Repr

/-- A visit of a customer to a store that holds `goods`: what it leaves there, and the customer. -/
def Customer.visit (goods : Int) (c : Customer) : Int × Customer :=
  if goods = 0 then
    (goods, { c with place := .deciding, visits := c.visits ++ [c.desireSpend] })
  else
    let desire := toInt (c.desireSpend - goods)
    (0, { c with
      desireSpend := desire
      place := .deciding
      bought := c.bought + goods
      visits := c.visits ++ [desire] })

/-- Behind the visit. -/
def Customer.decide (c : Customer) : Customer :=
  if c.desireSpend ≤ 0 then { c with place := .left } else { c with place := .shopping }

namespace System

def init (stock desires : List Int) : System :=
  { stores := stock
    customers := desires.map fun d => { desireSpend := d, place := .shopping, bought := 0, visits := [] }
    supplied := 0 }

def step (s : System) : Label → Option System
  | .visit i numberStore =>
    match s.customers[i]?, s.stores[numberStore]? with
    | some c, some goods =>
      if c.place = .shopping then
        some { s with
          stores := s.stores.set numberStore (c.visit goods).1
          customers := s.customers.set i (c.visit goods).2 }
      else none
    | _, _ => none
  | .decide i =>
    match s.customers[i]? with
    | some c =>
      if c.place = .deciding then some { s with customers := s.customers.set i c.decide } else none
    | none => none
  | .supply numberStore =>
    match s.stores[numberStore]? with
    | some goods =>
      some { s with
        stores := s.stores.set numberStore (toInt (goods + 200))
        supplied := s.supplied + 1 }
    | none => none

end System

/-! ## What a step can do -/

variable {s s' : System} {i k : ℕ}

theorem visit_cases (hs : s.step (.visit i k) = some s') :
    ∃ c goods, s.customers[i]? = some c ∧ s.stores[k]? = some goods ∧ c.place = .shopping ∧
      s' = { s with
        stores := s.stores.set k (c.visit goods).1, customers := s.customers.set i (c.visit goods).2 } := by
  simp only [System.step] at hs
  split at hs
  · rename_i c goods hc hgoods
    split_ifs at hs with hplace
    exact ⟨c, goods, hc, hgoods, hplace, (Option.some.inj hs).symm⟩
  · cases hs

theorem decide_cases (hs : s.step (.decide i) = some s') :
    ∃ c, s.customers[i]? = some c ∧ c.place = .deciding ∧
      s' = { s with customers := s.customers.set i c.decide } := by
  simp only [System.step] at hs
  split at hs
  · rename_i c hc
    split_ifs at hs with hplace
    exact ⟨c, hc, hplace, (Option.some.inj hs).symm⟩
  · cases hs

theorem supply_cases (hs : s.step (.supply k) = some s') :
    ∃ goods, s.stores[k]? = some goods ∧
      s' = { s with stores := s.stores.set k (toInt (goods + 200)), supplied := s.supplied + 1 } := by
  simp only [System.step] at hs
  split at hs
  · rename_i goods hgoods
    exact ⟨goods, hgoods, (Option.some.inj hs).symm⟩
  · cases hs

/-! ## One visit -/

theorem toInt_of_le {x : Int} (hlow : -2147483648 ≤ x) (hhigh : x ≤ intMax) : toInt x = x := by
  unfold intMax at hhigh
  exact Int.bmod_eq_of_le (by omega) (by omega)

/-- An amount that an `int` holds and that is not negative. -/
def Amount (x : Int) : Prop := 0 ≤ x ∧ x ≤ intMax

instance (x : Int) : Decidable (Amount x) := inferInstanceAs (Decidable (_ ∧ _))

/-- What is true of a customer with the initial desire `d` at all times: it has a
desire less than before by what it has bought, it shops as long as the desire is
positive, and it leaves behind the first visit after which it is not. -/
structure Customer.Fair (d : Int) (c : Customer) : Prop where
  desire : c.desireSpend = d - c.bought
  low : -intMax ≤ c.desireSpend
  high : c.desireSpend ≤ intMax
  earlier : ∀ v ∈ c.visits.dropLast, 0 < v
  shopping : c.place = .shopping → 0 < c.desireSpend ∧ ∀ v ∈ c.visits, 0 < v
  behind : c.place ≠ .shopping → c.visits.getLast? = some c.desireSpend
  left : c.place = .left → c.desireSpend ≤ 0

namespace Customer.Fair

variable {c : Customer} {d goods : Int}

theorem init (hpos : 0 < d) (hmax : d ≤ intMax) :
    Fair d { desireSpend := d, place := .shopping, bought := 0, visits := [] } := by
  unfold intMax at hmax
  constructor
  · simp
  · show -intMax ≤ d
    unfold intMax
    omega
  · exact hmax
  · simp
  · exact fun _ => ⟨hpos, by simp⟩
  · exact fun hplace => absurd rfl hplace
  · simp

theorem desire_visit (h : Fair d c) (hplace : c.place = .shopping) (hgoods : Amount goods) :
    toInt (c.desireSpend - goods) = c.desireSpend - goods := by
  have hpos := (h.shopping hplace).1
  have hhigh := h.high
  rcases hgoods with ⟨hnonneg, hmax⟩
  unfold intMax at hhigh hmax
  apply toInt_of_le
  · omega
  · unfold intMax
    omega

theorem visit (h : Fair d c) (hplace : c.place = .shopping) (hgoods : Amount goods) :
    Fair d (c.visit goods).2 := by
  rcases h.shopping hplace with ⟨hpos, hvisits⟩
  have hhigh := h.high
  have hdesire := h.desire
  unfold Customer.visit
  split_ifs with hempty
  · exact ⟨hdesire, h.low, hhigh, by simpa using hvisits, by simp, by simp, by simp⟩
  · rw [h.desire_visit hplace hgoods]
    rcases hgoods with ⟨hnonneg, hmax⟩
    unfold intMax at hhigh hmax
    constructor
    · show c.desireSpend - goods = d - (c.bought + goods)
      omega
    · show -intMax ≤ c.desireSpend - goods
      unfold intMax
      omega
    · show c.desireSpend - goods ≤ intMax
      unfold intMax
      omega
    · simpa using hvisits
    · simp
    · simp
    · simp

theorem decide (h : Fair d c) (hplace : c.place = .deciding) : Fair d c.decide := by
  have hbehind := h.behind (by rw [hplace]; simp)
  unfold Customer.decide
  split_ifs with hdone
  · exact ⟨h.desire, h.low, h.high, h.earlier, by simp, fun _ => hbehind, fun _ => hdone⟩
  · refine ⟨h.desire, h.low, h.high, h.earlier, ?_, by simp, by simp⟩
    intro _
    have hpos : 0 < c.desireSpend := by omega
    refine ⟨hpos, ?_⟩
    -- the last visit left a desire, too
    intro v hv
    rw [← List.dropLast_append_getLast? _ hbehind] at hv
    rcases List.mem_append.mp hv with hv | hv
    · exact h.earlier v hv
    · rw [List.mem_singleton.mp hv]
      exact hpos

end Customer.Fair

/-- What a customer takes is not in the store any more. -/
theorem visit_goods (c : Customer) (goods : Int) :
    (c.visit goods).1 + (c.visit goods).2.bought = goods + c.bought := by
  unfold Customer.visit
  split_ifs with hempty
  · rfl
  · show 0 + (c.bought + goods) = goods + c.bought
    omega

theorem visit_amount {c : Customer} {goods : Int} (h : Amount goods) : Amount (c.visit goods).1 := by
  unfold Customer.visit
  split_ifs with hempty
  · exact h
  · exact ⟨Int.le_refl 0, (by decide : (0 : Int) ≤ intMax)⟩

/-! ## All visits -/

/-- No stock leaves the range of an `int`. -/
def InRange (s : System) : Label → Prop
  | .supply k => ∀ goods, s.stores[k]? = some goods → goods + 200 ≤ intMax
  | .visit _ _ | .decide _ => True

instance (s : System) : ∀ l : Label, Decidable (InRange s l)
  | .supply k =>
    match h : s.stores[k]? with
    | none => .isTrue fun goods hg => by rw [h] at hg; cases hg
    | some goods =>
      decidable_of_iff (goods + 200 ≤ intMax)
        ⟨fun hle g hg => by rw [h] at hg; cases hg; exact hle, fun hall => hall goods h⟩
  | .visit _ _ | .decide _ => .isTrue trivial

theorem sum_set {L : List Int} {a : Int} (h : L[k]? = some a) (b : Int) :
    (L.set k b).sum + a = L.sum + b := by
  rcases List.getElem?_eq_some_iff.mp h with ⟨hlt, rfl⟩
  rw [List.sum_set', dif_pos hlt]
  omega

/-- The stores hold amounts, the goods are all accounted for, and every customer is fair. -/
structure Kept (stock desires : List Int) (s : System) : Prop where
  amounts : ∀ x ∈ s.stores, Amount x
  total : s.stores.sum + (s.customers.map Customer.bought).sum = stock.sum + 200 * s.supplied
  length : s.customers.length = desires.length
  fair : ∀ (i : ℕ) (c : Customer) (d : Int), s.customers[i]? = some c → desires[i]? = some d → c.Fair d

namespace Kept

variable {stock desires : List Int}

theorem init (hstock : ∀ x ∈ stock, Amount x) (hdesires : ∀ d ∈ desires, 0 < d ∧ d ≤ intMax) :
    Kept stock desires (System.init stock desires) := by
  constructor
  · exact hstock
  · have hzero : ((desires.map fun d => (⟨d, .shopping, 0, []⟩ : Customer)).map Customer.bought).sum = 0 := by
      rw [List.map_map]
      exact List.sum_eq_zero (by simp)
    show stock.sum + ((desires.map _).map Customer.bought).sum = stock.sum + 200 * (0 : ℕ)
    rw [hzero]
    simp
  · exact List.length_map _
  · intro i c d hc hd
    have hd' : desires[i]? = some d := hd
    simp only [System.init, List.getElem?_map, hd', Option.map_some, Option.some.injEq] at hc
    obtain rfl := hc
    have hmem := hdesires d (List.mem_of_getElem? hd)
    exact Customer.Fair.init hmem.1 hmem.2

/-- The customer that has moved, and the others. -/
theorem fair_set (h : Kept stock desires s) {c : Customer}
    (hfair : ∀ d, desires[i]? = some d → c.Fair d) :
    ∀ (j : ℕ) (b : Customer) (d : Int),
      (s.customers.set i c)[j]? = some b → desires[j]? = some d → b.Fair d := by
  intro j b d hb hd
  rw [List.getElem?_set] at hb
  split_ifs at hb with hij hlt
  · obtain rfl := Option.some.inj hb
    exact hfair d (hij ▸ hd)
  · exact h.fair j b d hb hd

theorem bought_set {c : Customer} (hc : s.customers[i]? = some c) (c' : Customer) :
    ((s.customers.set i c').map Customer.bought).sum + c.bought =
      (s.customers.map Customer.bought).sum + c'.bought := by
  rw [List.map_set]
  exact sum_set (by rw [List.getElem?_map, hc]; rfl) _

theorem amounts_set (h : Kept stock desires s) {x : Int} (hx : Amount x) :
    ∀ y ∈ s.stores.set k x, Amount y := by
  intro y hy
  rcases List.mem_or_eq_of_mem_set hy with hy | rfl
  · exact h.amounts y hy
  · exact hx

theorem step {l : Label} (h : Kept stock desires s) (hrange : InRange s l) (hs : s.step l = some s') :
    Kept stock desires s' := by
  cases l with
  | visit i k =>
    rcases visit_cases hs with ⟨c, goods, hc, hgoods, hplace, rfl⟩
    have hamount : Amount goods := h.amounts goods (List.mem_of_getElem? hgoods)
    refine ⟨h.amounts_set (visit_amount hamount), ?_, ?_, ?_⟩
    · -- the goods go from the store to the customer
      have hstores := sum_set hgoods (c.visit goods).1
      have hbought := bought_set hc (c.visit goods).2
      have hsame := visit_goods c goods
      have htotal := h.total
      dsimp only
      omega
    · rw [List.length_set]
      exact h.length
    · exact h.fair_set fun d hd => (h.fair i c d hc hd).visit hplace hamount
  | decide i =>
    rcases decide_cases hs with ⟨c, hc, hplace, rfl⟩
    refine ⟨h.amounts, ?_, ?_, ?_⟩
    · have hbought := bought_set hc c.decide
      have hsame : c.decide.bought = c.bought := by
        unfold Customer.decide
        split_ifs <;> rfl
      have htotal := h.total
      dsimp only
      omega
    · rw [List.length_set]
      exact h.length
    · exact h.fair_set fun d hd => (h.fair i c d hc hd).decide hplace
  | supply k =>
    rcases supply_cases hs with ⟨goods, hgoods, rfl⟩
    rcases h.amounts goods (List.mem_of_getElem? hgoods) with ⟨hnonneg, -⟩
    have hmax := hrange goods hgoods
    have hint : toInt (goods + 200) = goods + 200 := toInt_of_le (by omega) hmax
    have hamount : Amount (goods + 200) := ⟨by omega, hmax⟩
    rw [hint]
    refine ⟨h.amounts_set hamount, ?_, h.length, h.fair⟩
    have hstores := sum_set hgoods (goods + 200)
    have htotal := h.total
    dsimp only
    push_cast
    omega

end Kept

/-- What a customer does behind a visit. -/
theorem left_iff {c : Customer} : c.decide.place = .left ↔ c.desireSpend ≤ 0 := by
  unfold Customer.decide
  split_ifs with hdone <;> simp [hdone]

/-- At every moment of every run, with any stock and any customers: the stock and
what has been bought are the initial stock and 200 for each visit of the
supplier; no store is negative; the desire of a customer is its initial one less
what it has bought; and a customer goes on shopping as long as its visits leave
it a desire, and leaves behind the first one that does not. -/
theorem goods_conserved (stock desires : List Int) (hstock : ∀ x ∈ stock, 0 ≤ x ∧ x ≤ intMax)
    (hdesires : ∀ d ∈ desires, 0 < d ∧ d ≤ intMax) (ls : List Label) (s : System)
    (hrun : Machine.Run System.step InRange (System.init stock desires) ls s) :
    s.stores.sum + (s.customers.map Customer.bought).sum = stock.sum + 200 * s.supplied ∧
      (∀ x ∈ s.stores, 0 ≤ x) ∧
      s.customers.length = desires.length ∧
      ∀ i c d, s.customers[i]? = some c → desires[i]? = some d →
        c.desireSpend = d - c.bought ∧
        (∀ v ∈ c.visits.dropLast, 0 < v) ∧
        (c.place = .shopping → ∀ v ∈ c.visits, 0 < v) ∧
        (c.place ≠ .shopping → c.visits.getLast? = some c.desireSpend) ∧
        (c.place = .left → c.desireSpend ≤ 0) ∧
        ∀ s', s.step (.decide i) = some s' →
          ∃ c', s'.customers[i]? = some c' ∧ (c'.place = .left ↔ c.desireSpend ≤ 0) := by
  have hkept : Kept stock desires s := by
    apply hrun.invariant (Kept stock desires) (Kept.init hstock hdesires)
    intro s l s' hkept hrange hs
    exact hkept.step hrange hs
  refine ⟨hkept.total, fun x hx => (hkept.amounts x hx).1, hkept.length, ?_⟩
  intro i c d hc hd
  have hfair := hkept.fair i c d hc hd
  refine ⟨hfair.desire, hfair.earlier, fun hplace => (hfair.shopping hplace).2, hfair.behind, hfair.left, ?_⟩
  intro s' hs
  -- the step is the decision of this customer
  rcases decide_cases hs with ⟨b, hb, -, rfl⟩
  obtain rfl : c = b := Option.some.inj (hc.symm.trans hb)
  refine ⟨c.decide, ?_, left_iff⟩
  rcases List.getElem?_eq_some_iff.mp hc with ⟨hlt, -⟩
  exact List.getElem?_set_self hlt

/-- Two customers and the supplier; the first customer leaves. -/
def twoCustomers : List Label :=
  [.visit 0 1, .supply 1, .visit 1 1, .decide 0, .visit 0 2, .decide 1, .decide 0, .visit 1 1, .decide 1]

theorem goods_conserved_twoCustomers : ∃ s,
    Machine.Run System.step InRange (System.init (initStore fun n => n) [1500, 500]) twoCustomers s ∧
      s.customers.map Customer.place = [.left, .shopping] ∧
      s.stores.sum + (s.customers.map Customer.bought).sum =
        (initStore fun n => n).sum + 200 * s.supplied := by
  have hrun : (Machine.exec (Machine.guarded System.step InRange)
      (System.init (initStore fun n => n) [1500, 500]) twoCustomers).map
      (fun s => s.customers.map Customer.place) = some [.left, .shopping] := by
    decide +kernel
  rcases Machine.Run.exists_of_exec hrun with ⟨s, hrun, hplaces⟩
  exact ⟨s, hrun, hplaces,
    (goods_conserved _ _ (by decide +kernel) (by decide +kernel) twoCustomers s hrun).1⟩

end EmbeddedCourse.Stores
