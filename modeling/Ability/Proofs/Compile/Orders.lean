import Ability.Engine
import Ability.Proofs.Compile.Law

/-! Orders to compile something, and what is made of them. A run fills orders one after the other with one
engine; the only trace that an order leaves in the registries is the named chain that was made of it. -/

namespace Ability

inductive Order
  | condition (config : Json) (context : String)
  | conditions (configs : List Json) (context : String)
  | effect (config : Json) (context : String)
  | effects (configs : List Json) (context : String)
  | holder (config : Json) (context : String)
  | chain (config : Json) (context : String) (anonymous : Bool)

inductive Product
  | condition (c : Option Condition)
  | conditions (cs : List Condition)
  | effect (e : Option Effect)
  | effects (es : List Effect)
  | holder (h : Option Holder)
  | chain (c : Option Chain)

namespace Product

def allEffects : Product → List Effect
  | .effect e => e.toList
  | .effects es => es
  | .holder h => h.toList.flatMap (·.effects)
  | .chain c => c.toList.flatMap (·.components)
  | .condition _ | .conditions _ => []

def allConditions : Product → List Condition
  | .condition c => c.toList
  | .conditions cs => cs
  | .holder h => h.toList.flatMap (·.conditions)
  | .effect _ | .effects _ | .chain _ => []

def chain? : Product → Option Chain
  | .chain c => c
  | _ => none

end Product

/-- The effects in an effect: itself, the components of a chain that it runs where chains are entered, and
what stands in for its conditions. -/
inductive Effect.Holds (enters : Effect → Prop) : Effect → Effect → Prop
  | self (e : Effect) : Holds enters e e
  | component {e f g : Effect} {kind : String} {c : Chain} {x : Executor} (enter : enters e)
      (response : e.response = .chain kind c x) (mem : g ∈ c.components) (rest : Holds enters g f) :
      Holds enters e f
  | fallback {e f g : Effect} {c : Condition} (condition : c ∈ e.conditions) (mem : g ∈ c.notMetEffects)
      (rest : Holds enters g f) : Holds enters e f

theorem Effect.Holds.trans {enters : Effect → Prop} {e f g : Effect} (hf : e.Holds enters f)
    (hg : f.Holds enters g) : e.Holds enters g := by
  induction hf with
  | self e => exact hg
  | component enter response mem _ ih => exact .component enter response mem (ih hg)
  | fallback condition mem _ ih => exact .fallback condition mem (ih hg)

def Product.Holds (enters : Effect → Prop) (p : Product) (f : Effect) : Prop :=
  (∃ e ∈ p.allEffects, e.Holds enters f) ∨
    ∃ c ∈ p.allConditions, ∃ e ∈ c.notMetEffects, e.Holds enters f

theorem Product.Holds.trans {enters : Effect → Prop} {p : Product} {f g : Effect}
    (hf : p.Holds enters f) (hg : f.Holds enters g) : p.Holds enters g := by
  rcases hf with ⟨e, he, hf⟩ | ⟨c, hc, e, he, hf⟩
  · exact .inl ⟨e, he, hf.trans hg⟩
  · exact .inr ⟨c, hc, e, he, hf.trans hg⟩

/-- The chain that was made and not asked to be anonymous. -/
def Order.named? : Order → Product → Option Chain
  | .chain _ _ anonymous, p => if anonymous then none else p.chain?
  | _, _ => none

namespace Engine

def fill (g : Engine) : Order → Product × Engine
  | .condition config context => (compileCondition config context g).value.map .condition id
  | .conditions configs context => (compileConditions configs context g).value.map .conditions id
  | .effect config context => (compileEffect config context g).value.map .effect id
  | .effects configs context => (compileEffects configs context g).value.map .effects id
  | .holder config context => (compileHolder config context g).value.map .holder id
  | .chain config context anonymous =>
    (compileChain config context anonymous g).value.map .chain id

def product (g : Engine) (o : Order) : Product := (g.fill o).1

def filled (g : Engine) (o : Order) : Engine := (g.fill o).2

def afterOrders : Engine → List Order → Engine
  | g, [] => g
  | g, o :: os => (g.filled o).afterOrders os

/-- The orders of a run, each with what was made of it. -/
def orderBook : Engine → List Order → List (Order × Product)
  | _, [] => []
  | g, o :: os => (o, g.product o) :: (g.filled o).orderBook os

theorem afterOrders_append (g : Engine) (os ps : List Order) :
    g.afterOrders (os ++ ps) = (g.afterOrders os).afterOrders ps := by
  induction os generalizing g with
  | nil => rfl
  | cons o os ih => simpa only [List.cons_append, afterOrders] using ih (g.filled o)

theorem orderBook_append (g : Engine) (os ps : List Order) :
    g.orderBook (os ++ ps) = g.orderBook os ++ (g.afterOrders os).orderBook ps := by
  induction os generalizing g with
  | nil => rfl
  | cons o os ih => simp only [List.cons_append, orderBook, afterOrders, ih]

theorem afterOrders_induction {P : Engine → Prop} {g : Engine} (hP : P g)
    (hstep : ∀ g o, P g → P (g.filled o)) (os : List Order) : P (g.afterOrders os) := by
  induction os generalizing g with
  | nil => exact hP
  | cons o os ih => exact ih (hstep g o hP)

theorem named?_eq_chain? {o : Order} {p : Product} {c : Chain} (h : o.named? p = some c) :
    p.chain? = some c := by
  cases o with
  | chain config context anonymous =>
    cases anonymous with
    | true => cases h
    | false => exact h
  | _ => cases h

theorem mem_allEffects_of_chain? {p : Product} {c : Chain} (h : p.chain? = some c) {e : Effect}
    (he : e ∈ c.components) : e ∈ p.allEffects := by
  cases p with
  | chain d =>
    obtain rfl : d = some c := h
    exact List.mem_flatMap.mpr ⟨c, List.mem_singleton_self c, he⟩
  | _ => cases h

theorem compileChain_value (g : Engine) (config : Json) (context : String) (anonymous : Bool) :
    (compileChain config context anonymous g).value =
      let made := (Compile.chain g.registries config context anonymous g.nextNumber).value
      (made.1, { g with
        registries := (if anonymous then none else made.1).elim g.registries g.registries.addChain
        nextNumber := made.2 }) := by
  simp only [compileChain, compile, bind, StateT.bind, pure]
  rcases Compile.chain g.registries config context anonymous g.nextNumber with ⟨⟨_ | c, n⟩, told⟩
  · cases anonymous <;> rfl
  · cases anonymous <;> rfl

/-- An order registers the named chain that was made of it, if one was, and changes no registry
otherwise. -/
theorem filled_registries (g : Engine) (o : Order) :
    (g.filled o).registries =
      (o.named? (g.product o)).elim g.registries g.registries.addChain := by
  cases o with
  | chain config context anonymous =>
    simp only [filled, product, fill, compileChain_value, Prod.map, Order.named?, Product.chain?, id]
  | _ => rfl

theorem filled_tally (g : Engine) (o : Order) : (g.filled o).tally = g.tally := by
  cases o with
  | chain config context anonymous => simp only [filled, fill, compileChain_value, Prod.map, id]
  | _ => rfl

theorem filled_get? (g : Engine) (o : Order) (id : String) :
    (g.filled o).registries.chains.get? id =
      ((o.named? (g.product o)).filter (·.id = id)).or (g.registries.chains.get? id) := by
  rw [filled_registries]
  cases o.named? (g.product o) with
  | none => rfl
  | some c =>
    simp only [Option.elim, Registries.addChain, ChainRegistry.add, Table.get?_insert]
    by_cases h : c.id = id <;> simp [Option.filter, h]

/-- A chain that is registered after an order was made of it, or was registered before. -/
theorem named_or_registered {g : Engine} {o : Order} {id : String} {c : Chain}
    (h : (g.filled o).registries.chains.get? id = some c) :
    o.named? (g.product o) = some c ∨ g.registries.chains.get? id = some c := by
  rw [filled_get?, Option.or_eq_some_iff] at h
  rcases h with h | ⟨-, h⟩
  · exact .inl (Option.filter_eq_some_iff.mp h).1
  · exact .inr h

theorem product_lawful (g : Engine) (L : Compile.Law g.registries g.nextNumber) (o : Order) :
    g.nextNumber ≤ (g.filled o).nextNumber ∧
      (∀ e ∈ (g.product o).allEffects, L.ofEffect (g.filled o).nextNumber e) ∧
      (∀ c ∈ (g.product o).allConditions, L.ofCondition (g.filled o).nextNumber c) ∧
      (∀ c, (g.product o).chain? = some c → L.OfChain (g.filled o).nextNumber c) ∧
      ∀ c, o.named? (g.product o) = some c →
        ∃ config context, o = .chain config context false ∧ config.requireText "id" = .ok c.id := by
  cases o with
  | condition config context =>
    obtain ⟨hle, hc⟩ := L.of_condition (Nat.le_refl _) config context ""
    exact ⟨hle, nofun, fun c hmem => hc c (Option.mem_toList.mp hmem), nofun, nofun⟩
  | conditions configs context =>
    obtain ⟨hle, hcs⟩ := L.of_conditions (Nat.le_refl _) configs 0 context ""
    exact ⟨hle, nofun, hcs, nofun, nofun⟩
  | effect config context =>
    obtain ⟨hle, he⟩ := L.of_effect (Nat.le_refl _) config context ""
    exact ⟨hle, fun e hmem => he e (Option.mem_toList.mp hmem), nofun, nofun, nofun⟩
  | effects configs context =>
    obtain ⟨hle, hes⟩ := L.of_effects (Nat.le_refl _) configs 0 context ""
    exact ⟨hle, hes, nofun, nofun, nofun⟩
  | holder config context =>
    obtain ⟨hle, hh⟩ := L.of_holder (Nat.le_refl _) config context
    refine ⟨hle, fun e hmem => ?_, fun c hmem => ?_, nofun, nofun⟩
    · obtain ⟨h, hsome, he⟩ := List.mem_flatMap.mp hmem
      exact (hh h (Option.mem_toList.mp hsome)).1 e he
    · obtain ⟨h, hsome, hc⟩ := List.mem_flatMap.mp hmem
      exact (hh h (Option.mem_toList.mp hsome)).2 c hc
  | chain config context anonymous =>
    have hvalue := compileChain_value g config context anonymous
    obtain ⟨hle, hc⟩ := L.of_chain (Nat.le_refl _) config context anonymous
    simp only [filled, product, fill, hvalue, Prod.map, id, Product.chain?, Product.allEffects,
      Order.named?]
    refine ⟨hle, fun e hmem => ?_, nofun, fun c hsome => (hc c hsome).2, fun c hnamed => ?_⟩
    · obtain ⟨c, hsome, he⟩ := List.mem_flatMap.mp hmem
      obtain ⟨-, hnumber, hes⟩ := hc c (Option.mem_toList.mp hsome)
      exact L.effect_mono (Nat.le_of_lt hnumber) (hes e he)
    · cases anonymous with
      | true => cases hnamed
      | false => exact ⟨config, context, rfl, (hc c hnamed).1 rfl⟩

end Engine

end Ability
