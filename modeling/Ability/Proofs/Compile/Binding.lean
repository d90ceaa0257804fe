import Ability.Proofs.Compile.Orders
import Mathlib.Data.List.Chain
import Mathlib.Logic.Relation

/-! Chains that are referred to by their identifiers. A reference is resolved when the effect is compiled;
what it is resolved to was compiled before, so its number is smaller. Numbers descend along every path of
chains that run each other: no chain comes back to itself, and a path is no longer than its first number. -/

namespace Ability

open Relation

def Chain.Runs (c d : Chain) : Prop :=
  ∃ e ∈ c.components, ∃ kind x, e.response = .chain kind d x

/-- Whatever chains can be reached, each has a larger number than those that it runs. -/
def Chain.Descends (c : Chain) : Prop :=
  ∀ d, ReflTransGen Chain.Runs c d → ∀ e, d.Runs e → e.number < d.number

namespace Chain

theorem descends_of_runs {c : Chain} (h : ∀ d, c.Runs d → d.number < c.number ∧ d.Descends) :
    c.Descends := by
  intro d hcd e hde
  rcases hcd.cases_head with rfl | ⟨c', hc', hd⟩
  · exact (h e hde).1
  · exact (h c' hc').2 d hd e hde

namespace Descends

variable {c d : Chain}

theorem of_reach (hc : c.Descends) (hd : ReflTransGen Runs c d) : d.Descends :=
  fun e he => hc e (hd.trans he)

theorem lt_of_reach (hc : c.Descends) (hd : TransGen Runs c d) : d.number < c.number := by
  induction hd with
  | single h => exact hc c .refl _ h
  | tail hcb hbd ih => exact (hc _ hcb.to_reflTransGen _ hbd).trans ih

theorem length_le {cs : List Chain} (hc : c.Descends) (hcs : (c :: cs).IsChain Runs) :
    cs.length ≤ c.number := by
  induction cs generalizing c with
  | nil => exact Nat.zero_le _
  | cons d cs ih =>
    obtain ⟨hcd, hrest⟩ := List.isChain_cons_cons.mp hcs
    have hlt : d.number < c.number := hc c .refl d hcd
    exact (ih (hc.of_reach (.single hcd)) hrest).trans_lt hlt

end Descends

end Chain

/-- A chain is written inside the effect, and not named. -/
def Effect.Inline (e : Effect) : Prop := e.args.text? "chain" = none

/-- If the effect runs a chain, it is one from before `n`, and the registered one if it is named. -/
def Effect.Binds (chains : ChainRegistry) (n : Nat) (e : Effect) : Prop :=
  ∀ kind c x, e.response = .chain kind c x → c.number < n ∧ c.Descends ∧
    ∀ id, e.args.text? "chain" = some id → chains.get? id = some c

theorem Effect.Binds.mono {chains : ChainRegistry} {n m : Nat} {e : Effect} (he : e.Binds chains n)
    (h : n ≤ m) : e.Binds chains m := by
  intro kind c x hc
  obtain ⟨hlt, hrest⟩ := he kind c x hc
  exact ⟨hlt.trans_le h, hrest⟩

/-- A chain gets its number after everything that its effects run. -/
theorem Chain.descends_of_binds {chains : ChainRegistry} {c : Chain}
    (h : ∀ e ∈ c.components, e.Binds chains c.number) : c.Descends := by
  refine descends_of_runs ?_
  rintro d ⟨e, he, kind, x, hd⟩
  obtain ⟨hlt, hdescends, -⟩ := h e he kind d x hd
  exact ⟨hlt, hdescends⟩

def ChainRegistry.Before (chains : ChainRegistry) (n : Nat) : Prop :=
  ∀ id c, chains.get? id = some c → c.number < n ∧ c.Descends

namespace Compile

/-- References are bound to what is registered when they are compiled. -/
def bindingLaw {r : Registries} {base : Nat} (hr : r.chains.Before base) : Law r base where
  ofEffect n e := ∀ f, e.Holds Effect.Inline f → f.Binds r.chains n
  ofCondition n c := ∀ e ∈ c.notMetEffects, ∀ f, e.Holds Effect.Inline f → f.Binds r.chains n
  ofResponse n args s := ∀ kind c x, s = .chain kind c x → c.number < n ∧ c.Descends ∧
    (∀ id, args.text? "chain" = some id → r.chains.get? id = some c) ∧
    (args.text? "chain" = none → ∀ e ∈ c.components, ∀ f, e.Holds Effect.Inline f → f.Binds r.chains n)
  condition_mono h hc e he f hf := (hc e he f hf).mono h
  effect_mono h he f hf := (he f hf).mono h
  response_mono h hs kind c x hc := by
    obtain ⟨hlt, hd, hnamed, hinline⟩ := hs kind c x hc
    exact ⟨hlt.trans_le h, hd, hnamed, fun hnone e he f hf => (hinline hnone e he f hf).mono h⟩
  condition _ _ hes := hes
  effect hs _ hcs f hf := by
    cases hf with
    | self e =>
      intro kind c x hc
      obtain ⟨hlt, hd, hnamed, -⟩ := hs kind c x hc
      exact ⟨hlt, hd, hnamed⟩
    | component hnone hc hg hf =>
      obtain ⟨-, -, -, hinline⟩ := hs _ _ _ hc
      exact hinline hnone _ hg f hf
    | fallback hc hg hf => exact hcs _ hc _ hg f hf
  leaf _ _ := nofun
  named hn hid hc kind c x hs := by
    cases hs
    obtain ⟨hlt, hd⟩ := hr _ _ hc
    refine ⟨hlt.trans_le hn, hd, fun id hid' => ?_, fun hnone => ?_⟩
    · obtain rfl := Option.some.inj (hid.symm.trans hid')
      exact hc
    · cases hid.symm.trans hnone
  inline hn hnone hes kind c x hs := by
    cases hs
    refine ⟨hn, ?_, fun id hid => ?_, fun _ e he f hf => (hes e he f hf).mono hn.le⟩
    · exact Chain.descends_of_binds fun e he => hes e he e (.self e)
    · cases hnone.symm.trans hid

theorem bindingLaw_descends {r : Registries} {base n : Nat} (hr : r.chains.Before base) {c : Chain}
    (h : (bindingLaw hr).OfChain n c) : c.Descends :=
  Chain.descends_of_binds fun e he => h.2 e he e (.self e)

end Compile

/-- On the paths of chains that run each other, no chain comes back to an instance that it came from, and
every path ends. -/
structure Chain.Unwinds (c : Chain) : Prop where
  descends : ∀ d e, ReflTransGen Chain.Runs c d → TransGen Chain.Runs d e → e.number < d.number
  bounded : ∀ cs, (c :: cs).IsChain Chain.Runs → cs.length ≤ c.number

theorem Chain.Descends.unwinds {c : Chain} (hc : c.Descends) : c.Unwinds where
  descends _ _ hd he := (hc.of_reach hd).lt_of_reach he
  bounded _ hcs := hc.length_le hcs

namespace Engine

theorem filled_before {g : Engine} (hg : g.registries.chains.Before g.nextNumber) (o : Order) :
    (g.filled o).registries.chains.Before (g.filled o).nextNumber := by
  obtain ⟨hle, -, -, hchain, -⟩ := g.product_lawful (Compile.bindingLaw hg) o
  intro id c hc
  rcases named_or_registered hc with hnamed | hc
  · have hmade := hchain c (named?_eq_chain? hnamed)
    exact ⟨hmade.1, Compile.bindingLaw_descends hg hmade⟩
  · obtain ⟨hlt, hdescends⟩ := hg id c hc
    exact ⟨hlt.trans_le hle, hdescends⟩

/-- An identifier stands for the chain that was last compiled under it, and for none if there is none. -/
theorem afterOrders_get? {g : Engine} (hg : g.registries.chains = .empty) (orders : List Order)
    (id : String) :
    (g.afterOrders orders).registries.chains.get? id =
      (g.orderBook orders).reverse.findSome? fun q => (q.1.named? q.2).filter (·.id = id) := by
  induction orders using List.reverseRecOn with
  | nil => simp only [afterOrders, orderBook, hg, Table.get?_empty, List.reverse_nil, List.findSome?_nil]
  | append_singleton os o ih =>
    simp only [afterOrders_append, orderBook_append, afterOrders, orderBook, filled_get?, ih,
      List.reverse_append, List.reverse_singleton, List.singleton_append, List.findSome?_cons]
    cases (o.named? ((g.afterOrders os).product o)).filter (·.id = id) <;> rfl

end Engine

/-- Compiling leaves no other trace in the registries than the named chain that it makes. What runs a chain
by its identifier runs the one that was registered when it was compiled, so no chain comes to run itself. -/
theorem references_bind_early (g : Engine) (hg : g.registries.chains = .empty) (orders : List Order) :
    let now := g.afterOrders orders
    (∀ id, now.registries.chains.get? id =
      (g.orderBook orders).reverse.findSome? fun q => (q.1.named? q.2).filter (·.id = id)) ∧
    (∀ id c, now.registries.chains.get? id = some c → c.Unwinds) ∧
    (∀ (later : Engine) (r : Registries) s trigger data,
      (Engine.dispatch s trigger data { later with registries := r }).value.1 =
          (Engine.dispatch s trigger data later).value.1 ∧
        (Engine.dispatch s trigger data { later with registries := r }).events =
          (Engine.dispatch s trigger data later).events) ∧
    ∀ o,
      (o.named? (now.product o) = none → (now.filled o).registries = now.registries) ∧
      (∀ c, o.named? (now.product o) = some c →
        (∃ config context, o = .chain config context false ∧ config.requireText "id" = .ok c.id) ∧
        (now.filled o).registries =
          { now.registries with chains := (now.filled o).registries.chains } ∧
        ∀ id, (now.filled o).registries.chains.get? id =
          if c.id = id then some c else now.registries.chains.get? id) ∧
      (∀ c, (now.product o).chain? = some c → c.Unwinds) ∧
      ∀ e, (now.product o).Holds Effect.Inline e → ∀ kind c x, e.response = .chain kind c x →
        (∀ id, e.args.text? "chain" = some id → now.registries.chains.get? id = some c) ∧
        (∀ ev occurrence, e.trigger ev occurrence = do
          if ← e.argumentsMet ev occurrence then c.execute ev occurrence x else return false) ∧
        c.Unwinds := by
  intro now
  have hbefore : now.registries.chains.Before now.nextNumber := by
    refine Engine.afterOrders_induction (P := fun g => g.registries.chains.Before g.nextNumber) ?_
      (fun g o h => g.filled_before h o) orders
    rw [hg]
    exact fun id c hc => nomatch hc
  refine ⟨Engine.afterOrders_get? hg orders, fun id c hc => (hbefore id c hc).2.unwinds, ?_, fun o => ?_⟩
  · exact fun later r s trigger data => ⟨rfl, rfl⟩
  obtain ⟨-, heffects, hconditions, hchain, hnamed⟩ :=
    now.product_lawful (Compile.bindingLaw hbefore) o
  refine ⟨fun hnone => ?_, fun c hc => ⟨hnamed c hc, ?_, fun id => ?_⟩, fun c hc => ?_, ?_⟩
  · rw [Engine.filled_registries, hnone, Option.elim]
  · rw [Engine.filled_registries, hc]
    rfl
  · rw [Engine.filled_get?, hc]
    by_cases hid : c.id = id <;> simp [Option.filter, hid]
  · exact (Compile.bindingLaw_descends hbefore (hchain c hc)).unwinds
  · intro e he kind c x hresponse
    have hbinds : e.Binds now.registries.chains (now.filled o).nextNumber := by
      rcases he with ⟨e', he', hincludes⟩ | ⟨d, hd, e', he', hincludes⟩
      · exact heffects e' he' e hincludes
      · exact hconditions d hd e' he' e hincludes
    obtain ⟨-, hdescends, hid⟩ := hbinds kind c x hresponse
    refine ⟨hid, fun ev occurrence => ?_, hdescends.unwinds⟩
    cases e
    cases hresponse
    rfl

/-- One effect of the kind, with one argument. -/
def Json.effectOf (kind key value : String) : Json :=
  .object [("args", .object [(key, .text value)]), ("id", .text kind)]

namespace Order

/-- A chain of one effect, under the identifier `x`. -/
def chainOf (kind key value : String) : Order :=
  .chain (.object [("effects", .array [.effectOf kind key value]), ("id", .text "x")]) "" false

def greeting : Order := chainOf "log" "message" "hi"

/-- A chain that runs a chain under its own identifier. -/
def encore : Order := chainOf "run_chain" "chain" "x"

end Order

namespace Engine

theorem named_chainOf (g : Engine) (kind key value : String) {e : Effect}
    (he : (Compile.effect g.registries (.effectOf kind key value) " (chain x) effects[0]"
      "chain:x/effects[0]" g.nextNumber).value.1 = some e) :
    ∃ c, (Order.chainOf kind key value).named? (g.product (.chainOf kind key value)) = some c ∧
      c.id = "x" ∧ c.components = [e] := by
  let config : Json := .object [("effects", .array [.effectOf kind key value]), ("id", .text "x")]
  have hid : config.requireText "id" = .ok "x" := rfl
  have heffects : config.subsections "effects" = [.effectOf kind key value] := rfl
  have hone : (Compile.effects g.registries [.effectOf kind key value] 0 (Compile.chainScope "" "x")
      (Compile.chainPath "x") g.nextNumber).value.1 = [e] := by
    rw [Compile.effects, Compile.effects]
    change (Compile.effect g.registries _ " (chain x) effects[0]" "chain:x/effects[0]" _).value.1.toList ++
      [] = [e]
    rw [he]
    rfl
  simp only [Order.chainOf, Order.named?, product, fill, compileChain_value, Prod.map, Product.chain?,
    Compile.chain, Compile.chain.make, Bool.false_eq_true, if_false]
  simp only [config] at hid heffects
  simp only [hid, heffects, Compile.chainOf, bind, StateT.bind, hone]
  exact ⟨_, rfl, rfl, rfl⟩

theorem named_greeting (g : Engine) (hg : g.registries = .builtin) :
    ∃ c, Order.greeting.named? (g.product .greeting) = some c ∧ c.id = "x" := by
  have hmade : (Compile.effect .builtin (.effectOf "log" "message" "hi") " (chain x) effects[0]"
      "chain:x/effects[0]" g.nextNumber).value.1.isSome := by
    have hconditions : (Json.effectOf "log" "message" "hi").subsections "conditions" = [] := rfl
    rw [Compile.effect, hconditions, Compile.conditions]
    rfl
  obtain ⟨e, he⟩ := Option.isSome_iff_exists.mp hmade
  obtain ⟨c, hc, hid, -⟩ := g.named_chainOf "log" "message" "hi" (hg ▸ he)
  exact ⟨c, hc, hid⟩

theorem named_encore (g : Engine) {n : Nat} {es : List Effect}
    (hg : g.registries = Registries.builtin.addChain ⟨n, "x", es⟩) :
    ∃ d, Order.encore.named? (g.product .encore) = some d ∧ d.id = "x" ∧
      ∃ e ∈ d.components, ∃ x, e.response = .chain "run_chain" ⟨n, "x", es⟩ x := by
  have hmade : ((Compile.effect g.registries (.effectOf "run_chain" "chain" "x") " (chain x) effects[0]"
      "chain:x/effects[0]" g.nextNumber).value.1).map (·.response) =
      some (.chain "run_chain" ⟨n, "x", es⟩ ⟨.normal, g.nextNumber⟩) := by
    have hconditions : (Json.effectOf "run_chain" "chain" "x").subsections "conditions" = [] := rfl
    rw [hg, Compile.effect, hconditions, Compile.conditions]
    rfl
  obtain ⟨e, he, hresponse⟩ := Option.map_eq_some_iff.mp hmade
  obtain ⟨d, hd, hid, hes⟩ := g.named_chainOf "run_chain" "chain" "x" he
  exact ⟨d, hd, hid, e, hes ▸ List.mem_singleton_self e, _, hresponse⟩

end Engine

/-- Compiled anew, a chain that names its own identifier runs the chain that had it before. -/
theorem references_bind_early_encore :
    let g := Engine.new .builtin .arithmetic 0
    g.registries.chains = .empty ∧
      ∃ c d, (g.afterOrders [.greeting]).registries.chains.get? "x" = some c ∧
        (g.afterOrders [.greeting, .encore]).registries.chains.get? "x" = some d ∧
        d.Runs c ∧ c.number < d.number := by
  intro g
  have hempty : g.registries.chains = .empty := rfl
  obtain ⟨⟨n, id, es⟩, hc, rfl⟩ := g.named_greeting rfl
  have hg : (g.afterOrders [.greeting]).registries = Registries.builtin.addChain ⟨n, "x", es⟩ := by
    rw [Engine.afterOrders, Engine.afterOrders, Engine.filled_registries, hc]
    rfl
  obtain ⟨d, hd, hid, hruns⟩ := (g.afterOrders [.greeting]).named_encore hg
  obtain ⟨-, hregistered, -⟩ := references_bind_early g hempty [.greeting, .encore]
  obtain ⟨-, -, -, horder⟩ := references_bind_early g hempty [.greeting]
  obtain ⟨-, hnamed, -⟩ := horder .encore
  obtain ⟨-, -, hget⟩ := hnamed d hd
  have hencore : (g.afterOrders [.greeting, .encore]).registries.chains.get? "x" = some d :=
    (hget "x").trans (if_pos hid)
  have hcd : d.Runs ⟨n, "x", es⟩ := by
    obtain ⟨e, he, x, hresponse⟩ := hruns
    exact ⟨e, he, _, x, hresponse⟩
  refine ⟨hempty, ⟨n, "x", es⟩, d, hg ▸ rfl, hencore, hcd, ?_⟩
  exact (hregistered "x" d hencore).descends d _ .refl (.single hcd)

end Ability
