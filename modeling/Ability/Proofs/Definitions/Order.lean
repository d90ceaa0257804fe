import Ability.Proofs.Compile.Binding
import Ability.Proofs.Compile.Validity
import Ability.Proofs.Definitions.Compiled

/-! In which order definitions are resolved. A chain finds the chains before it in the file and those that the
engine had already, a holder finds all of them, and what comes last under an identifier is what stands. Subjects are
given holders by name. -/

namespace Ability

def Response.chain? : Response → Option Chain
  | .leaf _ _ => none
  | .chain _ c _ => some c

/-- The configuration of an effect that runs a chain by its identifier, in order but for what that stands for. -/
structure Json.NamesChain (r : Registries) (config : Json) (id : String) : Prop where
  kind : ∃ k, config.OfKind r (.chainRunner k)
  executor : (config.subsection "args").HasExecutor r
  chain : (config.subsection "args").text? "chain" = some id

/-- The chain that the effect names, if it names one, is the known one. -/
def Effect.RunsKnown (known : String → Option Chain) (e : Effect) : Prop :=
  ∀ kind c x id, e.response = .chain kind c x → e.args.text? "chain" = some id → known id = some c

namespace Compile

/-- Whatever runs a chain by its identifier runs the registered one, wherever it is written. -/
def namingLaw (r : Registries) (base : Nat) : Law r base where
  ofEffect _ e := ∀ f, e.Holds Effect.Inline f → f.RunsKnown r.chains.get?
  ofCondition _ c := ∀ e ∈ c.notMetEffects, ∀ f, e.Holds Effect.Inline f → f.RunsKnown r.chains.get?
  ofResponse _ args s := ∀ kind c x, s = .chain kind c x →
    (∀ id, args.text? "chain" = some id → r.chains.get? id = some c) ∧
    (args.text? "chain" = none → ∀ e ∈ c.components, ∀ f, e.Holds Effect.Inline f → f.RunsKnown r.chains.get?)
  condition_mono _ h := h
  effect_mono _ h := h
  response_mono _ h := h
  condition _ _ hes := hes
  effect hs _ hcs f hf := by
    cases hf with
    | self e => exact fun kind c x id hc hid => (hs kind c x hc).1 id hid
    | component hnone hc hg hf => exact (hs _ _ _ hc).2 hnone _ hg f hf
    | fallback hc hg hf => exact hcs _ hc _ hg f hf
  leaf _ _ := nofun
  named _ hid hc kind c x hs := by
    cases hs
    refine ⟨fun id hid' => ?_, fun hnone => ?_⟩
    · obtain rfl := Option.some.inj (hid.symm.trans hid')
      exact hc
    · cases hid.symm.trans hnone
  inline _ hnone hes kind c x hs := by
    cases hs
    refine ⟨fun id hid => ?_, fun _ => hes⟩
    cases hnone.symm.trans hid

variable {r : Registries} {config : Json} {id : String}

theorem response_chain (r : Registries) (k : String) (args : Json) (context : String)
    (components : Compile (List Effect)) :
    Gives (fun s => s.chain?.isSome = true) (response r (.chainRunner k) args context components) := by
  refine .bind _ fun executor => .bind _ fun c => .bind _ fun n => .pure ?_
  rfl

theorem names_describes (h : config.NamesChain r id) :
    config.DescribesEffect r ↔ (r.chains.get? id).isSome = true := by
  obtain ⟨⟨k, hkind⟩, hexecutor, hchain⟩ := h
  constructor
  · intro hdescribes
    cases hdescribes with
    | leaf kind check =>
      obtain ⟨i, hi, hk⟩ := hkind.named
      obtain ⟨j, hj, hl⟩ := kind.named
      obtain rfl := Option.some.inj (hi.symm.trans hj)
      cases hk.symm.trans hl
    | named kind executor chain registered =>
      obtain rfl := Option.some.inj (hchain.symm.trans chain)
      exact Option.isSome_iff_exists.2 ⟨_, registered⟩
    | inline kind executor chain effects mem object inside => cases hchain.symm.trans chain
  · intro hregistered
    obtain ⟨c, hc⟩ := Option.isSome_iff_exists.1 hregistered
    exact .named hkind hexecutor hchain hc

theorem effect_runs_chain (h : config.NamesChain r id) {context path : String} {n : Nat} {e : Effect}
    (he : (effect r config context path n).value.1 = some e) :
    e.args = config.subsection "args" ∧ e.response.chain?.isSome = true := by
  obtain ⟨k, ⟨id', hid', hk⟩, -⟩ := h.kind
  rw [effect] at he
  refine Gives.report (P := fun e => e.args = config.subsection "args" ∧ e.response.chain?.isSome = true) ?_ he
  refine .andThen (.lift _) fun i hi => .andThen (.lift _) fun kind hkind => ?_
  obtain rfl := Option.some.inj (hid'.symm.trans (Json.requireText_eq_ok_iff.1 hi))
  obtain rfl := Option.some.inj (hk.symm.trans (lookup_eq_ok hkind))
  refine .andThen (response_chain r k _ _ _) fun s hs => ?_
  exact .bind _ fun arguments => .bind _ fun conditions => .pure ⟨rfl, hs⟩

/-- An effect is made of the configuration just if what it names is registered, and then it runs that. -/
theorem effect_names (h : config.NamesChain r id) (context path : String) (n : Nat) :
    (effect r config context path n).value.1.map (·.response.chain?) = (r.chains.get? id).map some := by
  have hpresent := (effect_isSome_iff config context path n).trans (names_describes h)
  cases hmade : (effect r config context path n).value.1 with
  | none =>
    rw [hmade] at hpresent
    rw [Option.not_isSome_iff_eq_none.1 (mt hpresent.2 nofun)]
    rfl
  | some e =>
    obtain ⟨hargs, hchain⟩ := effect_runs_chain h hmade
    obtain ⟨c, hc⟩ := Option.isSome_iff_exists.1 hchain
    have hnamed : e.RunsKnown r.chains.get? :=
      ((namingLaw r n).of_effect (Nat.le_refl n) config context path).2 e hmade e (.self e)
    have hregistered : r.chains.get? id = some c := by
      cases hr : e.response with
      | leaf k d =>
        rw [hr] at hc
        cases hc
      | chain k c' x =>
        rw [hr] at hc
        obtain rfl : c' = c := Option.some.inj hc
        exact hnamed k c' x id hr (hargs ▸ h.chain)
    rw [hregistered, Option.map_some, Option.map_some, hc]

theorem holder_id {context : String} {n : Nat} {h : Holder}
    (hh : (holder r config context n).value.1 = some h) : config.text? "id" = some h.id := by
  cases hid : config.requireText "id" with
  | error e =>
    simp only [holder, hid] at hh
    cases hh
  | ok id =>
    simp only [holder, hid] at hh
    obtain rfl := Option.some.inj hh
    exact Json.requireText_eq_ok_iff.1 hid

end Compile

theorem filterMap_range_succ {α : Type} (f : Nat → Option α) (i : Nat) :
    (List.range (i + 1)).filterMap f = (List.range i).filterMap f ++ (f i).toList := by
  rw [List.range_succ, List.filterMap_append]
  cases h : f i <;> simp [h]

/-- Elements that are compiled one after the other by an engine, with their numbers. -/
def compileEach {α : Type} (one : Nat → Json → EngineM (Option α)) : Nat → List Json → EngineM (List α)
  | _, [] => return []
  | i, config :: r => do
    let x ← one i config
    return x.toList ++ (← compileEach one (i + 1) r)

section Each

variable {α : Type} (one : Nat → Json → EngineM (Option α)) (configs : List Json) (g : Engine)

/-- The engine by which the element at `i` is compiled. -/
def engineAt (i : Nat) : Engine := (compileEach one 0 (configs.take i) g).value.2

/-- What that makes of it. -/
def madeAt? (i : Nat) : Option α := configs[i]?.bind fun config => (one i config (engineAt one configs g i)).value.1

theorem compileEach_append (i : Nat) (xs ys : List Json) (g : Engine) :
    (compileEach one i (xs ++ ys) g).value =
      ((compileEach one i xs g).value.1 ++
          (compileEach one (i + xs.length) ys (compileEach one i xs g).value.2).value.1,
        (compileEach one (i + xs.length) ys (compileEach one i xs g).value.2).value.2) := by
  induction xs generalizing i g with
  | nil => rfl
  | cons x xs ih =>
    have hcons : ∀ zs, (compileEach one i (x :: zs) g).value =
        ((one i x g).value.1.toList ++ (compileEach one (i + 1) zs (one i x g).value.2).value.1,
          (compileEach one (i + 1) zs (one i x g).value.2).value.2) := fun _ => rfl
    have hlength : i + 1 + xs.length = i + (x :: xs).length := by
      rw [List.length_cons]
      omega
    rw [List.cons_append, hcons, hcons, ih, hlength, List.append_assoc]

theorem compileEach_take_succ (i : Nat) :
    (compileEach one 0 (configs.take (i + 1)) g).value =
      ((compileEach one 0 (configs.take i) g).value.1 ++ (madeAt? one configs g i).toList,
        configs[i]?.elim (engineAt one configs g i) fun config =>
          (one i config (engineAt one configs g i)).value.2) := by
  rw [List.take_add_one, compileEach_append, madeAt?]
  cases hconfig : configs[i]? with
  | none => rfl
  | some config =>
    have hi : i < configs.length := (List.getElem?_eq_some_iff.1 hconfig).1
    have hlength : 0 + (configs.take i).length = i := by
      rw [List.length_take]
      omega
    rw [hlength]
    exact congrArg (Prod.mk · _) (congrArg (_ ++ ·) (List.append_nil _))

theorem compileEach_take (i : Nat) :
    (compileEach one 0 (configs.take i) g).value.1 = (List.range i).filterMap (madeAt? one configs g) := by
  induction i with
  | zero => rfl
  | succ i ih =>
    rw [compileEach_take_succ, ih, filterMap_range_succ]

/-- What each compilation does to the registries is done by all of them in turn. -/
theorem engineAt_registries {add : Registries → α → Registries}
    (hadd : ∀ i config g, (one i config g).value.2.registries =
      (one i config g).value.1.elim g.registries (add g.registries)) (i : Nat) :
    (engineAt one configs g i).registries =
      ((List.range i).filterMap (madeAt? one configs g)).foldl add g.registries := by
  induction i with
  | zero => rfl
  | succ i ih =>
    rw [engineAt, compileEach_take_succ, filterMap_range_succ, List.foldl_append, ← ih, madeAt?]
    cases hconfig : configs[i]? with
    | none => rfl
    | some config =>
      have hnext := hadd i config (engineAt one configs g i)
      simp only [Option.elim_some, Option.bind_some, hnext]
      cases (one i config (engineAt one configs g i)).value.1 <;> rfl

end Each

namespace Definitions

def chainStep (source : String) (i : Nat) (config : Json) : EngineM (Option Chain) :=
  Engine.compileChain config (source ++ " " ++ Compile.item "chains" i) false

def holderStep (source : String) (i : Nat) (config : Json) : EngineM (Option Holder) :=
  Engine.compileHolder config (source ++ " " ++ Compile.item "holders" i)

theorem compileChains_eq (source : String) (i : Nat) (configs : List Json) :
    compileChains source i configs = compileEach (chainStep source) i configs := by
  induction configs generalizing i with
  | nil => rfl
  | cons config r ih =>
    rw [compileChains, compileEach, ih]
    rfl

theorem compileHolders_eq (source : String) (i : Nat) (configs : List Json) :
    compileHolders source i configs = compileEach (holderStep source) i configs := by
  induction configs generalizing i with
  | nil => rfl
  | cons config r ih =>
    rw [compileHolders, compileEach, ih]
    rfl

variable (d : Definitions) (source : String) (g : Engine)

/-- The engine by which the chain at `i` in the file is compiled. -/
def engineAtChain (i : Nat) : Engine := engineAt (chainStep source) d.chains g i

def chainAt? (i : Nat) : Option Chain := madeAt? (chainStep source) d.chains g i

/-- The engine by which the holder at `i` in the file is compiled, after all chains. -/
def engineAtHolder (i : Nat) : Engine :=
  engineAt (holderStep source) d.holders (d.engineAtChain source g d.chains.length) i

def holderAt? (i : Nat) : Option Holder :=
  madeAt? (holderStep source) d.holders (d.engineAtChain source g d.chains.length) i

/-- The chain that an identifier stands for before the chain at `i` in the file: the last that was made of those before
it, or else the one that the engine had. -/
def known (i : Nat) (id : String) : Option Chain :=
  (((List.range i).filterMap (d.chainAt? source g)).reverse.find? (·.id = id)).or (g.registries.chains.get? id)

theorem compile_value : (d.compile source g).value =
    (⟨(List.range d.chains.length).filterMap (d.chainAt? source g),
        .ofList (((List.range d.holders.length).filterMap (d.holderAt? source g)).map fun h => (h.id, h))⟩,
      d.engineAtHolder source g d.holders.length) := by
  have hchains := compileEach_take (chainStep source) d.chains g d.chains.length
  have hholders := compileEach_take (holderStep source) d.holders (d.engineAtChain source g d.chains.length)
    d.holders.length
  have hengine : d.engineAtChain source g d.chains.length = (compileChains source 0 d.chains g).value.2 := by
    rw [compileChains_eq, engineAtChain, engineAt, List.take_length]
  rw [List.take_length, ← compileChains_eq] at hchains
  rw [List.take_length, ← compileHolders_eq, hengine] at hholders
  have hlast : d.engineAtHolder source g d.holders.length =
      (compileHolders source 0 d.holders (compileChains source 0 d.chains g).value.2).value.2 := by
    rw [compileHolders_eq, engineAtHolder, engineAt, List.take_length, hengine]
  have hrun : (d.compile source g).value =
      (⟨(compileChains source 0 d.chains g).value.1,
          .ofList ((compileHolders source 0 d.holders (compileChains source 0 d.chains g).value.2).value.1.map
            fun h => (h.id, h))⟩,
        (compileHolders source 0 d.holders (compileChains source 0 d.chains g).value.2).value.2) := rfl
  rw [hrun, hchains, hholders, ← hlast, ← hengine]
  rfl

theorem foldl_addChain (r : Registries) (cs : List Chain) :
    cs.foldl Registries.addChain r = { r with chains := r.chains.insertAll (cs.map fun c => (c.id, c)) } := by
  induction cs generalizing r with
  | nil => rfl
  | cons c cs ih =>
    rw [List.foldl_cons, ih]
    rfl

/-- Where the chain at `i` is compiled, nothing but chains was registered since the start, and these are known. -/
theorem engineAtChain_registries (i : Nat) :
    (d.engineAtChain source g i).registries =
        { g.registries with chains := (d.engineAtChain source g i).registries.chains } ∧
      (d.engineAtChain source g i).registries.chains.get? = d.known source g i := by
  have hadd : ∀ i config g, (chainStep source i config g).value.2.registries =
      (chainStep source i config g).value.1.elim g.registries g.registries.addChain := by
    intro i config g
    rw [chainStep, Engine.compileChain_value]
    rfl
  have hregistries := engineAt_registries (chainStep source) d.chains g hadd i
  rw [foldl_addChain] at hregistries
  rw [engineAtChain, hregistries]
  exact ⟨rfl, funext fun id => Table.get?_insertAll_keyed Chain.id _ _ id⟩

theorem engineAtHolder_registries (i : Nat) :
    (d.engineAtHolder source g i).registries = (d.engineAtChain source g d.chains.length).registries := by
  let keep : Registries → Holder → Registries := fun r _ => r
  -- What is made of a holder is not registered.
  have hadd : ∀ i config g, (holderStep source i config g).value.2.registries =
      (holderStep source i config g).value.1.elim g.registries (keep g.registries) := by
    intro i config g
    cases (holderStep source i config g).value.1 <;> rfl
  have hkept := engineAt_registries (holderStep source) d.holders (d.engineAtChain source g d.chains.length) hadd i
  rw [engineAtHolder, hkept]
  exact List.foldl_fixed' (fun _ => rfl) _

theorem known_isSome_iff (i : Nat) (id : String) : (d.known source g i id).isSome = true ↔
    (g.registries.chains.get? id).isSome = true ∨ ∃ j < i, ∃ c, d.chainAt? source g j = some c ∧ c.id = id := by
  simp only [known, Option.isSome_or, List.find?_isSome, Bool.or_eq_true, List.mem_reverse, List.mem_filterMap,
    List.mem_range, decide_eq_true_eq]
  constructor
  · rintro (⟨c, ⟨j, hj, hc⟩, hid⟩ | hold)
    · exact .inr ⟨j, hj, c, hc, hid⟩
    · exact .inl hold
  · rintro (hold | ⟨j, hj, c, hc, hid⟩)
    · exact .inr hold
    · exact .inl ⟨c, ⟨j, hj, hc⟩, hid⟩

/-- By an engine that knows these chains and has kinds as they were at the start, a configuration that names a chain is
made into an effect just if the chain is known, and the effect runs it then. -/
theorem effect_of_known {known : String → Option Chain} {r : Registries}
    (hr : r = { g.registries with chains := r.chains }) (hknown : r.chains.get? = known) {config : Json} {id : String}
    (h : config.NamesChain g.registries id) (context path : String) (n : Nat) :
    (Compile.effect r config context path n).value.1.map (·.response.chain?) = (known id).map some := by
  obtain ⟨⟨k, hkind⟩, hexecutor, hchain⟩ := h
  rw [← hknown]
  refine Compile.effect_names ⟨⟨k, ?_⟩, ?_, hchain⟩ context path n
  · rw [hr]
    exact ⟨hkind.named, hkind.admitted⟩
  · rw [hr]
    exact hexecutor

end Definitions

namespace Engine

/-- What is made of an order names chains that are registered when it is filled. -/
theorem product_named (g : Engine) (o : Order) {f : Effect} (hf : (g.product o).Holds Effect.Inline f) :
    f.RunsKnown g.registries.chains.get? := by
  obtain ⟨-, heffects, hconditions, -⟩ := g.product_lawful (Compile.namingLaw _ _) o
  rcases hf with ⟨e, he, hf⟩ | ⟨c, hc, e, he, hf⟩
  · exact heffects e he f hf
  · exact hconditions c hc e he f hf

end Engine

namespace Definitions

variable (d : Definitions) (source : String) (g : Engine)

/-- The chain at `i` is an order of the engine that it meets. -/
theorem chainAt?_eq (i : Nat) : d.chainAt? source g i = d.chains[i]?.bind fun config =>
    ((d.engineAtChain source g i).product
      (.chain config (source ++ " " ++ Compile.item "chains" i) false)).chain? := rfl

theorem holderAt?_eq (i : Nat) : (d.holderAt? source g i) = d.holders[i]?.bind fun config =>
    (Compile.holder (d.engineAtHolder source g i).registries config (source ++ " " ++ Compile.item "holders" i)
      (d.engineAtHolder source g i).nextNumber).value.1 := rfl

theorem product_chain (g : Engine) (config : Json) (context : String) :
    g.product (.chain config context false) =
      .chain (Compile.chain g.registries config context false g.nextNumber).value.1 := by
  simp only [Engine.product, Engine.fill, Engine.compileChain_value, Prod.map]

/-- A file of definitions is resolved in its order, the chains first. -/
structure InOrder : Prop where
  /-- Every chain that was made is listed once. -/
  chains : (d.compile source g).value.1.chains = (List.range d.chains.length).filterMap (d.chainAt? source g)
  chain_iff (i : Nat) : (d.chainAt? source g i).isSome = true ↔ ∃ config, d.chains[i]? = some config ∧
    (config.text? "id").isSome = true ∧
      ∃ entry ∈ config.subsections "effects", entry.DescribesEffect (d.engineAtChain source g i).registries
  chain_id {i : Nat} {c : Chain} : d.chainAt? source g i = some c →
    ∃ config, d.chains[i]? = some config ∧ config.text? "id" = some c.id
  /-- Known to a chain are those that the engine had and those that were made before it. -/
  known_iff (i : Nat) (id : String) : (d.known source g i id).isSome = true ↔
    (g.registries.chains.get? id).isSome = true ∨ ∃ j < i, ∃ c, d.chainAt? source g j = some c ∧ c.id = id
  chain_reference (i : Nat) {config : Json} {id : String} : config.NamesChain g.registries id → ∀ context path n,
    (Compile.effect (d.engineAtChain source g i).registries config context path n).value.1.map (·.response.chain?) =
      (d.known source g i id).map some
  chain_inside {i : Nat} {c : Chain} : d.chainAt? source g i = some c →
    ∀ f, (Product.chain (some c)).Holds Effect.Inline f → f.RunsKnown (d.known source g i)
  /-- Holders know all chains, in whatever order they stand themselves. -/
  holder_reference (i : Nat) {config : Json} {id : String} : config.NamesChain g.registries id → ∀ context path n,
    (Compile.effect (d.engineAtHolder source g i).registries config context path n).value.1.map (·.response.chain?) =
      (d.known source g d.chains.length id).map some
  holder_inside {i : Nat} {h : Holder} : d.holderAt? source g i = some h →
    ∀ f, (Product.holder (some h)).Holds Effect.Inline f → f.RunsKnown (d.known source g d.chains.length)
  registered : (d.compile source g).value.2.registries =
      { g.registries with chains := (d.compile source g).value.2.registries.chains } ∧
    (d.compile source g).value.2.registries.chains.get? = d.known source g d.chains.length
  holder_iff (i : Nat) : (d.holderAt? source g i).isSome = true ↔
    ∃ config, d.holders[i]? = some config ∧ (config.text? "id").isSome = true
  holder_id {i : Nat} {h : Holder} : d.holderAt? source g i = some h →
    ∃ config, d.holders[i]? = some config ∧ config.text? "id" = some h.id
  /-- Of the holders that were made with an identifier the last is kept. -/
  holders (id : String) : (d.compile source g).value.1.holders.get? id =
    ((List.range d.holders.length).filterMap (d.holderAt? source g)).reverse.find? (·.id = id)

theorem inOrder : d.InOrder source g where
  chains := by rw [compile_value]
  chain_iff i := by
    rw [chainAt?_eq]
    cases d.chains[i]? with
    | none => simp
    | some config => simp [product_chain, Product.chain?, Compile.chain_isSome_iff]
  chain_id {i c} hc := by
    obtain ⟨config, hconfig, hmade⟩ := Option.bind_eq_some_iff.1 (d.chainAt?_eq source g i ▸ hc)
    obtain ⟨-, -, -, -, hnamed⟩ := (d.engineAtChain source g i).product_lawful (Compile.namingLaw _ _)
      (.chain config (source ++ " " ++ Compile.item "chains" i) false)
    obtain ⟨config', context', horder, hid⟩ := hnamed c hmade
    cases horder
    exact ⟨config, hconfig, Json.requireText_eq_ok_iff.1 hid⟩
  known_iff := d.known_isSome_iff source g
  chain_reference i _ _ h := by
    obtain ⟨hr, hknown⟩ := d.engineAtChain_registries source g i
    exact effect_of_known g hr hknown h
  chain_inside {i c} hc f hf := by
    obtain ⟨config, hconfig, hmade⟩ := Option.bind_eq_some_iff.1 (d.chainAt?_eq source g i ▸ hc)
    rw [← (d.engineAtChain_registries source g i).2]
    have hproduct : (d.engineAtChain source g i).product
        (.chain config (source ++ " " ++ Compile.item "chains" i) false) = .chain (some c) := by
      rw [product_chain] at hmade ⊢
      exact congrArg Product.chain hmade
    exact (d.engineAtChain source g i).product_named _ (hproduct ▸ hf)
  holder_reference i _ _ h := by
    rw [engineAtHolder_registries]
    obtain ⟨hr, hknown⟩ := d.engineAtChain_registries source g d.chains.length
    exact effect_of_known g hr hknown h
  holder_inside {i h} hh f hf := by
    obtain ⟨config, hconfig, hmade⟩ := Option.bind_eq_some_iff.1 (d.holderAt?_eq source g i ▸ hh)
    rw [← (d.engineAtChain_registries source g d.chains.length).2, ← d.engineAtHolder_registries source g i]
    have hproduct : (d.engineAtHolder source g i).product
        (.holder config (source ++ " " ++ Compile.item "holders" i)) = .holder (some h) := congrArg Product.holder hmade
    exact (d.engineAtHolder source g i).product_named _ (hproduct ▸ hf)
  registered := by
    rw [compile_value, engineAtHolder_registries]
    exact d.engineAtChain_registries source g d.chains.length
  holder_iff i := by
    rw [holderAt?_eq]
    cases d.holders[i]? with
    | none => simp
    | some config => simp [Compile.holder_isSome_iff]
  holder_id {i h} hh := by
    obtain ⟨config, hconfig, hmade⟩ := Option.bind_eq_some_iff.1 (d.holderAt?_eq source g i ▸ hh)
    exact ⟨config, hconfig, Compile.holder_id hmade⟩
  holders id := by
    rw [compile_value]
    exact (Table.get?_insertAll_keyed Holder.id _ _ id).trans (Option.or_none)

end Definitions

namespace CompiledDefinitions

variable (c : CompiledDefinitions)

/-- What a list of identifiers lends: each known holder as often as it is listed, told its own identifier. -/
def lent (ids : List String) : List Provision :=
  ids.filterMap fun id => (c.holders.get? id).map fun h =>
    (Provision.of h).withPlaceholders (.ofPairs [("holder", id)])

theorem provisions_value (subject : String) (ids : List String) : (c.provisions subject ids).value = c.lent ids := by
  induction ids with
  | nil => rfl
  | cons id ids ih =>
    rw [provisions, lent, List.filterMap_cons, ← lent, ← ih]
    cases c.holders.get? id <;> rfl

/-- To what an identifier is given already, the definitions add in their order. -/
theorem instantiate_assigned (a : Assignments) (ds : List SubjectDefinition) (u : Uuid) :
    ((c.instantiate a ds).value.2.get? u).getD [] = (a.get? u).getD [] ++
      (ds.filter fun d => Subject.idOfName d.name = u).flatMap fun d => c.lent d.holders := by
  induction ds generalizing a with
  | nil => exact (List.append_nil _).symm
  | cons d ds ih =>
    let after := if (c.lent d.holders).isEmpty then a
      else a.insert d.instantiate.id ((a.get? d.instantiate.id).getD [] ++ c.lent d.holders)
    have hstep : (c.instantiate a (d :: ds)).value.2 = (c.instantiate after ds).value.2 := by
      simp only [after, ← c.provisions_value d.name]
      rfl
    have hid : d.instantiate.id = Subject.idOfName d.name := rfl
    have hafter : (after.get? u).getD [] =
        (a.get? u).getD [] ++ if Subject.idOfName d.name = u then c.lent d.holders else [] := by
      simp only [after, List.isEmpty_iff]
      by_cases hnone : c.lent d.holders = []
      · simp [hnone]
      · rw [if_neg hnone, Table.get?_insert, hid]
        by_cases hu : Subject.idOfName d.name = u <;> simp [hu]
    rw [hstep, ih, hafter, List.filter_cons, List.append_assoc]
    by_cases hu : Subject.idOfName d.name = u <;> simp [hu]

/-- Definitions of subjects are followed in their order. -/
structure Assigns (ds : List SubjectDefinition) : Prop where
  subjects : (c.instantiate .empty ds).value.1 = ds.map SubjectDefinition.instantiate
  /-- A subject is given what is listed under its identifier, and nothing else. -/
  provided (s : Subject) : (c.instantiate .empty ds).value.2.provider s =
    pure ((ds.filter fun d => Subject.idOfName d.name = s.id).flatMap fun d => c.lent d.holders)
  /-- If no two names have one identifier, that is what is listed under its name. -/
  named : (∀ d ∈ ds, ∀ d' ∈ ds, Subject.idOfName d.name = Subject.idOfName d'.name → d.name = d'.name) →
    ∀ d ∈ ds, (c.instantiate .empty ds).value.2.provider d.instantiate =
      pure ((ds.filter (·.name = d.name)).flatMap fun d => c.lent d.holders)
  other (s : Subject) : (∀ d ∈ ds, Subject.idOfName d.name ≠ s.id) →
    (c.instantiate .empty ds).value.2.provider s = pure []

theorem assigns (ds : List SubjectDefinition) : c.Assigns ds := by
  have hprovided : ∀ s, (c.instantiate .empty ds).value.2.provider s =
      pure ((ds.filter fun d => Subject.idOfName d.name = s.id).flatMap fun d => c.lent d.holders) :=
    fun s => congrArg pure (c.instantiate_assigned .empty ds s.id)
  refine ⟨c.instantiate_subjects .empty ds, hprovided, fun hnames d hd => ?_, fun s hs => ?_⟩
  · have hsame : ds.filter (fun d' => Subject.idOfName d'.name = d.instantiate.id) = ds.filter (·.name = d.name) := by
      refine List.filter_congr fun d' hd' => ?_
      have hiff : Subject.idOfName d'.name = d.instantiate.id ↔ d'.name = d.name :=
        ⟨hnames d' hd' d hd, congrArg Subject.idOfName⟩
      simp only [hiff]
    rw [hprovided, hsame]
  · have hnone : ds.filter (fun d => Subject.idOfName d.name = s.id) = [] := by
      simpa [List.filter_eq_nil_iff] using hs
    rw [hprovided, hnone, List.flatMap_nil]

end CompiledDefinitions

/-- The first chain names the second, and so does the holder; the subject is defined twice. -/
def Definitions.revue : Definitions where
  chains :=
    [.object [("effects", .array [.effectOf "run_chain" "chain" "x"]), ("id", .text "opener")],
      .object [("effects", .array [.effectOf "log" "message" "hi"]), ("id", .text "x")]]
  holders := [.object [("effects", .array [.effectOf "run_chain" "chain" "x"]), ("id", .text "h")]]
  subjects := [⟨"steve", ["h", "ghost", "h"], [], []⟩, ⟨"steve", ["h"], [], []⟩]

theorem Json.ofKind_builtin {config : Json} {k : EffectKind} (hk : k ∈ Builtin.effects)
    (hid : config.text? "id" = some k.id)
    (hungated : ∀ a ∈ Builtin.arguments, (config.subsection "args").has a.name = false) :
    config.OfKind .builtin k := by
  refine (Registries.haveBuiltinKinds_builtin.askForTexts.effect _ _).2 ⟨hk, hid, fun a ha hvalue => ?_⟩
  cases (hungated a ha).symm.trans hvalue

end Ability
