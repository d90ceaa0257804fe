import Ability.Proofs.Identity.Place

/-! What a compilation makes of a holder or of a chain stands at different places below its identifier, so no
two blocks of it have one name. Identifiers that look like a path themselves do not bring direct effects of
different holders together, nor one of a holder and one of a chain. -/

namespace Ability

namespace Compile

/-- The chain has the identifier, and what was made of the components. -/
def MadeWith (id : String) (components : Compile (List Effect)) (x : Chain) : Prop :=
  x.id = id ∧ ∃ n, x.components = (components n).value.1

theorem chainOf_madeWith {c id : String} {components : Compile (List Effect)} {n : Nat} {x : Chain}
    (h : (chainOf c id components n).value.1 = some x) : MadeWith id components x := by
  let after : List Effect → Compile (Option Chain) := fun es =>
    if es.isEmpty then do
      tell (emptyChain c id)
      return none
    else return some ⟨← fresh, id, es⟩
  have hrun : (chainOf c id components n).value.1 =
      (after (components n).value.1 (components n).value.2).value.1 := rfl
  rw [hrun] at h
  simp only [after] at h
  split at h
  · cases h
  · obtain rfl := Option.some.inj h
    exact ⟨rfl, n, rfl⟩

theorem chainFor_gives (r : Registries) {args : Json} (hinline : args.text? "chain" = none) (c : String)
    (components : Compile (List Effect)) :
    Gives (MadeWith Chain.anonymousId components) (chainFor r args c components) := by
  simp only [chainFor, hinline]
  split
  · refine .bind_run fun n => ?_
    cases hx : (chainOf (inlineContext c) Chain.anonymousId components n).value.1 with
    | some x => exact .pure (chainOf_madeWith hx)
    | none =>
      intro m x h
      cases h
  · intro m x h
    cases h

theorem response_gives (r : Registries) (kind : EffectKind) {args : Json}
    (hinline : args.text? "chain" = none) (c : String) (components : Compile (List Effect)) :
    Gives (fun y => ∀ kind x executor, y = Response.chain kind x executor →
      MadeWith Chain.anonymousId components x) (response r kind args c components) := by
  cases kind with
  | leaf k =>
    refine .bind _ fun datum => .pure ?_
    intro kind x executor h
    cases h
  | chainRunner k =>
    refine .bind _ fun executor => .andThen (chainFor_gives r hinline c components) fun x hx => ?_
    refine .bind _ fun number => .pure ?_
    intro kind y executor h
    cases h
    exact hx

/-- A chain that is written inside an effect has its components below the anonymous identifier. -/
theorem effect_inlineChain {r : Registries} {config : Json} {c path kind : String} {n : Nat} {e : Effect}
    {x : Chain} {executor : Executor} (h : (effect r config c path n).value.1 = some e)
    (hresponse : e.response = .chain kind x executor)
    (hinline : (config.subsection "args").text? "chain" = none) :
    MadeWith Chain.anonymousId (effects r ((config.subsection "args").subsections "effects") 0
      (chainScope (inlineContext c) Chain.anonymousId) (chainPath Chain.anonymousId)) x := by
  rw [effect] at h
  refine Gives.report (P := fun e => ∀ kind x executor, e.response = Response.chain kind x executor →
    MadeWith _ _ x) ?_ h kind x executor hresponse
  refine .bind _ fun id => .bind _ fun k => .andThen (response_gives r k hinline c _) fun y hy => ?_
  exact .bind _ fun arguments => .bind _ fun conditions => .pure hy

theorem holder_parts {r : Registries} {config : Json} {c : String} {n : Nat} {h : Holder}
    (hh : (holder r config c n).value.1 = some h) :
    ∃ scope m m', h.effects = (effects r (config.subsections "effects") 0 scope (holderPath h.id) m).value.1 ∧
      h.conditions = (conditions r (config.subsections "conditions") 0 scope (holderPath h.id) m').value.1 := by
  cases hid : config.requireText "id" with
  | error e =>
    simp only [holder, hid] at hh
    cases hh
  | ok id =>
    simp only [holder, hid] at hh
    obtain rfl := Option.some.inj hh
    exact ⟨_, n, _, rfl, rfl⟩

theorem chain_madeWith {r : Registries} {config : Json} {c : String} {anonymous : Bool} {n : Nat} {x : Chain}
    (hx : (chain r config c anonymous n).value.1 = some x) :
    ∃ scope, MadeWith x.id (effects r (config.subsections "effects") 0 scope (chainPath x.id)) x := by
  have hmake : ∀ {id m}, (chain.make r config c id m).value.1 = some x →
      ∃ scope, MadeWith x.id (effects r (config.subsections "effects") 0 scope (chainPath x.id)) x := by
    intro id m h
    have hmade := chainOf_madeWith h
    obtain rfl := hmade.1
    exact ⟨_, hmade⟩
  cases anonymous with
  | true => exact hmake hx
  | false =>
    cases hid : config.requireText "id" with
    | error e =>
      simp only [chain, hid] at hx
      cases hx
    | ok id =>
      simp only [chain, hid] at hx
      exact hmake hx

/-- The blocks stand at places of their own under the path, and the direct effects one step below it. -/
structure Placed (r : Registries) (base : String) (config : Json) (direct : List Effect)
    (blocks : List Block) : Prop where
  apart : Block.Apart r base config blocks
  direct : ∀ e ∈ direct, ∃ i, (Block.effect e).StandsAt r base config [.effects i]

theorem MadeWith.placed {r : Registries} {config : Json} {c : String} {x : Chain}
    (h : MadeWith x.id (effects r (config.subsections "effects") 0 c (chainPath x.id)) x) :
    Placed r (chainPath x.id) config x.components x.blocks := by
  obtain ⟨-, n, hcomponents⟩ := h
  rw [Chain.blocks, Effect.allBlocks_eq_flatMap, hcomponents]
  exact ⟨(effects_apartBelow r config c _ n).apart, effects_direct r config c _ n⟩

theorem holder_placed {r : Registries} {config : Json} {c : String} {n : Nat} {h : Holder}
    (hh : (holder r config c n).value.1 = some h) :
    Placed r (holderPath h.id) config h.effects h.blocks := by
  obtain ⟨scope, m, m', heffects, hconditions⟩ := holder_parts hh
  rw [Holder.blocks, Effect.allBlocks_eq_flatMap, Condition.allBlocks_eq_flatMap, heffects, hconditions]
  refine ⟨?_, effects_direct r config scope _ m⟩
  refine ApartBelow.append ?_ (effects_apartBelow r config scope _ m)
    (conditions_apartBelow r config scope _ m')
  intro i j h
  cases h

end Compile

open Compile

theorem Block.kind_zero (b : Block) : '\x00' ∉ b.kind.toList := by
  cases b with
  | effect e => exact (by decide : '\x00' ∉ "effect".toList)
  | condition x => exact (by decide : '\x00' ∉ "condition".toList)

theorem Block.StandsAt.id_eq {r : Registries} {base : String} {config : Json} {p : Place} {b : Block}
    (h : b.StandsAt r base config p) :
    ∃ entry, p.written? config = some entry ∧ b.id = blockId b.kind (p.path base) entry := by
  obtain ⟨entry, hentry, hmade⟩ := h
  refine ⟨entry, hentry, ?_⟩
  cases b with
  | effect e =>
    obtain ⟨c, n, he⟩ := hmade
    exact effect_id he
  | condition x =>
    obtain ⟨c, n, hx⟩ := hmade
    exact condition_id hx

def grant (permission : String) : Json :=
  .object [("args", .object [("permission", .text permission)]), ("id", .text "give_permission")]

def guarded : Json :=
  .object [("args", .object [("not_met_effects", .array [grant "q"]), ("permission", .text "p")]),
    ("id", .text "has_permission")]

def twin : Json :=
  .object [("args", .object [("permission", .text "p")]), ("conditions", .array [guarded]),
    ("id", .text "give_permission")]

/-- Two effects that are written alike, under an identifier that looks like the path of an effect. -/
def twins : Json := .object [("effects", .array [twin, twin]), ("id", .text "a/effects[0]")]

theorem twins_compile :
    (∃ h, (holder .builtin twins "test" 0).value.1 = some h ∧ h.id = "a/effects[0]" ∧
      h.blocks.map Block.kind = ["effect", "condition", "effect", "effect", "condition", "effect"]) ∧
    ∃ c, (chain .builtin twins "test" false 0).value.1 = some c ∧ c.id = "a/effects[0]" ∧
      c.blocks.map Block.kind = ["effect", "condition", "effect", "effect", "condition", "effect"] := by
  have hid : twins.requireText "id" = .ok "a/effects[0]" := rfl
  have hconditions : twins.subsections "conditions" = [] := rfl
  have heffects : twins.subsections "effects" = [twin, twin] := rfl
  have hguard : twin.subsections "conditions" = [guarded] := rfl
  have hfallbacks : (guarded.subsection "args").subsections "not_met_effects" = [grant "q"] := rfl
  have hnone : (grant "q").subsections "conditions" = [] := rfl
  have hinside : (twin.subsection "args").subsections "effects" = [] := rfl
  have hinside' : ((grant "q").subsection "args").subsections "effects" = [] := rfl
  simp only [holder, chain, chain.make, chainOf, hid, hconditions, heffects, hguard, hfallbacks, hnone,
    hinside, hinside', effects, effect, conditions, condition]
  constructor
  · exact ⟨_, rfl, rfl, rfl⟩
  · exact ⟨_, rfl, rfl, rfl⟩

theorem inlineRun_response : ∃ e kind c executor,
    (effect .builtin inlineRun "test" "holder:b/effects[0]" 0).value.1 = some e ∧
      e.response = .chain kind c executor ∧ c.components.length = 1 := by
  have hinside : (inlineRun.subsection "args").subsections "effects" =
      [.object [("args", .object [("message", .text "hi")]), ("id", .text "log")]] := rfl
  have hconditions : inlineRun.subsections "conditions" = [] := rfl
  simp only [effect, hinside, hconditions]
  rw [effects, effects, effect, conditions]
  exact ⟨_, _, _, _, rfl, rfl, rfl⟩

end Ability
