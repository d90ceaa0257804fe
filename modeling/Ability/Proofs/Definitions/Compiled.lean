import Ability.Definitions
import Ability.Proofs.Compile.Checked
import Ability.Proofs.Permission.Supply

/-! What comes of definitions. To compile them is to fill orders, the chains first; it leaves alone whatever an
engine keeps of subjects. All that the subjects are given was made of built-in kinds. -/

namespace Ability

/-- An effect of which every part was checked is built in. -/
theorem Effect.Sound.builtin : ∀ {e : Effect}, e.Sound → e.Builtin
  | ⟨_, _, .leaf kind datum, _, _, _, _⟩, he => ((he _ (.self _)).response kind datum rfl).1
  | ⟨_, _, .chain _ ⟨_, _, components⟩ _, _, _, _, _⟩, he =>
    Effect.allBuiltin_iff.mpr fun _ hg => Effect.Sound.builtin fun f hf => he f (.component trivial rfl hg hf)
termination_by e => sizeOf e
decreasing_by
  have := List.sizeOf_lt_of_mem hg
  simp only [Effect.mk.sizeOf_spec, Response.chain.sizeOf_spec, Chain.mk.sizeOf_spec]
  omega

namespace Engine

/-- Filling orders touches the registries and the numbers only. -/
theorem afterOrders_frame (g : Engine) (os : List Order) : ∃ registries nextNumber,
    g.afterOrders os = { g with registries, nextNumber } := by
  refine afterOrders_induction (P := fun x => ∃ registries nextNumber, x = { g with registries, nextNumber })
    ⟨_, _, rfl⟩ (fun x o hx => ?_) os
  obtain ⟨registries, nextNumber, rfl⟩ := hx
  cases o with
  | chain config context anonymous => exact ⟨_, _, congrArg (·.2) (compileChain_value ..)⟩
  | _ => exact ⟨_, _, rfl⟩

theorem standard_new (ev : Evaluator) (lifetime : Nat) : (Engine.new .builtin ev lifetime).Standard :=
  ⟨Registries.haveBuiltinKinds_builtin, nofun⟩

end Engine

namespace Definitions

def chainOrders (source : String) : Nat → List Json → List Order
  | _, [] => []
  | i, config :: r =>
    .chain config (source ++ " " ++ Compile.item "chains" i) false :: chainOrders source (i + 1) r

def holderOrders (source : String) : Nat → List Json → List Order
  | _, [] => []
  | i, config :: r => .holder config (source ++ " " ++ Compile.item "holders" i) :: holderOrders source (i + 1) r

def orders (d : Definitions) (source : String) : List Order :=
  chainOrders source 0 d.chains ++ holderOrders source 0 d.holders

theorem compileChains_engine (source : String) (i : Nat) (configs : List Json) (g : Engine) :
    (compileChains source i configs g).value.2 = g.afterOrders (chainOrders source i configs) := by
  induction configs generalizing i g with
  | nil => rfl
  | cons config r ih => exact ih (i + 1) _

theorem compileHolders_engine (source : String) (i : Nat) (configs : List Json) (g : Engine) :
    (compileHolders source i configs g).value.2 = g.afterOrders (holderOrders source i configs) := by
  induction configs generalizing i g with
  | nil => rfl
  | cons config r ih => exact ih (i + 1) _

theorem compile_engine (d : Definitions) (source : String) (g : Engine) :
    (d.compile source g).value.2 = g.afterOrders (d.orders source) := by
  rw [orders, Engine.afterOrders_append, ← compileChains_engine, ← compileHolders_engine]
  rfl

/-- The holders that an engine of built-in kinds makes are made of such kinds. -/
theorem compileHolders_compiled (source : String) (i : Nat) (configs : List Json) {g : Engine} (hg : g.Standard) :
    ∀ h ∈ (compileHolders source i configs g).value.1, ∀ e ∈ h.effects, e.Compiled := by
  induction configs generalizing i g with
  | nil => exact fun h hh => absurd hh List.not_mem_nil
  | cons config r ih =>
    intro h hh e he
    let o : Order := .holder config (source ++ " " ++ Compile.item "holders" i)
    rcases List.mem_append.mp hh with hh | hh
    · have hmem : e ∈ (g.product o).allEffects := List.mem_flatMap.mpr ⟨h, hh, he⟩
      exact hg.part (.inl ⟨e, hmem, .self e⟩)
    · exact ih (i + 1) (hg.filled o) h hh e he

end Definitions

theorem Definitions.compile_holders {d : Definitions} {source : String} {g : Engine} (hg : g.Standard) {id : String}
    {h : Holder} (hh : (d.compile source g).value.1.holders.get? id = some h) : ∀ e ∈ h.effects, e.Compiled := by
  have hchains : ((compileChains source 0 d.chains g).value.2).Standard := by
    rw [compileChains_engine]
    exact hg.afterOrders _
  rcases Table.mem_of_get?_insertAll hh with hmem | hnone
  · obtain ⟨k, hk, hkh⟩ := List.mem_map.mp hmem
    obtain ⟨-, rfl⟩ := Prod.mk.inj hkh
    exact compileHolders_compiled source 0 d.holders hchains k hk
  · cases hnone

namespace CompiledDefinitions

variable {c : CompiledDefinitions} {known : Effect → Prop}

theorem instantiate_subjects (c : CompiledDefinitions) (a : Assignments) (ds : List SubjectDefinition) :
    (c.instantiate a ds).value.1 = ds.map SubjectDefinition.instantiate := by
  induction ds generalizing a with
  | nil => rfl
  | cons d ds ih => exact congrArg (d.instantiate :: ·) (ih _)

theorem provisions_lend (hc : ∀ id h, c.holders.get? id = some h → ∀ e ∈ h.effects, known e) (subject : String)
    (ids : List String) : Lends known (c.provisions subject ids).value := by
  induction ids with
  | nil => exact fun p hp => absurd hp List.not_mem_nil
  | cons id ids ih =>
    rw [provisions]
    cases hget : c.holders.get? id with
    | none => exact ih
    | some h =>
      intro p hp
      rcases List.mem_cons.mp hp with rfl | hp
      · exact hc id h hget
      · exact ih p hp

/-- Whoever is given something is given compiled holders. -/
theorem instantiate_lends (hc : ∀ id h, c.holders.get? id = some h → ∀ e ∈ h.effects, known e) {a : Assignments}
    (ha : ∀ u ps, a.get? u = some ps → Lends known ps) (ds : List SubjectDefinition) :
    ∀ u ps, (c.instantiate a ds).value.2.get? u = some ps → Lends known ps := by
  induction ds generalizing a with
  | nil => exact ha
  | cons d ds ih =>
    refine ih (a := _) ?_
    intro u ps hps
    split at hps
    · exact ha u ps hps
    · rw [Table.get?_insert] at hps
      split at hps
      · obtain rfl := Option.some.inj hps
        intro p hp
        rcases List.mem_append.mp hp with hp | hp
        · cases hget : a.get? d.instantiate.id with
          | none => simp [hget] at hp
          | some qs => exact ha _ qs hget p (by simpa [hget] using hp)
        · exact provisions_lend hc _ _ p hp
      · exact ha u ps hps

end CompiledDefinitions

theorem Assignments.provider_brings {a : Assignments} {known : Effect → Prop}
    (ha : ∀ u ps, a.get? u = some ps → Lends known ps) (u : Uuid) : Brings known u a.provider := by
  rintro s rfl
  show Lends known ((a.get? s.id).getD [])
  cases hget : a.get? s.id with
  | none => exact fun p hp => absurd hp List.not_mem_nil
  | some ps => exact ha _ ps hget

end Ability
