import Ability.Proofs.ActiveSet
import Ability.Proofs.Engine

/-! Where active effects come from. Every active effect is one that some holder lends directly, and whose
conditions are met together with those of the holder; and for everything that is active a holder is recorded
that makes it active. -/

namespace Ability

variable {ev : Evaluator} {s : Subject}

namespace ActiveSet

variable {a : ActiveSet} {i : Uuid}

theorem mem_holdersOf {p : Provision} :
    p ∈ a.holdersOf i ↔ ∃ x ∈ a, x.1.contains i = true ∧ x.2 = p := by
  simp [holdersOf, and_assoc]

theorem contains_flatten : a.flatten.contains i = true ↔ ∃ x ∈ a, x.1.contains i = true := by
  simp only [EffectSet.contains_iff]
  exact id_mem_flatten_iff

/-- Someone is recorded for everything that is active, and whoever is makes it active. -/
theorem Records.holdersOf {ps : List Provision} (hr : Records ev s ps a)
    (hi : a.flatten.contains i = true) :
    a.holdersOf i ≠ [] ∧ ∀ p ∈ a.holdersOf i, p ∈ ps ∧ (p.contribution ev s).contains i = true := by
  constructor
  · obtain ⟨x, hx, hxi⟩ := contains_flatten.mp hi
    exact List.ne_nil_of_mem (mem_holdersOf.mpr ⟨x, hx, hxi, rfl⟩)
  · intro p hp
    obtain ⟨x, hx, hxi, rfl⟩ := mem_holdersOf.mp hp
    obtain ⟨hids, before, after, hsplit, -⟩ := hr.last x hx
    refine ⟨?_, ?_⟩
    · rw [hsplit]
      exact List.mem_append_right _ (List.mem_cons_self ..)
    · rw [← EffectSet.mem_ids, hids]
      exact EffectSet.mem_ids.mpr hxi

end ActiveSet

/-- What is active for a subject is what the holders that are provided make active: an identifier if some
holder has an effect of that identifier, and all conditions of both are met; and no effect but one that a holder
has itself. The entries record, for each set that is contributed, the last holder that contributes it, so that
a holder is found for each active effect. -/
theorem active_effects_have_holders (g : Engine) (s : Subject) :
    let ps := (Engine.resolve s g).value.1.provisions
    let a := (Engine.computeActive s g).value.1
    (∀ (c : Condition) (p : Provision),
      (c.isMet g.evaluator s p).value = true ↔ c.Met g.evaluator s p) ∧
    (∀ i, a.flatten.contains i = true ↔
      ∃ p ∈ ps, (∀ c ∈ p.holder.conditions, c.Met g.evaluator s p) ∧
        ∃ e ∈ p.holder.effects, (∀ c ∈ e.conditions, c.Met g.evaluator s p) ∧ e.id = i) ∧
    (∀ e ∈ a.flatten.members, ∃ p ∈ ps, (∀ c ∈ p.holder.conditions, c.Met g.evaluator s p) ∧
      e ∈ p.holder.effects ∧ ∀ c ∈ e.conditions, c.Met g.evaluator s p) ∧
    a.Records g.evaluator s ps ∧
    ∀ e ∈ a.flatten.members, a.holdersOf e.id ≠ [] ∧
      ∀ p ∈ a.holdersOf e.id, p ∈ ps ∧ (p.contribution g.evaluator s).contains e.id = true := by
  intro ps a
  have ha : a = (ActiveSet.collect g.evaluator s [] ps).value := g.activeNow_eq s
  have hr : a.Records g.evaluator s ps := ha ▸ ActiveSet.collect_records ps
  refine ⟨fun _ _ => Condition.isMet_value_iff, ?_, ?_, hr, ?_⟩
  · intro i
    rw [EffectSet.contains_iff, ha, ActiveSet.id_mem_flatten]
    simp only [Holder.conditionsMet, Effect.conditionsMet, Condition.allMet_iff]
  · intro e he
    rw [ha] at he
    exact ActiveSet.mem_flatten he
  · intro e he
    exact hr.holdersOf (EffectSet.contains_iff.mpr ⟨e, he, rfl⟩)

end Ability
