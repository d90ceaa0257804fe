import Ability.Proofs.Activation.Monotone

/-! What a built-in condition can tell two subjects apart by: the name, the identifier, the attributes and the one
permission it asks for. Subjects that agree on all that is asked for have the same effects active. -/

namespace Ability

variable {ev : Evaluator} {s t : Subject}

/-- The permission that a condition asks for. -/
def Condition.asks? (c : Condition) : Option String :=
  match c.datum with
  | .text p => if c.kind.id = Builtin.hasPermission.id then some p else none
  | _ => none

/-- The conditions of a holder and those of its effects. -/
def Provision.conditions (p : Provision) : List Condition :=
  p.holder.conditions ++ p.holder.effects.flatMap (·.conditions)

/-- `s` and `t` differ in permissions at most, and not in those of `asked`. -/
structure Subject.Agree (asked : String → Prop) (s t : Subject) : Prop where
  id : s.id = t.id
  name : s.name = t.name
  attributes : s.sheet.map (·.attributes) = t.sheet.map (·.attributes)
  permissions : ∀ p, asked p → s.hasPermission p = t.hasPermission p

variable {asked : String → Prop} (h : s.Agree asked t)

include h

namespace Condition

theorem holds_congr {c : Condition} (hc : c.kind ∈ Builtin.conditions) (hasked : ∀ p, c.asks? = some p → asked p)
    (e : Evaluation) (lender : Option Lender) : c.kind.holds s e lender c.datum = c.kind.holds t e lender c.datum := by
  obtain ⟨id, kind, args, datum, inverted, showNotMet, notMetLines, notMetEffects, context⟩ := c
  simp only [Builtin.conditions, List.mem_cons, List.not_mem_nil, or_false] at hc
  rcases hc with rfl | rfl | rfl | rfl | rfl
  -- the first three do not look at the subject
  · rfl
  · rfl
  · rfl
  · cases datum with
    | text p =>
      have hp : s.hasPermission p = t.hasPermission p := h.permissions p (hasked p (by simp [asks?]))
      simp only [Builtin.hasPermission, hp]
    | nothing => rfl
    | json v => rfl
  · cases datum with
    | text key => simp only [Builtin.attributeAtLeast, Subject.attribute?_congr h.attributes key]
    | nothing => rfl
    | json v => rfl

theorem isMet_congr {c : Condition} (hc : c.kind ∈ Builtin.conditions) (hasked : ∀ p, c.asks? = some p → asked p)
    (p : Provision) : (c.isMet ev s p).value = (c.isMet ev t p).value := by
  rw [Bool.eq_iff_iff, isMet_value_iff, isMet_value_iff]
  unfold Met lent alone ConditionKind.check
  simp only [holds_congr h hc hasked, Subject.placeholders_congr h.id h.name h.attributes]

end Condition

theorem Provision.contribution_congr {p : Provision} (hp : ∀ c ∈ p.conditions, c.kind ∈ Builtin.conditions)
    (hasked : ∀ c ∈ p.conditions, ∀ q, c.asks? = some q → asked q) : p.contribution ev s = p.contribution ev t := by
  have hall : ∀ cs : List Condition, (∀ c ∈ cs, c ∈ p.conditions) →
      (Condition.allMet ev s p cs).value = (Condition.allMet ev t p cs).value := by
    intro cs hcs
    rw [Condition.allMet_value, Condition.allMet_value, Bool.eq_iff_iff, List.all_eq_true, List.all_eq_true]
    refine forall₂_congr fun c hc => ?_
    rw [Condition.isMet_congr h (hp c (hcs c hc)) (hasked c (hcs c hc)) p]
  have hholder := hall p.holder.conditions fun c hc => List.mem_append_left _ hc
  have heffects : ∀ e ∈ p.holder.effects, (e.conditionsMet ev s p).value = (e.conditionsMet ev t p).value :=
    fun e he => hall e.conditions fun c hc => List.mem_append_right _ (List.mem_flatMap_of_mem he hc)
  rw [contribution, contribution, Holder.active_value, Holder.active_value, Holder.conditionsMet, hholder,
    List.filter_congr heffects, Holder.conditionsMet]

theorem ActiveSet.collect_congr {ps : List Provision}
    (hps : ∀ p ∈ ps, ∀ c ∈ p.conditions, c.kind ∈ Builtin.conditions)
    (hasked : ∀ p ∈ ps, ∀ c ∈ p.conditions, ∀ q, c.asks? = some q → asked q) (a : ActiveSet) :
    (collect ev s a ps).value = (collect ev t a ps).value := by
  induction ps generalizing a with
  | nil => rfl
  | cons p ps ih =>
    obtain ⟨hp, hps⟩ := List.forall_mem_cons.mp hps
    obtain ⟨hpasked, hasked⟩ := List.forall_mem_cons.mp hasked
    rw [collect_cons, collect_cons, Provision.contribution_congr h hp hpasked, ih hps hasked]

end Ability
