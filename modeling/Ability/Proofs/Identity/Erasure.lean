import Ability.Proofs.ActiveSet
import Ability.Proofs.Cache.Resolution
import Ability.Proofs.Identity.Content

/-! Activation looks at the content of blocks alone. Taking the contexts and numbers out of what holders lend
takes them out of what becomes active, and changes nothing else of it. -/

namespace Ability

@[simp] theorem Condition.content_id (c : Condition) : c.content.id = c.id := by cases c; rfl

@[simp] theorem Effect.content_id (e : Effect) : e.content.id = e.id := by cases e; rfl

@[simp] theorem Effect.content_conditions (e : Effect) :
    e.content.conditions = e.conditions.map Condition.content := by
  cases e
  exact Condition.contents_eq_map _

def Holder.content (h : Holder) : Holder := ⟨h.id, Effect.contents h.effects, Condition.contents h.conditions⟩

/-- What is lent, without the contexts in it. To whom and by whom it is lent belongs to the content. -/
def Provision.content (p : Provision) : Provision := { p with holder := p.holder.content }

theorem Holder.content_effects (h : Holder) : h.content.effects = h.effects.map Effect.content :=
  Effect.contents_eq_map _

theorem Holder.content_conditions (h : Holder) : h.content.conditions = h.conditions.map Condition.content :=
  Condition.contents_eq_map _

theorem Holder.same_content (h k : Holder) : h.content.same k.content = h.same k := by
  have hid : ∀ x : Holder, x.content.id = x.id := fun _ => rfl
  simp only [same, hid, content_effects, content_conditions, List.map_map, Function.comp_def, Effect.content_id,
    Condition.content_id]

theorem Holder.same_self (h : Holder) : h.same h = true := by simp [same]

namespace EffectSet

def content (s : EffectSet) : EffectSet where
  members := s.members.map Effect.content
  sorted := by simpa only [List.pairwise_map, Effect.content_id] using s.sorted

theorem ids_content (s : EffectSet) : s.content.ids = s.ids := by simp [ids, content]

theorem contains_content (s : EffectSet) (i : Uuid) : s.content.contains i = s.contains i := by
  simp [contains, content, Function.comp_def]

theorem insertInto_content (e : Effect) (l : List Effect) :
    insertInto e.content (l.map Effect.content) = (insertInto e l).map Effect.content := by
  induction l with
  | nil => rfl
  | cons x l ih =>
    simp only [insertInto, List.map_cons, Effect.content_id, ih]
    split
    · rfl
    split <;> rfl

theorem insert_content (s : EffectSet) (e : Effect) : s.content.insert e.content = (s.insert e).content := by
  simp only [insert, content, insertInto_content]

theorem ofList_content (l : List Effect) : ofList (l.map Effect.content) = (ofList l).content := by
  have hfold : ∀ s : EffectSet, (l.map Effect.content).foldl insert s.content = (l.foldl insert s).content := by
    induction l with
    | nil => exact fun _ => rfl
    | cons e l ih =>
      intro s
      rw [List.map_cons, List.foldl_cons, List.foldl_cons, insert_content, ih]
  exact hfold empty

theorem content_diff (s t : EffectSet) : s.content.diff t = (s.diff t).content := by
  simp [diff, content, List.filter_map, Function.comp_def]

theorem diff_content (s t : EffectSet) : s.diff t.content = s.diff t := by
  simp only [diff, contains_content]

theorem isEmpty_content (s : EffectSet) : s.content.isEmpty = s.isEmpty := by simp [isEmpty, content]

theorem size_content (s : EffectSet) : s.content.size = s.size := by simp [size, content]

theorem same_content (s t : EffectSet) : s.content.same t.content = s.same t := by
  simp only [same, ids_content]

end EffectSet

section

variable {ev : Evaluator} {s : Subject} (p : Provision)

theorem Condition.isMet_content (c : Condition) :
    (c.content.isMet ev s p.content).value = (c.isMet ev s p).value := by
  have hmet : c.content.Met ev s p.content ↔ c.Met ev s p := by
    cases c
    rfl
  rw [Bool.eq_iff_iff, isMet_value_iff, isMet_value_iff, hmet]

theorem Condition.allMet_content (cs : List Condition) :
    (allMet ev s p.content (cs.map content)).value = (allMet ev s p cs).value := by
  simp only [allMet_value, List.all_map, Function.comp_def, isMet_content]

theorem Effect.conditionsMet_content (e : Effect) :
    (e.content.conditionsMet ev s p.content).value = (e.conditionsMet ev s p).value := by
  rw [conditionsMet, content_conditions, Condition.allMet_content, conditionsMet]

theorem Provision.contribution_content :
    p.content.contribution ev s = (p.contribution ev s).content := by
  have hconditions : (p.content.holder.conditionsMet ev s p.content).value =
      (p.holder.conditionsMet ev s p).value := by
    have hasked : p.content.holder.conditions = p.holder.conditions.map Condition.content :=
      p.holder.content_conditions
    rw [Holder.conditionsMet, hasked, Condition.allMet_content, Holder.conditionsMet]
  have heffects : p.content.holder.effects.filter (fun e => (e.conditionsMet ev s p.content).value) =
      (p.holder.effects.filter fun e => (e.conditionsMet ev s p).value).map Effect.content := by
    have hlent : p.content.holder.effects = p.holder.effects.map Effect.content := p.holder.content_effects
    simp only [hlent, List.filter_map, Function.comp_def, Effect.conditionsMet_content]
  rw [contribution, contribution, Holder.active_value, Holder.active_value, hconditions, heffects]
  split
  · exact EffectSet.ofList_content _
  · rfl

end

namespace ActiveSet

variable {ev : Evaluator} {s : Subject}

def content (a : ActiveSet) : ActiveSet := a.map fun x => (x.1.content, x.2.content)

theorem insert_content (a : ActiveSet) (x : EffectSet) (p : Provision) :
    a.content.insert x.content p.content = (a.insert x p).content := by
  have hany : a.content.any (·.1.same x.content) = a.any (·.1.same x) := by
    simp [content, Function.comp_def, EffectSet.same_content]
  simp only [insert, EffectSet.isEmpty_content, hany]
  split
  · rfl
  split
  · simp only [content, List.map_map]
    refine List.map_congr_left fun y _ => ?_
    simp only [Function.comp_apply, EffectSet.same_content]
    split <;> rfl
  · simp [content]

theorem collect_content (a : ActiveSet) (ps : List Provision) :
    (collect ev s a.content (ps.map Provision.content)).value = ActiveSet.content (collect ev s a ps).value := by
  induction ps generalizing a with
  | nil => rfl
  | cons p ps ih =>
    rw [List.map_cons, collect_cons, Provision.contribution_content, insert_content, ih, collect_cons]

theorem flatten_content (a : ActiveSet) : a.content.flatten = a.flatten.content := by
  rw [flatten, flatten, ← EffectSet.ofList_content, List.map_flatMap, content, List.flatMap_map]
  rfl

end ActiveSet

namespace Engine

variable {g h : Engine} {s : Subject}

/-- An update does not tell blocks of the same content apart. -/
theorem update_of_content_eq (hev : g.evaluator = h.evaluator)
    (hbefore : g.activeEffects s.id = h.activeEffects s.id)
    (hanswers : (resolve s g).value.1.provisions.map Provision.content =
      (resolve s h).value.1.provisions.map Provision.content) :
    (update s g).value.1.1.added.map Effect.content = (update s h).value.1.1.added.map Effect.content ∧
      (update s g).value.1.1.removed = (update s h).value.1.1.removed ∧
      (update s g).value.1.1.reloaded = (update s h).value.1.1.reloaded := by
  have hcollect : ∀ x : Engine, (x.activeNow s).flatten.content = (ActiveSet.collect x.evaluator s []
      ((resolve s x).value.1.provisions.map Provision.content)).value.flatten := by
    intro x
    rw [activeNow_eq, ← ActiveSet.flatten_content]
    exact congrArg ActiveSet.flatten (ActiveSet.collect_content [] _).symm
  have hafter : (g.activeNow s).flatten.content = (h.activeNow s).flatten.content := by
    rw [hcollect, hcollect, hanswers, hev]
  simp only [update_value, transition_value, Transition.report, hbefore]
  refine ⟨?_, ?_, ?_⟩
  · have hadded : ((g.activeNow s).flatten.diff (h.activeEffects s.id)).content =
        ((h.activeNow s).flatten.diff (h.activeEffects s.id)).content := by
      rw [← EffectSet.content_diff, hafter, EffectSet.content_diff]
    exact congrArg EffectSet.members hadded
  · rw [← EffectSet.diff_content, hafter, EffectSet.diff_content]
  · rw [← EffectSet.size_content, hafter, EffectSet.size_content]

end Engine

end Ability
