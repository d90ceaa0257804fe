import Ability.Occurrence
import Ability.Proofs.Table

/-! What a name stands for where sets of placeholders are laid over one another. The later set is followed
where it has the name; so the snapshot of an occurrence follows what its trigger was given before the value and
the text of the trigger, and those before the subject. -/

namespace Ability

theorem Placeholders.get?_merged (base other : Placeholders) (name : String) :
    (base.merged other).get? name = (other.get? name).or (base.get? name) :=
  Table.get?_merge base other name

/-- The names that stand for the value and the text of a trigger. -/
def TriggerData.own? (d : TriggerData) (name : String) : Option String :=
  if name = "value" ∨ name = "trigger_value" then d.value.map Binary64.Layout.plain.text
  else if name = "text" then d.text
  else .none

theorem TriggerData.get?_ownPairs (d : TriggerData) (name : String) :
    (Placeholders.ofPairs d.ownPairs).get? name = d.own? name := by
  obtain ⟨_ | x, _ | t, extra⟩ := d
  -- the names are different, so that the order in which they are put in does not matter
  all_goals
    simp only [ownPairs, own?, Placeholders.ofPairs, Table.ofList, Table.insertAll, List.nil_append,
      List.append_nil, List.cons_append, List.foldl_cons, List.foldl_nil, Option.map_none, Option.map_some]
    repeat rw [Table.get?_insert]
    rw [Table.get?_empty]
    grind

/-- Names are looked up among the extra placeholders first, then for the value and the text, and then among
those of the subject as it was when the trigger occurred. -/
theorem Occurrence.get?_placeholders (s : Subject) (trigger : String) (d : TriggerData) (name : String) :
    (Occurrence.of s trigger d).placeholders.get? name =
      (d.extra.get? name).or ((d.own? name).or (s.placeholders.get? name)) := by
  have hdata : d.placeholders.get? name = (d.extra.get? name).or (d.own? name) := by
    rw [TriggerData.placeholders, Placeholders.get?_merged, TriggerData.get?_ownPairs]
  have hall : (Occurrence.of s trigger d).placeholders.get? name =
      (d.placeholders.get? name).or (s.placeholders.get? name) := Placeholders.get?_merged ..
  rw [hall, hdata, Option.or_assoc]

end Ability
