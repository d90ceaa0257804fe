import Ability.Proofs.Expression.Numbers
import Ability.Proofs.Placeholders
import Ability.Subject

/-! Attributes of a subject in expressions. An attribute that has a text can be referred to by its key; a number
among them has its value there, unless its text has an exponent. -/

namespace Ability

theorem Table.find?_filterMap_text {κ α β : Type} [Key κ] {l : List (κ × α)}
    (hl : l.Pairwise (fun x y => x.1 < y.1)) (g : α → Option β) (k : κ) :
    ((l.filterMap fun e => (g e.2).map (e.1, ·)).find? fun e => e.1 = k).map (·.2) =
      ((l.find? fun e => e.1 = k).map (·.2)).bind g := by
  induction hl with
  | nil => rfl
  | @cons e r he _ ih =>
    rw [List.filterMap_cons, List.find?_cons]
    by_cases hk : e.1 = k
    · -- no later entry has the key, so that there is no text for it if this entry has none
      have hlater : r.find? (fun x => decide (x.1 = k)) = none := by
        refine List.find?_eq_none.2 fun x hx hxk => ?_
        have hlt := he x hx
        rw [hk, of_decide_eq_true hxk] at hlt
        exact Key.irrefl _ hlt
      rw [hlater] at ih
      cases hg : g e.2 with
      | some b => simp [hk, hg]
      | none => simpa [-List.find?_filterMap, hk, hg] using ih
    · cases hg : g e.2 with
      | some b => simpa [-List.find?_filterMap, hk] using ih
      | none => simpa [-List.find?_filterMap, hk] using ih

namespace Subject

/-- Keys of attributes that have a text are looked up before the name and the identifier of the subject. -/
theorem get?_placeholders (s : Subject) (key : String) :
    s.placeholders.get? key = ((s.attribute? key).bind Json.scalarText?).or
      ((Placeholders.ofPairs [("subject_name", s.name), ("subject_id", s.id.toText)]).get? key) := by
  obtain ⟨id, name, _ | sheet⟩ := s
  · rfl
  · have hsorted : (attributePairs sheet).Pairwise (fun x y => x.1 < y.1) := by
      refine sheet.attributes.sorted.filterMap _ ?_
      intro x y hxy b hb b' hb'
      obtain ⟨t, -, rfl⟩ := Option.map_eq_some_iff.1 hb
      obtain ⟨t', -, rfl⟩ := Option.map_eq_some_iff.1 hb'
      exact hxy
    have hpairs := Table.find?_filterMap_text sheet.attributes.sorted Json.scalarText? key
    have hlookup := Table.get?_insertAll_sorted hsorted
      (Placeholders.ofPairs [("subject_name", name), ("subject_id", id.toText)]) key
    exact hlookup.trans (congrArg (Option.or · _) hpairs)

end Subject

/-- The expression that refers to a number among the attributes has its value if it is written without an exponent,
and is at fault if it is not. -/
theorem evaluate_attribute {s : Subject} {key : String} {n : Number} (hne : key ≠ "")
    (hkey : ∀ c ∈ key.toList, Template.isNameChar c = true)
    (hattribute : s.attribute? key = some (.number n)) (hn : n.Storable) :
    (n.Plain → Expression.evaluate (Expression.referenceTo key) s.placeholders = .ok n.toFloat) ∧
      (¬ n.Plain → Expression.evaluate (Expression.referenceTo key) s.placeholders =
        .error (.expression (Expression.referenceTo key) (.unknownWord "e"))) := by
  have hp : s.placeholders.get? key = some n.toText := by
    rw [s.get?_placeholders, hattribute]
    rfl
  exact ⟨Expression.evaluate_referenceTo_of_plain hne hkey hp hn,
    Expression.evaluate_referenceTo_of_not_plain hne hkey hp hn⟩

/-- A subject with two numbers, of which one is so great that it is written with an exponent. -/
def furnace : Subject :=
  ⟨Subject.idOfName "furnace", "furnace", some { Sheet.empty with
    attributes := .ofList [("heat", .number (.decimal 1e16)), ("slope", .number (.decimal (-2.5)))] }⟩

theorem evaluate_attribute_furnace :
    Expression.evaluate "%slope%" furnace.placeholders = .ok (-2.5) ∧
      Expression.evaluate "%heat%" furnace.placeholders = .error (.expression "%heat%" (.unknownWord "e")) := by
  have hslope : (Number.decimal (-2.5)).Plain := by
    intro s m q h
    have hparts : Binary64.parts (-2.5) = .finite true 5629499534213120 (-51) := rfl
    rw [hparts] at h
    cases h
    have hshortest : Binary64.shortest .even 5629499534213120 (-51) = ⟨25, -1⟩ := by decide
    rw [hshortest]
    norm_num [Binary64.Decimal.value]
  have hheat : ¬ (Number.decimal 1e16).Plain := by
    intro h
    have hbound := h false 5000000000000000 1 rfl
    have hshortest : Binary64.shortest .even 5000000000000000 1 = ⟨1, 16⟩ := by decide
    rw [hshortest] at hbound
    norm_num [Binary64.Decimal.value] at hbound
  have hslope' : furnace.attribute? "slope" = some (.number (.decimal (-2.5))) := rfl
  have hheat' : furnace.attribute? "heat" = some (.number (.decimal 1e16)) := rfl
  exact ⟨(evaluate_attribute (by decide) (List.all_eq_true.1 rfl) hslope' rfl).1 hslope,
    (evaluate_attribute (by decide) (List.all_eq_true.1 rfl) hheat' rfl).2 hheat⟩

end Ability
