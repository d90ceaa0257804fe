import Ability.Holder
import Ability.Proofs.Placeholders
import Ability.Proofs.Text.Order

/-! Sets of placeholders laid over one another. What a name stands for is decided by the uppermost set that has it, and
only the order of the sets matters, not where merging begins; so the sets that occurrences and conditions look names up
in can be told by their layers. -/

namespace Ability

namespace Placeholders

/-- Sets laid over one another, the lowest first. -/
def overlaid : List Placeholders → Placeholders
  | [] => .empty
  | a :: above => a.merged (overlaid above)

/-- How the merging of some sets is put together. -/
inductive Grouping
  | one (a : Placeholders)
  | atop (lower upper : Grouping)

namespace Grouping

def layers : Grouping → List Placeholders
  | one a => [a]
  | atop lower upper => lower.layers ++ upper.layers

def result : Grouping → Placeholders
  | one a => a
  | atop lower upper => lower.result.merged upper.result

end Grouping

theorem merged_assoc (a b c : Placeholders) : (a.merged b).merged c = a.merged (b.merged c) := Table.merge_assoc a b c

theorem overlaid_append (layers above : List Placeholders) :
    overlaid (layers ++ above) = (overlaid layers).merged (overlaid above) := by
  induction layers with
  | nil => exact (Table.empty_merge _).symm
  | cons a layers ih => rw [List.cons_append, overlaid, ih, overlaid, merged_assoc]

theorem Grouping.result_eq (m : Grouping) : m.result = overlaid m.layers := by
  induction m with
  | one a => rfl
  | atop lower upper hlower hupper => rw [result, layers, overlaid_append, hlower, hupper]

/-- A name is looked up from the uppermost set downwards. -/
theorem get?_overlaid (layers : List Placeholders) (name : String) :
    (overlaid layers).get? name = layers.reverse.findSome? (·.get? name) := by
  induction layers with
  | nil => rfl
  | cons a layers ih =>
    rw [overlaid, get?_merged, ih, List.reverse_cons, List.findSome?_append, List.findSome?_singleton]

/-- Laying sets over one another, the later of which is followed. -/
structure RightBiased (a b c : Placeholders) : Prop where
  get (name : String) : (a.merged b).get? name = (b.get? name).or (a.get? name)
  assoc : (a.merged b).merged c = a.merged (b.merged c)
  empty_left : merged .empty a = a
  empty_right : a.merged .empty = a
  self : a.merged a = a
  eq_iff : a = b ↔ ∀ name, a.get? name = b.get? name

theorem rightBiased (a b c : Placeholders) : RightBiased a b c where
  get := get?_merged a b
  assoc := merged_assoc a b c
  empty_left := Table.empty_merge a
  empty_right := Table.merge_empty a
  self := Table.merge_self a
  eq_iff := ⟨fun h _ => by rw [h], Table.ext_get?⟩

/-- How a set comes of putting in texts for names one after the other. -/
structure Inserted (a : Placeholders) : Prop where
  built : ∃ pairs, a = ofPairs pairs
  /-- The text that was put in last for a name is kept. -/
  get_iff (pairs : List (String × String)) (name text : String) :
    (ofPairs pairs).get? name = some text ↔ Stands (· = (name, text)) (·.1 = name) pairs
  one (name text : String) : a.insert name text = a.merged (ofPairs [(name, text)])

theorem inserted (a : Placeholders) : a.Inserted where
  built := ⟨a.entries, (Table.empty_merge a).symm⟩
  get_iff _ _ _ := Table.get?_ofList_eq_some_iff
  one _ _ := rfl

/-- How a set is walked through. -/
structure Listed (a : Placeholders) : Prop where
  mem_iff (name text : String) : (name, text) ∈ a.entries ↔ a.get? name = some text
  ascending : a.entries.Pairwise fun e f => utf8 e.1 < utf8 f.1
  nodup : (a.entries.map (·.1)).Nodup
  size : {name | (a.get? name).isSome = true}.encard = a.size

theorem listed (a : Placeholders) : a.Listed where
  mem_iff _ _ := Table.mem_entries_iff
  ascending := a.sorted.imp utf8_lt_utf8.2
  nodup := a.keys_nodup
  size := a.encard_bound

end Placeholders

open Placeholders

theorem Provision.foldl_withPlaceholders (p : Provision) (more : List Placeholders) :
    more.foldl withPlaceholders p = p.withPlaceholders (overlaid more) := by
  induction more generalizing p with
  | nil => rfl
  | cons a more ih =>
    rw [List.foldl_cons, ih]
    simp only [withPlaceholders, overlaid, merged_assoc]

/-- The answer of a condition that is shown these placeholders with its lender, and without it those of the subject. -/
def Condition.evaluateShowing (c : Condition) (ev : Evaluator) (s : Subject) (p : Provision) (shown : Placeholders) :
    Check Bool := do
  let lent ← c.kind.check s ⟨ev, c.args, shown⟩ (some p.lender) c.datum
  let alone ← c.kind.check s ⟨ev, c.args, s.placeholders⟩ none c.datum
  return (lent && alone) ^^ c.inverted

theorem Condition.evaluate_eq (c : Condition) (ev : Evaluator) (s : Subject) (p : Provision) :
    c.evaluate ev s p = c.evaluateShowing ev s p (overlaid [s.placeholders, p.placeholders]) := rfl

theorem Occurrence.placeholders_eq (s : Subject) (trigger : String) (d : TriggerData) :
    (of s trigger d).placeholders = overlaid [s.placeholders, ofPairs d.ownPairs, d.extra] := rfl

/-- Sets of placeholders are maps in the order of the bytes of their names, and merging them prefers the later one. So
it only matters in which order sets are laid over one another: an occurrence shows the extra placeholders over the value
and the text of the trigger and these over the subject, a condition with a lender shows what was given to the lender
over the subject, and either is the same however the merging is put together. -/
theorem placeholders_follow_layers (a b c : Placeholders) :
    RightBiased a b c ∧ a.Inserted ∧ a.Listed ∧
      (∀ layers name, (overlaid layers).get? name = layers.reverse.findSome? (·.get? name)) ∧
      (∀ m : Grouping, m.result = overlaid m.layers) ∧
      (∀ s trigger d, (Occurrence.of s trigger d).placeholders =
          overlaid [s.placeholders, ofPairs d.ownPairs, d.extra] ∧
        ∀ name, (Occurrence.of s trigger d).placeholders.get? name =
          (d.extra.get? name).or ((d.own? name).or (s.placeholders.get? name))) ∧
      ∀ (x : Condition) ev s p more, let lent := more.foldl Provision.withPlaceholders p
        x.evaluate ev s lent = x.evaluateShowing ev s lent (overlaid (s.placeholders :: p.placeholders :: more)) := by
  refine ⟨rightBiased a b c, a.inserted, a.listed, get?_overlaid, Grouping.result_eq, fun s trigger d => ?_,
    fun x ev s p more => ?_⟩
  · exact ⟨Occurrence.placeholders_eq s trigger d, Occurrence.get?_placeholders s trigger d⟩
  · intro lent
    have hlent : lent.placeholders = overlaid (p.placeholders :: more) := by
      simp only [lent, Provision.foldl_withPlaceholders]
      rfl
    rw [x.evaluate_eq, hlent]
    rfl

end Ability
