import Ability.Proofs.Text.Order
import Ability.Registry

/-! Registries after any calls. Under each identifier stands what was registered last, and every call gives back what it
replaced. -/

namespace Ability

namespace Registry

variable {α : Type}

/-- What calls give back one after the other, and the registry that they leave. -/
def registerEach : Registry α → List (String × α) → List (Option α) × Registry α
  | r, [] => ([], r)
  | r, (id, entry) :: calls =>
    let (replaced, next) := r.register id entry
    let (later, last) := next.registerEach calls
    (replaced :: later, last)

theorem registerEach_registry (r : Registry α) (calls : List (String × α)) :
    (r.registerEach calls).2 = r.insertAll calls := by
  induction calls generalizing r with
  | nil => rfl
  | cons call calls ih => exact ih _

/-- A call gives back what was found under its identifier before. -/
theorem registerEach_answer (r : Registry α) (before after : List (String × α)) (id : String) (entry : α) :
    (r.registerEach (before ++ (id, entry) :: after)).1[before.length]? = some ((r.insertAll before).get? id) := by
  induction before generalizing r with
  | nil => rfl
  | cons call before ih => exact ih _

/-- What a registry and its calls tell, starting with nothing. -/
structure KeepsLast (calls : List (String × α)) (answers : List (Option α)) (r : Registry α) : Prop where
  /-- Found under an identifier is the entry of the last call with it. -/
  get_iff (id : String) (entry : α) : r.get? id = some entry ↔ Stands (· = (id, entry)) (·.1 = id) calls
  /-- A call gives back the entry of the last call before it with the same identifier. -/
  answered {before after : List (String × α)} {id : String} {entry : α} : calls = before ++ (id, entry) :: after →
    ∃ replaced, answers[before.length]? = some replaced ∧
      ∀ old, replaced = some old ↔ Stands (· = (id, old)) (·.1 = id) before
  contains_iff (id : String) : r.contains id = true ↔ ∃ entry, r.get? id = some entry
  size : {id | (r.get? id).isSome = true}.encard = r.size
  isEmpty_iff : r.isEmpty = true ↔ ∀ id, r.get? id = none
  mem_ids_iff (id : String) : id ∈ r.keys ↔ id ∈ calls.map (·.1)
  ids_ascending : r.keys.Pairwise fun a b => utf8 a < utf8 b
  ids_nodup : r.keys.Nodup

theorem keepsLast (calls : List (String × α)) :
    KeepsLast calls (registerEach .empty calls).1 (registerEach .empty calls).2 := by
  rw [registerEach_registry]
  exact {
    get_iff _ _ := Table.get?_ofList_eq_some_iff
    answered := by
      rintro before after id entry rfl
      exact ⟨_, registerEach_answer .empty before after id entry, fun old => Table.get?_ofList_eq_some_iff⟩
    contains_iff _ := Option.isSome_iff_exists
    size := Table.encard_bound _
    isEmpty_iff := Table.isEmpty_iff
    mem_ids_iff _ := Table.mem_keys_ofList
    ids_ascending := Table.keys_utf8_ascending _
    ids_nodup := Table.keys_nodup _ }

end Registry

end Ability
