import Ability.Json.Basic
import Ability.Number.Digits

/-!
Paths into a JSON value: segments between dots, each a field name in an object or an index in an
array.
-/

namespace Ability.Json

/-- The parts of a path between its dots; without a dot the path itself is the only part. -/
def segments (path : String) : List String := (path.toList.splitOn '.').map String.ofList

/-- An index is a row of digits, perhaps after a plus sign, and fits a word of 64 bits. -/
def index? (segment : String) : Option Nat :=
  let ds : List Char := match segment.toList with
    | '+' :: r => r
    | r => r
  let n := Digits.value ds
  if ds ≠ [] ∧ ds.all Char.isDigit ∧ n < UInt64.size then some n else none

def step? : Json → String → Option Json
  | object fields, s => (fields.find? (·.1 = s)).map (·.2)
  | array items, s => (index? s).bind (items[·]?)
  | _, _ => none

def walk? (v : Json) (ss : List String) : Option Json := ss.foldlM step? v

def get? (v : Json) (path : String) : Option Json := v.walk? (segments path)

theorem step?_size {v w : Json} {s : String} (h : v.step? s = some w) : w.size < v.size := by
  cases v with
  | object fields =>
    obtain ⟨e, he, rfl⟩ := Option.map_eq_some_iff.mp h
    have := size_le_fieldsSize (List.mem_of_find?_eq_some he)
    simp only [size]; omega
  | array items =>
    obtain ⟨i, _, hi⟩ := Option.bind_eq_some_iff.mp h
    have := size_le_totalSize (List.mem_of_getElem? hi)
    simp only [size]; omega
  | _ => simp [step?] at h

theorem walk?_size {ss : List String} :
    ∀ {v w : Json}, v.walk? ss = some w → w.size ≤ v.size := by
  induction ss with
  | nil => intro v w h; cases h; exact Nat.le_refl _
  | cons s ss ih =>
    intro v w h
    obtain ⟨u, hu, hw⟩ := Option.bind_eq_some_iff.mp h
    exact Nat.le_trans (ih hw) (Nat.le_of_lt (step?_size hu))

theorem segments_ne_nil (path : String) : segments path ≠ [] := by
  simp [segments, List.splitOn_ne_nil]

theorem get?_size {v w : Json} {path : String} (h : v.get? path = some w) : w.size < v.size := by
  unfold get? at h
  cases hs : segments path with
  | nil => exact absurd hs (segments_ne_nil path)
  | cons s ss =>
    rw [hs] at h
    obtain ⟨u, hu, hw⟩ := Option.bind_eq_some_iff.mp h
    exact Nat.lt_of_le_of_lt (walk?_size hw) (step?_size hu)

end Ability.Json
