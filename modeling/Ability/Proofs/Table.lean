import Ability.Proofs.Standing
import Ability.Table
import Mathlib.Data.List.Nodup
import Mathlib.Data.Option.Basic
import Mathlib.Data.Set.Card

/-! Tables known by their lookups. Two with the same lookups are equal, so what merging and repeated insertion make of
tables can be told key by key: the binding that comes last is the one that is found. -/

namespace Ability

namespace Table

variable {κ : Type} [Key κ] {α : Type} {s t : Table κ α} {k : κ} {v : α}

theorem mem_entries_iff : (k, v) ∈ t.entries ↔ t.get? k = some v := by
  constructor
  · intro h
    cases hget : t.get? k with
    | none => exact absurd (List.mem_map_of_mem h) (get?_eq_none_iff.1 hget)
    | some w =>
      obtain ⟨e, he, rfl⟩ := Option.map_eq_some_iff.1 hget
      have hkey : e.1 = k := by simpa using List.find?_some he
      have hmem := List.mem_of_find?_eq_some he
      have hsame := List.inj_on_of_nodup_map t.keys_nodup hmem h hkey
      rw [hsame]
  · intro h
    obtain ⟨e, he, rfl⟩ := Option.map_eq_some_iff.1 h
    have hkey : e.1 = k := by simpa using List.find?_some he
    rw [← hkey]
    exact List.mem_of_find?_eq_some he

theorem mem_values_iff : v ∈ t.values ↔ ∃ k, t.get? k = some v := by
  simp [values, mem_entries_iff]

theorem mem_keys_iff : k ∈ t.keys ↔ (t.get? k).isSome = true := by
  rw [Option.isSome_iff_ne_none, ne_eq, get?_eq_none_iff, not_not]

theorem keys_ascending (t : Table κ α) : t.keys.Pairwise (· < ·) := List.pairwise_map.2 t.sorted

theorem isEmpty_iff : t.isEmpty = true ↔ ∀ k, t.get? k = none := by
  simp only [isEmpty, List.isEmpty_iff, get?_eq_none_iff, keys, ← List.eq_nil_iff_forall_not_mem, List.map_eq_nil_iff]

/-- The size is the number of keys under which something is found. -/
theorem encard_bound (t : Table κ α) : {k | (t.get? k).isSome = true}.encard = t.size := by
  have hkeys : {k | (t.get? k).isSome = true} = (t.keys.toFinset : Set κ) := by
    ext k
    simp [← mem_keys_iff]
  rw [hkeys, Set.encard_coe_eq_coe_finsetCard, List.toFinset_card_of_nodup t.keys_nodup, keys, List.length_map]
  rfl

/-- In a table where every value stands under its own key it is found there. -/
theorem get?_eq_some_iff_of_keys (key : α → κ) (h : t.entries = t.values.map fun v => (key v, v)) :
    t.get? k = some v ↔ v ∈ t.values ∧ key v = k := by
  rw [← mem_entries_iff, h, List.mem_map]
  constructor
  · rintro ⟨w, hw, hpair⟩
    obtain ⟨rfl, rfl⟩ := Prod.mk.inj hpair
    exact ⟨hw, rfl⟩
  · rintro ⟨hv, rfl⟩
    exact ⟨v, hv, rfl⟩

/-- The order of the entries leaves no choice, once it is known which there are. -/
theorem ext_get? (h : ∀ k, s.get? k = t.get? k) : s = t := by
  have hnodup : ∀ u : Table κ α, u.entries.Nodup := fun u => List.Nodup.of_map _ u.keys_nodup
  have hperm : s.entries.Perm t.entries := by
    refine (List.perm_ext_iff_of_nodup (hnodup s) (hnodup t)).2 fun e => ?_
    rw [mem_entries_iff, mem_entries_iff, h]
  refine Table.ext (hperm.eq_of_pairwise (fun a b _ _ hab hba => ?_) s.sorted t.sorted)
  exact absurd (Key.trans hab hba) (Key.irrefl a.1)

section Insertion

theorem insertAll_append (t : Table κ α) (l r : List (κ × α)) : t.insertAll (l ++ r) = (t.insertAll l).insertAll r :=
  List.foldl_append

theorem get?_insertAll (t : Table κ α) (l : List (κ × α)) (k : κ) :
    (t.insertAll l).get? k = ((l.reverse.find? fun e => e.1 = k).map (·.2)).or (t.get? k) := by
  induction l using List.reverseRecOn with
  | nil => rfl
  | append_singleton l e ih =>
    have hlast : (t.insertAll l).insertAll [e] = (t.insertAll l).insert e.1 e.2 := rfl
    rw [insertAll_append, hlast, get?_insert, ih, List.reverse_append, List.reverse_singleton, List.singleton_append,
      List.find?_cons]
    by_cases h : e.1 = k <;> simp [h]

/-- Of values under their own keys the last one stands. -/
theorem get?_insertAll_keyed (key : α → κ) (t : Table κ α) (xs : List α) (k : κ) :
    (t.insertAll (xs.map fun x => (key x, x))).get? k = (xs.reverse.find? (key · = k)).or (t.get? k) := by
  rw [get?_insertAll, ← List.map_reverse, List.find?_map, Option.map_map]
  simp [Function.comp_def]

theorem get?_ofList_eq_some_iff {l : List (κ × α)} :
    (ofList l).get? k = some v ↔ Stands (· = (k, v)) (·.1 = k) l := by
  rw [ofList, get?_insertAll, get?_empty, Option.or_none, Option.map_eq_some_iff]
  constructor
  · rintro ⟨e, he, rfl⟩
    obtain ⟨hkey, hstands⟩ := Stands.find?_reverse_eq_some_iff.1 he
    obtain rfl : e.1 = k := by simpa using hkey
    simpa using hstands
  · intro h
    exact ⟨(k, v), Stands.find?_reverse_eq_some_iff.2 ⟨by simp, by simpa using h⟩, rfl⟩

theorem mem_keys_ofList {l : List (κ × α)} : k ∈ (ofList l).keys ↔ k ∈ l.map (·.1) := by
  rw [mem_keys_iff, ofList, get?_insertAll, get?_empty, Option.or_none, Option.isSome_map, List.find?_isSome]
  simp

theorem mem_of_get?_insertAll {l : List (κ × α)} (h : (t.insertAll l).get? k = some v) :
    (k, v) ∈ l ∨ t.get? k = some v := by
  rw [get?_insertAll, Option.or_eq_some_iff] at h
  rcases h with h | ⟨-, h⟩
  · obtain ⟨e, he, rfl⟩ := Option.map_eq_some_iff.1 h
    obtain rfl : e.1 = k := by simpa using List.find?_some he
    exact .inl (List.mem_reverse.1 (List.mem_of_find?_eq_some he))
  · exact .inr h

/-- No key occurs twice among the entries, so that it does not matter from which end they are searched. -/
theorem find?_reverse_entries (t : Table κ α) (k : κ) :
    (t.entries.reverse.find? fun e => e.1 = k).map (·.2) = t.get? k := by
  refine Option.ext fun v => ⟨fun h => ?_, fun h => ?_⟩
  · obtain ⟨e, he, rfl⟩ := Option.map_eq_some_iff.1 h
    obtain rfl : e.1 = k := by simpa using List.find?_some he
    exact mem_entries_iff.1 (List.mem_reverse.1 (List.mem_of_find?_eq_some he))
  · have hmem : (k, v) ∈ t.entries.reverse := List.mem_reverse.2 (mem_entries_iff.2 h)
    obtain ⟨e, he⟩ : ∃ e, t.entries.reverse.find? (fun e => e.1 = k) = some e := by
      rw [← Option.isSome_iff_exists, List.find?_isSome]
      exact ⟨(k, v), hmem, by simp⟩
    obtain rfl : e.1 = k := by simpa using List.find?_some he
    have hget : t.get? e.1 = some e.2 := mem_entries_iff.1 (List.mem_reverse.1 (List.mem_of_find?_eq_some he))
    rw [he, Option.map_some, ← hget, h]

theorem get?_insertAll_sorted {l : List (κ × α)} (hl : l.Pairwise (fun x y => x.1 < y.1)) (t : Table κ α) (k : κ) :
    (t.insertAll l).get? k = ((l.find? fun e => e.1 = k).map (·.2)).or (t.get? k) := by
  rw [get?_insertAll]
  exact congrArg (Option.or · _) (find?_reverse_entries ⟨l, hl⟩ k)

end Insertion

section Merging

theorem get?_merge (s t : Table κ α) (k : κ) : (s.merge t).get? k = (t.get? k).or (s.get? k) :=
  get?_insertAll_sorted t.sorted s k

theorem merge_assoc (s t u : Table κ α) : (s.merge t).merge u = s.merge (t.merge u) :=
  ext_get? fun k => by simp only [get?_merge, Option.or_assoc]

theorem merge_empty (t : Table κ α) : t.merge empty = t := rfl

theorem empty_merge (t : Table κ α) : empty.merge t = t :=
  ext_get? fun k => by rw [get?_merge, get?_empty, Option.or_none]

theorem merge_self (t : Table κ α) : t.merge t = t :=
  ext_get? fun k => by rw [get?_merge, Option.or_self]

end Merging

end Table

end Ability
