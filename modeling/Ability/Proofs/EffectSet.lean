import Ability.ActiveSet

/-! Members of effect sets, told by their identifiers alone. -/

namespace Ability

namespace EffectSet

theorem contains_iff {s : EffectSet} {i : Uuid} : s.contains i = true ↔ ∃ e ∈ s.members, e.id = i := by
  simp [contains]

theorem ids_eq_nil {s : EffectSet} : s.ids = [] ↔ s.members = [] := List.map_eq_nil_iff

theorem same_iff {s t : EffectSet} : s.same t = true ↔ s.ids = t.ids := by simp [same]

theorem mem_ids {s : EffectSet} {i : Uuid} : i ∈ s.ids ↔ s.contains i = true := by
  rw [contains_iff]
  exact List.mem_map

theorem mem_diff {s t : EffectSet} {e : Effect} :
    e ∈ (s.diff t).members ↔ e ∈ s.members ∧ ∀ x ∈ t.members, x.id ≠ e.id := by
  simp [diff, contains]

theorem diff_empty (s : EffectSet) : s.diff .empty = s := by
  obtain ⟨members, sorted⟩ := s
  simp [diff, contains, empty]

theorem ids_nodup (s : EffectSet) : (s.members.map (·.id)).Nodup := by
  have h := s.sorted
  rw [List.nodup_iff_pairwise_ne, List.pairwise_map]
  refine h.imp ?_
  intro x y hlt heq
  exact Key.irrefl y.id (heq ▸ hlt)

theorem id_mem_insertInto {e : Effect} {i : Uuid} {l : List Effect} :
    (∃ x ∈ insertInto e l, x.id = i) ↔ e.id = i ∨ ∃ x ∈ l, x.id = i := by
  induction l with
  | nil => simp [insertInto]
  | cons y r ih =>
    unfold insertInto
    split
    · simp
    · next h₁ =>
      split
      · simp only [List.mem_cons, exists_eq_or_imp, ih]
        exact or_left_comm
      · next h₂ =>
        have h : y.id = e.id := Key.eq_of_not_lt h₂ h₁
        simp [h]

theorem mem_of_mem_foldl_insert {x : Effect} {l : List Effect} :
    ∀ {s : EffectSet}, x ∈ (l.foldl insert s).members → x ∈ s.members ∨ x ∈ l := by
  induction l with
  | nil => exact fun h => .inl h
  | cons e r ih =>
    intro s h
    rcases ih h with h | h
    · rcases mem_insertInto h with rfl | h
      · exact .inr (List.mem_cons_self ..)
      · exact .inl h
    · exact .inr (List.mem_cons_of_mem _ h)

theorem mem_of_mem_ofList {x : Effect} {l : List Effect} (h : x ∈ (ofList l).members) : x ∈ l :=
  (mem_of_mem_foldl_insert h).resolve_left (by simp [empty])

theorem id_mem_foldl_insert {i : Uuid} {l : List Effect} :
    ∀ {s : EffectSet}, (∃ x ∈ (l.foldl insert s).members, x.id = i) ↔
      (∃ x ∈ s.members, x.id = i) ∨ ∃ x ∈ l, x.id = i := by
  induction l with
  | nil => simp
  | cons e r ih =>
    intro s
    rw [List.foldl_cons, ih, insert, id_mem_insertInto]
    simp only [List.mem_cons, exists_eq_or_imp]
    rw [or_assoc, or_left_comm]

theorem id_mem_ofList {i : Uuid} {l : List Effect} :
    (∃ x ∈ (ofList l).members, x.id = i) ↔ ∃ x ∈ l, x.id = i := by
  simp [ofList, id_mem_foldl_insert, empty]

end EffectSet

/-- The effects of `s` that `t` does not hold, once each and in the order of their identifiers. -/
structure EffectSet.IsDifference (l : List Effect) (s t : EffectSet) : Prop where
  mem_iff : ∀ e, e ∈ l ↔ e ∈ s.members ∧ ∀ x ∈ t.members, x.id ≠ e.id
  ascending : l.Pairwise (fun x y => x.id < y.id)

theorem EffectSet.isDifference_diff (s t : EffectSet) : IsDifference (s.diff t).members s t :=
  ⟨fun _ => mem_diff, (s.diff t).sorted⟩

end Ability
