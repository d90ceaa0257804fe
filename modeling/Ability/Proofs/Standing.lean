import Mathlib.Data.List.Basic

/-! What has begun in a history and has not been ended since. -/

namespace Ability

/-- Something that begins it is in the history, with nothing after it that ends it. -/
def Stands {α : Type} (begins ends : α → Prop) (xs : List α) : Prop :=
  ∃ before x after, xs = before ++ x :: after ∧ begins x ∧ ∀ y ∈ after, ¬ ends y

namespace Stands

variable {α : Type} {begins ends : α → Prop} {x : α} {xs : List α}

theorem not_nil : ¬ Stands begins ends [] := by
  rintro ⟨before, x, after, h, -⟩
  simp at h

/-- It stands after one thing more if that begins it, or if it stood and that does not end it. -/
theorem concat : Stands begins ends (xs ++ [x]) ↔ begins x ∨ Stands begins ends xs ∧ ¬ ends x := by
  constructor
  · rintro ⟨before, y, after, h, hy, hafter⟩
    rcases List.eq_nil_or_concat after with rfl | ⟨after, z, rfl⟩
    · obtain ⟨-, hx⟩ := List.append_inj' h rfl
      exact .inl (List.singleton_inj.mp hx ▸ hy)
    · rw [List.concat_eq_append, ← List.cons_append, ← List.append_assoc] at h
      obtain ⟨hxs, hx⟩ := List.append_inj' h rfl
      obtain rfl := List.singleton_inj.mp hx
      simp only [List.concat_eq_append, List.mem_append, List.mem_singleton] at hafter
      exact .inr ⟨⟨before, y, after, hxs, hy, fun w hw => hafter w (.inl hw)⟩, hafter x (.inr rfl)⟩
  · rintro (hx | ⟨⟨before, y, after, rfl, hy, hafter⟩, hx⟩)
    · exact ⟨xs, x, [], rfl, hx, by simp⟩
    · refine ⟨before, y, after ++ [x], by simp, hy, ?_⟩
      intro w hw
      rcases List.mem_append.mp hw with hw | hw
      · exact hafter w hw
      · rw [List.mem_singleton.mp hw]
        exact hx

/-- What is found first from the end stands, as far as it is ended by what would be found itself. -/
theorem find?_reverse_eq_some_iff {p : α → Bool} :
    xs.reverse.find? p = some x ↔ p x = true ∧ Stands (· = x) (p · = true) xs := by
  simp only [List.find?_eq_some_iff_append, Bool.not_eq_true', Stands]
  refine and_congr_right fun _ => ⟨?_, ?_⟩
  · rintro ⟨as, bs, hxs, has⟩
    refine ⟨bs.reverse, x, as.reverse, ?_, rfl, fun y hy => by simp [has y (List.mem_reverse.1 hy)]⟩
    rw [← List.reverse_reverse xs, hxs]
    simp
  · rintro ⟨before, _, after, rfl, rfl, hafter⟩
    exact ⟨after.reverse, before.reverse, by simp, fun y hy => by simpa using hafter y (List.mem_reverse.1 hy)⟩

end Stands

end Ability
