import Ability.Proofs.EffectSet
import Ability.Proofs.Engine

/-! Making the calls of a plan. Every call is made once and in order, each on the subject as the one
before left it; what fails is told and changes neither the calls that follow nor their order. The plan
disables and enables each effect at most once, and only where the two sets differ. -/

namespace Ability

/-- The calls are made one after the other, from one subject to another. -/
inductive Made (ev : Evaluator) : Subject → List Call → Subject → Prop
  | nil (s : Subject) : Made ev s [] s
  | cons {s t u : Subject} {c : Call} {cs : List Call}
      (call : ((c.effect.lifecycle ev c.phase).run s).value = (c.outcome, t))
      (rest : Made ev t cs u) : Made ev s (c :: cs) u

namespace Lifecycle

theorem note_subject (phase : Phase) (e : Effect) (outcome : Except EngineError Unit) (sc : Scene) :
    (note phase e outcome sc).value.2.subject = sc.subject := by
  cases outcome <;> rfl

theorem call_value (ev : Evaluator) (phase : Phase) (e : Effect) (sc : Scene) :
    let p := ((e.lifecycle ev phase).run sc.subject).value
    (call ev phase e sc).value.1 = ⟨phase, e, p.1⟩ ∧
      (call ev phase e sc).value.2.subject = p.2 :=
  ⟨rfl, note_subject phase e _ _⟩

theorem perform_cons (ev : Evaluator) (phase : Phase) (e : Effect) (l : List (Phase × Effect))
    (sc : Scene) :
    (perform ev ((phase, e) :: l) sc).value =
      let p := (call ev phase e sc).value
      let q := (perform ev l p.2).value
      (p.1 :: q.1, q.2) := rfl

/-- Which of the calls fail has no part in which calls are made. -/
theorem perform_targets (ev : Evaluator) (l : List (Phase × Effect)) (sc : Scene) :
    (perform ev l sc).value.1.map Call.target = l := by
  induction l generalizing sc with
  | nil => rfl
  | cons x l ih =>
    rw [perform_cons, List.map_cons, ih, (call_value ev x.1 x.2 sc).1]
    rfl

theorem perform_made (ev : Evaluator) (l : List (Phase × Effect)) (sc : Scene) :
    Made ev sc.subject (perform ev l sc).value.1 (perform ev l sc).value.2.subject := by
  induction l generalizing sc with
  | nil => exact .nil _
  | cons x l ih =>
    obtain ⟨hc, hs⟩ := call_value ev x.1 x.2 sc
    rw [perform_cons]
    refine .cons (t := (call ev x.1 x.2 sc).value.2.subject) ?_ (ih _)
    rw [hc, hs]

theorem mem_plan {before after : EffectSet} {x : Phase × Effect} (h : x ∈ plan before after) :
    x.2 ∈ before.members ∨ x.2 ∈ after.members := by
  simp only [plan, List.mem_append, List.mem_map] at h
  rcases h with (⟨e, he, rfl⟩ | ⟨e, he, rfl⟩) | ⟨e, he, rfl⟩
  · exact .inl (EffectSet.mem_diff.mp he).1
  · exact .inr (EffectSet.mem_diff.mp he).1
  · exact .inr he

/-- The phases in which an effect is switched on or off, in the order of the calls. -/
def switches (i : Uuid) (l : List (Phase × Effect)) : List Phase :=
  l.filterMap fun x => if x.2.id = i ∧ x.1 ≠ .reload then some x.1 else none

theorem switches_append (i : Uuid) (l m : List (Phase × Effect)) :
    switches i (l ++ m) = switches i l ++ switches i m := List.filterMap_append

/-- Calls of one phase switch an effect once if it is among them. -/
theorem switches_map {phase : Phase} (hp : phase ≠ .reload) (i : Uuid) (s : EffectSet) :
    switches i (s.members.map (phase, ·)) = if s.contains i then [phase] else [] := by
  obtain ⟨l, hl⟩ := s
  rw [switches, List.filterMap_map]
  induction hl with
  | nil => rfl
  | @cons e r he hr ih =>
    by_cases hi : e.id = i
    · have hnone : ∀ x ∈ r, x.id ≠ i := by
        intro x hx hxi
        exact Key.irrefl i (by simpa [hi, hxi] using he x hx)
      have hrest : r.filterMap ((fun x : Phase × Effect =>
          if x.2.id = i ∧ x.1 ≠ .reload then some x.1 else none) ∘ (phase, ·)) = [] := by
        rw [List.filterMap_eq_nil_iff]
        intro x hx
        simp [hnone x hx]
      have hfirst : ((fun x : Phase × Effect =>
          if x.2.id = i ∧ x.1 ≠ .reload then some x.1 else none) ∘ (phase, ·)) e = some phase :=
        if_pos ⟨hi, hp⟩
      have hmem : EffectSet.contains ⟨e :: r, .cons he hr⟩ i = true :=
        EffectSet.contains_iff.mpr ⟨e, List.mem_cons_self, hi⟩
      rw [List.filterMap_cons_some hfirst, hrest, if_pos hmem]
    · simpa [EffectSet.contains, hi] using ih

theorem switches_reload (i : Uuid) (l : List Effect) : switches i (l.map (.reload, ·)) = [] := by
  simp [switches]

theorem contains_diff (s t : EffectSet) (i : Uuid) :
    (s.diff t).contains i = (s.contains i && !t.contains i) := by
  rw [Bool.eq_iff_iff]
  simp only [EffectSet.contains_iff, EffectSet.mem_diff, Bool.and_eq_true, Bool.not_eq_true',
    Bool.eq_false_iff, ne_eq]
  constructor
  · rintro ⟨e, ⟨he, ht⟩, rfl⟩
    exact ⟨⟨e, he, rfl⟩, fun ⟨x, hx, hxe⟩ => ht x hx hxe⟩
  · rintro ⟨⟨e, he, rfl⟩, ht⟩
    exact ⟨e, ⟨he, fun x hx hxe => ht ⟨x, hx, hxe⟩⟩, rfl⟩

/-- A plan switches an effect that only one of the two sets holds, and no other. -/
theorem switches_plan (i : Uuid) (before after : EffectSet) :
    switches i (plan before after) =
      match before.contains i, after.contains i with
      | true, false => [.disable]
      | false, true => [.enable]
      | _, _ => [] := by
  simp only [plan, switches_append, switches_map (by decide : Phase.disable ≠ .reload),
    switches_map (by decide : Phase.enable ≠ .reload), switches_reload, contains_diff]
  cases before.contains i <;> cases after.contains i <;> rfl

/-- What tells one callback of a plan from another. -/
def place (x : Phase × Effect) : Phase × Uuid := (x.1, x.2.id)

theorem places_nodup (phase : Phase) (s : EffectSet) :
    ((s.members.map (phase, ·)).map place).Nodup := by
  have h := s.ids_nodup
  rw [List.map_map]
  rw [List.nodup_iff_pairwise_ne, List.pairwise_map] at h ⊢
  exact h.imp fun hne heq => hne (Prod.mk.inj heq).2

theorem phase_of_mem_places {phase : Phase} {s : EffectSet} {x : Phase × Uuid}
    (h : x ∈ (s.members.map (phase, ·)).map place) : x.1 = phase := by
  simp only [List.map_map, List.mem_map] at h
  obtain ⟨_, _, rfl⟩ := h
  rfl

theorem plan_nodup (before after : EffectSet) : ((plan before after).map place).Nodup := by
  rw [plan, List.map_append, List.map_append, List.nodup_append, List.nodup_append]
  refine ⟨⟨places_nodup .., places_nodup .., ?_⟩, places_nodup .reload after, ?_⟩
  · intro x hx y hy hxy
    have := (phase_of_mem_places hx).symm.trans (hxy ▸ phase_of_mem_places hy)
    cases this
  · intro x hx y hy hxy
    have hreload := hxy ▸ phase_of_mem_places hy
    rcases List.mem_append.mp hx with hx | hx
    · cases (phase_of_mem_places hx).symm.trans hreload
    · cases (phase_of_mem_places hx).symm.trans hreload

end Lifecycle

namespace Engine

theorem performed_targets (g : Engine) (s : Subject) :
    (g.performed s).1.map Call.target =
      Lifecycle.plan (g.activeEffects s.id) (g.activeNow s).flatten :=
  Lifecycle.perform_targets ..

theorem performed_made (g : Engine) (s : Subject) :
    Made g.evaluator s (g.performed s).1 (g.performed s).2.subject :=
  Lifecycle.perform_made g.evaluator _ ⟨s, (resolve s g).value.2.tally⟩

end Engine

end Ability
