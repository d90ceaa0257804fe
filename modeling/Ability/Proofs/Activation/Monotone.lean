import Ability.Proofs.ActiveSet
import Ability.Proofs.Permission.Callbacks

/-! More permissions, more effects. What a built-in condition asks of a subject, beside its permissions, is
its name, its identifier and its attributes; and unless it is inverted, it asks for permissions only to be
there. So a subject to which permissions are added goes on to meet whatever it met, and callbacks that
disable nothing do add to them. -/

namespace Ability

/-- `t` differs from `s` in its permissions only, and has those of `s`. -/
structure Subject.Below (s t : Subject) : Prop where
  id : s.id = t.id
  name : s.name = t.name
  attributes : s.sheet.map (·.attributes) = t.sheet.map (·.attributes)
  permissions : ∀ p, s.hasPermission p = true → t.hasPermission p = true

/-- Built in and not inverted. -/
structure Condition.Plain (c : Condition) : Prop where
  kind : c.kind ∈ Builtin.conditions
  upright : c.inverted = false

/-- Lends built-in effects, and asks plain conditions only, of itself and of its effects. -/
structure Provision.Plain (p : Provision) : Prop where
  builtin : ∀ e ∈ p.holder.effects, e.Builtin
  own : ∀ c ∈ p.holder.conditions, c.Plain
  ofEffects : ∀ e ∈ p.holder.effects, ∀ c ∈ e.conditions, c.Plain

variable {ev : Evaluator} {s t : Subject}

namespace Subject

theorem attribute?_congr (h : s.sheet.map (·.attributes) = t.sheet.map (·.attributes)) (key : String) :
    s.attribute? key = t.attribute? key := by
  have hs : ∀ r : Subject, r.attribute? key = (r.sheet.map (·.attributes)).bind (·.get? key) := by
    intro r
    cases hr : r.sheet <;> simp [Subject.attribute?, hr]
  rw [hs s, hs t, h]

theorem placeholders_congr (hid : s.id = t.id) (hname : s.name = t.name)
    (h : s.sheet.map (·.attributes) = t.sheet.map (·.attributes)) : s.placeholders = t.placeholders := by
  have hs : ∀ r : Subject, r.sheet.map attributePairs = (r.sheet.map (·.attributes)).map fun a =>
      a.entries.filterMap fun e => e.2.scalarText?.map (e.1, ·) := by
    intro r
    cases hr : r.sheet <;> simp [attributePairs]
  rw [Subject.placeholders, Subject.placeholders, hs s, hs t, h, hid, hname]

end Subject

namespace Condition

theorem holds_mono {k : ConditionKind} (hk : k ∈ Builtin.conditions) (h : s.Below t) (e : Evaluation)
    (lender : Option Lender) (d : Datum) (hs : (k.holds s e lender d).run.value = .ok true) :
    (k.holds t e lender d).run.value = .ok true := by
  simp only [Builtin.conditions, List.mem_cons, List.not_mem_nil, or_false] at hk
  rcases hk with rfl | rfl | rfl | rfl | rfl
  -- the first three compare what the placeholders stand for, and do not look at the subject
  · exact hs
  · exact hs
  · exact hs
  · cases d with
    | text p =>
      have hp : s.hasPermission p = true := Except.ok.inj hs
      exact congrArg Except.ok (h.permissions p hp)
    | nothing => exact hs
    | json v => exact hs
  · cases d with
    | text key =>
      simp only [Builtin.attributeAtLeast, Subject.attribute?_congr h.attributes key] at hs ⊢
      exact hs
    | nothing => exact hs
    | json v => exact hs

theorem check_mono {k : ConditionKind} (hk : k ∈ Builtin.conditions) (h : s.Below t) (e : Evaluation)
    (lender : Option Lender) (d : Datum) (hs : (k.check s e lender d).run.value = .ok true) :
    (k.check t e lender d).run.value = .ok true := by
  unfold ConditionKind.check at hs ⊢
  split
  · next hd =>
    rw [if_pos hd] at hs
    exact holds_mono hk h e lender d hs
  · next hd =>
    rw [if_neg hd] at hs
    exact hs

theorem Met.mono {c : Condition} (hc : c.Plain) (h : s.Below t) {p : Provision} (hs : c.Met ev s p) :
    c.Met ev t p := by
  rw [met_iff_of_upright hc.upright] at hs ⊢
  unfold lent alone at hs ⊢
  rw [← Subject.placeholders_congr h.id h.name h.attributes]
  obtain ⟨hlent, halone⟩ := hs
  exact ⟨check_mono hc.kind h _ _ _ hlent, check_mono hc.kind h _ _ _ halone⟩

theorem allMet_mono {cs : List Condition} (hcs : ∀ c ∈ cs, c.Plain) (h : s.Below t) {p : Provision}
    (hs : (allMet ev s p cs).value = true) : (allMet ev t p cs).value = true := by
  rw [allMet_iff] at hs ⊢
  intro c hc
  exact (hs c hc).mono (hcs c hc) h

end Condition

theorem ActiveSet.id_mem_flatten_mono {ps : List Provision} (hps : ∀ p ∈ ps, p.Plain) (h : s.Below t)
    {i : Uuid}
    (hs : ∃ e ∈ (collect ev s [] ps).value.flatten.members, e.id = i) :
    ∃ e ∈ (collect ev t [] ps).value.flatten.members, e.id = i := by
  rw [id_mem_flatten] at hs ⊢
  obtain ⟨p, hp, hholder, e, he, heffect, hi⟩ := hs
  refine ⟨p, hp, ?_, e, he, ?_, hi⟩
  · exact Condition.allMet_mono (hps p hp).own h hholder
  · exact Condition.allMet_mono ((hps p hp).ofEffects e he) h heffect

namespace Sheet

theorem granted_subset_settle {sh : Sheet} {x : Phase × Effect} (hx : x.1 ≠ .disable)
    {y : Uuid × String} (hy : y ∈ sh.granted) : y ∈ (sh.settle x).granted := by
  obtain ⟨phase, e⟩ := x
  cases hp : e.permission? with
  | none => cases phase <;> simpa [settle, hp] using hy
  | some p =>
    cases phase with
    | enable =>
      simp only [settle, hp, mem_granted_grant]
      exact .inr hy
    | disable => exact absurd rfl hx
    | reload => simpa [settle, hp] using hy

theorem granted_subset_foldl_settle {l : List (Phase × Effect)} (hl : ∀ x ∈ l, x.1 ≠ .disable)
    {sh : Sheet} {y : Uuid × String} (hy : y ∈ sh.granted) : y ∈ (l.foldl settle sh).granted := by
  induction l generalizing sh with
  | nil => exact hy
  | cons x l ih =>
    obtain ⟨hx, hl⟩ := List.forall_mem_cons.mp hl
    exact ih hl (granted_subset_settle hx hy)

end Sheet

/-- Callbacks that disable nothing take nothing away. -/
theorem Subject.below_settle {l : List (Phase × Effect)} (hl : ∀ x ∈ l, x.1 ≠ .disable) (s : Subject) :
    s.Below (s.modify fun sh => l.foldl Sheet.settle sh) where
  id := rfl
  name := rfl
  attributes := by
    have h := Sheet.foldl_settle_keeps (·.attributes) Sheet.settle_attributes l
    simp only [Subject.modify, Option.map_map, Function.comp_def, h]
  permissions p hp := by
    obtain ⟨id, name, sheet⟩ := s
    cases sheet with
    | none => exact hp
    | some sh =>
      have hbase := Sheet.foldl_settle_keeps (·.base) Sheet.settle_base l sh
      simp only [Subject.hasPermission, Subject.modify, Option.map_some, Option.any_some,
        Sheet.hasPermission, Bool.or_eq_true, List.any_eq_true, decide_eq_true_eq] at hp ⊢
      rw [hbase]
      refine hp.imp (fun h => h) ?_
      rintro ⟨y, hy, hyp⟩
      exact ⟨y, Sheet.granted_subset_foldl_settle hl hy, hyp⟩

end Ability
