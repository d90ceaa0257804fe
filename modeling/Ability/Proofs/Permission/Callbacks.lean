import Ability.Proofs.Lifecycle.Calls
import Ability.Proofs.Permission.Sheet
import Ability.Proofs.Trigger

/-! What built-in callbacks do to a sheet. Enabling an effect that gives a permission grants it in the name
of the effect, disabling it takes that back, and all else leaves the sheet alone. After the calls of a plan,
what is granted is what the active effects give, each under its own identifier. -/

namespace Ability

/-- The permission that an effect gives while it is enabled. -/
def Effect.permission? (e : Effect) : Option String :=
  match e.response with
  | .leaf k (.text p) => if k.id = Builtin.givePermission.id then some p else none
  | _ => none

/-- The effect of identifier `i` that gives the permission `p` to everyone. -/
def giver (i : Uuid) (p : String) : Effect where
  id := i
  args := Json.emptyObject
  response := .leaf Builtin.givePermission (.text p)
  conditions := []
  arguments := []
  triggers := []
  context := ""

namespace Sheet

/-- A sheet after one callback of a built-in effect. -/
def settle (sh : Sheet) (x : Phase × Effect) : Sheet :=
  match x.1, x.2.permission? with
  | .enable, some p => sh.grant x.2.id p
  | .disable, some _ => sh.revoke x.2.id
  | _, _ => sh

theorem settle_base (sh : Sheet) (x : Phase × Effect) : (sh.settle x).base = sh.base := by
  unfold settle
  split
  · exact grant_base ..
  · rfl
  · rfl

theorem settle_attributes (sh : Sheet) (x : Phase × Effect) :
    (sh.settle x).attributes = sh.attributes := by
  unfold settle
  split
  · exact grant_attributes ..
  · rfl
  · rfl

theorem foldl_settle_keeps {β : Type} (f : Sheet → β) (hf : ∀ sh x, f (sh.settle x) = f sh)
    (l : List (Phase × Effect)) (sh : Sheet) : f (l.foldl settle sh) = f sh := by
  induction l generalizing sh with
  | nil => rfl
  | cons x l ih => exact (ih (sh.settle x)).trans (hf sh x)

theorem mem_granted_enable {es : List Effect} {sh : Sheet} {i : Uuid} {p : String} :
    (i, p) ∈ ((es.map (Phase.enable, ·)).foldl settle sh).granted ↔
      (i, p) ∈ sh.granted ∨ ∃ e ∈ es, e.id = i ∧ e.permission? = some p := by
  induction es generalizing sh with
  | nil => simp
  | cons e r ih =>
    rw [List.map_cons, List.foldl_cons, ih]
    have hstep : (i, p) ∈ (sh.settle (.enable, e)).granted ↔
        (i, p) ∈ sh.granted ∨ e.id = i ∧ e.permission? = some p := by
      cases hp : e.permission? with
      | none => simp [settle, hp]
      | some q => simp [settle, hp, mem_granted_grant, or_comm, eq_comm]
    simp only [hstep, List.mem_cons, exists_eq_or_imp, or_assoc]

theorem mem_granted_disable {es : List Effect} {sh : Sheet} {i : Uuid} {p : String} :
    (i, p) ∈ ((es.map (Phase.disable, ·)).foldl settle sh).granted ↔
      (i, p) ∈ sh.granted ∧ ∀ e ∈ es, e.permission?.isSome → e.id ≠ i := by
  induction es generalizing sh with
  | nil => simp
  | cons e r ih =>
    rw [List.map_cons, List.foldl_cons, ih]
    have hstep : (i, p) ∈ (sh.settle (.disable, e)).granted ↔
        (i, p) ∈ sh.granted ∧ (e.permission?.isSome → e.id ≠ i) := by
      cases hp : e.permission? with
      | none => simp [settle, hp]
      | some q => simp [settle, hp, mem_granted_revoke, eq_comm]
    simp only [hstep, List.forall_mem_cons, and_assoc]

theorem foldl_settle_self {l : List (Phase × Effect)}
    (hl : ∀ x ∈ l, x.1 = .reload ∨ x.2.permission? = none) (sh : Sheet) : l.foldl settle sh = sh := by
  induction l with
  | nil => rfl
  | cons x l ih =>
    obtain ⟨hx, hl⟩ := List.forall_mem_cons.mp hl
    have hself : sh.settle x = sh := by
      obtain ⟨phase, e⟩ := x
      rcases hx with rfl | hx
      · rfl
      · have hnone : e.permission? = none := hx
        cases phase <;> simp [settle, hnone]
    rw [List.foldl_cons, hself]
    exact ih hl

theorem foldl_settle_reload (es : List Effect) (sh : Sheet) :
    (es.map (Phase.reload, ·)).foldl settle sh = sh := by
  apply foldl_settle_self
  intro x hx
  obtain ⟨e, -, rfl⟩ := List.mem_map.mp hx
  exact .inl rfl

/-- The calls of a plan take back what is granted in the name of an effect that they disable, and grant what those
give that they enable. -/
theorem mem_granted_plan {sh : Sheet} {before after : EffectSet} {i : Uuid} {p : String} :
    (i, p) ∈ ((Lifecycle.plan before after).foldl settle sh).granted ↔
      ((i, p) ∈ sh.granted ∧ ∀ e ∈ (before.diff after).members, e.permission?.isSome → e.id ≠ i) ∨
        ∃ e ∈ (after.diff before).members, e.id = i ∧ e.permission? = some p := by
  rw [Lifecycle.plan, List.foldl_append, List.foldl_append, foldl_settle_reload, mem_granted_enable,
    mem_granted_disable]

/-- What is granted is what the effects of `s` give, each in its own name. -/
def Grants (sh : Sheet) (s : EffectSet) : Prop :=
  ∀ i p, (i, p) ∈ sh.granted ↔ ∃ e ∈ s.members, e.id = i ∧ e.permission? = some p

/-- The calls of a plan lead from what the one set gives to what the other gives. Effects that are the
same give the same, so that what stays active needs no call. -/
theorem Grants.plan {sh : Sheet} {before after : EffectSet} (h : sh.Grants before)
    (hsame : ∀ x ∈ before.members, ∀ y ∈ after.members, x.id = y.id → x.permission? = y.permission?) :
    ((Lifecycle.plan before after).foldl settle sh).Grants after := by
  intro i p
  rw [mem_granted_plan, h i p]
  simp only [EffectSet.mem_diff]
  constructor
  · rintro (⟨⟨x, hx, hxi, hxp⟩, hkept⟩ | ⟨y, ⟨hy, -⟩, hyi⟩)
    -- what was granted before and not taken back is still given, under the same identifier
    · by_cases hex : ∃ y ∈ after.members, y.id = x.id
      · obtain ⟨y, hy, hyx⟩ := hex
        exact ⟨y, hy, hyx.trans hxi, (hsame x hx y hy hyx.symm).symm.trans hxp⟩
      · have hdiff : ∀ y ∈ after.members, y.id ≠ x.id := fun y hy hyx => hex ⟨y, hy, hyx⟩
        exact absurd hxi (hkept x ⟨hx, hdiff⟩ (by simp [hxp]))
    · exact ⟨y, hy, hyi⟩
  · rintro ⟨y, hy, hyi, hyp⟩
    by_cases hex : ∃ x ∈ before.members, x.id = y.id
    · obtain ⟨x, hx, hxy⟩ := hex
      refine .inl ⟨⟨x, hx, hxy.trans hyi, (hsame x hx y hy hxy).trans hyp⟩, ?_⟩
      rintro z ⟨-, hz⟩ - hzi
      exact hz y hy (hyi.trans hzi.symm)
    · exact .inr ⟨y, ⟨hy, fun x hx hxy => hex ⟨x, hx, hxy⟩⟩, hyi, hyp⟩

end Sheet

namespace Subject

theorem modify_modify (s : Subject) (f g : Sheet → Sheet) :
    (s.modify f).modify g = s.modify (g ∘ f) := by
  simp [modify, Option.map_map]

theorem modify_self (s : Subject) : s.modify (fun sh => sh) = s := by
  simp [modify]

end Subject

/-- A callback of a built-in effect does to its subject what `settle` does to the sheet. -/
theorem Effect.lifecycle_subject {e : Effect} (he : e.Builtin) (ev : Evaluator) (phase : Phase)
    (s : Subject) :
    ((e.lifecycle ev phase).run s).value.2 = s.modify (·.settle (phase, e)) := by
  obtain ⟨id, args, response, conditions, arguments, triggers, context⟩ := e
  have hid : s = s.modify fun sh => sh := s.modify_self.symm
  cases response with
  | chain kind chain executor => cases phase <;> exact hid
  | leaf k d =>
    rcases Builtin.leaf_mem_effects.mp he with rfl | rfl | rfl
    · cases d with
      | text p => cases phase <;> first | rfl | exact hid
      | nothing => cases phase <;> exact hid
      | json v => cases phase <;> exact hid
    · cases d <;> cases phase <;> exact hid
    · cases d <;> cases phase <;> exact hid

/-- Calls that were made of built-in effects have settled the sheet one after the other. -/
theorem Made.subject_eq {ev : Evaluator} {s t : Subject} {cs : List Call} (h : Made ev s cs t)
    (hcs : ∀ c ∈ cs, c.effect.Builtin) :
    t = s.modify fun sh => (cs.map Call.target).foldl Sheet.settle sh := by
  induction h with
  | nil s => exact s.modify_self.symm
  | @cons s t u c cs hcall _ ih =>
    obtain ⟨hc, hcs⟩ := List.forall_mem_cons.mp hcs
    have ht := Effect.lifecycle_subject hc ev c.phase s
    simp only [hcall] at ht
    rw [ih hcs, ht, Subject.modify_modify]
    rfl

/-- The callbacks of an update of built-in effects settle the sheet by the plan. -/
theorem Engine.performed_subject {g : Engine} {s : Subject}
    (hb : ∀ e ∈ (g.activeEffects s.id).members, e.Builtin)
    (ha : ∀ e ∈ (g.activeNow s).flatten.members, e.Builtin) :
    (g.performed s).2.subject = s.modify fun sh =>
      (Lifecycle.plan (g.activeEffects s.id) (g.activeNow s).flatten).foldl Sheet.settle sh := by
  have htargets := performed_targets g s
  rw [← htargets]
  refine (performed_made g s).subject_eq fun c hc => ?_
  have hplan := List.mem_map_of_mem (f := Call.target) hc
  rw [htargets] at hplan
  exact (Lifecycle.mem_plan hplan).elim (hb _) (ha _)

end Ability
