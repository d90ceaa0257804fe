import Ability.Proofs.Activation.Fixpoint
import Ability.Proofs.Activation.Frame
import Ability.Proofs.Permission.Runs

/-! Rest. A subject is lent the same holders all the time, and whatever permissions it is granted come from their
effects. Where no condition asks for a permission that these effects give, an update changes nothing that the next
one looks at, so that the next one only reloads. -/

namespace Ability

variable {ps : List Provision} {u : Uuid} {h : Host}

/-- Lends built-in effects, with built-in conditions throughout. -/
structure Provision.Builtin (p : Provision) : Prop where
  effects : ∀ e ∈ p.holder.effects, e.Builtin
  conditions : ∀ c ∈ p.conditions, c.kind ∈ Builtin.conditions

/-- One of the effects that are lent gives the permission. -/
def Gives (ps : List Provision) (q : String) : Prop :=
  ∃ p ∈ ps, ∃ e ∈ p.holder.effects, e.permission? = some q

/-- A request that leaves the providers as they are, and to the effects what the subject is granted. -/
def Request.Still (u : Uuid) : Request → Prop
  | .addProvider _ | .setProvider .. => False
  | r => r.SparesGrants u

theorem Request.Still.sparesGrants {r : Request} (hr : r.Still u) : r.SparesGrants u := by
  cases r with
  | addProvider p => exact hr.elim
  | setProvider i p => exact hr.elim
  | _ => exact hr

/-- All that is active, and all that has been granted, comes from what is lent. -/
structure Host.Fed (ps : List Provision) (u : Uuid) (h : Host) : Prop where
  yields : h.engine.cache.Yields (· = ps) u
  active : ∀ e ∈ (h.engine.activeEffects u).members, ∃ p ∈ ps, e ∈ p.holder.effects
  granted : ∀ l ∈ (h.subject u).granted, ∀ x ∈ l, Gives ps x.2

namespace Host

theorem Fed.hasPermission_of_not_gives (hf : h.Fed ps u) {q : String} (hq : ¬ Gives ps q) :
    (h.subject u).hasPermission q = (h.subject u).sheet.any (·.base.contains q) := by
  rw [Subject.hasPermission]
  cases hsh : (h.subject u).sheet with
  | none => rfl
  | some sh =>
    have hnone : sh.granted.any (·.2 = q) = false := by
      rw [List.any_eq_false]
      intro x hx hxq
      have hgranted := hf.granted sh.granted (Option.mem_map.mpr ⟨sh, hsh, rfl⟩) x hx
      exact hq (of_decide_eq_true hxq ▸ hgranted)
    rw [Option.any_some, Option.any_some, Sheet.hasPermission, hnone, Bool.or_false]

variable (hps : ∀ p ∈ ps, p.Builtin)

include hps

theorem Fed.upcoming_builtin (hf : h.Fed ps u) : ∀ e ∈ (h.upcoming u).members, e.Builtin := by
  intro e he
  obtain ⟨p, hp, hep⟩ := upcoming_mem hf.yields he
  exact (hps p hp).effects e hep

theorem Fed.active_builtin (hf : h.Fed ps u) : ∀ e ∈ (h.engine.activeEffects u).members, e.Builtin := by
  intro e he
  obtain ⟨p, hp, hep⟩ := hf.active e he
  exact (hps p hp).effects e hep

/-- An update settles the sheet by its plan. -/
theorem Fed.updated_subject (hf : h.Fed ps u) :
    (h.step (.update u)).subject u = (h.subject u).modify fun sh =>
      (Lifecycle.plan (h.engine.activeEffects u) (h.upcoming u)).foldl Sheet.settle sh := by
  have hs := h.step_subject (.update u) u
  simp only [if_true] at hs
  rw [Engine.performed_subject (hf.active_builtin hps) (hf.upcoming_builtin hps)] at hs
  exact hs

theorem Fed.step_granted (hf : h.Fed ps u) {r : Request} (hr : r.Still u) :
    ∀ l ∈ ((h.step r).subject u).granted, ∀ x ∈ l, Gives ps x.2 := by
  by_cases hu : r = .update u
  · subst hu
    rw [hf.updated_subject hps]
    intro l hl x hx
    obtain ⟨sh, hsh, rfl⟩ := Option.mem_map.mp hl
    obtain ⟨sh, hsh', rfl⟩ := Option.mem_map.mp hsh
    rcases Sheet.mem_granted_plan.mp hx with ⟨hx, -⟩ | ⟨e, he, -, hgives⟩
    · exact hf.granted sh.granted (Option.mem_map.mpr ⟨sh, hsh', rfl⟩) x hx
    · obtain ⟨p, hp, hep⟩ := upcoming_mem hf.yields (EffectSet.mem_diff.mp he).1
      exact ⟨p, hp, e, hep, hgives⟩
  · rw [granted_kept (hf.active_builtin hps) hr.sparesGrants hu]
    exact hf.granted

theorem Fed.step (hf : h.Fed ps u) {r : Request} (hr : r.Still u) : (h.step r).Fed ps u where
  yields := by
    rw [step_cache]
    cases r with
    | resolve v => exact hf.yields.resolve _
    | compute v => exact hf.yields.resolve _
    | update v => exact hf.yields.resolve _
    | rescan v => exact hf.yields.rescan v
    | uncache v => exact hf.yields.remove v
    | forget v => exact hf.yields.remove v
    | addProvider p => exact hr.elim
    | setProvider i p => exact hr.elim
    | addObserver o => exact ⟨hf.yields.asked, hf.yields.kept⟩
    | _ => exact hf.yields
  active := active_step hf.active (fun _ he => upcoming_mem hf.yields he) r
  granted := hf.step_granted hps hr

/-- Before and after an update a subject has the same permissions among those that nothing lent gives. -/
theorem Fed.agree (hf : h.Fed ps u) :
    (h.subject u).Agree (¬ Gives ps ·) ((h.step (.update u)).subject u) := by
  have hafter := hf.step hps (r := .update u) trivial
  have hsubject := hf.updated_subject hps
  refine ⟨rfl, ?_, ?_, fun q hq => ?_⟩
  · rw [hsubject]
    rfl
  · have hattributes := Sheet.foldl_settle_keeps (·.attributes) Sheet.settle_attributes
      (Lifecycle.plan (h.engine.activeEffects u) (h.upcoming u))
    simp only [hsubject, Subject.modify, Option.map_map, Function.comp_def, hattributes]
  · have hbase := Sheet.foldl_settle_keeps (·.base) Sheet.settle_base
      (Lifecycle.plan (h.engine.activeEffects u) (h.upcoming u))
    rw [hf.hasPermission_of_not_gives hq, hafter.hasPermission_of_not_gives hq, hsubject]
    simp only [Subject.modify, Option.any_map, hbase]

theorem Fed.settled (hquiet : ∀ p ∈ ps, ∀ c ∈ p.conditions, ∀ q, c.asks? = some q → ¬ Gives ps q)
    (hf : h.Fed ps u) : Settled u (h.step (.update u)) := by
  rw [Settled, updated_active, upcoming_eq (updated_yields hf.yields), upcoming_eq hf.yields, updated_evaluator,
    ActiveSet.collect_congr (hf.agree hps) (fun p hp => (hps p hp).conditions) hquiet]

end Host

/-- An update of what is settled reloads and does nothing else. -/
theorem Settled.reloads (hs : Settled u h) : ∃ t, h.reply (.update u) = .updated t ∧ h.report u = t.report ∧
    t.before = h.engine.activeEffects u ∧ t.after = h.engine.activeEffects u ∧ t.report.changed = false ∧
    t.calls.map Call.target = (h.engine.activeEffects u).members.map (.reload, ·) := by
  have hreport : h.report u =
      Transition.report ⟨h.engine.activeEffects u, h.upcoming u, (h.engine.performed (h.subject u)).1⟩ := by
    rw [Host.report, Engine.update_value, Engine.transition_value]
    rfl
  have hcalls : (h.engine.performed (h.subject u)).1.map Call.target =
      Lifecycle.plan (h.engine.activeEffects u) (h.upcoming u) := Engine.performed_targets ..
  have hnone : ((h.engine.activeEffects u).diff (h.engine.activeEffects u)).members = [] :=
    EffectSet.diff_eq_nil fun _ hi => hi
  refine ⟨_, h.reply_update u, hreport, rfl, hs, hreport ▸ hs.unchanged, ?_⟩
  rw [hcalls, hs, Lifecycle.plan, hnone, List.map_nil, List.map_nil, List.nil_append, List.nil_append]

/-- A subject is asked for with `ps` whatever becomes of it. Nothing is kept of it yet, and nothing has been granted
to it. -/
structure Host.Feeds (ps : List Provision) (u : Uuid) (h : Host) : Prop where
  answer : ∀ s : Subject, s.id = u → (HolderCache.ask s h.engine.cache.providers).value = ps
  inactive : h.engine.states.get? u = none
  uncached : h.engine.cache.slots.get? u = none
  ungranted : ∀ sh, (h.subject u).sheet = some sh → sh.granted = []

theorem Host.Feeds.fed (hf : h.Feeds ps u) : h.Fed ps u where
  yields := ⟨hf.answer, by simp [hf.uncached]⟩
  active := by simp [Engine.activeEffects, hf.inactive, EffectSet.empty]
  granted := by
    intro l hl
    obtain ⟨sh, hsh, rfl⟩ := Option.mem_map.mp hl
    simp [hf.ungranted sh hsh]

/-- The providers lend a subject the same holders all the time, built-in ones whose conditions, inverted or not, ask
for no permission that the effects lent give; all that is ever active is among these. Then after any history an update
leaves nothing to do for the next: it reloads what the first has stored, and enables and disables nothing. -/
theorem updates_come_to_rest (hf : h.Feeds ps u) (hps : ∀ p ∈ ps, p.Builtin)
    (hquiet : ∀ p ∈ ps, ∀ c ∈ p.conditions, ∀ q, c.asks? = some q → ¬ Gives ps q)
    {rs : List Request} (hrs : ∀ r ∈ rs, r.Still u) :
    let first := (h.after rs).step (.update u)
    let stored := first.engine.activeEffects u
    (∀ e ∈ stored.members, ∃ p ∈ ps, e ∈ p.holder.effects) ∧
      ∃ t, first.reply (.update u) = .updated t ∧ first.report u = t.report ∧ t.before = stored ∧ t.after = stored ∧
        t.report.changed = false ∧ t.calls.map Call.target = stored.members.map (.reload, ·) := by
  have hfed : (h.after rs).Fed ps u := Host.after_induction hf.fed (fun _ _ hr hfed => hfed.step hps hr) hrs
  exact ⟨(hfed.step hps (r := .update u) trivial).active, (hfed.settled hps hquiet).reloads⟩

/-- Flying, for those who are not grounded. -/
def flight : List Effect :=
  [{ giver ⟨7⟩ "fly" with
      conditions := [⟨⟨9⟩, Builtin.hasPermission, Json.emptyObject, .text "grounded", true, false, [], [], ""⟩] }]

/-- A subject that was grounded when it was first updated. -/
def groundedOnce : List Request :=
  [.change ⟨1⟩ (·.addBase "grounded"), .update ⟨1⟩, .dispatch ⟨1⟩ "join" .none,
    .change ⟨1⟩ (·.removeBase "grounded"), .rescan ⟨1⟩]

theorem updates_come_to_rest_flight :
    let ps := [Provision.of ⟨"h", flight, []⟩]
    let first := ((Host.lending flight).after groundedOnce).step (.update ⟨1⟩)
    (Host.lending flight).Feeds ps ⟨1⟩ ∧ (∀ p ∈ ps, p.Builtin) ∧
      (∀ p ∈ ps, ∀ c ∈ p.conditions, ∀ q, c.asks? = some q → ¬ Gives ps q) ∧
      (∀ r ∈ groundedOnce, r.Still ⟨1⟩) ∧
      ((((Host.lending flight).after groundedOnce).report ⟨1⟩).added.map (·.id) = [⟨7⟩] ∧
      ∃ t, first.reply (.update ⟨1⟩) = .updated t ∧ t.report.changed = false ∧
        t.calls.map Call.target = flight.map (.reload, ·)) := by
  intro ps first
  have hfeeds : (Host.lending flight).Feeds ps ⟨1⟩ :=
    ⟨fun _ _ => rfl, rfl, rfl, fun sh hsh => by
      obtain rfl := Option.some.inj hsh
      rfl⟩
  have hps : ∀ p ∈ ps, p.Builtin := by
    refine List.forall_mem_singleton.mpr ⟨?_, ?_⟩
    · exact List.forall_mem_singleton.mpr (Builtin.leaf_mem_effects.mpr (.inl rfl))
    · exact List.forall_mem_singleton.mpr (by simp [Builtin.conditions])
  have hquiet : ∀ p ∈ ps, ∀ c ∈ p.conditions, ∀ q, c.asks? = some q → ¬ Gives ps q := by
    refine List.forall_mem_singleton.mpr (List.forall_mem_singleton.mpr ?_)
    rintro q hq ⟨p, hp, e, he, hgiven⟩
    obtain rfl := List.mem_singleton.mp hp
    obtain rfl := List.mem_singleton.mp he
    have hasked : q = "grounded" := (Option.some.inj hq).symm
    have hgives : q = "fly" := (Option.some.inj hgiven).symm
    exact absurd (hasked.symm.trans hgives) (by decide)
  have hrs : ∀ r ∈ groundedOnce, r.Still ⟨1⟩ := by
    simp only [groundedOnce, List.forall_mem_cons, Request.Still, Request.SparesGrants]
    refine ⟨fun _ sh => ?_, trivial, trivial, fun _ _ => rfl, trivial, fun _ hr => absurd hr List.not_mem_nil⟩
    rw [Sheet.addBase]
    split <;> rfl
  obtain ⟨-, t, ht, -, -, -, hchanged, hcalls⟩ := updates_come_to_rest hfeeds hps hquiet hrs
  have hstored : (first.engine.activeEffects ⟨1⟩).members = flight := rfl
  exact ⟨hfeeds, hps, hquiet, hrs, rfl, t, ht, hchanged, hstored ▸ hcalls⟩

end Ability
