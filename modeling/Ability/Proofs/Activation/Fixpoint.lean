import Ability.Proofs.Activation.Monotone
import Ability.Proofs.HolderCache
import Ability.Proofs.Host
import Ability.Proofs.Permission.Callbacks
import Mathlib.Data.Finset.Card
import Mathlib.Data.Finset.Filter

/-! Updates of a subject to whom the same holders are lent again and again. With plain conditions an update
grants and takes nothing back, so what is active stays active. An update that gives no permission leaves the
subject as it was, and then none of the later ones has anything to do; since each effect becomes active only
once, that is so after as many updates as there are effects that give permissions, and one. -/

namespace Ability

variable {ps : List Provision} {u : Uuid} {h : Host}

theorem EffectSet.diff_eq_nil {s t : EffectSet} (hst : ∀ i, s.contains i = true → t.contains i = true) :
    (s.diff t).members = [] := by
  rw [List.eq_nil_iff_forall_not_mem]
  intro e he
  obtain ⟨hs, ht⟩ := mem_diff.mp he
  obtain ⟨x, hx, hxe⟩ := contains_iff.mp (hst e.id (contains_iff.mpr ⟨e, hs, rfl⟩))
  exact ht x hx hxe

theorem Lifecycle.plan_eq_of_subset {before after : EffectSet}
    (hsub : ∀ i, before.contains i = true → after.contains i = true) :
    plan before after =
      (after.diff before).members.map (.enable, ·) ++ after.members.map (.reload, ·) := by
  rw [plan, EffectSet.diff_eq_nil hsub, List.map_nil, List.nil_append]

namespace Host

/-- What an update of a subject would make active. -/
def upcoming (h : Host) (u : Uuid) : EffectSet := (h.engine.activeNow (h.subject u)).flatten

def report (h : Host) (u : Uuid) : UpdateReport := (Engine.update (h.subject u) h.engine).value.1.1

/-- The host after so many updates of a subject. -/
def updated (h : Host) (u : Uuid) (k : Nat) : Host := h.after (List.replicate k (.update u))

theorem updated_succ (h : Host) (u : Uuid) (k : Nat) :
    h.updated u (k + 1) = (h.updated u k).step (.update u) := by
  rw [updated, List.replicate_succ', after_append]
  rfl

theorem report_added (h : Host) (u : Uuid) :
    (h.report u).added = ((h.upcoming u).diff (h.engine.activeEffects u)).members := by
  rw [report, Engine.update_value, Engine.transition_value]
  rfl

theorem report_removed (h : Host) (u : Uuid) :
    (h.report u).removed = ((h.engine.activeEffects u).diff (h.upcoming u)).members := by
  rw [report, Engine.update_value, Engine.transition_value]
  rfl

theorem updated_active (h : Host) (u : Uuid) :
    (h.step (.update u)).engine.activeEffects u = h.upcoming u := by
  rw [step_activeEffects]
  exact if_pos rfl

theorem updated_evaluator (h : Host) (u : Uuid) :
    (h.step (.update u)).engine.evaluator = h.engine.evaluator := by
  change ((Engine.transition (h.subject u) h.engine).value.2).evaluator = _
  rw [Engine.transition_value]
  exact Engine.resolve_evaluator ..

end Host

/-- Everything active is built in, and an update would leave all of it active, with the holders `ps` that the
subject is lent time and again. -/
structure Climbing (ps : List Provision) (u : Uuid) (h : Host) : Prop where
  yields : h.engine.cache.Yields (· = ps) u
  builtin : ∀ e ∈ (h.engine.activeEffects u).members, e.Builtin
  lasting : ∀ i, (h.engine.activeEffects u).contains i = true → (h.upcoming u).contains i = true

/-- What an update would make active is what already is. -/
def Settled (u : Uuid) (h : Host) : Prop := h.upcoming u = h.engine.activeEffects u

theorem upcoming_eq (hc : h.engine.cache.Yields (· = ps) u) :
    h.upcoming u = (ActiveSet.collect h.engine.evaluator (h.subject u) [] ps).value.flatten := by
  rw [Host.upcoming, Engine.activeNow_eq, hc.provisions (h.subject_id u)]

theorem upcoming_mem (hc : h.engine.cache.Yields (· = ps) u) {e : Effect}
    (he : e ∈ (h.upcoming u).members) : ∃ p ∈ ps, e ∈ p.holder.effects := by
  rw [upcoming_eq hc] at he
  obtain ⟨p, hp, -, hep, -⟩ := ActiveSet.mem_flatten he
  exact ⟨p, hp, hep⟩

theorem upcoming_builtin (hps : ∀ p ∈ ps, p.Plain) (hc : h.engine.cache.Yields (· = ps) u) :
    ∀ e ∈ (h.upcoming u).members, e.Builtin := by
  intro e he
  obtain ⟨p, hp, hep⟩ := upcoming_mem hc he
  exact (hps p hp).builtin e hep

theorem updated_yields (hc : h.engine.cache.Yields (· = ps) u) :
    (h.step (.update u)).engine.cache.Yields (· = ps) u := by
  rw [Host.step_cache]
  exact hc.resolve (h.subject u)

namespace Climbing

/-- Callbacks of an update settle the sheet, and switch nothing off. -/
theorem updated_subject (hps : ∀ p ∈ ps, p.Plain) (hc : Climbing ps u h) :
    (h.step (.update u)).subject u = (h.subject u).modify fun sh =>
      (((h.upcoming u).diff (h.engine.activeEffects u)).members.map (Phase.enable, ·) ++
        (h.upcoming u).members.map (Phase.reload, ·)).foldl Sheet.settle sh := by
  have hs := h.step_subject (.update u) u
  simp only [if_true] at hs
  rw [Engine.performed_subject hc.builtin (upcoming_builtin hps hc.yields)] at hs
  rw [hs, Host.subject_id, ← Lifecycle.plan_eq_of_subset hc.lasting]
  rfl

theorem below_updated (hps : ∀ p ∈ ps, p.Plain) (hc : Climbing ps u h) :
    (h.subject u).Below ((h.step (.update u)).subject u) := by
  rw [hc.updated_subject hps]
  refine Subject.below_settle ?_ _
  intro x hx
  rcases List.mem_append.mp hx with hx | hx
  · obtain ⟨e, -, rfl⟩ := List.mem_map.mp hx
    nofun
  · obtain ⟨e, -, rfl⟩ := List.mem_map.mp hx
    nofun

theorem step (hps : ∀ p ∈ ps, p.Plain) (hc : Climbing ps u h) :
    Climbing ps u (h.step (.update u)) where
  yields := updated_yields hc.yields
  builtin := by
    rw [Host.updated_active]
    exact upcoming_builtin hps hc.yields
  lasting i hi := by
    rw [Host.updated_active, upcoming_eq hc.yields, EffectSet.contains_iff] at hi
    rw [upcoming_eq (updated_yields hc.yields), Host.updated_evaluator, EffectSet.contains_iff]
    exact ActiveSet.id_mem_flatten_mono hps (hc.below_updated hps) hi

/-- An update that gives no permission changes nothing that a condition could ask for. -/
theorem settled_step (hps : ∀ p ∈ ps, p.Plain) (hc : Climbing ps u h)
    (hadded : ∀ e ∈ (h.report u).added, e.permission? = none) : Settled u (h.step (.update u)) := by
  rw [Host.report_added] at hadded
  -- enabling what gives no permission leaves the sheet alone, and so does reloading
  have hsame : (h.step (.update u)).subject u = h.subject u := by
    rw [hc.updated_subject hps]
    refine (congrArg _ (funext (Sheet.foldl_settle_self ?_))).trans (h.subject u).modify_self
    intro x hx
    rcases List.mem_append.mp hx with hx | hx
    · obtain ⟨e, he, rfl⟩ := List.mem_map.mp hx
      exact .inr (hadded e he)
    · obtain ⟨e, -, rfl⟩ := List.mem_map.mp hx
      exact .inl rfl
  rw [Settled, Host.updated_active, upcoming_eq (updated_yields hc.yields), upcoming_eq hc.yields,
    Host.updated_evaluator, hsame]

end Climbing

theorem Settled.report (hs : Settled u h) : (h.report u).added = [] ∧ (h.report u).removed = [] := by
  rw [Host.report_added, Host.report_removed, hs]
  exact ⟨EffectSet.diff_eq_nil fun _ hi => hi, EffectSet.diff_eq_nil fun _ hi => hi⟩

theorem Settled.step (hps : ∀ p ∈ ps, p.Plain) (hc : Climbing ps u h) (hs : Settled u h) :
    Settled u (h.step (.update u)) := by
  refine hc.settled_step hps ?_
  rw [hs.report.1]
  exact fun e he => absurd he List.not_mem_nil

theorem Settled.unchanged (hs : Settled u h) : (h.report u).changed = false := by
  rw [UpdateReport.changed, hs.report.1, hs.report.2]
  rfl

/-- The identifiers of the effects that give permissions. -/
def gives (ps : List Provision) : Finset Uuid :=
  (((ps.flatMap (·.holder.effects)).filter (·.permission?.isSome)).map (·.id)).toFinset

theorem mem_gives {i : Uuid} :
    i ∈ gives ps ↔ ∃ p ∈ ps, ∃ e ∈ p.holder.effects, e.permission?.isSome ∧ e.id = i := by
  simp only [gives, List.mem_toFinset, List.mem_map, List.mem_filter, List.mem_flatMap]
  constructor
  · rintro ⟨e, ⟨⟨p, hp, he⟩, hpe⟩, rfl⟩
    exact ⟨p, hp, e, he, hpe, rfl⟩
  · rintro ⟨p, hp, e, he, hpe, rfl⟩
    exact ⟨e, ⟨⟨p, hp, he⟩, hpe⟩, rfl⟩

/-- Those of them that are active. -/
def given (ps : List Provision) (u : Uuid) (h : Host) : Finset Uuid :=
  (gives ps).filter fun i => (h.engine.activeEffects u).contains i = true

theorem given_card_le (ps : List Provision) (u : Uuid) (h : Host) :
    (given ps u h).card ≤ (gives ps).card :=
  Finset.card_filter_le _ _

/-- An update that leaves more for the next one has given a permission that was not given before. -/
theorem Climbing.settled_or_given (hps : ∀ p ∈ ps, p.Plain) (hc : Climbing ps u h) :
    Settled u (h.step (.update u)) ∨
      (given ps u h).card < (given ps u (h.step (.update u))).card := by
  by_cases hadded : ∀ e ∈ (h.report u).added, e.permission? = none
  · exact .inl (hc.settled_step hps hadded)
  right
  push Not at hadded
  obtain ⟨e, he, hp⟩ := hadded
  -- the identifier of `e` was not active before the update, and is from now on
  rw [Host.report_added, EffectSet.mem_diff] at he
  obtain ⟨hnew, hold⟩ := he
  obtain ⟨p, hpps, hpe⟩ := upcoming_mem hc.yields hnew
  have hgives : e.id ∈ gives ps := mem_gives.mpr ⟨p, hpps, e, hpe, Option.isSome_iff_ne_none.mpr hp, rfl⟩
  apply Finset.card_lt_card
  rw [Finset.ssubset_iff_of_subset]
  · refine ⟨e.id, ?_, ?_⟩
    · rw [given, Finset.mem_filter, Host.updated_active]
      exact ⟨hgives, EffectSet.contains_iff.mpr ⟨e, hnew, rfl⟩⟩
    · rw [given, Finset.mem_filter, EffectSet.contains_iff]
      rintro ⟨-, x, hx, hxe⟩
      exact hold x hx hxe
  · intro i hi
    rw [given, Finset.mem_filter] at hi ⊢
    rw [Host.updated_active]
    exact ⟨hi.1, hc.lasting i hi.2⟩

section Runs

variable (hps : ∀ p ∈ ps, p.Plain) (hc : h.engine.cache.Yields (· = ps) u)
  (hu : h.engine.states.get? u = none)

include hps hc hu

theorem climbing_updated (k : Nat) : Climbing ps u (h.updated u k) := by
  induction k with
  | zero =>
    have hempty : h.engine.activeEffects u = .empty := by simp [Engine.activeEffects, hu]
    refine ⟨hc, ?_, ?_⟩
    · show ∀ e ∈ (h.engine.activeEffects u).members, e.Builtin
      rw [hempty]
      exact fun e he => absurd he List.not_mem_nil
    · show ∀ i, (h.engine.activeEffects u).contains i = true → _
      rw [hempty]
      exact fun i hi => absurd hi Bool.false_ne_true
  | succ k ih =>
    rw [Host.updated_succ]
    exact ih.step hps

theorem settled_updated {k : Nat} (hs : Settled u (h.updated u k)) {m : Nat} (hkm : k ≤ m) :
    Settled u (h.updated u m) := by
  induction hkm with
  | refl => exact hs
  | step _ ih =>
    rw [Nat.succ_eq_add_one, Host.updated_succ]
    exact ih.step hps (climbing_updated hps hc hu _)

theorem settled_or_le_given (k : Nat) :
    Settled u (h.updated u k) ∨ k ≤ (given ps u (h.updated u k)).card := by
  induction k with
  | zero => exact .inr (Nat.zero_le _)
  | succ k ih =>
    have hk := climbing_updated hps hc hu k
    rw [Host.updated_succ]
    rcases ih with hs | hle
    · exact .inl (hs.step hps hk)
    · exact (hk.settled_or_given hps).imp_right fun hlt => Nat.lt_of_le_of_lt hle hlt

theorem settled_of_lt {k : Nat} (hk : (gives ps).card < k) : Settled u (h.updated u k) := by
  rcases settled_or_le_given hps hc hu k with hs | hle
  · exact hs
  · have := given_card_le ps u (h.updated u k)
    omega

end Runs

/-- A subject that has not been updated yet is lent the same plain holders time and again. Then its updates
only ever add to what is active. After one that adds nothing that gives a permission there is no change any
more; and since each of the `n` identifiers of effects that give permissions is added only once, the update
`n + 2` and all later ones change nothing. -/
theorem activation_reaches_fixpoint (hps : ∀ p ∈ ps, p.Plain)
    (hc : h.engine.cache.Yields (· = ps) u) (hu : h.engine.states.get? u = none) :
    (∀ k i, ((h.updated u k).engine.activeEffects u).contains i = true →
      ((h.updated u (k + 1)).engine.activeEffects u).contains i = true) ∧
    (∀ k, ((h.updated u k).report u).removed = []) ∧
    (∀ k, (∀ e ∈ ((h.updated u k).report u).added, e.permission? = none) →
      ∀ m, k < m → ((h.updated u m).report u).changed = false) ∧
    (∀ k, (gives ps).card < k → ((h.updated u k).report u).changed = false) := by
  have hclimb := climbing_updated hps hc hu
  refine ⟨?_, ?_, ?_, ?_⟩
  · intro k i hi
    rw [Host.updated_succ, Host.updated_active]
    exact (hclimb k).lasting i hi
  · intro k
    rw [Host.report_removed]
    exact EffectSet.diff_eq_nil (hclimb k).lasting
  · intro k hadded m hkm
    have hs : Settled u (h.updated u (k + 1)) := by
      rw [Host.updated_succ]
      exact (hclimb k).settled_step hps hadded
    exact (settled_updated hps hc hu hs hkm).unchanged
  · intro k hk
    exact (settled_of_lt hps hc hu hk).unchanged

/-- An effect that gives a permission, and one that gives another to those who have the first. -/
def ladder : List Effect :=
  [giver ⟨7⟩ "fly",
    { giver ⟨8⟩ "swim" with
      conditions := [⟨⟨9⟩, Builtin.hasPermission, Json.emptyObject, .text "fly", false, false, [], [], ""⟩] }]

/-- Both effects become active, one update after the other, and then no update changes anything. -/
theorem activation_reaches_fixpoint_ladder :
    (∀ p ∈ [Provision.of ⟨"h", ladder, []⟩], p.Plain) ∧
      (Host.lending ladder).engine.cache.Yields (· = [.of ⟨"h", ladder, []⟩]) ⟨1⟩ ∧
      (Host.lending ladder).engine.states.get? ⟨1⟩ = none ∧
      (gives [.of ⟨"h", ladder, []⟩]).card = 2 ∧
      (((Host.lending ladder).updated ⟨1⟩ 0).report ⟨1⟩).added.map (·.id) = [⟨7⟩] ∧
      (((Host.lending ladder).updated ⟨1⟩ 1).report ⟨1⟩).added.map (·.id) = [⟨8⟩] ∧
      ∀ k, 2 < k → (((Host.lending ladder).updated ⟨1⟩ k).report ⟨1⟩).changed = false := by
  have hps : ∀ p ∈ [Provision.of ⟨"h", ladder, []⟩], p.Plain := by
    intro p hp
    obtain rfl := List.mem_singleton.mp hp
    have hgive := Builtin.leaf_mem_effects.mpr (.inl rfl)
    have hasked : Builtin.hasPermission ∈ Builtin.conditions := by simp [Builtin.conditions]
    refine ⟨?_, fun c hc => absurd hc List.not_mem_nil, ?_⟩
    · exact List.forall_mem_cons.mpr ⟨hgive, List.forall_mem_singleton.mpr hgive⟩
    · refine List.forall_mem_cons.mpr ⟨fun c hc => absurd hc List.not_mem_nil, ?_⟩
      exact List.forall_mem_singleton.mpr (List.forall_mem_singleton.mpr ⟨hasked, rfl⟩)
  have hc : (Host.lending ladder).engine.cache.Yields (· = [.of ⟨"h", ladder, []⟩]) ⟨1⟩ :=
    ⟨fun _ _ => rfl, fun r hr => by cases hr⟩
  have hcard : (gives [.of ⟨"h", ladder, []⟩]).card = 2 := rfl
  obtain ⟨-, -, -, hlast⟩ := activation_reaches_fixpoint hps hc rfl
  exact ⟨hps, hc, rfl, hcard, rfl, rfl, fun k hk => hlast k (hcard ▸ hk)⟩

end Ability
