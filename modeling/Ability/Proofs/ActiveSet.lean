import Ability.Proofs.Condition
import Ability.Proofs.EffectSet

/-! Which effects are active. Holders contribute sets of effects; each set that is not empty is recorded once,
with the last holder that contributes it. So an identifier is in the flattened set of some holders if and only
if one of them has an effect of that identifier, and its own conditions and the effect's are met. -/

namespace Ability

variable {ev : Evaluator} {s : Subject}

namespace Holder

theorem activeOf_value (p : Provision) (es : List Effect) :
    (activeOf ev s p es).value = es.filter fun e => (e.conditionsMet ev s p).value := by
  induction es with
  | nil => rfl
  | cons e r ih =>
    rw [List.filter_cons, ← ih]
    rfl

theorem active_value (h : Holder) (p : Provision) :
    (h.active ev s p).value =
      if (h.conditionsMet ev s p).value then
        .ofList (h.effects.filter fun e => (e.conditionsMet ev s p).value)
      else .empty := by
  rw [← activeOf_value, active, Logged.bind_value]
  cases (h.conditionsMet ev s p).value <;> rfl

theorem mem_active {h : Holder} {p : Provision} {e : Effect}
    (he : e ∈ (h.active ev s p).value.members) :
    (∀ c ∈ h.conditions, c.Met ev s p) ∧ e ∈ h.effects ∧ ∀ c ∈ e.conditions, c.Met ev s p := by
  rw [active_value] at he
  split at he
  · next hm =>
    obtain ⟨hmem, hcond⟩ := List.mem_filter.mp (EffectSet.mem_of_mem_ofList he)
    exact ⟨Condition.allMet_iff.mp hm, hmem, Condition.allMet_iff.mp hcond⟩
  · simp [EffectSet.empty] at he

theorem id_mem_active {h : Holder} {p : Provision} {i : Uuid} :
    (∃ e ∈ (h.active ev s p).value.members, e.id = i) ↔
      (h.conditionsMet ev s p).value = true ∧
        ∃ e ∈ h.effects, (e.conditionsMet ev s p).value = true ∧ e.id = i := by
  rw [active_value]
  split
  · next hm => simp [EffectSet.id_mem_ofList, hm, and_assoc]
  · next hm => simp [EffectSet.empty, hm]

end Holder

/-- The effects a holder makes active in the way it is provided. -/
def Provision.contribution (p : Provision) (ev : Evaluator) (s : Subject) : EffectSet :=
  (p.holder.active ev s p).value

namespace ActiveSet

theorem collect_cons (a : ActiveSet) (p : Provision) (r : List Provision) :
    (collect ev s a (p :: r)).value = (collect ev s (a.insert (p.contribution ev s) p) r).value := rfl

/-- The entries are the sets that the holders contribute, each once and with the last holder that
contributes it. -/
structure Records (ev : Evaluator) (s : Subject) (ps : List Provision) (a : ActiveSet) : Prop where
  nonempty : ∀ x ∈ a, x.1.members ≠ []
  distinct : a.Pairwise fun x y => x.1.ids ≠ y.1.ids
  origin : ∀ x ∈ a, ∃ p ∈ ps, p.contribution ev s = x.1
  last : ∀ x ∈ a, (x.2.contribution ev s).ids = x.1.ids ∧
    ∃ before after, ps = before ++ x.2 :: after ∧ ∀ q ∈ after, (q.contribution ev s).ids ≠ x.1.ids
  complete : ∀ p ∈ ps, (p.contribution ev s).members ≠ [] → ∃ x ∈ a, x.1.ids = (p.contribution ev s).ids

namespace Records

variable {ps : List Provision} {a : ActiveSet} {p : Provision}

theorem nil : Records ev s [] [] :=
  ⟨by simp, .nil, by simp, by simp, by simp⟩

theorem origin_concat {x : EffectSet × Provision} (hr : Records ev s ps a) (hx : x ∈ a) (p : Provision) :
    ∃ q ∈ ps ++ [p], q.contribution ev s = x.1 := by
  obtain ⟨q, hq, hqx⟩ := hr.origin x hx
  exact ⟨q, List.mem_append_left _ hq, hqx⟩

/-- A further holder leaves an entry alone whose set it does not contribute. -/
theorem last_concat {x : EffectSet × Provision} (hr : Records ev s ps a) (hx : x ∈ a)
    (hp : (p.contribution ev s).ids ≠ x.1.ids) :
    (x.2.contribution ev s).ids = x.1.ids ∧
      ∃ before after, ps ++ [p] = before ++ x.2 :: after ∧
        ∀ q ∈ after, (q.contribution ev s).ids ≠ x.1.ids := by
  obtain ⟨hids, before, after, hsplit, hafter⟩ := hr.last x hx
  refine ⟨hids, before, after ++ [p], ?_, ?_⟩
  · rw [hsplit, List.append_assoc, List.cons_append]
  · intro q hq
    rcases List.mem_append.mp hq with hq | hq
    · exact hafter q hq
    · rw [List.mem_singleton.mp hq]
      exact hp

theorem complete_concat {b : ActiveSet} (hr : Records ev s ps a)
    (hold : ∀ x ∈ a, ∃ y ∈ b, y.1.ids = x.1.ids)
    (hnew : (p.contribution ev s).members ≠ [] → ∃ y ∈ b, y.1.ids = (p.contribution ev s).ids) :
    ∀ q ∈ ps ++ [p], (q.contribution ev s).members ≠ [] →
      ∃ y ∈ b, y.1.ids = (q.contribution ev s).ids := by
  intro q hq hne
  rcases List.mem_append.mp hq with hq | hq
  · obtain ⟨x, hx, hids⟩ := hr.complete q hq hne
    obtain ⟨y, hy, hyx⟩ := hold x hx
    exact ⟨y, hy, hyx.trans hids⟩
  · obtain rfl : q = p := List.mem_singleton.mp hq
    exact hnew hne

/-- A holder that contributes nothing. -/
theorem skip (hr : Records ev s ps a) (hp : (p.contribution ev s).members = []) :
    Records ev s (ps ++ [p]) a where
  nonempty := hr.nonempty
  distinct := hr.distinct
  origin x hx := hr.origin_concat hx p
  last x hx := by
    refine hr.last_concat hx fun heq => hr.nonempty x hx ?_
    rwa [← EffectSet.ids_eq_nil, ← heq, EffectSet.ids_eq_nil]
  complete := hr.complete_concat (fun x hx => ⟨x, hx, rfl⟩) fun hne => absurd hp hne

/-- A holder that contributes a set that is recorded already. -/
theorem replace (hr : Records ev s ps a) (hany : a.any (·.1.same (p.contribution ev s)) = true) :
    Records ev s (ps ++ [p])
      (a.map fun e => if e.1.same (p.contribution ev s) then (e.1, p) else e) := by
  have hkey : ∀ y : EffectSet × Provision,
      (if y.1.same (p.contribution ev s) then (y.1, p) else y).1 = y.1 := by
    intro y
    split <;> rfl
  refine ⟨?_, ?_, ?_, ?_, ?_⟩
  · intro x hx
    obtain ⟨y, hy, rfl⟩ := List.mem_map.mp hx
    rw [hkey]
    exact hr.nonempty y hy
  · rw [List.pairwise_map]
    refine hr.distinct.imp ?_
    intro x y hxy
    rw [hkey, hkey]
    exact hxy
  · intro x hx
    obtain ⟨y, hy, rfl⟩ := List.mem_map.mp hx
    rw [hkey]
    exact hr.origin_concat hy p
  · intro x hx
    obtain ⟨y, hy, rfl⟩ := List.mem_map.mp hx
    split
    · next hsame => exact ⟨(EffectSet.same_iff.mp hsame).symm, ps, [], rfl, by simp⟩
    · next hsame => exact hr.last_concat hy fun heq => hsame (EffectSet.same_iff.mpr heq.symm)
  · have hold : ∀ x ∈ a, ∃ y ∈ a.map fun e => if e.1.same (p.contribution ev s) then (e.1, p) else e,
        y.1.ids = x.1.ids := by
      intro x hx
      refine ⟨_, List.mem_map_of_mem hx, ?_⟩
      rw [hkey]
    refine hr.complete_concat hold fun _ => ?_
    obtain ⟨x, hx, hsame⟩ := List.any_eq_true.mp hany
    obtain ⟨y, hy, hyx⟩ := hold x hx
    exact ⟨y, hy, hyx.trans (EffectSet.same_iff.mp hsame)⟩

theorem append (hr : Records ev s ps a) (hp : (p.contribution ev s).members ≠ [])
    (hnew : ∀ x ∈ a, x.1.ids ≠ (p.contribution ev s).ids) :
    Records ev s (ps ++ [p]) (a ++ [(p.contribution ev s, p)]) := by
  refine ⟨?_, ?_, ?_, ?_, ?_⟩
  · intro x hx
    rcases List.mem_append.mp hx with hx | hx
    · exact hr.nonempty x hx
    · rw [List.mem_singleton.mp hx]
      exact hp
  · rw [List.pairwise_append]
    refine ⟨hr.distinct, List.pairwise_singleton .., ?_⟩
    intro x hx y hy
    rw [List.mem_singleton.mp hy]
    exact hnew x hx
  · intro x hx
    rcases List.mem_append.mp hx with hx | hx
    · exact hr.origin_concat hx p
    · rw [List.mem_singleton.mp hx]
      exact ⟨p, List.mem_append_right _ (List.mem_singleton.mpr rfl), rfl⟩
  · intro x hx
    rcases List.mem_append.mp hx with hx | hx
    · exact hr.last_concat hx (hnew x hx).symm
    · rw [List.mem_singleton.mp hx]
      exact ⟨rfl, ps, [], rfl, by simp⟩
  · refine hr.complete_concat (fun x hx => ⟨x, List.mem_append_left _ hx, rfl⟩) fun _ => ?_
    exact ⟨_, List.mem_append_right _ (List.mem_singleton.mpr rfl), rfl⟩

theorem insert (hr : Records ev s ps a) (p : Provision) :
    Records ev s (ps ++ [p]) (a.insert (p.contribution ev s) p) := by
  unfold ActiveSet.insert
  split
  · next hempty => exact hr.skip (by simpa [EffectSet.isEmpty] using hempty)
  next hempty =>
  split
  · next hany => exact hr.replace hany
  · next hany =>
    refine hr.append (by simpa [EffectSet.isEmpty] using hempty) fun x hx heq => ?_
    exact hany (List.any_eq_true.mpr ⟨x, hx, EffectSet.same_iff.mpr heq⟩)

theorem collect (hr : Records ev s ps a) (qs : List Provision) :
    Records ev s (ps ++ qs) (ActiveSet.collect ev s a qs).value := by
  induction qs generalizing ps a with
  | nil =>
    rw [List.append_nil]
    exact hr
  | cons q qs ih =>
    rw [collect_cons, List.append_cons]
    exact ih (hr.insert q)

end Records

theorem collect_records (ps : List Provision) : Records ev s ps (collect ev s [] ps).value :=
  Records.nil.collect ps

theorem id_mem_flatten_iff {a : ActiveSet} {i : Uuid} :
    (∃ e ∈ a.flatten.members, e.id = i) ↔ ∃ x ∈ a, ∃ e ∈ x.1.members, e.id = i := by
  simp only [flatten, EffectSet.id_mem_ofList, List.mem_flatMap]
  constructor
  · rintro ⟨e, ⟨x, hx, he⟩, hi⟩
    exact ⟨x, hx, e, he, hi⟩
  · rintro ⟨x, hx, e, he, hi⟩
    exact ⟨e, ⟨x, hx, he⟩, hi⟩

theorem mem_flatten {ps : List Provision} {e : Effect}
    (he : e ∈ (collect ev s [] ps).value.flatten.members) :
    ∃ p ∈ ps, (∀ c ∈ p.holder.conditions, c.Met ev s p) ∧ e ∈ p.holder.effects ∧
      ∀ c ∈ e.conditions, c.Met ev s p := by
  obtain ⟨x, hx, hex⟩ := List.mem_flatMap.mp (EffectSet.mem_of_mem_ofList he)
  obtain ⟨p, hp, hpx⟩ := (collect_records ps).origin x hx
  rw [← hpx] at hex
  exact ⟨p, hp, Holder.mem_active hex⟩

/-- An identifier is active if some holder whose conditions are met has an effect of that identifier
whose conditions are met. -/
theorem id_mem_flatten {ps : List Provision} {i : Uuid} :
    (∃ e ∈ (collect ev s [] ps).value.flatten.members, e.id = i) ↔
      ∃ p ∈ ps, (p.holder.conditionsMet ev s p).value = true ∧
        ∃ e ∈ p.holder.effects, (e.conditionsMet ev s p).value = true ∧ e.id = i := by
  have hr : Records ev s ps (collect ev s [] ps).value := collect_records ps
  have hcontribution : (∃ x ∈ (collect ev s [] ps).value, ∃ e ∈ x.1.members, e.id = i) ↔
      ∃ p ∈ ps, ∃ e ∈ (p.contribution ev s).members, e.id = i := by
    constructor
    · rintro ⟨x, hx, hi⟩
      obtain ⟨p, hp, hpx⟩ := hr.origin x hx
      exact ⟨p, hp, hpx ▸ hi⟩
    · rintro ⟨p, hp, e, he, hi⟩
      obtain ⟨x, hx, hids⟩ := hr.complete p hp (List.ne_nil_of_mem he)
      have hmem : i ∈ x.1.ids := by
        rw [hids]
        exact List.mem_map.mpr ⟨e, he, hi⟩
      exact ⟨x, hx, List.mem_map.mp hmem⟩
  rw [id_mem_flatten_iff, hcontribution]
  simp only [Provision.contribution, Holder.id_mem_active]

end ActiveSet

end Ability
