import Ability.Proofs.Permission.Runs

/-! A round of updates: subjects are updated one after the other. To each of them is granted what its own update
enables. What is active already under an identifier is not granted again to another subject that bears it. -/

namespace Ability

namespace Engine

/-- Updates subjects one after the other. -/
def updateEach : List Subject → EngineM (List (UpdateReport × Subject))
  | [] => return []
  | s :: r => do
    let x ← update s
    return x :: (← updateEach r)

theorem updateEach_nil (g : Engine) : (updateEach [] g).value = ([], g) := rfl

theorem updateEach_cons (s : Subject) (r : List Subject) (g : Engine) :
    (updateEach (s :: r) g).value =
      let x := (update s g).value
      let y := (updateEach r x.2).value
      (x.1 :: y.1, y.2) := rfl

/-- Known effects only are active, and nothing else can come in, whoever the subject is. -/
structure Knows (known : Effect → Prop) (g : Engine) : Prop where
  supplied : ∀ u, g.cache.Supplies known u
  active : ∀ u, ∀ e ∈ (g.activeEffects u).members, known e

variable {known : Effect → Prop} {g : Engine} {s : Subject}

theorem update_activeEffects (s : Subject) (g : Engine) (u : Uuid) :
    ((update s g).value.2).activeEffects u =
      if s.id = u then (g.activeNow s).flatten else g.activeEffects u := by
  rw [update_value, transition_value]
  simp only [activeEffects, Table.get?_insert]
  by_cases hu : s.id = u <;> simp [hu]

theorem Knows.update (hg : g.Knows known) (s : Subject) : ((update s g).value.2).Knows known where
  supplied u := by
    rw [update_value, transition_value]
    exact (hg.supplied u).resolve s
  active u e he := by
    rw [update_activeEffects] at he
    split at he
    · exact (hg.supplied s.id).activeNow rfl e he
    · exact hg.active u e he

theorem update_added (s : Subject) (g : Engine) :
    (update s g).value.1.1.added = ((g.activeNow s).flatten.diff (g.activeEffects s.id)).members := by
  rw [update_value, transition_value]
  rfl

theorem update_subject (hg : g.Knows Effect.Builtin) (s : Subject) :
    (update s g).value.1.2 = s.modify fun sh =>
      (Lifecycle.plan (g.activeEffects s.id) (g.activeNow s).flatten).foldl Sheet.settle sh := by
  rw [update_value, transition_value]
  exact performed_subject (hg.active s.id) ((hg.supplied s.id).activeNow rfl)

/-- To a subject that has been granted nothing, an update grants what the effects give that it enables. -/
theorem update_hasPermission (hg : g.Knows Effect.Builtin) {sh : Sheet} (hs : s.sheet = some sh)
    (hsh : sh.granted = []) (p : String) :
    (update s g).value.1.2.hasPermission p = true ↔
      p ∈ sh.base ∨ ∃ e ∈ (update s g).value.1.1.added, e.permission? = some p := by
  let before := g.activeEffects s.id
  let after := (g.activeNow s).flatten
  let settled := (Lifecycle.plan before after).foldl Sheet.settle sh
  have hbase : settled.base = sh.base := Sheet.foldl_settle_keeps (·.base) Sheet.settle_base _ sh
  have hgrants : settled.Grants (after.diff before) := by
    intro i p
    rw [Sheet.mem_granted_plan]
    simp [hsh]
  rw [update_subject hg, update_added, hasPermission_iff (congrArg (Option.map _) hs) hgrants, hbase]

theorem updateEach_append (ss ts : List Subject) (g : Engine) :
    (updateEach (ss ++ ts) g).value =
      let x := (updateEach ss g).value
      let y := (updateEach ts x.2).value
      (x.1 ++ y.1, y.2) := by
  induction ss generalizing g with
  | nil => rfl
  | cons s ss ih => simp only [List.cons_append, updateEach_cons, ih]

theorem updateEach_length (ss : List Subject) (g : Engine) : (updateEach ss g).value.1.length = ss.length := by
  induction ss generalizing g with
  | nil => rfl
  | cons s ss ih => rw [updateEach_cons, List.length_cons, List.length_cons, ih]

theorem Knows.updateEach (hg : g.Knows known) (ss : List Subject) : ((updateEach ss g).value.2).Knows known := by
  induction ss generalizing g with
  | nil => exact hg
  | cons s ss ih => exact ih (hg.update s)

/-- Updates of others leave alone what is active under an identifier. -/
theorem updateEach_activeEffects {ss : List Subject} {u : Uuid} (hss : ∀ s ∈ ss, s.id ≠ u) (g : Engine) :
    ((updateEach ss g).value.2).activeEffects u = g.activeEffects u := by
  induction ss generalizing g with
  | nil => rfl
  | cons s ss ih =>
    obtain ⟨hs, hss⟩ := List.forall_mem_cons.mp hss
    rw [updateEach_cons]
    exact (ih hss _).trans ((update_activeEffects s g u).trans (if_neg hs))

/-- In a round of updates every subject is granted what its own update enables. That is all that is active under its
identifier in the end, if nothing was active before and no other subject bears it. -/
theorem updateEach_granted (hg : g.Knows Effect.Builtin) (ss ts : List Subject) {sh : Sheet} (hs : s.sheet = some sh)
    (hsh : sh.granted = []) : ∃ xs x ys,
    (updateEach (ss ++ s :: ts) g).value.1 = xs ++ x :: ys ∧ xs.length = ss.length ∧ ys.length = ts.length ∧
      x.2.id = s.id ∧ x.2.name = s.name ∧
      (∀ p, x.2.hasPermission p = true ↔ p ∈ sh.base ∨ ∃ e ∈ x.1.added, e.permission? = some p) ∧
      (g.activeEffects s.id = .empty → (∀ t ∈ ss ++ ts, t.id ≠ s.id) →
        x.1.added = (((updateEach (ss ++ s :: ts) g).value.2).activeEffects s.id).members) := by
  let g₁ := (updateEach ss g).value.2
  let g₂ := (update s g₁).value.2
  have hg₁ : g₁.Knows Effect.Builtin := hg.updateEach ss
  have hvalue : (updateEach (ss ++ s :: ts) g).value =
      ((updateEach ss g).value.1 ++ (update s g₁).value.1 :: (updateEach ts g₂).value.1,
        (updateEach ts g₂).value.2) := by
    rw [updateEach_append]
    rfl
  refine ⟨_, _, _, congrArg Prod.fst hvalue, updateEach_length .., updateEach_length .., ?_, ?_,
    update_hasPermission hg₁ hs hsh, fun hempty hothers => ?_⟩
  · rw [update_subject hg₁]
    rfl
  · rw [update_subject hg₁]
    rfl
  · obtain ⟨hss, hts⟩ := List.forall_mem_append.mp hothers
    have hbefore : g₁.activeEffects s.id = .empty := (updateEach_activeEffects hss g).trans hempty
    have hafter : (updateEach ts g₂).value.2.activeEffects s.id = (g₁.activeNow s).flatten :=
      (updateEach_activeEffects hts g₂).trans ((update_activeEffects s g₁ s.id).trans (if_pos rfl))
    rw [hvalue, hafter, update_added, hbefore, EffectSet.diff_empty]

/-- Whatever is asked or kept for an identifier makes one effect active. -/
def Offers (e : Effect) (u : Uuid) (g : Engine) : Prop :=
  g.cache.Yields (fun ps => ∀ ev s, (ActiveSet.collect ev s [] ps).value.flatten = .ofList [e]) u

variable {e : Effect}

theorem Offers.activeNow (hg : g.Offers e s.id) : (g.activeNow s).flatten = .ofList [e] := by
  rw [activeNow_eq]
  exact hg.provisions rfl _ _

theorem Offers.update {u : Uuid} (hg : g.Offers e u) (s : Subject) : ((update s g).value.2).Offers e u := by
  rw [update_value, transition_value]
  exact hg.resolve s

theorem Offers.active (hg : g.Offers e s.id) : ((Engine.update s g).value.2).activeEffects s.id = .ofList [e] :=
  (update_activeEffects s g s.id).trans ((if_pos rfl).trans hg.activeNow)

/-- What is offered is active in the end under the identifier of the first, if no other subject bears it. -/
theorem Offers.active_first {ss : List Subject} (hg : g.Offers e s.id) (hss : ∀ t ∈ ss, t.id ≠ s.id) :
    ((updateEach (s :: ss) g).value.2).activeEffects s.id = .ofList [e] := by
  rw [updateEach_cons]
  exact (updateEach_activeEffects hss _).trans hg.active

/-- What is offered is granted to a subject for whom it was not active. -/
theorem Offers.granted {sh : Sheet} {p : String} (hg : g.Offers e s.id) (hk : g.Knows Effect.Builtin)
    (hs : s.sheet = some sh) (hsh : sh.granted = []) (he : e.permission? = some p)
    (hempty : g.activeEffects s.id = .empty) : (Engine.update s g).value.1.2.hasPermission p = true := by
  rw [update_hasPermission hk hs hsh, update_added, hg.activeNow, hempty, EffectSet.diff_empty]
  exact .inr ⟨e, List.mem_cons_self .., he⟩

/-- It is not granted to a subject for whom it was active. -/
theorem Offers.not_granted {sh : Sheet} {p : String} (hg : g.Offers e s.id) (hk : g.Knows Effect.Builtin)
    (hs : s.sheet = some sh) (hsh : sh.granted = []) (hp : p ∉ sh.base)
    (hactive : g.activeEffects s.id = .ofList [e]) : (Engine.update s g).value.1.2.hasPermission p = false := by
  have hnone : (Engine.update s g).value.1.1.added = [] := by
    rw [update_added, hg.activeNow, hactive]
    exact List.filter_eq_nil_iff.mpr fun f hf => by simpa [EffectSet.contains] using ⟨f, hf, rfl⟩
  rw [← Bool.not_eq_true, update_hasPermission hk hs hsh, hnone]
  simp [hp]

end Engine

end Ability
