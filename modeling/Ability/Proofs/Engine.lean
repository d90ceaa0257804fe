import Ability.Engine

/-! What the operations of an engine leave behind. A resolution touches the cache and the counters only, a
dispatch the counters only, and an update is its resolution followed by the calls of its plan. -/

namespace Ability

namespace Engine

theorem resolve_of_kept {g : Engine} {s : Subject} {r : Resolution} (h : g.cache.kept? s.id = some r) :
    (resolve s g).value = (r, { g with tally := g.tally.count .cacheHit }) := by
  simp only [resolve, bind, StateT.bind, get, getThe, MonadStateOf.get, StateT.get, pure, h]
  rfl

theorem resolve_of_not_kept {g : Engine} {s : Subject} (h : g.cache.kept? s.id = none) :
    (resolve s g).value =
      let p := g.cache.keep s.id (g.cache.consult s).value
      (p.1, { g with cache := p.2, tally := g.tally.count .cacheMiss }) := by
  simp only [resolve, bind, StateT.bind, get, getThe, MonadStateOf.get, StateT.get, pure, h]
  rfl

theorem resolve_frame (s : Subject) (g : Engine) :
    (resolve s g).value.2 =
      { g with cache := (resolve s g).value.2.cache, tally := (resolve s g).value.2.tally } := by
  cases h : g.cache.kept? s.id with
  | some r => rw [resolve_of_kept h]
  | none => rw [resolve_of_not_kept h]

theorem computeActive_value (s : Subject) (g : Engine) :
    (computeActive s g).value =
      ((ActiveSet.collect (resolve s g).value.2.evaluator s [] (resolve s g).value.1.provisions).value,
        (resolve s g).value.2) := rfl

theorem resolve_states (s : Subject) (g : Engine) : (resolve s g).value.2.states = g.states := by
  rw [resolve_frame]

theorem resolve_evaluator (s : Subject) (g : Engine) :
    (resolve s g).value.2.evaluator = g.evaluator := by
  rw [resolve_frame]

theorem resolve_providers (s : Subject) (g : Engine) :
    (resolve s g).value.2.cache.providers = g.cache.providers := by
  cases h : g.cache.kept? s.id with
  | some r => rw [resolve_of_kept h]
  | none =>
    rw [resolve_of_not_kept h]
    rfl

def activeNow (g : Engine) (s : Subject) : ActiveSet := (computeActive s g).value.1

theorem activeNow_eq (g : Engine) (s : Subject) :
    g.activeNow s = (ActiveSet.collect g.evaluator s [] (resolve s g).value.1.provisions).value := by
  rw [activeNow, computeActive_value, resolve_evaluator]

/-- The callbacks of an update, and the scene they leave. -/
def performed (g : Engine) (s : Subject) : List Call × Scene :=
  (Lifecycle.perform g.evaluator (Lifecycle.plan (g.activeEffects s.id) (g.activeNow s).flatten)
    ⟨s, (resolve s g).value.2.tally⟩).value

/-- An update computes the active effects, keeps them, and performs its plan. -/
theorem transition_value (s : Subject) (g : Engine) :
    (transition s g).value =
      ((⟨g.activeEffects s.id, (g.activeNow s).flatten, (g.performed s).1⟩, (g.performed s).2.subject),
        { (resolve s g).value.2 with
          states := g.states.insert s.id ⟨g.activeNow s, (g.activeNow s).flatten⟩
          tally := (g.performed s).2.tally }) := by
  have h : (transition s g).value =
      let g₁ := (resolve s g).value.2
      let p := (Lifecycle.perform g₁.evaluator
        (Lifecycle.plan (g₁.activeEffects s.id) (g.activeNow s).flatten) ⟨s, g₁.tally⟩).value
      ((⟨g₁.activeEffects s.id, (g.activeNow s).flatten, p.1⟩, p.2.subject),
        { g₁ with
          states := g₁.states.insert s.id ⟨g.activeNow s, (g.activeNow s).flatten⟩
          tally := p.2.tally }) := rfl
  have hb : (resolve s g).value.2.activeEffects s.id = g.activeEffects s.id := by
    simp only [activeEffects, resolve_states]
  simpa only [performed, hb, resolve_states, resolve_evaluator] using h

theorem update_value (s : Subject) (g : Engine) :
    (update s g).value =
      (((transition s g).value.1.1.report, (transition s g).value.1.2), (transition s g).value.2) := rfl

theorem dispatch_frame (s : Subject) (trigger : String) (data : TriggerData) (g : Engine) :
    (dispatch s trigger data g).value.2 =
      { g with tally := (dispatch s trigger data g).value.2.tally } := rfl

end Engine

end Ability
