import Ability.Proofs.Lifecycle.Runs
import Ability.Proofs.Permission.Callbacks
import Ability.Proofs.Placeholders
import Ability.Proofs.Trigger

/-! Dispatching a trigger. The effects that were active after the last update and listen are triggered one
after the other. Each of them is asked for its arguments and then for its answer, and how one of them ends has
no part in whether the next is reached. -/

namespace Ability

variable {ev : Evaluator} {o : Occurrence}

def Argument.ask (a : Argument) (site : Site) (o : Occurrence) : Run (Except EngineError Bool) :=
  Run.withDice (a.kind.check site o a.datum).run

/-- Arguments are asked in turn, up to the first that is not met. One that fails is told, and is not met. -/
inductive Gate (site : Site) (o : Occurrence) : Scene → List Argument → Logged (Bool × Scene) → Prop
  | clear (sc : Scene) : Gate site o sc [] ⟨(true, sc), []⟩
  | met {sc sc₁ sc₂ : Scene} {a : Argument} {as : List Argument} {b : Bool} {told more : List Event}
      (asked : a.ask site o sc = ⟨(.ok true, sc₁), told⟩) (others : Gate site o sc₁ as ⟨(b, sc₂), more⟩) :
      Gate site o sc (a :: as) ⟨(b, sc₂), told ++ more⟩
  | unmet {sc sc₁ : Scene} {a : Argument} {as : List Argument} {told : List Event}
      (asked : a.ask site o sc = ⟨(.ok false, sc₁), told⟩) : Gate site o sc (a :: as) ⟨(false, sc₁), told⟩
  | failed {sc sc₁ : Scene} {a : Argument} {as : List Argument} {e : EngineError} {told : List Event}
      (asked : a.ask site o sc = ⟨(.error e, sc₁), told⟩) :
      Gate site o sc (a :: as) ⟨(false, sc₁), told ++ [a.failure site e]⟩

theorem Argument.allMet_gate (site : Site) (o : Occurrence) (as : List Argument) (sc : Scene) :
    Gate site o sc as (allMet site o as sc) := by
  induction as generalizing sc with
  | nil => exact .clear sc
  | cons a r ih =>
    have hisMet : a.isMet site o = a.ask site o >>= Run.orTell (a.failure site) := a.isMet_eq site o
    rw [allMet, Run.bind_apply, hisMet, Run.bind_apply]
    rcases hask : a.ask site o sc with ⟨⟨e | _ | _, sc₁⟩, told⟩
    · have hgate : Gate site o sc (a :: r) _ := .failed hask
      simpa [Run.orTell, Run.bind_apply, Run.tell_apply, Run.pure_apply] using hgate
    · have hgate : Gate site o sc (a :: r) _ := .unmet hask
      simpa [Run.orTell, Run.pure_apply] using hgate
    · simpa [Run.orTell, Run.pure_apply] using Gate.met hask (ih sc₁)

/-- What an effect answers when its arguments are met. A chain does not fail, whatever its components do. -/
def Response.answer (ev : Evaluator) (o : Occurrence) (site : Site) : Response → Run (Except EngineError Bool)
  | .leaf kind datum => Run.withSubject (kind.trigger site o datum).run
  | .chain _ c executor => .ok <$> c.execute ev o executor

/-- An effect that was triggered: what it answered, if its arguments were met, and what was told meanwhile. -/
structure Attempt where
  effect : Effect
  answer : Option (Except EngineError Bool)
  events : List Event

def Attempt.handled (a : Attempt) : Bool :=
  match a.answer with
  | some (.ok true) => true
  | _ => false

/-- What comes of triggering one effect in a scene, and the scene it leaves. -/
inductive Tried (ev : Evaluator) (o : Occurrence) : Scene → Attempt → Scene → Prop
  | barred {sc sc₁ : Scene} {e : Effect} {told : List Event}
      (gate : Gate (e.site ev) o sc e.arguments ⟨(false, sc₁), told⟩) : Tried ev o sc ⟨e, none, told⟩ sc₁
  | answered {sc sc₁ sc₂ : Scene} {e : Effect} {told more : List Event} {b : Bool}
      (gate : Gate (e.site ev) o sc e.arguments ⟨(true, sc₁), told⟩)
      (answer : e.response.answer ev o (e.site ev) sc₁ = ⟨(.ok b, sc₂), more⟩) :
      Tried ev o sc ⟨e, some (.ok b), told ++ more⟩ sc₂
  | failed {sc sc₁ sc₂ : Scene} {e : Effect} {told more : List Event} {error : EngineError}
      (gate : Gate (e.site ev) o sc e.arguments ⟨(true, sc₁), told⟩)
      (answer : e.response.answer ev o (e.site ev) sc₁ = ⟨(.error error, sc₂), more⟩) :
      Tried ev o sc
        ⟨e, some (.error error), told ++ (more ++ [Effect.triggerFailure e.kindId e.context o error])⟩ sc₂

/-- Effects are triggered one after the other, each in the scene that the one before left. -/
inductive Reached (ev : Evaluator) (o : Occurrence) : Scene → List Attempt → Scene → Prop
  | nil (sc : Scene) : Reached ev o sc [] sc
  | cons {sc sc₁ sc₂ : Scene} {a : Attempt} {as : List Attempt} (first : Tried ev o sc a sc₁)
      (rest : Reached ev o sc₁ as sc₂) : Reached ev o sc (a :: as) sc₂

theorem Response.respond_apply (ev : Evaluator) (o : Occurrence) (e : Effect) (sc : Scene) :
    e.response.respond ev o (e.site ev) sc =
      match e.response.answer ev o (e.site ev) sc with
      | ⟨(.ok b, sc₁), told⟩ => ⟨(b, sc₁), told⟩
      | ⟨(.error error, sc₁), told⟩ =>
        ⟨(false, sc₁), told ++ [Effect.triggerFailure e.kindId e.context o error]⟩ := by
  obtain ⟨id, args, response, conditions, arguments, triggers, context⟩ := e
  cases response with
  | leaf kind d =>
    rw [respond_leaf, Run.bind_apply, answer]
    rcases Run.withSubject (kind.trigger _ o d).run sc with ⟨⟨error | b, sc₁⟩, told⟩
    · rfl
    · simp [Run.orTell, Run.pure_apply]
  | chain kind c executor =>
    have hanswer : ∀ site, answer ev o site (.chain kind c executor) sc =
      ⟨(.ok (c.execute ev o executor sc).value.1, (c.execute ev o executor sc).value.2),
        (c.execute ev o executor sc).events ++ []⟩ := fun _ => rfl
    rw [respond, hanswer, List.append_nil]

theorem Effect.trigger_tried (ev : Evaluator) (o : Occurrence) (e : Effect) (sc : Scene) :
    ∃ a : Attempt, a.effect = e ∧ Tried ev o sc a (e.trigger ev o sc).value.2 ∧
      (e.trigger ev o sc).value.1 = a.handled ∧ (e.trigger ev o sc).events = a.events := by
  have hgate := Argument.allMet_gate (e.site ev) o e.arguments sc
  have htrigger : e.trigger ev o = Argument.allMet (e.site ev) o e.arguments >>= fun met =>
      if met then e.response.respond ev o (e.site ev) else pure false := by
    cases e
    rw [trigger]
    rfl
  rw [htrigger, Run.bind_apply]
  rcases hall : Argument.allMet (e.site ev) o e.arguments sc with ⟨⟨_ | _, sc₁⟩, told⟩
  · rw [hall] at hgate
    exact ⟨⟨e, none, told⟩, rfl, .barred hgate, rfl, List.append_nil told⟩
  · rw [hall] at hgate
    simp only [if_true, Response.respond_apply]
    rcases hanswer : e.response.answer ev o (e.site ev) sc₁ with ⟨⟨error | b, sc₂⟩, more⟩
    · exact ⟨_, rfl, .failed hgate hanswer, rfl, rfl⟩
    · refine ⟨_, rfl, .answered hgate hanswer, ?_, rfl⟩
      cases b <;> rfl

theorem Engine.triggerEach_reached (ev : Evaluator) (o : Occurrence) (es : List Effect) (sc : Scene) :
    ∃ trail, Reached ev o sc trail (triggerEach ev o es sc).value.2 ∧ trail.map (·.effect) = es ∧
      (triggerEach ev o es sc).value.1 = trail.countP (·.handled) ∧
      (triggerEach ev o es sc).events = trail.flatMap (·.events) := by
  induction es generalizing sc with
  | nil => exact ⟨[], .nil sc, rfl, rfl, rfl⟩
  | cons e r ih =>
    obtain ⟨a, rfl, hfirst, hhandled, htold⟩ := e.trigger_tried ev o sc
    obtain ⟨trail, hrest, heffects, hfired, hevents⟩ := ih (a.effect.trigger ev o sc).value.2
    rw [triggerEach, Run.bind_apply, Run.bind_apply]
    refine ⟨a :: trail, .cons hfirst hrest, ?_, ?_, ?_⟩
    · rw [List.map_cons, heffects]
    · rw [List.countP_cons, ← hfired, ← hhandled, Nat.add_comm]
      rfl
    · rw [List.flatMap_cons, ← hevents, ← htold, Run.pure_apply, List.append_nil]

theorem Engine.dispatch_apply (s : Subject) (trigger : String) (data : TriggerData) (g : Engine) :
    dispatch s trigger data g =
      let listeners := (g.activeEffects s.id).members.filter (·.listensTo trigger)
      let x := triggerEach g.evaluator (.of s trigger data) listeners
        ⟨s, g.tally.count (.dispatch trigger)⟩
      ⟨((⟨listeners.length, x.value.1⟩, x.value.2.subject), { g with tally := x.value.2.tally }),
        x.events⟩ := by
  refine Logged.ext rfl ?_
  have hevents : (dispatch s trigger data g).events =
      [] ++ ([] ++ ((triggerEach g.evaluator (.of s trigger data)
        ((g.activeEffects s.id).members.filter (·.listensTo trigger))
        ⟨s, g.tally.count (.dispatch trigger)⟩).events ++ [] ++ [])) := rfl
  rw [hevents]
  simp only [List.nil_append, List.append_nil]

namespace Host

theorem after_activeEffects {u : Uuid} (h : Host) {rs : List Request}
    (hrs : ∀ r ∈ rs, r ≠ .update u ∧ r ≠ .forget u) :
    (h.after rs).engine.activeEffects u = h.engine.activeEffects u := by
  refine after_induction (P := fun k => k.engine.activeEffects u = h.engine.activeEffects u) rfl ?_ hrs
  intro k r hr hk
  rw [step_activeEffects, ← hk]
  cases r with
  | update v =>
    have hv : v ≠ u := fun hv => hr.1 (hv ▸ rfl)
    exact if_neg hv
  | forget v =>
    have hv : v ≠ u := fun hv => hr.2 (hv ▸ rfl)
    exact if_neg hv
  | _ => rfl

end Host

theorem Subject.hasPermission_silent (s : Subject) : s.silent.hasPermission = s.hasPermission := by
  funext p
  cases hs : s.sheet <;> simp [silent, modify, hasPermission, hs, Sheet.hasPermission]

/-- A dispatch triggers those effects that were active after the last update and listen: each of them once, in
the order of the identifiers, whatever comes of the others, and no other effect. All of them see one snapshot of
the placeholders. It counts those that listen and those that answered yes, and leaves nothing else behind than
what they did to the subject and what was counted. What they do to it, if they are built in, is no matter of
permissions. -/
theorem dispatch_reaches_listeners (g : Engine) (s : Subject) (trigger : String) (data : TriggerData) :
    let listeners := (g.activeEffects s.id).members.filter (·.listensTo trigger)
    let o := Occurrence.of s trigger data
    (∃ trail sc, Reached g.evaluator o ⟨s, g.tally.count (.dispatch trigger)⟩ trail sc ∧
      trail.map (·.effect) = listeners ∧
      Engine.dispatch s trigger data g =
        ⟨((⟨trail.length, trail.countP (·.handled)⟩, sc.subject), { g with tally := sc.tally }),
          trail.flatMap (·.events)⟩) ∧
    (∀ e, e ∈ listeners ↔ e ∈ (g.activeEffects s.id).members ∧ trigger ∈ e.triggers) ∧
    listeners.Pairwise (fun x y => x.id < y.id) ∧
    (∀ name, o.placeholders.get? name =
      (data.extra.get? name).or ((data.own? name).or (s.placeholders.get? name))) ∧
    ((∀ e ∈ (g.activeEffects s.id).members, e.Builtin) →
      ∀ p, (Engine.dispatch s trigger data g).value.1.2.hasPermission p = s.hasPermission p) ∧
    (∀ (h : Host) (rs : List Request) (u : Uuid), h.engine.states.get? u = none →
      (h.after rs).engine.activeEffects u = lastActive (updatesOf u (h.history rs))) ∧
    ∀ (h : Host) (rs : List Request) (u : Uuid), (∀ r ∈ rs, r ≠ .update u ∧ r ≠ .forget u) →
      (h.after rs).engine.activeEffects u = h.engine.activeEffects u := by
  intro listeners o
  refine ⟨?_, ?_, (g.activeEffects s.id).sorted.filter _, Occurrence.get?_placeholders s trigger data, ?_,
    fun h rs u hu => (recorded_updatesOf hu rs).active, fun h rs u hrs => h.after_activeEffects hrs⟩
  · obtain ⟨trail, hreached, heffects, hfired, hevents⟩ := Engine.triggerEach_reached g.evaluator o listeners
      ⟨s, g.tally.count (.dispatch trigger)⟩
    refine ⟨trail, _, hreached, heffects, ?_⟩
    have hlength : trail.length = listeners.length := by rw [← heffects, List.length_map]
    rw [Engine.dispatch_apply, hlength, ← hfired, ← hevents]
  · intro e
    rw [List.mem_filter]
    simp [Effect.listensTo]
  · intro hbuiltin p
    have hsilent := Engine.dispatch_keeps silent_kept_by_responses s trigger data g hbuiltin
    rw [← Subject.hasPermission_silent, hsilent, Subject.hasPermission_silent]

/-- An effect that sends a message when someone joins. -/
def greeter (i : Uuid) (args : Json) : Effect where
  id := i
  args
  response := .leaf Builtin.sendMessage .nothing
  conditions := []
  arguments := []
  triggers := ["join"]
  context := ""

/-- One that gives a permission and does not listen, one that has no message to send, and one that has. -/
def greeters : List Effect :=
  [giver ⟨7⟩ "fly", greeter ⟨8⟩ Json.emptyObject, greeter ⟨9⟩ (.object [("message", .text "hi %text%")])]

def joined : TriggerData := ⟨none, some "x", .empty⟩

def Host.deserted : Host :=
  ((Host.lending greeters).after [.update ⟨1⟩]).after [.setProvider 0 fun _ => pure []]

def welcome : (DispatchReport × Subject) × Engine :=
  (Engine.dispatch (Host.deserted.subject ⟨1⟩) "join" joined Host.deserted.engine).value

/-- The effects are reached that were active after the update, though no one lends them any more; the one that
fails does not stop the one after it. -/
theorem dispatch_reaches_listeners_deserted :
    (∀ e ∈ (Host.deserted.engine.activeEffects ⟨1⟩).members, e.Builtin) ∧
      (Host.lending greeters).engine.states.get? ⟨1⟩ = none ∧
      Host.deserted.engine.activeEffects ⟨1⟩ =
        lastActive (updatesOf ⟨1⟩ ((Host.lending greeters).history [.update ⟨1⟩])) ∧
      (∃ trail : List Attempt, trail.map (·.effect.id) = [⟨8⟩, ⟨9⟩] ∧ trail.countP (·.handled) = 1) ∧
      welcome.1.2.sheet.map (·.messages) = some ["hi x"] ∧ welcome.1.2.hasPermission "fly" = true := by
  have hbuiltin : ∀ e ∈ (Host.deserted.engine.activeEffects ⟨1⟩).members, e.Builtin := by
    have hmembers : (Host.deserted.engine.activeEffects ⟨1⟩).members = greeters := rfl
    have hgive := Builtin.leaf_mem_effects.mpr (.inl rfl)
    have hsend := Builtin.leaf_mem_effects.mpr (.inr (.inl rfl))
    rw [hmembers]
    refine List.forall_mem_cons.mpr ⟨hgive, List.forall_mem_cons.mpr ⟨hsend, ?_⟩⟩
    exact List.forall_mem_singleton.mpr hsend
  obtain ⟨⟨trail, sc, -, heffects, hdispatch⟩, -, -, -, hpermission, hlast, hkept⟩ :=
    dispatch_reaches_listeners Host.deserted.engine (Host.deserted.subject ⟨1⟩) "join" joined
  have hactive : Host.deserted.engine.activeEffects ⟨1⟩ =
      lastActive (updatesOf ⟨1⟩ ((Host.lending greeters).history [.update ⟨1⟩])) := by
    rw [← hlast (Host.lending greeters) [.update ⟨1⟩] ⟨1⟩ rfl]
    exact hkept _ _ _ (List.forall_mem_singleton.mpr ⟨nofun, nofun⟩)
  have hids : trail.map (·.effect.id) = [⟨8⟩, ⟨9⟩] := by
    have hlisteners : ((Host.deserted.engine.activeEffects ⟨1⟩).members.filter
        (·.listensTo "join")).map (·.id) = [⟨8⟩, ⟨9⟩] := rfl
    have hmap := congrArg (List.map (·.id)) heffects
    rw [List.map_map] at hmap
    exact hmap.trans hlisteners
  have hfired : trail.countP (·.handled) = 1 := by
    have hone : welcome.1.1.fired = 1 := rfl
    have hcount : welcome.1.1.fired = trail.countP (·.handled) := congrArg (·.value.1.1.fired) hdispatch
    rw [← hcount, hone]
  have hfly : (Host.deserted.subject ⟨1⟩).hasPermission "fly" = true := rfl
  exact ⟨hbuiltin, rfl, hactive, ⟨trail, hids, hfired⟩, rfl, (hpermission hbuiltin "fly").trans hfly⟩

end Ability
