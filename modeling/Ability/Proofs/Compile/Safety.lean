import Ability.Proofs.Compile.Checked
import Ability.Proofs.Compile.Kinds
import Ability.Proofs.Lifecycle.Calls
import Ability.Proofs.Permission.Supply

/-! Running what was compiled with the kinds that come with the engine. It can only fail with an expression
that has no value: no configuration is found wanting when it is used, wherever the chains that it runs were
written and whatever is registered by then. -/

namespace Ability

def Run.Tells {α : Type} (P : Event → Prop) (x : Run α) : Prop := ∀ sc, ∀ event ∈ (x sc).events, P event

theorem Run.tells_closed {P : Event → Prop} : Run.Closed fun _ x => x.Tells P where
  pure _ _ := nofun
  bind hx hk sc event he := by
    rw [bind_apply] at he
    exact (List.mem_append.mp he).elim (hx sc event) (hk _ _ event)
  count _ _ := nofun
  takeTurn _ _ := nofun
  draw _ _ := nofun

/-- What may be told while compiled effects are triggered: what they log, and that an argument has no value. -/
inductive Event.Expected : Event → Prop
  | logged (fields : List (String × String)) : Expected (.record .info "效果日志" fields)
  | argument {a : Argument} {err : EngineError} (site : Site) (kind : a.kind ∈ Builtin.arguments)
      (error : err.OfExpression) : Expected (a.failure site err)

theorem Run.tells_orTell {P : Event → Prop} {x : Run (Except EngineError Bool)} {f : EngineError → Event}
    (hx : ∀ sc, (∀ event ∈ (x sc).events, P event) ∧ ∀ err, (x sc).value.1 = .error err → P (f err)) :
    (x >>= orTell f).Tells P := by
  intro sc event he
  obtain ⟨htold, hfails⟩ := hx sc
  rw [bind_apply] at he
  rcases List.mem_append.mp he with he | he
  · exact htold event he
  · cases hvalue : (x sc).value.1 with
    | ok b =>
      rw [hvalue] at he
      cases he
    | error err =>
      rw [hvalue] at he
      obtain rfl := List.mem_singleton.mp he
      exact hfails err hvalue

theorem Argument.Checked.tells {a : Argument} {args : Json} (ha : a.Checked args) {site : Site}
    (hsite : site.Plain args) (o : Occurrence) : (a.isMet site o).Tells Event.Expected := by
  rw [isMet_eq]
  refine Run.tells_orTell fun sc => ?_
  obtain ⟨hquiet, hfails⟩ := ArgumentKind.check_mild (o := o) ha.kind ha.compiled hsite sc.tally.dice
  refine ⟨fun event he => ?_, fun err herr => .argument site ha.kind (hfails err herr)⟩
  rw [Run.withDice_events] at he
  cases hquiet ▸ he

theorem Effect.site_plain (e : Effect) : (e.site .arithmetic).Plain e.args := ⟨rfl, rfl⟩

theorem Effect.Compiled.does {e : Effect} (he : e.Compiled) (o : Occurrence) :
    e.Does (fun _ x => x.Tells Event.Expected) .arithmetic o where
  asks := Argument.allMet_closed Run.tells_closed _ fun a ha =>
    ((he.sound e (.self e)).arguments a ha).tells e.site_plain o
  responds kind d hresponse := by
    obtain ⟨hkind, hcompiled⟩ := (he.sound e (.self e)).response kind d hresponse
    rw [hresponse, Response.respond_leaf]
    refine Run.tells_orTell fun sc => ?_
    obtain ⟨⟨b, hb⟩, hlogs⟩ := LeafKind.trigger_ok hkind hcompiled e.site_plain o sc.subject
    refine ⟨fun event he => ?_, fun err herr => ?_⟩
    · rw [Run.withSubject_events] at he
      obtain ⟨fields, rfl⟩ := hlogs event he
      exact .logged fields
    · cases hb.symm.trans herr

theorem Effect.Compiled.lifecycle_ok {e : Effect} (he : e.Compiled) (ev : Evaluator) (phase : Phase)
    (s : Subject) : ((e.lifecycle ev phase).run s).value.1 = .ok () := by
  cases hresponse : e.response with
  | leaf kind d =>
    obtain ⟨hkind, hcompiled⟩ := (he.sound e (.self e)).response kind d hresponse
    have hcall : e.lifecycle ev phase = kind.call phase (e.site ev) d := by
      rw [lifecycle, hresponse]
    rw [hcall]
    exact LeafKind.call_ok hkind hcompiled phase _ s
  | chain kind c x =>
    have hcall : e.lifecycle ev phase = pure () := by
      rw [lifecycle, hresponse]
    rw [hcall]
    rfl

theorem Made.outcome {ev : Evaluator} {s t : Subject} {cs : List Call} (h : Made ev s cs t) :
    ∀ c ∈ cs, ∃ s, ((c.effect.lifecycle ev c.phase).run s).value.1 = c.outcome := by
  induction h with
  | nil => exact nofun
  | cons call _ ih =>
    intro c hc
    rcases List.mem_cons.mp hc with rfl | hc
    · exact ⟨_, congrArg Prod.fst call⟩
    · exact ih c hc

theorem Host.Knows.update_failures {h : Host} {u : Uuid} (hk : h.Knows Effect.Compiled u) :
    (Engine.update (h.subject u) h.engine).value.1.1.failures = [] := by
  have hcalls : (Engine.update (h.subject u) h.engine).value.1.1.failures =
      (h.engine.performed (h.subject u)).1.filterMap Call.failure? := by
    rw [Engine.update_value, Engine.transition_value]
    rfl
  rw [hcalls, List.filterMap_eq_nil_iff]
  intro c hc
  obtain ⟨s, hs⟩ := (h.engine.performed_made (h.subject u)).outcome c hc
  have hplan : c.target ∈ Lifecycle.plan (h.engine.activeEffects u)
      (h.engine.activeNow (h.subject u)).flatten :=
    h.engine.performed_targets (h.subject u) ▸ List.mem_map_of_mem hc
  have hcompiled : c.effect.Compiled := by
    rcases Lifecycle.mem_plan hplan with hbefore | hafter
    · exact hk.active _ hbefore
    · exact hk.supplied.activeNow (h.subject_id u) _ hafter
  rw [hcompiled.lifecycle_ok] at hs
  simp only [Call.failure?, ← hs]

/-- What was compiled with built-in kinds fails only with an expression that has no value, and that only
where numbers are compared, whatever it is evaluated, called back or triggered with; so updates of subjects
with such effects have no failure to report. -/
theorem compiled_never_misconfigured :
    (∀ g : Engine, g.registries = .builtin → ∀ orders o,
      (∀ c ∈ ((g.afterOrders orders).product o).allConditions, c.Compiled) ∧
        ∀ e, ((g.afterOrders orders).product o).Holds (fun _ => True) e → e.Compiled) ∧
    (∀ c : Condition, c.Compiled → ∀ s p err, (c.evaluate .arithmetic s p).run.value = .error err →
      err.OfExpression ∧ c.kind ∈ Builtin.comparisons) ∧
    (∀ e : Effect, e.Compiled →
      (∀ a ∈ e.arguments, ∀ occurrence dice err,
        ((a.kind.check (e.site .arithmetic) occurrence a.datum).run dice).value.1 = .error err →
          err.OfExpression ∧ a.kind ∈ Builtin.arguments) ∧
      (∀ ev phase s, ((e.lifecycle ev phase).run s).value.1 = .ok ()) ∧
      (∀ k d, e.response = .leaf k d → ∀ occurrence s,
        ∃ b, ((k.trigger (e.site .arithmetic) occurrence d).run s).value.1 = .ok b) ∧
      ∀ occurrence sc, ∀ event ∈ (e.trigger .arithmetic occurrence sc).events, event.Expected) ∧
    ∀ (h : Host) u, h.Knows Effect.Compiled u → ∀ rs, (∀ r ∈ rs, r.Brings Effect.Compiled u) →
      (Engine.update ((h.after rs).subject u) (h.after rs).engine).value.1.1.failures = [] := by
  refine ⟨fun g hg orders o => ?_, fun c hc s p err herr => ?_, fun e he => ⟨?_, ?_, ?_, ?_⟩, ?_⟩
  · have hstandard : g.Standard := ⟨by rw [hg]; rfl, by rw [hg]; exact nofun⟩
    have hnow := hstandard.afterOrders orders
    exact ⟨fun c hc => .inl ⟨_, o, hnow, hc⟩, fun e he => hnow.part he⟩
  · have hfails := fun q lender => ConditionKind.check_fails hc.checked.kind hc.checked.compiled s q lender
    exact (Check.Fails.bind (hfails _ _) fun _ => .bind (hfails _ _) fun _ => .pure _) err herr
  · intro a ha occurrence dice err herr
    have hchecked := (he.sound e (.self e)).arguments a ha
    have hmild := ArgumentKind.check_mild (o := occurrence) hchecked.kind hchecked.compiled e.site_plain dice
    exact ⟨hmild.2 err herr, hchecked.kind⟩
  · exact fun ev phase s => he.lifecycle_ok ev phase s
  · intro k d hresponse occurrence s
    obtain ⟨hkind, hcompiled⟩ := (he.sound e (.self e)).response k d hresponse
    exact (LeafKind.trigger_ok hkind hcompiled e.site_plain occurrence s).1
  · exact fun occurrence sc event hevent =>
      e.trigger_closed Run.tells_closed (fun f hf => (he.of_calls hf).does occurrence) sc event hevent
  · intro h u hk rs hrs
    exact (Host.after_induction hk (fun _ _ hr hk => hk.step hr) hrs).update_failures

def belowLevel : Json :=
  .object [("args", .object [("placeholder", .text "%level%"), ("value", .bool true)]),
    ("id", .text "placeholder_less_than")]

def apprentice : Json :=
  .object [("args", .object [("permission", .text "fly"), ("require", .text "%mana%")]),
    ("conditions", .array [belowLevel]), ("id", .text "give_permission")]

def pupil : Subject := .inMemory ⟨1⟩ "s"

def lesson : Occurrence := .of pupil "lesson" .none

theorem apprentice_made : ∃ e c,
    (Engine.new .builtin .arithmetic 0).product (.effect apprentice "") = .effect (some e) ∧
      e.args = apprentice.subsection "args" ∧ e.arguments = [⟨Builtin.require, .nothing⟩] ∧
      e.conditions = [c] ∧ c.kind = Builtin.placeholderLessThan ∧ c.args = belowLevel.subsection "args" ∧
      c.datum = .nothing := by
  have hmade : ((Compile.effect .builtin apprentice "" "" 0).value.1).map (fun e =>
      (e.args, e.arguments, e.conditions.map fun c => (c.kind, c.args, c.datum))) =
      some (apprentice.subsection "args", [⟨Builtin.require, .nothing⟩],
        [(Builtin.placeholderLessThan, belowLevel.subsection "args", .nothing)]) := by
    have hconditions : apprentice.subsections "conditions" = [belowLevel] := rfl
    have hinside : (belowLevel.subsection "args").subsections "not_met_effects" = [] := rfl
    rw [Compile.effect, hconditions, Compile.conditions, Compile.conditions, Compile.condition]
    simp only [hinside]
    rw [Compile.effects]
    rfl
  obtain ⟨e, he, hfields⟩ := Option.map_eq_some_iff.mp hmade
  obtain ⟨hargs, hfields⟩ := Prod.mk.inj hfields
  obtain ⟨harguments, hconditions⟩ := Prod.mk.inj hfields
  obtain ⟨c, hc, hfields⟩ := List.map_eq_singleton_iff.mp hconditions
  simp only [Prod.mk.injEq] at hfields
  exact ⟨e, c, congrArg Product.effect he, hargs, harguments, hc, hfields⟩

theorem belowLevel_fails {c : Condition} (hkind : c.kind = Builtin.placeholderLessThan)
    (hargs : c.args = belowLevel.subsection "args") (hdatum : c.datum = .nothing) :
    (c.evaluate .arithmetic pupil (.of ⟨"h", [], []⟩)).run.value =
      .error (.unresolvedPlaceholder "level") := by
  have hcheck : (Builtin.placeholderLessThan.check pupil ⟨.arithmetic, belowLevel.subsection "args",
      pupil.placeholders⟩ (some (Provision.of ⟨"h", [], []⟩).lender) .nothing).run.value =
      .error (.unresolvedPlaceholder "level") := rfl
  have hevaluate : (c.evaluate .arithmetic pupil (.of ⟨"h", [], []⟩)).run.value =
      (ExceptT.bindCont (fun lent => do
          let alone ← c.kind.check pupil ⟨.arithmetic, c.args, pupil.placeholders⟩ none c.datum
          return (lent && alone) ^^ c.inverted)
        (c.kind.check pupil ⟨.arithmetic, c.args, pupil.placeholders⟩
          (some (Provision.of ⟨"h", [], []⟩).lender) c.datum).run.value : Logged _).value := rfl
  rw [hevaluate, hkind, hargs, hdatum, hcheck]
  rfl

theorem apprentice_asks {e : Effect} (hargs : e.args = apprentice.subsection "args") (dice : Dice) :
    ((Builtin.require.check (e.site .arithmetic) lesson .nothing).run dice).value.1 =
      .error (.unresolvedPlaceholder "mana") := by
  have hnumber : (Evaluation.number ⟨.arithmetic, apprentice.subsection "args", lesson.placeholders⟩
      "require").run.value = .error (.unresolvedPlaceholder "mana") := rfl
  have hrun := Builtin.argumentNumber_run (o := lesson) e.site_plain "require" dice
  rw [hargs, hnumber] at hrun
  have hcheck : Builtin.require.check (e.site .arithmetic) lesson .nothing =
      Builtin.argumentNumber (e.site .arithmetic) lesson "require" >>= fun x => pure (x == 1.0) := rfl
  rw [hcheck, run_bind_error hrun]

/-- An effect of which neither the condition nor the argument has a value fails with the expressions only, and
a subject that it is lent to is updated without a failure. -/
theorem compiled_never_misconfigured_apprentice :
    ∃ e, (Engine.new .builtin .arithmetic 0).product (.effect apprentice "") = .effect (some e) ∧
      e.Compiled ∧ (Host.lending [e]).Knows Effect.Compiled ⟨1⟩ ∧
      (∃ c ∈ e.conditions, c.Compiled ∧ ∃ err,
        (c.evaluate .arithmetic pupil (.of ⟨"h", [], []⟩)).run.value = .error err ∧ err.OfExpression) ∧
      (∃ a ∈ e.arguments, ∃ err, ((a.kind.check (e.site .arithmetic) lesson a.datum).run
        (.ofSeed 0)).value.1 = .error err ∧ err.OfExpression) ∧
      (Engine.update (((Host.lending [e]).after [.update ⟨1⟩]).subject ⟨1⟩)
        ((Host.lending [e]).after [.update ⟨1⟩]).engine).value.1.1.failures = [] := by
  obtain ⟨e, c, hproduct, hargs, harguments, hconditions, hkind, hcargs, hdatum⟩ := apprentice_made
  obtain ⟨hhistory, hcondition, heffect, hhost⟩ := compiled_never_misconfigured
  obtain ⟨-, hpart⟩ := hhistory (Engine.new .builtin .arithmetic 0) rfl [] (.effect apprentice "")
  have he : e.Compiled := by
    refine hpart e (.inl ⟨e, ?_, .self e⟩)
    rw [Engine.afterOrders, hproduct]
    exact List.mem_singleton_self e
  have hknows : (Host.lending [e]).Knows Effect.Compiled ⟨1⟩ := by
    refine ⟨⟨fun p hp s hs q hq d hd => ?_, fun r hr => ?_⟩, fun d hd => ?_⟩
    · obtain rfl := List.mem_singleton.mp hp
      obtain rfl := List.mem_singleton.mp hq
      exact List.mem_singleton.mp hd ▸ he
    · cases hr
    · cases hd
  have hc : c ∈ e.conditions := hconditions ▸ List.mem_singleton_self c
  have ha : ⟨Builtin.require, .nothing⟩ ∈ e.arguments := harguments ▸ List.mem_singleton_self _
  have hcfails := belowLevel_fails hkind hcargs hdatum
  have hafails := apprentice_asks hargs (.ofSeed 0)
  refine ⟨e, hproduct, he, hknows, ⟨c, hc, .inr ⟨e, he, hc⟩, _, hcfails, ?_⟩, ⟨_, ha, _, hafails, ?_⟩, ?_⟩
  · exact (hcondition c (.inr ⟨e, he, hc⟩) _ _ _ hcfails).1
  · exact ((heffect e he).1 _ ha _ _ _ hafails).1
  · exact hhost _ ⟨1⟩ hknows [.update ⟨1⟩] fun r hr => List.mem_singleton.mp hr ▸ trivial

end Ability
