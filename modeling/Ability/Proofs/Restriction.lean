import Ability.Proofs.Chain.Session
import Ability.Proofs.Compile.Abreast
import Ability.Proofs.Compile.Arguments
import Ability.Proofs.Compile.Kinds

/-! Arguments of effects restrict them and do nothing else. An effect that was compiled with one more argument answers
less often; where it answers, the effect without it does as well, and does the same. -/

namespace Ability

open Relation

variable {R : Nat → Nat → Prop} {ev : Evaluator} {o : Occurrence}

section Gating

/-- How an effect is triggered in a scene: its arguments are asked, and if they are met it responds. -/
structure Effect.Gated (ev : Evaluator) (o : Occurrence) (sc : Scene) (e : Effect) : Prop where
  /-- In their order, up to the first that is not met. -/
  asked : Gate (e.site ev) o sc e.arguments (e.argumentsMet ev o sc)
  barred : (e.argumentsMet ev o sc).value.1 = false → e.trigger ev o sc = e.argumentsMet ev o sc
  responds : (e.argumentsMet ev o sc).value.1 = true → e.trigger ev o sc =
    ⟨(e.response.respond ev o (e.site ev) (e.argumentsMet ev o sc).value.2).value, (e.argumentsMet ev o sc).events ++
      (e.response.respond ev o (e.site ev) (e.argumentsMet ev o sc).value.2).events⟩
  handled : (e.trigger ev o sc).value.1 = true ↔ (e.argumentsMet ev o sc).value.1 = true ∧
    (e.response.answer ev o (e.site ev) (e.argumentsMet ev o sc).value.2).value.1 = .ok true

theorem Effect.gated (ev : Evaluator) (o : Occurrence) (sc : Scene) (e : Effect) : e.Gated ev o sc where
  asked := Argument.allMet_gate _ o _ sc
  barred hmet := by
    rw [trigger_of_unmet hmet, ← hmet]
  responds hmet := trigger_of_met hmet
  handled := by
    cases hmet : (e.argumentsMet ev o sc).value.1 with
    | false => simp [trigger_of_unmet hmet]
    | true =>
      rw [trigger_of_met hmet, Response.respond_apply]
      rcases e.response.answer ev o (e.site ev) (e.argumentsMet ev o sc).value.2 with ⟨⟨_ | b, sc'⟩, told⟩
      · simp
      · simp

end Gating

section Sparing

/-- The run `x` answers yes where `y` does and leaves a twin of its scene. What `y` told besides is `asked` at most. -/
structure Run.Spared (R : Nat → Nat → Prop) (asked : List Event) (x y : Logged (Bool × Scene)) : Prop where
  answer : x.value.1 = true
  scene : x.value.2.Twin R y.value.2
  events : ∃ before told after, x.events = before ++ after ∧ y.events = before ++ told ++ after ∧
    (told = [] ∨ told = asked)

/-- Whenever `y` answers yes, in whatever twin scenes the two are run. -/
def Run.Spares (R : Nat → Nat → Prop) (asked : List Event) (x y : Run Bool) : Prop :=
  ∀ a b : Scene, a.Twin R b → (y b).value.1 = true → Spared R asked (x a) (y b)

namespace Run.Spares

variable {asked : List Event} {x y z w : Run Bool}

theorem of_twin (h : Run.Twin R x y) : Spares R asked x y := by
  intro a b hab hyes
  obtain ⟨hanswer, hevents, hscene⟩ := h a b hab
  exact ⟨hanswer.trans hyes, hscene, [], [], (x a).events, rfl, hevents.symm, .inl rfl⟩

theorem andThen_answer {b : Scene} (h : ((x.andThen y) b).value.1 = true) :
    (x b).value.1 = true ∧ (y (x b).value.2).value.1 = true := by
  rw [andThen_apply] at h
  split at h
  · next hx => exact ⟨hx, h⟩
  · cases h

theorem andThen_apply_of {b : Scene} (h : (x b).value.1 = true) : (x.andThen y) b =
    ⟨(y (x b).value.2).value, (x b).events ++ (y (x b).value.2).events⟩ := by
  rw [andThen_apply, if_pos h]

/-- What both do first does not matter. -/
theorem after (h : Run.Twin R z w) (hxy : Spares R asked x y) : Spares R asked (z.andThen x) (w.andThen y) := by
  intro a b hab hyes
  obtain ⟨hw, hy⟩ := andThen_answer hyes
  obtain ⟨hanswer, hevents, hscene⟩ := h a b hab
  obtain ⟨hx, hends, before, told, rest, hbefore, hafter, htold⟩ := hxy _ _ hscene hy
  rw [andThen_apply_of (hanswer.trans hw), andThen_apply_of hw]
  refine ⟨hx, hends, (z a).events ++ before, told, rest, ?_, ?_, htold⟩
  · simp only [hbefore, List.append_assoc]
  · simp only [hafter, hevents, List.append_assoc]

/-- Nor does what both do then. -/
theorem before (hxy : Spares R asked x y) (h : Run.Twin R z w) : Spares R asked (x.andThen z) (y.andThen w) := by
  intro a b hab hyes
  obtain ⟨hy, hw⟩ := andThen_answer hyes
  obtain ⟨hx, hscene, before, told, rest, hbefore, hafter, htold⟩ := hxy a b hab hy
  obtain ⟨hanswer, hevents, hends⟩ := h _ _ hscene
  rw [andThen_apply_of hx, andThen_apply_of hy]
  refine ⟨hanswer.trans hw, hends, before, told, rest ++ (z (x a).value.2).events, ?_, ?_, htold⟩
  · simp only [hbefore, List.append_assoc]
  · simp only [hafter, hevents, List.append_assoc]

/-- A question that leaves the scene as it is can be spared. -/
theorem question (h : ∀ b, (w b).value.1 = true → w b = ⟨(true, b), asked⟩) (hxy : Run.Twin R x y) :
    Spares R asked x (w.andThen y) := by
  intro a b hab hyes
  obtain ⟨hw, hy⟩ := andThen_answer hyes
  rw [andThen_apply_of hw]
  rw [h b hw] at hy ⊢
  obtain ⟨hanswer, hevents, hscene⟩ := hxy a b hab
  exact ⟨hanswer.trans hy, hscene, [], asked, (x a).events, rfl, by rw [hevents]; rfl, .inr rfl⟩

end Run.Spares

/-- What is told when the value of `require` is evaluated. -/
def Effect.requireTold (e : Effect) (ev : Evaluator) (o : Occurrence) : List Event :=
  (((e.site ev).evaluation o.placeholders).number "require").run.events

theorem Run.withDice_apply {α : Type} {x : StateT Dice Logged α} {sc : Scene} {a : α} {told : List Event}
    (h : x sc.tally.dice = ⟨(a, sc.tally.dice), told⟩) : withDice x sc = ⟨(a, sc), told⟩ := by
  refine Logged.ext ?_ ?_
  · have hvalue : (withDice x sc).value = ((x sc.tally.dice).value.1,
        { sc with tally := { sc.tally with dice := (x sc.tally.dice).value.2 } }) := rfl
    rw [hvalue, h]
  · rw [withDice_events, h]

/-- The built-in argument evaluates its expression, and nothing comes of that but what is told. -/
theorem Builtin.require_met {site : Site} {sc : Scene}
    (h : ((⟨require, .nothing⟩ : Argument).isMet site o sc).value.1 = true) :
    (⟨require, .nothing⟩ : Argument).isMet site o sc =
      ⟨(true, sc), ((site.evaluation o.placeholders).number "require").run.events⟩ := by
  have hnumber : (argumentNumber site o "require").run sc.tally.dice =
      ⟨(((site.evaluation o.placeholders).number "require").run.value, sc.tally.dice),
        ((site.evaluation o.placeholders).number "require").run.events⟩ :=
    Logged.ext rfl (List.append_nil _)
  have hcheck : (require.check site o .nothing).run sc.tally.dice =
      (argumentNumber site o "require" >>= fun x => pure (x == 1.0)).run sc.tally.dice := rfl
  cases hvalue : ((site.evaluation o.placeholders).number "require").run.value with
  | error e =>
    rw [hvalue] at hnumber
    rw [run_bind_error hnumber] at hcheck
    rw [Argument.isMet_eq, Run.bind_apply, Run.withDice_apply hcheck] at h
    cases h
  | ok x =>
    rw [hvalue] at hnumber
    have hanswer : (require.check site o .nothing).run sc.tally.dice =
        ⟨(.ok (x == 1.0), sc.tally.dice), ((site.evaluation o.placeholders).number "require").run.events⟩ :=
      hcheck.trans ((run_bind_ok hnumber).trans (Logged.ext rfl (List.append_nil _)))
    rw [Argument.isMet_eq, Run.bind_apply, Run.withDice_apply hanswer] at h ⊢
    have hmet : (x == 1.0) = true := h
    rw [hmet]
    exact Logged.ext rfl (List.append_nil _)

variable {site site' : Site}

theorem Argument.isMet_overlooks {a : Argument} (ha : a.kind.Overlooks "require")
    (hargs : site'.args.AgreeBeside "require" site.args) (hcontext : site'.context = site.context)
    (hevaluator : site'.evaluator = site.evaluator) : a.isMet site' o = a.isMet site o := by
  have hfailure : a.failure site' = a.failure site := by
    funext e
    rw [failure, failure, hcontext]
  rw [isMet_eq, isMet_eq, ha.check o a.datum hargs hcontext hevaluator, hfailure]

/-- Arguments that overlook `require` are asked alike at both sites. -/
theorem Argument.allMet_overlooks (hargs : site'.args.AgreeBeside "require" site.args)
    (hcontext : site'.context = site.context) (hevaluator : site'.evaluator = site.evaluator) {as : List Argument}
    (has : ∀ a ∈ as, a.kind.Overlooks "require") : allMet site' o as = allMet site o as := by
  induction as with
  | nil => rfl
  | cons a as ih =>
    obtain ⟨ha, has⟩ := List.forall_mem_cons.1 has
    rw [allMet, allMet, ih has, isMet_overlooks ha hargs hcontext hevaluator]

theorem Argument.allMet_spares {as bs : List Argument} (h : Compile.MayAdd ⟨Builtin.require, .nothing⟩ as bs)
    (hargs : site'.args.AgreeBeside "require" site.args) (hcontext : site'.context = site.context)
    (hevaluator : site'.evaluator = site.evaluator) (has : ∀ a ∈ as, a.kind.Overlooks "require") :
    Run.Spares R ((site'.evaluation o.placeholders).number "require").run.events (allMet site o as)
      (allMet site' o bs) := by
  have hothers : ∀ {as : List Argument}, (∀ a ∈ as, a.kind.Overlooks "require") →
      Run.Twin R (allMet site o as) (allMet site' o as) := by
    intro as has
    rw [allMet_overlooks hargs hcontext hevaluator has]
    exact allMet_twin site as
  -- The lists part where `require` has its place among the names; before it and after it they are the same.
  induction h with
  | same as => exact .of_twin (hothers has)
  | here as => exact .question (fun b => Builtin.require_met) (hothers has)
  | after b rest ih =>
    obtain ⟨hb, has⟩ := List.forall_mem_cons.1 has
    have hfirst : Run.Twin R (b.isMet site o) (b.isMet site' o) := by
      rw [isMet_overlooks hb hargs hcontext hevaluator, isMet_eq]
      exact .bind (.withDice _) (.orTell _)
    exact .after hfirst (ih has)

theorem Response.respond_overlooks {s : Response} (hs : ∀ k d, s = .leaf k d → k.Overlooks "require")
    (hargs : site'.args.AgreeBeside "require" site.args) (hcontext : site'.context = site.context)
    (hevaluator : site'.evaluator = site.evaluator) : s.respond ev o site' = s.respond ev o site := by
  cases s with
  | leaf k d => rw [respond_leaf, respond_leaf, (hs k d rfl).trigger o d hargs hcontext hevaluator, hcontext]
  | chain kind c x => rfl

end Sparing

section Numbers

/-- Executors that chains here can reach got their numbers before `n`. -/
def ChainRegistry.NumberedBefore (chains : ChainRegistry) (n : Nat) : Prop :=
  ∀ id c, chains.get? id = some c → ∀ e ∈ c.components, ∀ i, e.Uses i → i < n

theorem Session.Sound.numberedBefore {h : Session} (hh : h.Sound) :
    h.engine.registries.chains.NumberedBefore h.engine.nextNumber := by
  rintro id c hc e he i ⟨f, hf, hi⟩
  have hmade : f ∈ h.blocks := hh.numbered.calls_mem ((hh.registered id c hc).2 he) hf
  exact (hh.numbered.within i (List.mem_filterMap.2 ⟨f, hmade, hi⟩)).2

/-- Numbers below `base` stand for themselves, and those from `n` on for those from `m` on. -/
def Shifted (base n m i j : Nat) : Prop := i < base ∧ i = j ∨ ∃ k, i = n + k ∧ j = m + k

variable {base n m : Nat}

theorem shifted_biUnique (hn : base ≤ n) (hm : base ≤ m) : Relator.BiUnique (Shifted base n m) := by
  constructor
  · rintro i j k (⟨hi, rfl⟩ | ⟨a, rfl, rfl⟩) (⟨hj, rfl⟩ | ⟨b, rfl, h⟩) <;> omega
  · rintro i j k (⟨hi, rfl⟩ | ⟨a, rfl, rfl⟩) (⟨hj, rfl⟩ | ⟨b, h, rfl⟩) <;> omega

theorem shifted_inStep (base n m : Nat) : Compile.InStep (Shifted base n m) n m := fun k => .inr ⟨k, rfl, rfl⟩

/-- Where no executor from `base` on has had a turn, those that stand for each other have had the same. -/
theorem Scene.twin_of_unused (hn : base ≤ n) (hm : base ≤ m) {sc : Scene}
    (h : ∀ i, base ≤ i → sc.tally.turns i = 0) : sc.Twin (Shifted base n m) sc where
  subject := rfl
  dice := rfl
  turns := by
    rintro i j (⟨-, rfl⟩ | ⟨k, rfl, rfl⟩)
    · rfl
    · rw [h _ (hn.trans (Nat.le_add_right n k)), h _ (hm.trans (Nat.le_add_right m k))]

end Numbers

namespace Compile

variable {r : Registries} {kind : EffectKind} {v w : Json} {context : String} {n m : Nat}

theorem responseOf_agree (hk : kind ∈ Builtin.effects) (h : w.AgreeBeside "require" v) :
    responseOf r kind w context = responseOf r kind v context := by
  cases kind with
  | leaf k => rw [responseOf, responseOf, response, response, (Builtin.leaf_overlooks hk).compile h]
  | chainRunner k =>
    have hrun : w.text? "run_type" = v.text? "run_type" := h.text? (by decide)
    have hchain : w.text? "chain" = v.text? "chain" := h.text? (by decide)
    have hhas : w.has "effects" = v.has "effects" := h.has (by decide)
    have hinside : w.subsections "effects" = v.subsections "effects" := h.subsections (by decide)
    simp only [responseOf, response, chainFor, hrun, hchain, hhas, hinside]

theorem leaf_of_responseOf {k : LeafKind} {d : Datum}
    (h : ((responseOf r kind v context).run n).value.1 = .ok (.leaf k d)) : kind = .leaf k := by
  cases kind with
  | leaf l =>
    obtain ⟨d', -, h⟩ := run_bind_eq_ok_iff.1 h
    cases Except.ok.inj h
    rfl
  | chainRunner l =>
    obtain ⟨x, -, h⟩ := run_bind_eq_ok_iff.1 h
    obtain ⟨c, -, h⟩ := run_bind_eq_ok_iff.1 h
    obtain ⟨i, -, h⟩ := run_bind_eq_ok_iff.1 h
    cases Except.ok.inj h

theorem responseOf_twin (hr : ∀ id c, r.chains.get? id = some c → c.Twin R c) (hstep : InStep R n m) {s t : Response}
    (hs : ((responseOf r kind v context).run n).value.1 = .ok s)
    (ht : ((responseOf r kind v context).run m).value.1 = .ok t) : s.Twin R t := by
  have hinside := effects_abreast hr hstep (v.subsections "effects") 0
    (chainScope (inlineContext context) Chain.anonymousId) (chainPath Chain.anonymousId)
  obtain ⟨k, -, -, hended⟩ := response_abreast hinside hr hstep kind v context
  have hended : Ended (Response.Twin R) ((responseOf r kind v context).run n).value.1
    ((responseOf r kind v context).run m).value.1 := hended
  rw [hs, ht] at hended
  cases hended with
  | made hst => exact hst

end Compile

theorem Json.subsection_requiring {config : Json} {id : String} (h : config.text? "id" = some id) (value : Json) :
    (config.requiring value).subsection "args" = (config.subsection "args").put "require" value := by
  cases config with
  | object fields =>
    obtain ⟨args, hargs⟩ := isObject_subsection (object fields) "args"
    have hread : ((object fields).requiring value).get? "args" = some ((object args).put "require" value) := by
      rw [requiring, hargs]
      exact get?_put (by decide) _
    rw [hargs, subsection, hread]
    rfl
  | array items =>
    have hsegments : segments "id" = ["id"] := by decide
    have hindex : index? "id" = none := by decide
    simp [text?, get?, walk?, hsegments, step?, hindex] at h
  | _ => cases h

section Restriction

/-- The one effect was compiled of a configuration of a built-in type without `require`, the other of the same with a
value for it, both when the numbers before `base` had been handed out. -/
structure Compile.Required (r : Registries) (base : Nat) (config value : Json) (e f : Effect) : Prop where
  builtin : ∃ id kind, config.text? "id" = some id ∧ r.effects.get? id = some kind ∧ kind ∈ Builtin.effects
  without : (config.subsection "args").get? "require" = none
  compiled : ∃ context path path' n m, base ≤ n ∧ base ≤ m ∧
    (Compile.effect r config context path n).value.1 = some e ∧
    (Compile.effect r (config.requiring value) context path' m).value.1 = some f

variable {r : Registries} {base n m : Nat} {config value : Json} {context : String} {kind : EffectKind} {e f : Effect}

theorem Compile.Required.madeOf (h : Required r base config value e f) : ∃ kind context n m,
    kind ∈ Builtin.effects ∧ base ≤ n ∧ base ≤ m ∧ MadeOf r config context n kind e ∧
      MadeOf r (config.requiring value) context m kind f ∧
      (config.requiring value).subsection "args" = (config.subsection "args").put "require" value := by
  obtain ⟨⟨id, kind, hid, hkind, hbuiltin⟩, -, context, path, path', n, m, hn, hm, he, hf⟩ := h
  obtain ⟨i, k, hi, hk, hemade⟩ := effect_madeOf he
  obtain ⟨j, l, hj, hl, hfmade⟩ := effect_madeOf hf
  have hsame : (config.requiring value).text? "id" = config.text? "id" :=
    (config.put_agree "args" _).text? (by decide)
  obtain rfl := Option.some.inj (hid.symm.trans hi)
  obtain rfl := Option.some.inj ((hsame.trans hid).symm.trans hj)
  obtain rfl := Option.some.inj (hkind.symm.trans hk)
  obtain rfl := Option.some.inj (hkind.symm.trans hl)
  exact ⟨kind, context, n, m, hbuiltin, hn, hm, hemade, hfmade, Json.subsection_requiring hid value⟩

section Made

variable (he : Compile.MadeOf r config context n kind e)
  (hf : Compile.MadeOf r (config.requiring value) context m kind f)
  (hargs : (config.requiring value).subsection "args" = (config.subsection "args").put "require" value)
include he hf hargs

theorem Effect.sites_agree (ev : Evaluator) :
    (f.site ev).args.AgreeBeside "require" (e.site ev).args ∧ (f.site ev).context = (e.site ev).context := by
  refine ⟨?_, hf.ofContext.trans he.ofContext.symm⟩
  simp only [site, hf.ofArgs, he.ofArgs, hargs]
  exact Json.put_agree _ _ _

theorem Effect.argumentsMet_spares (hr : r.KeepRequireApart)
    (hnone : (config.subsection "args").get? "require" = none) :
    Run.Spares R (f.requireTold ev o) (e.argumentsMet ev o) (f.argumentsMet ev o) := by
  obtain ⟨hsites, hcontext⟩ := sites_agree he hf hargs ev
  have harguments := hf.arguments
  rw [hargs] at harguments
  obtain ⟨hoverlook, hadded⟩ := Compile.arguments_require hr (Json.put_agree _ _ _) hnone he.arguments harguments
  exact Argument.allMet_spares hadded hsites hcontext rfl hoverlook

/-- The responses are twins, though they are asked at different sites. -/
theorem Effect.respond_twin (hR : Relator.BiUnique R) (hchains : ∀ id c, r.chains.get? id = some c → c.Twin R c)
    (hstep : Compile.InStep R n m) (hbuiltin : kind ∈ Builtin.effects) :
    Run.Twin R (e.response.respond ev o (e.site ev)) (f.response.respond ev o (f.site ev)) := by
  obtain ⟨hsites, hcontext⟩ := sites_agree he hf hargs ev
  have hresponse := hf.response
  rw [hargs, Compile.responseOf_agree hbuiltin (Json.put_agree _ _ _)] at hresponse
  have hsame : f.response.respond ev o (f.site ev) = f.response.respond ev o (e.site ev) := by
    refine Response.respond_overlooks (fun k d hleaf => ?_) hsites hcontext rfl
    rw [hleaf] at hresponse
    obtain rfl := Compile.leaf_of_responseOf hresponse
    exact Builtin.leaf_overlooks hbuiltin
  rw [hsame]
  exact Response.respond_twin hR _ _ _ (Compile.responseOf_twin hchains hstep he.response hresponse)

end Made

/-- With a value for `require` an effect answers at most where it answers without. -/
theorem Compile.Required.spares (hchains : r.chains.NumberedBefore base) (hr : r.KeepRequireApart)
    (h : Required r base config value e f) (ev : Evaluator) (o : Occurrence) : ∃ n m, base ≤ n ∧ base ≤ m ∧
      Run.Spares (Shifted base n m) (f.requireTold ev o) (e.trigger ev o) (f.trigger ev o) := by
  obtain ⟨kind, context, n, m, hbuiltin, hn, hm, he, hf, hargs⟩ := h.madeOf
  have hselves : ∀ id c, r.chains.get? id = some c → c.Twin (Shifted base n m) c := fun id c hc =>
    c.twin_self fun e he i hi => .inl ⟨hchains id c hc e he i hi, rfl⟩
  refine ⟨n, m, hn, hm, ?_⟩
  rw [e.trigger_andThen, f.trigger_andThen]
  exact (Effect.argumentsMet_spares he hf hargs hr h.without).before
    (Effect.respond_twin he hf hargs (shifted_biUnique hn hm) hselves (shifted_inStep base n m) hbuiltin)

/-- A line that an effect has written. -/
def Event.isEffectLog : Event → Bool
  | .record .info message _ => message = "效果日志"
  | _ => false

end Restriction

/-- A subject to whom nothing has happened, and a tick. -/
def Scene.untouched : Scene := ⟨.inMemory ⟨1⟩ "s", .start (.ofSeed 0)⟩

def tick : Occurrence := .of Scene.untouched.subject "tick" .none

theorem inlineRun_required (n : Nat) :
    ∃ f, (Compile.effect .builtin (inlineRun.requiring (.bool true)) "" "" n).value.1 = some f ∧
      f.arguments.map (·.kind.name) = ["require"] ∧ (f.trigger .arithmetic tick .untouched).value.1 = true := by
  let config := inlineRun.requiring (.bool true)
  have hmade : ((Compile.effect .builtin config "" "" n).value.1).map
      (fun f => (f.arguments.map (·.kind.name), (f.trigger .arithmetic tick .untouched).value.1)) =
        some (["require"], true) := by
    have hinside : (config.subsection "args").subsections "effects" = [inlineLog] := rfl
    have hconditions : config.subsections "conditions" = [] := rfl
    rw [Compile.effect]
    simp only [hinside, hconditions]
    rw [Compile.effects, Compile.effects, Compile.effect, Compile.conditions]
    rfl
  obtain ⟨f, hf, hends⟩ := Option.map_eq_some_iff.1 hmade
  exact ⟨f, hf, congrArg Prod.fst hends, congrArg Prod.snd hends⟩

end Ability
