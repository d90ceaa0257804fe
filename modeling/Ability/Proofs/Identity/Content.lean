import Ability.Compile

/-! What a compilation makes of an element, apart from where the element was written and when it was
compiled. The content of a block is the block without the contexts in it and without the numbers that tell
executors and inline chains apart; it depends on the registries, the path and the configuration alone. -/

namespace Ability

mutual

/-- The condition without contexts and numbers. -/
def Condition.content : Condition → Condition
  | ⟨id, kind, args, datum, inverted, showNotMet, notMetLines, notMetEffects, _⟩ =>
    ⟨id, kind, args, datum, inverted, showNotMet, notMetLines, Effect.contents notMetEffects, ""⟩

def Effect.content : Effect → Effect
  | ⟨id, args, response, conditions, arguments, triggers, _⟩ =>
    ⟨id, args, response.content, Condition.contents conditions, arguments, triggers, ""⟩

def Response.content : Response → Response
  | .leaf kind datum => .leaf kind datum
  | .chain kind chain executor => .chain kind chain.content ⟨executor.kind, 0⟩

/-- A chain that has been registered is the very one, wherever it is named. -/
def Chain.content : Chain → Chain
  | ⟨number, id, components⟩ =>
    if id = Chain.anonymousId then ⟨0, id, Effect.contents components⟩ else ⟨number, id, components⟩

def Condition.contents : List Condition → List Condition
  | [] => []
  | c :: r => c.content :: Condition.contents r

def Effect.contents : List Effect → List Effect
  | [] => []
  | e :: r => e.content :: Effect.contents r

end

theorem Condition.contents_eq_map (cs : List Condition) : contents cs = cs.map content := by
  induction cs with
  | nil => rfl
  | cons c cs ih => rw [contents, ih, List.map_cons]

theorem Effect.contents_eq_map (es : List Effect) : contents es = es.map content := by
  induction es with
  | nil => rfl
  | cons e es ih => rw [contents, ih, List.map_cons]

namespace Compile

variable {α β γ δ : Type}

/-- Two compilations come to results with the same `f`, from whatever numbers they start. -/
def Alike (f : α → γ) (x y : Compile α) : Prop := ∀ n m, f (x n).value.1 = f (y m).value.1

/-- The same of compilations that may fail. Whether they fail is the same too, and not with what. -/
def MadeAlike (f : α → γ) (x y : ExceptT EngineError Compile α) : Prop :=
  Alike (fun r => r.toOption.map f) x.run y.run

namespace Alike

variable {f : α → γ} {g : β → δ}

theorem pure {a b : α} (h : f a = f b) : Alike f (Pure.pure a) (Pure.pure b) := fun _ _ => h

theorem bind {x y : Compile α} {k l : α → Compile β} (h : Alike f x y)
    (hk : ∀ a b, f a = f b → Alike g (k a) (l b)) : Alike g (x >>= k) (y >>= l) :=
  fun n m => hk _ _ (h n m) _ _

/-- The numbers given out and the warnings told have no part in the content. -/
theorem tell (d e : Event) : Alike (fun _ => ()) (tell d) (tell e) := fun _ _ => rfl

theorem fresh : Alike (fun _ => ()) fresh fresh := fun _ _ => rfl

end Alike

namespace MadeAlike

variable {f : α → γ} {g : β → δ}

theorem pure {a b : α} (h : f a = f b) : MadeAlike f (Pure.pure a) (Pure.pure b) :=
  Alike.pure (congrArg some h)

theorem throw (d e : EngineError) : MadeAlike f (throw d) (throw e) := Alike.pure rfl

theorem lift (x : Except EngineError α) : MadeAlike f (lift x) (lift x) := Alike.pure rfl

theorem of_alike {x y : Compile α} (h : Alike f x y) : MadeAlike f (ExceptT.lift x) (ExceptT.lift y) :=
  h.bind fun _ _ hab => Alike.pure (congrArg some hab)

theorem bind {x y : ExceptT EngineError Compile α} {k l : α → ExceptT EngineError Compile β}
    (h : MadeAlike f x y) (hk : ∀ a b, f a = f b → MadeAlike g (k a) (l b)) :
    MadeAlike g (x >>= k) (y >>= l) := by
  refine Alike.bind h fun a b hab => ?_
  cases a with
  | ok a =>
    cases b with
    | ok b => exact hk a b (Option.some.inj hab)
    | error e => cases hab
  | error d =>
    cases b with
    | ok b => cases hab
    | error e => exact Alike.pure rfl

theorem bind_lift (x : Except EngineError α) {k l : α → ExceptT EngineError Compile β}
    (hk : ∀ a, MadeAlike g (k a) (l a)) : MadeAlike g (Compile.lift x >>= k) (Compile.lift x >>= l) := by
  refine MadeAlike.bind (f := id) (.lift x) fun a b hab => ?_
  obtain rfl : a = b := hab
  exact hk a

theorem report {x y : ExceptT EngineError Compile α} (h : MadeAlike f x y) (message c d : String) :
    Alike (Option.map f) (report message c x) (report message d y) := by
  refine Alike.bind h fun a b hab => ?_
  cases a with
  | ok a =>
    cases b with
    | ok b => exact Alike.pure hab
    | error e => cases hab
  | error d =>
    cases b with
    | ok b => cases hab
    | error e => exact (Alike.tell _ _).bind fun _ _ _ => Alike.pure rfl

end MadeAlike

variable {r : Registries}

/-- A chain is made of the same components, under whatever number. -/
theorem chainOf_alike {f : Chain → γ} {id : String}
    (hf : ∀ n m es fs, Effect.contents es = Effect.contents fs → f ⟨n, id, es⟩ = f ⟨m, id, fs⟩)
    {x y : Compile (List Effect)} (h : Alike Effect.contents x y) (c d : String) :
    Alike (Option.map f) (chainOf c id x) (chainOf d id y) := by
  refine h.bind fun es es' hes => ?_
  have hlength : es.length = es'.length := by
    simpa only [Effect.contents_eq_map, List.length_map] using congrArg List.length hes
  cases es with
  | nil =>
    cases es' with
    | nil => exact (Alike.tell _ _).bind fun _ _ _ => Alike.pure rfl
    | cons e' es' => cases hlength
  | cons e es =>
    cases es' with
    | nil => cases hlength
    | cons e' es' => exact Alike.fresh.bind fun n m _ => Alike.pure (congrArg some (hf n m _ _ hes))

theorem content_of_anonymous {n m : Nat} {es fs : List Effect} (h : Effect.contents es = Effect.contents fs) :
    Chain.content ⟨n, Chain.anonymousId, es⟩ = Chain.content ⟨m, Chain.anonymousId, fs⟩ := by
  simp only [Chain.content, if_true, h]

theorem chainFor_alike {x y : Compile (List Effect)} (h : Alike Effect.contents x y) (args : Json)
    (c d : String) : MadeAlike Chain.content (chainFor r args c x) (chainFor r args d y) := by
  unfold chainFor
  split
  · exact .lift _
  split
  · have hmade := chainOf_alike (f := Chain.content) (fun _ _ _ _ => content_of_anonymous) h
      (inlineContext c) (inlineContext d)
    refine MadeAlike.bind (.of_alike hmade) fun a b hab => ?_
    cases a with
    | none =>
      cases b with
      | none => exact .throw _ _
      | some b => cases hab
    | some a =>
      cases b with
      | none => cases hab
      | some b => exact .pure (Option.some.inj hab)
  · exact .throw _ _

theorem response_alike {x y : Compile (List Effect)} (h : Alike Effect.contents x y) (kind : EffectKind)
    (args : Json) (c d : String) :
    MadeAlike Response.content (response r kind args c x) (response r kind args d y) := by
  cases kind with
  | leaf k => exact .bind_lift _ fun datum => .pure rfl
  | chainRunner k =>
    refine .bind_lift _ fun executor => ?_
    refine MadeAlike.bind (chainFor_alike h args c d) fun a b hab => ?_
    refine MadeAlike.bind (.of_alike Alike.fresh) fun n m _ => .pure ?_
    simp only [Response.content, hab]

theorem map_toList_append {f : α → γ} {c d : Option α} {l m : List α} (hc : c.map f = d.map f)
    (hl : l.map f = m.map f) : (c.toList ++ l).map f = (d.toList ++ m).map f := by
  rw [List.map_append, List.map_append, ← Option.toList_map, ← Option.toList_map, hc, hl]

mutual

/-- The content of a condition does not depend on its context, nor on what was compiled before. -/
theorem condition_alike (r : Registries) (config : Json) (c d path : String) :
    Alike (Option.map Condition.content) (condition r config c path) (condition r config d path) := by
  rw [condition, condition]
  refine MadeAlike.report ?_ _ _ _
  refine .bind_lift _ fun id => .bind_lift _ fun kind => .bind_lift _ fun datum => ?_
  refine MadeAlike.bind (.of_alike (effects_alike r _ 0 _ _ _)) fun es fs hes => .pure ?_
  simp only [Condition.content, hes]
termination_by (config.size, 0)
decreasing_by
  have := Json.subsection_size config "args"
  have := Json.subsections_size (config.subsection "args") "not_met_effects"
  exact Prod.Lex.left _ _ (by omega)

theorem conditions_alike (r : Registries) (configs : List Json) (i : Nat) (c d path : String) :
    Alike Condition.contents (conditions r configs i c path) (conditions r configs i d path) := by
  cases configs with
  | nil =>
    rw [conditions, conditions]
    exact .pure rfl
  | cons config rest =>
    rw [conditions, conditions]
    refine (condition_alike r config _ _ _).bind fun a b hab => ?_
    refine (conditions_alike r rest (i + 1) c d path).bind fun as bs habs => .pure ?_
    rw [Condition.contents_eq_map, Condition.contents_eq_map] at habs ⊢
    exact map_toList_append hab habs
termination_by (Json.totalSize configs, 1)
decreasing_by
  all_goals
    have := Json.size_pos config
    simp only [Json.totalSize, Prod.lex_def]
    omega

theorem effect_alike (r : Registries) (config : Json) (c d path : String) :
    Alike (Option.map Effect.content) (effect r config c path) (effect r config d path) := by
  rw [effect, effect]
  refine MadeAlike.report ?_ _ _ _
  refine .bind_lift _ fun id => .bind_lift _ fun kind => ?_
  refine MadeAlike.bind (response_alike (effects_alike r _ 0 _ _ _) kind _ c d) fun a b hab => ?_
  refine .bind_lift _ fun arguments => ?_
  refine MadeAlike.bind (.of_alike (conditions_alike r _ 0 c d path)) fun as bs habs => .pure ?_
  simp only [Effect.content, hab, habs]
termination_by (config.size, 0)
decreasing_by
  · have := Json.subsection_size config "args"
    have := Json.subsections_size (config.subsection "args") "effects"
    exact Prod.Lex.left _ _ (by omega)
  · exact Prod.Lex.left _ _ (Json.subsections_size config "conditions")

theorem effects_alike (r : Registries) (configs : List Json) (i : Nat) (c d path : String) :
    Alike Effect.contents (effects r configs i c path) (effects r configs i d path) := by
  cases configs with
  | nil =>
    rw [effects, effects]
    exact .pure rfl
  | cons config rest =>
    rw [effects, effects]
    refine (effect_alike r config _ _ _).bind fun a b hab => ?_
    refine (effects_alike r rest (i + 1) c d path).bind fun as bs habs => .pure ?_
    rw [Effect.contents_eq_map, Effect.contents_eq_map] at habs ⊢
    exact map_toList_append hab habs
termination_by (Json.totalSize configs, 1)
decreasing_by
  all_goals
    have := Json.size_pos config
    simp only [Json.totalSize, Prod.lex_def]
    omega

end

end Compile

end Ability
