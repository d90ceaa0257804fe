import Ability.Proofs.Compile.Checked
import Ability.Proofs.Identity.Distinct
import Mathlib.Data.List.ReduceOption

/-! The configurations that can be compiled. What they have to hold is found in them alone, by following the chains
written inside them down to a leaf or to the name of a registered chain; conditions, effects for when a condition
does not hold and the other entries of a list have no part in it. -/

namespace Ability

theorem Json.requireText_eq_ok_iff {v : Json} {path t : String} :
    v.requireText path = .ok t ↔ v.text? path = some t := by
  unfold requireText text?
  cases v.get? path with
  | none => simp
  | some w => cases w <;> simp [scalarText?]

theorem Json.text?_eq_none_of_error {v : Json} {path : String} {e : EngineError}
    (h : v.requireText path = .error e) : v.text? path = none := by
  by_contra hsome
  obtain ⟨t, ht⟩ := Option.ne_none_iff_exists'.1 hsome
  rw [requireText_eq_ok_iff.2 ht] at h
  cases h

theorem mapM_ok_iff {ε α β : Type} {f : α → Except ε β} {xs : List α} :
    (∃ ys, xs.mapM f = .ok ys) ↔ ∀ x ∈ xs, ∃ y, f x = .ok y := by
  induction xs with
  | nil => exact ⟨fun _ => nofun, fun _ => ⟨[], rfl⟩⟩
  | cons x xs ih =>
    rw [List.forall_mem_cons, ← ih, List.mapM_cons]
    constructor
    · rintro ⟨ys, h⟩
      obtain ⟨y, hy, h⟩ := Expression.bind_eq_ok.1 h
      obtain ⟨zs, hzs, -⟩ := Expression.bind_eq_ok.1 h
      exact ⟨⟨y, hy⟩, zs, hzs⟩
    · rintro ⟨⟨y, hy⟩, zs, hzs⟩
      exact ⟨y :: zs, by rw [hy, hzs]; rfl⟩

section Descriptions

variable (r : Registries)

/-- Each registered argument that has a value here passes its own check. -/
def Registries.Admit (args : Json) : Prop :=
  ∀ name k, r.arguments.get? name = some k → args.has name = true → ∃ d, k.compile args = .ok d

/-- The configuration says which kind of effect it is of, and its arguments are admitted. -/
structure Json.OfKind (config : Json) (kind : EffectKind) : Prop where
  named : ∃ id, config.text? "id" = some id ∧ r.effects.get? id = some kind
  admitted : r.Admit (config.subsection "args")

/-- The executor that a chain runner asks for is registered. -/
def Json.HasExecutor (args : Json) : Prop :=
  ∃ x, r.executors.get? ((args.text? "run_type").getD "normal") = some x

/-- A chain written inside an effect needs one entry that is an effect itself. -/
inductive Json.DescribesEffect : Json → Prop
  | leaf {config : Json} {k : LeafKind} {d : Datum} (kind : config.OfKind r (.leaf k))
      (check : k.compile (config.subsection "args") = .ok d) : DescribesEffect config
  | named {config : Json} {k name : String} {c : Chain} (kind : config.OfKind r (.chainRunner k))
      (executor : (config.subsection "args").HasExecutor r)
      (chain : (config.subsection "args").text? "chain" = some name)
      (registered : r.chains.get? name = some c) : DescribesEffect config
  | inline {config entry : Json} {k : String} {entries : List Json} (kind : config.OfKind r (.chainRunner k))
      (executor : (config.subsection "args").HasExecutor r)
      (chain : (config.subsection "args").text? "chain" = none)
      (effects : (config.subsection "args").get? "effects" = some (.array entries))
      (mem : entry ∈ entries) (object : entry.isObject = true) (inside : DescribesEffect entry) :
      DescribesEffect config

def Json.DescribesCondition (config : Json) : Prop :=
  ∃ id k d, config.text? "id" = some id ∧ r.conditions.get? id = some k ∧
    k.compile (config.subsection "args") = .ok d

end Descriptions

namespace Compile

section Succeeds

variable {α β : Type}

/-- Whether the compilation makes something is decided by `P`, from whatever number it starts. -/
def Succeeds (P : Prop) (x : ExceptT EngineError Compile α) : Prop :=
  ∀ n, (∃ a, (x.run n).value.1 = .ok a) ↔ P

namespace Succeeds

variable {P Q : Prop}

theorem pure (a : α) : Succeeds True (Pure.pure a : ExceptT EngineError Compile α) :=
  fun _ => ⟨fun _ => trivial, fun _ => ⟨a, rfl⟩⟩

theorem throw (e : EngineError) : Succeeds False (throw e : ExceptT EngineError Compile α) :=
  fun _ => ⟨fun ⟨_, h⟩ => (nomatch h), False.elim⟩

theorem imp_iff {x : ExceptT EngineError Compile α} (h : Succeeds P x) (hPQ : P ↔ Q) : Succeeds Q x :=
  fun n => (h n).trans hPQ

theorem lift (x : Except EngineError α) : Succeeds (∃ a, x = .ok a) (lift x) := fun _ => Iff.rfl

theorem bind {x : ExceptT EngineError Compile α} {k : α → ExceptT EngineError Compile β}
    (hx : Succeeds P x) (hk : ∀ a, Succeeds Q (k a)) : Succeeds (P ∧ Q) (x >>= k) := by
  intro n
  have hrun : ((x >>= k).run n).value.1 =
      (ExceptT.bindCont k (x.run n).value.1 (x.run n).value.2).value.1 := rfl
  rw [hrun, ← hx n]
  cases (x.run n).value.1 with
  | ok a =>
    have hnext := hk a (x.run n).value.2
    exact hnext.trans ⟨fun h => ⟨⟨a, rfl⟩, h⟩, And.right⟩
  | error e => exact ⟨fun ⟨_, h⟩ => (nomatch h), fun ⟨⟨_, h⟩, _⟩ => (nomatch h)⟩

theorem bind_lift {x : Except EngineError α} {k : α → ExceptT EngineError Compile β} {R : α → Prop}
    (hk : ∀ a, x = .ok a → Succeeds (R a) (k a)) :
    Succeeds (∃ a, x = .ok a ∧ R a) (Compile.lift x >>= k) := by
  intro n
  cases x with
  | ok a => exact (hk a rfl n).trans ⟨fun h => ⟨a, rfl, h⟩, fun ⟨_, hb, h⟩ => Except.ok.inj hb ▸ h⟩
  | error e => exact ⟨fun ⟨_, h⟩ => (nomatch h), fun ⟨_, h, _⟩ => (nomatch h)⟩

/-- Parts that are left out where they cannot be compiled do not matter. -/
theorem bind_run {x : Compile α} {k : α → ExceptT EngineError Compile β} (hk : ∀ a, Succeeds P (k a)) :
    Succeeds P (ExceptT.lift x >>= k) :=
  fun n => hk (x n).value.1 (x n).value.2

/-- A part that may be left out, and then nothing is made. -/
theorem bind_some {x : Compile (Option α)} {k : Option α → ExceptT EngineError Compile β}
    (hx : ∀ n, (x n).value.1.isSome = true ↔ P) (hsome : ∀ a, Succeeds True (k (some a)))
    (hnone : Succeeds False (k none)) : Succeeds P (ExceptT.lift x >>= k) := by
  intro n
  have hrun : ((ExceptT.lift x >>= k).run n).value.1 = ((k (x n).value.1).run (x n).value.2).value.1 := rfl
  rw [hrun, ← hx n]
  cases (x n).value.1 with
  | some a => exact (hsome a _).trans ⟨fun _ => rfl, fun _ => trivial⟩
  | none => exact (hnone _).trans ⟨False.elim, nofun⟩

theorem report {x : ExceptT EngineError Compile α} (h : Succeeds P x) (message context : String) (n : Nat) :
    (report message context x n).value.1.isSome = true ↔ P := by
  rw [← h n]
  simp only [Compile.report, Bind.bind, StateT.bind]
  cases (x.run n).value.1 with
  | ok a => exact ⟨fun _ => ⟨a, rfl⟩, fun _ => rfl⟩
  | error e =>
    refine iff_of_false Bool.false_ne_true ?_
    rintro ⟨a, ha⟩
    cases ha

end Succeeds

end Succeeds

section Presence

variable {r : Registries}

theorem lookup_ok_iff {α : Type} {q : Registry α} {id : String} {e : EngineError} {x : α} :
    lookup q id e = .ok x ↔ q.get? id = some x := by
  refine ⟨lookup_eq_ok, fun h => ?_⟩
  rw [lookup, h]

theorem arguments_ok_iff {args : Json} : (∃ as, arguments r args = .ok as) ↔ r.Admit args := by
  unfold arguments
  rw [mapM_ok_iff]
  simp only [List.mem_filter, and_imp, Prod.forall, Table.mem_entries_iff]
  refine forall₄_congr fun name k hk hvalue => ?_
  cases k.compile args with
  | ok d => exact ⟨fun _ => ⟨d, rfl⟩, fun _ => ⟨⟨k, d⟩, rfl⟩⟩
  | error e => exact ⟨fun ⟨_, h⟩ => (nomatch h), fun ⟨_, h⟩ => (nomatch h)⟩

/-- A chain needs one component at least. -/
theorem chainOf_isSome {components : Compile (List Effect)} {P : Prop}
    (h : ∀ n, (components n).value.1 ≠ [] ↔ P) (context id : String) (n : Nat) :
    (chainOf context id components n).value.1.isSome = true ↔ P := by
  rw [← h n]
  let after : List Effect → Compile (Option Chain) := fun es =>
    if es.isEmpty then do
      tell (emptyChain context id)
      return none
    else return some ⟨← fresh, id, es⟩
  have hrun : (chainOf context id components n).value.1 =
      (after (components n).value.1 (components n).value.2).value.1 := rfl
  rw [hrun]
  cases (components n).value.1 with
  | nil => exact ⟨nofun, fun h => absurd rfl h⟩
  | cons e es => exact ⟨fun _ => nofun, fun _ => rfl⟩

/-- What chain an effect with these arguments runs: a registered one, or one with a component. -/
theorem chainFor_succeeds {components : Compile (List Effect)} {P : Prop}
    (h : ∀ n, (components n).value.1 ≠ [] ↔ P) (args : Json) (context : String) :
    Succeeds ((∃ name c, args.text? "chain" = some name ∧ r.chains.get? name = some c) ∨
      args.text? "chain" = none ∧ args.has "effects" = true ∧ P) (chainFor r args context components) := by
  unfold chainFor
  split
  · next name hname =>
    refine (Succeeds.lift _).imp_iff ?_
    simp [lookup_ok_iff, hname]
  · next hname =>
    split
    · next hhas =>
      have hmade := chainOf_isSome h (inlineContext context) Chain.anonymousId
      refine (Succeeds.bind_some hmade (fun c => Succeeds.pure c) (Succeeds.throw _)).imp_iff ?_
      simp [hname, hhas]
    · next hhas =>
      refine (Succeeds.throw _).imp_iff ?_
      simp [hname, hhas]

/-- The check of a kind, given whether one of the entries written inside is an effect. -/
def Passes (r : Registries) (args : Json) (inside : Prop) : EffectKind → Prop
  | .leaf k => ∃ d, k.compile args = .ok d
  | .chainRunner _ => args.HasExecutor r ∧
      ((∃ name c, args.text? "chain" = some name ∧ r.chains.get? name = some c) ∨
        args.text? "chain" = none ∧ args.has "effects" = true ∧ inside)

theorem response_succeeds {components : Compile (List Effect)} {P : Prop}
    (h : ∀ n, (components n).value.1 ≠ [] ↔ P) (kind : EffectKind) (args : Json) (context : String) :
    Succeeds (Passes r args P kind) (response r kind args context components) := by
  cases kind with
  | leaf k =>
    refine (Succeeds.bind_lift (R := fun _ => True) fun d _ => .pure _).imp_iff ?_
    simp [Passes]
  | chainRunner k =>
    have hchain := chainFor_succeeds (r := r) h args context
    refine (Succeeds.bind_lift fun x _ => hchain.bind fun c => .bind_run fun n => .pure _).imp_iff ?_
    simp [Passes, Json.HasExecutor, lookup_ok_iff]

theorem describesEffect_iff {config : Json} :
    config.DescribesEffect r ↔ ∃ kind, config.OfKind r kind ∧ Passes r (config.subsection "args")
      (∃ entry ∈ (config.subsection "args").subsections "effects", entry.DescribesEffect r) kind := by
  constructor
  · intro h
    cases h with
    | leaf kind check => exact ⟨_, kind, _, check⟩
    | named kind executor chain registered => exact ⟨_, kind, executor, .inl ⟨_, _, chain, registered⟩⟩
    | inline kind executor chain effects mem object inside =>
      refine ⟨_, kind, executor, .inr ⟨chain, ?_, _, ?_, inside⟩⟩
      · simp [Json.has, effects, Json.isNull]
      · simpa only [Json.subsections, effects] using List.mem_filter.2 ⟨mem, object⟩
  · rintro ⟨kind, hkind, hpasses⟩
    cases kind with
    | leaf k =>
      obtain ⟨d, hd⟩ := hpasses
      exact .leaf hkind hd
    | chainRunner k =>
      obtain ⟨hexecutor, ⟨name, c, hname, hc⟩ | ⟨hnone, -, entry, hmem, hentry⟩⟩ := hpasses
      · exact .named hkind hexecutor hname hc
      · unfold Json.subsections at hmem
        split at hmem
        · next entries hentries =>
          obtain ⟨hmem, hobject⟩ := List.mem_filter.1 hmem
          exact .inline hkind hexecutor hnone hentries hmem hobject hentry
        · cases hmem

/-- A condition is there just if its kind is registered and finds its arguments in order. -/
theorem condition_isSome_iff (config : Json) (context path : String) (n : Nat) :
    (condition r config context path n).value.1.isSome = true ↔ config.DescribesCondition r := by
  rw [condition]
  refine (Succeeds.report ?_ _ _ _)
  refine (Succeeds.bind_lift fun id _ => .bind_lift fun kind _ => .bind_lift fun datum _ =>
    .bind_run fun fallbacks => .pure _).imp_iff ?_
  simp [Json.DescribesCondition, Json.requireText_eq_ok_iff, lookup_ok_iff]

theorem toList_append_ne_nil {α : Type} {x : Option α} {xs : List α} {P Q : Prop} (hx : x.isSome = true ↔ P)
    (hxs : xs ≠ [] ↔ Q) : x.toList ++ xs ≠ [] ↔ P ∨ Q := by
  rw [← hx, ← hxs]
  cases x <;> simp

mutual

/-- An effect is there just if its configuration describes one. -/
theorem effect_isSome_iff (config : Json) (context path : String) (n : Nat) :
    (effect r config context path n).value.1.isSome = true ↔ config.DescribesEffect r := by
  have hresponse := response_succeeds (r := r) (effects_ne_nil_iff
    ((config.subsection "args").subsections "effects") 0
    (chainScope (inlineContext context) Chain.anonymousId) (chainPath Chain.anonymousId))
  rw [effect]
  refine Succeeds.report ?_ _ _ _
  refine (Succeeds.bind_lift fun id _ => .bind_lift fun kind _ => (hresponse kind _ context).bind
    fun response => .bind_lift fun arguments _ => .bind_run fun conditions => .pure _).imp_iff ?_
  rw [describesEffect_iff]
  simp only [Json.requireText_eq_ok_iff, lookup_ok_iff, and_true, arguments_ok_iff]
  constructor
  · rintro ⟨id, hid, kind, hkind, hpasses, hadmitted⟩
    exact ⟨kind, ⟨⟨id, hid, hkind⟩, hadmitted⟩, hpasses⟩
  · rintro ⟨kind, ⟨⟨id, hid, hkind⟩, hadmitted⟩, hpasses⟩
    exact ⟨id, hid, kind, hkind, hpasses, hadmitted⟩
termination_by (config.size, 0)
decreasing_by
  have := Json.subsection_size config "args"
  have := Json.subsections_size (config.subsection "args") "effects"
  exact Prod.Lex.left _ _ (by omega)

theorem effects_ne_nil_iff (configs : List Json) (i : Nat) (context path : String) (n : Nat) :
    (effects r configs i context path n).value.1 ≠ [] ↔ ∃ entry ∈ configs, entry.DescribesEffect r := by
  cases configs with
  | nil =>
    rw [effects]
    exact ⟨fun h => absurd rfl h, nofun⟩
  | cons config rest =>
    rw [effects, List.exists_mem_cons_iff]
    exact toList_append_ne_nil (effect_isSome_iff config _ _ _)
      (effects_ne_nil_iff rest (i + 1) context path _)
termination_by (Json.totalSize configs, 1)
decreasing_by
  all_goals
    have := Json.size_pos config
    simp only [Json.totalSize, Prod.lex_def]
    omega

end

end Presence

section Lists

variable {α : Type}

/-- The compilation of one sort of elements, alone and in lists. -/
structure Family (α : Type) where
  kind : String
  list : String
  describes : Json → Prop
  one : Json → String → String → Compile (Option α)
  many : List Json → Nat → String → String → Compile (List α)
  content : α → α
  id : α → Uuid

def effectFamily (r : Registries) : Family Effect where
  kind := "effect"
  list := "effects"
  describes := Json.DescribesEffect r
  one := effect r
  many := effects r
  content := Effect.content
  id := Effect.id

def conditionFamily (r : Registries) : Family Condition where
  kind := "condition"
  list := "conditions"
  describes := Json.DescribesCondition r
  one := condition r
  many := conditions r
  content := Condition.content
  id := Condition.id

namespace Family

variable (F : Family α)

/-- What is made of a configuration under a path, apart from contexts and numbers. -/
def made (path : String) (config : Json) : Option α := (F.one config "" path 0).value.1.map F.content

def place (path : String) (i : Nat) : String := path ++ "/" ++ item F.list i

/-- What is made of each object in a list, under its place among the objects. -/
def madeEach (path : String) (entries : List Json) : List (Option α) :=
  (entries.filter Json.isObject).zipIdx.map fun p => F.made (F.place path p.2) p.1

structure Exact : Prop where
  /-- A block is made of a configuration just if that describes one. -/
  present (config : Json) (context path : String) (n : Nat) :
    (F.one config context path n).value.1.isSome = true ↔ F.describes config
  /-- Its content does not depend on the context, nor on what was compiled before. -/
  content (config : Json) (context path : String) (n : Nat) :
    (F.one config context path n).value.1.map F.content = F.made path config
  named {config : Json} {context path : String} {n : Nat} {x : α} :
    (F.one config context path n).value.1 = some x → F.id x = blockId F.kind path config
  /-- A list is made of the objects in it, in their order; those that describe no block are left out. -/
  listed {v : Json} {key : String} {entries : List Json} (h : v.get? key = some (.array entries))
    (context path : String) (n : Nat) :
    (F.many (v.subsections key) 0 context path n).value.1.map F.content =
      (F.madeEach path entries).reduceOption
  /-- Another object in place of one changes nothing of what is made of the others. -/
  replaced {x y : Json} (hx : x.isObject = true) (hy : y.isObject = true) (before after : List Json)
    (path : String) :
    F.madeEach path (before ++ y :: after) =
      (F.madeEach path (before ++ x :: after)).set (before.filter Json.isObject).length
        (F.made (F.place path (before.filter Json.isObject).length) y)

theorem madeEach_replaced {x y : Json} (hx : x.isObject = true) (hy : y.isObject = true)
    (before after : List Json) (path : String) :
    F.madeEach path (before ++ y :: after) =
      (F.madeEach path (before ++ x :: after)).set (before.filter Json.isObject).length
        (F.made (F.place path (before.filter Json.isObject).length) y) := by
  simp [madeEach, List.filter_cons_of_pos hx, List.filter_cons_of_pos hy, List.zipIdx_append,
    List.set_append_right]

end Family

theorem map_toList_append_eq_reduceOption {f : α → α} {x y : Option α} {xs : List α} {ys : List (Option α)}
    (hx : x.map f = y) (hxs : xs.map f = ys.reduceOption) :
    (x.toList ++ xs).map f = (y :: ys).reduceOption := by
  subst hx
  cases x <;> simp [hxs]

variable (r : Registries)

theorem effect_made (config : Json) (context path : String) (n : Nat) :
    (effect r config context path n).value.1.map Effect.content = (effectFamily r).made path config :=
  effect_alike r config context "" path n 0

theorem condition_made (config : Json) (context path : String) (n : Nat) :
    (condition r config context path n).value.1.map Condition.content =
      (conditionFamily r).made path config :=
  condition_alike r config context "" path n 0

theorem effects_made (configs : List Json) (i : Nat) (context path : String) (n : Nat) :
    (effects r configs i context path n).value.1.map Effect.content =
      ((configs.zipIdx i).map fun p =>
        (effectFamily r).made ((effectFamily r).place path p.2) p.1).reduceOption := by
  induction configs generalizing i n with
  | nil =>
    rw [effects]
    rfl
  | cons config rest ih =>
    rw [effects]
    exact map_toList_append_eq_reduceOption (effect_made r config _ _ n) (ih (i + 1) _)

theorem conditions_made (configs : List Json) (i : Nat) (context path : String) (n : Nat) :
    (conditions r configs i context path n).value.1.map Condition.content =
      ((configs.zipIdx i).map fun p =>
        (conditionFamily r).made ((conditionFamily r).place path p.2) p.1).reduceOption := by
  induction configs generalizing i n with
  | nil =>
    rw [conditions]
    rfl
  | cons config rest ih =>
    rw [conditions]
    exact map_toList_append_eq_reduceOption (condition_made r config _ _ n) (ih (i + 1) _)

theorem subsections_eq_filter {v : Json} {key : String} {entries : List Json}
    (h : v.get? key = some (.array entries)) : v.subsections key = entries.filter Json.isObject := by
  rw [Json.subsections, h]

theorem effects_exact : (effectFamily r).Exact where
  present := effect_isSome_iff
  content := effect_made r
  named h := effect_id h
  listed h context path n := by
    rw [subsections_eq_filter h]
    exact effects_made r _ 0 context path n
  replaced := (effectFamily r).madeEach_replaced

theorem conditions_exact : (conditionFamily r).Exact where
  present := condition_isSome_iff
  content := condition_made r
  named h := condition_id h
  listed h context path n := by
    rw [subsections_eq_filter h]
    exact conditions_made r _ 0 context path n
  replaced := (conditionFamily r).madeEach_replaced

end Lists

end Compile

section Builtin

/-- The texts that the check of a built-in kind asks for. -/
def Builtin.texts : String → List String
  | "placeholder_equals" | "placeholder_greater_than" | "placeholder_less_than" => ["placeholder", "value"]
  | "has_permission" | "give_permission" => ["permission"]
  | "attribute_at_least" => ["value", "attribute"]
  | "send_message" | "log" => ["message"]
  | "require" => ["require"]
  | "chance" => ["chance"]
  | _ => []

def Json.HasTexts (args : Json) (keys : List String) : Prop := ∀ key ∈ keys, (args.text? key).isSome = true

/-- What the registries ask for if their kinds are those that come with the engine. -/
structure Registries.AskForTexts (r : Registries) : Prop where
  effect (config : Json) (kind : EffectKind) : config.OfKind r kind ↔
    kind ∈ Builtin.effects ∧ config.text? "id" = some kind.id ∧
      ∀ k ∈ Builtin.arguments, (config.subsection "args").has k.name = true →
        (config.subsection "args").HasTexts (Builtin.texts k.name)
  leaf {k : LeafKind} (hk : .leaf k ∈ Builtin.effects) (args : Json) :
    (∃ d, k.compile args = .ok d) ↔ args.HasTexts (Builtin.texts k.id)
  executor (args : Json) : args.HasExecutor r ↔
    (args.text? "run_type").getD "normal" ∈ ["normal", "random", "cycle"]
  condition (config : Json) : config.DescribesCondition r ↔
    ∃ k ∈ Builtin.conditions, config.text? "id" = some k.id ∧
      (config.subsection "args").HasTexts (Builtin.texts k.id)

variable {args : Json}

/-- A check that asks for one text, whatever it makes of that. -/
theorem ask_one (key : String) (f : String → Datum) :
    (∃ d, (args.requireText key >>= fun t => pure (f t)) = .ok d) ↔ args.HasTexts [key] := by
  have htext : (args.text? key).isSome = true ↔ ∃ t, args.requireText key = .ok t := by
    simp only [Json.requireText_eq_ok_iff, Option.isSome_iff_exists]
  rw [Json.HasTexts, List.forall_mem_singleton, htext]
  cases args.requireText key with
  | ok t => exact ⟨fun _ => ⟨t, rfl⟩, fun _ => ⟨f t, rfl⟩⟩
  | error e => exact ⟨fun ⟨_, h⟩ => (nomatch h), fun ⟨_, h⟩ => (nomatch h)⟩

theorem ask_two (key key' : String) (f : String → Datum) :
    (∃ d, (args.requireText key >>= fun _ => args.requireText key' >>= fun t => pure (f t)) = .ok d) ↔
      args.HasTexts [key, key'] := by
  have hone : _ ↔ args.HasTexts [key] := ask_one key fun _ => .nothing
  have hother : _ ↔ args.HasTexts [key'] := ask_one key' f
  have hpair : args.HasTexts [key, key'] ↔ args.HasTexts [key] ∧ args.HasTexts [key'] := by
    simp [Json.HasTexts]
  rw [hpair, ← hone, ← hother]
  cases args.requireText key with
  | ok t => exact ⟨fun h => ⟨⟨_, rfl⟩, h⟩, And.right⟩
  | error e => exact ⟨fun ⟨_, h⟩ => (nomatch h), fun ⟨⟨_, h⟩, _⟩ => (nomatch h)⟩

namespace Builtin

theorem condition_check {k : ConditionKind} (hk : k ∈ conditions) (args : Json) :
    (∃ d, k.compile args = .ok d) ↔ args.HasTexts (texts k.id) := by
  simp only [conditions, List.mem_cons, List.not_mem_nil, or_false] at hk
  rcases hk with rfl | rfl | rfl | rfl | rfl
  · exact ask_two "placeholder" "value" _
  · exact ask_two "placeholder" "value" _
  · exact ask_two "placeholder" "value" _
  · simp only [hasPermission, map_eq_pure_bind]
    exact ask_one "permission" _
  · exact ask_two "value" "attribute" _

theorem leaf_check {k : LeafKind} (hk : .leaf k ∈ effects) (args : Json) :
    (∃ d, k.compile args = .ok d) ↔ args.HasTexts (texts k.id) := by
  simp only [effects, runChain, List.mem_cons, EffectKind.leaf.injEq, reduceCtorEq, List.not_mem_nil,
    or_false] at hk
  rcases hk with rfl | rfl | rfl
  · simp only [givePermission, map_eq_pure_bind]
    exact ask_one "permission" _
  · exact ask_one "message" _
  · exact ask_one "message" _

theorem argument_check {k : ArgumentKind} (hk : k ∈ arguments) (args : Json) :
    (∃ d, k.compile args = .ok d) ↔ args.HasTexts (texts k.name) := by
  simp only [arguments, List.mem_cons, List.not_mem_nil, or_false] at hk
  rcases hk with rfl | rfl
  · exact ask_one "require" _
  · exact ask_one "chance" _

end Builtin

namespace Registries

theorem builtin_condition_iff {id : String} {k : ConditionKind} :
    builtin.conditions.get? id = some k ↔ k ∈ Builtin.conditions ∧ k.id = id := by
  have hvalues : builtin.conditions.values = [Builtin.attributeAtLeast, Builtin.hasPermission,
    Builtin.placeholderEquals, Builtin.placeholderGreaterThan, Builtin.placeholderLessThan] := rfl
  have hmem : k ∈ builtin.conditions.values ↔ k ∈ Builtin.conditions := by
    simp only [hvalues, Builtin.conditions, List.mem_cons, List.not_mem_nil, or_false]
    tauto
  rw [Table.get?_eq_some_iff_of_keys ConditionKind.id rfl, hmem]

theorem builtin_effect_iff {id : String} {k : EffectKind} :
    builtin.effects.get? id = some k ↔ k ∈ Builtin.effects ∧ k.id = id := by
  have hvalues : builtin.effects.values = [.leaf Builtin.givePermission, .leaf Builtin.logMessage,
    Builtin.runChain, .leaf Builtin.sendMessage] := rfl
  have hmem : k ∈ builtin.effects.values ↔ k ∈ Builtin.effects := by
    simp only [hvalues, Builtin.effects, List.mem_cons, List.not_mem_nil, or_false]
    tauto
  rw [Table.get?_eq_some_iff_of_keys EffectKind.id rfl, hmem]

theorem builtin_argument_iff {name : String} {k : ArgumentKind} :
    builtin.arguments.get? name = some k ↔ k ∈ Builtin.arguments ∧ k.name = name := by
  have hvalues : builtin.arguments.values = [Builtin.chance, Builtin.require] := rfl
  have hmem : k ∈ builtin.arguments.values ↔ k ∈ Builtin.arguments := by
    simp only [hvalues, Builtin.arguments, List.mem_cons, List.not_mem_nil, or_false]
    tauto
  rw [Table.get?_eq_some_iff_of_keys ArgumentKind.name rfl, hmem]

theorem builtin_executor_iff {name : String} :
    (∃ x, builtin.executors.get? name = some x) ↔ name ∈ ["normal", "random", "cycle"] := by
  have hvalues : builtin.executors.values = [.cycle, .normal, .random] := rfl
  simp only [Table.get?_eq_some_iff_of_keys ExecutorKind.name (t := builtin.executors) rfl, hvalues]
  constructor
  · rintro ⟨x, -, rfl⟩
    cases x <;> simp [ExecutorKind.name]
  · intro h
    simp only [List.mem_cons, List.not_mem_nil, or_false] at h
    rcases h with rfl | rfl | rfl
    · exact ⟨.normal, by simp, rfl⟩
    · exact ⟨.random, by simp, rfl⟩
    · exact ⟨.cycle, by simp, rfl⟩

theorem HaveBuiltinKinds.askForTexts {r : Registries} (hr : r.HaveBuiltinKinds) : r.AskForTexts where
  effect config kind := by
    have hnamed : (∃ id, config.text? "id" = some id ∧ r.effects.get? id = some kind) ↔
        kind ∈ Builtin.effects ∧ config.text? "id" = some kind.id := by
      rw [hr]
      simp only [builtin_effect_iff]
      constructor
      · rintro ⟨id, hid, hkind, rfl⟩
        exact ⟨hkind, hid⟩
      · rintro ⟨hkind, hid⟩
        exact ⟨_, hid, hkind, rfl⟩
    have hadmitted : r.Admit (config.subsection "args") ↔ ∀ k ∈ Builtin.arguments,
        (config.subsection "args").has k.name = true →
          (config.subsection "args").HasTexts (Builtin.texts k.name) := by
      rw [hr]
      simp only [Admit, builtin_argument_iff]
      constructor
      · exact fun h k hk hvalue => (Builtin.argument_check hk _).1 (h k.name k ⟨hk, rfl⟩ hvalue)
      · rintro h _ k ⟨hk, rfl⟩ hvalue
        exact (Builtin.argument_check hk _).2 (h k hk hvalue)
    rw [← and_assoc, ← hnamed, ← hadmitted]
    exact ⟨fun h => ⟨h.named, h.admitted⟩, fun h => ⟨h.1, h.2⟩⟩
  leaf hk args := Builtin.leaf_check hk args
  executor args := by
    rw [hr]
    exact builtin_executor_iff
  condition config := by
    rw [hr]
    simp only [Json.DescribesCondition, builtin_condition_iff]
    constructor
    · rintro ⟨_, k, d, hid, ⟨hk, rfl⟩, hd⟩
      exact ⟨k, hk, hid, (Builtin.condition_check hk _).1 ⟨d, hd⟩⟩
    · rintro ⟨k, hk, hid, htexts⟩
      obtain ⟨d, hd⟩ := (Builtin.condition_check hk _).2 htexts
      exact ⟨_, k, d, hid, ⟨hk, rfl⟩, hd⟩

end Registries

end Builtin

namespace Compile

/-- The lists in an element are compiled as lists, each by itself. -/
structure ListsParts (r : Registries) : Prop where
  ofEffect {config : Json} {context path : String} {n : Nat} {e : Effect} :
    (effect r config context path n).value.1 = some e →
      ∃ m, e.conditions = (conditions r (config.subsections "conditions") 0 context path m).value.1
  ofInline {config : Json} {context path kind : String} {n : Nat} {e : Effect} {c : Chain} {x : Executor} :
    (effect r config context path n).value.1 = some e → e.response = .chain kind c x →
      (config.subsection "args").text? "chain" = none →
        ∃ scope m, c.components = (effects r ((config.subsection "args").subsections "effects") 0 scope
          (chainPath Chain.anonymousId) m).value.1
  ofCondition {config : Json} {context path : String} {n : Nat} {c : Condition} :
    (condition r config context path n).value.1 = some c →
      ∃ scope m, c.notMetEffects = (effects r ((config.subsection "args").subsections "not_met_effects") 0
        scope (path ++ "/not_met") m).value.1
  ofHolder {config : Json} {context : String} {n : Nat} {h : Holder} :
    (holder r config context n).value.1 = some h →
      ∃ scope m m', h.effects = (effects r (config.subsections "effects") 0 scope (holderPath h.id) m).value.1 ∧
        h.conditions = (conditions r (config.subsections "conditions") 0 scope (holderPath h.id) m').value.1
  ofChain {config : Json} {context : String} {anonymous : Bool} {n : Nat} {c : Chain} :
    (chain r config context anonymous n).value.1 = some c →
      ∃ scope m, c.components = (effects r (config.subsections "effects") 0 scope (chainPath c.id) m).value.1
  /-- A holder needs nothing but an identifier. -/
  holder (config : Json) (context : String) (n : Nat) :
    (holder r config context n).value.1.isSome = true ↔ (config.text? "id").isSome = true
  /-- A chain needs a component besides. -/
  chain (config : Json) (context : String) (anonymous : Bool) (n : Nat) :
    (chain r config context anonymous n).value.1.isSome = true ↔
      (anonymous = true ∨ (config.text? "id").isSome = true) ∧
        ∃ entry ∈ config.subsections "effects", entry.DescribesEffect r

variable (r : Registries)

theorem holder_isSome_iff (config : Json) (context : String) (n : Nat) :
    (Compile.holder r config context n).value.1.isSome = true ↔ (config.text? "id").isSome = true := by
  cases hid : config.requireText "id" with
  | error e =>
    simp only [Compile.holder, hid, Json.text?_eq_none_of_error hid]
    exact iff_of_false Bool.false_ne_true Bool.false_ne_true
  | ok id =>
    simp only [Compile.holder, hid, Json.requireText_eq_ok_iff.1 hid]
    exact ⟨fun _ => rfl, fun _ => rfl⟩

theorem chain_isSome_iff (config : Json) (context : String) (anonymous : Bool) (n : Nat) :
    (Compile.chain r config context anonymous n).value.1.isSome = true ↔
      (anonymous = true ∨ (config.text? "id").isSome = true) ∧
        ∃ entry ∈ config.subsections "effects", entry.DescribesEffect r := by
  have hmake : ∀ id, (chain.make r config context id n).value.1.isSome = true ↔
      ∃ entry ∈ config.subsections "effects", entry.DescribesEffect r := fun id =>
    chainOf_isSome (effects_ne_nil_iff _ 0 (chainScope context id) (chainPath id)) context id n
  cases anonymous with
  | true => exact (hmake Chain.anonymousId).trans (by simp)
  | false =>
    cases hid : config.requireText "id" with
    | error e =>
      simp only [Compile.chain, hid, Json.text?_eq_none_of_error hid]
      exact iff_of_false Bool.false_ne_true (by simp)
    | ok id =>
      simp only [Compile.chain, hid]
      exact (hmake id).trans (by simp [Json.requireText_eq_ok_iff.1 hid])

theorem listsParts : ListsParts r where
  ofEffect := effect_conditions
  ofInline he hresponse hinline := by
    obtain ⟨-, m, hcomponents⟩ := effect_inlineChain he hresponse hinline
    exact ⟨_, m, hcomponents⟩
  ofCondition hc := by
    obtain ⟨m, hfallbacks⟩ := condition_fallbacks hc
    exact ⟨_, m, hfallbacks⟩
  ofHolder := holder_parts
  ofChain hc := by
    obtain ⟨scope, -, m, hcomponents⟩ := chain_madeWith hc
    exact ⟨scope, m, hcomponents⟩
  holder := holder_isSome_iff r
  chain := chain_isSome_iff r

end Compile

/-- What compiles is what its own configuration describes, whatever else is around it. -/
theorem described_elements_compile (r : Registries) :
    (Compile.effectFamily r).Exact ∧ (Compile.conditionFamily r).Exact ∧ Compile.ListsParts r ∧
      (r.HaveBuiltinKinds → r.AskForTexts) :=
  ⟨Compile.effects_exact r, Compile.conditions_exact r, Compile.listsParts r,
    Registries.HaveBuiltinKinds.askForTexts⟩

/-- An effect of the chain that is written inside `inlineRun`. -/
def inlineLog : Json := .object [("args", .object [("message", .text "hi")]), ("id", .text "log")]

/-- An effect with a chain written inside it needs what that holds. -/
theorem described_elements_compile_inline :
    Registries.builtin.HaveBuiltinKinds ∧ ∀ context path n,
      (Compile.effect .builtin inlineRun context path n).value.1.isSome = true := by
  obtain ⟨heffects, -, -, htexts⟩ := described_elements_compile .builtin
  have htexts := htexts Registries.haveBuiltinKinds_builtin
  have hungated : ∀ config : Json, (config.subsection "args").has "require" = false →
      (config.subsection "args").has "chance" = false → ∀ k ∈ Builtin.arguments,
        (config.subsection "args").has k.name = true →
          (config.subsection "args").HasTexts (Builtin.texts k.name) := by
    intro config hrequire hchance k hk hvalue
    simp only [Builtin.arguments, List.mem_cons, List.not_mem_nil, or_false] at hk
    rcases hk with rfl | rfl
    · exact absurd hvalue (by simp [Builtin.require, hrequire])
    · exact absurd hvalue (by simp [Builtin.chance, hchance])
  have hlog : inlineLog.OfKind .builtin (.leaf Builtin.logMessage) :=
    (htexts.effect _ _).2 ⟨by simp [Builtin.effects], rfl, hungated _ (by decide) (by decide)⟩
  have hrun : inlineRun.OfKind .builtin Builtin.runChain :=
    (htexts.effect _ _).2 ⟨by simp [Builtin.effects], rfl, hungated _ (by decide) (by decide)⟩
  have hnormal : (inlineRun.subsection "args").HasExecutor .builtin :=
    (htexts.executor _).2 (List.mem_cons_self ..)
  have hinside : inlineLog.DescribesEffect .builtin := .leaf hlog (d := .nothing) rfl
  refine ⟨Registries.haveBuiltinKinds_builtin, fun context path n => (heffects.present _ _ _ _).2 ?_⟩
  exact .inline hrun hnormal rfl rfl (List.mem_singleton.2 rfl) rfl hinside

end Ability
