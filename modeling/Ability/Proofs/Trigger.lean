import Ability.Builtin.Effects
import Ability.Engine
import Mathlib.Logic.Relation

/-! Triggering effects. A trigger asks the arguments of the effects that it reaches, through any nesting of
chains, and lets them respond; a property of computations that all of these have, the trigger has. So what no
response of a built-in kind touches in a subject, no trigger of built-in effects touches. -/

namespace Ability

open Relation

namespace Run

variable {α β : Type}

theorem bind_apply (x : Run α) (f : α → Run β) (sc : Scene) :
    (x >>= f) sc = ⟨(f (x sc).value.1 (x sc).value.2).value,
      (x sc).events ++ (f (x sc).value.1 (x sc).value.2).events⟩ := rfl

theorem pure_apply (a : α) (sc : Scene) : (pure a : Run α) sc = ⟨(a, sc), []⟩ := rfl

theorem tell_apply (e : Event) (sc : Scene) : tell e sc = ⟨((), sc), [e]⟩ := rfl

theorem withDice_events (x : StateT Dice Logged α) (sc : Scene) :
    (withDice x sc).events = (x sc.tally.dice).events := List.append_nil _

theorem withSubject_events (x : StateT Subject Logged α) (sc : Scene) :
    (withSubject x sc).events = (x sc.subject).events := List.append_nil _

/-- An answer as it is; for an error an event is told, and the answer is no. -/
def orTell (f : EngineError → Event) : Except EngineError Bool → Run Bool
  | .ok b => return b
  | .error e => do
    tell (f e)
    return false

end Run

theorem Argument.isMet_eq (a : Argument) (site : Site) (o : Occurrence) :
    a.isMet site o = Run.withDice (a.kind.check site o a.datum).run >>= Run.orTell (a.failure site) := rfl

theorem Response.respond_leaf (ev : Evaluator) (o : Occurrence) (site : Site) (kind : LeafKind)
    (d : Datum) :
    (leaf kind d).respond ev o site = Run.withSubject (kind.trigger site o d).run >>=
      Run.orTell (Effect.triggerFailure kind.id site.context o) := rfl

/-- A property of computations that is kept by everything that triggering puts them together with. -/
structure Run.Closed (Q : (α : Type) → Run α → Prop) : Prop where
  pure {α : Type} (a : α) : Q α (Pure.pure a)
  bind {α β : Type} {x : Run α} {k : α → Run β} : Q α x → (∀ a, Q β (k a)) → Q β (x >>= k)
  count (c : Counter) : Q Unit (Run.count c)
  takeTurn (number : Nat) : Q Nat (Run.takeTurn number)
  draw (n : Nat) : Q Nat (Run.withDice fun d => Pure.pure (Dice.below n d))

/-- The other is a component of the chain that the one runs. -/
def Effect.Calls (e f : Effect) : Prop := ∃ kind c x, e.response = .chain kind c x ∧ f ∈ c.components

section

variable {Q : (α : Type) → Run α → Prop} {ev : Evaluator} {o : Occurrence}

/-- What the effect does itself, asking its arguments and responding without a chain, has the property. -/
structure Effect.Does (Q : (α : Type) → Run α → Prop) (ev : Evaluator) (o : Occurrence) (e : Effect) :
    Prop where
  asks : Q Bool (e.argumentsMet ev o)
  responds : ∀ kind d, e.response = .leaf kind d → Q Bool (e.response.respond ev o (e.site ev))

theorem Argument.allMet_closed (hQ : Run.Closed Q) (site : Site) {as : List Argument}
    (has : ∀ a ∈ as, Q Bool (a.isMet site o)) : Q Bool (Argument.allMet site o as) := by
  induction as with
  | nil => exact hQ.pure true
  | cons a r ih =>
    obtain ⟨ha, hr⟩ := List.forall_mem_cons.mp has
    refine hQ.bind ha fun met => ?_
    cases met with
    | true => exact ih hr
    | false => exact hQ.pure false

mutual

theorem Effect.trigger_closed (hQ : Run.Closed Q) :
    ∀ e : Effect, (∀ f, ReflTransGen Effect.Calls e f → f.Does Q ev o) → Q Bool (e.trigger ev o)
  | ⟨id, args, response, conditions, arguments, triggers, context⟩, h => by
    refine hQ.bind (h _ .refl).asks fun met => ?_
    cases met with
    | false => exact hQ.pure false
    | true =>
      cases response with
      | leaf kind d => exact (h _ .refl).responds kind d rfl
      | chain kind c x => exact c.execute_closed hQ x fun e he f hf => h f (.head ⟨kind, c, x, rfl, he⟩ hf)

theorem Chain.execute_closed (hQ : Run.Closed Q) (x : Executor) :
    ∀ c : Chain, (∀ e ∈ c.components, ∀ f, ReflTransGen Effect.Calls e f → f.Does Q ev o) →
      Q Bool (c.execute ev o x)
  | ⟨_, _, components⟩, h => by
    unfold Chain.execute
    have hat := fun i => Effect.triggerAt_closed hQ components i h
    split
    · refine hQ.bind (Effect.triggerAll_closed hQ components h) fun _ => ?_
      exact hQ.bind (hQ.count _) fun _ => hQ.pure _
    · split
      · exact hQ.pure false
      · refine hQ.bind (hQ.draw _) fun i => hQ.bind (hat i) fun _ => ?_
        exact hQ.bind (hQ.count _) fun _ => hQ.pure _
    · split
      · exact hQ.pure false
      · refine hQ.bind (hQ.takeTurn _) fun i => hQ.bind (hat _) fun _ => ?_
        exact hQ.bind (hQ.count _) fun _ => hQ.pure _

theorem Effect.triggerAll_closed (hQ : Run.Closed Q) :
    ∀ es : List Effect, (∀ e ∈ es, ∀ f, ReflTransGen Effect.Calls e f → f.Does Q ev o) →
      Q Bool (Effect.triggerAll ev o es)
  | [], _ => hQ.pure true
  | e :: r, h => by
    obtain ⟨he, hr⟩ := List.forall_mem_cons.mp h
    refine hQ.bind (e.trigger_closed hQ he) fun handled => ?_
    cases handled with
    | true => exact Effect.triggerAll_closed hQ r hr
    | false => exact hQ.pure false

theorem Effect.triggerAt_closed (hQ : Run.Closed Q) :
    ∀ (es : List Effect) (i : Nat), (∀ e ∈ es, ∀ f, ReflTransGen Effect.Calls e f → f.Does Q ev o) →
      Q Bool (Effect.triggerAt ev o es i)
  | [], _, _ => hQ.pure false
  | e :: _, 0, h => e.trigger_closed hQ (List.forall_mem_cons.mp h).1
  | _ :: r, i + 1, h => Effect.triggerAt_closed hQ r i (List.forall_mem_cons.mp h).2

end

end

mutual

/-- Made of the kinds that come with the engine, the components of its chains included. -/
def Effect.Builtin : Effect → Prop
  | ⟨_, _, response, _, _, _, _⟩ => response.Builtin

def Response.Builtin : Response → Prop
  | .leaf kind _ => .leaf kind ∈ Builtin.effects
  | .chain _ chain _ => chain.Builtin

def Chain.Builtin : Chain → Prop
  | ⟨_, _, components⟩ => Effect.AllBuiltin components

def Effect.AllBuiltin : List Effect → Prop
  | [] => True
  | e :: r => e.Builtin ∧ Effect.AllBuiltin r

end

theorem Builtin.leaf_mem_effects {k : LeafKind} :
    .leaf k ∈ effects ↔ k = givePermission ∨ k = sendMessage ∨ k = logMessage := by
  simp [effects, runChain]

/-- A computation that keeps what `f` tells of the subject. -/
def Run.Keeps {α β : Type} (f : Subject → β) (x : Run α) : Prop :=
  ∀ sc, f (x sc).value.2.subject = f sc.subject

namespace Run.Keeps

variable {α β γ : Type} {f : Subject → γ}

theorem pure (a : α) : Keeps f (Pure.pure a : Run α) := fun _ => rfl

theorem bind {x : Run α} {g : α → Run β} (hx : Keeps f x) (hg : ∀ a, Keeps f (g a)) :
    Keeps f (x >>= g) :=
  fun sc => (hg _ _).trans (hx sc)

theorem count (c : Counter) : Keeps f (Run.count c) := fun _ => rfl
theorem tell (e : Event) : Keeps f (Run.tell e) := fun _ => rfl

theorem takeTurn (n : Nat) : Keeps f (Run.takeTurn n) := fun _ => rfl

theorem withDice (x : StateT Dice Logged α) : Keeps f (Run.withDice x) := fun _ => rfl

theorem withSubject {x : StateT Subject Logged α} (hx : ∀ s, f (x s).value.2 = f s) :
    Keeps f (Run.withSubject x) := fun sc => hx sc.subject

theorem orTell (g : EngineError → Event) : ∀ x, Keeps f (Run.orTell g x)
  | .ok b => .pure b
  | .error e => .bind (.tell (g e)) fun _ => .pure false

end Run.Keeps

variable {γ : Type} {f : Subject → γ}

theorem Run.keeps_closed : Run.Closed fun _ x => x.Keeps f where
  pure a := .pure a
  bind hx hk := .bind hx hk
  count c := .count c
  takeTurn n := .takeTurn n
  draw _ := .withDice _

theorem Argument.isMet_keeps (a : Argument) (site : Site) (o : Occurrence) :
    (a.isMet site o).Keeps f := by
  rw [isMet_eq]
  exact .bind (.withDice _) (.orTell _)

/-- No response of a built-in kind touches what `f` tells. -/
def RespondKeeps (f : Subject → γ) : Prop :=
  ∀ k, .leaf k ∈ Builtin.effects → ∀ site o d s, f ((k.trigger site o d).run s).value.2 = f s

theorem RespondKeeps.comp {δ : Type} {g : Subject → δ} (hf : RespondKeeps f) (p : γ → δ)
    (hg : ∀ s, g s = p (f s)) : RespondKeeps g := by
  intro k hk site o d s
  rw [hg, hg, hf k hk site o d s]

/-- A subject apart from its messages. -/
def Subject.silent (s : Subject) : Subject := s.modify fun sh => { sh with messages := [] }

theorem Builtin.sendMessage_subject (site : Site) (o : Occurrence) (s : Subject) :
    ((sendMessage.respond site o .nothing).run s).value.2 =
      match ((site.evaluation o.placeholders).text? "message").value with
      | some m => s.send m
      | none => s := by
  have h : ∀ m : Option String, ((do
      match m with
      | some m => modify (·.send m); return true
      | none => throw (.missingKey "message") : Act Bool).run s).value.2 =
      match m with
      | some m => s.send m
      | none => s := fun m => by cases m <;> rfl
  exact h _

/-- All that built-in effects do to a subject when they are triggered is to send it messages. -/
theorem silent_kept_by_responses : RespondKeeps Subject.silent := by
  intro k hk site o d s
  rcases Builtin.leaf_mem_effects.mp hk with rfl | rfl | rfl
  · cases d <;> rfl
  · cases d with
    | nothing =>
      refine (congrArg Subject.silent (Builtin.sendMessage_subject site o s)).trans ?_
      split
      · simp [Subject.silent, Subject.send, Subject.modify, Function.comp_def]
      · rfl
    | text p => rfl
    | json v => rfl
  · cases d <;> rfl

theorem Effect.allBuiltin_iff {es : List Effect} : Effect.AllBuiltin es ↔ ∀ e ∈ es, e.Builtin := by
  induction es with
  | nil => exact ⟨fun _ _ he => absurd he List.not_mem_nil, fun _ => trivial⟩
  | cons e r ih =>
    rw [List.forall_mem_cons, ← ih]
    rfl

theorem Effect.Builtin.of_calls {e g : Effect} (he : e.Builtin) (hg : ReflTransGen Effect.Calls e g) :
    g.Builtin := by
  induction hg with
  | refl => exact he
  | @tail d g _ hdg hd =>
    obtain ⟨kind, ⟨_, _, components⟩, x, hresponse, hmem⟩ := hdg
    cases d
    subst hresponse
    exact Effect.allBuiltin_iff.mp hd g hmem

theorem Effect.Builtin.does (hf : RespondKeeps f) {e : Effect} (he : e.Builtin) (ev : Evaluator)
    (o : Occurrence) : e.Does (fun _ x => x.Keeps f) ev o where
  asks := Argument.allMet_closed Run.keeps_closed _ fun a _ => a.isMet_keeps _ o
  responds kind d hresponse := by
    have hkind : .leaf kind ∈ Builtin.effects := by
      cases e
      subst hresponse
      exact he
    rw [hresponse, Response.respond_leaf]
    exact .bind (.withSubject (hf kind hkind _ o d)) (.orTell _)

theorem Effect.trigger_keeps (hf : RespondKeeps f) (ev : Evaluator) (o : Occurrence) {e : Effect}
    (he : e.Builtin) : (e.trigger ev o).Keeps f :=
  e.trigger_closed Run.keeps_closed fun _ hg => (he.of_calls hg).does hf ev o

theorem Engine.triggerEach_keeps (hf : RespondKeeps f) (ev : Evaluator) (o : Occurrence)
    {es : List Effect} (hes : ∀ e ∈ es, e.Builtin) : (triggerEach ev o es).Keeps f := by
  induction es with
  | nil => exact .pure 0
  | cons e r ih =>
    obtain ⟨he, hr⟩ := List.forall_mem_cons.mp hes
    exact .bind (Effect.trigger_keeps hf ev o he) fun _ => .bind (ih hr) fun _ => .pure _

/-- A dispatch to built-in effects keeps of the subject what their responses keep. -/
theorem Engine.dispatch_keeps (hf : RespondKeeps f) (s : Subject) (trigger : String)
    (data : TriggerData) (g : Engine) (hes : ∀ e ∈ (g.activeEffects s.id).members, e.Builtin) :
    f (dispatch s trigger data g).value.1.2 = f s :=
  triggerEach_keeps hf g.evaluator _ (fun e he => hes e (List.mem_filter.mp he).1) _

end Ability
