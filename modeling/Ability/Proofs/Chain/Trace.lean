import Ability.Proofs.Trigger

/-! What is called when an effect is triggered. An effect that runs a chain calls components of it, and those call
others in turn; the calls make a tree, each with how it ended and what was told meanwhile. What was counted before
has no part in it. -/

namespace Ability

/-- Scenes that differ in nothing but what was counted. -/
structure Scene.Like (a b : Scene) : Prop where
  subject : a.subject = b.subject
  turns : a.tally.turns = b.tally.turns
  dice : a.tally.dice = b.tally.dice

namespace Scene.Like

theorem refl (a : Scene) : a.Like a := ⟨rfl, rfl, rfl⟩

theorem trans {a b c : Scene} (h : a.Like b) (h' : b.Like c) : a.Like c :=
  ⟨h.subject.trans h'.subject, h.turns.trans h'.turns, h.dice.trans h'.dice⟩

theorem symm {a b : Scene} (h : a.Like b) : b.Like a := ⟨h.subject.symm, h.turns.symm, h.dice.symm⟩

end Scene.Like

/-- Two runs with the same answer that tell the same and leave like scenes. -/
structure Run.Agree {α : Type} (x y : Logged (α × Scene)) : Prop where
  answer : x.value.1 = y.value.1
  events : x.events = y.events
  scene : x.value.2.Like y.value.2

/-- The run does the same whatever was counted before. -/
def Run.Blind {α : Type} (x : Run α) : Prop := ∀ a b : Scene, a.Like b → Run.Agree (x a) (x b)

namespace Run.Blind

variable {α β : Type}

theorem pure (a : α) : Blind (Pure.pure a : Run α) := fun _ _ h => ⟨rfl, rfl, h⟩

theorem bind {x : Run α} {k : α → Run β} (hx : x.Blind) (hk : ∀ a, (k a).Blind) : (x >>= k).Blind := by
  intro a b h
  obtain ⟨hanswer, hevents, hscene⟩ := hx a b h
  have hnext := hk (x b).value.1 _ _ hscene
  rw [bind_apply, bind_apply, hanswer]
  exact ⟨hnext.answer, by simp only [hevents, hnext.events], hnext.scene⟩

theorem count (c : Counter) : (Run.count c).Blind := fun _ _ h => ⟨rfl, rfl, h.subject, h.turns, h.dice⟩

theorem tell (e : Event) : (Run.tell e).Blind := fun _ _ h => ⟨rfl, rfl, h⟩

theorem takeTurn (number : Nat) : (Run.takeTurn number).Blind := by
  rintro ⟨s, turns, dice, metrics⟩ ⟨s', turns', dice', metrics'⟩ ⟨rfl, rfl, rfl⟩
  exact ⟨rfl, rfl, rfl, rfl, rfl⟩

theorem withDice (x : StateT Dice Logged α) : (Run.withDice x).Blind := by
  rintro ⟨s, turns, dice, metrics⟩ ⟨s', turns', dice', metrics'⟩ ⟨rfl, rfl, rfl⟩
  exact ⟨rfl, rfl, rfl, rfl, rfl⟩

theorem withSubject (x : StateT Subject Logged α) : (Run.withSubject x).Blind := by
  rintro ⟨s, turns, dice, metrics⟩ ⟨s', turns', dice', metrics'⟩ ⟨rfl, rfl, rfl⟩
  exact ⟨rfl, rfl, rfl, rfl, rfl⟩

theorem orTell (f : EngineError → Event) : ∀ x, (Run.orTell f x).Blind
  | .ok b => .pure b
  | .error e => .bind (.tell (f e)) fun _ => .pure false

end Run.Blind

theorem Run.blind_closed : Run.Closed fun _ x => x.Blind where
  pure a := .pure a
  bind hx hk := .bind hx hk
  count c := .count c
  takeTurn n := .takeTurn n
  draw _ := .withDice _

/-- The second run follows if the first one succeeds. -/
def Run.andThen (x y : Run Bool) : Run Bool := do
  if ← x then y else return false

theorem Run.andThen_apply (x y : Run Bool) (sc : Scene) : x.andThen y sc =
    if (x sc).value.1 then ⟨(y (x sc).value.2).value, (x sc).events ++ (y (x sc).value.2).events⟩
    else ⟨(false, (x sc).value.2), (x sc).events⟩ := by
  rw [andThen, bind_apply]
  split
  · rfl
  · rw [pure_apply, List.append_nil]

/-- A run and the count of how it ended. -/
def Run.counted (kind : ExecutorKind) (x : Run Bool) : Run Bool := do
  let success ← x
  count (.chainExecution kind success)
  return success

theorem Run.counted_apply (kind : ExecutorKind) (x : Run Bool) (sc : Scene) : counted kind x sc =
    ⟨((x sc).value.1, { (x sc).value.2 with
      tally := (x sc).value.2.tally.count (.chainExecution kind (x sc).value.1) }), (x sc).events⟩ := by
  refine Logged.ext rfl ?_
  exact List.append_nil _

theorem Run.counted_agree (kind : ExecutorKind) (x : Run Bool) (sc : Scene) : Agree (counted kind x sc) (x sc) := by
  rw [counted_apply]
  exact ⟨rfl, rfl, rfl, rfl, rfl⟩

variable {ev : Evaluator} {o : Occurrence}

theorem Effect.trigger_andThen (e : Effect) : e.trigger ev o =
    (e.argumentsMet ev o).andThen (e.response.respond ev o (e.site ev)) := by
  cases e
  rfl

theorem Effect.triggerAll_cons (e : Effect) (es : List Effect) :
    triggerAll ev o (e :: es) = (e.trigger ev o).andThen (triggerAll ev o es) := rfl

theorem Effect.trigger_of_met {e : Effect} {sc : Scene} (h : (e.argumentsMet ev o sc).value.1 = true) :
    e.trigger ev o sc =
      ⟨(e.response.respond ev o (e.site ev) (e.argumentsMet ev o sc).value.2).value, (e.argumentsMet ev o sc).events ++
        (e.response.respond ev o (e.site ev) (e.argumentsMet ev o sc).value.2).events⟩ := by
  rw [trigger_andThen, Run.andThen_apply, if_pos h]

theorem Effect.trigger_of_unmet {e : Effect} {sc : Scene} (h : (e.argumentsMet ev o sc).value.1 = false) :
    e.trigger ev o sc = ⟨(false, (e.argumentsMet ev o sc).value.2), (e.argumentsMet ev o sc).events⟩ := by
  rw [trigger_andThen, Run.andThen_apply, h, if_neg Bool.false_ne_true]

theorem Effect.argumentsMet_blind (ev : Evaluator) (o : Occurrence) (e : Effect) : (e.argumentsMet ev o).Blind :=
  Argument.allMet_closed Run.blind_closed _ fun a _ => by
    rw [a.isMet_eq]
    exact .bind (.withDice _) (.orTell _)

theorem Effect.trigger_blind (ev : Evaluator) (o : Occurrence) (e : Effect) : (e.trigger ev o).Blind :=
  e.trigger_closed Run.blind_closed fun f _ =>
    ⟨f.argumentsMet_blind ev o, fun kind d hresponse => by
      rw [hresponse, Response.respond_leaf]
      exact .bind (.withSubject _) (.orTell _)⟩

/-- A call of an effect: whether its arguments were met, whether it handled the occurrence, and what was told. -/
structure Visit where
  effect : Effect
  met : Bool
  handled : Bool
  told : List Event

/-- A call, and the calls of components that it made. -/
inductive Trace
  | call (visit : Visit) (calls : List Trace)

namespace Trace

def visit : Trace → Visit
  | call v _ => v

def calls : Trace → List Trace
  | call _ ts => ts

end Trace

/-- A random number below `n`. -/
def Run.draw (n : Nat) : Run Nat := withDice fun d => pure (Dice.below n d)

section

variable (ev : Evaluator) (o : Occurrence)

def Effect.visit (e : Effect) (sc : Scene) : Visit where
  effect := e
  met := (e.argumentsMet ev o sc).value.1
  handled := (e.trigger ev o sc).value.1
  told := (e.trigger ev o sc).events

mutual

/-- What is called when the effect is triggered. -/
def Effect.trace : Effect → Scene → Trace
  | e@⟨_, _, response, _, _, _, _⟩, sc =>
    .call (e.visit ev o sc)
      (if (e.argumentsMet ev o sc).value.1 then response.traces (e.argumentsMet ev o sc).value.2 else [])

def Response.traces : Response → Scene → List Trace
  | .leaf _ _, _ => []
  | .chain _ chain executor, sc => chain.traces executor sc

/-- What an executor calls of a chain. -/
def Chain.traces (executor : Executor) : Chain → Scene → List Trace
  | ⟨_, _, components⟩, sc =>
    match executor.kind with
    | .normal => Effect.traceAll components sc
    | .random =>
      Effect.traceAt components (Run.draw components.length sc).value.1 (Run.draw components.length sc).value.2
    | .cycle =>
      Effect.traceAt components ((Run.takeTurn executor.number sc).value.1 % components.length)
        (Run.takeTurn executor.number sc).value.2

def Effect.traceAll : List Effect → Scene → List Trace
  | [], _ => []
  | e :: r, sc =>
    e.trace sc :: if (e.trigger ev o sc).value.1 then Effect.traceAll r (e.trigger ev o sc).value.2 else []

def Effect.traceAt : List Effect → Nat → Scene → List Trace
  | [], _, _ => []
  | e :: _, 0, sc => [e.trace sc]
  | _ :: r, n + 1, sc => Effect.traceAt r n sc

end

end

theorem Effect.trace_eq (e : Effect) (sc : Scene) : e.trace ev o sc = .call (e.visit ev o sc)
    (if (e.argumentsMet ev o sc).value.1 then e.response.traces ev o (e.argumentsMet ev o sc).value.2 else []) := by
  cases e
  rfl

theorem Effect.visit_trace (e : Effect) (sc : Scene) : (e.trace ev o sc).visit = e.visit ev o sc := by
  rw [trace_eq]
  rfl

section Blind

variable {sc sc' : Scene}

theorem Effect.visit_blind (e : Effect) (h : sc.Like sc') : e.visit ev o sc = e.visit ev o sc' := by
  have hmet := e.argumentsMet_blind ev o sc sc' h
  have hrun := e.trigger_blind ev o sc sc' h
  simp only [visit, hmet.answer, hrun.answer, hrun.events]

mutual

theorem Effect.trace_blind : ∀ (e : Effect) {sc sc' : Scene}, sc.Like sc' → e.trace ev o sc = e.trace ev o sc'
  | ⟨id, args, response, conditions, arguments, triggers, context⟩, sc, sc', h => by
    have hmet := Effect.argumentsMet_blind ev o
      ⟨id, args, response, conditions, arguments, triggers, context⟩ sc sc' h
    rw [Effect.trace, Effect.trace, Effect.visit_blind _ h, hmet.answer, response.traces_blind hmet.scene]

theorem Response.traces_blind : ∀ (s : Response) {sc sc' : Scene}, sc.Like sc' →
    s.traces ev o sc = s.traces ev o sc'
  | .leaf _ _, _, _, _ => rfl
  | .chain _ c x, _, _, h => c.traces_blind x h

theorem Chain.traces_blind (x : Executor) : ∀ (c : Chain) {sc sc' : Scene}, sc.Like sc' →
    c.traces ev o x sc = c.traces ev o x sc'
  | ⟨_, _, components⟩, sc, sc', h => by
    unfold Chain.traces
    have hdraw : Run.Agree (Run.draw components.length sc) (Run.draw components.length sc') :=
      Run.Blind.withDice _ sc sc' h
    have hturn := Run.Blind.takeTurn x.number sc sc' h
    split
    · exact Effect.traceAll_blind components h
    · rw [hdraw.answer]
      exact Effect.traceAt_blind components _ hdraw.scene
    · rw [hturn.answer]
      exact Effect.traceAt_blind components _ hturn.scene

theorem Effect.traceAll_blind : ∀ (es : List Effect) {sc sc' : Scene}, sc.Like sc' →
    Effect.traceAll ev o es sc = Effect.traceAll ev o es sc'
  | [], _, _, _ => rfl
  | e :: r, sc, sc', h => by
    have hrun := e.trigger_blind ev o sc sc' h
    rw [Effect.traceAll, Effect.traceAll, e.trace_blind h, hrun.answer, Effect.traceAll_blind r hrun.scene]

theorem Effect.traceAt_blind : ∀ (es : List Effect) (n : Nat) {sc sc' : Scene}, sc.Like sc' →
    Effect.traceAt ev o es n sc = Effect.traceAt ev o es n sc'
  | [], _, _, _, _ => rfl
  | e :: _, 0, _, _, h => congrArg (fun t => [t]) (e.trace_blind h)
  | _ :: r, n + 1, _, _, h => Effect.traceAt_blind r n h

end

end Blind

end Ability
