import Ability.Proofs.Compile.Blocks
import Mathlib.Data.Option.Basic
import Mathlib.Logic.Relator

/-! Blocks that differ in the numbers of their executors. Blocks that are compiled alike at different times are such
twins; they do the same in scenes where the executors that stand for each other have had the same turns. -/

namespace Ability

open Relation

variable {R : Nat → Nat → Prop} {ev : Evaluator} {o : Occurrence}

mutual

/-- The effects differ in nothing that counts when they are triggered but the numbers of their executors, and `R` says
which number stands for which. -/
def Effect.Twin (R : Nat → Nat → Prop) : Effect → Effect → Prop
  | ⟨id, args, response, _, arguments, _, context⟩, f =>
    f.id = id ∧ f.args = args ∧ f.arguments = arguments ∧ f.context = context ∧ Response.Twin R response f.response
termination_by structural e => e

def Response.Twin (R : Nat → Nat → Prop) : Response → Response → Prop
  | .leaf kind d, s => s = .leaf kind d
  | .chain kind c x, s =>
    ∃ d y, s = .chain kind d y ∧ y.kind = x.kind ∧ R x.number y.number ∧ Chain.Twin R c d
termination_by structural s => s

def Chain.Twin (R : Nat → Nat → Prop) : Chain → Chain → Prop
  | ⟨_, _, components⟩, d => Effect.AllTwin R components d.components
termination_by structural c => c

def Effect.AllTwin (R : Nat → Nat → Prop) : List Effect → List Effect → Prop
  | [], fs => fs = []
  | e :: es, fs => ∃ g gs, fs = g :: gs ∧ Effect.Twin R e g ∧ Effect.AllTwin R es gs
termination_by structural es => es

end

theorem Effect.AllTwin.append {es fs gs hs : List Effect} (h : AllTwin R es fs) (h' : AllTwin R gs hs) :
    AllTwin R (es ++ gs) (fs ++ hs) := by
  induction es generalizing fs with
  | nil =>
    obtain rfl : fs = [] := h
    exact h'
  | cons e es ih =>
    obtain ⟨f, fs, rfl, hef, hrest⟩ := h
    exact ⟨f, fs ++ hs, rfl, hef, ih hrest⟩

theorem Effect.allTwin_toList {e f : Option Effect} (h : Option.Rel (Twin R) e f) : AllTwin R e.toList f.toList := by
  cases h with
  | some hef => exact ⟨_, [], rfl, hef, rfl⟩
  | none => rfl

theorem Effect.AllTwin.length_eq {es fs : List Effect} (h : AllTwin R es fs) : fs.length = es.length := by
  induction es generalizing fs with
  | nil =>
    obtain rfl : fs = [] := h
    rfl
  | cons e es ih =>
    obtain ⟨f, fs, rfl, -, hrest⟩ := h
    rw [List.length_cons, List.length_cons, ih hrest]

theorem Effect.AllTwin.isEmpty_eq {es fs : List Effect} (h : AllTwin R es fs) : fs.isEmpty = es.isEmpty := by
  have hlength := h.length_eq
  cases es <;> cases fs <;> simp_all

/-- The executor with the number runs a chain somewhere in what the effect can reach. -/
def Effect.Uses (e : Effect) (i : Nat) : Prop := ∃ f, ReflTransGen Effect.Calls e f ∧ f.executor? = some i

mutual

/-- An effect is its own twin if the number of each executor in its reach stands for itself. -/
theorem Effect.twin_self : ∀ e : Effect, (∀ i, e.Uses i → R i i) → e.Twin R e
  | ⟨id, args, .leaf kind d, _, _, _, _⟩, _ => ⟨rfl, rfl, rfl, rfl, rfl⟩
  | ⟨id, args, .chain kind c x, _, _, _, _⟩, h => by
    have hown : R x.number x.number := h _ ⟨_, .refl, rfl⟩
    have hinside : c.Twin R c := c.twin_self fun e he i ⟨f, hf, hi⟩ => h i ⟨f, .head ⟨kind, c, x, rfl, he⟩ hf, hi⟩
    exact ⟨rfl, rfl, rfl, rfl, c, x, rfl, rfl, hown, hinside⟩

theorem Chain.twin_self : ∀ c : Chain, (∀ e ∈ c.components, ∀ i, e.Uses i → R i i) → c.Twin R c
  | ⟨_, _, components⟩, h => Effect.allTwin_self components h

theorem Effect.allTwin_self : ∀ es : List Effect, (∀ e ∈ es, ∀ i, e.Uses i → R i i) → Effect.AllTwin R es es
  | [], _ => rfl
  | e :: r, h => by
    obtain ⟨he, hr⟩ := List.forall_mem_cons.1 h
    exact ⟨e, r, rfl, e.twin_self he, Effect.allTwin_self r hr⟩

end

/-- Scenes with the same subject and the same draws, where executors that stand for each other have had as many
turns. -/
structure Scene.Twin (R : Nat → Nat → Prop) (a b : Scene) : Prop where
  subject : a.subject = b.subject
  dice : a.tally.dice = b.tally.dice
  turns {i j : Nat} : R i j → a.tally.turns i = b.tally.turns j

/-- Two ends of runs with the same answer, at which the same was told. -/
structure Run.Level {α : Type} (R : Nat → Nat → Prop) (x y : Logged (α × Scene)) : Prop where
  answer : x.value.1 = y.value.1
  events : x.events = y.events
  scene : x.value.2.Twin R y.value.2

/-- From twin scenes the runs come to the same end. -/
def Run.Twin {α : Type} (R : Nat → Nat → Prop) (x y : Run α) : Prop :=
  ∀ a b : Scene, a.Twin R b → Level R (x a) (y b)

namespace Run.Twin

variable {α β : Type}

theorem pure (a : α) : Run.Twin R (Pure.pure a) (Pure.pure a) := fun _ _ h => ⟨rfl, rfl, h⟩

theorem bind {x y : Run α} {k l : α → Run β} (hx : Run.Twin R x y) (hk : ∀ a, Run.Twin R (k a) (l a)) :
    Run.Twin R (x >>= k) (y >>= l) := by
  intro a b h
  obtain ⟨hanswer, hevents, hscene⟩ := hx a b h
  have hnext := hk (y b).value.1 _ _ hscene
  rw [bind_apply, bind_apply, hanswer]
  exact ⟨hnext.answer, by rw [hevents, hnext.events], hnext.scene⟩

theorem count (c : Counter) : Run.Twin R (Run.count c) (Run.count c) :=
  fun _ _ h => ⟨rfl, rfl, h.subject, h.dice, h.turns⟩

theorem tell (e : Event) : Run.Twin R (Run.tell e) (Run.tell e) := fun _ _ h => ⟨rfl, rfl, h⟩

theorem withDice (x : StateT Dice Logged α) : Run.Twin R (Run.withDice x) (Run.withDice x) := by
  rintro ⟨s, turns, dice, metrics⟩ ⟨s', turns', dice', metrics'⟩ ⟨rfl, rfl, hturns⟩
  exact ⟨rfl, rfl, rfl, rfl, hturns⟩

theorem withSubject (x : StateT Subject Logged α) : Run.Twin R (Run.withSubject x) (Run.withSubject x) := by
  rintro ⟨s, turns, dice, metrics⟩ ⟨s', turns', dice', metrics'⟩ ⟨rfl, rfl, hturns⟩
  exact ⟨rfl, rfl, rfl, rfl, hturns⟩

/-- Both take the turn of their own executor, and no other executor stands for either of them. -/
theorem takeTurn (hR : Relator.BiUnique R) {i j : Nat} (hij : R i j) :
    Run.Twin R (Run.takeTurn i) (Run.takeTurn j) := by
  intro a b h
  refine ⟨h.turns hij, rfl, h.subject, h.dice, fun {k l} hkl => ?_⟩
  have hsame : k = i ↔ l = j := ⟨fun hk => hR.2 (hk ▸ hkl) hij, fun hl => hR.1 (hl ▸ hkl) hij⟩
  simp only [Run.takeTurn, Tally.takeTurn, Logged.pure_value, hsame, h.turns hkl, h.turns hij]

theorem orTell (f : EngineError → Event) : ∀ x, Run.Twin R (Run.orTell f x) (Run.orTell f x)
  | .ok b => .pure b
  | .error e => .bind (.tell (f e)) fun _ => .pure false

end Run.Twin

theorem Argument.allMet_twin (site : Site) (as : List Argument) :
    Run.Twin R (allMet site o as) (allMet site o as) := by
  induction as with
  | nil => exact .pure true
  | cons a r ih =>
    have hasked : Run.Twin R (a.isMet site o) (a.isMet site o) := by
      rw [a.isMet_eq]
      exact .bind (.withDice _) (.orTell _)
    refine hasked.bind fun met => ?_
    cases met with
    | true => exact ih
    | false => exact .pure false

mutual

/-- Twins do the same. -/
theorem Effect.trigger_twin (hR : Relator.BiUnique R) :
    ∀ e f : Effect, e.Twin R f → Run.Twin R (e.trigger ev o) (f.trigger ev o)
  | ⟨id, args, response, _, arguments, _, context⟩, ⟨_, _, response', _, _, _, _⟩, h => by
    obtain ⟨rfl, rfl, rfl, rfl, hresponse⟩ := h
    refine (Argument.allMet_twin _ _).bind fun met => ?_
    cases met with
    | true => exact response.respond_twin hR _ response' hresponse
    | false => exact .pure false

theorem Response.respond_twin (hR : Relator.BiUnique R) (site : Site) :
    ∀ s t : Response, s.Twin R t → Run.Twin R (s.respond ev o site) (t.respond ev o site)
  | .leaf kind d, t, h => by
    obtain rfl : t = .leaf kind d := h
    rw [Response.respond_leaf]
    exact .bind (.withSubject _) (.orTell _)
  | .chain kind c x, t, h => by
    obtain ⟨d, y, rfl, hkind, hnumber, hinside⟩ := h
    exact c.execute_twin hR d hinside hkind hnumber

theorem Chain.execute_twin (hR : Relator.BiUnique R) :
    ∀ c d : Chain, c.Twin R d → ∀ {x y : Executor}, y.kind = x.kind → R x.number y.number →
      Run.Twin R (c.execute ev o x) (d.execute ev o y)
  | ⟨_, _, es⟩, ⟨_, _, fs⟩, h, x, y, hkind, hnumber => by
    have hall : Effect.AllTwin R es fs := h
    have hat := fun i => Effect.triggerAt_twin hR es fs hall i
    rw [Chain.execute, Chain.execute, hkind, hall.isEmpty_eq, hall.length_eq]
    -- One after the other, at random and in turn: only the last looks at the number.
    split
    · refine (Effect.triggerAll_twin hR es fs hall).bind fun _ => ?_
      exact .bind (.count _) fun _ => .pure _
    · split
      · exact .pure false
      · refine .bind (.withDice _) fun i => (hat i).bind fun _ => ?_
        exact .bind (.count _) fun _ => .pure _
    · split
      · exact .pure false
      · refine .bind (.takeTurn hR hnumber) fun i => (hat _).bind fun _ => ?_
        exact .bind (.count _) fun _ => .pure _

theorem Effect.triggerAll_twin (hR : Relator.BiUnique R) :
    ∀ es fs : List Effect, Effect.AllTwin R es fs →
      Run.Twin R (Effect.triggerAll ev o es) (Effect.triggerAll ev o fs)
  | [], fs, h => by
    obtain rfl : fs = [] := h
    exact .pure true
  | e :: r, fs, h => by
    obtain ⟨f, fs, rfl, hef, hrest⟩ := h
    refine (e.trigger_twin hR f hef).bind fun handled => ?_
    cases handled with
    | true => exact Effect.triggerAll_twin hR r fs hrest
    | false => exact .pure false

theorem Effect.triggerAt_twin (hR : Relator.BiUnique R) :
    ∀ es fs : List Effect, Effect.AllTwin R es fs → ∀ i,
      Run.Twin R (Effect.triggerAt ev o es i) (Effect.triggerAt ev o fs i)
  | [], fs, h, i => by
    obtain rfl : fs = [] := h
    exact .pure false
  | e :: r, fs, h, i => by
    obtain ⟨f, fs, rfl, hef, hrest⟩ := h
    cases i with
    | zero => exact e.trigger_twin hR f hef
    | succ i => exact Effect.triggerAt_twin hR r fs hrest i

end

end Ability
