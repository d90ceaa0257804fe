import Ability.Proofs.Chain.Trace
import Ability.Proofs.Dispatch

/-! Rounds. An executor that goes round a chain has turns of its own. A call of its effect takes one if the arguments
are met, and no other call does; so the turns that are over are those that were taken, wherever in the trees of calls
that was. -/

namespace Ability

open Relation

mutual

/-- The calls of a tree in the order in which they were made. -/
def Trace.nodes : Trace → List Trace
  | t@(.call _ calls) => t :: Trace.allNodes calls

def Trace.allNodes : List Trace → List Trace
  | [] => []
  | t :: ts => t.nodes ++ Trace.allNodes ts

end

theorem Trace.allNodes_append (ts us : List Trace) : allNodes (ts ++ us) = allNodes ts ++ allNodes us := by
  induction ts with
  | nil => rfl
  | cons t ts ih => rw [List.cons_append, allNodes, allNodes, ih, List.append_assoc]

theorem Trace.allNodes_singleton (t : Trace) : allNodes [t] = t :: allNodes t.calls := by
  cases t
  exact List.append_nil _

/-- The executor whose turn comes when a chain is run: the one that goes round it, if there is anything in it. -/
def Executor.turn? (x : Executor) (c : Chain) : Option Nat :=
  match x.kind with
  | .cycle => if c.components.isEmpty then none else some x.number
  | .normal | .random => none

def Response.turn? : Response → Option Nat
  | .leaf _ _ => none
  | .chain _ c x => x.turn? c

/-- The executor whose turn a call took. -/
def Trace.turn? (t : Trace) : Option Nat := if t.visit.met then t.visit.effect.response.turn? else none

theorem Trace.count_turns_cons (t : Trace) (ts : List Trace) (n : Nat) :
    ((t :: ts).filterMap (·.turn?)).count n = t.turn?.toList.count n + (ts.filterMap (·.turn?)).count n := by
  cases hturn : t.turn? with
  | none => simp [hturn]
  | some k => rw [List.filterMap_cons, hturn, Option.toList_some, ← List.count_append, List.singleton_append]

/-- The turns that are over when one more is. -/
def passed : Option Nat → (Nat → Nat) → Nat → Nat
  | none, f => f
  | some k, f => fun n => if n = k then f n + 1 else f n

theorem passed_apply (k : Option Nat) (f : Nat → Nat) (n : Nat) : passed k f n = f n + k.toList.count n := by
  cases k with
  | none => rfl
  | some k =>
    by_cases h : n = k
    · simp [passed, h]
    · simp [passed, h, Ne.symm h]

/-- The turns that are over go from `f` to `g` with these calls. Each call comes of triggering its effect in a scene
where the turns that were taken before it are over. -/
structure Rounds (f : Nat → Nat) (ts : List Trace) (g : Nat → Nat) : Prop where
  taken : ∀ n, g n = f n + ((Trace.allNodes ts).filterMap (·.turn?)).count n
  called : ∀ before t after, Trace.allNodes ts = before ++ t :: after → ∃ ev o sc, t = t.visit.effect.trace ev o sc ∧
    ∀ n, sc.tally.turns n = f n + (before.filterMap (·.turn?)).count n

namespace Rounds

variable {f g h : Nat → Nat} {ts us : List Trace}

theorem nil (f : Nat → Nat) : Rounds f [] f where
  taken n := rfl
  called before t after hnodes := by
    cases before <;> cases hnodes

theorem append (hts : Rounds f ts g) (hus : Rounds g us h) : Rounds f (ts ++ us) h where
  taken n := by
    rw [Trace.allNodes_append, List.filterMap_append, List.count_append, hus.taken, hts.taken, Nat.add_assoc]
  called before t after hnodes := by
    rw [Trace.allNodes_append] at hnodes
    -- The call is one of the later ones, or one of the earlier.
    rcases List.append_eq_append_iff.1 hnodes with ⟨more, rfl, hlater⟩ | ⟨more, hearlier, hlater⟩
    · obtain ⟨ev, o, sc, htrace, hturns⟩ := hus.called more t after hlater
      refine ⟨ev, o, sc, htrace, fun n => ?_⟩
      rw [hturns, hts.taken, List.filterMap_append, List.count_append, Nat.add_assoc]
    · cases more with
      | nil =>
        rw [List.append_nil] at hearlier
        obtain ⟨ev, o, sc, htrace, hturns⟩ := hus.called [] t after hlater.symm
        refine ⟨ev, o, sc, htrace, fun n => ?_⟩
        rw [hturns, hts.taken, hearlier]
        rfl
      | cons u more =>
        obtain ⟨rfl, -⟩ := List.cons.inj hlater
        exact hts.called before t more hearlier

/-- A call takes its turn before what it calls does. -/
theorem call {ev : Evaluator} {o : Occurrence} {e : Effect} {sc : Scene}
    (hcalls : Rounds (passed (e.trace ev o sc).turn? sc.tally.turns) (e.trace ev o sc).calls g) :
    Rounds sc.tally.turns [e.trace ev o sc] g where
  taken n := by
    rw [Trace.allNodes_singleton, hcalls.taken, passed_apply, Trace.count_turns_cons, Nat.add_assoc]
  called before t after hnodes := by
    rw [Trace.allNodes_singleton] at hnodes
    cases before with
    | nil =>
      obtain ⟨rfl, -⟩ := List.cons.inj hnodes
      refine ⟨ev, o, sc, ?_, fun n => rfl⟩
      rw [Effect.visit_trace]
      rfl
    | cons u before =>
      obtain ⟨rfl, hlater⟩ := List.cons.inj hnodes
      obtain ⟨ev', o', sc', htrace, hturns⟩ := hcalls.called before t after hlater
      refine ⟨ev', o', sc', htrace, fun n => ?_⟩
      rw [hturns, passed_apply, Nat.add_assoc, ← Trace.count_turns_cons]

end Rounds

variable {ev : Evaluator} {o : Occurrence} {sc : Scene}

section Scenes

theorem Gate.keeps_turns {site : Site} {as : List Argument} {r : Logged (Bool × Scene)} (h : Gate site o sc as r) :
    r.value.2.tally.turns = sc.tally.turns := by
  have hask : ∀ {a : Argument} {sc sc₁ : Scene} {x : Except EngineError Bool} {told : List Event},
      a.ask site o sc = ⟨(x, sc₁), told⟩ → sc₁.tally.turns = sc.tally.turns := fun asked =>
    (congrArg (·.value.2.tally.turns) asked).symm
  induction h with
  | clear sc => rfl
  | met asked others ih => exact ih.trans (hask asked)
  | unmet asked => exact hask asked
  | failed asked => exact hask asked

theorem Effect.argumentsMet_turns (ev : Evaluator) (o : Occurrence) (e : Effect) (sc : Scene) :
    (e.argumentsMet ev o sc).value.2.tally.turns = sc.tally.turns :=
  (Argument.allMet_gate _ _ _ _).keeps_turns

theorem Response.leaf_turns (site : Site) (kind : LeafKind) (d : Datum) (sc : Scene) :
    ((leaf kind d).respond ev o site sc).value.2.tally.turns = sc.tally.turns := by
  have hrun : Run.withSubject (kind.trigger site o d).run sc =
      ⟨(((kind.trigger site o d).run sc.subject).value.1,
        { sc with subject := ((kind.trigger site o d).run sc.subject).value.2 }),
        ((kind.trigger site o d).run sc.subject).events ++ []⟩ := rfl
  rw [respond_leaf, Run.bind_apply, hrun]
  cases ((kind.trigger site o d).run sc.subject).value.1 <;> rfl

variable {es : List Effect} {e : Effect} {i : Nat}

theorem Effect.at_of_getElem? (ev : Evaluator) (o : Occurrence) (h : es[i]? = some e) :
    triggerAt ev o es i = e.trigger ev o ∧ ∀ sc, traceAt ev o es i sc = [e.trace ev o sc] := by
  induction es generalizing i with
  | nil => cases h
  | cons f es ih =>
    cases i with
    | zero =>
      obtain rfl : f = e := Option.some.inj h
      exact ⟨rfl, fun _ => rfl⟩
    | succ i => exact ih h

end Scenes

/-- What an effect does that goes round `es` with the executor `n`, of which `j` turns are over. If its arguments are
met it takes the turn, triggers the component whose turn it is and nothing else, and answers as that does; if not, it
answers no. -/
structure Effect.GoesRound (ev : Evaluator) (o : Occurrence) (sc : Scene) (e : Effect) (n : Nat) (es : List Effect)
    (j : Nat) : Prop where
  met : (e.argumentsMet ev o sc).value.1 = true → ∃ f sc', es[j % es.length]? = some f ∧
    sc' = (Run.takeTurn n (e.argumentsMet ev o sc).value.2).value.2 ∧
    e.trigger ev o sc = ⟨(Run.counted .cycle (f.trigger ev o) sc').value,
      (e.argumentsMet ev o sc).events ++ (f.trigger ev o sc').events⟩ ∧
    (e.trigger ev o sc).value.1 = (f.trigger ev o sc').value.1 ∧
    (e.trace ev o sc).calls = [f.trace ev o sc']
  unmet : (e.argumentsMet ev o sc).value.1 = false →
    e.trigger ev o sc = ⟨(false, (e.argumentsMet ev o sc).value.2), (e.argumentsMet ev o sc).events⟩ ∧
      (e.trace ev o sc).calls = []

/-- Going round a chain calls the component whose turn it is, in a scene where that turn is over. -/
theorem Chain.execute_cycle (ev : Evaluator) (o : Occurrence) (c : Chain) (n : Nat) (sc : Scene)
    (hc : c.components ≠ []) : ∃ e, c.components[sc.tally.turns n % c.components.length]? = some e ∧
      c.traces ev o ⟨.cycle, n⟩ sc = [e.trace ev o (Run.takeTurn n sc).value.2] ∧
      c.execute ev o ⟨.cycle, n⟩ sc = Run.counted .cycle (e.trigger ev o) (Run.takeTurn n sc).value.2 := by
  obtain ⟨number, id, components⟩ := c
  have hlt : sc.tally.turns n % components.length < components.length :=
    Nat.mod_lt _ (List.length_pos_of_ne_nil hc)
  have hturn := List.getElem?_eq_getElem hlt
  have hempty : components.isEmpty = false := by simpa using hc
  obtain ⟨htrigger, htrace⟩ := Effect.at_of_getElem? ev o hturn
  refine ⟨_, hturn, htrace _, ?_⟩
  rw [Chain.execute, ← htrigger]
  simp only [hempty]
  rfl

theorem Effect.goesRound {e : Effect} {kind : String} {c : Chain} {n : Nat}
    (hresponse : e.response = .chain kind c ⟨.cycle, n⟩) (hc : c.components ≠ []) (ev : Evaluator) (o : Occurrence)
    (sc : Scene) : e.GoesRound ev o sc n c.components (sc.tally.turns n) where
  met hmet := by
    obtain ⟨f, hturn, htraces, hexecute⟩ := c.execute_cycle ev o n (e.argumentsMet ev o sc).value.2 hc
    have htrigger := e.trigger_of_met hmet
    rw [hresponse, Response.respond, hexecute, Run.counted_apply] at htrigger
    rw [argumentsMet_turns] at hturn
    refine ⟨f, _, hturn, rfl, htrigger, congrArg (·.value.1) htrigger, ?_⟩
    rw [trace_eq, if_pos hmet, hresponse, Response.traces, htraces]
    rfl
  unmet hunmet := by
    refine ⟨e.trigger_of_unmet hunmet, ?_⟩
    rw [trace_eq, if_neg (Bool.eq_false_iff.1 hunmet)]
    rfl

theorem Effect.trace_rounds_of (e : Effect) (sc : Scene)
    (hinside : ∀ sc' : Scene, Rounds (passed e.response.turn? sc'.tally.turns) (e.response.traces ev o sc')
      (e.response.respond ev o (e.site ev) sc').value.2.tally.turns) :
    Rounds sc.tally.turns [e.trace ev o sc] (e.trigger ev o sc).value.2.tally.turns := by
  -- Asking takes no turn, so the turn that comes is the same before and after it.
  have hasked := e.argumentsMet_turns ev o sc
  have hturn : ∀ ts, (Trace.call (e.visit ev o sc) ts).turn? =
      if (e.argumentsMet ev o sc).value.1 then e.response.turn? else none := fun _ => rfl
  refine .call ?_
  rw [trace_eq, hturn, Trace.calls]
  cases hmet : (e.argumentsMet ev o sc).value.1 with
  | false =>
    rw [trigger_of_unmet hmet, hasked]
    exact .nil _
  | true =>
    rw [trigger_of_met hmet, ← hasked]
    exact hinside _

mutual

theorem Effect.trace_rounds : ∀ (e : Effect) (sc : Scene),
    Rounds sc.tally.turns [e.trace ev o sc] (e.trigger ev o sc).value.2.tally.turns
  | ⟨id, args, response, _, _, _, context⟩, sc =>
    Effect.trace_rounds_of _ sc fun sc' => response.traces_rounds ⟨id, args, context, ev⟩ sc'

theorem Response.traces_rounds (site : Site) : ∀ (s : Response) (sc : Scene),
    Rounds (passed s.turn? sc.tally.turns) (s.traces ev o sc) (s.respond ev o site sc).value.2.tally.turns
  | .leaf kind d, sc => by
    rw [Response.leaf_turns]
    exact .nil _
  | .chain _ c x, sc => c.traces_rounds x sc

theorem Chain.traces_rounds (x : Executor) : ∀ (c : Chain) (sc : Scene),
    Rounds (passed (x.turn? c) sc.tally.turns) (c.traces ev o x sc) (c.execute ev o x sc).value.2.tally.turns
  | ⟨number, id, components⟩, sc => by
    -- A chain without components is left before a draw is made or a turn taken.
    have hall := Effect.traceAll_rounds components sc
    have hat := fun i sc' => Effect.traceAt_rounds components i sc'
    obtain ⟨kind, n⟩ := x
    cases kind with
    | normal => exact hall
    | random =>
      cases components with
      | nil => exact .nil _
      | cons e es => exact hat _ (Run.draw (e :: es).length sc).value.2
    | cycle =>
      cases components with
      | nil => exact .nil _
      | cons e es => exact hat _ (Run.takeTurn n sc).value.2

theorem Effect.traceAll_rounds : ∀ (es : List Effect) (sc : Scene),
    Rounds sc.tally.turns (Effect.traceAll ev o es sc) (Effect.triggerAll ev o es sc).value.2.tally.turns
  | [], sc => .nil _
  | e :: r, sc => by
    have hfirst := e.trace_rounds sc
    have hrest := Effect.traceAll_rounds r (e.trigger ev o sc).value.2
    rw [Effect.traceAll, Effect.triggerAll_cons, Run.andThen_apply]
    split
    · exact hfirst.append hrest
    · exact hfirst

theorem Effect.traceAt_rounds : ∀ (es : List Effect) (i : Nat) (sc : Scene),
    Rounds sc.tally.turns (Effect.traceAt ev o es i sc) (Effect.triggerAt ev o es i sc).value.2.tally.turns
  | [], _, _ => .nil _
  | e :: _, 0, sc => e.trace_rounds sc
  | _ :: r, i + 1, sc => Effect.traceAt_rounds r i sc

end

/-- Every call in what an effect leads to is reached from it through components. -/
theorem Effect.trace_reached_of (e : Effect) (sc : Scene)
    (hinside : ∀ sc' : Scene, ∀ t ∈ Trace.allNodes (e.response.traces ev o sc'),
      ∃ f, e.Calls f ∧ ReflTransGen Effect.Calls f t.visit.effect) :
    ∀ t ∈ (e.trace ev o sc).nodes, ReflTransGen Effect.Calls e t.visit.effect := by
  rw [trace_eq, Trace.nodes]
  refine List.forall_mem_cons.2 ⟨.refl, fun t ht => ?_⟩
  split at ht
  · obtain ⟨f, hf, hreached⟩ := hinside _ t ht
    exact .head hf hreached
  · cases ht

mutual

theorem Effect.trace_reached : ∀ (e : Effect) (sc : Scene),
    ∀ t ∈ (e.trace ev o sc).nodes, ReflTransGen Effect.Calls e t.visit.effect
  | ⟨id, args, response, _, _, _, context⟩, sc =>
    Effect.trace_reached_of _ sc fun sc' t ht => by
      obtain ⟨kind, c, x, hresponse, f, hf, hreached⟩ := response.traces_reached sc' t ht
      exact ⟨f, ⟨kind, c, x, hresponse, hf⟩, hreached⟩

theorem Response.traces_reached : ∀ (s : Response) (sc : Scene), ∀ t ∈ Trace.allNodes (s.traces ev o sc),
    ∃ kind c x, s = .chain kind c x ∧ ∃ f ∈ c.components, ReflTransGen Effect.Calls f t.visit.effect
  | .leaf _ _, _, _, ht => nomatch ht
  | .chain kind c x, sc, t, ht => ⟨kind, c, x, rfl, c.traces_reached x sc t ht⟩

theorem Chain.traces_reached (x : Executor) : ∀ (c : Chain) (sc : Scene),
    ∀ t ∈ Trace.allNodes (c.traces ev o x sc), ∃ f ∈ c.components, ReflTransGen Effect.Calls f t.visit.effect
  | ⟨_, _, components⟩, sc => by
    have hat := fun i sc' => Effect.traceAt_reached components i sc'
    unfold Chain.traces
    split
    · exact Effect.traceAll_reached components sc
    · exact hat _ _
    · exact hat _ _

theorem Effect.traceAll_reached : ∀ (es : List Effect) (sc : Scene),
    ∀ t ∈ Trace.allNodes (Effect.traceAll ev o es sc), ∃ f ∈ es, ReflTransGen Effect.Calls f t.visit.effect
  | [], _, _, ht => nomatch ht
  | e :: r, sc, t, ht => by
    have hrest := Effect.traceAll_reached r (e.trigger ev o sc).value.2
    rcases List.mem_append.1 ht with ht | ht
    · exact ⟨e, List.mem_cons_self, e.trace_reached sc t ht⟩
    · split at ht
      · obtain ⟨f, hf, hreached⟩ := hrest t ht
        exact ⟨f, List.mem_cons_of_mem e hf, hreached⟩
      · cases ht

theorem Effect.traceAt_reached : ∀ (es : List Effect) (i : Nat) (sc : Scene),
    ∀ t ∈ Trace.allNodes (Effect.traceAt ev o es i sc), ∃ f ∈ es, ReflTransGen Effect.Calls f t.visit.effect
  | [], _, _, _, ht => nomatch ht
  | e :: _, 0, sc, t, ht =>
    ⟨e, List.mem_cons_self, e.trace_reached sc t ((List.mem_append.1 ht).resolve_right List.not_mem_nil)⟩
  | e :: r, i + 1, sc, t, ht => by
    obtain ⟨f, hf, hreached⟩ := Effect.traceAt_reached r i sc t ht
    exact ⟨f, List.mem_cons_of_mem e hf, hreached⟩

end

end Ability
