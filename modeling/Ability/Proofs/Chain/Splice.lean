import Ability.Proofs.Chain.Trace
import Ability.Proofs.Dispatch

/-! Running a chain in order. Its components are called up to the first that does not handle the occurrence. So a
component that does nothing but run another chain in order can be replaced by the components of that: a failure in it
ends both chains. Only what is counted is less then. -/

namespace Ability

variable {ev : Evaluator} {o : Occurrence}

section Prefix

/-- The attempts are those at the first effects of a list, up to one that fails or up to the end. -/
structure Attempt.Front (es : List Effect) (trail : List Attempt) (success : Bool) : Prop where
  front : trail.map (·.effect) <+: es
  going : ∀ a ∈ trail.dropLast, a.handled = true
  success_iff : success = true ↔ trail.map (·.effect) = es ∧ ∀ a ∈ trail, a.handled = true
  stopped : success = false → ∃ a, trail.getLast? = some a ∧ a.handled = false

namespace Attempt.Front

variable {a : Attempt} {es : List Effect} {trail : List Attempt} {success : Bool}

theorem nil : Front [] [] true := ⟨List.nil_prefix, nofun, by simp, nofun⟩

theorem stop (ha : a.handled = false) (es : List Effect) : Front (a.effect :: es) [a] false where
  front := by simp
  going := nofun
  success_iff := by simp [ha]
  stopped _ := ⟨a, rfl, ha⟩

theorem cons (ha : a.handled = true) (h : Front es trail success) :
    Front (a.effect :: es) (a :: trail) success where
  front := List.cons_prefix_cons.2 ⟨rfl, h.front⟩
  going := by
    cases trail with
    | nil => exact nofun
    | cons b trail => exact List.forall_mem_cons.2 ⟨ha, h.going⟩
  success_iff := by simpa [ha] using h.success_iff
  stopped hfail := by
    obtain ⟨b, hb, hno⟩ := h.stopped hfail
    exact ⟨b, by rw [List.getLast?_cons, hb]; rfl, hno⟩

end Attempt.Front

theorem Gate.eq_allMet {site : Site} {sc : Scene} {as : List Argument} {r : Logged (Bool × Scene)}
    (h : Gate site o sc as r) : r = Argument.allMet site o as sc := by
  have hstep : ∀ (a : Argument) (as : List Argument) (sc : Scene), Argument.allMet site o (a :: as) sc =
      ((a.ask site o >>= Run.orTell (a.failure site)) >>= fun met =>
        if met then Argument.allMet site o as else pure false) sc := fun _ _ _ => rfl
  induction h with
  | clear sc => rfl
  | met asked others ih => simp [hstep, Run.bind_apply, Run.orTell, Run.pure_apply, asked, ← ih]
  | unmet asked => simp [hstep, Run.bind_apply, Run.orTell, Run.pure_apply, asked]
  | failed asked => simp [hstep, Run.bind_apply, Run.orTell, Run.pure_apply, Run.tell_apply, asked]

def Attempt.visit (a : Attempt) : Visit := ⟨a.effect, a.answer.isSome, a.handled, a.events⟩

/-- An effect that is triggered is asked for its arguments and for its answer, and that is the visit to it. -/
theorem Effect.visit_tried (ev : Evaluator) (o : Occurrence) (e : Effect) (sc : Scene) :
    ∃ a : Attempt, a.visit = e.visit ev o sc ∧ Tried ev o sc a (e.trigger ev o sc).value.2 := by
  obtain ⟨a, rfl, htried, hhandled, htold⟩ := e.trigger_tried ev o sc
  refine ⟨a, ?_, htried⟩
  have hmet : a.answer.isSome = (a.effect.argumentsMet ev o sc).value.1 := by
    unfold Effect.argumentsMet
    cases htried with
    | barred gate => rw [← gate.eq_allMet]; rfl
    | answered gate answer => rw [← gate.eq_allMet]; rfl
    | failed gate answer => rw [← gate.eq_allMet]; rfl
  rw [Attempt.visit, Effect.visit, hmet, hhandled, htold]

/-- Triggering effects in order reaches them up to the first that does not handle the occurrence. -/
theorem Effect.triggerAll_front (ev : Evaluator) (o : Occurrence) (es : List Effect) (sc : Scene) :
    ∃ trail, Reached ev o sc trail (triggerAll ev o es sc).value.2 ∧
      Attempt.Front es trail (triggerAll ev o es sc).value.1 ∧
      (triggerAll ev o es sc).events = trail.flatMap (·.events) ∧
      (traceAll ev o es sc).map (·.visit) = trail.map (·.visit) := by
  induction es generalizing sc with
  | nil => exact ⟨[], .nil sc, .nil, rfl, rfl⟩
  | cons e r ih =>
    obtain ⟨a, hvisit, hfirst⟩ := e.visit_tried ev o sc
    have heffect : e = a.effect := (congrArg Visit.effect hvisit).symm
    have hhandled : (e.trigger ev o sc).value.1 = a.handled := (congrArg Visit.handled hvisit).symm
    have htold : (e.trigger ev o sc).events = a.events := (congrArg Visit.told hvisit).symm
    rw [triggerAll, Run.bind_apply, traceAll, hhandled, htold, List.map_cons, visit_trace, ← hvisit]
    cases ha : a.handled with
    | false =>
      refine ⟨[a], .cons hfirst (.nil _), ?_, rfl, rfl⟩
      rw [heffect]
      exact .stop ha r
    | true =>
      obtain ⟨trail, hrest, hfront, hevents, hvisits⟩ := ih (e.trigger ev o sc).value.2
      refine ⟨a :: trail, .cons hfirst hrest, ?_, ?_, congrArg (a.visit :: ·) hvisits⟩
      · rw [heffect] at hfront ⊢
        exact hfront.cons ha
      · rw [List.flatMap_cons, ← hevents]
        rfl

end Prefix

section Sequences

namespace Run

variable {x x' y y' : Run Bool} {a b : Scene}

theorem andThen_assoc (x y z : Run Bool) : (x.andThen y).andThen z = x.andThen (y.andThen z) := by
  funext sc
  simp only [andThen_apply]
  cases (x sc).value.1 with
  | false => rfl
  | true =>
    simp only [if_true]
    split
    · rw [List.append_assoc]
    · rfl

theorem Agree.trans {u v w : Logged (Bool × Scene)} (h : Agree u v) (h' : Agree v w) : Agree u w :=
  ⟨h.answer.trans h'.answer, h.events.trans h'.events, h.scene.trans h'.scene⟩

theorem Agree.symm {u v : Logged (Bool × Scene)} (h : Agree u v) : Agree v u :=
  ⟨h.answer.symm, h.events.symm, h.scene.symm⟩

theorem Agree.andThen (hx : Agree (x a) (x' b)) (hy : ∀ {a b : Scene}, a.Like b → Agree (y a) (y' b)) :
    Agree (x.andThen y a) (x'.andThen y' b) := by
  rw [andThen_apply, andThen_apply, hx.answer, hx.events]
  split
  · have hnext := hy hx.scene
    exact ⟨hnext.answer, by rw [hnext.events], hnext.scene⟩
  · exact ⟨rfl, rfl, hx.scene⟩

end Run

theorem Chain.execute_normal (c : Chain) (k : Nat) :
    c.execute ev o ⟨.normal, k⟩ = Run.counted .normal (Effect.triggerAll ev o c.components) := by
  cases c
  rfl

theorem Effect.triggerAll_append (es fs : List Effect) :
    triggerAll ev o (es ++ fs) = (triggerAll ev o es).andThen (triggerAll ev o fs) := by
  induction es with
  | nil =>
    funext sc
    rw [Run.andThen_apply]
    rfl
  | cons e es ih =>
    rw [List.cons_append, triggerAll_cons, triggerAll_cons, ih, Run.andThen_assoc]

theorem Effect.triggerAll_singleton (e : Effect) : triggerAll ev o [e] = e.trigger ev o := by
  funext sc
  rw [triggerAll_cons, Run.andThen_apply]
  rcases e.trigger ev o sc with ⟨⟨_ | _, sc'⟩, told⟩
  · rfl
  · exact Logged.ext rfl (List.append_nil told)

theorem Effect.traceAll_singleton (e : Effect) (sc : Scene) : traceAll ev o [e] sc = [e.trace ev o sc] := by
  rw [traceAll]
  split <;> rfl

theorem Effect.traceAll_cons (e : Effect) (es : List Effect) (sc : Scene) :
    traceAll ev o (e :: es) sc = e.trace ev o sc ::
      if (e.trigger ev o sc).value.1 then traceAll ev o es (e.trigger ev o sc).value.2 else [] := rfl

theorem Effect.traceAll_append (es fs : List Effect) (sc : Scene) :
    traceAll ev o (es ++ fs) sc = traceAll ev o es sc ++
      if (triggerAll ev o es sc).value.1 then traceAll ev o fs (triggerAll ev o es sc).value.2 else [] := by
  induction es generalizing sc with
  | nil => rfl
  | cons e es ih =>
    rw [List.cons_append, traceAll_cons, traceAll_cons, triggerAll_cons, Run.andThen_apply, ih]
    split <;> simp

end Sequences

section Leaves

mutual

/-- The calls of effects that run no chain, in the order in which they were made. -/
def Trace.leaves : Trace → List Visit
  | .call v calls =>
    match v.effect.response with
    | .leaf _ _ => [v]
    | .chain _ _ _ => Trace.allLeaves calls

def Trace.allLeaves : List Trace → List Visit
  | [] => []
  | t :: ts => t.leaves ++ Trace.allLeaves ts

end

theorem Trace.allLeaves_append (ts us : List Trace) : allLeaves (ts ++ us) = allLeaves ts ++ allLeaves us := by
  induction ts with
  | nil => rfl
  | cons t ts ih => rw [List.cons_append, allLeaves, allLeaves, ih, List.append_assoc]

/-- The effect runs a chain in order, whether it has arguments or not. -/
def Effect.RunsInOrder (e : Effect) (c : Chain) : Prop := ∃ kind k, e.response = .chain kind c ⟨.normal, k⟩

/-- A component that only runs another chain in order. -/
def Effect.Splits (e : Effect) : Prop := e.arguments = [] ∧ ∃ c, e.RunsInOrder c

variable {e : Effect} {c : Chain}

theorem Effect.RunsInOrder.trigger (h : e.RunsInOrder c) : e.trigger ev o =
    (e.argumentsMet ev o).andThen (Run.counted .normal (triggerAll ev o c.components)) := by
  obtain ⟨kind, k, hresponse⟩ := h
  rw [trigger_andThen, hresponse, ← Chain.execute_normal c k]
  rfl

theorem Effect.RunsInOrder.leaves_trace (h : e.RunsInOrder c) (sc : Scene) : (e.trace ev o sc).leaves =
    if (e.argumentsMet ev o sc).value.1 then
      Trace.allLeaves (traceAll ev o c.components (e.argumentsMet ev o sc).value.2) else [] := by
  obtain ⟨kind, k, hresponse⟩ := h
  have hleaves : ∀ ts, (Trace.call (e.visit ev o sc) ts).leaves = Trace.allLeaves ts := by
    intro ts
    have hvisit : (e.visit ev o sc).effect.response = .chain kind c ⟨.normal, k⟩ := hresponse
    rw [Trace.leaves, hvisit]
  have htraces : ∀ sc', e.response.traces ev o sc' = traceAll ev o c.components sc' := by
    intro sc'
    rw [hresponse]
    cases c
    rfl
  rw [trace_eq, hleaves, htraces]
  split <;> rfl

end Leaves

section Splices

/-- The second list has the components of chains in place of some effects that only run them in order. This goes on
in those components, and in the chains of effects that run one in order but have arguments. How many components a
chain has matters to a round or a draw; so those chains stay as they are. -/
inductive Effect.Splices : List Effect → List Effect → Prop
  | nil : Splices [] []
  | keep {e : Effect} {es fs : List Effect} (rest : Splices es fs) : Splices (e :: es) (e :: fs)
  | splice {e : Effect} {c : Chain} {es fs gs : List Effect} (ungated : e.arguments = []) (runs : e.RunsInOrder c)
      (inside : Splices c.components gs) (rest : Splices es fs) : Splices (e :: es) (gs ++ fs)
  | within {e : Effect} {kind : String} {c : Chain} {k : Nat} {es fs gs : List Effect}
      (response : e.response = .chain kind c ⟨.normal, k⟩) (inside : Splices c.components gs)
      (rest : Splices es fs) :
      Splices (e :: es) ({ e with response := .chain kind { c with components := gs } ⟨.normal, k⟩ } :: fs)

/-- In like scenes the lists answer the same, tell the same, leave like scenes and call the same leaves. -/
def Effect.SameRuns (ev : Evaluator) (o : Occurrence) (es fs : List Effect) : Prop :=
  ∀ a b : Scene, a.Like b → Run.Agree (triggerAll ev o es a) (triggerAll ev o fs b) ∧
    Trace.allLeaves (traceAll ev o es a) = Trace.allLeaves (traceAll ev o fs b)

namespace Effect.SameRuns

variable {e f : Effect} {es fs gs hs : List Effect}

theorem nil : SameRuns ev o [] [] := fun _ _ h => ⟨⟨rfl, rfl, h⟩, rfl⟩

theorem append (h : SameRuns ev o es gs) (h' : SameRuns ev o fs hs) : SameRuns ev o (es ++ fs) (gs ++ hs) := by
  intro a b hab
  obtain ⟨hfirst, hleaves⟩ := h a b hab
  rw [triggerAll_append, triggerAll_append, traceAll_append, traceAll_append]
  refine ⟨hfirst.andThen fun hab' => (h' _ _ hab').1, ?_⟩
  rw [Trace.allLeaves_append, Trace.allLeaves_append, hleaves, hfirst.answer]
  split
  · rw [(h' _ _ hfirst.scene).2]
  · rfl

theorem keep (e : Effect) : SameRuns ev o [e] [e] := by
  intro a b hab
  rw [triggerAll_singleton, traceAll_singleton, traceAll_singleton, e.trace_blind hab]
  exact ⟨e.trigger_blind ev o a b hab, rfl⟩

theorem splice {c : Chain} (ungated : e.arguments = []) (runs : e.RunsInOrder c)
    (h : SameRuns ev o c.components gs) : SameRuns ev o [e] gs := by
  intro a b hab
  obtain ⟨hagree, hleaves⟩ := h a b hab
  have hmet : e.argumentsMet ev o = pure true := by
    rw [argumentsMet, ungated]
    rfl
  have hopen : (pure true : Run Bool) a = ⟨(true, a), []⟩ := rfl
  rw [triggerAll_singleton, traceAll_singleton, runs.trigger, Run.andThen_apply, Trace.allLeaves, Trace.allLeaves,
    runs.leaves_trace, hmet, hopen, List.append_nil]
  simp only [if_true, List.nil_append]
  exact ⟨(Run.counted_agree _ _ a).trans hagree, hleaves⟩

theorem within {kind : String} {c : Chain} {k : Nat} (response : e.response = .chain kind c ⟨.normal, k⟩)
    (h : SameRuns ev o c.components gs) :
    SameRuns ev o [e] [{ e with response := .chain kind { c with components := gs } ⟨.normal, k⟩ }] := by
  intro a b hab
  have hruns : e.RunsInOrder c := ⟨kind, k, response⟩
  have hruns' : ({ e with response := .chain kind { c with components := gs } ⟨.normal, k⟩ } :
      Effect).RunsInOrder { c with components := gs } := ⟨kind, k, rfl⟩
  have hmet := e.argumentsMet_blind ev o a b hab
  have hsame : ({ e with response := .chain kind { c with components := gs } ⟨.normal, k⟩ } :
      Effect).argumentsMet ev o = e.argumentsMet ev o := rfl
  rw [triggerAll_singleton, triggerAll_singleton, traceAll_singleton, traceAll_singleton, hruns.trigger,
    hruns'.trigger, hsame]
  constructor
  · refine hmet.andThen fun {a b} hab => ?_
    exact (Run.counted_agree _ _ a).trans ((h a b hab).1.trans (Run.counted_agree _ _ b).symm)
  · simp only [Trace.allLeaves, List.append_nil, hruns.leaves_trace, hruns'.leaves_trace, hsame, hmet.answer]
    split
    · exact (h _ _ hmet.scene).2
    · rfl

end Effect.SameRuns

theorem Effect.Splices.sameRuns (ev : Evaluator) (o : Occurrence) {es fs : List Effect} (h : Splices es fs) :
    SameRuns ev o es fs := by
  induction h with
  | nil => exact .nil
  | keep rest ih => exact SameRuns.append (.keep _) ih
  | splice ungated runs inside rest ihinside ihrest => exact SameRuns.append (.splice ungated runs ihinside) ihrest
  | within response inside rest ihinside ihrest => exact SameRuns.append (.within response ihinside) ihrest

mutual

/-- What stands for an effect when all components that only run chains in order are replaced. -/
def Effect.spliced : Effect → List Effect
  | e@⟨id, args, response, conditions, arguments, triggers, context⟩ =>
    match response with
    | .leaf _ _ => [e]
    | .chain kind c x =>
      if x.kind = .normal then
        if arguments.isEmpty then c.splicedComponents
        else [⟨id, args, .chain kind { c with components := c.splicedComponents } x, conditions, arguments,
          triggers, context⟩]
      else [e]

def Chain.splicedComponents : Chain → List Effect
  | ⟨_, _, components⟩ => Effect.allSpliced components

def Effect.allSpliced : List Effect → List Effect
  | [] => []
  | e :: r => e.spliced ++ Effect.allSpliced r

end

theorem Effect.Splices.append {es fs gs hs : List Effect} (h : Splices es gs) (h' : Splices fs hs) :
    Splices (es ++ fs) (gs ++ hs) := by
  induction h with
  | nil => exact h'
  | keep rest ih => exact .keep ih
  | splice ungated runs inside rest _ ih =>
    rw [List.append_assoc]
    exact .splice ungated runs inside ih
  | within response inside rest _ ih => exact .within response inside ih

theorem Effect.allSpliced_append (es fs : List Effect) : allSpliced (es ++ fs) = allSpliced es ++ allSpliced fs := by
  induction es with
  | nil => rfl
  | cons e es ih => rw [List.cons_append, allSpliced, allSpliced, ih, List.append_assoc]

mutual

theorem Effect.splices_spliced : ∀ e : Effect, Effect.Splices [e] e.spliced
  | ⟨id, args, .leaf kind d, conditions, arguments, triggers, context⟩ => .keep .nil
  | ⟨id, args, .chain kind c x, conditions, arguments, triggers, context⟩ => by
    have hinside := c.splices_splicedComponents
    obtain ⟨kind', k⟩ := x
    cases kind' with
    | random | cycle => exact .keep .nil
    | normal =>
      cases arguments with
      | nil =>
        have hsplice : Effect.Splices [⟨id, args, .chain kind c ⟨.normal, k⟩, conditions, [], triggers, context⟩]
            (c.splicedComponents ++ []) := .splice rfl ⟨kind, k, rfl⟩ hinside .nil
        rwa [List.append_nil] at hsplice
      | cons a as => exact .within rfl hinside .nil

theorem Chain.splices_splicedComponents : ∀ c : Chain, Effect.Splices c.components c.splicedComponents
  | ⟨_, _, components⟩ => Effect.splices_allSpliced components

theorem Effect.splices_allSpliced : ∀ es : List Effect, Effect.Splices es (Effect.allSpliced es)
  | [] => .nil
  | e :: r => (e.splices_spliced).append (Effect.splices_allSpliced r)

end

mutual

/-- Replacing again what was replaced changes nothing, and no component is left that only runs a chain in order. -/
theorem Effect.spliced_settled : ∀ e : Effect,
    Effect.allSpliced e.spliced = e.spliced ∧ ∀ f ∈ e.spliced, ¬ f.Splits
  | ⟨id, args, .leaf kind d, conditions, arguments, triggers, context⟩ => by
    refine ⟨rfl, fun f hf => ?_⟩
    rintro ⟨-, c, kind', k, hresponse⟩
    rw [List.mem_singleton.1 hf] at hresponse
    cases hresponse
  | ⟨id, args, .chain kind c x, conditions, arguments, triggers, context⟩ => by
    obtain ⟨hagain, hnone⟩ := c.splicedComponents_settled
    obtain ⟨kind', k⟩ := x
    cases kind' with
    | random | cycle =>
      refine ⟨rfl, fun f hf => ?_⟩
      rintro ⟨-, c, kind', k, hresponse⟩
      rw [List.mem_singleton.1 hf] at hresponse
      cases hresponse
    | normal =>
      cases arguments with
      | nil => exact ⟨hagain, hnone⟩
      | cons a as =>
        constructor
        · simp [Effect.spliced, Effect.allSpliced, Chain.splicedComponents, hagain]
        · intro f hf
          rintro ⟨hungated, -⟩
          rw [List.mem_singleton.1 hf] at hungated
          cases hungated

theorem Chain.splicedComponents_settled : ∀ c : Chain,
    Effect.allSpliced c.splicedComponents = c.splicedComponents ∧ ∀ f ∈ c.splicedComponents, ¬ f.Splits
  | ⟨_, _, components⟩ => Effect.allSpliced_settled components

theorem Effect.allSpliced_settled : ∀ es : List Effect,
    Effect.allSpliced (Effect.allSpliced es) = Effect.allSpliced es ∧ ∀ f ∈ Effect.allSpliced es, ¬ f.Splits
  | [] => ⟨rfl, nofun⟩
  | e :: r => by
    obtain ⟨hagain, hnone⟩ := e.spliced_settled
    obtain ⟨hagain', hnone'⟩ := Effect.allSpliced_settled r
    rw [Effect.allSpliced, Effect.allSpliced_append, hagain, hagain']
    exact ⟨rfl, List.forall_mem_append.2 ⟨hnone, hnone'⟩⟩

end

end Splices

/-- A chain that is run in order calls its components up to the first that does not handle the occurrence, which may
have failed, answered no or had an unmet argument; it calls none after that, and handles the occurrence if all did.
With the components of chains in place of components that only run them in order, it handles the same occurrences,
tells the same, calls the same effects that run no chain, and leaves all as before but for what was counted. All such
components can be replaced, at any depth, so that none is left. -/
theorem chains_run_in_order (ev : Evaluator) (o : Occurrence) (c : Chain) (k : Nat) (sc : Scene) :
    (∃ trail sc' success, Reached ev o sc trail sc' ∧ Attempt.Front c.components trail success ∧
      c.execute ev o ⟨.normal, k⟩ sc =
        ⟨(success, { sc' with tally := sc'.tally.count (.chainExecution .normal success) }),
          trail.flatMap (·.events)⟩ ∧
      (c.traces ev o ⟨.normal, k⟩ sc).map (·.visit) = trail.map (·.visit)) ∧
    (∀ es j, Effect.Splices c.components es →
      Run.Agree (c.execute ev o ⟨.normal, k⟩ sc) (({ c with components := es } : Chain).execute ev o ⟨.normal, j⟩ sc) ∧
      Trace.allLeaves (c.traces ev o ⟨.normal, k⟩ sc) =
        Trace.allLeaves (({ c with components := es } : Chain).traces ev o ⟨.normal, j⟩ sc)) ∧
    Effect.Splices c.components c.splicedComponents ∧
    (∀ e ∈ c.splicedComponents, ¬ e.Splits) ∧
    Effect.allSpliced c.splicedComponents = c.splicedComponents := by
  have htraces : ∀ (d : Chain) (j : Nat), d.traces ev o ⟨.normal, j⟩ sc = Effect.traceAll ev o d.components sc := by
    intro d j
    cases d
    rfl
  obtain ⟨hagain, hnone⟩ := c.splicedComponents_settled
  refine ⟨?_, fun es j hes => ?_, c.splices_splicedComponents, hnone, hagain⟩
  · obtain ⟨trail, hreached, hfront, hevents, hvisits⟩ := Effect.triggerAll_front ev o c.components sc
    refine ⟨trail, _, _, hreached, hfront, ?_, (congrArg _ (htraces c k)).trans hvisits⟩
    rw [Chain.execute_normal, Run.counted_apply, hevents]
  · obtain ⟨hagree, hleaves⟩ := hes.sameRuns ev o sc sc (.refl sc)
    rw [Chain.execute_normal, Chain.execute_normal, htraces, htraces]
    exact ⟨(Run.counted_agree _ _ sc).trans (hagree.trans (Run.counted_agree _ _ sc).symm), hleaves⟩

/-- Those that send a message: one that has it, and one that has not. -/
def senders : List Effect := [greeter ⟨9⟩ (.object [("message", .text "hi")]), greeter ⟨8⟩ Json.emptyObject]

/-- A chain that runs the senders in order as its first component. -/
def welcoming : Chain where
  number := 1
  id := "welcoming"
  components := { greeter ⟨10⟩ Json.emptyObject with
    response := .chain "run_chain" ⟨0, "senders", senders⟩ ⟨.normal, 0⟩ } :: senders

def Scene.joining : Scene := ⟨Host.deserted.subject ⟨1⟩, Host.deserted.engine.tally⟩

def joining : Occurrence := .of Scene.joining.subject "join" joined

/-- The second sender fails, so the senders that stand after the inner chain are not called; nor are they if the inner
chain is replaced by its components. -/
theorem chains_run_in_order_welcoming :
    Effect.Splices welcoming.components (senders ++ senders) ∧
      Run.Agree (welcoming.execute .arithmetic joining ⟨.normal, 1⟩ .joining)
        (({ welcoming with components := senders ++ senders } : Chain).execute .arithmetic joining ⟨.normal, 2⟩
          .joining) ∧
      (welcoming.execute .arithmetic joining ⟨.normal, 1⟩ .joining).value.1 = false ∧
      (Trace.allLeaves (welcoming.traces .arithmetic joining ⟨.normal, 1⟩ .joining)).map
        (fun v => (v.effect.id, v.handled)) = [(⟨9⟩, true), (⟨8⟩, false)] := by
  have hsplices : Effect.Splices welcoming.components (senders ++ senders) :=
    .splice rfl ⟨"run_chain", 0, rfl⟩ (.keep (.keep .nil)) (.keep (.keep .nil))
  obtain ⟨-, hsame, -⟩ := chains_run_in_order .arithmetic joining welcoming 1 .joining
  obtain ⟨hagree, hleaves⟩ := hsame _ 2 hsplices
  refine ⟨hsplices, hagree, ?_, ?_⟩
  · rw [hagree.answer]
    rfl
  · rw [hleaves]
    rfl

end Ability
