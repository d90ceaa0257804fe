import Ability.Proofs.Chain.Rounds
import Ability.Proofs.Compile.Binding
import Ability.Proofs.Compile.Blocks

/-! Sessions, in which orders are filled and what was made is triggered, in any order. Every effect that goes round a
chain keeps to a round of its own, from its first trigger on. -/

namespace Ability

section Updates

theorem Lifecycle.perform_turns (ev : Evaluator) (ts : List (Phase × Effect)) (sc : Scene) :
    (perform ev ts sc).value.2.tally.turns = sc.tally.turns := by
  induction ts generalizing sc with
  | nil => rfl
  | cons target ts ih =>
    obtain ⟨phase, e⟩ := target
    have hcall : (call ev phase e sc).value.2.tally.turns = sc.tally.turns := by
      simp only [call, Run.bind_apply]
      cases (Run.withSubject (e.lifecycle ev phase).run sc).value.1 <;> rfl
    exact (ih _).trans hcall

theorem Engine.resolve_turns (s : Subject) (g : Engine) : (resolve s g).value.2.tally.turns = g.tally.turns := by
  cases h : g.cache.kept? s.id with
  | some r =>
    rw [resolve_of_kept h]
    rfl
  | none =>
    rw [resolve_of_not_kept h]
    rfl

theorem Engine.update_keeps (s : Subject) (g : Engine) :
    (update s g).value.2.registries = g.registries ∧ (update s g).value.2.nextNumber = g.nextNumber ∧
      (update s g).value.2.tally.turns = g.tally.turns := by
  rw [update_value, transition_value, resolve_frame]
  refine ⟨rfl, rfl, ?_⟩
  exact (Lifecycle.perform_turns _ _ _).trans (resolve_turns s g)

end Updates

/-- An engine, what was made with it, and what was called. -/
structure Session where
  engine : Engine
  made : List Product
  calls : List Trace

namespace Session

def start (g : Engine) : Session := ⟨g, [], []⟩

/-- All effects that were made, in the order in which they were. -/
def blocks (h : Session) : List Effect := h.made.flatMap Product.parts

def ordered (h : Session) (o : Order) : Session where
  engine := h.engine.filled o
  made := h.made ++ [h.engine.product o]
  calls := h.calls

def triggered (h : Session) (s : Subject) (o : Occurrence) (e : Effect) : Session where
  engine := (Engine.run s (e.trigger h.engine.evaluator o) h.engine).value.2
  made := h.made
  calls := h.calls ++ [e.trace h.engine.evaluator o ⟨s, h.engine.tally⟩]

/-- What orders and triggers of effects that were made lead to. Whatever the engine does otherwise may happen in
between, as long as it makes nothing and takes no turn. -/
inductive Reached (g : Engine) : Session → Prop
  | start : Reached g (.start g)
  | ordered {h : Session} (before : Reached g h) (o : Order) : Reached g (h.ordered o)
  | triggered {h : Session} (before : Reached g h) (s : Subject) (o : Occurrence) {e : Effect}
      (made : e ∈ h.blocks) : Reached g (h.triggered s o e)
  | other {h : Session} (before : Reached g h) {next : Engine} (registries : next.registries = h.engine.registries)
      (numbers : next.nextNumber = h.engine.nextNumber) (turns : next.tally.turns = h.engine.tally.turns) :
      Reached g { h with engine := next }

section Operations

variable {g : Engine} {h : Session}

theorem Reached.updated (hh : Reached g h) (s : Subject) :
    Reached g { h with engine := (Engine.update s h.engine).value.2 } := by
  obtain ⟨hregistries, hnumbers, hturns⟩ := h.engine.update_keeps s
  exact hh.other hregistries hnumbers hturns

theorem Reached.triggeredEach (hh : Reached g h) (s : Subject) (o : Occurrence) {es : List Effect}
    (hes : es ⊆ h.blocks) : ∃ calls, Reached g { h with
      engine := (Engine.run s (Engine.triggerEach h.engine.evaluator o es) h.engine).value.2
      calls := h.calls ++ calls } := by
  induction es generalizing h s with
  | nil => exact ⟨[], (List.append_nil h.calls).symm ▸ hh⟩
  | cons e es ih =>
    obtain ⟨he, hrest⟩ := List.cons_subset.1 hes
    obtain ⟨calls, hreached⟩ := ih (hh.triggered s o he)
      (e.trigger h.engine.evaluator o ⟨s, h.engine.tally⟩).value.2.subject hrest
    refine ⟨e.trace h.engine.evaluator o ⟨s, h.engine.tally⟩ :: calls, ?_⟩
    rw [List.append_cons]
    exact hreached

/-- To dispatch something is to trigger effects one after the other, if those that are active were made. -/
theorem Reached.dispatched (hh : Reached g h) (s : Subject) (trigger : String) (data : TriggerData)
    (hactive : (h.engine.activeEffects s.id).members ⊆ h.blocks) : ∃ calls, Reached g { h with
      engine := (Engine.dispatch s trigger data h.engine).value.2
      calls := h.calls ++ calls } := by
  have hcounted : Reached g
      { h with engine := { h.engine with tally := h.engine.tally.count (.dispatch trigger) } } :=
    hh.other rfl rfl rfl
  have hlisteners : (h.engine.activeEffects s.id).members.filter (·.listensTo trigger) ⊆ h.blocks :=
    List.Subset.trans (List.filter_subset_self _) hactive
  exact hcounted.triggeredEach s (.of s trigger data) hlisteners

end Operations

structure Sound (h : Session) : Prop where
  registered : h.engine.registries.chains.FilledFrom h.blocks
  numbered : Blocks [] 0 h.engine.nextNumber h.blocks
  rounds : Rounds (fun _ => 0) h.calls h.engine.tally.turns
  called : ∀ t ∈ Trace.allNodes h.calls, t.visit.effect ∈ h.blocks

namespace Sound

variable {h : Session}

theorem start (r : Registries) (hr : r.chains = .empty) (ev : Evaluator) (lifetime : Nat) :
    (start (.new r ev lifetime)).Sound where
  registered id c hc := by
    have hnone : r.chains.get? id = some c := hc
    rw [hr] at hnone
    cases hnone
  numbered := .nil
  rounds := .nil _
  called := nofun

theorem ordered (hh : h.Sound) (o : Order) : (h.ordered o).Sound := by
  obtain ⟨hle, hparts, hchain⟩ := h.engine.product_blocks hh.registered o
  have hblocks : (h.ordered o).blocks = h.blocks ++ (h.engine.product o).parts := by
    simp [blocks, Session.ordered]
  refine ⟨?_, ?_, ?_, fun t ht => ?_⟩
  · rw [hblocks]
    intro id c hc
    rcases Engine.named_or_registered hc with hnamed | hbefore
    · obtain ⟨hfilled, hmade⟩ := hchain c (Engine.named?_eq_chain? hnamed)
      exact ⟨hfilled, List.Subset.trans hmade (List.subset_append_right _ _)⟩
    · obtain ⟨hfilled, hold⟩ := hh.registered id c hbefore
      exact ⟨hfilled, List.Subset.trans hold (List.subset_append_left _ _)⟩
  · rw [hblocks]
    exact hh.numbered.append (hparts.weaken (List.subset_append_left _ _)) (Nat.zero_le _) hle
  · have htally : (h.ordered o).engine.tally = h.engine.tally := h.engine.filled_tally o
    rw [htally]
    exact hh.rounds
  · exact hblocks ▸ List.mem_append_left _ (hh.called t ht)

theorem triggered (hh : h.Sound) (s : Subject) (o : Occurrence) {e : Effect} (he : e ∈ h.blocks) :
    (h.triggered s o e).Sound where
  registered := hh.registered
  numbered := hh.numbered
  rounds := hh.rounds.append (e.trace_rounds ⟨s, h.engine.tally⟩)
  called t ht := by
    have hnodes : t ∈ Trace.allNodes h.calls ∨ t ∈ (e.trace h.engine.evaluator o ⟨s, h.engine.tally⟩).nodes := by
      simpa [Session.triggered, Trace.allNodes_append, Trace.allNodes] using ht
    rcases hnodes with ht | ht
    · exact hh.called t ht
    · exact hh.numbered.calls_mem he (e.trace_reached _ t ht)

theorem other (hh : h.Sound) {next : Engine} (hregistries : next.registries = h.engine.registries)
    (hnumbers : next.nextNumber = h.engine.nextNumber) (hturns : next.tally.turns = h.engine.tally.turns) :
    Sound { h with engine := next } where
  registered := by
    rw [hregistries]
    exact hh.registered
  numbered := by
    rw [hnumbers]
    exact hh.numbered
  rounds := by
    rw [hturns]
    exact hh.rounds
  called := hh.called

end Sound

theorem Reached.sound {g : Engine} {h : Session} (hh : Reached g h) (hg : (Session.start g).Sound) : h.Sound := by
  induction hh with
  | start => exact hg
  | ordered before o ih => exact ih.ordered o
  | triggered before s o made ih => exact ih.triggered s o made
  | other before registries numbers turns ih => exact ih.other registries numbers turns

end Session

/-- A call, with its arguments met, of an effect that runs a chain with the executor `n`. -/
def Trace.advances (n : Nat) (t : Trace) : Bool := t.visit.met && t.visit.effect.executor? = some n

theorem Executor.number_of_turn? {x : Executor} {c : Chain} {n : Nat} (h : x.turn? c = some n) : x.number = n := by
  obtain ⟨kind, number⟩ := x
  cases kind with
  | normal | random => cases h
  | cycle =>
    simp only [turn?] at h
    split at h
    · cases h
    · exact Option.some.inj h

theorem Effect.executor?_of_turn? {e : Effect} {n : Nat} (h : e.response.turn? = some n) : e.executor? = some n := by
  unfold executor?
  cases hresponse : e.response with
  | leaf kind d =>
    rw [hresponse] at h
    cases h
  | chain kind c x =>
    rw [hresponse] at h
    exact congrArg some (Executor.number_of_turn? h)

namespace Session.Sound

variable {h : Session} {t u : Trace} {kind : String} {c : Chain} {n : Nat}

theorem components_ne_nil (hh : h.Sound) (ht : t ∈ Trace.allNodes h.calls)
    (hresponse : t.visit.effect.response = .chain kind c ⟨.cycle, n⟩) : c.components ≠ [] :=
  hh.numbered.filled _ (hh.called t ht) kind c _ hresponse

theorem turn?_eq_some_iff (hh : h.Sound) (ht : t ∈ Trace.allNodes h.calls) (hu : u ∈ Trace.allNodes h.calls)
    (hresponse : t.visit.effect.response = .chain kind c ⟨.cycle, n⟩) : u.turn? = some n ↔ u.advances n = true := by
  have hfilled : c.components.isEmpty = false := by simpa using hh.components_ne_nil ht hresponse
  have hown : t.visit.effect.executor? = some n := by rw [Effect.executor?, hresponse]
  constructor
  · intro hturn
    unfold Trace.turn? at hturn
    split at hturn
    · next hmet => simp [Trace.advances, hmet, Effect.executor?_of_turn? hturn]
    · cases hturn
  · intro hadvances
    obtain ⟨hmet, hexecutor⟩ : u.visit.met = true ∧ u.visit.effect.executor? = some n := by
      simpa [Trace.advances] using hadvances
    -- Whatever runs a chain with this executor is this very effect.
    have hsame : u.visit.effect = t.visit.effect :=
      hh.numbered.eq_of_executor (hh.called u hu) (hh.called t ht) hexecutor hown
    rw [Trace.turn?, if_pos hmet, hsame, hresponse]
    simp [Response.turn?, Executor.turn?, hfilled]

end Session.Sound

/-- Each effect that is made to run a chain has an executor of its own, even if another was made alike. What is called
in a session is what was made, and comes of triggering it in some scene. An effect that goes round a chain keeps to
its round: the turns that are over are as many as there were calls of this effect with its arguments met, wherever in
the session, so nothing else moves its round on. -/
theorem rounds_are_kept {r : Registries} (hr : r.chains = .empty) (ev : Evaluator) (lifetime : Nat) {h : Session}
    (hh : Session.Reached (.new r ev lifetime) h) :
    (h.blocks.filterMap (·.executor?)).Nodup ∧
    ∀ before t after, Trace.allNodes h.calls = before ++ t :: after →
      t.visit.effect ∈ h.blocks ∧ ∃ ev o sc, t = t.visit.effect.trace ev o sc ∧
        ∀ kind c n, t.visit.effect.response = .chain kind c ⟨.cycle, n⟩ → c.components ≠ [] ∧
          t.visit.effect.GoesRound ev o sc n c.components (before.countP (·.advances n)) := by
  have hsound := hh.sound (.start r hr ev lifetime)
  refine ⟨hsound.numbered.ascending.imp Nat.ne_of_lt, fun before t after hnodes => ?_⟩
  have ht : t ∈ Trace.allNodes h.calls := by simp [hnodes]
  obtain ⟨ev', o, sc, htrace, hturns⟩ := hsound.rounds.called before t after hnodes
  refine ⟨hsound.called t ht, ev', o, sc, htrace, fun kind c n hresponse => ?_⟩
  have hfilled := hsound.components_ne_nil ht hresponse
  have hcount : sc.tally.turns n = before.countP (·.advances n) := by
    rw [hturns, Nat.zero_add, List.count_filterMap]
    refine List.countP_congr fun u hu => ?_
    have hu : u ∈ Trace.allNodes h.calls := hnodes ▸ List.mem_append_left _ hu
    rw [beq_iff_eq]
    exact hsound.turn?_eq_some_iff ht hu hresponse
  rw [← hcount]
  exact ⟨hfilled, Effect.goesRound hresponse hfilled ev' o sc⟩

/-- Goes round two messages. -/
def Json.refrain : Json :=
  .object [("args", .object [("effects", .array [.effectOf "log" "message" "a", .effectOf "log" "message" "b"]),
    ("run_type", .text "cycle")]), ("id", .text "run_chain")]

def teller (m context path : String) : Effect where
  id := Compile.blockId "effect" path (.effectOf "log" "message" m)
  args := .object [("message", .text m)]
  response := .leaf Builtin.logMessage .nothing
  conditions := []
  arguments := []
  triggers := []
  context := context

def tellers : List Effect :=
  [teller "a" " (inline chain) (chain anonymous) effects[0]" "chain:anonymous/effects[0]",
    teller "b" " (inline chain) (chain anonymous) effects[1]" "chain:anonymous/effects[1]"]

/-- What is made of it when `n` is the next number. -/
def refrain (n : Nat) : Effect where
  id := Compile.blockId "effect" "" .refrain
  args := Json.refrain.subsection "args"
  response := .chain "run_chain" ⟨n, "anonymous", tellers⟩ ⟨.cycle, n + 1⟩
  conditions := []
  arguments := []
  triggers := []
  context := ""

theorem Compile.effect_teller (chains : ChainRegistry) (m context path : String) :
    effect { Registries.builtin with chains } (.effectOf "log" "message" m) context path =
      pure (some (teller m context path)) := by
  have hconditions : (Json.effectOf "log" "message" m).subsections "conditions" = [] := rfl
  rw [effect, hconditions, conditions]
  rfl

theorem Compile.effect_refrain (n : Nat) :
    (effect .builtin .refrain "" "" n).value = (some (refrain n), n + 2) := by
  have hconditions : Json.refrain.subsections "conditions" = [] := rfl
  have hinside : (Json.refrain.subsection "args").subsections "effects" =
      [.effectOf "log" "message" "a", .effectOf "log" "message" "b"] := rfl
  have hteller : ∀ m context path, effect .builtin (.effectOf "log" "message" m) context path =
      pure (some (teller m context path)) := effect_teller Registries.builtin.chains
  rw [effect, hconditions, conditions]
  simp only [hinside, effects, hteller]
  rfl

theorem Engine.fill_refrain (g : Engine) (hg : g.registries = .builtin) : g.fill (.effect .refrain "") =
    (.effect (some (refrain g.nextNumber)), { g with nextNumber := g.nextNumber + 2 }) := by
  have hvalue : (compileEffect .refrain "" g).value =
      ((Compile.effect g.registries .refrain "" "" g.nextNumber).value.1,
        { g with nextNumber := (Compile.effect g.registries .refrain "" "" g.nextNumber).value.2 }) := rfl
  rw [fill, hvalue, hg, Compile.effect_refrain]
  rfl

/-- Two refrains, made alike. -/
def Session.composed : Session where
  engine := { Engine.new .builtin .arithmetic 0 with nextNumber := 4 }
  made := [.effect (some (refrain 0)), .effect (some (refrain 2))]
  calls := []

theorem Session.composed_reached : Reached (.new .builtin .arithmetic 0) .composed := by
  let g := Engine.new .builtin .arithmetic 0
  have hfirst : g.fill (.effect .refrain "") = (.effect (some (refrain 0)), { g with nextNumber := 2 }) :=
    g.fill_refrain rfl
  have hsecond : { g with nextNumber := 2 }.fill (.effect .refrain "") =
      (.effect (some (refrain 2)), { g with nextNumber := 4 }) := Engine.fill_refrain _ rfl
  have hone : (Session.start g).ordered (.effect .refrain "") =
      ⟨{ g with nextNumber := 2 }, [.effect (some (refrain 0))], []⟩ := by
    simp only [Session.ordered, Session.start, Engine.filled, Engine.product, hfirst]
    rfl
  have htwo : ((Session.start g).ordered (.effect .refrain "")).ordered (.effect .refrain "") = .composed := by
    rw [hone]
    simp only [Session.ordered, Engine.filled, Engine.product, hsecond]
    rfl
  exact htwo ▸ (Reached.start.ordered _).ordered _

/-- The first refrain is sung twice and then the second once. -/
def Session.sung : Session :=
  let s := Host.deserted.subject ⟨1⟩
  let o := Occurrence.of s "join" joined
  ((Session.composed.triggered s o (refrain 0)).triggered s o (refrain 0)).triggered s o (refrain 2)

/-- The first has come to its second message then, and the second begins with the first. -/
theorem rounds_are_kept_sung :
    Session.Reached (.new .builtin .arithmetic 0) .sung ∧
      (Session.sung.blocks.filterMap (·.executor?)).Nodup ∧
      Session.sung.calls.map (fun t => t.calls.map (·.visit.effect.args.text? "message")) =
        [[some "a"], [some "b"], [some "a"]] := by
  have hblocks : Session.composed.blocks = (tellers ++ [refrain 0]) ++ (tellers ++ [refrain 2]) := rfl
  have hfirst : refrain 0 ∈ Session.composed.blocks := by simp [hblocks]
  have hsecond : refrain 2 ∈ Session.composed.blocks := by simp [hblocks]
  have hreached : Session.Reached (.new .builtin .arithmetic 0) .sung :=
    ((Session.composed_reached.triggered _ _ hfirst).triggered _ _ hfirst).triggered _ _ hsecond
  obtain ⟨hnodup, -⟩ := rounds_are_kept rfl .arithmetic 0 hreached
  exact ⟨hreached, hnodup, rfl⟩

end Ability
