import Ability.Proofs.HolderCache
import Ability.Proofs.Lifecycle.Calls

/-! One resolution. It is answered with what is kept of a subject, and then nobody is asked or told; or
else every provider is asked and every observer told, once and in the order of registration, and the answer is
kept. Computing the active effects and updating them take one resolution each. -/

namespace Ability

theorem HolderCache.ask_value (s : Subject) (ps : List Provider) :
    (ask s ps).value = ps.flatMap fun p => (p s).value := by
  induction ps with
  | nil => rfl
  | cons p r ih =>
    have h : (ask s (p :: r)).value = (p s).value ++ (ask s r).value := rfl
    rw [h, ih, List.flatMap_cons]

theorem HolderCache.ask_events (s : Subject) (ps : List Provider) :
    (ask s ps).events = ps.flatMap fun p => (p s).events := by
  induction ps with
  | nil => rfl
  | cons p r ih =>
    have h : (ask s (p :: r)).events = (p s).events ++ ((ask s r).events ++ []) := rfl
    rw [h, ih, List.append_nil, List.flatMap_cons]

theorem HolderCache.consult_events (c : HolderCache) (s : Subject) :
    (c.consult s).events = (ask s c.providers).events ++
      c.observers.flatMap fun o => o s (ask s c.providers).value := by
  have h : (c.consult s).events = (ask s c.providers).events ++
      ((c.observers.flatMap fun o => o s (ask s c.providers).value) ++ []) := rfl
  rw [h, List.append_nil]

namespace Engine

variable {g : Engine} {s : Subject} {r : Resolution}

/-- The resolution is answered with `r`, which is kept: a hit is counted, and no one is asked or told. -/
structure Hits (g : Engine) (s : Subject) (r : Resolution) : Prop where
  outcome : (resolve s g).value = (r, { g with tally := g.tally.count .cacheHit })
  silent : (resolve s g).events = []

/-- All providers are asked and all observers are told their answers; a miss is counted, and what was
answered is kept as an answer of its own. -/
structure Misses (g : Engine) (s : Subject) : Prop where
  answer : (resolve s g).value.1 = ⟨g.cache.answers, g.cache.providers.flatMap fun p => (p s).value⟩
  calls : (resolve s g).events = (g.cache.providers.flatMap fun p => (p s).events) ++
    g.cache.observers.flatMap fun o => o s (resolve s g).value.1.provisions
  outcome : (resolve s g).value.2 =
    { g with
      cache := { g.cache with
        slots := g.cache.slots.insert s.id (some (resolve s g).value.1)
        answers := g.cache.answers + 1 }
      tally := g.tally.count .cacheMiss }

theorem hits_of_kept (h : g.cache.kept? s.id = some r) : g.Hits s r where
  outcome := resolve_of_kept h
  silent := by
    simp only [resolve, bind, StateT.bind, get, getThe, MonadStateOf.get, StateT.get, pure, h]
    rfl

theorem misses_of_not_kept (h : g.cache.kept? s.id = none) : g.Misses s := by
  have hvalue := resolve_of_not_kept h
  have hasked : (g.cache.consult s).value = g.cache.providers.flatMap fun p => (p s).value :=
    HolderCache.ask_value ..
  have hevents : (resolve s g).events = [] ++ ((g.cache.consult s).events ++ [] ++ []) := by
    simp only [resolve, bind, StateT.bind, get, getThe, MonadStateOf.get, StateT.get, pure, h]
    rfl
  have hanswer : (resolve s g).value.1 =
      ⟨g.cache.answers, g.cache.providers.flatMap fun p => (p s).value⟩ := by
    rw [hvalue, ← hasked]
    rfl
  refine ⟨hanswer, ?_, ?_⟩
  · rw [hevents, hanswer, HolderCache.consult_events, HolderCache.ask_value, HolderCache.ask_events]
    simp only [List.nil_append, List.append_nil]
  · rw [hanswer, ← hasked, hvalue]
    rfl

/-- A miss gives an answer that no one has been given before. -/
theorem Hits.not_misses (h : g.Hits s r) : ¬ g.Misses s := by
  intro hm
  have hanswers : g.cache.answers = g.cache.answers + 1 := by
    have hcache := congrArg (·.2.cache.answers) h.outcome
    rw [hm.outcome] at hcache
    exact hcache.symm
  exact Nat.succ_ne_self _ hanswers.symm

theorem hits_iff : g.Hits s r ↔ g.cache.kept? s.id = some r := by
  refine ⟨fun h => ?_, hits_of_kept⟩
  cases hk : g.cache.kept? s.id with
  | some r' =>
    have h' := (hits_of_kept hk).outcome
    rw [h.outcome] at h'
    exact congrArg some (congrArg (·.1) h').symm
  | none => exact absurd (misses_of_not_kept hk) h.not_misses

theorem misses_iff : g.Misses s ↔ g.cache.kept? s.id = none := by
  refine ⟨fun h => ?_, misses_of_not_kept⟩
  cases hk : g.cache.kept? s.id with
  | some r => exact absurd h (hits_of_kept hk).not_misses
  | none => rfl

theorem kept?_of_slot {c : HolderCache} (hl : c.lifetime ≠ 0) {u : Uuid}
    (h : c.slots.get? u = some (some r)) : c.kept? u = some r := by
  unfold HolderCache.kept?
  rw [if_neg hl, h]
  rfl

/-- What was answered is in the slot of the subject, whether it was kept or is new. -/
theorem resolve_slots (s : Subject) (g : Engine) (u : Uuid) :
    (resolve s g).value.2.cache.slots.get? u =
      if s.id = u then some (some (resolve s g).value.1) else g.cache.slots.get? u := by
  cases hk : g.cache.kept? s.id with
  | some r =>
    rw [(hits_of_kept hk).outcome]
    split
    · next hu =>
      subst hu
      exact HolderCache.slots_of_kept? hk
    · rfl
  | none =>
    rw [(misses_of_not_kept hk).outcome]
    exact Table.get?_insert ..

/-- A resolution changes no more of the cache than what is kept. -/
theorem resolve_cache_frame (s : Subject) (g : Engine) :
    ∃ slots answers, (resolve s g).value.2.cache = { g.cache with slots, answers } := by
  cases hk : g.cache.kept? s.id with
  | some r =>
    rw [(hits_of_kept hk).outcome]
    exact ⟨_, _, rfl⟩
  | none =>
    rw [(misses_of_not_kept hk).outcome]
    exact ⟨_, _, rfl⟩

/-- A computation that has no part in the cache: it does and tells the same with any other, leaves it as it
is, and counts neither hits nor misses. -/
structure Uncached {α : Type} (x : EngineM α) : Prop where
  blind : ∀ g c, x { g with cache := c } =
    ⟨((x g).value.1, { (x g).value.2 with cache := c }), (x g).events⟩
  counted : ∀ g, ∀ c ∈ [Counter.cacheHit, Counter.cacheMiss],
    (x g).value.2.tally.metrics.get? c.key = g.tally.metrics.get? c.key

/-- A computation that begins with a resolution and takes no other. -/
def ResolvesOnce {α : Type} (s : Subject) (x : EngineM α) : Prop :=
  ∃ k : Resolution → EngineM α, x = resolve s >>= k ∧ ∀ r, Uncached (k r)

theorem Uncached.bind {α β : Type} {x : EngineM α} {f : α → EngineM β} (hx : Uncached x)
    (hf : ∀ a, Uncached (f a)) : Uncached (x >>= f) where
  blind g c := by
    have h : ∀ g', (x >>= f) g' =
        ⟨(f (x g').value.1 (x g').value.2).value,
          (x g').events ++ (f (x g').value.1 (x g').value.2).events⟩ := fun _ => rfl
    rw [h, h, hx.blind, (hf _).blind]
  counted g c hc := ((hf _).counted _ c hc).trans (hx.counted g c hc)

theorem ResolvesOnce.bind {α β : Type} {x : EngineM α} {f : α → EngineM β} (hx : ResolvesOnce s x)
    (hf : ∀ a, Uncached (f a)) : ResolvesOnce s (x >>= f) := by
  obtain ⟨k, rfl, hk⟩ := hx
  exact ⟨fun r => k r >>= f, bind_assoc .., fun r => (hk r).bind hf⟩

theorem computeActive_resolves_once (s : Subject) : ResolvesOnce s (computeActive s) :=
  ⟨_, rfl, fun _ => ⟨fun _ _ => rfl, fun _ _ _ => rfl⟩⟩

end Engine

/-- A callback may be counted as failed, and as nothing else. -/
theorem Lifecycle.perform_counts {c : Counter} (hc : ∀ phase, (Counter.lifecycleFailure phase).key ≠ c.key)
    (ev : Evaluator) (l : List (Phase × Effect)) (sc : Scene) :
    (perform ev l sc).value.2.tally.metrics.get? c.key = sc.tally.metrics.get? c.key := by
  induction l generalizing sc with
  | nil => rfl
  | cons x l ih =>
    obtain ⟨phase, e⟩ := x
    have hnote : ∀ outcome sc, (note phase e outcome sc).value.2.tally.metrics.get? c.key =
        sc.tally.metrics.get? c.key := by
      intro outcome sc
      cases outcome with
      | ok _ => rfl
      | error error =>
        have hcount : (note phase e (.error error) sc).value.2.tally =
            sc.tally.count (.lifecycleFailure phase) := rfl
        rw [hcount]
        exact (Table.get?_insert ..).trans (if_neg (hc phase))
    have hcall : (call ev phase e sc).value.2.tally.metrics.get? c.key =
        sc.tally.metrics.get? c.key := hnote _ _
    rw [perform_cons]
    exact (ih _).trans hcall

theorem Engine.transition_resolves_once (s : Subject) : ResolvesOnce s (transition s) := by
  refine (computeActive_resolves_once s).bind fun active => ⟨fun _ _ => rfl, ?_⟩
  intro g c hc
  have hkey : ∀ phase, (Counter.lifecycleFailure phase).key ≠ c.key := by
    intro phase
    simp only [List.mem_cons, List.not_mem_nil, or_false] at hc
    rcases hc with rfl | rfl <;> cases phase <;> decide
  exact Lifecycle.perform_counts hkey ..

theorem Engine.update_resolves_once (s : Subject) : ResolvesOnce s (update s) :=
  (transition_resolves_once s).bind fun _ => ⟨fun _ _ => rfl, fun _ _ _ => rfl⟩

end Ability
