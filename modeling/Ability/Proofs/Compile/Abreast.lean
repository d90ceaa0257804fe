import Ability.Proofs.Chain.Twins
import Ability.Proofs.Compile.Law

/-! Compiling the same at different times. However many numbers have been handed out before, a compilation hands out
as many of them in the same order; so what is made then and now are twins. -/

namespace Ability

namespace Compile

variable {α β γ δ : Type}

/-- The one from `n` and the other from `m` hand out equally many numbers, and `P` relates what they make. -/
def Abreast (n m : Nat) (P : α → β → Prop) (x : Compile α) (y : Compile β) : Prop :=
  ∃ k, (x n).value.2 = n + k ∧ (y m).value.2 = m + k ∧ P (x n).value.1 (y m).value.1

/-- Both are made and `P` relates them, or both failed. -/
inductive Ended (P : α → β → Prop) : Except EngineError α → Except EngineError β → Prop
  | made {a : α} {b : β} (related : P a b) : Ended P (.ok a) (.ok b)
  | failed (d e : EngineError) : Ended P (.error d) (.error e)

/-- The same of compilations that may fail. -/
def EndAbreast (n m : Nat) (P : α → β → Prop) (x : ExceptT EngineError Compile α)
    (y : ExceptT EngineError Compile β) : Prop :=
  Abreast n m (Ended P) x.run y.run

namespace Abreast

variable {n m : Nat} {P : α → β → Prop} {Q : γ → δ → Prop}

theorem pure {a : α} {b : β} (h : P a b) : Abreast n m P (Pure.pure a) (Pure.pure b) := ⟨0, rfl, rfl, h⟩

theorem bind {x : Compile α} {y : Compile β} {f : α → Compile γ} {g : β → Compile δ} (h : Abreast n m P x y)
    (hfg : ∀ k a b, P a b → Abreast (n + k) (m + k) Q (f a) (g b)) : Abreast n m Q (x >>= f) (y >>= g) := by
  obtain ⟨k, hn, hm, hP⟩ := h
  obtain ⟨l, hn', hm', hQ⟩ := hfg k _ _ hP
  rw [Nat.add_assoc] at hn' hm'
  refine ⟨k + l, ?_, ?_, ?_⟩
  · rw [← hn', ← hn]
    rfl
  · rw [← hm', ← hm]
    rfl
  · rw [← hn, ← hm] at hQ
    exact hQ

theorem imp {P' : α → β → Prop} {x : Compile α} {y : Compile β} (h : Abreast n m P x y)
    (hP : ∀ a b, P a b → P' a b) : Abreast n m P' x y := by
  obtain ⟨k, hn, hm, hab⟩ := h
  exact ⟨k, hn, hm, hP _ _ hab⟩

theorem tell (d e : Event) : Abreast n m (fun _ _ => True) (tell d) (tell e) := ⟨0, rfl, rfl, trivial⟩

theorem fresh : Abreast n m (fun i j => i = n ∧ j = m) fresh fresh := ⟨1, rfl, rfl, rfl, rfl⟩

end Abreast

namespace EndAbreast

variable {n m : Nat} {P : α → β → Prop} {Q : γ → δ → Prop}

theorem pure {a : α} {b : β} (h : P a b) : EndAbreast n m P (Pure.pure a) (Pure.pure b) := Abreast.pure (.made h)

theorem throw (d e : EngineError) : EndAbreast n m P (throw d) (throw e) := Abreast.pure (.failed d e)

theorem lift {x : Except EngineError α} {R : α → α → Prop} (h : ∀ a, x = .ok a → R a a) :
    EndAbreast n m R (lift x) (lift x) := by
  refine Abreast.pure ?_
  cases x with
  | ok a => exact .made (h a rfl)
  | error e => exact .failed e e

theorem of_abreast {x : Compile α} {y : Compile β} (h : Abreast n m P x y) :
    EndAbreast n m P (ExceptT.lift x) (ExceptT.lift y) :=
  h.bind fun _ _ _ hab => Abreast.pure (.made hab)

theorem bind {x : ExceptT EngineError Compile α} {y : ExceptT EngineError Compile β}
    {f : α → ExceptT EngineError Compile γ} {g : β → ExceptT EngineError Compile δ} (h : EndAbreast n m P x y)
    (hfg : ∀ k a b, P a b → EndAbreast (n + k) (m + k) Q (f a) (g b)) : EndAbreast n m Q (x >>= f) (y >>= g) :=
  Abreast.bind h fun k _ _ hended => by
    cases hended with
    | made hab => exact hfg k _ _ hab
    | failed d e => exact Abreast.pure (.failed d e)

theorem bind_lift (x : Except EngineError α) {f : α → ExceptT EngineError Compile γ}
    {g : α → ExceptT EngineError Compile δ} (hfg : ∀ a, EndAbreast n m Q (f a) (g a)) :
    EndAbreast n m Q (Compile.lift x >>= f) (Compile.lift x >>= g) := by
  cases x with
  | ok a => exact hfg a
  | error e => exact Abreast.pure (.failed e e)

theorem report {x : ExceptT EngineError Compile α} {y : ExceptT EngineError Compile β} (h : EndAbreast n m P x y)
    (message context : String) : Abreast n m (Option.Rel P) (report message context x) (report message context y) := by
  refine Abreast.bind h fun k _ _ hended => ?_
  cases hended with
  | made hab => exact .pure (.some hab)
  | failed d e => exact (Abreast.tell _ _).bind fun _ _ _ _ => .pure .none

end EndAbreast

section

variable {r : Registries} {R : Nat → Nat → Prop} {n m : Nat}

/-- The numbers that are handed out from `n` on stand for those that are handed out from `m` on. -/
def InStep (R : Nat → Nat → Prop) (n m : Nat) : Prop := ∀ k, R (n + k) (m + k)

theorem InStep.add (h : InStep R n m) (k : Nat) : InStep R (n + k) (m + k) := by
  intro j
  rw [Nat.add_assoc, Nat.add_assoc]
  exact h (k + j)

section

variable {x : Compile (List Effect)} (hx : Abreast n m (Effect.AllTwin R) x x)
include hx

theorem chainOf_abreast (context id : String) :
    Abreast n m (Option.Rel (Chain.Twin R)) (chainOf context id x) (chainOf context id x) := by
  refine hx.bind fun k es fs hall => ?_
  rw [hall.isEmpty_eq]
  split
  · exact (Abreast.tell _ _).bind fun _ _ _ _ => .pure .none
  · exact Abreast.fresh.bind fun _ _ _ _ => .pure (.some hall)

variable (hr : ∀ id c, r.chains.get? id = some c → c.Twin R c)
include hr

theorem chainFor_abreast (args : Json) (context : String) :
    EndAbreast n m (Chain.Twin R) (chainFor r args context x) (chainFor r args context x) := by
  unfold chainFor
  split
  · exact .lift fun c hc => hr _ c (lookup_eq_ok hc)
  split
  · refine EndAbreast.bind (.of_abreast (chainOf_abreast hx _ _)) fun k c d hcd => ?_
    cases hcd with
    | some hcd => exact .pure hcd
    | none => exact .throw _ _
  · exact .throw _ _

theorem response_abreast (hstep : InStep R n m) (kind : EffectKind) (args : Json) (context : String) :
    EndAbreast n m (Response.Twin R) (response r kind args context x) (response r kind args context x) := by
  cases kind with
  | leaf k => exact .bind_lift _ fun d => .pure rfl
  | chainRunner k =>
    refine .bind_lift _ fun executor => ?_
    refine EndAbreast.bind (chainFor_abreast hx hr args context) fun j c d hcd => ?_
    refine EndAbreast.bind (.of_abreast .fresh) fun _ _ _ hnumbers => .pure ?_
    obtain ⟨rfl, rfl⟩ := hnumbers
    exact ⟨d, _, rfl, rfl, hstep j, hcd⟩

end

mutual

/-- What is made of conditions has no part in what effects do when they are triggered, only the count of numbers. -/
theorem condition_abreast (hr : ∀ id c, r.chains.get? id = some c → c.Twin R c) {n m : Nat} (hstep : InStep R n m)
    (config : Json) (context path : String) :
    Abreast n m (fun _ _ => True) (condition r config context path) (condition r config context path) := by
  rw [condition]
  refine (EndAbreast.report (P := fun _ _ => True) ?_ _ _).imp fun _ _ _ => trivial
  refine .bind_lift _ fun id => .bind_lift _ fun kind => .bind_lift _ fun datum => ?_
  exact EndAbreast.bind (.of_abreast (effects_abreast hr hstep _ 0 _ _)) fun _ _ _ _ => .pure trivial
termination_by (config.size, 0)
decreasing_by
  have := Json.subsection_size config "args"
  have := Json.subsections_size (config.subsection "args") "not_met_effects"
  exact Prod.Lex.left _ _ (by omega)

theorem conditions_abreast (hr : ∀ id c, r.chains.get? id = some c → c.Twin R c) {n m : Nat} (hstep : InStep R n m)
    (configs : List Json) (i : Nat) (context path : String) :
    Abreast n m (fun _ _ => True) (conditions r configs i context path) (conditions r configs i context path) := by
  cases configs with
  | nil =>
    rw [conditions]
    exact .pure trivial
  | cons config rest =>
    rw [conditions]
    refine (condition_abreast hr hstep config _ _).bind fun k _ _ _ => ?_
    exact (conditions_abreast hr (hstep.add k) rest (i + 1) context path).bind fun _ _ _ _ => .pure trivial
termination_by (Json.totalSize configs, 1)
decreasing_by
  all_goals
    have := Json.size_pos config
    simp only [Json.totalSize, Prod.lex_def]
    omega

theorem effect_abreast (hr : ∀ id c, r.chains.get? id = some c → c.Twin R c) {n m : Nat} (hstep : InStep R n m)
    (config : Json) (context path : String) :
    Abreast n m (Option.Rel (Effect.Twin R)) (effect r config context path) (effect r config context path) := by
  rw [effect]
  refine EndAbreast.report ?_ _ _
  refine .bind_lift _ fun id => .bind_lift _ fun kind => ?_
  have hinside := effects_abreast hr hstep ((config.subsection "args").subsections "effects") 0
    (chainScope (inlineContext context) Chain.anonymousId) (chainPath Chain.anonymousId)
  refine EndAbreast.bind (response_abreast hinside hr hstep kind _ context) fun k s t hst => ?_
  -- Arguments take no numbers; conditions do, and go on where the response left off.
  refine .bind_lift _ fun arguments => ?_
  refine EndAbreast.bind (.of_abreast (conditions_abreast hr (hstep.add k) _ 0 context path)) fun _ _ _ _ => ?_
  exact .pure ⟨rfl, rfl, rfl, rfl, hst⟩
termination_by (config.size, 0)
decreasing_by
  · have := Json.subsection_size config "args"
    have := Json.subsections_size (config.subsection "args") "effects"
    exact Prod.Lex.left _ _ (by omega)
  · exact Prod.Lex.left _ _ (Json.subsections_size config "conditions")

theorem effects_abreast (hr : ∀ id c, r.chains.get? id = some c → c.Twin R c) {n m : Nat} (hstep : InStep R n m)
    (configs : List Json) (i : Nat) (context path : String) :
    Abreast n m (Effect.AllTwin R) (effects r configs i context path) (effects r configs i context path) := by
  cases configs with
  | nil =>
    rw [effects]
    exact .pure rfl
  | cons config rest =>
    rw [effects]
    refine (effect_abreast hr hstep config _ _).bind fun k e f hef => ?_
    refine (effects_abreast hr (hstep.add k) rest (i + 1) context path).bind fun _ es fs hes => .pure ?_
    exact (Effect.allTwin_toList hef).append hes
termination_by (Json.totalSize configs, 1)
decreasing_by
  all_goals
    have := Json.size_pos config
    simp only [Json.totalSize, Prod.lex_def]
    omega

end

end

end Compile

end Ability
