import Ability.Builtin.Registries
import Ability.Proofs.Compile.Orders
import Ability.Proofs.Expression.Reading
import Ability.Proofs.Table
import Ability.Proofs.Trigger

/-! What is compiled with the kinds that come with the engine. All of it was checked by its kind, in the
chains that it names too, as long as these were compiled with such kinds themselves. -/

namespace Ability

open Expression (bind_eq_ok)
open Relation

/-- The kind is built in and has made the datum from these arguments. -/
structure Condition.Checked (c : Condition) : Prop where
  kind : c.kind ∈ Builtin.conditions
  compiled : c.kind.compile c.args = .ok c.datum

structure Argument.Checked (args : Json) (a : Argument) : Prop where
  kind : a.kind ∈ Builtin.arguments
  compiled : a.kind.compile args = .ok a.datum

def Response.Checked (args : Json) (s : Response) : Prop :=
  ∀ k d, s = .leaf k d → .leaf k ∈ Builtin.effects ∧ k.compile args = .ok d

/-- What the effect itself consists of was checked; the chain that it runs is another matter. -/
structure Effect.Checked (e : Effect) : Prop where
  response : e.response.Checked e.args
  arguments : ∀ a ∈ e.arguments, a.Checked e.args
  conditions : ∀ c ∈ e.conditions, c.Checked

/-- Everything in the effect was checked, in the chains that it names too. -/
def Effect.Sound (e : Effect) : Prop := ∀ f, e.Holds (fun _ => True) f → f.Checked

namespace Registries

def HaveBuiltinKinds (r : Registries) : Prop := r = { Registries.builtin with chains := r.chains }

theorem haveBuiltinKinds_builtin : HaveBuiltinKinds builtin := by
  unfold HaveBuiltinKinds
  generalize builtin = r
  rfl

theorem builtin_conditions : ∀ k ∈ builtin.conditions.values, k ∈ Builtin.conditions := by
  have h : builtin.conditions.values = [Builtin.attributeAtLeast, Builtin.hasPermission,
    Builtin.placeholderEquals, Builtin.placeholderGreaterThan, Builtin.placeholderLessThan] := rfl
  simp [h, Builtin.conditions]

theorem builtin_effects : ∀ k ∈ builtin.effects.values, k ∈ Builtin.effects := by
  have h : builtin.effects.values = [.leaf Builtin.givePermission, .leaf Builtin.logMessage,
    Builtin.runChain, .leaf Builtin.sendMessage] := rfl
  simp [h, Builtin.effects]

theorem builtin_arguments : ∀ k ∈ builtin.arguments.values, k ∈ Builtin.arguments := by
  have h : builtin.arguments.values = [Builtin.chance, Builtin.require] := rfl
  simp [h, Builtin.arguments]

end Registries

theorem mem_of_mapM_eq_ok {ε α β : Type} {f : α → Except ε β} {xs : List α} {ys : List β}
    (h : xs.mapM f = .ok ys) : ∀ y ∈ ys, ∃ x ∈ xs, f x = .ok y := by
  induction xs generalizing ys with
  | nil =>
    obtain rfl := Except.ok.inj h
    exact nofun
  | cons x xs ih =>
    rw [List.mapM_cons] at h
    obtain ⟨z, hz, h⟩ := bind_eq_ok.mp h
    obtain ⟨zs, hzs, h⟩ := bind_eq_ok.mp h
    obtain rfl := Except.ok.inj h
    intro y hy
    rcases List.mem_cons.mp hy with rfl | hy
    · exact ⟨x, List.mem_cons_self, hz⟩
    · obtain ⟨w, hw, hwy⟩ := ih hzs y hy
      exact ⟨w, List.mem_cons_of_mem x hw, hwy⟩

namespace Compile

theorem arguments_checked {r : Registries} (hr : r.HaveBuiltinKinds) {args : Json} {as : List Argument}
    (h : arguments r args = .ok as) : ∀ a ∈ as, a.Checked args := by
  intro a ha
  obtain ⟨entry, hentry, hmade⟩ := mem_of_mapM_eq_ok h a ha
  obtain ⟨d, hd, hmade⟩ := bind_eq_ok.mp hmade
  obtain rfl := Except.ok.inj hmade
  refine ⟨?_, hd⟩
  rw [hr] at hentry
  exact Registries.builtin_arguments _ (List.mem_map_of_mem (List.mem_filter.mp hentry).1)

/-- With built-in kinds, everything that is compiled was checked, if the registered chains were. -/
def checkLaw {r : Registries} {base : Nat} (hr : r.HaveBuiltinKinds)
    (hchains : ∀ id c, r.chains.get? id = some c → ∀ e ∈ c.components, e.Sound) : Law r base where
  ofCondition _ c := c.Checked ∧ ∀ e ∈ c.notMetEffects, e.Sound
  ofEffect _ e := e.Sound
  ofResponse _ args s := s.Checked args ∧ ∀ kind c x, s = .chain kind c x → ∀ e ∈ c.components, e.Sound
  condition_mono _ hc := hc
  effect_mono _ he := he
  response_mono _ hs := hs
  condition hkind hdatum hes := by
    rw [hr] at hkind
    exact ⟨⟨Registries.builtin_conditions _ (Table.mem_values_iff.2 ⟨_, hkind⟩), hdatum⟩, hes⟩
  effect hs has hcs f hf := by
    cases hf with
    | self e => exact ⟨hs.1, arguments_checked hr has, fun c hc => (hcs c hc).1⟩
    | component _ hc hg hf => exact hs.2 _ _ _ hc _ hg f hf
    | fallback hc hg hf => exact (hcs _ hc).2 _ hg f hf
  leaf hkind hd := by
    rw [hr] at hkind
    have hmem := Registries.builtin_effects _ (Table.mem_values_iff.2 ⟨_, hkind⟩)
    refine ⟨fun k d hs => ?_, nofun⟩
    cases hs
    exact ⟨hmem, hd⟩
  named _ _ hc := by
    refine ⟨nofun, fun kind c x hs => ?_⟩
    cases hs
    exact hchains _ _ hc
  inline _ _ hes := by
    refine ⟨nofun, fun kind c x hs => ?_⟩
    cases hs
    exact hes

end Compile

/-- Part of something that was compiled with built-in kinds, and with registered chains whose components
were so too. -/
inductive Effect.Compiled : Effect → Prop
  | intro {g : Engine} {o : Order} {e : Effect} (kinds : g.registries.HaveBuiltinKinds)
      (chains : ∀ id c, g.registries.chains.get? id = some c → ∀ d ∈ c.components, Effect.Compiled d)
      (part : (g.product o).Holds (fun _ => True) e) : Effect.Compiled e

structure Engine.Standard (g : Engine) : Prop where
  kinds : g.registries.HaveBuiltinKinds
  chains : ∀ id c, g.registries.chains.get? id = some c → ∀ e ∈ c.components, e.Compiled

def Condition.Compiled (c : Condition) : Prop :=
  (∃ g o, Engine.Standard g ∧ c ∈ (g.product o).allConditions) ∨
    ∃ e : Effect, e.Compiled ∧ c ∈ e.conditions

theorem Effect.Compiled.sound {e : Effect} (he : e.Compiled) : e.Sound := by
  induction he with
  | @intro g o e kinds _ part ih =>
    obtain ⟨-, heffects, hconditions, -⟩ := g.product_lawful (Compile.checkLaw kinds ih) o
    intro f hf
    rcases part.trans hf with ⟨d, hd, hf⟩ | ⟨c, hc, d, hd, hf⟩
    · exact heffects d hd f hf
    · exact (hconditions c hc).2 d hd f hf

theorem Condition.Compiled.checked {c : Condition} (hc : c.Compiled) : c.Checked := by
  rcases hc with ⟨g, o, hg, hc⟩ | ⟨e, he, hc⟩
  · have hsound := fun id c hget e he => (hg.chains id c hget e he).sound
    obtain ⟨-, -, hconditions, -⟩ := g.product_lawful (Compile.checkLaw hg.kinds hsound) o
    exact (hconditions c hc).1
  · exact (he.sound e (.self e)).conditions c hc

theorem Effect.Compiled.of_calls {e f : Effect} (he : e.Compiled) (hf : ReflTransGen Effect.Calls e f) :
    f.Compiled := by
  induction hf with
  | refl => exact he
  | @tail d f _ hdf hd =>
    obtain ⟨kind, c, x, hresponse, hmem⟩ := hdf
    obtain ⟨kinds, chains, part⟩ := hd
    exact .intro kinds chains (part.trans (.component trivial hresponse hmem (.self f)))

theorem Registries.HaveBuiltinKinds.addChain {r : Registries} (hr : r.HaveBuiltinKinds) (c : Chain) :
    (r.addChain c).HaveBuiltinKinds := by
  have hkinds : ∀ chains, ({ r with chains } : Registries) = { Registries.builtin with chains } := by
    intro chains
    exact congrArg (fun q : Registries => { q with chains }) hr
  exact hkinds (r.chains.add c)

namespace Engine.Standard

theorem part {g : Engine} (hg : g.Standard) {o : Order} {e : Effect}
    (he : (g.product o).Holds (fun _ => True) e) : e.Compiled :=
  .intro hg.kinds hg.chains he

theorem filled {g : Engine} (hg : g.Standard) (o : Order) : (g.filled o).Standard where
  kinds := by
    rw [g.filled_registries o]
    cases o.named? (g.product o) with
    | none => exact hg.kinds
    | some c => exact hg.kinds.addChain c
  chains id c hc e he := by
    rcases named_or_registered hc with hnamed | hc
    · exact hg.part (.inl ⟨e, mem_allEffects_of_chain? (named?_eq_chain? hnamed) he, .self e⟩)
    · exact hg.chains id c hc e he

theorem afterOrders {g : Engine} (hg : g.Standard) (orders : List Order) :
    (g.afterOrders orders).Standard :=
  Engine.afterOrders_induction hg (fun _ o h => h.filled o) orders

end Engine.Standard

end Ability
