import Ability.Proofs.Compile.Orders
import Ability.Proofs.Trigger

/-! The effects that are made when an order is filled. They come in the order in which their executors get their
numbers, so no two of them run a chain with the same executor, however alike they are. What a chain calls was made
with it, or was there when the order came. -/

namespace Ability

open Relation

/-- The number of the executor with which an effect runs a chain. -/
def Effect.executor? (e : Effect) : Option Nat :=
  match e.response with
  | .leaf _ _ => none
  | .chain _ _ x => some x.number

mutual

/-- The effects that were made with an effect: the components of a chain that is written inside it, then itself, then
what stands in for its conditions. -/
def Effect.parts : Effect → List Effect
  | e@⟨_, args, response, conditions, _, _, _⟩ =>
    (if (args.text? "chain").isNone then response.parts else []) ++ e :: Condition.allParts conditions

def Response.parts : Response → List Effect
  | .leaf _ _ => []
  | .chain _ c _ => c.parts

def Chain.parts : Chain → List Effect
  | ⟨_, _, components⟩ => Effect.allParts components

def Condition.parts : Condition → List Effect
  | ⟨_, _, _, _, _, _, _, notMetEffects, _⟩ => Effect.allParts notMetEffects

def Condition.allParts : List Condition → List Effect
  | [] => []
  | c :: cs => c.parts ++ Condition.allParts cs

def Effect.allParts : List Effect → List Effect
  | [] => []
  | e :: es => e.parts ++ Effect.allParts es

end

def Holder.parts (h : Holder) : List Effect := Effect.allParts h.effects ++ Condition.allParts h.conditions

/-- All effects that were made when an order was filled. -/
def Product.parts : Product → List Effect
  | .condition c => c.elim [] Condition.parts
  | .conditions cs => Condition.allParts cs
  | .effect e => e.elim [] Effect.parts
  | .effects es => Effect.allParts es
  | .holder h => h.elim [] Holder.parts
  | .chain c => c.elim [] Chain.parts

/-- The effects that were made for a chain that is run with these arguments, unless it is named in them. -/
def Chain.inside (args : Json) (c : Chain) : List Effect := if (args.text? "chain").isNone then c.parts else []

def Response.inside (args : Json) : Response → List Effect
  | .leaf _ _ => []
  | .chain _ c _ => c.inside args

theorem Effect.parts_eq (e : Effect) :
    e.parts = (e.response.inside e.args ++ [e]) ++ Condition.allParts e.conditions := by
  obtain ⟨id, args, response, conditions, arguments, triggers, context⟩ := e
  rw [Effect.parts, List.append_assoc]
  cases response with
  | leaf kind d => simp [Response.inside, Response.parts]
  | chain kind c x => rfl

theorem Effect.mem_parts_self (e : Effect) : e ∈ e.parts := by simp [parts_eq]

theorem Effect.mem_allParts {es : List Effect} {e : Effect} (he : e ∈ es) : e ∈ allParts es := by
  induction es with
  | nil => cases he
  | cons f es ih =>
    rcases List.mem_cons.1 he with rfl | he
    · exact List.mem_append_left _ e.mem_parts_self
    · exact List.mem_append_right _ (ih he)

theorem Chain.parts_eq (c : Chain) : c.parts = Effect.allParts c.components := by
  cases c
  rfl

/-- Effects that were made one after the other while the numbers went from `n` to `m`. -/
structure Blocks (old : List Effect) (n m : Nat) (es : List Effect) : Prop where
  ascending : (es.filterMap (·.executor?)).Pairwise (· < ·)
  within : ∀ k ∈ es.filterMap (·.executor?), n ≤ k ∧ k < m
  /-- No chain is empty. -/
  filled : ∀ e ∈ es, ∀ kind c x, e.response = .chain kind c x → c.components ≠ []
  /-- What they call is among them, or was there before. -/
  closed : ∀ e ∈ es, ∀ f, e.Calls f → f ∈ es ∨ f ∈ old

namespace Blocks

variable {old es fs : List Effect} {n m l : Nat} {e : Effect}

theorem nil : Blocks old n m [] := ⟨.nil, nofun, nofun, nofun⟩

theorem mono (h : Blocks old n m es) (hl : m ≤ l) : Blocks old n l es where
  ascending := h.ascending
  within k hk := ⟨(h.within k hk).1, Nat.lt_of_lt_of_le (h.within k hk).2 hl⟩
  filled := h.filled
  closed := h.closed

theorem weaken {old' : List Effect} (h : Blocks old n m es) (hold : old ⊆ old') : Blocks old' n m es where
  ascending := h.ascending
  within := h.within
  filled := h.filled
  closed e he f hf := (h.closed e he f hf).imp_right (@hold f)

theorem append (hes : Blocks old n m es) (hfs : Blocks (es ++ old) m l fs) (hn : n ≤ m) (hm : m ≤ l) :
    Blocks old n l (es ++ fs) where
  ascending := by
    rw [List.filterMap_append]
    refine List.pairwise_append.2 ⟨hes.ascending, hfs.ascending, fun j hj k hk => ?_⟩
    exact Nat.lt_of_lt_of_le (hes.within j hj).2 (hfs.within k hk).1
  within k hk := by
    rw [List.filterMap_append] at hk
    rcases List.mem_append.1 hk with hk | hk
    · exact ⟨(hes.within k hk).1, Nat.lt_of_lt_of_le (hes.within k hk).2 hm⟩
    · exact ⟨Nat.le_trans hn (hfs.within k hk).1, (hfs.within k hk).2⟩
  filled := List.forall_mem_append.2 ⟨hes.filled, hfs.filled⟩
  closed := by
    refine List.forall_mem_append.2 ⟨fun e he f hf => ?_, fun e he f hf => ?_⟩
    · exact (hes.closed e he f hf).imp_left (List.mem_append_left _)
    · rcases hfs.closed e he f hf with hf | hf
      · exact .inl (List.mem_append_right _ hf)
      · exact (List.mem_append.1 hf).imp_left (List.mem_append_left _)

theorem leaf {kind : LeafKind} {d : Datum} (he : e.response = .leaf kind d) : Blocks old n m [e] where
  ascending := by simp [Effect.executor?, he]
  within := by simp [Effect.executor?, he]
  filled := by simp [he]
  closed := by simp [Effect.Calls, he]

theorem runner {kind : String} {c : Chain} {x : ExecutorKind} (he : e.response = .chain kind c ⟨x, n⟩)
    (hc : c.components ≠ []) (hold : ∀ f ∈ c.components, f ∈ old) : Blocks old n (n + 1) [e] where
  ascending := by simp [Effect.executor?, he]
  within := by simp [Effect.executor?, he]
  filled := by
    refine List.forall_mem_singleton.2 fun kind' c' x' hresponse => ?_
    cases he.symm.trans hresponse
    exact hc
  closed := by
    refine List.forall_mem_singleton.2 ?_
    rintro f ⟨kind', c', x', hresponse, hf⟩
    cases he.symm.trans hresponse
    exact .inr (hold f hf)

theorem concat (hes : Blocks old n m es) (hfs : Blocks old m l fs) (hn : n ≤ m) (hm : m ≤ l) :
    Blocks old n l (es ++ fs) :=
  hes.append (hfs.weaken (List.subset_append_right _ _)) hn hm

theorem elim {α : Type} {x : Option α} {parts : α → List Effect}
    (hx : ∀ a, x = some a → Blocks old n m (parts a)) : Blocks old n m (x.elim [] parts) := by
  cases x with
  | none => exact .nil
  | some a => exact hx a rfl

/-- No two of them have the same executor. -/
theorem eq_of_executor (h : Blocks old n m es) {f : Effect} {k : Nat} (he : e ∈ es) (hf : f ∈ es)
    (hek : e.executor? = some k) (hfk : f.executor? = some k) : e = f := by
  have hascending := List.pairwise_iff_getElem.1 (List.pairwise_filterMap.1 h.ascending)
  obtain ⟨i, hi, rfl⟩ := List.getElem_of_mem he
  obtain ⟨j, hj, rfl⟩ := List.getElem_of_mem hf
  rcases Nat.lt_trichotomy i j with hij | rfl | hij
  · exact absurd (hascending i j hi hj hij k hek k hfk) (Nat.lt_irrefl k)
  · rfl
  · exact absurd (hascending j i hj hi hij k hfk k hek) (Nat.lt_irrefl k)

theorem calls_mem (h : Blocks [] n m es) {f : Effect} (he : e ∈ es) (hf : ReflTransGen Effect.Calls e f) : f ∈ es := by
  induction hf with
  | refl => exact he
  | tail _ hcalls ih => exact (h.closed _ ih _ hcalls).resolve_right List.not_mem_nil

end Blocks

/-- No registered chain is empty, and all call what was there before. -/
def ChainRegistry.FilledFrom (chains : ChainRegistry) (old : List Effect) : Prop :=
  ∀ id c, chains.get? id = some c → c.components ≠ [] ∧ c.components ⊆ old

namespace Compile

section

variable {r : Registries} {old : List Effect} (hr : r.chains.FilledFrom old)
variable {n : Nat} {x : Compile (List Effect)} (h : Leads n (fun m es => Blocks old n m (Effect.allParts es)) x)

include h

theorem blocks_chainOf (context id : String) :
    Leads n (fun m c => ∀ a, c = some a → a.components ≠ [] ∧ Blocks old n m a.parts) (chainOf context id x) := by
  refine h.bind fun m es _ hes => ?_
  split
  · exact (Leads.tell _).bind fun _ _ _ _ => .pure fun _ hb => nomatch hb
  · next hfilled =>
    refine Leads.fresh.bind fun l j _ ⟨hj, hl⟩ => .pure fun b hb => ?_
    obtain rfl := Option.some.inj hb
    subst hj hl
    exact ⟨by simpa using hfilled, hes.mono (Nat.le_succ _)⟩

include hr

theorem blocks_chainFor (args : Json) (context : String) :
    Makes n (fun m c => c.components ≠ [] ∧ Blocks old n m (c.inside args) ∧
      ∀ e ∈ c.components, e ∈ c.inside args ∨ e ∈ old) (chainFor r args context x) := by
  unfold chainFor
  split
  · next id hid =>
    refine .lift fun c hc => ?_
    obtain ⟨hfilled, hold⟩ := hr id c (lookup_eq_ok hc)
    rw [Chain.inside, hid]
    exact ⟨hfilled, .nil, fun e he => .inr (hold he)⟩
  · next hid =>
    split
    · refine Makes.bind (.of_leads (blocks_chainOf h _ _)) fun m c hnm hc => ?_
      cases c with
      | none => exact .throw _
      | some c =>
        obtain ⟨hfilled, hparts⟩ := hc c rfl
        refine .pure ⟨hfilled, ?_⟩
        rw [Chain.inside, hid]
        exact ⟨hparts, fun e he => .inl (c.parts_eq ▸ Effect.mem_allParts he)⟩
    · exact .throw _

theorem blocks_response (kind : EffectKind) (args : Json) (context : String) :
    Makes n (fun m s => ∀ e : Effect, e.response = s → Blocks old n m (s.inside args ++ [e]))
      (response r kind args context x) := by
  cases kind with
  | leaf k => exact .bind_lift fun d _ => .pure fun e he => .leaf he
  | chainRunner k =>
    refine .bind_lift fun executor _ => ?_
    refine Makes.bind (blocks_chainFor hr h args context) fun m c hnm ⟨hfilled, hparts, hcalls⟩ => ?_
    refine Makes.bind (.of_leads Leads.fresh) fun l j _ ⟨hj, hl⟩ => .pure fun e he => ?_
    subst hj hl
    -- The components that are written inside have their numbers already.
    exact hparts.append (.runner he hfilled fun f hf => List.mem_append.2 (hcalls f hf)) hnm (Nat.le_succ _)

end

variable {r : Registries} {old : List Effect}

mutual

theorem blocks_condition (hr : r.chains.FilledFrom old) (n : Nat) (config : Json) (context path : String) :
    Leads n (fun m c => ∀ a, c = some a → Blocks old n m a.parts) (Compile.condition r config context path) := by
  rw [Compile.condition]
  refine Makes.report ?_ _ _
  refine .bind_lift fun id _ => .bind_lift fun kind _ => .bind_lift fun datum _ => ?_
  exact Makes.bind (.of_leads (blocks_effects hr n _ 0 _ _)) fun m es _ hes => .pure hes
termination_by (config.size, 0)
decreasing_by
  have := Json.subsection_size config "args"
  have := Json.subsections_size (config.subsection "args") "not_met_effects"
  exact Prod.Lex.left _ _ (by omega)

theorem blocks_conditions (hr : r.chains.FilledFrom old) (n : Nat) (configs : List Json) (i : Nat)
    (context path : String) :
    Leads n (fun m cs => Blocks old n m (Condition.allParts cs)) (Compile.conditions r configs i context path) := by
  cases configs with
  | nil =>
    rw [Compile.conditions]
    exact .pure .nil
  | cons config rest =>
    rw [Compile.conditions]
    refine (blocks_condition hr n config _ _).bind fun m c hnm hc => ?_
    refine (blocks_conditions hr m rest (i + 1) context path).bind fun l cs hml hcs => .pure ?_
    have hall : Condition.allParts (c.toList ++ cs) = c.elim [] Condition.parts ++ Condition.allParts cs := by
      cases c <;> rfl
    rw [hall]
    exact (Blocks.elim hc).concat hcs hnm hml
termination_by (Json.totalSize configs, 1)
decreasing_by
  all_goals
    have := Json.size_pos config
    simp only [Json.totalSize, Prod.lex_def]
    omega

theorem blocks_effect (hr : r.chains.FilledFrom old) (n : Nat) (config : Json) (context path : String) :
    Leads n (fun m e => ∀ a, e = some a → Blocks old n m a.parts) (Compile.effect r config context path) := by
  rw [Compile.effect]
  refine Makes.report ?_ _ _
  refine .bind_lift fun id _ => .bind_lift fun kind _ => ?_
  refine Makes.bind (blocks_response hr (blocks_effects hr n _ 0 _ _) kind _ context) ?_
  refine fun m s hnm hs => .bind_lift fun arguments _ => ?_
  refine Makes.bind (.of_leads (blocks_conditions hr m _ 0 context path)) fun l cs hml hcs => .pure ?_
  rw [Effect.parts_eq]
  exact (hs _ rfl).concat hcs hnm hml
termination_by (config.size, 0)
decreasing_by
  · have := Json.subsection_size config "args"
    have := Json.subsections_size (config.subsection "args") "effects"
    exact Prod.Lex.left _ _ (by omega)
  · exact Prod.Lex.left _ _ (Json.subsections_size config "conditions")

theorem blocks_effects (hr : r.chains.FilledFrom old) (n : Nat) (configs : List Json) (i : Nat)
    (context path : String) :
    Leads n (fun m es => Blocks old n m (Effect.allParts es)) (Compile.effects r configs i context path) := by
  cases configs with
  | nil =>
    rw [Compile.effects]
    exact .pure .nil
  | cons config rest =>
    rw [Compile.effects]
    refine (blocks_effect hr n config _ _).bind fun m e hnm he => ?_
    refine (blocks_effects hr m rest (i + 1) context path).bind fun l es hml hes => .pure ?_
    have hall : Effect.allParts (e.toList ++ es) = e.elim [] Effect.parts ++ Effect.allParts es := by
      cases e <;> rfl
    rw [hall]
    exact (Blocks.elim he).concat hes hnm hml
termination_by (Json.totalSize configs, 1)
decreasing_by
  all_goals
    have := Json.size_pos config
    simp only [Json.totalSize, Prod.lex_def]
    omega

end

theorem blocks_holder (hr : r.chains.FilledFrom old) (n : Nat) (config : Json) (context : String) :
    Leads n (fun m x => ∀ h, x = some h → Blocks old n m h.parts) (Compile.holder r config context) := by
  unfold Compile.holder
  split
  · exact (Leads.tell _).bind fun _ _ _ _ => .pure fun _ hb => nomatch hb
  · refine (blocks_effects hr n _ 0 _ _).bind fun m es hnm hes => ?_
    refine (blocks_conditions hr m _ 0 _ _).bind fun l cs hml hcs => .pure fun h hh => ?_
    obtain rfl := Option.some.inj hh
    exact hes.concat hcs hnm hml

theorem blocks_chain (hr : r.chains.FilledFrom old) (n : Nat) (config : Json) (context : String)
    (anonymous : Bool) :
    Leads n (fun m x => ∀ c, x = some c → c.components ≠ [] ∧ Blocks old n m c.parts)
      (Compile.chain r config context anonymous) := by
  have hmake := fun id => blocks_chainOf (blocks_effects hr n (config.subsections "effects") 0
    (chainScope context id) (chainPath id)) context id
  unfold Compile.chain
  split
  · exact hmake _
  · split
    · exact (Leads.tell _).bind fun _ _ _ _ => .pure fun _ hb => nomatch hb
    · exact hmake _

end Compile

/-- What is made of an order has numbers of its own; the chain that is made, if one is, is not empty. -/
theorem Engine.product_blocks (g : Engine) {old : List Effect} (hg : g.registries.chains.FilledFrom old)
    (o : Order) :
    g.nextNumber ≤ (g.filled o).nextNumber ∧
      Blocks old g.nextNumber (g.filled o).nextNumber (g.product o).parts ∧
      ∀ c, (g.product o).chain? = some c → c.components ≠ [] ∧ c.components ⊆ (g.product o).parts := by
  cases o with
  | condition config context =>
    obtain ⟨hle, hc⟩ := Compile.blocks_condition hg g.nextNumber config context ""
    exact ⟨hle, .elim hc, nofun⟩
  | conditions configs context =>
    obtain ⟨hle, hcs⟩ := Compile.blocks_conditions hg g.nextNumber configs 0 context ""
    exact ⟨hle, hcs, nofun⟩
  | effect config context =>
    obtain ⟨hle, he⟩ := Compile.blocks_effect hg g.nextNumber config context ""
    exact ⟨hle, .elim he, nofun⟩
  | effects configs context =>
    obtain ⟨hle, hes⟩ := Compile.blocks_effects hg g.nextNumber configs 0 context ""
    exact ⟨hle, hes, nofun⟩
  | holder config context =>
    obtain ⟨hle, hh⟩ := Compile.blocks_holder hg g.nextNumber config context
    exact ⟨hle, .elim hh, nofun⟩
  | chain config context anonymous =>
    have hvalue := compileChain_value g config context anonymous
    obtain ⟨hle, hc⟩ := Compile.blocks_chain hg g.nextNumber config context anonymous
    simp only [filled, product, fill, hvalue, Prod.map, id, Product.chain?]
    refine ⟨hle, .elim fun c hsome => (hc c hsome).2, fun c hsome => ⟨(hc c hsome).1, fun e he => ?_⟩⟩
    rw [Product.parts, hsome, Option.elim, c.parts_eq]
    exact Effect.mem_allParts he

end Ability
