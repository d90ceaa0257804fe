import Mathlib.Data.List.Forall2
import Ability.Proofs.Identity.Name
import Ability.Proofs.Identity.Path

/-! Blocks that stand at different places of a configuration have different names. An element that was left out
leaves no gap in what was compiled; so the places are those of the entries, and they are found by following the
compilation down both the configuration and what came of it. -/

namespace Ability

/-- A compiled element with an identifier. -/
inductive Block
  | effect (e : Effect)
  | condition (c : Condition)

namespace Block

def kind : Block → String
  | effect _ => "effect"
  | condition _ => "condition"

def id : Block → Uuid
  | effect e => e.id
  | condition c => c.id

def MadeOf (r : Registries) (path : String) (config : Json) : Block → Prop
  | effect e => e.MadeOf r path config
  | condition c => c.MadeOf r path config

/-- The block is made of the entry at a place of the configuration, under the path of the place. -/
def StandsAt (r : Registries) (base : String) (config : Json) (p : Compile.Place) (b : Block) : Prop :=
  ∃ entry, p.written? config = some entry ∧ b.MadeOf r (p.path base) entry

/-- Every one of the blocks stands at a place of its own. -/
def Apart (r : Registries) (base : String) (config : Json) (blocks : List Block) : Prop :=
  ∃ places : List Compile.Place, places.Nodup ∧ List.Forall₂ (StandsAt r base config) places blocks

end Block

mutual

/-- The condition and the blocks below it: the effects for when it does not hold and what is below them. -/
def Condition.blocks : Condition → List Block
  | c@⟨_, _, _, _, _, _, _, notMetEffects, _⟩ => .condition c :: Effect.allBlocks notMetEffects

/-- The effect and the blocks below it, those of a chain written inside it apart. -/
def Effect.blocks : Effect → List Block
  | e@⟨_, _, _, conditions, _, _, _⟩ => .effect e :: Condition.allBlocks conditions

def Condition.allBlocks : List Condition → List Block
  | [] => []
  | c :: r => c.blocks ++ Condition.allBlocks r

def Effect.allBlocks : List Effect → List Block
  | [] => []
  | e :: r => e.blocks ++ Effect.allBlocks r

end

def Holder.blocks (h : Holder) : List Block := Effect.allBlocks h.effects ++ Condition.allBlocks h.conditions

def Chain.blocks (c : Chain) : List Block := Effect.allBlocks c.components

theorem Condition.allBlocks_eq_flatMap (cs : List Condition) : allBlocks cs = cs.flatMap blocks := by
  induction cs with
  | nil => rfl
  | cons c cs ih => rw [allBlocks, ih, List.flatMap_cons]

theorem Effect.allBlocks_eq_flatMap (es : List Effect) : allBlocks es = es.flatMap blocks := by
  induction es with
  | nil => rfl
  | cons e es ih => rw [allBlocks, ih, List.flatMap_cons]

theorem Condition.blocks_eq (c : Condition) :
    c.blocks = .condition c :: c.notMetEffects.flatMap Effect.blocks := by
  cases c
  rw [blocks, Effect.allBlocks_eq_flatMap]

theorem Effect.blocks_eq (e : Effect) : e.blocks = .effect e :: e.conditions.flatMap Condition.blocks := by
  cases e
  rw [blocks, Condition.allBlocks_eq_flatMap]

namespace Compile

variable {r : Registries} {base : String} {config : Json}

theorem kept_cons {α : Type} {R : α → Json × Nat → Prop} {x : Option α} {xs : List α} {q : Json × Nat}
    {rest : List (Json × Nat)} (hx : ∀ a, x = some a → R a q) (h : xs.SublistForall₂ R rest) :
    (x.toList ++ xs).SublistForall₂ R (q :: rest) := by
  cases x with
  | none => exact .cons_right h
  | some a => exact .cons (hx a rfl) h

/-- The conditions were made of some of the entries of the list, in the order of those. -/
theorem conditions_kept (r : Registries) (configs : List Json) (i : Nat) (c path : String) (n : Nat) :
    (conditions r configs i c path n).value.1.SublistForall₂
      (fun x q => x.MadeOf r (path ++ "/" ++ item "conditions" q.2) q.1) (configs.zipIdx i) := by
  induction configs generalizing i n with
  | nil =>
    rw [conditions]
    exact .nil
  | cons config rest ih =>
    rw [conditions]
    exact kept_cons (fun x hx => ⟨_, n, hx⟩) (ih (i + 1) _)

theorem effects_kept (r : Registries) (configs : List Json) (i : Nat) (c path : String) (n : Nat) :
    (effects r configs i c path n).value.1.SublistForall₂
      (fun x q => x.MadeOf r (path ++ "/" ++ item "effects" q.2) q.1) (configs.zipIdx i) := by
  induction configs generalizing i n with
  | nil =>
    rw [effects]
    exact .nil
  | cons config rest ih =>
    rw [effects]
    exact kept_cons (fun x hx => ⟨_, n, hx⟩) (ih (i + 1) _)

theorem condition_fallbacks {r : Registries} {config : Json} {c path : String} {n : Nat} {x : Condition}
    (h : (condition r config c path n).value.1 = some x) :
    ∃ m, x.notMetEffects = (effects r ((config.subsection "args").subsections "not_met_effects") 0
      (c ++ " (not met)") (path ++ "/not_met") m).value.1 := by
  rw [condition] at h
  refine Gives.report (P := fun x => ∃ m, x.notMetEffects = (effects r _ 0 _ _ m).value.1) ?_ h
  refine .bind _ fun id => .bind _ fun kind => .bind _ fun datum => .bind_run fun m => ?_
  exact .pure ⟨m, rfl⟩

theorem effect_conditions {r : Registries} {config : Json} {c path : String} {n : Nat} {x : Effect}
    (h : (effect r config c path n).value.1 = some x) :
    ∃ m, x.conditions = (conditions r (config.subsections "conditions") 0 c path m).value.1 := by
  rw [effect] at h
  refine Gives.report (P := fun x => ∃ m, x.conditions = (conditions r _ 0 c path m).value.1) ?_ h
  refine .bind _ fun id => .bind _ fun kind => .bind _ fun response => .bind _ fun arguments => ?_
  exact .bind_run fun m => .pure ⟨m, rfl⟩

theorem standsAt_cons {s : Step} {entry : Json} {p : Place} {b : Block}
    (hentry : s.written? config = some entry) (h : b.StandsAt r (base ++ s.text) entry p) :
    b.StandsAt r base config (s :: p) := by
  obtain ⟨e, he, hmade⟩ := h
  refine ⟨e, ?_, hmade⟩
  rw [Place.written?, List.foldlM_cons, hentry]
  exact he

theorem apart_of_kept {α : Type} {made : α → Json × Nat → Prop} {blocks : α → List Block} {step : Nat → Step}
    (hstep : Function.Injective step) {entries : List (Json × Nat)} (hnodup : (entries.map Prod.snd).Nodup)
    (hentry : ∀ q ∈ entries, (step q.2).written? config = some q.1)
    (hmade : ∀ q ∈ entries, ∀ x, made x q → Block.Apart r (base ++ (step q.2).text) q.1 (blocks x))
    {xs : List α} (h : xs.SublistForall₂ made entries) :
    ∃ places : List Place, places.Nodup ∧ (∀ p ∈ places, ∃ q ∈ entries, p.head? = some (step q.2)) ∧
      List.Forall₂ (Block.StandsAt r base config) places (xs.flatMap blocks) := by
  induction h with
  | nil => exact ⟨[], .nil, List.forall_mem_nil _, .nil⟩
  | cons_right h ih =>
    obtain ⟨places, hplaces, hheads, hstands⟩ := ih (List.nodup_cons.mp hnodup).2
      (List.forall_mem_cons.mp hentry).2 (List.forall_mem_cons.mp hmade).2
    refine ⟨places, hplaces, fun p hp => ?_, hstands⟩
    obtain ⟨q, hq, hhead⟩ := hheads p hp
    exact ⟨q, .tail _ hq, hhead⟩
  | @cons x q xs rest hx h ih =>
    obtain ⟨hfresh, hnodup⟩ := List.nodup_cons.mp hnodup
    obtain ⟨hentry, hentries⟩ := List.forall_mem_cons.mp hentry
    obtain ⟨hown, hmade⟩ := List.forall_mem_cons.mp hmade
    obtain ⟨places, hplaces, hheads, hstands⟩ := ih hnodup hentries hmade
    obtain ⟨own, hownplaces, hownstands⟩ := hown x hx
    refine ⟨own.map (step q.2 :: ·) ++ places, ?_, ?_, ?_⟩
    · refine List.nodup_append'.mpr ⟨hownplaces.map List.cons_injective, hplaces, ?_⟩
      -- a place of both would begin with the steps to two entries of one number
      intro p hp hp'
      obtain ⟨p, -, rfl⟩ := List.mem_map.mp hp
      obtain ⟨q', hq', hhead⟩ := hheads _ hp'
      have hnumber := hstep (Option.some.inj hhead)
      exact hfresh (hnumber ▸ List.mem_map_of_mem hq')
    · intro p hp
      rcases List.mem_append.mp hp with hp | hp
      · obtain ⟨p, -, rfl⟩ := List.mem_map.mp hp
        exact ⟨q, .head _, rfl⟩
      · obtain ⟨q', hq', hhead⟩ := hheads p hp
        exact ⟨q', .tail _ hq', hhead⟩
    · rw [List.flatMap_cons]
      refine List.rel_append ?_ hstands
      exact List.forall₂_map_left_iff.mpr (hownstands.imp fun p b => standsAt_cons hentry)

/-- The blocks stand at places of their own, and each of the places begins with a step of the form. -/
def ApartBelow (r : Registries) (base : String) (config : Json) (step : Nat → Step) (blocks : List Block) : Prop :=
  ∃ places : List Place, places.Nodup ∧ (∀ p ∈ places, ∃ j, p.head? = some (step j)) ∧
    List.Forall₂ (Block.StandsAt r base config) places blocks

theorem apartBelow_of_kept {α : Type} {made : α → Json × Nat → Prop} {blocks : α → List Block}
    {step : Nat → Step} (hstep : Function.Injective step) {configs : List Json}
    (hentry : ∀ j, (step j).written? config = configs[j]?)
    (hmade : ∀ q : Json × Nat, q.1 ∈ configs → ∀ x, made x q →
      Block.Apart r (base ++ (step q.2).text) q.1 (blocks x))
    {xs : List α} (h : xs.SublistForall₂ made configs.zipIdx) :
    ApartBelow r base config step (xs.flatMap blocks) := by
  have hnodup : (configs.zipIdx.map Prod.snd).Nodup := by
    rw [List.zipIdx_map_snd]
    exact List.nodup_range'
  have hentries : ∀ q ∈ configs.zipIdx, (step q.2).written? config = some q.1 :=
    fun q hq => (hentry q.2).trans (List.mem_zipIdx_iff_getElem?.mp hq)
  have hblocks : ∀ q ∈ configs.zipIdx, ∀ x, made x q →
      Block.Apart r (base ++ (step q.2).text) q.1 (blocks x) :=
    fun q hq => hmade q (List.fst_mem_of_mem_zipIdx hq)
  obtain ⟨places, hplaces, hheads, hstands⟩ := apart_of_kept hstep hnodup hentries hblocks h
  refine ⟨places, hplaces, fun p hp => ?_, hstands⟩
  obtain ⟨q, -, hhead⟩ := hheads p hp
  exact ⟨q.2, hhead⟩

/-- The block at the top stands above all that is below it. -/
theorem ApartBelow.cons {step : Nat → Step} {b : Block} {blocks : List Block} (hb : b.MadeOf r base config)
    (h : ApartBelow r base config step blocks) : Block.Apart r base config (b :: blocks) := by
  obtain ⟨places, hplaces, hheads, hstands⟩ := h
  refine ⟨[] :: places, List.nodup_cons.mpr ⟨fun hp => ?_, hplaces⟩, .cons ⟨config, rfl, hb⟩ hstands⟩
  obtain ⟨j, hhead⟩ := hheads [] hp
  cases hhead

theorem ApartBelow.append {step step' : Nat → Step} (hstep : ∀ i j, step i ≠ step' j) {blocks blocks' : List Block}
    (h : ApartBelow r base config step blocks) (h' : ApartBelow r base config step' blocks') :
    Block.Apart r base config (blocks ++ blocks') := by
  obtain ⟨places, hplaces, hheads, hstands⟩ := h
  obtain ⟨places', hplaces', hheads', hstands'⟩ := h'
  refine ⟨places ++ places', List.nodup_append'.mpr ⟨hplaces, hplaces', ?_⟩, List.rel_append hstands hstands'⟩
  intro p hp hp'
  obtain ⟨i, hi⟩ := hheads p hp
  obtain ⟨j, hj⟩ := hheads' p hp'
  exact hstep i j (Option.some.inj (hi.symm.trans hj))

theorem ApartBelow.apart {step : Nat → Step} {blocks : List Block} (h : ApartBelow r base config step blocks) :
    Block.Apart r base config blocks := by
  obtain ⟨places, hplaces, -, hstands⟩ := h
  exact ⟨places, hplaces, hstands⟩

theorem under_effects (base : String) (j : Nat) :
    base ++ "/" ++ item "effects" j = base ++ (Step.effects j).text := String.append_assoc

theorem under_conditions (base : String) (j : Nat) :
    base ++ "/" ++ item "conditions" j = base ++ (Step.conditions j).text := String.append_assoc

theorem under_notMet (base : String) (j : Nat) :
    base ++ "/not_met" ++ "/" ++ item "effects" j = base ++ (Step.notMet j).text := by
  have hslash : "/not_met" ++ "/" = "/not_met/" := rfl
  rw [Step.text, ← hslash, String.append_assoc, String.append_assoc, String.append_assoc]

-- the recursion is that of the compilation, on the size of the configuration

mutual

theorem condition_apart {r : Registries} {path : String} {config : Json} {x : Condition}
    (h : x.MadeOf r path config) : Block.Apart r path config x.blocks := by
  have hmade := h
  obtain ⟨context, n, hx⟩ := h
  obtain ⟨m, hfallbacks⟩ := condition_fallbacks hx
  rw [Condition.blocks_eq, hfallbacks]
  refine ApartBelow.cons hmade (apartBelow_of_kept (fun _ _ => Step.notMet.inj) (fun j => rfl)
    (fun q hq e he => ?_) (effects_kept r _ 0 _ _ m))
  have hsmaller := Json.size_le_totalSize hq
  rw [under_notMet] at he
  exact effect_apart he
termination_by (config.size, 0)
decreasing_by
  have := Json.subsection_size config "args"
  have := Json.subsections_size (config.subsection "args") "not_met_effects"
  exact Prod.Lex.left _ _ (by omega)

theorem conditions_apartBelow (r : Registries) (config : Json) (c base : String) (n : Nat) :
    ApartBelow r base config Step.conditions
      ((conditions r (config.subsections "conditions") 0 c base n).value.1.flatMap Condition.blocks) := by
  refine apartBelow_of_kept (fun _ _ => Step.conditions.inj) (fun j => rfl) (fun q hq x hx => ?_)
    (conditions_kept r _ 0 _ _ n)
  have hsmaller := Json.size_le_totalSize hq
  rw [under_conditions] at hx
  exact condition_apart hx
termination_by (config.size, 0)
decreasing_by
  have := Json.subsections_size config "conditions"
  exact Prod.Lex.left _ _ (by omega)

theorem effect_apart {r : Registries} {path : String} {config : Json} {x : Effect}
    (h : x.MadeOf r path config) : Block.Apart r path config x.blocks := by
  have hmade := h
  obtain ⟨context, n, hx⟩ := h
  obtain ⟨m, hconditions⟩ := effect_conditions hx
  rw [Effect.blocks_eq, hconditions]
  exact ApartBelow.cons hmade (conditions_apartBelow r config context path m)
termination_by (config.size, 1)

end

theorem effects_apartBelow (r : Registries) (config : Json) (c base : String) (n : Nat) :
    ApartBelow r base config Step.effects
      ((effects r (config.subsections "effects") 0 c base n).value.1.flatMap Effect.blocks) := by
  refine apartBelow_of_kept (fun _ _ => Step.effects.inj) (fun j => rfl) (fun q hq e he => ?_)
    (effects_kept r _ 0 _ _ n)
  rw [under_effects] at he
  exact effect_apart he

theorem kept_of_mem {α β : Type} {R : α → β → Prop} {xs : List α} {ys : List β} (h : xs.SublistForall₂ R ys) :
    ∀ x ∈ xs, ∃ y ∈ ys, R x y := by
  induction h with
  | nil => exact List.forall_mem_nil _
  | @cons x y xs ys hxy h ih =>
    refine List.forall_mem_cons.mpr ⟨⟨y, .head _, hxy⟩, fun z hz => ?_⟩
    obtain ⟨w, hw, hzw⟩ := ih z hz
    exact ⟨w, .tail _ hw, hzw⟩
  | cons_right h ih =>
    intro z hz
    obtain ⟨w, hw, hzw⟩ := ih z hz
    exact ⟨w, .tail _ hw, hzw⟩

/-- Each of the effects stands one step below the top of the configuration. -/
theorem effects_direct (r : Registries) (config : Json) (c base : String) (n : Nat) :
    ∀ e ∈ (effects r (config.subsections "effects") 0 c base n).value.1,
      ∃ i, (Block.effect e).StandsAt r base config [.effects i] := by
  intro e he
  obtain ⟨q, hq, hmade⟩ := kept_of_mem (effects_kept r _ 0 _ _ n) e he
  rw [under_effects] at hmade
  have hentry : Step.written? config (.effects q.2) = some q.1 := List.mem_zipIdx_iff_getElem?.mp hq
  exact ⟨q.2, standsAt_cons hentry ⟨q.1, rfl, hmade⟩⟩

end Compile

end Ability
