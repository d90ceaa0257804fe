import Ability.Proofs.Definitions.Compiled
import Ability.Proofs.Permission.Round

/-! The first round of a host: definitions are compiled and instantiated, their provider is registered, and each
subject is updated once. A subject then has its own permissions and those of the effects that its update has enabled;
and these are all that are active under its identifier, unless others bear it too. -/

namespace Ability

namespace Sheet

theorem mem_foldl_addBase {ps : List String} {sh : Sheet} {q : String} :
    q ∈ (ps.foldl addBase sh).base ↔ q ∈ sh.base ∨ q ∈ ps := by
  induction ps generalizing sh with
  | nil => simp
  | cons p ps ih => rw [List.foldl_cons, ih, mem_addBase, List.mem_cons, or_comm (a := q = p), or_assoc]

theorem foldl_addBase_granted (ps : List String) (sh : Sheet) : (ps.foldl addBase sh).granted = sh.granted := by
  induction ps generalizing sh with
  | nil => rfl
  | cons p ps ih => rw [List.foldl_cons, ih, addBase_granted]

end Sheet

/-- A subject that has just been made of its definition has the permissions listed there, and no others. -/
theorem SubjectDefinition.instantiate_sheet (d : SubjectDefinition) :
    ∃ sh, d.instantiate.sheet = some sh ∧ sh.granted = [] ∧ ∀ p, p ∈ sh.base ↔ p ∈ d.permissions := by
  refine ⟨_, rfl, Sheet.foldl_addBase_granted .., fun p => ?_⟩
  rw [Sheet.mem_foldl_addBase]
  simp [Sheet.empty]

namespace Definitions

/-- What a host does with definitions: it compiles them, makes the subjects, registers the provider of their holders,
and updates each of them once. -/
def launch (d : Definitions) (source : String) : EngineM (List (UpdateReport × Subject)) := do
  let c ← d.compile source
  let (ss, a) ← StateT.lift (c.instantiate .empty d.subjects)
  modify fun g => { g with cache := g.cache.addProvider a.provider }
  Engine.updateEach ss

/-- The engine that has compiled definitions and has the provider registered. -/
def prepared (d : Definitions) (source : String) (g : Engine) : Engine :=
  let x := (d.compile source g).value
  let a := (x.1.instantiate .empty d.subjects).value.2
  { x.2 with cache := x.2.cache.addProvider a.provider }

theorem launch_value (d : Definitions) (source : String) (g : Engine) :
    (d.launch source g).value =
      (Engine.updateEach (d.subjects.map SubjectDefinition.instantiate) (d.prepared source g)).value := by
  rw [← CompiledDefinitions.instantiate_subjects (d.compile source g).value.1 .empty]
  rfl

/-- Compiling leaves the engine as it is but for registries and numbers. -/
theorem compile_frame (d : Definitions) (source : String) (g : Engine) : ∃ registries nextNumber,
    (d.compile source g).value.2 = { g with registries, nextNumber } := by
  rw [compile_engine]
  exact g.afterOrders_frame _

theorem prepared_activeEffects (d : Definitions) (source : String) (g : Engine) (u : Uuid) :
    (d.prepared source g).activeEffects u = g.activeEffects u := by
  obtain ⟨registries, nextNumber, hengine⟩ := d.compile_frame source g
  simp only [Engine.activeEffects, prepared, hengine]

theorem prepared_knows {g : Engine} (hg : g.Standard) (hk : g.Knows Effect.Builtin) (d : Definitions)
    (source : String) : (d.prepared source g).Knows Effect.Builtin := by
  obtain ⟨registries, nextNumber, hengine⟩ := d.compile_frame source g
  have hholders : ∀ id h, (d.compile source g).value.1.holders.get? id = some h → ∀ e ∈ h.effects, e.Builtin :=
    fun id h hh e he => (compile_holders hg hh e he).sound.builtin
  have hnone : ∀ u ps, (Table.empty : Assignments).get? u = some ps → Lends Effect.Builtin ps := by
    intro u ps hps
    cases hps
  have hprovider := Assignments.provider_brings (CompiledDefinitions.instantiate_lends hholders hnone d.subjects)
  refine ⟨fun u => ?_, fun u => ?_⟩
  · simp only [prepared, hengine]
    exact (hk.supplied u).addProvider (hprovider u)
  · rw [prepared_activeEffects]
    exact hk.active u

end Definitions

namespace Engine

/-- A new engine that may have compiled something already. -/
def workshop (ev : Evaluator) (lifetime : Nat) (os : List Order) : Engine :=
  (Engine.new .builtin ev lifetime).afterOrders os

theorem workshop_standard (ev : Evaluator) (lifetime : Nat) (os : List Order) : (workshop ev lifetime os).Standard :=
  (standard_new ev lifetime).afterOrders os

theorem workshop_activeEffects (ev : Evaluator) (lifetime : Nat) (os : List Order) (u : Uuid) :
    (workshop ev lifetime os).activeEffects u = .empty := by
  obtain ⟨registries, nextNumber, hframe⟩ := (Engine.new .builtin ev lifetime).afterOrders_frame os
  rw [workshop, hframe]
  rfl

theorem workshop_knows (ev : Evaluator) (lifetime : Nat) (os : List Order) :
    (workshop ev lifetime os).Knows Effect.Builtin := by
  refine ⟨fun u => ?_, fun u e he => ?_⟩
  · obtain ⟨registries, nextNumber, hframe⟩ := (Engine.new .builtin ev lifetime).afterOrders_frame os
    rw [workshop, hframe]
    exact ⟨fun p hp => absurd hp List.not_mem_nil, fun r hr => nomatch hr⟩
  · rw [workshop_activeEffects] at he
    exact absurd he List.not_mem_nil

end Engine

/-- When definitions are launched, each of them gives a subject of its name, in their order. It has the permissions
of the definition and those that the effects give which its own update has enabled. Unless another definition gives to
the same identifier, these are the effects that are active under its identifier in the end. -/
theorem permissions_follow_definitions (ev : Evaluator) (lifetime : Nat) (os : List Order) (d : Definitions)
    (source : String) {earlier later : List SubjectDefinition} {own : SubjectDefinition}
    (hd : d.subjects = earlier ++ own :: later) :
    let launched := (d.launch source (Engine.workshop ev lifetime os)).value
    ∃ xs report s ys, launched.1 = xs ++ (report, s) :: ys ∧ xs.length = earlier.length ∧ ys.length = later.length ∧
      s.id = Subject.idOfName own.name ∧ s.name = own.name ∧
      (∀ p, s.hasPermission p = true ↔
        p ∈ own.permissions ∨ ∃ e ∈ report.added, e.permission? = some p) ∧
      ((∀ other ∈ earlier ++ later, Subject.idOfName other.name ≠ s.id) →
        ∀ p, s.hasPermission p = true ↔
          p ∈ own.permissions ∨ ∃ e ∈ (launched.2.activeEffects s.id).members, e.permission? = some p) := by
  intro launched
  let g := Engine.workshop ev lifetime os
  obtain ⟨sh, hsh, hgranted, hbase⟩ := own.instantiate_sheet
  have hknows : (d.prepared source g).Knows Effect.Builtin :=
    Definitions.prepared_knows (Engine.workshop_standard ev lifetime os) (Engine.workshop_knows ev lifetime os) d source
  have hempty : (d.prepared source g).activeEffects own.instantiate.id = .empty :=
    (d.prepared_activeEffects source g _).trans (Engine.workshop_activeEffects ev lifetime os _)
  have hlaunched : launched = (Engine.updateEach (earlier.map SubjectDefinition.instantiate ++
      own.instantiate :: later.map SubjectDefinition.instantiate) (d.prepared source g)).value := by
    simp only [launched, Definitions.launch_value, hd, List.map_append, List.map_cons]
    rfl
  obtain ⟨xs, ⟨report, s⟩, ys, hxs, hlength, hlength', hid, hname, hpermissions, hadded⟩ :=
    Engine.updateEach_granted hknows (earlier.map SubjectDefinition.instantiate)
      (later.map SubjectDefinition.instantiate) hsh hgranted
  simp only [hbase] at hpermissions
  refine ⟨xs, report, s, ys, ?_, ?_, ?_, hid, hname, hpermissions, fun hothers p => ?_⟩
  · rw [hlaunched, hxs]
  · rw [hlength, List.length_map]
  · rw [hlength', List.length_map]
  · have hnot : ∀ t ∈ earlier.map SubjectDefinition.instantiate ++ later.map SubjectDefinition.instantiate,
        t.id ≠ own.instantiate.id := by
      intro t ht
      rw [← List.map_append] at ht
      obtain ⟨other, hother, rfl⟩ := List.mem_map.mp ht
      exact hid ▸ hothers other hother
    have hactive : report.added = (launched.2.activeEffects s.id).members := by
      rw [hlaunched, hid]
      exact hadded hempty hnot
    rw [hpermissions p, hactive]

/-- A badge lets fly. -/
def badge : Json :=
  .object [("effects", .array [.object [("args", .object [("permission", .text "fly")]),
      ("id", .text "give_permission")]]),
    ("id", .text "badge")]

/-- What is made of it, with an identifier and a context. -/
def badgeEffect (i : Uuid) (x : String) : Effect :=
  { giver i "fly" with args := .object [("permission", .text "fly")], context := x }

def badgeHolder (i : Uuid) (x : String) : Holder := ⟨"badge", [badgeEffect i x], []⟩

theorem badge_compile (context : String) (n : Nat) :
    ∃ i x, (Compile.holder .builtin badge context n).value.1 = some (badgeHolder i x) := by
  let given : Json := .object [("args", .object [("permission", .text "fly")]), ("id", .text "give_permission")]
  have hid : badge.requireText "id" = .ok "badge" := rfl
  have heffects : badge.subsections "effects" = [given] := rfl
  have hconditions : badge.subsections "conditions" = [] := rfl
  have hgates : given.subsections "conditions" = [] := rfl
  have hinside : (given.subsection "args").subsections "effects" = [] := rfl
  simp only [Compile.holder, hid, heffects, hconditions, hgates, hinside, Compile.effects, Compile.effect,
    Compile.conditions]
  exact ⟨Compile.blockId "effect" "holder:badge/effects[0]" given, _, rfl⟩

/-- Two subjects, the first of them with a badge. -/
def Definitions.pair (first second : String) : Definitions where
  chains := []
  holders := [badge]
  subjects := [⟨first, ["badge"], [], []⟩, ⟨second, [], [], []⟩]

theorem Definitions.pair_compile (first second : String) : ∃ i x,
    ((pair first second).compile "" (.workshop .arithmetic 0 [])).value.1.holders.get? "badge" =
      some (badgeHolder i x) := by
  obtain ⟨i, x, hbadge⟩ := badge_compile ("" ++ " " ++ Compile.item "holders" 0) 0
  refine ⟨i, x, ?_⟩
  have hholders : ((pair first second).compile "" (.workshop .arithmetic 0 [])).value.1.holders =
      .ofList [("badge", badgeHolder i x)] := by
    show Table.ofList ((((Compile.holder .builtin badge _ 0).value.1.toList ++ []).map fun h : Holder => (h.id, h))) = _
    rw [hbadge]
    rfl
  rw [hholders]
  exact Table.get?_insert .empty "badge" "badge" _

theorem Definitions.pair_offers (first second : String) : ∃ e : Effect, e.permission? = some "fly" ∧
    ((pair first second).prepared "" (.workshop .arithmetic 0 [])).Offers e (Subject.idOfName first) := by
  let d := pair first second
  let g := Engine.workshop .arithmetic 0 []
  obtain ⟨i, x, hbadge⟩ := pair_compile first second
  let p : Provision := (Provision.of (badgeHolder i x)).withPlaceholders (.ofPairs [("holder", "badge")])
  have hassigned : ((d.compile "" g).value.1.instantiate .empty d.subjects).value.2 =
      Table.empty.insert (Subject.idOfName first) [p] := by
    simp only [d, pair, CompiledDefinitions.instantiate, CompiledDefinitions.provisions]
    simp only [pair] at hbadge
    rw [hbadge]
    rfl
  obtain ⟨registries, nextNumber, hengine⟩ := d.compile_frame "" g
  have hask : ∀ s : Subject, s.id = Subject.idOfName first →
      (HolderCache.ask s (d.prepared "" g).cache.providers).value = [p] := by
    intro s hs
    simp only [prepared, hassigned, hengine]
    show ((Table.empty.insert (Subject.idOfName first) [p]).get? s.id).getD [] ++ [] = [p]
    rw [Table.get?_insert, if_pos hs.symm]
    rfl
  refine ⟨badgeEffect i x, rfl, ⟨fun s hs => ?_, fun r hr => ?_⟩⟩
  · rw [hask s hs]
    exact fun _ _ => rfl
  · simp only [prepared] at hr
    cases hr

namespace Definitions

/-- What comes of the two subjects in a new engine. -/
def pairLaunched (first second : String) : List (UpdateReport × Subject) × Engine :=
  ((pair first second).launch "" (.workshop .arithmetic 0 [])).value

theorem pairLaunched_eq (first second : String) : pairLaunched first second =
    (Engine.updateEach [SubjectDefinition.instantiate ⟨first, ["badge"], [], []⟩,
      SubjectDefinition.instantiate ⟨second, [], [], []⟩]
      ((pair first second).prepared "" (.workshop .arithmetic 0 []))).value := by
  rw [pairLaunched, launch_value]
  rfl

/-- Of two subjects with identifiers of their own the first has its badge in effect. -/
theorem pair_active {first second : String} (hne : Subject.idOfName second ≠ Subject.idOfName first) :
    ∃ e ∈ ((pairLaunched first second).2.activeEffects (Subject.idOfName first)).members,
      e.permission? = some "fly" := by
  obtain ⟨e, he, hoffers⟩ := pair_offers first second
  have hactive : (pairLaunched first second).2.activeEffects (Subject.idOfName first) = .ofList [e] := by
    rw [pairLaunched_eq]
    exact Engine.Offers.active_first hoffers (List.forall_mem_singleton.mpr hne)
  rw [hactive]
  exact ⟨e, List.mem_cons_self .., he⟩

end Definitions

/-- The second of two subjects of one name is not granted what the first has been granted, though it is active under
the identifier of both. -/
theorem namesake_is_granted_nothing : ∃ first second, (Definitions.pairLaunched "alex" "alex").1 = [first, second] ∧
    first.2.hasPermission "fly" = true ∧ second.2.hasPermission "fly" = false ∧
      ∃ e ∈ ((Definitions.pairLaunched "alex" "alex").2.activeEffects second.2.id).members,
        e.permission? = some "fly" := by
  -- An identifier is a digest of its name, which nothing here should compute.
  generalize "alex" = name
  let a : Subject := SubjectDefinition.instantiate ⟨name, ["badge"], [], []⟩
  let b : Subject := SubjectDefinition.instantiate ⟨name, [], [], []⟩
  obtain ⟨e, he, hoffers⟩ := Definitions.pair_offers name name
  have hknows := Definitions.prepared_knows (Engine.workshop_standard .arithmetic 0 [])
    (Engine.workshop_knows .arithmetic 0 []) (.pair name name) ""
  have hempty := ((Definitions.pair name name).prepared_activeEffects "" _ (Subject.idOfName name)).trans
    (Engine.workshop_activeEffects .arithmetic 0 [] _)
  have hlaunched := Definitions.pairLaunched_eq name name
  generalize (Definitions.pair name name).prepared "" (.workshop .arithmetic 0 []) = g
    at hoffers hknows hempty hlaunched
  simp only [Engine.updateEach_cons, Engine.updateEach_nil] at hlaunched
  rw [hlaunched]
  refine ⟨_, _, rfl, hoffers.granted hknows rfl rfl he hempty, ?_, e, ?_, he⟩
  · exact Engine.Offers.not_granted (hoffers.update a) (hknows.update a) rfl rfl List.not_mem_nil hoffers.active
  · have hid : (Engine.update b (Engine.update a g).value.2).value.1.2.id = b.id := by
      rw [Engine.update_subject (hknows.update a)]
      rfl
    have hactive : ((Engine.update b (Engine.update a g).value.2).value.2).activeEffects b.id = .ofList [e] :=
      Engine.Offers.active (hoffers.update a)
    simp only [a, b] at hid hactive
    simp only [hid, hactive]
    exact List.mem_cons_self ..

/-- A subject with a name of its own may fly with its badge. -/
theorem permissions_follow_definitions_steve : ∃ report s ys,
    (Definitions.pairLaunched "steve" "alex").1 = (report, s) :: ys ∧ s.name = "steve" ∧
      s.hasPermission "fly" = true := by
  have hnames : Subject.idOfName "alex" ≠ Subject.idOfName "steve" := by decide +kernel
  generalize "steve" = first, "alex" = second at hnames ⊢
  let own : SubjectDefinition := ⟨first, ["badge"], [], []⟩
  let other : SubjectDefinition := ⟨second, [], [], []⟩
  have hd : (Definitions.pair first second).subjects = [] ++ own :: [other] := rfl
  obtain ⟨xs, report, s, ys, hlaunched, hxs, -, hid, hname, -, hlaw⟩ :=
    permissions_follow_definitions .arithmetic 0 [] (.pair first second) "" hd
  obtain rfl := List.length_eq_zero_iff.mp hxs
  have halone : ∀ d ∈ [] ++ [other], Subject.idOfName d.name ≠ s.id := by
    rw [hid]
    exact List.forall_mem_singleton.mpr hnames
  have hgives := Definitions.pair_active hnames
  rw [Definitions.pairLaunched] at hgives ⊢
  have hfirst : s.id = Subject.idOfName first := hid
  rw [← hfirst] at hgives
  exact ⟨report, s, ys, hlaunched, hname, (hlaw halone "fly").mpr (.inr hgives)⟩

end Ability
