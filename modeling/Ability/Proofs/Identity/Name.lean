import Ability.Builtin.Registries
import Ability.Proofs.Identity.Content
import Ability.Proofs.Json.Printer

/-! The names that identifiers are derived from. The parts of a name stand between zero characters. The
kind holds none and neither does the configuration, where it would be escaped; so the first and the last of
them are found again, whatever the path holds. -/

namespace Ability

namespace Compile

theorem blockName_toList (kind path : String) (config : Json) :
    (blockName kind path config).toList =
      kind.toList ++ '\x00' :: (path.toList ++ '\x00' :: config.write) := by
  have hzero : "\x00".toList = ['\x00'] := rfl
  simp only [blockName, Json.compact, String.toList_append, String.toList_ofList, hzero,
    List.append_assoc, List.cons_append, List.nil_append]

theorem zero_notMem_write (config : Json) : '\x00' ∉ config.write := by
  intro hmem
  have hprintable := Json.printable_write config '\x00' hmem
  exact absurd hprintable (by decide)

theorem blockName_injective {kind kind' path path' : String} {config config' : Json}
    (hk : '\x00' ∉ kind.toList) (hk' : '\x00' ∉ kind'.toList)
    (h : blockName kind path config = blockName kind' path' config') :
    kind = kind' ∧ path = path' ∧ config = config' := by
  have hlist := congrArg String.toList h
  rw [blockName_toList, blockName_toList] at hlist
  have hne : ∀ {cs : List Char}, '\x00' ∉ cs → ∀ c ∈ cs, c ≠ '\x00' := by
    rintro cs hcs c hc rfl
    exact hcs hc
  have hstop : ∀ {cs : List Char}, ∀ c ∈ ('\x00' :: cs).head?, ¬ c ≠ '\x00' := by
    intro cs c hc hzero
    exact hzero (Option.some.inj hc).symm
  obtain ⟨hkind, hrest⟩ := append_injective_of_stop (hne hk) (hne hk') hstop hstop hlist
  -- read from its end, the rest begins with the configuration
  have hreverse := congrArg List.reverse (List.cons.inj hrest).2
  simp only [List.reverse_append, List.reverse_cons, List.append_assoc, List.singleton_append] at hreverse
  obtain ⟨hconfig, hpath⟩ := append_injective_of_stop
    (hne (by simpa using zero_notMem_write config)) (hne (by simpa using zero_notMem_write config'))
    hstop hstop hreverse
  refine ⟨String.toList_inj.mp hkind, ?_, ?_⟩
  · exact String.toList_inj.mp (List.reverse_injective (List.cons.inj hpath).2)
  · exact Json.write_injective (List.reverse_injective hconfig)

/-- Whatever the compilation makes, `P` holds of it. -/
def Gives {α : Type} (P : α → Prop) (x : ExceptT EngineError Compile α) : Prop :=
  ∀ n a, (x.run n).value.1 = .ok a → P a

namespace Gives

variable {α β : Type} {P : α → Prop} {Q : β → Prop}

theorem pure {a : α} (h : P a) : Gives P (Pure.pure a) := by
  intro n b hb
  obtain rfl : a = b := Except.ok.inj hb
  exact h

theorem andThen {x : ExceptT EngineError Compile α} {k : α → ExceptT EngineError Compile β} (h : Gives P x)
    (hk : ∀ a, P a → Gives Q (k a)) : Gives Q (x >>= k) := by
  intro n b hb
  have hbind : ((x >>= k).run n).value.1 =
      (ExceptT.bindCont k (x.run n).value.1 (x.run n).value.2).value.1 := rfl
  rw [hbind] at hb
  cases hx : (x.run n).value.1 with
  | ok a =>
    rw [hx] at hb
    exact hk a (h n a hx) _ b hb
  | error e =>
    rw [hx] at hb
    cases hb

theorem lift (x : Except EngineError α) : Gives (fun a => x = .ok a) (Compile.lift x) := fun _ _ ha => ha

theorem bind (x : ExceptT EngineError Compile α) {k : α → ExceptT EngineError Compile β}
    (hk : ∀ a, Gives Q (k a)) : Gives Q (x >>= k) :=
  andThen (P := fun _ => True) (fun _ _ _ => trivial) fun a _ => hk a

theorem bind_run {x : Compile α} {k : α → ExceptT EngineError Compile β}
    (hk : ∀ n, Gives Q (k (x n).value.1)) : Gives Q (ExceptT.lift x >>= k) := by
  intro n b hb
  exact hk n _ b hb

theorem report {x : ExceptT EngineError Compile α} (h : Gives P x) {message c : String} {n : Nat} {a : α}
    (ha : (report message c x n).value.1 = some a) : P a := by
  cases hx : (x.run n).value.1 with
  | ok b =>
    simp only [Compile.report, Bind.bind, StateT.bind, hx] at ha
    obtain rfl : b = a := Option.some.inj ha
    exact h n b hx
  | error e =>
    simp only [Compile.report, Bind.bind, StateT.bind, hx] at ha
    cases ha

end Gives

theorem condition_id {r : Registries} {config : Json} {c path : String} {n : Nat} {x : Condition}
    (h : (condition r config c path n).value.1 = some x) : x.id = blockId "condition" path config := by
  rw [condition] at h
  refine Gives.report (P := fun x => x.id = blockId "condition" path config) ?_ h
  refine .bind _ fun id => .bind _ fun kind => .bind _ fun datum => .bind _ fun fallbacks => ?_
  exact .pure rfl

theorem effect_id {r : Registries} {config : Json} {c path : String} {n : Nat} {x : Effect}
    (h : (effect r config c path n).value.1 = some x) : x.id = blockId "effect" path config := by
  rw [effect] at h
  refine Gives.report (P := fun x => x.id = blockId "effect" path config) ?_ h
  refine .bind _ fun id => .bind _ fun kind => .bind _ fun response => .bind _ fun arguments => ?_
  exact .bind _ fun conditions => .pure rfl

end Compile

/-- A condition that is made of a configuration under a path, wherever that was written and whatever was
compiled before. -/
def Condition.MadeOf (r : Registries) (path : String) (config : Json) (x : Condition) : Prop :=
  ∃ context n, (Compile.condition r config context path n).value.1 = some x

def Effect.MadeOf (r : Registries) (path : String) (config : Json) (x : Effect) : Prop :=
  ∃ context n, (Compile.effect r config context path n).value.1 = some x

/-- Names are the same only for one kind, path and configuration. Blocks take their identifiers from their
names, and blocks whose names are the same have the same content: they differ in contexts and in the numbers of
executors and inline chains only. -/
theorem names_identify_blocks {kind kind' path path' : String} {config config' : Json}
    (hk : '\x00' ∉ kind.toList) (hk' : '\x00' ∉ kind'.toList)
    (h : Compile.blockName kind path config = Compile.blockName kind' path' config') (r : Registries) :
    kind = kind' ∧ path = path' ∧ config = config' ∧
    (∀ x y : Condition, x.MadeOf r path config → y.MadeOf r path' config' →
      x.id = Compile.blockId "condition" path config ∧ x.content = y.content) ∧
    ∀ x y : Effect, x.MadeOf r path config → y.MadeOf r path' config' →
      x.id = Compile.blockId "effect" path config ∧ x.content = y.content := by
  obtain ⟨rfl, rfl, rfl⟩ := Compile.blockName_injective hk hk' h
  refine ⟨rfl, rfl, rfl, ?_, ?_⟩
  · rintro x y ⟨c, n, hx⟩ ⟨d, m, hy⟩
    have halike := Compile.condition_alike r config c d path n m
    rw [hx, hy] at halike
    exact ⟨Compile.condition_id hx, Option.some.inj halike⟩
  · rintro x y ⟨c, n, hx⟩ ⟨d, m, hy⟩
    have halike := Compile.effect_alike r config c d path n m
    rw [hx, hy] at halike
    exact ⟨Compile.effect_id hx, Option.some.inj halike⟩

/-- An effect with a chain written inside it. -/
def inlineRun : Json :=
  .object [("args", .object [("effects", .array [.object
    [("args", .object [("message", .text "hi")]), ("id", .text "log")]])]), ("id", .text "run_chain")]

theorem inlineRun_madeOf (path context : String) (n : Nat) :
    ∃ x, (Compile.effect .builtin inlineRun context path n).value.1 = some x ∧ x.context = context := by
  have hcontext : ((Compile.effect .builtin inlineRun context path n).value.1).map (·.context) =
      some context := by
    have hinside : (inlineRun.subsection "args").subsections "effects" =
        [.object [("args", .object [("message", .text "hi")]), ("id", .text "log")]] := rfl
    have hconditions : inlineRun.subsections "conditions" = [] := rfl
    rw [Compile.effect]
    simp only [hinside, hconditions]
    rw [Compile.effects, Compile.effects, Compile.effect, Compile.conditions]
    rfl
  exact Option.map_eq_some_iff.mp hcontext

/-- Written in two places of one path, which holds a zero character itself, the effect is one block. -/
theorem names_identify_blocks_inline :
    let path := "holder:a\x00b/effects[0]"
    '\x00' ∉ "effect".toList ∧
      ∃ x y : Effect, x.MadeOf .builtin path inlineRun ∧ y.MadeOf .builtin path inlineRun ∧
        x.context = "one" ∧ y.context = "two" ∧ x.id = y.id ∧ x.content = y.content := by
  intro path
  have hkind : '\x00' ∉ "effect".toList := by decide
  obtain ⟨x, hx, hxc⟩ := inlineRun_madeOf path "one" 0
  obtain ⟨y, hy, hyc⟩ := inlineRun_madeOf path "two" 5
  obtain ⟨-, -, -, -, heffects⟩ :=
    names_identify_blocks hkind hkind (rfl : Compile.blockName "effect" path inlineRun = _) .builtin
  obtain ⟨hid, hcontent⟩ := heffects x y ⟨"one", 0, hx⟩ ⟨"two", 5, hy⟩
  have hid' := (heffects y x ⟨"two", 5, hy⟩ ⟨"one", 0, hx⟩).1
  exact ⟨hkind, x, y, ⟨"one", 0, hx⟩, ⟨"two", 5, hy⟩, hxc, hyc, hid.trans hid'.symm, hcontent⟩

end Ability
