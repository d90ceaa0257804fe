import Ability.Proofs.Settings.Tree
import Ability.Settings.Basic

/-! Each setting by itself: where it stands, how it is read and what it is when nothing stands there. The settings are
read of a tree just if each of them is. -/

namespace Ability

open Settings

namespace Settings

/-- What is read of a value, and nothing where there is no value. -/
def Content.read {α : Type} (f : Value → Option α) : Content → Option α
  | .value v => f v
  | .table | .other => none

end Settings

inductive Setting
  | serviceName
  | environment
  | cacheLifetime
  | updateInterval
  | definitionsPath
  | logName
  | logLevel
  | logJson
deriving DecidableEq

namespace Setting

/-- What a setting is set to. -/
inductive Choice
  | text (s : String)
  | count (n : Nat)
  | flag (b : Bool)
deriving DecidableEq

def path : Setting → List String
  | serviceName => ["service_name"]
  | environment => ["environment"]
  | cacheLifetime => ["engine", "holder_cache_ttl_ms"]
  | updateInterval => ["engine", "update_interval_ms"]
  | definitionsPath => ["engine", "definitions_path"]
  | logName => ["observability", "service_name"]
  | logLevel => ["observability", "log_level"]
  | logJson => ["observability", "json_logs"]

theorem exists_path (f : Setting) : ∃ k p, f.path = k :: p := by cases f <;> exact ⟨_, _, rfl⟩

def read : Setting → Value → Option Choice
  | serviceName, v | environment, v | definitionsPath, v | logName, v | logLevel, v => some (.text v.toText)
  | cacheLifetime, v | updateInterval, v => v.toCount?.map .count
  | logJson, v => v.toFlag?.map .flag

def default? : Setting → Option Choice
  | serviceName | environment => none
  | cacheLifetime => some (.count ({} : EngineSettings).cacheLifetimeMs)
  | updateInterval => some (.count ({} : EngineSettings).updateIntervalMs)
  | definitionsPath => some (.text ({} : EngineSettings).definitionsPath)
  | logName => some (.text ({} : LogSettings).serviceName)
  | logLevel => some (.text ({} : LogSettings).level)
  | logJson => some (.flag ({} : LogSettings).json)

def of (s : Settings) : Setting → Choice
  | serviceName => .text s.serviceName
  | environment => .text s.environment
  | cacheLifetime => .count s.engine.cacheLifetimeMs
  | updateInterval => .count s.engine.updateIntervalMs
  | definitionsPath => .text s.engine.definitionsPath
  | logName => .text s.log.serviceName
  | logLevel => .text s.log.level
  | logJson => .flag s.log.json

namespace Choice

def toText : Choice → String
  | text s => s
  | _ => ""

def toCount : Choice → Nat
  | count n => n
  | _ => 0

def toFlag : Choice → Bool
  | flag b => b
  | _ => false

end Choice

/-- The settings with these choices. -/
def assemble (g : Setting → Choice) : Settings where
  serviceName := (g serviceName).toText
  environment := (g environment).toText
  engine := ⟨(g cacheLifetime).toCount, (g updateInterval).toCount, (g definitionsPath).toText⟩
  log := ⟨(g logName).toText, (g logLevel).toText, (g logJson).toFlag⟩

theorem of_assemble (g : Setting → Choice) (f : Setting) : of (assemble g) f = of (assemble fun _ => g f) f := by
  cases f <;> rfl

theorem of_injective : Function.Injective of := by
  rintro ⟨n, m, ⟨ttl, interval, file⟩, ⟨log, level, json⟩⟩ ⟨n', m', ⟨ttl', interval', file'⟩, ⟨log', level', json'⟩⟩ h
  obtain rfl := Choice.text.inj (congrFun h serviceName)
  obtain rfl := Choice.text.inj (congrFun h environment)
  obtain rfl := Choice.count.inj (congrFun h cacheLifetime)
  obtain rfl := Choice.count.inj (congrFun h updateInterval)
  obtain rfl := Choice.text.inj (congrFun h definitionsPath)
  obtain rfl := Choice.text.inj (congrFun h logName)
  obtain rfl := Choice.text.inj (congrFun h logLevel)
  obtain rfl := Choice.flag.inj (congrFun h logJson)
  rfl

/-- What is chosen where this stands at the path of the setting, or nothing does. -/
def chosen? (f : Setting) : Option Content → Option Choice
  | some c => c.read f.read
  | none => f.default?

end Setting

namespace Settings

/-- The settings are what stands at their paths. Logs without a service name take that of the service. -/
def Follows (s : Settings) (standing : List String → Option Content) : Prop :=
  ∀ f : Setting, ∃ x, f.chosen? (standing f.path) = some x ∧
    Setting.of s f = if f = .logName ∧ x = .text "" then .text s.serviceName else x

theorem orDefault_child? {α : Type} {f : Tree → Option α} {g : Value → Option α}
    (hf : ∀ t : Tree, f t = t.content.read g) (t : Tree) (k : String) (d : α) :
    orDefault (t.child? k) f d = orDefault (t.reading? [k]) (Content.read g) d := by
  rw [Tree.reading?]
  cases t.child? k with
  | none => rfl
  | some u => exact hf u

theorem toText?_eq (t : Tree) : t.toText? = t.content.read (some ∘ Value.toText) := by cases t <;> rfl

theorem toCount?_eq (t : Tree) : t.toCount? = t.content.read Value.toCount? := by cases t <;> rfl

theorem toFlag?_eq (t : Tree) : t.toFlag? = t.content.read Value.toFlag? := by cases t <;> rfl

end Settings

namespace Setting

variable {α : Type} {f : Setting} {c : Option Content} {mk : α → Choice} {g : Value → Option α}

theorem of_assemble_chosen? {x : Choice} (h : f.chosen? c = some x) : of (assemble fun _ => x) f = x := by
  have hcount : ∀ {v : Value}, v.toCount?.map Choice.count = some x → .count x.toCount = x := by
    intro v hv
    obtain ⟨n, -, rfl⟩ := Option.map_eq_some_iff.1 hv
    rfl
  have hflag : ∀ {v : Value}, v.toFlag?.map Choice.flag = some x → .flag x.toFlag = x := by
    intro v hv
    obtain ⟨b, -, rfl⟩ := Option.map_eq_some_iff.1 hv
    rfl
  match c with
  | some (.value v) =>
    cases f
    case cacheLifetime | updateInterval => exact hcount h
    case logJson => exact hflag h
    all_goals
      obtain rfl := Option.some.inj h
      rfl
  | some .table | some .other => cases h
  | none =>
    cases f
    case serviceName | environment => cases h
    all_goals
      obtain rfl := Option.some.inj h
      rfl

theorem content_read_eq (hread : ∀ v, f.read v = (g v).map mk) (c : Content) :
    c.read f.read = (c.read g).map mk := by
  cases c with
  | value v => exact hread v
  | _ => rfl

theorem chosen?_eq_orDefault (hmk : Function.Injective mk) (hread : ∀ v, f.read v = (g v).map mk) {d : α}
    (hd : f.default? = some (mk d)) {x : α} :
    f.chosen? c = some (mk x) ↔ orDefault c (Content.read g) d = some x := by
  cases c with
  | none => simp [chosen?, orDefault, hd, hmk.eq_iff]
  | some c => simp [chosen?, orDefault, content_read_eq hread, hmk.eq_iff]

theorem chosen?_eq_bind (hmk : Function.Injective mk) (hread : ∀ v, f.read v = (g v).map mk)
    (hd : f.default? = none) {x : α} : f.chosen? c = some (mk x) ↔ c.bind (Content.read g) = some x := by
  cases c with
  | none => simp [chosen?, hd]
  | some c => simp [chosen?, content_read_eq hread, hmk.eq_iff]

end Setting

namespace Settings

open Setting

variable {t : Tree}

theorem text_injective : Function.Injective Choice.text := fun _ _ => Choice.text.inj

theorem count_injective : Function.Injective Choice.count := fun _ _ => Choice.count.inj

theorem flag_injective : Function.Injective Choice.flag := fun _ _ => Choice.flag.inj

/-- Under a key where nothing but a table can be, what is missing is read as an empty one. -/
theorem orDefault_table {α : Type} {f : Tree → Option α} {d : α} (hempty : f (.table []) = some d) {key : String}
    (htable : ∀ c, t.reading? [key] = some c → c = .table) :
    ∃ es, orDefault (t.child? key) f d = f (.table es) ∧
      ∀ k, t.reading? [key, k] = (Tree.table es).reading? [k] := by
  have hbelow : ∀ k, t.reading? [key, k] = (t.child? key).bind (Tree.reading? [k]) := fun k => rfl
  cases hchild : t.child? key with
  | none => exact ⟨[], hempty.symm, fun k => by rw [hbelow, hchild]; rfl⟩
  | some u =>
    have hu : u.content = .table := htable _ (by rw [Tree.reading?, hchild]; rfl)
    cases u with
    | table es => exact ⟨es, rfl, fun k => by rw [hbelow, hchild]; rfl⟩
    | _ => cases hu

/-- A record of three members is read just if each of them is. -/
theorem record_eq_some_iff {α β γ δ : Type} {x : Option α} {y : Option β} {z : Option γ} {mk : α → β → γ → δ}
    {first : δ → α} {second : δ → β} {third : δ → γ}
    (hmk : ∀ a b c d, mk a b c = d ↔ a = first d ∧ b = second d ∧ c = third d) {d : δ} :
    (do return mk (← x) (← y) (← z)) = some d ↔ x = some (first d) ∧ y = some (second d) ∧ z = some (third d) := by
  cases x <;> cases y <;> cases z <;> simp [hmk]

theorem engine_eq_some_iff (htable : ∀ c, t.reading? ["engine"] = some c → c = .table) {e : EngineSettings} :
    orDefault (t.child? "engine") engineOfTree? {} = some e ↔
      cacheLifetime.chosen? (t.reading? cacheLifetime.path) = some (.count e.cacheLifetimeMs) ∧
        updateInterval.chosen? (t.reading? updateInterval.path) = some (.count e.updateIntervalMs) ∧
        definitionsPath.chosen? (t.reading? definitionsPath.path) = some (.text e.definitionsPath) := by
  have hempty : engineOfTree? (.table []) = some {} := rfl
  obtain ⟨es, hread, hbelow⟩ := orDefault_table hempty htable
  rw [hread, chosen?_eq_orDefault count_injective (g := Value.toCount?) (fun _ => rfl) rfl,
    chosen?_eq_orDefault count_injective (g := Value.toCount?) (fun _ => rfl) rfl,
    chosen?_eq_orDefault text_injective (g := some ∘ Value.toText) (fun _ => rfl) rfl, path, path, path, hbelow, hbelow,
    hbelow, ← orDefault_child? toCount?_eq, ← orDefault_child? toCount?_eq, ← orDefault_child? toText?_eq]
  exact record_eq_some_iff fun a b c e => EngineSettings.mk.injEq .. ▸ Iff.rfl

theorem log_eq_some_iff (htable : ∀ c, t.reading? ["observability"] = some c → c = .table) {l : LogSettings} :
    orDefault (t.child? "observability") logOfTree? {} = some l ↔
      logName.chosen? (t.reading? logName.path) = some (.text l.serviceName) ∧
        logLevel.chosen? (t.reading? logLevel.path) = some (.text l.level) ∧
        logJson.chosen? (t.reading? logJson.path) = some (.flag l.json) := by
  have hempty : logOfTree? (.table []) = some {} := rfl
  obtain ⟨es, hread, hbelow⟩ := orDefault_table hempty htable
  rw [hread, chosen?_eq_orDefault text_injective (g := some ∘ Value.toText) (fun _ => rfl) rfl,
    chosen?_eq_orDefault text_injective (g := some ∘ Value.toText) (fun _ => rfl) rfl,
    chosen?_eq_orDefault flag_injective (g := Value.toFlag?) (fun _ => rfl) rfl, path, path, path, hbelow, hbelow,
    hbelow, ← orDefault_child? toText?_eq, ← orDefault_child? toText?_eq, ← orDefault_child? toFlag?_eq]
  exact record_eq_some_iff fun a b c l => LogSettings.mk.injEq .. ▸ Iff.rfl

theorem name_eq_some_iff {f : Setting} (hread : ∀ v, f.read v = ((some ∘ Value.toText) v).map Choice.text)
    (hd : f.default? = none) (k : String) {x : String} :
    (t.child? k).bind Tree.toText? = some x ↔ f.chosen? (t.reading? [k]) = some (.text x) := by
  rw [chosen?_eq_bind text_injective hread hd, Tree.reading?]
  cases t.child? k with
  | none => rfl
  | some u =>
    rw [Option.bind_some, toText?_eq]
    rfl

theorem ofTree?_eq_some_iff (hengine : ∀ c, t.reading? ["engine"] = some c → c = .table)
    (hlog : ∀ c, t.reading? ["observability"] = some c → c = .table) {s : Settings} :
    ofTree? t = some s ↔ ∀ f : Setting, f.chosen? (t.reading? f.path) = some (Setting.of s f) := by
  have hparts : ofTree? t = some s ↔ (t.child? "service_name").bind Tree.toText? = some s.serviceName ∧
      (t.child? "environment").bind Tree.toText? = some s.environment ∧
      orDefault (t.child? "engine") engineOfTree? {} = some s.engine ∧
      orDefault (t.child? "observability") logOfTree? {} = some s.log := by
    cases s
    unfold ofTree?
    cases (t.child? "service_name").bind Tree.toText? <;> cases (t.child? "environment").bind Tree.toText? <;>
      cases orDefault (t.child? "engine") engineOfTree? {} <;>
      cases orDefault (t.child? "observability") logOfTree? {} <;> simp
  rw [hparts, name_eq_some_iff (f := .serviceName) (fun _ => rfl) rfl,
    name_eq_some_iff (f := .environment) (fun _ => rfl) rfl, engine_eq_some_iff hengine, log_eq_some_iff hlog]
  constructor
  · rintro ⟨h₁, h₂, ⟨h₃, h₄, h₅⟩, h₆, h₇, h₈⟩ f
    cases f <;> assumption
  · exact fun h => ⟨h .serviceName, h .environment, ⟨h .cacheLifetime, h .updateInterval, h .definitionsPath⟩,
      h .logName, h .logLevel, h .logJson⟩

/-- The settings after the name of the service was given to logs without one. -/
def named (s : Settings) : Settings := { s with log := s.log.withServiceName s.serviceName }

theorem of_named (s : Settings) (f : Setting) : Setting.of s.named f =
    if f = .logName ∧ Setting.of s f = .text "" then .text s.serviceName else Setting.of s f := by
  by_cases hempty : s.log.serviceName = ""
  · cases f <;> simp [named, LogSettings.withServiceName, Setting.of, hempty]
  · cases f <;> simp [named, LogSettings.withServiceName, Setting.of, hempty]

theorem follows_iff {standing : List String → Option Content} {s : Settings} :
    (∃ own : Settings, (∀ f : Setting, f.chosen? (standing f.path) = some (Setting.of own f)) ∧ own.named = s) ↔
      s.Follows standing := by
  constructor
  · rintro ⟨own, hown, rfl⟩ f
    exact ⟨_, hown f, of_named own f⟩
  · intro h
    obtain ⟨x, hx, hname⟩ := h logName
    obtain ⟨name, rfl⟩ : ∃ name, x = .text name := ⟨_, (of_assemble_chosen? hx).symm⟩
    let own : Settings := { s with log := { s.log with serviceName := name } }
    have hother : ∀ f : Setting, f ≠ .logName → Setting.of own f = Setting.of s f := by
      intro f hf
      cases f <;> first | rfl | exact absurd rfl hf
    refine ⟨own, fun f => ?_, ?_⟩
    · obtain ⟨y, hy, hf⟩ := h f
      by_cases hlog : f = .logName
      · subst hlog
        exact hx
      · rw [hy, hother f hlog, hf, if_neg fun h => hlog h.1]
    · refine Setting.of_injective (funext fun f => (of_named own f).trans ?_)
      by_cases hlog : f = .logName
      · subst hlog
        exact hname.symm
      · rw [if_neg fun h => hlog h.1, hother f hlog]

end Settings

end Ability
