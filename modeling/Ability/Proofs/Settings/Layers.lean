import Ability.Proofs.Settings.Choices
import Ability.Proofs.Settings.Files
import Mathlib

/-! What a service is set to. Each setting is read by itself: from the highest layer that has something at its path,
or it has its default. -/

namespace Ability

open Settings

namespace Settings

open Setting

theorem ofText_serviceName : Address.ofText "service_name" = [.key "service_name"] := rfl

theorem ofText_environment : Address.ofText "environment" = [.key "environment"] := rfl

theorem startLayer_agrees (service environment : String) : (startLayer service environment).Agrees (· = []) := by
  intro e he
  simp only [startLayer, List.mem_cons, List.not_mem_nil, or_false] at he
  rcases he with rfl | rfl
  · rw [ofText_serviceName]
    exact ⟨rfl, by simp [Tree.Agrees, Address.Agrees, Plan.under]⟩
  · rw [ofText_environment]
    exact ⟨rfl, by simp [Tree.Agrees, Address.Agrees, Plan.under]⟩

theorem startLayer_given? (service environment : String) {key : String} (hservice : "service_name" ≠ key)
    (henvironment : "environment" ≠ key) (p : List String) :
    (startLayer service environment).given? (key :: p) = none := by
  simp only [startLayer, Layer.given?, ofText_serviceName, ofText_environment, Address.given?, if_neg hservice,
    if_neg henvironment, Option.none_or]

/-- Below the root, the tree of the layers over that of the names holds what the highest of them gives. -/
theorem reading?_stack {plan : Plan} (hroot : plan []) {layers : List Layer} (hlayers : ∀ l ∈ layers, l.Agrees plan)
    (service environment : String) (k : String) (p : List String) :
    (stack (startLayer service environment :: layers)).reading? (k :: p) =
      winner (layers.reverse ++ [startLayer service environment]) (k :: p) := by
  have hempty : Tree.empty.Within (· = []) := by
    intro p k r hp
    cases p <;> rfl
  obtain ⟨hwithin, hreading⟩ := Layer.apply_spec (startLayer_agrees service environment) hempty
  have hplan : ((startLayer service environment).apply .empty).Within plan := hwithin.mono fun p hp => hp ▸ hroot
  have hnothing : Tree.empty.reading? (k :: p) = none := rfl
  have hnone : winner [] (k :: p) = none := rfl
  rw [stack, List.foldl_cons, foldl_apply_spec hlayers hplan, hreading, hnothing, Option.or_none, winner_append,
    winner_cons, hnone, Option.or_none]

theorem Follows.congr {s : Settings} {standing standing' : List String → Option Content} (hs : s.Follows standing)
    (h : ∀ f : Setting, standing f.path = standing' f.path) : s.Follows standing' :=
  fun f => h f ▸ hs f

/-- The tree of layers that agree is read as settings if what is highest at each path can be. -/
theorem ofTree?_stack {plan : Plan} (hroot : plan []) (hengine : plan ["engine"]) (hlog : plan ["observability"])
    {layers : List Layer} (hlayers : ∀ l ∈ layers, l.Agrees plan) (service environment : String) {s : Settings} :
    (ofTree? (stack (startLayer service environment :: layers))).map named = some s ↔
      s.Follows (winner (layers.reverse ++ [startLayer service environment])) := by
  have hreading := reading?_stack hroot hlayers service environment
  have htable : ∀ key, plan [key] → (startLayer service environment).given? [key] = none → ∀ c,
      (stack (startLayer service environment :: layers)).reading? [key] = some c → c = .table := by
    intro key hkey hstart c hc
    have hnone : winner [] [key] = none := rfl
    rw [hreading, winner_append, winner_cons, hstart, hnone, Option.or_none, Option.or_none] at hc
    obtain ⟨l, hl, hgiven⟩ := List.exists_of_findSome?_eq_some hc
    exact ((hlayers l (List.mem_reverse.1 hl)).given?_table hgiven).2 hkey
  have hpaths : ∀ f : Setting, (stack (startLayer service environment :: layers)).reading? f.path =
      winner (layers.reverse ++ [startLayer service environment]) f.path := by
    intro f
    obtain ⟨k, p, hpath⟩ := f.exists_path
    rw [hpath, hreading]
  rw [Option.map_eq_some_iff]
  have hnames : ∀ key, "service_name" ≠ key → "environment" ≠ key →
      (startLayer service environment).given? [key] = none :=
    fun _ hservice henvironment => startLayer_given? service environment hservice henvironment []
  simp only [ofTree?_eq_some_iff (htable _ hengine (hnames _ (by decide) (by decide)))
    (htable _ hlog (hnames _ (by decide) (by decide))), hpaths]
  exact follows_iff

end Settings

theorem winner_congr {layers layers' : List Layer} {p : List String}
    (h : List.Forall₂ (fun l l' => l.given? p = l'.given? p) layers layers') : winner layers p = winner layers' p := by
  induction h with
  | nil => rfl
  | cons hl _ ih => rw [winner_cons, winner_cons, hl, ih]

/-- What a service is started with. -/
structure Setup where
  service : String
  environment : String
  files : Files
  vars : Environment

namespace Setup

variable (c : Setup)

def load? : Option Settings := Settings.load? c.service c.environment c.files c.vars

/-- The names of the settings files. -/
def names : List String := ["default", c.environment, c.service]

/-- The layers of the environment variables and of the files, the highest first, and the names at the bottom. -/
def layers? : Option (List Layer) := do
  let base ← c.files.own? "default"
  let ofEnvironment ← c.files.own? c.environment
  let ofService ← c.files.own? c.service
  return [c.vars.layer, ofService, ofEnvironment, base, startLayer c.service c.environment]

/-- The files and the variables take the same keys for tables, `engine` and `observability` among them. -/
structure Fits (plan : Plan) : Prop where
  root : plan []
  engine : plan ["engine"]
  log : plan ["observability"]
  only : c.files.Only c.names
  files : ∀ name ∈ c.names, ∀ l, c.files.own? name = some l → l.Agrees plan
  vars : c.vars.layer.Agrees plan

variable {c} {plan : Plan}

/-- A file that is missing has an empty layer of its own; what is taken in its place is another file of the setup. -/
theorem layer?_eq_some (h : c.Fits plan) {name : String} (hname : name ∈ c.names) {l ofEnvironment ofService : Layer}
    (hl : c.files.own? name = some l) (henvironment : c.files.own? c.environment = some ofEnvironment)
    (hservice : c.files.own? c.service = some ofService) :
    ∃ l', c.files.layer? name = some l' ∧ l'.Agrees plan ∧
      (l' = l ∨ l = [] ∧ (l' = ofEnvironment ∨ l' = ofService)) := by
  rcases Files.layer?_eq_own? h.only name with hsame | ⟨hnone, other, hother, hcopy⟩
  · exact ⟨l, hsame.trans hl, h.files name hname l hl, .inl rfl⟩
  · obtain rfl := Option.some.inj (hl.symm.trans hnone)
    have hagrees := fun l hl => h.files other (List.mem_cons_of_mem _ hother) l hl
    simp only [List.mem_cons, List.not_mem_nil, or_false] at hother
    rcases hother with rfl | rfl
    · exact ⟨_, hcopy.trans henvironment, hagrees _ henvironment, .inr ⟨rfl, .inl rfl⟩⟩
    · exact ⟨_, hcopy.trans hservice, hagrees _ hservice, .inr ⟨rfl, .inr rfl⟩⟩

theorem layer?_eq_none (h : c.Fits plan) {name : String} (hname : c.files.own? name = none) :
    c.files.layer? name = none := by
  rcases Files.layer?_eq_own? h.only name with hsame | ⟨hsome, -⟩
  · exact hsame.trans hname
  · cases hname.symm.trans hsome

/-- Of three, the first that is there counts. What stands in for one that is missing changes nothing of that if it is
the first or the second of them. -/
theorem or_standIns {α : Type} {x y z x' y' z' : Option α} (hx : x' = x ∨ x = none ∧ (x' = y ∨ x' = x))
    (hy : y' = y ∨ y = none ∧ (y' = y ∨ y' = x)) (hz : z' = z ∨ z = none ∧ (z' = y ∨ z' = x)) (w : Option α) :
    x'.or (y'.or (z'.or w)) = x.or (y.or (z.or w)) := by
  have hthird : x.or (y.or (z'.or w)) = x.or (y.or (z.or w)) := by
    rcases hz with rfl | ⟨rfl, rfl | rfl⟩
    · rfl
    · cases x <;> cases z' <;> rfl
    · cases z' <;> rfl
  rw [← hthird]
  cases x with
  | some a =>
    obtain rfl := hx.resolve_right nofun
    rfl
  | none =>
    have hy : y' = y := by
      rcases hy with h | ⟨h, h' | h'⟩
      · exact h
      · exact h'
      · exact h'.trans h.symm
    subst hy
    rcases hx with rfl | ⟨-, rfl | rfl⟩
    · rfl
    · cases x' <;> rfl
    · rfl

/-- Where they stand in for others, the files of the environment and of the service have had their say already. -/
theorem winner_standIns {base base' ofEnvironment ofEnvironment' ofService ofService' : Layer} (above below : Layer)
    (hservice : ofService' = ofService ∨ ofService = [] ∧ (ofService' = ofEnvironment ∨ ofService' = ofService))
    (henvironment : ofEnvironment' = ofEnvironment ∨
      ofEnvironment = [] ∧ (ofEnvironment' = ofEnvironment ∨ ofEnvironment' = ofService))
    (hbase : base' = base ∨ base = [] ∧ (base' = ofEnvironment ∨ base' = ofService)) (p : List String) :
    winner [above, ofService', ofEnvironment', base', below] p =
      winner [above, ofService, ofEnvironment, base, below] p := by
  have hgiven : ∀ {l l' : Layer}, (l' = l ∨ l = [] ∧ (l' = ofEnvironment ∨ l' = ofService)) →
      l'.given? p = l.given? p ∨ l.given? p = none ∧
        (l'.given? p = ofEnvironment.given? p ∨ l'.given? p = ofService.given? p) := by
    rintro l l' (rfl | ⟨rfl, rfl | rfl⟩)
    · exact .inl rfl
    · exact .inr ⟨rfl, .inl rfl⟩
    · exact .inr ⟨rfl, .inr rfl⟩
  simp only [winner_cons, or_standIns (hgiven hservice) (hgiven henvironment) (hgiven hbase)]

theorem load?_eq_some_iff (h : c.Fits plan) {s : Settings} :
    c.load? = some s ↔ ∃ layers, c.layers? = some layers ∧ s.Follows (winner layers) := by
  cases hbase : c.files.own? "default" with
  | none => simp [load?, Settings.load?, layers?, hbase, layer?_eq_none h hbase]
  | some base =>
    cases henvironment : c.files.own? c.environment with
    | none => simp [load?, Settings.load?, layers?, hbase, henvironment, layer?_eq_none h henvironment]
    | some ofEnvironment =>
      cases hservice : c.files.own? c.service with
      | none => simp [load?, Settings.load?, layers?, hbase, henvironment, hservice, layer?_eq_none h hservice]
      | some ofService =>
        -- All files can be read. What is loaded may be of stand-ins for those that are missing.
        obtain ⟨base', hbase', hbaseAgrees, hcopy⟩ := layer?_eq_some h (by simp [names]) hbase henvironment hservice
        obtain ⟨ofEnvironment', henvironment', henvironmentAgrees, hcopy'⟩ :=
          layer?_eq_some h (by simp [names]) henvironment henvironment hservice
        obtain ⟨ofService', hservice', hserviceAgrees, hcopy''⟩ :=
          layer?_eq_some h (by simp [names]) hservice henvironment hservice
        have hlayers : c.layers? = some [c.vars.layer, ofService, ofEnvironment, base,
            startLayer c.service c.environment] := by simp [layers?, hbase, henvironment, hservice]
        have hagrees : ∀ l ∈ [base', ofEnvironment', ofService', c.vars.layer], l.Agrees plan := by
          simp [hbaseAgrees, henvironmentAgrees, hserviceAgrees, h.vars]
        have hload : c.load? = (ofTree? (stack (startLayer c.service c.environment ::
            [base', ofEnvironment', ofService', c.vars.layer]))).map named := by
          rw [load?, Settings.load?, hbase', henvironment', hservice', Option.map_eq_bind]
          rfl
        have hwinner := winner_standIns c.vars.layer (startLayer c.service c.environment) hcopy'' hcopy' hcopy
        rw [hload, ofTree?_stack h.root h.engine h.log hagrees, hlayers]
        simp only [Option.some.injEq, exists_eq_left']
        exact ⟨fun hs => hs.congr fun f => hwinner f.path, fun hs => hs.congr fun f => (hwinner f.path).symm⟩

/-- The settings of a service are those of its layers, each by itself. -/
structure Layered (c : Setup) : Prop where
  loads (s : Settings) : c.load? = some s ↔ ∃ layers, c.layers? = some layers ∧ s.Follows (winner layers)
  /-- They can be loaded if each file can be read, and what stands highest at each path as well. -/
  succeeds {layers : List Layer} : c.layers? = some layers →
    (c.load?.isSome = true ↔ ∀ f : Setting, (f.chosen? (winner layers f.path)).isSome = true)
  unreadable {name file text : String} : name ∈ c.names → Files.nameAt? (name ++ ".toml") = some file →
    file ≠ ".toml" → c.files.text? file = some text → Toml.layer? text = none → c.load? = none
  /-- What cannot be read of a layer matters where no higher layer has anything at the path. -/
  exposed {above below : List Layer} {l : Layer} {f : Setting} {x : Content} :
    c.layers? = some (above ++ l :: below) → l.given? f.path = some x → f.chosen? (some x) = none →
      (∀ a ∈ above, a.given? f.path = none) → c.load? = none
  /-- Where a higher layer has something, it does not matter what the layer has. -/
  masked {c' : Setup} {plan : Plan} {above below : List Layer} {l l' : Layer} {f : Setting} : c'.Fits plan →
    c.layers? = some (above ++ l :: below) → c'.layers? = some (above ++ l' :: below) →
      (∃ a ∈ above, (a.given? f.path).isSome = true) →
        (∀ f' : Setting, f' ≠ f → l'.given? f'.path = l.given? f'.path) → c'.load? = c.load?
  /-- A setting is the same with other layers that have the same at its path, but for logs that are named after the
  service. -/
  setting {c' : Setup} {plan : Plan} {layers layers' : List Layer} {s s' : Settings} {f : Setting} : c'.Fits plan →
    c.layers? = some layers → c'.layers? = some layers' →
      List.Forall₂ (fun l l' => l.given? f.path = l'.given? f.path) layers layers' →
        c.load? = some s → c'.load? = some s' →
          (f = .logName → f.chosen? (winner layers f.path) ≠ some (.text "")) → Setting.of s f = Setting.of s' f
  /-- All are the same if the layers have the same at the paths of all settings, whatever else there is in them. -/
  settings {c' : Setup} {plan : Plan} {layers layers' : List Layer} : c'.Fits plan →
    c.layers? = some layers → c'.layers? = some layers' →
      (∀ f : Setting, List.Forall₂ (fun l l' => l.given? f.path = l'.given? f.path) layers layers') →
        c.load? = c'.load?
  /-- One more entry in a layer changes nothing at the paths to which it brings nothing. -/
  entry {e : String × Tree} {p : List String} : (Address.ofText e.1).given? e.2 p = none →
    ∀ before after : Layer, Layer.given? (before ++ e :: after) p = Layer.given? (before ++ after) p

theorem own?_of_layers? {layers : List Layer} (h : c.layers? = some layers) {name : String} (hname : name ∈ c.names) :
    ∃ l, c.files.own? name = some l := by
  obtain ⟨base, hbase, h⟩ := Option.bind_eq_some_iff.1 h
  obtain ⟨ofEnvironment, henvironment, h⟩ := Option.bind_eq_some_iff.1 h
  obtain ⟨ofService, hservice, -⟩ := Option.bind_eq_some_iff.1 h
  simp only [names, List.mem_cons, List.not_mem_nil, or_false] at hname
  rcases hname with rfl | rfl | rfl
  · exact ⟨base, hbase⟩
  · exact ⟨ofEnvironment, henvironment⟩
  · exact ⟨ofService, hservice⟩

theorem load?_congr {c' : Setup} {plan' : Plan} (h : c.Fits plan) (h' : c'.Fits plan') {layers layers' : List Layer}
    (hlayers : c.layers? = some layers) (hlayers' : c'.layers? = some layers')
    (hwinner : ∀ f : Setting, winner layers f.path = winner layers' f.path) : c.load? = c'.load? := by
  refine Option.ext fun s => ?_
  simp only [load?_eq_some_iff h, load?_eq_some_iff h', hlayers, hlayers', Option.some.injEq, exists_eq_left']
  exact ⟨fun hs => hs.congr hwinner, fun hs => hs.congr fun f => (hwinner f).symm⟩

theorem load?_isSome_iff (h : c.Fits plan) {layers : List Layer} (hlayers : c.layers? = some layers) :
    c.load?.isSome = true ↔ ∀ f : Setting, (f.chosen? (winner layers f.path)).isSome = true := by
  simp only [Option.isSome_iff_exists, load?_eq_some_iff h, hlayers, Option.some.injEq, exists_eq_left']
  constructor
  · rintro ⟨s, hs⟩ f
    obtain ⟨x, hx, -⟩ := hs f
    exact ⟨x, hx⟩
  · intro hchosen
    choose g hg using hchosen
    refine ⟨(Setting.assemble g).named, follows_iff.1 ⟨_, fun f => ?_, rfl⟩⟩
    rw [hg f, Setting.of_assemble, Setting.of_assemble_chosen? (hg f)]

end Setup

namespace Setup

/-- A service with a default file of this text, a file of its environment over that, and a variable. -/
def staging (text : String) : Setup where
  service := "reforge-engine"
  environment := "staging"
  files := [("default.toml", text), ("staging.toml", "[engine]\nholder_cache_ttl_ms = 2000\n")]
  vars := [("REFORGE_OBSERVABILITY__JSON_LOGS", "true")]

def stagingPlan : Plan := fun p => p = [] ∨ p = ["engine"] ∨ p = ["observability"]

/-- The layer of a default file with a lifetime of this text. -/
def stagingDefault (lifetime : Value) : Layer :=
  [("engine", .table [("holder_cache_ttl_ms", .value lifetime), ("update_interval_ms", .value (.integer 50))])]

def stagingEnvironment : Layer := [("engine", .table [("holder_cache_ttl_ms", .value (.integer 2000))])]

def stagingVariables : Layer := [("observability.json_logs", .value (.flag true))]

variable {text : String} {lifetime : Value}

theorem nameAt?_staging : Files.nameAt? ("staging" ++ ".toml") = some "staging.toml" := Files.nameAt?_plain (by decide)

theorem staging_own? (htext : (staging text).files.text? "default.toml" = some text)
    (hlayer : Toml.layer? text = some (stagingDefault lifetime)) :
    (staging text).files.own? "default" = some (stagingDefault lifetime) ∧
      (staging text).files.own? "staging" = some stagingEnvironment ∧
      (staging text).files.own? "reforge-engine" = some [] := by
  have hservice : Files.nameAt? ("reforge-engine" ++ ".toml") = some "reforge-engine.toml" :=
    Files.nameAt?_plain (by decide)
  refine ⟨?_, ?_, ?_⟩
  · exact (Files.own?_of_text? Files.nameAt?_default (by decide) htext).trans hlayer
  · have htext : (staging text).files.text? "staging.toml" = some "[engine]\nholder_cache_ttl_ms = 2000\n" := rfl
    have hlayer : Toml.layer? "[engine]\nholder_cache_ttl_ms = 2000\n" = some stagingEnvironment := by cbv
    exact (Files.own?_of_text? nameAt?_staging (by decide) htext).trans hlayer
  · simp only [Files.own?, hservice]
    rfl

theorem staging_layers? (htext : (staging text).files.text? "default.toml" = some text)
    (hlayer : Toml.layer? text = some (stagingDefault lifetime)) :
    (staging text).layers? = some [stagingVariables, [], stagingEnvironment, stagingDefault lifetime,
      startLayer "reforge-engine" "staging"] := by
  obtain ⟨hdefault, hstaging, hservice⟩ := staging_own? htext hlayer
  have hvars : (staging text).vars.layer = stagingVariables := rfl
  have hnames : (staging text).environment = "staging" ∧ (staging text).service = "reforge-engine" := ⟨rfl, rfl⟩
  simp only [layers?, hnames, hdefault, hstaging, hservice, hvars]
  rfl

theorem staging_fits (htext : (staging text).files.text? "default.toml" = some text)
    (hlayer : Toml.layer? text = some (stagingDefault lifetime)) :
    (staging text).Fits stagingPlan where
  root := .inl rfl
  engine := .inr (.inl rfl)
  log := .inr (.inr rfl)
  only := by
    intro f hf
    simp only [staging, List.mem_cons, List.not_mem_nil, or_false] at hf
    rcases hf with rfl | rfl
    · exact ⟨"default", by simp [names], Files.nameAt?_default⟩
    · exact ⟨"staging", by simp [names, staging], nameAt?_staging⟩
  files := by
    obtain ⟨hdefault, hstaging, hservice⟩ := staging_own? htext hlayer
    have hengine : Address.ofText "engine" = [.key "engine"] := rfl
    have hleaf : ∀ k : String, ¬ stagingPlan ["engine", k] := fun k h => by simp [stagingPlan] at h
    intro name hname l hl
    simp only [names, staging, List.mem_cons, List.not_mem_nil, or_false] at hname
    rcases hname with rfl | rfl | rfl
    · obtain rfl := Option.some.inj (hdefault.symm.trans hl)
      refine List.forall_mem_singleton.2 ?_
      rw [hengine]
      exact ⟨.inl rfl, .inr (.inl rfl), hleaf _, hleaf _, trivial⟩
    · obtain rfl := Option.some.inj (hstaging.symm.trans hl)
      refine List.forall_mem_singleton.2 ?_
      rw [hengine]
      exact ⟨.inl rfl, .inr (.inl rfl), hleaf _, trivial⟩
    · obtain rfl := Option.some.inj (hservice.symm.trans hl)
      exact List.forall_mem_nil _
  vars := by
    have hvars : (staging text).vars.layer = stagingVariables := rfl
    have haddress : Address.ofText "observability.json_logs" = [.key "observability", .key "json_logs"] := rfl
    rw [hvars]
    refine List.forall_mem_singleton.2 ?_
    rw [haddress]
    exact ⟨.inl rfl, .inr (.inr rfl), fun h => by simp [stagingPlan, Plan.under] at h⟩

end Setup

end Ability
