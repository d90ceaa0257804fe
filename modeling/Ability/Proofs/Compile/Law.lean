import Ability.Compile

/-! What holds of everything that is compiled. A law says it of conditions and of effects, with a bound on
the numbers given to the chains in them, and is kept by each way in which an element is put together;
then every compilation obeys it, whatever the configuration and however deep its parts are nested. -/

namespace Ability

namespace Compile

variable {α β : Type}

/-- From `n` on numbers are given out upwards, and `P` holds of the number that is next in the end and of
the result. -/
def Leads (n : Nat) (P : Nat → α → Prop) (x : Compile α) : Prop :=
  n ≤ (x n).value.2 ∧ P (x n).value.2 (x n).value.1

/-- The same of a compilation that may fail; nothing is said of the result then. -/
def Makes (n : Nat) (P : Nat → α → Prop) (x : ExceptT EngineError Compile α) : Prop :=
  Leads n (fun m y => ∀ a, y = .ok a → P m a) x.run

namespace Leads

variable {n : Nat} {P : Nat → α → Prop} {Q : Nat → β → Prop}

theorem pure {a : α} (h : P n a) : Leads n P (Pure.pure a) := ⟨Nat.le_refl _, h⟩

theorem bind {x : Compile α} {k : α → Compile β} (h : Leads n P x)
    (hk : ∀ m a, n ≤ m → P m a → Leads m Q (k a)) : Leads n Q (x >>= k) := by
  obtain ⟨hle, hP⟩ := h
  obtain ⟨hle', hQ⟩ := hk _ _ hle hP
  exact ⟨Nat.le_trans hle hle', hQ⟩

theorem tell (e : Event) : Leads n (fun m _ => m = n) (tell e) := ⟨Nat.le_refl _, rfl⟩

theorem fresh : Leads n (fun m j => j = n ∧ m = n + 1) fresh := ⟨Nat.le_succ n, rfl, rfl⟩

theorem imp {P' : Nat → α → Prop} {x : Compile α} (h : Leads n P x) (hP : ∀ m a, P m a → P' m a) :
    Leads n P' x :=
  ⟨h.1, hP _ _ h.2⟩

/-- One that may be missing is put before others that are made after it. -/
theorem prepend {x : Compile (Option α)} {xs : Compile (List α)} (hP : ∀ {m l a}, m ≤ l → P m a → P l a)
    (hx : Leads n (fun m y => ∀ a, y = some a → P m a) x)
    (hxs : ∀ m, n ≤ m → Leads m (fun l as => ∀ a ∈ as, P l a) xs) :
    Leads n (fun m as => ∀ a ∈ as, P m a) (x >>= fun y => xs >>= fun as => Pure.pure (y.toList ++ as)) := by
  refine hx.bind fun m y hnm hy => (hxs m hnm).bind fun l as hml has => .pure fun a ha => ?_
  rcases List.mem_append.mp ha with ha | ha
  · exact hP hml (hy a (Option.mem_toList.mp ha))
  · exact has a ha

end Leads

namespace Makes

variable {n : Nat} {P : Nat → α → Prop} {Q : Nat → β → Prop}

theorem pure {a : α} (h : P n a) : Makes n P (Pure.pure a) :=
  Leads.pure fun _ hb => Except.ok.inj hb ▸ h

theorem throw (e : EngineError) : Makes n P (throw e) := Leads.pure fun _ hb => nomatch hb

theorem bind {x : ExceptT EngineError Compile α} {k : α → ExceptT EngineError Compile β}
    (h : Makes n P x) (hk : ∀ m a, n ≤ m → P m a → Makes m Q (k a)) : Makes n Q (x >>= k) := by
  refine Leads.bind h fun m y hnm hy => ?_
  cases y with
  | ok a => exact hk m a hnm (hy a rfl)
  | error e => exact Leads.pure fun _ hb => nomatch hb

theorem of_leads {x : Compile α} (h : Leads n P x) : Makes n P (ExceptT.lift x) :=
  h.bind fun _ _ _ ha => Leads.pure fun _ hb => Except.ok.inj hb ▸ ha

theorem lift {x : Except EngineError α} (h : ∀ a, x = .ok a → P n a) : Makes n P (lift x) :=
  Leads.pure h

theorem bind_lift {x : Except EngineError α} {k : α → ExceptT EngineError Compile β}
    (hk : ∀ a, x = .ok a → Makes n Q (k a)) : Makes n Q (Compile.lift x >>= k) :=
  Makes.bind (P := fun m a => m = n ∧ x = .ok a) (.lift fun _ ha => ⟨rfl, ha⟩) fun _ a _ ⟨hm, ha⟩ =>
    hm ▸ hk a ha

theorem report {x : ExceptT EngineError Compile α} (h : Makes n P x) (message context : String) :
    Leads n (fun m y => ∀ a, y = some a → P m a) (report message context x) := by
  refine Leads.bind h fun m y _ hy => ?_
  cases y with
  | ok a => exact .pure fun b hb => Option.some.inj hb ▸ hy a rfl
  | error e => exact (Leads.tell _).bind fun _ _ _ _ => .pure fun b hb => nomatch hb

end Makes

theorem lookup_eq_ok {r : Registry α} {id : String} {e : EngineError} {x : α}
    (h : lookup r id e = .ok x) : r.get? id = some x := by
  unfold lookup at h
  split at h
  · next y hy => exact hy.trans (congrArg some (Except.ok.inj h))
  · cases h

/-- A law for what is compiled with the registries `r` when `base` is the next number. -/
structure Law (r : Registries) (base : Nat) where
  ofCondition : Nat → Condition → Prop
  ofEffect : Nat → Effect → Prop
  /-- What an effect with these arguments does. -/
  ofResponse : Nat → Json → Response → Prop
  condition_mono {n m : Nat} {c : Condition} : n ≤ m → ofCondition n c → ofCondition m c
  effect_mono {n m : Nat} {e : Effect} : n ≤ m → ofEffect n e → ofEffect m e
  response_mono {n m : Nat} {args : Json} {s : Response} :
    n ≤ m → ofResponse n args s → ofResponse m args s
  condition {n : Nat} {c : Condition} {id : String} : r.conditions.get? id = some c.kind →
    c.kind.compile c.args = .ok c.datum → (∀ e ∈ c.notMetEffects, ofEffect n e) → ofCondition n c
  effect {n : Nat} {e : Effect} : ofResponse n e.args e.response →
    arguments r e.args = .ok e.arguments → (∀ c ∈ e.conditions, ofCondition n c) → ofEffect n e
  leaf {n : Nat} {id : String} {args : Json} {k : LeafKind} {d : Datum} :
    r.effects.get? id = some (.leaf k) → k.compile args = .ok d → ofResponse n args (.leaf k d)
  /-- A chain that is named is the registered one. -/
  named {n : Nat} {id kind : String} {args : Json} {c : Chain} {x : Executor} : base ≤ n →
    args.text? "chain" = some id → r.chains.get? id = some c → ofResponse n args (.chain kind c x)
  /-- A chain that is written inside the effect gets its number after its components. -/
  inline {n : Nat} {kind : String} {args : Json} {c : Chain} {x : Executor} : c.number < n →
    args.text? "chain" = none → (∀ e ∈ c.components, ofEffect c.number e) →
      ofResponse n args (.chain kind c x)

namespace Law

variable {r : Registries} {base : Nat}

section

variable {n : Nat} (L : Law r base)

/-- A chain that was put together itself, and not looked up. -/
def OfChain (n : Nat) (c : Chain) : Prop :=
  c.number < n ∧ ∀ e ∈ c.components, L.ofEffect c.number e

theorem chainOf {x : Compile (List Effect)} (h : Leads n (fun m es => ∀ e ∈ es, L.ofEffect m e) x)
    (context id : String) :
    Leads n (fun m c => ∀ a, c = some a → a.id = id ∧ L.OfChain m a) (chainOf context id x) := by
  refine h.bind fun m es _ hes => ?_
  split
  · exact (Leads.tell _).bind fun _ _ _ _ => .pure fun _ hb => nomatch hb
  · refine Leads.fresh.bind fun l j _ ⟨hj, hl⟩ => .pure fun b hb => ?_
    obtain rfl := Option.some.inj hb
    subst hj hl
    exact ⟨rfl, Nat.lt_succ_self _, hes⟩

theorem chainFor {x : Compile (List Effect)} (h : Leads n (fun m es => ∀ e ∈ es, L.ofEffect m e) x)
    (hn : base ≤ n) (args : Json) (context kind : String) :
    Makes n (fun m c => ∀ y, L.ofResponse m args (.chain kind c y)) (chainFor r args context x) := by
  unfold Compile.chainFor
  split
  · next id hid => exact .lift fun c hc y => L.named hn hid (lookup_eq_ok hc)
  · next hid =>
    split
    · refine Makes.bind (.of_leads (L.chainOf h _ _)) fun m c hnm hc => ?_
      cases c with
      | none => exact .throw _
      | some c =>
        obtain ⟨-, hnumber, hes⟩ := hc c rfl
        exact .pure fun y => L.inline hnumber hid hes
    · exact .throw _

theorem response {x : Compile (List Effect)} (h : Leads n (fun m es => ∀ e ∈ es, L.ofEffect m e) x)
    (hn : base ≤ n) {id : String} {kind : EffectKind} (hkind : r.effects.get? id = some kind)
    (args : Json) (context : String) :
    Makes n (L.ofResponse · args) (response r kind args context x) := by
  cases kind with
  | leaf k => exact .bind_lift fun d hd => .pure (L.leaf hkind hd)
  | chainRunner k =>
    refine .bind_lift fun executor _ => ?_
    refine Makes.bind (L.chainFor h hn args context k) fun m c _ hc => ?_
    exact Makes.bind (.of_leads Leads.fresh) fun l j hml _ => .pure (L.response_mono hml (hc _))

end

mutual

theorem of_condition (L : Law r base) {n : Nat} (hn : base ≤ n) (config : Json) (context path : String) :
    Leads n (fun m c => ∀ a, c = some a → L.ofCondition m a)
      (Compile.condition r config context path) := by
  rw [Compile.condition]
  refine Makes.report ?_ _ _
  refine .bind_lift fun id _ => .bind_lift fun kind hkind => .bind_lift fun datum hdatum => ?_
  refine Makes.bind (.of_leads (L.of_effects hn _ 0 _ _)) fun m es _ hes => .pure ?_
  exact L.condition (lookup_eq_ok hkind) hdatum hes
termination_by (config.size, 0)
decreasing_by
  have := Json.subsection_size config "args"
  have := Json.subsections_size (config.subsection "args") "not_met_effects"
  exact Prod.Lex.left _ _ (by omega)

theorem of_conditions (L : Law r base) {n : Nat} (hn : base ≤ n) (configs : List Json) (i : Nat)
    (context path : String) :
    Leads n (fun m cs => ∀ c ∈ cs, L.ofCondition m c)
      (Compile.conditions r configs i context path) := by
  cases configs with
  | nil =>
    rw [Compile.conditions]
    exact .pure fun c hc => nomatch hc
  | cons config rest =>
    rw [Compile.conditions]
    exact .prepend L.condition_mono (L.of_condition hn config _ _) fun m hnm =>
      L.of_conditions (Nat.le_trans hn hnm) rest (i + 1) context path
termination_by (Json.totalSize configs, 1)
decreasing_by
  all_goals
    have := Json.size_pos config
    simp only [Json.totalSize, Prod.lex_def]
    omega

theorem of_effect (L : Law r base) {n : Nat} (hn : base ≤ n) (config : Json) (context path : String) :
    Leads n (fun m e => ∀ a, e = some a → L.ofEffect m a) (Compile.effect r config context path) := by
  rw [Compile.effect]
  refine Makes.report ?_ _ _
  refine .bind_lift fun id _ => .bind_lift fun kind hkind => ?_
  refine Makes.bind (L.response (L.of_effects hn _ 0 _ _) hn (lookup_eq_ok hkind) _ context) ?_
  refine fun m s hnm hs => .bind_lift fun arguments harguments => ?_
  refine Makes.bind (.of_leads (L.of_conditions (Nat.le_trans hn hnm) _ 0 context path)) ?_
  exact fun l cs hml hcs => .pure (L.effect (L.response_mono hml hs) harguments hcs)
termination_by (config.size, 0)
decreasing_by
  · have := Json.subsection_size config "args"
    have := Json.subsections_size (config.subsection "args") "effects"
    exact Prod.Lex.left _ _ (by omega)
  · exact Prod.Lex.left _ _ (Json.subsections_size config "conditions")

theorem of_effects (L : Law r base) {n : Nat} (hn : base ≤ n) (configs : List Json) (i : Nat)
    (context path : String) :
    Leads n (fun m es => ∀ e ∈ es, L.ofEffect m e) (Compile.effects r configs i context path) := by
  cases configs with
  | nil =>
    rw [Compile.effects]
    exact .pure fun e he => nomatch he
  | cons config rest =>
    rw [Compile.effects]
    exact .prepend L.effect_mono (L.of_effect hn config _ _) fun m hnm =>
      L.of_effects (Nat.le_trans hn hnm) rest (i + 1) context path
termination_by (Json.totalSize configs, 1)
decreasing_by
  all_goals
    have := Json.size_pos config
    simp only [Json.totalSize, Prod.lex_def]
    omega

end

variable {n : Nat} (L : Law r base)

theorem of_holder (hn : base ≤ n) (config : Json) (context : String) :
    Leads n (fun m x => ∀ h, x = some h →
        (∀ e ∈ h.effects, L.ofEffect m e) ∧ ∀ c ∈ h.conditions, L.ofCondition m c)
      (Compile.holder r config context) := by
  unfold Compile.holder
  split
  · exact (Leads.tell _).bind fun _ _ _ _ => .pure fun _ hb => nomatch hb
  · refine (L.of_effects hn _ 0 _ _).bind fun m es hnm hes => ?_
    refine (L.of_conditions (Nat.le_trans hn hnm) _ 0 _ _).bind fun l cs hml hcs => .pure fun h hh => ?_
    obtain rfl := Option.some.inj hh
    exact ⟨fun e he => L.effect_mono hml (hes e he), hcs⟩

theorem of_chain (hn : base ≤ n) (config : Json) (context : String) (anonymous : Bool) :
    Leads n (fun m x => ∀ c, x = some c →
        (anonymous = false → config.requireText "id" = .ok c.id) ∧ L.OfChain m c)
      (Compile.chain r config context anonymous) := by
  have hmake : ∀ id, Leads n (fun m x => ∀ c, x = some c → c.id = id ∧ L.OfChain m c)
      (Compile.chain.make r config context id) := fun id =>
    L.chainOf (L.of_effects hn _ 0 _ _) context id
  unfold Compile.chain
  split
  · next hanonymous =>
    exact (hmake _).imp fun m x hx c hc => ⟨fun h => absurd hanonymous (by simp [h]), (hx c hc).2⟩
  · split
    · exact (Leads.tell _).bind fun _ _ _ _ => .pure fun _ hb => nomatch hb
    · next id hid =>
      exact (hmake id).imp fun m x hx c hc => ⟨fun _ => (hx c hc).1 ▸ hid, (hx c hc).2⟩

end Law

end Compile

end Ability
