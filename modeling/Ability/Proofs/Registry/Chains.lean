import Ability.Proofs.Chain.Session
import Ability.Proofs.Registry.Calls

/-! The registry of chains, and the chains that an engine makes. Every chain is told apart by its number, so it can be
asked under which identifier it is registered: that is the one under which it is found. -/

namespace Ability

namespace Compile

variable {r : Registries} {n : Nat}

/-- Nothing is asked of what is compiled; what is left is that numbers go upwards. -/
def anyLaw (r : Registries) (base : Nat) : Law r base where
  ofCondition _ _ := True
  ofEffect _ _ := True
  ofResponse _ _ _ := True
  condition_mono _ _ := trivial
  effect_mono _ _ := trivial
  response_mono _ _ := trivial
  condition _ _ _ := trivial
  effect _ _ _ := trivial
  leaf _ _ := trivial
  named _ _ _ := trivial
  inline _ _ _ := trivial

theorem chainOf_numbered {x : Compile (List Effect)} {P : Nat → List Effect → Prop} (h : Leads n P x)
    (context id : String) :
    Leads n (fun m c => ∀ a, c = some a → n ≤ a.number ∧ a.number < m) (chainOf context id x) := by
  refine h.bind fun m es hnm _ => ?_
  split
  · exact (Leads.tell _).bind fun _ _ _ _ => .pure fun _ hb => nomatch hb
  · refine Leads.fresh.bind fun l j _ ⟨hj, hl⟩ => .pure fun b hb => ?_
    obtain rfl := Option.some.inj hb
    subst hj hl
    exact ⟨hnm, Nat.lt_succ_self _⟩

/-- The number of a chain is one that was not given out before it was made. -/
theorem chain_numbered (r : Registries) (n : Nat) (config : Json) (context : String) (anonymous : Bool) :
    Leads n (fun m c => ∀ a, c = some a → n ≤ a.number ∧ a.number < m) (chain r config context anonymous) := by
  have hmake : ∀ id, Leads n (fun m c => ∀ a, c = some a → n ≤ a.number ∧ a.number < m)
      (chain.make r config context id) := fun id =>
    chainOf_numbered ((anyLaw r n).of_effects (Nat.le_refl n) _ 0 _ _) context id
  unfold Compile.chain
  split
  · exact hmake _
  · split
    · exact (Leads.tell _).bind fun _ _ _ _ => .pure fun _ hb => nomatch hb
    · exact hmake _

end Compile

theorem Engine.product_numbered (g : Engine) (o : Order) {c : Chain} (hc : (g.product o).chain? = some c) :
    g.nextNumber ≤ c.number ∧ c.number < (g.filled o).nextNumber := by
  cases o with
  | chain config context anonymous =>
    simp only [filled, product, fill, compileChain_value, Prod.map, id, Product.chain?] at hc ⊢
    exact (Compile.chain_numbered g.registries g.nextNumber config context anonymous).2 c hc
  | _ => cases hc

namespace ChainRegistry

/-- The registry that registrations leave, starting with nothing. -/
def after (registered : List Chain) : ChainRegistry := registered.foldl add .empty

variable {registered : List Chain} {id : String} {c : Chain}

theorem after_concat (registered : List Chain) (c : Chain) : after (registered ++ [c]) = (after registered).add c := by
  rw [after, List.foldl_append]
  rfl

/-- Found under an identifier is the chain that was registered with it last. -/
theorem get?_after : (after registered).get? id = some c ↔ c.id = id ∧ Stands (· = c) (·.id = id) registered := by
  have hinsert : after registered = Table.insertAll .empty (registered.map fun c => (c.id, c)) := by
    rw [Table.insertAll, List.foldl_map]
    rfl
  rw [hinsert, Table.get?_insertAll_keyed Chain.id, Table.get?_empty, Option.or_none, Stands.find?_reverse_eq_some_iff]
  simp

theorem mem_of_get?_after (h : (after registered).get? id = some c) : c ∈ registered := by
  obtain ⟨-, before, d, later, rfl, rfl, -⟩ := get?_after.1 h
  exact List.mem_append_right _ (List.mem_cons_self ..)

end ChainRegistry

/-- An engine, the chains that there are, and those that were registered with it, each in their order. -/
structure Catalogue where
  engine : Engine
  made : List Chain
  registered : List Chain

namespace Catalogue

def start (g : Engine) : Catalogue := ⟨g, [], []⟩

def ordered (h : Catalogue) (o : Order) : Catalogue where
  engine := h.engine.filled o
  made := h.made ++ (h.engine.product o).chain?.toList
  registered := h.registered ++ (o.named? (h.engine.product o)).toList

/-- A chain that was not made here: whatever it is, its number is taken from then on. -/
def brought (h : Catalogue) (c : Chain) : Catalogue where
  engine := { h.engine with nextNumber := c.number + 1 }
  made := h.made ++ [c]
  registered := h.registered

def entered (h : Catalogue) (c : Chain) : Catalogue where
  engine := (Engine.registerChain c h.engine).value.2
  made := h.made
  registered := h.registered ++ [c]

/-- What orders lead to, and chains being registered by hand, the anonymous ones and those from elsewhere too. Whatever
the engine does otherwise may happen in between, as long as it registers no chain and gives no number out twice. -/
inductive Reached (g : Engine) : Catalogue → Prop
  | start : Reached g (.start g)
  | ordered {h : Catalogue} (before : Reached g h) (o : Order) : Reached g (h.ordered o)
  | brought {h : Catalogue} (before : Reached g h) {c : Chain} (apart : h.engine.nextNumber ≤ c.number) :
      Reached g (h.brought c)
  | entered {h : Catalogue} (before : Reached g h) {c : Chain} (made : c ∈ h.made) : Reached g (h.entered c)
  | other {h : Catalogue} (before : Reached g h) {next : Engine}
      (chains : next.registries.chains = h.engine.registries.chains)
      (numbers : h.engine.nextNumber ≤ next.nextNumber) : Reached g { h with engine := next }

structure Sound (h : Catalogue) : Prop where
  ascending : h.made.Pairwise (·.number < ·.number)
  within : ∀ c ∈ h.made, c.number < h.engine.nextNumber
  known : h.registered ⊆ h.made
  chains : h.engine.registries.chains = .after h.registered

namespace Sound

variable {h : Catalogue} {g : Engine}

theorem start (hg : g.registries.chains = .empty) : (start g).Sound where
  ascending := .nil
  within := nofun
  known := List.Subset.refl _
  chains := hg

theorem ordered (hh : h.Sound) (o : Order) : (h.ordered o).Sound where
  ascending := by
    refine List.pairwise_append.2 ⟨hh.ascending, by cases (h.engine.product o).chain? <;> simp, fun a ha c hc => ?_⟩
    obtain ⟨hle, -⟩ := h.engine.product_numbered o (Option.mem_toList.1 hc)
    exact Nat.lt_of_lt_of_le (hh.within a ha) hle
  within := by
    refine List.forall_mem_append.2 ⟨fun a ha => ?_, fun c hc => ?_⟩
    · exact Nat.lt_of_lt_of_le (hh.within a ha) (h.engine.product_lawful (Compile.anyLaw _ _) o).1
    · exact (h.engine.product_numbered o (Option.mem_toList.1 hc)).2
  known := by
    refine List.append_subset.2 ⟨List.Subset.trans hh.known (List.subset_append_left _ _), fun c hc => ?_⟩
    have hmade := Engine.named?_eq_chain? (Option.mem_toList.1 hc)
    exact List.mem_append_right _ (Option.mem_toList.2 hmade)
  chains := by
    have hregistries := h.engine.filled_registries o
    simp only [Catalogue.ordered, hregistries]
    cases o.named? (h.engine.product o) with
    | none => simpa using hh.chains
    | some c => simp only [Option.elim, Option.toList_some, Registries.addChain, hh.chains, ChainRegistry.after_concat]

theorem brought (hh : h.Sound) {c : Chain} (hc : h.engine.nextNumber ≤ c.number) : (h.brought c).Sound where
  ascending := by
    refine List.pairwise_append.2 ⟨hh.ascending, List.pairwise_singleton _ _, fun a ha b hb => ?_⟩
    obtain rfl := List.mem_singleton.1 hb
    exact Nat.lt_of_lt_of_le (hh.within a ha) hc
  within := by
    refine List.forall_mem_append.2 ⟨fun a ha => ?_, List.forall_mem_singleton.2 (Nat.lt_succ_self _)⟩
    exact Nat.lt_succ_of_lt (Nat.lt_of_lt_of_le (hh.within a ha) hc)
  known := List.subset_append_of_subset_left _ hh.known
  chains := hh.chains

theorem entered (hh : h.Sound) {c : Chain} (hc : c ∈ h.made) : (h.entered c).Sound where
  ascending := hh.ascending
  within := hh.within
  known := List.append_subset.2 ⟨hh.known, List.cons_subset.2 ⟨hc, List.nil_subset _⟩⟩
  chains := by
    have hadd : (h.entered c).engine.registries.chains = h.engine.registries.chains.add c := rfl
    rw [hadd, hh.chains]
    exact (ChainRegistry.after_concat h.registered c).symm

theorem other (hh : h.Sound) {next : Engine} (hchains : next.registries.chains = h.engine.registries.chains)
    (hnumbers : h.engine.nextNumber ≤ next.nextNumber) : Sound { h with engine := next } where
  ascending := hh.ascending
  within c hc := Nat.lt_of_lt_of_le (hh.within c hc) hnumbers
  known := hh.known
  chains := hchains.trans hh.chains

end Sound

theorem Reached.sound {g : Engine} {h : Catalogue} (hg : g.registries.chains = .empty) (hh : Reached g h) : h.Sound := by
  induction hh with
  | start => exact .start hg
  | ordered before o ih => exact ih.ordered o
  | brought before apart ih => exact ih.brought apart
  | entered before made ih => exact ih.entered made
  | other before chains numbers ih => exact ih.other chains numbers

/-- Identifiers and registered chains belong to each other. -/
structure Paired (h : Catalogue) (chains : ChainRegistry) : Prop where
  /-- No two of the chains have the same number. -/
  distinct : h.made.Pairwise (·.number ≠ ·.number)
  /-- Found under an identifier is the chain that was registered last of those that carry it. -/
  get_iff (id : String) (c : Chain) : chains.get? id = some c ↔ c.id = id ∧ Stands (· = c) (·.id = id) h.registered
  idOf_iff {c : Chain} : c ∈ h.made → ∀ id, chains.idOf? c = some id ↔ chains.get? id = some c
  /-- A chain has no identifier where another one has taken its own, even one of the same effects. -/
  replaced {c d : Chain} : c ∈ h.made → chains.get? c.id = some d → d.number ≠ c.number → chains.idOf? c = none
  unregistered {c : Chain} : c ∈ h.made → c ∉ h.registered → chains.idOf? c = none
  mem_values_iff (c : Chain) : c ∈ chains.values ↔ ∃ id, chains.get? id = some c
  values_ascending : chains.values.Pairwise fun c d => utf8 c.id < utf8 d.id

namespace Sound

variable {h : Catalogue}

theorem eq_of_number (hh : h.Sound) {c d : Chain} (hc : c ∈ h.made) (hd : d ∈ h.made) (hcd : c.number = d.number) :
    c = d := by
  have hnodup : (h.made.map (·.number)).Nodup := List.pairwise_map.2 (hh.ascending.imp Nat.ne_of_lt)
  exact List.inj_on_of_nodup_map hnodup hc hd hcd

theorem made_of_get? (hh : h.Sound) {id : String} {c : Chain}
    (hc : (ChainRegistry.after h.registered).get? id = some c) : c ∈ h.made :=
  hh.known (ChainRegistry.mem_of_get?_after hc)

theorem idOf?_eq_some_iff (hh : h.Sound) {c : Chain} (hc : c ∈ h.made) {id : String} :
    (ChainRegistry.after h.registered).idOf? c = some id ↔ (ChainRegistry.after h.registered).get? id = some c := by
  -- What is found by the number of the chain is the chain.
  have hsame : ∀ e ∈ (ChainRegistry.after h.registered).entries, e.2.number = c.number → e = (c.id, c) := by
    intro e he hnumber
    have hget : (ChainRegistry.after h.registered).get? e.1 = some e.2 := Table.mem_entries_iff.1 he
    have hchain : e.2 = c := hh.eq_of_number (hh.made_of_get? hget) hc hnumber
    have hid : e.2.id = e.1 := (ChainRegistry.get?_after.1 hget).1
    rw [← hchain, hid]
  rw [ChainRegistry.idOf?, Option.map_eq_some_iff]
  constructor
  · rintro ⟨e, he, rfl⟩
    have hmem := List.mem_of_find?_eq_some he
    have hentry := hsame e hmem (by simpa using List.find?_some he)
    rw [hentry] at hmem ⊢
    exact Table.mem_entries_iff.1 hmem
  · intro hget
    have hmem : (id, c) ∈ (ChainRegistry.after h.registered).entries := Table.mem_entries_iff.2 hget
    obtain ⟨e, he⟩ : ∃ e, (ChainRegistry.after h.registered).entries.find? (·.2.number = c.number) = some e := by
      rw [← Option.isSome_iff_exists, List.find?_isSome]
      exact ⟨(id, c), hmem, by simp⟩
    have hentry := hsame e (List.mem_of_find?_eq_some he) (by simpa using List.find?_some he)
    refine ⟨e, he, ?_⟩
    rw [hentry, (ChainRegistry.get?_after.1 hget).1]

theorem idOf?_eq_none_iff (hh : h.Sound) {c : Chain} (hc : c ∈ h.made) :
    (ChainRegistry.after h.registered).idOf? c = none ↔ (ChainRegistry.after h.registered).get? c.id ≠ some c := by
  rw [Option.eq_none_iff_forall_ne_some]
  refine ⟨fun hnone hget => hnone _ ((hh.idOf?_eq_some_iff hc).2 hget), fun hne id hid => hne ?_⟩
  have hget := (hh.idOf?_eq_some_iff hc).1 hid
  rw [(ChainRegistry.get?_after.1 hget).1, hget]

theorem paired (hh : h.Sound) : h.Paired h.engine.registries.chains := by
  rw [hh.chains]
  exact {
    distinct := hh.ascending.imp Nat.ne_of_lt
    get_iff _ _ := ChainRegistry.get?_after
    idOf_iff hc _ := hh.idOf?_eq_some_iff hc
    replaced := by
      intro c d hc hd hnumber
      rw [hh.idOf?_eq_none_iff hc, hd]
      rintro ⟨⟩
      exact hnumber rfl
    unregistered := by
      intro c hc hunregistered
      rw [hh.idOf?_eq_none_iff hc]
      exact fun hget => hunregistered (ChainRegistry.mem_of_get?_after hget)
    mem_values_iff _ := Table.mem_values_iff
    values_ascending := by
      refine List.pairwise_map.2 ((ChainRegistry.after h.registered).sorted.imp_of_mem fun he hf hef => ?_)
      have hid : ∀ {e}, e ∈ (ChainRegistry.after h.registered).entries → e.2.id = e.1 := fun he =>
        (ChainRegistry.get?_after.1 (Table.mem_entries_iff.1 he)).1
      rw [hid he, hid hf]
      exact utf8_lt_utf8.2 hef }

end Sound

end Catalogue

open Registry in
/-- A registry keeps the last entry of each identifier, and every call gives back what it replaced. Whatever chains are
registered with an engine, as it makes them or by hand: the one that is found under an identifier carries it, and a
chain has the identifier under which it is itself found, or none. -/
theorem registries_keep_last {α : Type} (calls : List (String × α)) {g : Engine} (hg : g.registries.chains = .empty)
    {h : Catalogue} (hh : h.Reached g) :
    KeepsLast calls (registerEach .empty calls).1 (registerEach .empty calls).2 ∧
      h.Paired h.engine.registries.chains :=
  ⟨keepsLast calls, (hh.sound hg).paired⟩

/-- A chain of one message. -/
def Json.hail : Json :=
  .object [("effects", .array [.effectOf "log" "message" "hi"]), ("id", .text "x")]

/-- What is made of it, under its identifier or without one. -/
def hailed (n : Nat) (id : String) : Chain :=
  ⟨n, id, [teller "hi" (Compile.chainScope "" id ++ " effects[0]") (Compile.chainPath id ++ "/effects[0]")]⟩

theorem Compile.chain_hail (chains : ChainRegistry) (n : Nat) (anonymous : Bool) :
    (chain { Registries.builtin with chains } .hail "" anonymous n).value =
      (some (hailed n (if anonymous then "anonymous" else "x")), n + 1) := by
  have heffects : Json.hail.subsections "effects" = [.effectOf "log" "message" "hi"] := rfl
  have hid : Json.hail.requireText "id" = .ok "x" := rfl
  cases anonymous <;>
  · simp only [chain, chain.make, chainOf, heffects, hid, effects, effect_teller]
    rfl

namespace Catalogue

theorem ordered_hail (h : Catalogue) (anonymous : Bool)
    (hkinds : h.engine.registries = { Registries.builtin with chains := h.engine.registries.chains }) :
    let c := hailed h.engine.nextNumber (if anonymous then "anonymous" else "x")
    h.ordered (.chain .hail "" anonymous) = {
      engine := { h.engine with
        registries := if anonymous then h.engine.registries else h.engine.registries.addChain c
        nextNumber := h.engine.nextNumber + 1 }
      made := h.made ++ [c]
      registered := h.registered ++ if anonymous then [] else [c] } := by
  intro c
  have hmade := Compile.chain_hail h.engine.registries.chains h.engine.nextNumber anonymous
  rw [← hkinds] at hmade
  simp only [ordered, Engine.filled, Engine.product, Engine.fill, Engine.compileChain_value, hmade, Prod.map,
    Product.chain?, Order.named?]
  cases anonymous <;> rfl

/-- A chain, the same one without its identifier, and the first one once more. -/
def hails : Catalogue :=
  let g := Engine.new .builtin .arithmetic 0
  (((start g).ordered (.chain .hail "" false)).ordered (.chain .hail "" true)).ordered (.chain .hail "" false)

theorem hails_reached : hails.Reached (.new .builtin .arithmetic 0) :=
  ((Reached.start.ordered _).ordered _).ordered _

theorem hails_eq : hails = {
    engine := { Engine.new .builtin .arithmetic 0 with
      registries := (Registries.builtin.addChain (hailed 0 "x")).addChain (hailed 2 "x")
      nextNumber := 3 }
    made := [hailed 0 "x", hailed 1 "anonymous", hailed 2 "x"]
    registered := [hailed 0 "x", hailed 2 "x"] } := by
  rw [hails, ordered_hail (start _) false rfl, ordered_hail _ true, ordered_hail _ false] <;> rfl

end Catalogue

/-- Of the two chains of one identifier the second is found, and neither the first nor the anonymous one has an
identifier, though all three send the same message. -/
theorem registries_keep_last_hails :
    Catalogue.hails.Reached (.new .builtin .arithmetic 0) ∧
      Catalogue.hails.made = [hailed 0 "x", hailed 1 "anonymous", hailed 2 "x"] ∧
      (hailed 0 "x").components = (hailed 2 "x").components ∧
      let chains := Catalogue.hails.engine.registries.chains
      chains.get? "x" = some (hailed 2 "x") ∧ chains.idOf? (hailed 2 "x") = some "x" ∧
        chains.idOf? (hailed 0 "x") = none ∧ chains.idOf? (hailed 1 "anonymous") = none := by
  have hmade : Catalogue.hails.made = [hailed 0 "x", hailed 1 "anonymous", hailed 2 "x"] :=
    congrArg Catalogue.made Catalogue.hails_eq
  have hregistered : Catalogue.hails.registered = [hailed 0 "x", hailed 2 "x"] :=
    congrArg Catalogue.registered Catalogue.hails_eq
  obtain ⟨-, hpaired⟩ := registries_keep_last [("x", 0), ("x", 2)] rfl Catalogue.hails_reached
  have hlast : Catalogue.hails.engine.registries.chains.get? "x" = some (hailed 2 "x") := by
    rw [hpaired.get_iff, hregistered]
    exact ⟨rfl, [hailed 0 "x"], _, [], rfl, rfl, nofun⟩
  have hmem : ∀ c ∈ [hailed 0 "x", hailed 1 "anonymous", hailed 2 "x"], c ∈ Catalogue.hails.made := by simp [hmade]
  refine ⟨Catalogue.hails_reached, hmade, rfl, hlast, (hpaired.idOf_iff (hmem _ (by simp)) _).2 hlast,
    hpaired.replaced (hmem _ (by simp)) hlast (by decide), hpaired.unregistered (hmem _ (by simp)) ?_⟩
  rw [hregistered]
  simp [hailed]

end Ability
