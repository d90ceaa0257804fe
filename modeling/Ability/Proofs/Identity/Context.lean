import Ability.Proofs.Cache.History
import Ability.Proofs.Identity.Erasure

/-! The context of a compilation tells where an element was written and decides nothing. The same elements come of
it under any context, the same in all but their contexts and numbers, and an update cannot tell them apart. -/

namespace Ability

/-- What a chain is made of, without the number that tells it from others. -/
def Chain.outline (c : Chain) : String × List Effect := (c.id, Effect.contents c.components)

namespace Compile

theorem holder_alike (r : Registries) (config : Json) (c d : String) :
    Alike (Option.map Holder.content) (holder r config c) (holder r config d) := by
  unfold holder
  split
  · exact (Alike.tell _ _).bind fun _ _ _ => .pure rfl
  · refine (effects_alike r _ 0 _ _ _).bind fun es fs hes => ?_
    refine (conditions_alike r _ 0 _ _ _).bind fun cs ds hcs => .pure ?_
    simp only [Option.map_some, Holder.content, hes, hcs]

theorem chain_alike (r : Registries) (config : Json) (c d : String) (anonymous : Bool) :
    Alike (Option.map Chain.outline) (chain r config c anonymous) (chain r config d anonymous) := by
  have hmake : ∀ id, Alike (Option.map Chain.outline) (chain.make r config c id) (chain.make r config d id) :=
    fun id => chainOf_alike (f := Chain.outline) (fun _ _ _ _ h => congrArg (Prod.mk id) h)
      (effects_alike r _ 0 _ _ _) c d
  unfold chain
  split
  · exact hmake _
  split
  · exact (Alike.tell _ _).bind fun _ _ _ => .pure rfl
  · exact hmake _

end Compile

open Compile

/-- The same provision, or one that lends `k` in the place of `h`. -/
def Provision.Exchanged (h k : Holder) (p q : Provision) : Prop :=
  q = p ∨ p.holder = h ∧ q = { p with holder := k }

theorem Provision.map_content_of_exchanged {h k : Holder} (hcontent : h.content = k.content) {ps qs : List Provision}
    (hexchanged : List.Forall₂ (Exchanged h k) ps qs) : qs.map content = ps.map content := by
  induction hexchanged with
  | nil => rfl
  | @cons p q ps qs hpq _ ih =>
    have hhead : q.content = p.content := by
      rcases hpq with rfl | ⟨rfl, rfl⟩
      · rfl
      · rw [content, content, hcontent]
    rw [List.map_cons, List.map_cons, hhead, ih]

/-- The engine with another provider for the `i`-th one, once the subject is to be asked for anew. -/
def Engine.switch (g : Engine) (i : Nat) (p : Provider) (u : Uuid) : Engine :=
  { g with cache := (g.cache.setProvider i p).rescan u }

namespace Engine

theorem switch_provisions (g : Engine) (i : Nat) (p : Provider) (s : Subject) :
    (resolve s (g.switch i p s.id)).value.1.provisions =
      (g.cache.providers.set i p).flatMap fun p => (p s).value := by
  have hnone : (g.switch i p s.id).cache.kept? s.id = none := by
    unfold HolderCache.kept?
    split
    · rfl
    · have hslot := Host.rescan_slot (g.cache.setProvider i p) s.id s.id
      rw [if_pos rfl] at hslot
      rw [switch, hslot]
      cases (g.cache.setProvider i p).slots.get? s.id <;> rfl
  have hproviders : (g.switch i p s.id).cache.providers = g.cache.providers.set i p := by
    obtain ⟨slots, hslots⟩ := Host.rescan_frame (g.cache.setProvider i p) s.id
    rw [switch, hslots]
    rfl
  rw [resolve_of_not_kept hnone, ← hproviders, ← HolderCache.ask_value]
  rfl

theorem switch_report (g : Engine) (i : Nat) (p : Provider) (s : Subject) :
    let before := g.activeEffects s.id
    let after := (ActiveSet.collect g.evaluator s []
      ((g.cache.providers.set i p).flatMap fun p => (p s).value)).value.flatten
    let report := (update s (g.switch i p s.id)).value.1.1
    report.added = (after.diff before).members ∧ report.removed = (before.diff after).members := by
  intro before after report
  have hafter : ((g.switch i p s.id).activeNow s).flatten = after := by
    rw [activeNow_eq, switch_provisions]
    rfl
  simp only [report, update_value, transition_value, Transition.report, hafter]
  exact ⟨rfl, rfl⟩

/-- Of holders with the same content an update does not see which one it is given. -/
theorem update_switch {h k : Holder} (hcontent : h.content = k.content) (g : Engine) (i : Nat) {p q : Provider}
    {s : Subject} (hanswers : List.Forall₂ (Provision.Exchanged h k) (p s).value (q s).value) :
    let kept := (update s (g.switch i p s.id)).value.1.1
    let switched := (update s (g.switch i q s.id)).value.1.1
    switched.added.map Effect.content = kept.added.map Effect.content ∧ switched.removed = kept.removed ∧
      switched.reloaded = kept.reloaded ∧ switched.changed = kept.changed := by
  intro kept switched
  have hmapped := Provision.map_content_of_exchanged hcontent hanswers
  have hprovisions : ∀ p : Provider, (resolve s (g.switch i p s.id)).value.1.provisions.map Provision.content =
      ((g.cache.providers.map fun p => (p s).value.map Provision.content).set i
        ((p s).value.map Provision.content)).flatten := by
    intro p
    rw [switch_provisions, List.map_flatMap, ← List.map_set]
    rfl
  obtain ⟨hadded, hremoved, hreloaded⟩ := update_of_content_eq (g := g.switch i q s.id) (h := g.switch i p s.id)
    (s := s) rfl rfl (by rw [hprovisions, hprovisions, hmapped])
  have hempty : switched.added.isEmpty = kept.added.isEmpty := by
    simpa only [List.isEmpty_map] using congrArg List.isEmpty hadded
  refine ⟨hadded, hremoved, hreloaded, ?_⟩
  rw [UpdateReport.changed, UpdateReport.changed, hempty, hremoved]

end Engine

/-- Flying is given while something else is not. -/
def gated (missing : String) : Json :=
  .object [("effects", .array [.object [("args", .object [("permission", .text "fly")]),
      ("conditions", .array [.object [("args", .object [("permission", .text missing)]),
        ("id", .text "has_permission"), ("inverse", .bool true)]]),
      ("id", .text "give_permission")]]),
    ("id", .text "h")]

/-- The holder that is made of it, with the identifiers and contexts of its two blocks. -/
def gate (missing : String) (i j : Uuid) (x y : String) : Holder where
  id := "h"
  effects := [{
    id := i
    args := .object [("permission", .text "fly")]
    response := .leaf Builtin.givePermission (.text "fly")
    conditions := [{
      id := j
      kind := Builtin.hasPermission
      args := .object [("permission", .text missing)]
      datum := .text missing
      inverted := true
      showNotMet := false
      notMetLines := []
      notMetEffects := []
      context := y }]
    arguments := []
    triggers := []
    context := x }]
  conditions := []

theorem gated_compile (missing : String) : ∃ i j, ∀ context n, ∃ x y,
    (holder .builtin (gated missing) context n).value.1 = some (gate missing i j x y) := by
  let asked : Json := .object [("args", .object [("permission", .text missing)]), ("id", .text "has_permission"),
    ("inverse", .bool true)]
  let given : Json := .object [("args", .object [("permission", .text "fly")]), ("conditions", .array [asked]),
    ("id", .text "give_permission")]
  refine ⟨blockId "effect" "holder:h/effects[0]" given,
    blockId "condition" "holder:h/effects[0]/conditions[0]" asked, fun context n => ?_⟩
  have hid : (gated missing).requireText "id" = .ok "h" := rfl
  have heffects : (gated missing).subsections "effects" = [given] := rfl
  have hconditions : (gated missing).subsections "conditions" = [] := rfl
  have hasked : given.subsections "conditions" = [asked] := rfl
  have hinside : (given.subsection "args").subsections "effects" = [] := rfl
  have hfallbacks : (asked.subsection "args").subsections "not_met_effects" = [] := rfl
  simp only [holder, hid, heffects, hconditions, hasked, hinside, hfallbacks, effects, effect, conditions, condition]
  exact ⟨_, _, rfl⟩

/-- A provider that lends one holder to everyone. -/
def Holder.lend (h : Holder) : Provider := fun _ => pure [.of h]

/-- A subject to whom a holder is lent, once it has been updated, and the engine. -/
def Engine.lent (h : Holder) : Subject × Engine :=
  let g := Engine.new .builtin .arithmetic 0
  let x := (Engine.update (.inMemory ⟨1⟩ "s") { g with cache := g.cache.addProvider h.lend }).value
  (x.1.2, x.2)

/-- What changes when `k` is lent in the place of `h`. -/
def Engine.exchange (h k : Holder) : UpdateReport :=
  let x := Engine.lent h
  (Engine.update x.1 (x.2.switch 0 k.lend x.1.id)).value.1.1

theorem Engine.exchange_report {h k : Holder} {s : Subject} (hs : (Engine.lent h).1 = s) :
    let before := (Engine.lent h).2.activeEffects s.id
    let after := (ActiveSet.collect .arithmetic s [] [.of k]).value.flatten
    (Engine.exchange h k).added = (after.diff before).members ∧
      (Engine.exchange h k).removed = (before.diff after).members := by
  have hproviders : (Engine.lent h).2.cache.providers = [h.lend] := by
    rw [lent, update_value, transition_value]
    exact resolve_providers ..
  have hev : (Engine.lent h).2.evaluator = .arithmetic := by
    rw [lent, update_value, transition_value]
    exact resolve_evaluator ..
  have hreport := (Engine.lent h).2.switch_report 0 k.lend s
  rw [hproviders, hev] at hreport
  rw [exchange, hs]
  exact hreport

end Ability
