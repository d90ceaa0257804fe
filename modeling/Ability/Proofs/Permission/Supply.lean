import Ability.Proofs.ActiveSet
import Ability.Proofs.HolderCache
import Ability.Proofs.Host

/-! What the providers of a subject can bring in. As long as every provider lends known effects only, so
does every answer that is kept, and whatever becomes active is known. -/

namespace Ability

variable {known : Effect → Prop} {u : Uuid}

/-- Every effect that is lent is known. -/
def Lends (known : Effect → Prop) (ps : List Provision) : Prop :=
  ∀ p ∈ ps, ∀ e ∈ p.holder.effects, known e

/-- A provider that lends known effects only to the subjects of one identifier. -/
def Brings (known : Effect → Prop) (u : Uuid) (p : Provider) : Prop :=
  ∀ s : Subject, s.id = u → Lends known (p s).value

/-- Nothing unknown can come out of a cache for the subjects of one identifier. -/
structure HolderCache.Supplies (known : Effect → Prop) (u : Uuid) (c : HolderCache) : Prop where
  providers : ∀ p ∈ c.providers, Brings known u p
  kept : ∀ r, c.slots.get? u = some (some r) → Lends known r.provisions

namespace HolderCache

theorem lends_ask {ps : List Provider} (hps : ∀ p ∈ ps, Brings known u p) {s : Subject}
    (hs : s.id = u) : Lends known (ask s ps).value := by
  induction ps with
  | nil => exact fun p hp => absurd hp List.not_mem_nil
  | cons q r ih =>
    obtain ⟨hq, hr⟩ := List.forall_mem_cons.mp hps
    intro p hp
    rcases List.mem_append.mp hp with hp | hp
    · exact hq s hs p hp
    · exact ih hr p hp

namespace Supplies

variable {c : HolderCache}

/-- A change of slots that puts only known effects into the slot of the subject. -/
theorem of_slots {d : HolderCache} (h : c.Supplies known u) (hp : d.providers = c.providers)
    (hs : ∀ r, d.slots.get? u = some (some r) → c.slots.get? u = some (some r) ∨ Lends known r.provisions) :
    d.Supplies known u where
  providers := hp ▸ h.providers
  kept r hr := (hs r hr).elim (h.kept r) id

theorem rescan (h : c.Supplies known u) (v : Uuid) : (c.rescan v).Supplies known u :=
  h.of_slots (rescan_providers c v) fun _ hr => .inl (slots_of_rescan hr)

theorem remove (h : c.Supplies known u) (v : Uuid) : (c.remove v).Supplies known u :=
  h.of_slots rfl fun _ hr => .inl (slots_of_remove hr)

theorem addProvider (h : c.Supplies known u) {p : Provider} (hp : Brings known u p) :
    (c.addProvider p).Supplies known u where
  providers q hq := by
    rcases List.mem_append.mp hq with hq | hq
    · exact h.providers q hq
    · exact List.mem_singleton.mp hq ▸ hp
  kept := h.kept

theorem setProvider (h : c.Supplies known u) (i : Nat) {p : Provider} (hp : Brings known u p) :
    (c.setProvider i p).Supplies known u where
  providers q hq := (List.mem_or_eq_of_mem_set hq).elim (h.providers q) (· ▸ hp)
  kept := h.kept

theorem yields (h : c.Supplies known u) : c.Yields (Lends known) u where
  asked _ hs := lends_ask h.providers hs
  kept := h.kept

theorem resolve {g : Engine} (h : g.cache.Supplies known u) (s : Subject) :
    (Engine.resolve s g).value.2.cache.Supplies known u where
  providers := by
    rw [Engine.resolve_providers]
    exact h.providers
  kept := (h.yields.resolve s).kept

theorem activeNow {g : Engine} (h : g.cache.Supplies known u) {s : Subject} (hs : s.id = u) :
    ∀ e ∈ (g.activeNow s).flatten.members, known e := by
  intro e he
  rw [Engine.activeNow_eq] at he
  obtain ⟨p, hp, -, hep, -⟩ := ActiveSet.mem_flatten he
  exact h.yields.provisions hs p hp e hep

end Supplies

end HolderCache

/-- A request that brings in known effects only. -/
def Request.Brings (known : Effect → Prop) (u : Uuid) : Request → Prop
  | .addProvider p | .setProvider _ p => Ability.Brings known u p
  | _ => True

theorem Host.supplies_step {h : Host} (hs : h.engine.cache.Supplies known u) {r : Request}
    (hr : r.Brings known u) : (h.step r).engine.cache.Supplies known u := by
  rw [Host.step_cache]
  cases r with
  | resolve v => exact hs.resolve _
  | compute v => exact hs.resolve _
  | update v => exact hs.resolve _
  | rescan v => exact hs.rescan v
  | uncache v => exact hs.remove v
  | forget v => exact hs.remove v
  | addProvider p => exact hs.addProvider hr
  | setProvider i p => exact hs.setProvider i hr
  | addObserver o => exact ⟨hs.providers, hs.kept⟩
  | _ => exact hs

/-- What holds of the active effects, and of those that an update would make active, goes on to hold. -/
theorem Host.active_step {h : Host} (hactive : ∀ e ∈ (h.engine.activeEffects u).members, known e)
    (hnext : ∀ e ∈ (h.engine.activeNow (h.subject u)).flatten.members, known e) (r : Request) :
    ∀ e ∈ ((h.step r).engine.activeEffects u).members, known e := by
  intro e he
  rw [step_activeEffects] at he
  cases r with
  | update v =>
    by_cases hv : v = u
    · subst hv
      exact hnext e (by simpa using he)
    · exact hactive e (by simpa [hv] using he)
  | forget v =>
    by_cases hv : v = u
    · simp [hv, EffectSet.empty] at he
    · exact hactive e (by simpa [hv] using he)
  | _ => exact hactive e he

/-- Known effects only are active, and nothing else can come in. -/
structure Host.Knows (known : Effect → Prop) (u : Uuid) (h : Host) : Prop where
  supplied : h.engine.cache.Supplies known u
  active : ∀ e ∈ (h.engine.activeEffects u).members, known e

theorem Host.Knows.step {h : Host} (hk : h.Knows known u) {r : Request} (hr : r.Brings known u) :
    (h.step r).Knows known u where
  supplied := supplies_step hk.supplied hr
  active := active_step hk.active (hk.supplied.activeNow (h.subject_id u)) r

end Ability
