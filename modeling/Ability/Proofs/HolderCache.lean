import Ability.Proofs.Engine

/-! What can come out of a cache for the subjects of one identifier. A resolution gives what is kept or what
the providers answer, and what they answer is what it keeps. -/

namespace Ability

namespace HolderCache

variable {P : List Provision → Prop} {u : Uuid}

theorem slots_of_kept? {c : HolderCache} {r : Resolution} (h : c.kept? u = some r) :
    c.slots.get? u = some (some r) := by
  unfold kept? at h
  split at h
  · cases h
  · cases hu : c.slots.get? u with
    | none => simp [hu] at h
    | some slot => simpa [hu] using h

/-- To ask anew and to forget put nothing into a slot. -/
theorem slots_of_rescan {c : HolderCache} {v : Uuid} {r : Resolution}
    (h : (c.rescan v).slots.get? u = some (some r)) : c.slots.get? u = some (some r) := by
  unfold rescan at h
  split at h
  · rw [Table.get?_insert] at h
    split at h
    · cases Option.some.inj h
    · exact h
  · exact h

theorem slots_of_remove {c : HolderCache} {v : Uuid} {r : Resolution}
    (h : (c.remove v).slots.get? u = some (some r)) : c.slots.get? u = some (some r) := by
  rw [remove, Table.get?_erase] at h
  split at h
  · cases h
  · exact h

theorem rescan_providers (c : HolderCache) (v : Uuid) : (c.rescan v).providers = c.providers := by
  unfold rescan
  split <;> rfl

/-- All providers together, and what is kept, answer with what `P` holds of. -/
structure Yields (P : List Provision → Prop) (u : Uuid) (c : HolderCache) : Prop where
  asked : ∀ s : Subject, s.id = u → P (ask s c.providers).value
  kept : ∀ r, c.slots.get? u = some (some r) → P r.provisions

namespace Yields

variable {g : Engine}

theorem provisions (h : g.cache.Yields P u) {s : Subject} (hs : s.id = u) :
    P (Engine.resolve s g).value.1.provisions := by
  cases hk : g.cache.kept? s.id with
  | some r =>
    rw [Engine.resolve_of_kept hk]
    exact h.kept r (slots_of_kept? (hs ▸ hk))
  | none =>
    rw [Engine.resolve_of_not_kept hk]
    exact h.asked s hs

theorem resolve (h : g.cache.Yields P u) (s : Subject) :
    (Engine.resolve s g).value.2.cache.Yields P u := by
  cases hk : g.cache.kept? s.id with
  | some r =>
    rw [Engine.resolve_of_kept hk]
    exact h
  | none =>
    rw [Engine.resolve_of_not_kept hk]
    refine ⟨h.asked, fun r hr => ?_⟩
    simp only [keep, Table.get?_insert] at hr
    split at hr
    · next hs =>
      obtain rfl := Option.some.inj (Option.some.inj hr)
      exact h.asked s hs
    · exact h.kept r hr

theorem rescan {c : HolderCache} (h : c.Yields P u) (v : Uuid) : (c.rescan v).Yields P u where
  asked s hs := by
    rw [rescan_providers]
    exact h.asked s hs
  kept r hr := h.kept r (slots_of_rescan hr)

theorem remove {c : HolderCache} (h : c.Yields P u) (v : Uuid) : (c.remove v).Yields P u where
  asked := h.asked
  kept r hr := h.kept r (slots_of_remove hr)

end Yields

end HolderCache

end Ability
