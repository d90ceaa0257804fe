import Ability.Subject

/-! What changes of its permissions do to a sheet: those of the base leave the grants alone and grants the base, and
what a source takes back is what it granted itself. -/

namespace Ability

namespace Sheet

variable {sh : Sheet} {i : Uuid} {p q : String} {x : Uuid × String}

theorem hasPermission_iff_mem : sh.hasPermission p = true ↔ p ∈ sh.base ∨ ∃ i, (i, p) ∈ sh.granted := by
  simp [hasPermission]

theorem mem_addBase : q ∈ (sh.addBase p).base ↔ q = p ∨ q ∈ sh.base := by
  unfold addBase
  split
  · next hp =>
    refine ⟨.inr, fun h => h.elim (fun heq => ?_) id⟩
    simpa [heq] using hp
  · exact List.mem_cons

theorem mem_removeBase : q ∈ (sh.removeBase p).base ↔ q ∈ sh.base ∧ q ≠ p := by
  simp [removeBase]

theorem mem_granted_grant : x ∈ (sh.grant i p).granted ↔ x = (i, p) ∨ x ∈ sh.granted := by
  unfold grant
  split
  · next h =>
    have hmem : (i, p) ∈ sh.granted := by simpa using h
    exact ⟨.inr, fun hx => hx.elim (fun e => e ▸ hmem) id⟩
  · exact List.mem_cons

theorem mem_granted_revoke : x ∈ (sh.revoke i).granted ↔ x ∈ sh.granted ∧ x.1 ≠ i := by
  simp [revoke]

@[simp] theorem addBase_granted (sh : Sheet) (p : String) : (sh.addBase p).granted = sh.granted := by
  unfold addBase
  split <;> rfl

@[simp] theorem removeBase_granted (sh : Sheet) (p : String) : (sh.removeBase p).granted = sh.granted := rfl

@[simp] theorem grant_base (sh : Sheet) (i : Uuid) (p : String) : (sh.grant i p).base = sh.base := by
  unfold grant
  split <;> rfl

@[simp] theorem revoke_base (sh : Sheet) (i : Uuid) : (sh.revoke i).base = sh.base := rfl

@[simp] theorem grant_attributes (sh : Sheet) (i : Uuid) (p : String) :
    (sh.grant i p).attributes = sh.attributes := by
  unfold grant
  split <;> rfl

end Sheet

end Ability
