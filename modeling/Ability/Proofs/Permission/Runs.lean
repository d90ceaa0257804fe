import Ability.Proofs.Permission.Callbacks
import Ability.Proofs.Permission.Supply

/-! Permissions over whole runs. A subject that is never forgotten and whose grants are left to the effects
has, besides its base permissions, exactly those that its active effects give. -/

namespace Ability

variable {known : Effect → Prop} {u : Uuid}

/-- Known effects are built in, and those that are the same give the same permission. -/
structure Coherent (known : Effect → Prop) : Prop where
  builtin : ∀ e, known e → e.Builtin
  same : ∀ x y, known x → known y → x.id = y.id → x.permission? = y.permission?

/-- What is granted to a subject, and by whom. -/
def Subject.granted (s : Subject) : Option (List (Uuid × String)) := s.sheet.map (·.granted)

/-- A request that leaves the grants of a subject to its effects, and brings in known effects only. -/
def Request.Fair (known : Effect → Prop) (u : Uuid) : Request → Prop
  | .forget v => v ≠ u
  | .change v f => v = u → ∀ sh, (f sh).granted = sh.granted
  | r => r.Brings known u

theorem Request.Fair.brings {r : Request} (h : r.Fair known u) : r.Brings known u := by
  cases r with
  | addProvider p => exact h
  | setProvider i p => exact h
  | _ => trivial

/-- A subject in memory whose grants are what its active effects give. -/
structure Balanced (known : Effect → Prop) (u : Uuid) (h : Host) : Prop where
  supplied : h.engine.cache.Supplies known u
  active : ∀ e ∈ (h.engine.activeEffects u).members, known e
  granted : ∃ sh, (h.subject u).sheet = some sh ∧ sh.Grants (h.engine.activeEffects u)

/-- No built-in effect grants or takes back when it is triggered. -/
theorem granted_kept_by_responses : RespondKeeps Subject.granted :=
  silent_kept_by_responses.comp Subject.granted fun s => by
    simp [Subject.granted, Subject.silent, Subject.modify, Function.comp_def]

/-- A request with which the host itself grants nothing to the subject and takes nothing back from it. -/
def Request.SparesGrants (u : Uuid) : Request → Prop
  | .change v f => v = u → ∀ sh, (f sh).granted = sh.granted
  | _ => True

theorem Request.Fair.sparesGrants {r : Request} (h : r.Fair known u) : r.SparesGrants u := by
  cases r with
  | change v f => exact h
  | _ => trivial

/-- A request other than an update leaves the grants of the subject alone. -/
theorem Host.granted_kept {h : Host} (hactive : ∀ e ∈ (h.engine.activeEffects u).members, e.Builtin) {r : Request}
    (hr : r.SparesGrants u) (hne : r ≠ .update u) : ((h.step r).subject u).granted = (h.subject u).granted := by
  rw [Host.step_subject]
  cases r with
  | update v =>
    have hv : v ≠ u := fun hvu => hne (hvu ▸ rfl)
    simp [hv]
  | dispatch v trigger data =>
    by_cases hv : v = u
    · subst hv
      simp only [if_true]
      exact Engine.dispatch_keeps granted_kept_by_responses _ _ _ _ hactive
    · simp [hv]
  | change v f =>
    by_cases hv : v = u
    · subst hv
      simp [Subject.granted, Subject.modify, Function.comp_def, hr rfl]
    · simp [hv]
  | _ => rfl

theorem granted_step {h : Host} (hk : Coherent known) (hb : Balanced known u h) {r : Request}
    (hr : r.Fair known u) (hne : r ≠ .update u) :
    ((h.step r).subject u).granted = (h.subject u).granted :=
  Host.granted_kept (fun e he => hk.builtin e (hb.active e he)) hr.sparesGrants hne

theorem Balanced.step {h : Host} (hk : Coherent known) (hb : Balanced known u h) {r : Request}
    (hr : r.Fair known u) : Balanced known u (h.step r) := by
  obtain ⟨sh, hsh, hgrants⟩ := hb.granted
  obtain ⟨hsupplied, hknown⟩ := Host.Knows.step ⟨hb.supplied, hb.active⟩ hr.brings
  by_cases hu : r = .update u
  -- the plan of an update leads from the old grants to the new ones
  · subst hu
    have hafter := hb.supplied.activeNow (h.subject_id u)
    have hactive := h.step_activeEffects (.update u) u
    have hsubject := h.step_subject (.update u) u
    simp only [if_true] at hactive hsubject
    rw [Engine.performed_subject (fun e he => hk.builtin e (hb.active e he))
      (fun e he => hk.builtin e (hafter e he))] at hsubject
    refine ⟨hsupplied, hknown, ?_⟩
    rw [hactive, hsubject]
    refine ⟨_, congrArg (Option.map _) hsh, hgrants.plan ?_⟩
    exact fun x hx y hy => hk.same x y (hb.active x hx) (hafter y hy)
  -- every other request leaves both the active set and the grants as they are
  · have hactive : (h.step r).engine.activeEffects u = h.engine.activeEffects u := by
      rw [Host.step_activeEffects]
      cases r with
      | update v =>
        have hv : v ≠ u := fun hvu => hu (hvu ▸ rfl)
        simp [hv]
      | forget v => simp [show v ≠ u from hr]
      | _ => rfl
    have hgranted := granted_step hk hb hr hu
    rw [Subject.granted, Subject.granted, hsh] at hgranted
    obtain ⟨sh', hsh', he⟩ := Option.map_eq_some_iff.mp hgranted
    refine ⟨hsupplied, hknown, sh', hsh', ?_⟩
    rw [hactive]
    exact fun i p => he ▸ hgrants i p

theorem hasPermission_iff {s : Subject} {sh : Sheet} {active : EffectSet} (hs : s.sheet = some sh)
    (hg : sh.Grants active) (p : String) :
    s.hasPermission p = true ↔ p ∈ sh.base ∨ ∃ e ∈ active.members, e.permission? = some p := by
  have hgiven : (∃ i, (i, p) ∈ sh.granted) ↔ ∃ e ∈ active.members, e.permission? = some p := by
    constructor
    · rintro ⟨i, hx⟩
      obtain ⟨e, he, -, hp⟩ := (hg i p).mp hx
      exact ⟨e, he, hp⟩
    · rintro ⟨e, he, hp⟩
      exact ⟨e.id, (hg e.id p).mpr ⟨e, he, rfl, hp⟩⟩
  have hsheet : s.hasPermission p = sh.hasPermission p := by simp [Subject.hasPermission, hs]
  rw [hsheet, Sheet.hasPermission_iff_mem, hgiven]

/-- Nothing is kept of the subject yet, nothing has been granted to it, and providers bring in known effects
only. -/
structure Host.Starts (known : Effect → Prop) (u : Uuid) (h : Host) : Prop where
  inactive : h.engine.states.get? u = none
  uncached : h.engine.cache.slots.get? u = none
  providers : ∀ p ∈ h.engine.cache.providers, Brings known u p
  ungranted : ∃ sh, (h.subject u).sheet = some sh ∧ sh.granted = []

theorem Host.Starts.balanced {h : Host} (hs : h.Starts known u) : Balanced known u h := by
  have hempty : h.engine.activeEffects u = .empty := by simp [Engine.activeEffects, hs.inactive]
  obtain ⟨sh, hsh, hg⟩ := hs.ungranted
  refine ⟨⟨hs.providers, by simp [hs.uncached]⟩, by simp [hempty, EffectSet.empty], sh, hsh, ?_⟩
  intro i p
  simp [hg, hempty, EffectSet.empty]

/-- After every run a subject has its base permissions and those that its active effects give, and no
others; and only its updates change what is granted to it. -/
theorem permissions_follow_active_effects (hk : Coherent known) {h : Host} (hs : h.Starts known u)
    {rs : List Request} (hrs : ∀ r ∈ rs, r.Fair known u) :
    (∃ sh, ((h.after rs).subject u).sheet = some sh ∧
      ∀ p, ((h.after rs).subject u).hasPermission p = true ↔
        p ∈ sh.base ∨ ∃ e ∈ ((h.after rs).engine.activeEffects u).members, e.permission? = some p) ∧
    ∀ r, r.Fair known u → r ≠ .update u →
      (((h.after rs).step r).subject u).granted = ((h.after rs).subject u).granted := by
  have hb : Balanced known u (h.after rs) :=
    Host.after_induction hs.balanced (fun _ _ hr hb => hb.step hk hr) hrs
  obtain ⟨sh, hsh, hg⟩ := hb.granted
  exact ⟨⟨sh, hsh, hasPermission_iff hsh hg⟩, fun r hr hne => granted_step hk hb hr hne⟩

/-- A host before its first request. -/
def Host.bare : Host where
  engine := Engine.new .builtin .arithmetic 0
  subjects := fun u => .inMemory u "s"

def givers : List Effect := [giver ⟨7⟩ "fly", giver ⟨8⟩ "fly"]

/-- Two effects are lent and become active, then only the second. -/
def withdrawal : List Request :=
  [.addProvider fun _ => pure [.of ⟨"h", givers, []⟩], .update ⟨1⟩,
    .setProvider 0 fun _ => pure [.of ⟨"h", givers.tail, []⟩], .update ⟨1⟩]

/-- A permission that two effects give stays while one of them is active. -/
theorem permissions_follow_active_effects_shared :
    Coherent (· ∈ givers) ∧ Host.bare.Starts (· ∈ givers) ⟨1⟩ ∧
      (∀ r ∈ withdrawal, r.Fair (· ∈ givers) ⟨1⟩) ∧
      ((Host.bare.after withdrawal).subject ⟨1⟩).hasPermission "fly" = true := by
  have hgivers : ∀ e ∈ givers, e.Builtin ∧ e.permission? = some "fly" := by
    simp only [givers, List.forall_mem_cons]
    have hkind := Builtin.leaf_mem_effects.mpr (.inl rfl)
    exact ⟨⟨hkind, rfl⟩, ⟨hkind, rfl⟩, fun _ he => absurd he List.not_mem_nil⟩
  have hk : Coherent (· ∈ givers) :=
    ⟨fun e he => (hgivers e he).1,
      fun x y hx hy _ => (hgivers x hx).2.trans (hgivers y hy).2.symm⟩
  have hs : Host.bare.Starts (· ∈ givers) ⟨1⟩ :=
    ⟨rfl, rfl, fun _ hp => absurd hp List.not_mem_nil, _, rfl, rfl⟩
  have hrs : ∀ r ∈ withdrawal, r.Fair (· ∈ givers) ⟨1⟩ := by
    simp only [withdrawal, List.forall_mem_cons, Request.Fair, Request.Brings, Brings, Lends]
    refine ⟨?_, trivial, ?_, trivial, fun _ hr => absurd hr List.not_mem_nil⟩
    · rintro s - p hp e he
      obtain rfl := List.mem_singleton.mp hp
      exact he
    · rintro s - p hp e he
      obtain rfl := List.mem_singleton.mp hp
      exact List.mem_of_mem_tail he
  obtain ⟨⟨sh, -, hp⟩, -⟩ := permissions_follow_active_effects hk hs hrs
  have hactive : ((Host.bare.after withdrawal).engine.activeEffects ⟨1⟩).members = [giver ⟨8⟩ "fly"] :=
    rfl
  refine ⟨hk, hs, hrs, (hp "fly").mpr (.inr ⟨giver ⟨8⟩ "fly", ?_, rfl⟩)⟩
  rw [hactive]
  exact List.mem_singleton.mpr rfl

end Ability
