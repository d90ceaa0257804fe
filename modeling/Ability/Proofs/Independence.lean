import Ability.Proofs.Cache.History
import Ability.Proofs.Permission.Callbacks

/-! Subjects of one engine do not notice each other. What the requests about a subject read and write is its
own share of the host; requests about others leave that alone. So in a run that interleaves the requests about
two subjects, each of them is answered as in a run of its own requests alone. -/

namespace Ability

/-- The third list is made of the first two, each in its own order. -/
inductive Interleaved {α : Type} : List α → List α → List α → Prop
  | nil : Interleaved [] [] []
  | left {a : α} {as bs cs : List α} (rest : Interleaved as bs cs) : Interleaved (a :: as) bs (a :: cs)
  | right {b : α} {as bs cs : List α} (rest : Interleaved as bs cs) : Interleaved as (b :: bs) (b :: cs)

namespace Interleaved

variable {α : Type} {as bs cs : List α}

theorem symm (h : Interleaved as bs cs) : Interleaved bs as cs := by
  induction h with
  | nil => exact .nil
  | left _ ih => exact .right ih
  | right _ ih => exact .left ih

theorem mem (h : Interleaved as bs cs) {c : α} (hc : c ∈ cs) : c ∈ as ∨ c ∈ bs := by
  induction h with
  | nil => exact absurd hc List.not_mem_nil
  | left _ ih =>
    rcases List.mem_cons.mp hc with rfl | hc
    · exact .inl (List.mem_cons_self ..)
    · exact (ih hc).imp_left (List.mem_cons_of_mem _)
  | right _ ih =>
    rcases List.mem_cons.mp hc with rfl | hc
    · exact .inr (List.mem_cons_self ..)
    · exact (ih hc).imp_right (List.mem_cons_of_mem _)

theorem filter_eq (h : Interleaved as bs cs) {p : α → Bool} (has : ∀ a ∈ as, p a = true)
    (hbs : ∀ b ∈ bs, p b = false) : cs.filter p = as := by
  induction h with
  | nil => rfl
  | left _ ih =>
    obtain ⟨ha, has⟩ := List.forall_mem_cons.mp has
    rw [List.filter_cons_of_pos ha, ih has hbs]
  | right _ ih =>
    obtain ⟨hb, hbs⟩ := List.forall_mem_cons.mp hbs
    rw [List.filter_cons_of_neg (by simp [hb]), ih has hbs]

end Interleaved

/-- The subject that a request is about. Who lends is a matter of all subjects, and so are the draws and turns
that a dispatch takes. -/
def Request.owner : Request → Option Uuid
  | .resolve u | .compute u | .update u | .rescan u | .uncache u | .forget u | .change u _ => some u
  | .dispatch .. | .addProvider _ | .setProvider .. | .addObserver _ => none

/-- A reply without the number that tells one answer of the providers from another. -/
def Reply.unnumbered : Reply → Reply
  | .resolved a => .resolved { a with number := 0 }
  | r => r

theorem Made.unique {ev : Evaluator} {s t t' : Subject} {cs cs' : List Call} (h : Made ev s cs t)
    (h' : Made ev s cs' t') (htargets : cs.map Call.target = cs'.map Call.target) : cs = cs' ∧ t = t' := by
  induction h generalizing cs' t' with
  | nil s =>
    cases h' with
    | nil => exact ⟨rfl, rfl⟩
    | cons => cases htargets
  | @cons s t u c cs hcall _ ih =>
    cases h' with
    | nil => cases htargets
    | @cons _ t₁ _ c₁ cs₁ hcall₁ hrest₁ =>
      obtain ⟨htarget, hrest⟩ := List.cons.inj htargets
      obtain ⟨phase, e, outcome⟩ := c
      obtain ⟨phase₁, e₁, outcome₁⟩ := c₁
      obtain ⟨rfl, rfl⟩ := Prod.mk.inj htarget
      obtain ⟨rfl, rfl⟩ := Prod.mk.inj (hcall.symm.trans hcall₁)
      obtain ⟨rfl, rfl⟩ := ih hrest₁ hrest
      exact ⟨rfl, rfl⟩

/-- The callbacks of an update and what they make of the subject do not depend on what else is counted. -/
theorem Engine.performed_eq {g g' : Engine} {s : Subject} (hev : g.evaluator = g'.evaluator)
    (hactive : g.activeEffects s.id = g'.activeEffects s.id) (hnow : g.activeNow s = g'.activeNow s) :
    (g.performed s).1 = (g'.performed s).1 ∧ (g.performed s).2.subject = (g'.performed s).2.subject := by
  have h := g.performed_made s
  have h' := g'.performed_made s
  rw [← hev] at h'
  refine h.unique h' ?_
  rw [performed_targets, performed_targets, hactive, hnow]

namespace Host

/-- What a host has of one subject, and what it asks about it. -/
structure Share where
  subject : Subject
  state : Option SubjectState
  kept : Option (Option (List Provision))
  evaluator : Evaluator
  providers : List Provider
  lifetime : Nat

variable {h k : Host} {u : Uuid} {r : Request}

def share (h : Host) (u : Uuid) : Share where
  subject := h.subject u
  state := h.engine.states.get? u
  kept := (h.slot? u).map (Option.map Resolution.provisions)
  evaluator := h.engine.evaluator
  providers := h.engine.cache.providers
  lifetime := h.engine.cache.lifetime

/-- What is seen of a subject when a request about it is served: the reply, whether the cache had an answer
for the subject, and then what is active, from whom, and the subject itself. -/
structure Sight where
  reply : Reply
  hit : Bool
  active : EffectSet
  provided : ActiveSet
  subject : Subject

def sight (h : Host) (u : Uuid) (r : Request) : Sight where
  reply := (h.reply r).unnumbered
  hit := (h.engine.cache.kept? u).isSome
  active := (h.step r).engine.activeEffects u
  provided := (h.step r).engine.providedActiveEffects u
  subject := (h.step r).subject u

def sights (u : Uuid) : Host → List Request → List (Request × Sight)
  | _, [] => []
  | h, r :: rs =>
    if r.owner = some u then (r, h.sight u r) :: sights u (h.step r) rs else sights u (h.step r) rs

theorem sight_hit_iff : (h.sight u r).hit = true ↔ ∃ a, h.Hits u a := by
  have hhits : ∀ a, h.Hits u a ↔ h.engine.cache.kept? u = some a := fun _ => Engine.hits_iff
  simp only [sight, hhits, Option.isSome_iff_exists]

theorem step_evaluator (h : Host) (r : Request) : (h.step r).engine.evaluator = h.engine.evaluator := by
  cases r with
  | resolve u => exact Engine.resolve_evaluator ..
  | compute u =>
    change ((Engine.computeActive (h.subject u) h.engine).value.2).evaluator = _
    rw [Engine.computeActive_value]
    exact Engine.resolve_evaluator ..
  | update u =>
    change ((Engine.transition (h.subject u) h.engine).value.2).evaluator = _
    rw [Engine.transition_value]
    exact Engine.resolve_evaluator ..
  | dispatch u trigger data =>
    change ((Engine.dispatch (h.subject u) trigger data h.engine).value.2).evaluator = _
    rw [Engine.dispatch_frame]
  | _ => rfl

theorem step_providers (hr : r.owner = some u) (h : Host) :
    (h.step r).engine.cache.providers = h.engine.cache.providers := by
  obtain ⟨slots, answers, hcache⟩ := h.step_frame r
  rw [hcache]
  cases r with
  | dispatch | addProvider | setProvider | addObserver => cases hr
  | _ => rfl

theorem share_step_of_other {v : Uuid} (hr : r.owner = some v) (hv : v ≠ u) (h : Host) :
    (h.step r).share u = h.share u := by
  have hslot : (h.step r).slot? u = h.slot? u := by
    refine step_slot_of_others ?_ ?_ h
    · rintro (rfl | rfl | rfl) <;> exact hv (Option.some.inj hr).symm
    · rintro (rfl | rfl | rfl) <;> exact hv (Option.some.inj hr).symm
  have hsubject : (h.step r).subject u = h.subject u := by
    rw [step_subject]
    cases r with
    | dispatch => cases hr
    | update w | change w f =>
      obtain rfl : w = v := Option.some.inj hr
      exact if_neg hv
    | _ => rfl
  have hstate : (h.step r).engine.states.get? u = h.engine.states.get? u := by
    rw [step_states]
    cases r with
    | update w | forget w =>
      obtain rfl : w = v := Option.some.inj hr
      exact if_neg hv
    | _ => rfl
  simp only [share, hslot, hsubject, hstate, step_evaluator, step_providers hr, step_lifetime]

namespace Share

theorem subject_eq (hs : h.share u = k.share u) : h.subject u = k.subject u := congrArg subject hs

theorem activeEffects_eq (hs : h.share u = k.share u) :
    h.engine.activeEffects u = k.engine.activeEffects u := by
  have hstate : h.engine.states.get? u = k.engine.states.get? u := congrArg state hs
  simp only [Engine.activeEffects, hstate]

theorem providedActiveEffects_eq (hs : h.share u = k.share u) :
    h.engine.providedActiveEffects u = k.engine.providedActiveEffects u := by
  have hstate : h.engine.states.get? u = k.engine.states.get? u := congrArg state hs
  simp only [Engine.providedActiveEffects, hstate]

theorem kept?_eq (hs : h.share u = k.share u) :
    (h.engine.cache.kept? u).map Resolution.provisions =
      (k.engine.cache.kept? u).map Resolution.provisions := by
  have hlifetime : h.engine.cache.lifetime = k.engine.cache.lifetime := congrArg lifetime hs
  have hkept : (h.slot? u).map (Option.map Resolution.provisions) =
      (k.slot? u).map (Option.map Resolution.provisions) := congrArg kept hs
  unfold HolderCache.kept?
  rw [hlifetime]
  split
  · rfl
  · rw [← Option.join_map_eq_map_join, ← Option.join_map_eq_map_join]
    exact congrArg Option.join hkept

theorem hit_eq (hs : h.share u = k.share u) :
    (h.engine.cache.kept? u).isSome = (k.engine.cache.kept? u).isSome := by
  rw [← Option.isSome_map (f := Resolution.provisions), kept?_eq hs, Option.isSome_map]

theorem provisions_eq (hs : h.share u = k.share u) :
    (h.answer u).provisions = (k.answer u).provisions := by
  have hkept := kept?_eq hs
  have hproviders : h.engine.cache.providers = k.engine.cache.providers := congrArg providers hs
  unfold answer
  cases hh : h.engine.cache.kept? u with
  | some a =>
    rw [hh] at hkept
    obtain ⟨b, hk, hab⟩ := Option.map_eq_some_iff.mp hkept.symm
    rw [Engine.resolve_of_kept hh, Engine.resolve_of_kept hk]
    exact hab.symm
  -- then both ask, the same providers about the same subject
  | none =>
    rw [hh] at hkept
    have hk : k.engine.cache.kept? u = none := Option.map_eq_none_iff.mp hkept.symm
    rw [(Engine.misses_of_not_kept hh).answer, (Engine.misses_of_not_kept hk).answer, hproviders,
      subject_eq hs]

theorem activeNow_eq (hs : h.share u = k.share u) :
    h.engine.activeNow (h.subject u) = k.engine.activeNow (k.subject u) := by
  have hprovisions := provisions_eq hs
  have hev : h.engine.evaluator = k.engine.evaluator := congrArg evaluator hs
  unfold answer at hprovisions
  rw [Engine.activeNow_eq, Engine.activeNow_eq, hprovisions, hev, subject_eq hs]

theorem performed_eq (hs : h.share u = k.share u) :
    (h.engine.performed (h.subject u)).1 = (k.engine.performed (k.subject u)).1 ∧
      (h.engine.performed (h.subject u)).2.subject = (k.engine.performed (k.subject u)).2.subject := by
  have hnow := activeNow_eq hs
  rw [subject_eq hs] at hnow ⊢
  exact Engine.performed_eq (congrArg evaluator hs) (activeEffects_eq hs) hnow

theorem reply_eq (hs : h.share u = k.share u) (hr : r.owner = some u) :
    (h.reply r).unnumbered = (k.reply r).unnumbered := by
  cases r with
  | dispatch | addProvider | setProvider | addObserver => cases hr
  | resolve v =>
    obtain rfl : v = u := Option.some.inj hr
    exact congrArg (fun ps => Reply.resolved ⟨0, ps⟩) (provisions_eq hs)
  | compute v =>
    obtain rfl : v = u := Option.some.inj hr
    exact congrArg Reply.computed (activeNow_eq hs)
  | update v =>
    obtain rfl : v = u := Option.some.inj hr
    rw [reply_update, reply_update, activeEffects_eq hs, activeNow_eq hs, (performed_eq hs).1]
  | _ => rfl

theorem step (hs : h.share u = k.share u) (hr : r.owner = some u) :
    (h.step r).share u = (k.step r).share u := by
  have hsubject : (h.step r).subject u = (k.step r).subject u := by
    rw [step_subject, step_subject]
    cases r with
    | dispatch => cases hr
    | update v =>
      obtain rfl : v = u := Option.some.inj hr
      simp only [if_true, (performed_eq hs).2]
    | change v f =>
      obtain rfl : v = u := Option.some.inj hr
      simp only [if_true, subject_eq hs]
    | _ => exact subject_eq hs
  have hstate : (h.step r).engine.states.get? u = (k.step r).engine.states.get? u := by
    rw [step_states, step_states]
    cases r with
    | update v =>
      obtain rfl : v = u := Option.some.inj hr
      simp only [if_true, activeNow_eq hs]
    | forget v =>
      obtain rfl : v = u := Option.some.inj hr
      simp only [if_true]
    | _ => exact congrArg state hs
  have hkept : ((h.step r).slot? u).map (Option.map Resolution.provisions) =
      ((k.step r).slot? u).map (Option.map Resolution.provisions) := by
    have hbefore : (h.slot? u).map (Option.map Resolution.provisions) =
        (k.slot? u).map (Option.map Resolution.provisions) := congrArg kept hs
    by_cases hres : r.Resolves u
    · rw [step_slot_of_resolves hres, step_slot_of_resolves hres]
      exact congrArg (fun ps => some (some ps)) (provisions_eq hs)
    by_cases hrem : r.Removes u
    · rw [step_slot_of_removes hrem, step_slot_of_removes hrem]
    by_cases hscan : r = .rescan u
    -- a slot that is there is emptied, whatever it holds
    · subst hscan
      have hthere := congrArg (Option.map fun _ => (none : Option (List Provision))) hbefore
      rw [step_slot_of_rescan, step_slot_of_rescan]
      simpa only [Option.map_map, Function.comp_def, Option.map_none] using hthere
    · have hdrop : ¬ r.Drops u := fun hd => hd.elim hscan hrem
      rw [step_slot_of_others hres hdrop, step_slot_of_others hres hdrop]
      exact hbefore
  have hev : h.engine.evaluator = k.engine.evaluator := congrArg evaluator hs
  have hproviders : h.engine.cache.providers = k.engine.cache.providers := congrArg providers hs
  have hlifetime : h.engine.cache.lifetime = k.engine.cache.lifetime := congrArg lifetime hs
  simp only [share, hsubject, hstate, hkept, step_evaluator, step_providers hr, step_lifetime, hev,
    hproviders, hlifetime]

theorem sight_eq (hs : h.share u = k.share u) (hr : r.owner = some u) : h.sight u r = k.sight u r := by
  have hnext := step hs hr
  simp only [sight, reply_eq hs hr, hit_eq hs, activeEffects_eq hnext, providedActiveEffects_eq hnext,
    subject_eq hnext]

/-- In a run of requests about any number of subjects, each subject is seen as in the run of the requests
about it alone. -/
theorem run {rs : List Request} (hrs : ∀ r ∈ rs, r.owner ≠ none) (hs : h.share u = k.share u) :
    h.sights u rs = k.sights u (rs.filter (·.owner = some u)) ∧
      (h.after rs).share u = (k.after (rs.filter (·.owner = some u))).share u := by
  induction rs generalizing h k with
  | nil => exact ⟨rfl, hs⟩
  | cons r rs ih =>
    obtain ⟨hr, hrs⟩ := List.forall_mem_cons.mp hrs
    by_cases hown : r.owner = some u
    · obtain ⟨hsights, hshare⟩ := ih hrs (step hs hown)
      rw [List.filter_cons_of_pos (by simpa using hown)]
      simp only [sights, if_pos hown, sight_eq hs hown, hsights, true_and]
      exact hshare
    · obtain ⟨v, hv⟩ := Option.ne_none_iff_exists'.mp hr
      have hvu : v ≠ u := fun hvu => hown (hvu ▸ hv)
      rw [List.filter_cons_of_neg (by simpa using hown)]
      simp only [sights, if_neg hown]
      exact ih hrs ((share_step_of_other hv hvu h).trans hs)

end Share

end Host

open Host

/-- However the requests about two subjects are interleaved, each of the subjects gets the replies that its own
requests alone would get, with the same hits and misses of the cache, the same effects active from the same
holders, and the same permissions along the way and at the end. -/
theorem subjects_are_independent {u v : Uuid} (huv : u ≠ v) (h : Host) {as bs rs : List Request}
    (has : ∀ r ∈ as, r.owner = some u) (hbs : ∀ r ∈ bs, r.owner = some v) (hrs : Interleaved as bs rs) :
    (∀ (k : Host) (w : Uuid) (r : Request), (k.sight w r).hit = true ↔ ∃ a, k.Hits w a) ∧
    (h.sights u rs = h.sights u as ∧ (h.after rs).share u = (h.after as).share u) ∧
    (h.sights v rs = h.sights v bs ∧ (h.after rs).share v = (h.after bs).share v) := by
  have howned : ∀ r ∈ rs, r.owner ≠ none := by
    intro r hr
    rcases hrs.mem hr with hr | hr
    · simp [has r hr]
    · simp [hbs r hr]
  have hleft : rs.filter (·.owner = some u) = as :=
    hrs.filter_eq (fun r hr => by simp [has r hr]) fun r hr => by simp [hbs r hr, huv.symm]
  have hright : rs.filter (·.owner = some v) = bs :=
    hrs.symm.filter_eq (fun r hr => by simp [hbs r hr]) fun r hr => by simp [has r hr, huv]
  have hu := Share.run (u := u) howned (rfl : h.share u = h.share u)
  have hv := Share.run (u := v) howned (rfl : h.share v = h.share v)
  rw [hleft] at hu
  rw [hright] at hv
  exact ⟨fun _ _ _ => sight_hit_iff, hu, hv⟩

/-- A host that keeps answers, and lends everyone an effect that gives a permission. -/
def Host.generous : Host :=
  (Host.lending [giver ⟨7⟩ "fly"]).adjust fun c => { c with lifetime := HolderCache.defaultLifetime }

def stays : List Request := [.update ⟨1⟩, .rescan ⟨1⟩, .update ⟨1⟩, .compute ⟨1⟩]

def leaves : List Request := [.update ⟨2⟩, .forget ⟨2⟩, .change ⟨2⟩ (·.addBase "swim")]

def together : List Request :=
  [.update ⟨1⟩, .update ⟨2⟩, .rescan ⟨1⟩, .forget ⟨2⟩, .update ⟨1⟩, .change ⟨2⟩ (·.addBase "swim"),
    .compute ⟨1⟩]

/-- One subject is forgotten while the other is asked about again; each has the hits, the misses and the
permissions that it has alone. -/
theorem subjects_are_independent_neighbours :
    (⟨1⟩ : Uuid) ≠ ⟨2⟩ ∧ (∀ r ∈ stays, r.owner = some ⟨1⟩) ∧ (∀ r ∈ leaves, r.owner = some ⟨2⟩) ∧
      Interleaved stays leaves together ∧
      (generous.sights ⟨1⟩ stays).map (·.2.hit) = [false, true, false, true] ∧
      (generous.sights ⟨2⟩ leaves).map (·.2.hit) = [false, true, false] ∧
      ((generous.after stays).subject ⟨1⟩).hasPermission "swim" = false ∧
      ((generous.after leaves).subject ⟨2⟩).hasPermission "fly" = true := by
  have hne : (⟨1⟩ : Uuid) ≠ ⟨2⟩ := by decide
  have hstays : ∀ r ∈ stays, r.owner = some ⟨1⟩ := by
    simp only [stays, List.forall_mem_cons, Request.owner, true_and]
    exact fun _ hr => absurd hr List.not_mem_nil
  have hleaves : ∀ r ∈ leaves, r.owner = some ⟨2⟩ := by
    simp only [leaves, List.forall_mem_cons, Request.owner, true_and]
    exact fun _ hr => absurd hr List.not_mem_nil
  have htogether : Interleaved stays leaves together :=
    .left (.right (.left (.right (.left (.right (.left .nil))))))
  obtain ⟨-, ⟨hfirst, hfirst'⟩, hsecond, hsecond'⟩ :=
    subjects_are_independent hne generous hstays hleaves htogether
  refine ⟨hne, hstays, hleaves, htogether, ?_, ?_, ?_, ?_⟩
  · rw [← hfirst]
    rfl
  · rw [← hsecond]
    rfl
  · rw [← Share.subject_eq hfirst']
    rfl
  · rw [← Share.subject_eq hsecond']
    rfl

end Ability
