import Ability.Proofs.Cache.Resolution
import Ability.Proofs.Host
import Ability.Proofs.Standing
import Mathlib.Data.Set.Card

/-! The cache over whole runs. Which resolutions are hits can be told from the requests alone: what a subject
was last answered is kept until it is rescanned or removed, whatever is asked about other subjects and whoever
is registered meanwhile. -/

namespace Ability

namespace Request

def Resolves (u : Uuid) (r : Request) : Prop := r = .resolve u ∨ r = .compute u ∨ r = .update u

/-- Requests that remove what is kept of the subject, and its slot with it. -/
def Removes (u : Uuid) (r : Request) : Prop := r = .uncache u ∨ r = .forget u

/-- Requests after which nothing is kept of the subject. -/
def Drops (u : Uuid) (r : Request) : Prop := r = .rescan u ∨ r.Removes u

/-- The cache once the request has registered what it brings: a provider, one in the place of another, or an
observer. -/
def register (c : HolderCache) : Request → HolderCache
  | .addProvider p => c.addProvider p
  | .setProvider i p => c.setProvider i p
  | .addObserver o => c.addObserver o
  | _ => c

/-- A request of the first kind was made, and none of the second kind after it. -/
def Since (P Q : Request → Prop) (rs : List Request) : Prop :=
  ∃ pre q post, rs = pre ++ q :: post ∧ P q ∧ ∀ r ∈ post, ¬ Q r

variable {P Q : Request → Prop} {u : Uuid} {r : Request} {rs : List Request}

theorem not_since_nil : ¬ Since P Q [] := Stands.not_nil

theorem since_concat : Since P Q (rs ++ [r]) ↔ P r ∨ Since P Q rs ∧ ¬ Q r := Stands.concat

end Request

open Request

namespace Host

variable {h : Host} {u : Uuid} {a : Resolution} {r : Request} {rs : List Request}

def answer (h : Host) (u : Uuid) : Resolution := (Engine.resolve (h.subject u) h.engine).value.1

def Hits (h : Host) (u : Uuid) (a : Resolution) : Prop := h.engine.Hits (h.subject u) a

def Misses (h : Host) (u : Uuid) : Prop := h.engine.Misses (h.subject u)

def slot? (h : Host) (u : Uuid) : Option (Option Resolution) := h.engine.cache.slots.get? u

theorem hits_of_slot (hl : h.engine.cache.lifetime ≠ 0) (hs : h.slot? u = some (some a)) : h.Hits u a :=
  Engine.hits_of_kept (Engine.kept?_of_slot hl hs)

theorem slot_of_hits (hh : h.Hits u a) : h.slot? u = some (some a) :=
  HolderCache.slots_of_kept? (Engine.hits_iff.mp hh)

theorem Hits.lifetime (hh : h.Hits u a) : h.engine.cache.lifetime ≠ 0 := by
  intro hl
  have hk := Engine.hits_iff.mp hh
  simp [HolderCache.kept?, hl] at hk

theorem Hits.answer_eq (hh : h.Hits u a) : h.answer u = a := congrArg (·.1) hh.outcome

theorem misses_iff : h.Misses u ↔ ¬ ∃ a, h.Hits u a := by
  constructor
  · rintro hm ⟨a, hh⟩
    exact hh.not_misses hm
  · intro hno
    apply Engine.misses_of_not_kept
    cases hk : h.engine.cache.kept? (h.subject u).id with
    | some a => exact absurd ⟨a, Engine.hits_of_kept hk⟩ hno
    | none => rfl

theorem step_slot_of_resolves (hr : r.Resolves u) (h : Host) :
    (h.step r).slot? u = some (some (h.answer u)) := by
  have hcache : (h.step r).engine.cache = (Engine.resolve (h.subject u) h.engine).value.2.cache := by
    rcases hr with rfl | rfl | rfl <;> exact h.step_cache _
  rw [slot?, hcache, Engine.resolve_slots, subject_id, if_pos rfl]
  rfl

theorem step_slot_of_removes (hr : r.Removes u) (h : Host) : (h.step r).slot? u = none := by
  have hcache : (h.step r).engine.cache = h.engine.cache.remove u := by
    rcases hr with rfl | rfl <;> exact h.step_cache _
  rw [slot?, hcache]
  exact (Table.get?_erase ..).trans (if_pos rfl)

theorem rescan_slot (c : HolderCache) (u v : Uuid) :
    (c.rescan u).slots.get? v =
      if u = v then (c.slots.get? v).map fun _ => none else c.slots.get? v := by
  unfold HolderCache.rescan
  split
  · next hc =>
    rw [Table.get?_insert]
    split
    · next huv =>
      obtain ⟨x, hx⟩ := Option.isSome_iff_exists.mp hc
      rw [← huv, hx]
      rfl
    · rfl
  · next hc =>
    split
    · next huv =>
      have hnone : c.slots.get? u = none := by simpa [Table.contains] using hc
      rw [← huv, hnone]
      rfl
    · rfl

theorem step_slot_of_rescan (h : Host) (u : Uuid) :
    (h.step (.rescan u)).slot? u = (h.slot? u).map fun _ => none :=
  (rescan_slot ..).trans (if_pos rfl)

theorem step_slot_of_drops (hr : r.Drops u) (h : Host) : (h.step r).slot? u ≠ some (some a) := by
  rcases hr with rfl | hr
  · rw [step_slot_of_rescan]
    cases h.slot? u <;> simp
  · rw [step_slot_of_removes hr]
    simp

/-- Only its own resolutions, rescans and removals touch the slot of a subject. -/
theorem step_slot_of_others (hr : ¬ r.Resolves u) (hd : ¬ r.Drops u) (h : Host) :
    (h.step r).slot? u = h.slot? u := by
  have hcache := congrArg (·.slots.get? u) (h.step_cache r)
  refine Eq.trans hcache ?_
  have hresolve : ∀ v, v ≠ u →
      (Engine.resolve (h.subject v) h.engine).value.2.cache.slots.get? u = h.slot? u := by
    intro v hv
    rw [Engine.resolve_slots, subject_id, if_neg hv]
    rfl
  have hremove : ∀ v, v ≠ u → (h.engine.cache.remove v).slots.get? u = h.slot? u := by
    intro v hv
    exact (Table.get?_erase ..).trans (if_neg hv)
  cases r with
  | resolve v => exact hresolve v fun hv => hr (.inl (hv ▸ rfl))
  | compute v => exact hresolve v fun hv => hr (.inr (.inl (hv ▸ rfl)))
  | update v => exact hresolve v fun hv => hr (.inr (.inr (hv ▸ rfl)))
  | rescan v =>
    refine (rescan_slot ..).trans (if_neg ?_)
    exact fun hv => hd (.inl (hv ▸ rfl))
  | uncache v => exact hremove v fun hv => hd (.inr (.inl (hv ▸ rfl)))
  | forget v => exact hremove v fun hv => hd (.inr (.inr (hv ▸ rfl)))
  | _ => rfl

theorem after_concat (h : Host) (rs : List Request) (r : Request) :
    h.after (rs ++ [r]) = (h.after rs).step r := h.after_append rs [r]

theorem rescan_frame (c : HolderCache) (u : Uuid) : ∃ slots, c.rescan u = { c with slots } := by
  unfold HolderCache.rescan
  split
  · exact ⟨_, rfl⟩
  · exact ⟨_, rfl⟩

theorem step_frame (h : Host) (r : Request) : ∃ slots answers,
    (h.step r).engine.cache = { r.register h.engine.cache with slots, answers } := by
  rw [step_cache]
  cases r with
  | resolve v => exact Engine.resolve_cache_frame ..
  | compute v => exact Engine.resolve_cache_frame ..
  | update v => exact Engine.resolve_cache_frame ..
  | rescan v =>
    obtain ⟨slots, hslots⟩ := rescan_frame h.engine.cache v
    exact ⟨slots, _, hslots⟩
  | _ => exact ⟨_, _, rfl⟩

theorem register_frame (c : HolderCache) (slots : Table Uuid (Option Resolution)) (answers : Nat)
    (r : Request) :
    Request.register { c with slots, answers } r = { r.register c with slots, answers } := by
  cases r <;> rfl

/-- Apart from what is kept, the cache after a run is what the registrations of the run made of it. -/
theorem after_frame (h : Host) (rs : List Request) : ∃ slots answers,
    (h.after rs).engine.cache = { rs.foldl register h.engine.cache with slots, answers } := by
  induction rs using List.reverseRecOn with
  | nil => exact ⟨_, _, rfl⟩
  | append_singleton rs r ih =>
    obtain ⟨slots, answers, hcache⟩ := ih
    obtain ⟨slots', answers', hstep⟩ := (h.after rs).step_frame r
    refine ⟨slots', answers', ?_⟩
    rw [after_concat, hstep, hcache, register_frame, List.foldl_append, List.foldl_cons, List.foldl_nil]

theorem register_lifetime (c : HolderCache) (r : Request) : (r.register c).lifetime = c.lifetime := by
  cases r <;> rfl

theorem step_lifetime (h : Host) (r : Request) :
    (h.step r).engine.cache.lifetime = h.engine.cache.lifetime := by
  obtain ⟨slots, answers, hcache⟩ := h.step_frame r
  rw [hcache]
  exact register_lifetime ..

theorem after_lifetime (h : Host) (rs : List Request) :
    (h.after rs).engine.cache.lifetime = h.engine.cache.lifetime := by
  induction rs generalizing h with
  | nil => rfl
  | cons r rs ih => exact (ih (h.step r)).trans (h.step_lifetime r)

/-- A subject has a slot from its first resolution until it is removed. -/
theorem known_iff (hfresh : h.engine.cache.slots = .empty) (rs : List Request) (u : Uuid) :
    (h.after rs).slot? u ≠ none ↔ Since (Resolves u) (Removes u) rs := by
  induction rs using List.reverseRecOn with
  | nil => simp [after, slot?, hfresh, not_since_nil]
  | append_singleton rs r ih =>
    rw [after_concat, since_concat, ← ih]
    by_cases hres : r.Resolves u
    · simp [hres, step_slot_of_resolves hres]
    by_cases hrem : r.Removes u
    · simp [hres, hrem, step_slot_of_removes hrem]
    by_cases hscan : r = .rescan u
    · subst hscan
      rw [step_slot_of_rescan]
      simp [hres, hrem]
    · rw [step_slot_of_others hres (fun hd => hd.elim hscan hrem)]
      simp [hres, hrem]

/-- What a subject was answered is in its slot until it is rescanned or removed. -/
theorem kept_iff (hfresh : h.engine.cache.slots = .empty) (rs : List Request) (u : Uuid) :
    (∃ a, (h.after rs).slot? u = some (some a)) ↔ Since (Resolves u) (Drops u) rs := by
  induction rs using List.reverseRecOn with
  | nil => simp [after, slot?, hfresh, not_since_nil]
  | append_singleton rs r ih =>
    rw [after_concat, since_concat, ← ih]
    by_cases hres : r.Resolves u
    · simp [hres, step_slot_of_resolves hres]
    by_cases hdrop : r.Drops u
    · simp [hres, hdrop, step_slot_of_drops hdrop]
    · rw [step_slot_of_others hres hdrop]
      simp [hres, hdrop]

theorem hits_iff (hfresh : h.engine.cache.slots = .empty) (rs : List Request) (u : Uuid) :
    (∃ a, (h.after rs).Hits u a) ↔
      h.engine.cache.lifetime ≠ 0 ∧ Since (Resolves u) (Drops u) rs := by
  rw [← kept_iff hfresh, ← after_lifetime h rs]
  constructor
  · rintro ⟨a, hh⟩
    exact ⟨hh.lifetime, a, slot_of_hits hh⟩
  · rintro ⟨hl, a, hs⟩
    exact ⟨a, hits_of_slot hl hs⟩

/-- A hit lasts as long as the subject is neither rescanned nor removed. -/
theorem Hits.step (hh : h.Hits u a) (hr : ¬ r.Drops u) : (h.step r).Hits u a := by
  apply hits_of_slot
  · rw [step_lifetime]
    exact hh.lifetime
  by_cases hres : r.Resolves u
  · rw [step_slot_of_resolves hres, hh.answer_eq]
  · rw [step_slot_of_others hres hr]
    exact slot_of_hits hh

/-- The answer `a` is that of the last miss for the subject: at each point after it, `a` was kept. -/
def LastMissed (h : Host) (rs : List Request) (u : Uuid) (a : Resolution) : Prop :=
  ∃ pre q post, rs = pre ++ q :: post ∧ q.Resolves u ∧
    (h.after pre).Misses u ∧ (h.after pre).answer u = a ∧
    ∀ mid, mid <+: post → (h.after (pre ++ q :: mid)).Hits u a

theorem LastMissed.concat (hm : h.LastMissed rs u a) (hh : (h.after (rs ++ [r])).Hits u a) :
    h.LastMissed (rs ++ [r]) u a := by
  obtain ⟨pre, q, post, rfl, hq, hmiss, ha, hpost⟩ := hm
  rw [List.append_assoc, List.cons_append] at hh ⊢
  refine ⟨pre, q, post ++ [r], rfl, hq, hmiss, ha, ?_⟩
  intro mid hmid
  rcases List.prefix_concat_iff.mp hmid with rfl | hmid
  · exact hh
  · exact hpost mid hmid

theorem lastMissed_of_hits (hfresh : h.engine.cache.slots = .empty) (rs : List Request)
    (hh : (h.after rs).Hits u a) : h.LastMissed rs u a := by
  induction rs using List.reverseRecOn with
  | nil =>
    have hs := slot_of_hits hh
    simp [after, slot?, hfresh] at hs
  | append_singleton rs r ih =>
    have hs : ((h.after rs).step r).slot? u = some (some a) := by
      rw [← after_concat]
      exact slot_of_hits hh
    by_cases hbefore : (h.after rs).Hits u a
    · exact (ih hbefore).concat hh
    -- what is in the slot now was not kept before, so the request has just missed
    · have hl : (h.after rs).engine.cache.lifetime ≠ 0 := by
        rw [after_lifetime, ← after_lifetime h (rs ++ [r])]
        exact hh.lifetime
      have hres : r.Resolves u := by
        by_contra hres
        have hdrop : ¬ r.Drops u := fun hd => step_slot_of_drops hd _ hs
        rw [step_slot_of_others hres hdrop] at hs
        exact hbefore (hits_of_slot hl hs)
      rw [step_slot_of_resolves hres] at hs
      have ha : (h.after rs).answer u = a := Option.some.inj (Option.some.inj hs)
      refine ⟨rs, r, [], rfl, hres, misses_iff.mpr ?_, ha, ?_⟩
      · rintro ⟨b, hb⟩
        exact hbefore (ha ▸ hb.answer_eq.symm ▸ hb)
      · intro mid hmid
        rw [List.prefix_nil.mp hmid]
        exact hh

theorem cache_size (hfresh : h.engine.cache.slots = .empty) (rs : List Request) :
    {u | Since (Resolves u) (Removes u) rs}.encard = (h.after rs).engine.cache.size := by
  have hkeys : {u | Since (Resolves u) (Removes u) rs} =
      ↑(h.after rs).engine.cache.slots.keys.toFinset := by
    ext u
    rw [Set.mem_ofPred_eq, ← known_iff hfresh, slot?, ne_eq, Table.get?_eq_none_iff, not_not,
      List.coe_toFinset, Set.mem_ofPred_eq]
  rw [hkeys, Set.encard_coe_eq_coe_finsetCard, List.toFinset_card_of_nodup (Table.keys_nodup _)]
  simp [HolderCache.size, Table.size, Table.keys]

end Host

/-- A host with one provider and one observer, both of which can be heard. -/
def Host.audible : Host where
  engine :=
    let provider : Provider := fun s => ⟨[.of ⟨s.name, [], []⟩], [.line "asked"]⟩
    let observer : Observer := fun _ ps => ps.map fun p => .line p.holder.id
    let g := Engine.new .builtin .arithmetic HolderCache.defaultLifetime
    { g with cache := (g.cache.addProvider provider).addObserver observer }
  subjects := fun u => .inMemory u "s"

def visits : List Request :=
  [.resolve ⟨1⟩, .resolve ⟨2⟩, .addProvider fun _ => pure [], .rescan ⟨2⟩, .compute ⟨1⟩]

end Ability
