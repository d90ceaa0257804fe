import Ability.Proofs.Host
import Ability.Proofs.Lifecycle.Calls
import Ability.Probe
import Mathlib.Data.List.Chain

/-! Updates over whole runs. The updates of a subject since it was last forgotten follow one another:
each starts from the set that the one before left. So the callbacks that switch an effect on and off
take turns, and the last of them tells whether it is active. -/

namespace Ability

open Lifecycle

/-- The updates of a subject since it was last forgotten, after one more request. -/
def noteUpdate (u : Uuid) (ts : List Transition) : Request × Reply → List Transition
  | (.update v, .updated t) => if v = u then ts ++ [t] else ts
  | (.forget v, _) => if v = u then [] else ts
  | _ => ts

def updatesOf (u : Uuid) (l : List (Request × Reply)) : List Transition := l.foldl (noteUpdate u) []

/-- What was active after the last update; nothing before the first. -/
def lastActive (ts : List Transition) : EffectSet :=
  match ts.getLast? with
  | some t => t.after
  | none => .empty

@[simp] theorem lastActive_concat (ts : List Transition) (t : Transition) :
    lastActive (ts ++ [t]) = t.after := by
  simp [lastActive]

/-- Each update starts from what the one before left and makes the calls of its plan. -/
inductive Consecutive : List Transition → Prop
  | nil : Consecutive []
  | concat {ts : List Transition} {t : Transition} (earlier : Consecutive ts)
      (starts : t.before = lastActive ts) (calls : t.calls.map Call.target = plan t.before t.after) :
      Consecutive (ts ++ [t])

/-- The updates told by the replies are those the engine keeps in mind. -/
structure Recorded (h : Host) (u : Uuid) (ts : List Transition) : Prop where
  consecutive : Consecutive ts
  active : h.engine.activeEffects u = lastActive ts

theorem Recorded.step {h : Host} {u : Uuid} {ts : List Transition} (hr : Recorded h u ts)
    (r : Request) : Recorded (h.step r) u (noteUpdate u ts (r, h.reply r)) := by
  have ha := h.step_activeEffects r u
  cases r with
  | update v =>
    rw [Host.reply_update]
    by_cases hv : v = u
    · subst hv
      simp only [noteUpdate, if_true] at ha ⊢
      exact ⟨.concat hr.consecutive hr.active (Engine.performed_targets ..), by rw [ha, lastActive_concat]⟩
    · simp only [noteUpdate, hv, if_false] at ha ⊢
      exact ⟨hr.consecutive, ha.trans hr.active⟩
  | forget v =>
    by_cases hv : v = u
    · subst hv
      simp only [noteUpdate, if_true] at ha ⊢
      exact ⟨.nil, ha⟩
    · simp only [noteUpdate, hv, if_false] at ha ⊢
      exact ⟨hr.consecutive, ha.trans hr.active⟩
  | _ => exact ⟨hr.consecutive, ha.trans hr.active⟩

theorem Recorded.run {h : Host} {u : Uuid} {ts : List Transition} (hr : Recorded h u ts)
    (rs : List Request) : Recorded (h.after rs) u ((h.history rs).foldl (noteUpdate u) ts) := by
  induction rs generalizing h ts with
  | nil => exact hr
  | cons r rs ih => exact ih (hr.step r)

theorem recorded_updatesOf {h : Host} {u : Uuid} (hu : h.engine.states.get? u = none)
    (rs : List Request) : Recorded (h.after rs) u (updatesOf u (h.history rs)) :=
  Recorded.run ⟨.nil, by simp [Engine.activeEffects, hu, lastActive]⟩ rs

/-- The phases in which the callbacks of some updates switched an effect on or off. -/
def switchesOf (i : Uuid) (ts : List Transition) : List Phase :=
  switches i (ts.flatMap fun t => t.calls.map Call.target)

/-- On and off in turn, on first, and on at the end if and only if `on`. -/
structure TakeTurns (ps : List Phase) (on : Bool) : Prop where
  turns : ps.IsChain (· ≠ ·)
  first : ∀ p ∈ ps.head?, p = .enable
  last : ps.getLast? = some .enable ↔ on = true

theorem TakeTurns.concat {ps : List Phase} {on : Bool} (h : TakeTurns ps on) :
    TakeTurns (ps ++ [if on then .disable else .enable]) !on := by
  obtain ⟨ht, hf, hl⟩ := h
  refine ⟨?_, ?_, ?_⟩
  · rw [List.isChain_append]
    refine ⟨ht, .singleton _, ?_⟩
    intro p hp q hq
    obtain rfl : _ = q := Option.some.inj hq
    cases on with
    | true =>
      have : p = .enable := Option.some.inj ((Option.mem_def.mp hp).symm.trans (hl.mpr rfl))
      simp [this]
    | false =>
      intro hpe
      have : ps.getLast? = some .enable := by rw [Option.mem_def.mp hp, hpe]; rfl
      simpa using hl.mp this
  · intro p hp
    cases ps with
    | nil =>
      have : on = false := by simpa using hl
      simpa [this, eq_comm] using hp
    | cons a r => exact hf p (by simpa using hp)
  · cases on <;> simp

theorem Consecutive.takeTurns {ts : List Transition} (h : Consecutive ts) (i : Uuid) :
    TakeTurns (switchesOf i ts) ((lastActive ts).contains i) := by
  induction h with
  | nil =>
    have hnil : switchesOf i [] = [] := rfl
    rw [hnil]
    exact ⟨.nil, by simp, by simp [lastActive, EffectSet.contains, EffectSet.empty]⟩
  | @concat ts t _ hb hc ih =>
    have hs : switchesOf i (ts ++ [t]) = switchesOf i ts ++ switches i (plan t.before t.after) := by
      simp only [switchesOf, List.flatMap_append, switches_append, List.flatMap_cons,
        List.flatMap_nil, List.append_nil, hc]
    rw [← hb] at ih
    rw [hs, switches_plan, lastActive_concat]
    -- one more switch if just one of the two sets holds the effect, and none otherwise
    have hnext := ih.concat
    cases hB : t.before.contains i <;> rw [hB] at ih hnext <;> cases hA : t.after.contains i
    · simpa using ih
    · simpa using hnext
    · simpa using hnext
    · simpa using ih

/-- An update from one active set to another: it calls back on exactly what differs, in the order of the
identifiers, and reports what it did, whichever callbacks fail. -/
structure Transition.Follows (t : Transition) (before after : EffectSet) : Prop where
  removed : EffectSet.IsDifference t.report.removed before after
  added : EffectSet.IsDifference t.report.added after before
  reloaded : t.report.reloaded = after.members.length
  calls : t.calls.map Call.target = t.report.removed.map (.disable, ·) ++
    t.report.added.map (.enable, ·) ++ after.members.map (.reload, ·)
  once : (t.calls.map fun c => (c.phase, c.effect.id)).Nodup
  failures : t.report.failures = t.calls.filterMap Call.failure?

theorem Transition.follows {t : Transition} (h : t.calls.map Call.target = plan t.before t.after) :
    t.Follows t.before t.after where
  removed := EffectSet.isDifference_diff ..
  added := EffectSet.isDifference_diff ..
  reloaded := rfl
  calls := h
  once := by
    have hplaces := congrArg (List.map place) h
    rw [List.map_map] at hplaces
    exact hplaces ▸ plan_nodup t.before t.after
  failures := rfl

/-- In every run, an update changes the active set from what the last one left to what is computed now,
and its callbacks are made one after the other on the subject it returns. Since the subject was last
forgotten, the callbacks of each effect enable and disable it in turn, and the last one has enabled it if
and only if it is active. -/
theorem update_follows_differences (h : Host) (u : Uuid) (hu : h.engine.states.get? u = none)
    (rs : List Request) :
    let past := updatesOf u (h.history rs)
    let now := h.after rs
    let after := (now.engine.activeNow (now.subject u)).flatten
    let answer := (Engine.update (now.subject u) now.engine).value
    (∃ t, now.reply (.update u) = .updated t ∧ answer.1.1 = t.report ∧
      t.Follows (lastActive past) after ∧
      Made now.engine.evaluator (now.subject u) t.calls answer.1.2 ∧
      answer.2.activeEffects u = after) ∧
    ∀ i, TakeTurns (switchesOf i past) ((now.engine.activeEffects u).contains i) := by
  intro past now after answer
  obtain ⟨hconsecutive, hactive⟩ := recorded_updatesOf hu rs
  have hvalue := Engine.transition_value (now.subject u) now.engine
  refine ⟨⟨_, now.reply_update u, congrArg (·.1.1.report) hvalue, ?_, ?_, ?_⟩, ?_⟩
  · exact hactive ▸ Transition.follows (Engine.performed_targets ..)
  · have hs : answer.1.2 = (now.engine.performed (now.subject u)).2.subject :=
      congrArg (·.1.2) hvalue
    exact hs ▸ Engine.performed_made ..
  · have hg : answer.2.activeEffects u = _ := now.step_activeEffects (.update u) u
    simpa only [if_true] using hg
  · intro i
    exact hactive ▸ hconsecutive.takeTurns i

/-- An effect that cannot be enabled. -/
def stubborn : Effect where
  id := ⟨7⟩
  args := Json.emptyObject
  response := .leaf Probe.record (.json (.object [("name", .text "a"), ("error_on", .text "enable")]))
  conditions := []
  arguments := []
  triggers := []
  context := ""

/-- An effect that could not be enabled counts as active, and is not enabled again. -/
theorem update_follows_differences_stubborn :
    let h := Host.lending [stubborn]
    let past := updatesOf ⟨1⟩ (h.history [.update ⟨1⟩])
    h.engine.states.get? ⟨1⟩ = none ∧
      (∃ t, (h.after [.update ⟨1⟩]).reply (.update ⟨1⟩) = .updated t ∧
        t.Follows (lastActive past) (.ofList [stubborn]) ∧
        t.calls.map Call.target = [(.reload, stubborn)]) ∧
      past.flatMap (·.report.failures.map (·.phase)) = [.enable] ∧
      TakeTurns (switchesOf ⟨7⟩ past) true := by
  obtain ⟨⟨t, ht, -, hf, -, -⟩, hi⟩ :=
    update_follows_differences (Host.lending [stubborn]) ⟨1⟩ rfl [.update ⟨1⟩]
  refine ⟨rfl, ⟨t, ht, hf, ?_⟩, rfl, hi ⟨7⟩⟩
  injection ht with h
  exact h ▸ rfl

end Ability
