import Ability.Proofs.Engine
import Mathlib.Logic.Function.Basic

/-! A host and its requests. A host has one engine and the subjects it uses it for; a run serves
requests one after the other and keeps what each was answered. What is kept of a subject changes only
when that subject is updated or forgotten. -/

namespace Ability

/-- One engine, and for each identifier the subject that bears it. -/
structure Host where
  engine : Engine
  subjects : Uuid → Subject

inductive Request
  | resolve (u : Uuid)
  | compute (u : Uuid)
  | update (u : Uuid)
  | dispatch (u : Uuid) (trigger : String) (data : TriggerData)
  | rescan (u : Uuid)
  | uncache (u : Uuid)
  | forget (u : Uuid)
  | addProvider (p : Provider)
  | setProvider (i : Nat) (p : Provider)
  | addObserver (o : Observer)
  /-- The host itself changes what a subject keeps. -/
  | change (u : Uuid) (f : Sheet → Sheet)

inductive Reply
  | resolved (r : Resolution)
  | computed (a : ActiveSet)
  | updated (t : Transition)
  | dispatched (r : DispatchReport)
  | done

namespace Host

/-- A subject under its identifier, whatever a callback made of it. -/
def subject (h : Host) (u : Uuid) : Subject := { h.subjects u with id := u }

@[simp] theorem subject_id (h : Host) (u : Uuid) : (h.subject u).id = u := rfl

/-- What the engine answers about a subject, which may be changed on the way. -/
def ask {α : Type} (h : Host) (u : Uuid) (x : Subject → EngineM (α × Subject)) : α × Host :=
  let ((a, s), engine) := (x (h.subject u) h.engine).value
  (a, ⟨engine, Function.update h.subjects u s⟩)

/-- What the engine answers about a subject it only looks at. -/
def look {α : Type} (h : Host) (u : Uuid) (x : Subject → EngineM α) : α × Host :=
  let (a, engine) := (x (h.subject u) h.engine).value
  (a, { h with engine })

def adjust (h : Host) (f : HolderCache → HolderCache) : Host :=
  { h with engine := { h.engine with cache := f h.engine.cache } }

def serve (h : Host) : Request → Reply × Host
  | .resolve u => (h.look u Engine.resolve).map .resolved id
  | .compute u => (h.look u Engine.computeActive).map .computed id
  | .update u => (h.ask u Engine.transition).map .updated id
  | .dispatch u trigger data => (h.ask u (Engine.dispatch · trigger data)).map .dispatched id
  | .rescan u => (.done, (h.look u fun s => Engine.rescan s.id).2)
  | .uncache u => (.done, h.adjust (·.remove u))
  | .forget u => (.done, (h.look u fun s => Engine.forget s.id).2)
  | .addProvider p => (.done, h.adjust (·.addProvider p))
  | .setProvider i p => (.done, h.adjust (·.setProvider i p))
  | .addObserver o => (.done, h.adjust (·.addObserver o))
  | .change u f => (.done, { h with subjects := Function.update h.subjects u ((h.subject u).modify f) })

def reply (h : Host) (r : Request) : Reply := (h.serve r).1

def step (h : Host) (r : Request) : Host := (h.serve r).2

def after : Host → List Request → Host
  | h, [] => h
  | h, r :: rs => (h.step r).after rs

def history : Host → List Request → List (Request × Reply)
  | _, [] => []
  | h, r :: rs => (r, h.reply r) :: (h.step r).history rs

theorem after_append (h : Host) (rs qs : List Request) :
    h.after (rs ++ qs) = (h.after rs).after qs := by
  induction rs generalizing h with
  | nil => rfl
  | cons r rs ih => simpa only [List.cons_append, after] using ih (h.step r)

/-- What holds before a run and is kept by each request of it holds after the run. -/
theorem after_induction {P : Host → Prop} {fair : Request → Prop} {h : Host} (hP : P h)
    (hstep : ∀ h r, fair r → P h → P (h.step r)) {rs : List Request} (hrs : ∀ r ∈ rs, fair r) :
    P (h.after rs) := by
  induction rs generalizing h with
  | nil => exact hP
  | cons r rs ih =>
    obtain ⟨hr, hrs⟩ := List.forall_mem_cons.mp hrs
    exact ih (hstep h r hr hP) hrs

/-- What the engine keeps of the active effects of a subject: set by its updates, dropped when it is
forgotten, and left alone by every other request. -/
theorem step_states (h : Host) (r : Request) (v : Uuid) :
    (h.step r).engine.states.get? v =
      match r with
      | .update u =>
        if u = v then
          some ⟨h.engine.activeNow (h.subject u), (h.engine.activeNow (h.subject u)).flatten⟩
        else h.engine.states.get? v
      | .forget u => if u = v then none else h.engine.states.get? v
      | _ => h.engine.states.get? v := by
  cases r with
  | update u =>
    have hs : (h.step (.update u)).engine.states =
        h.engine.states.insert u ⟨h.engine.activeNow (h.subject u),
          (h.engine.activeNow (h.subject u)).flatten⟩ := by
      change ((Engine.transition (h.subject u) h.engine).value.2).states = _
      rw [Engine.transition_value]
      rfl
    rw [hs, Table.get?_insert]
  | forget u => exact Table.get?_erase ..
  | resolve u =>
    change ((Engine.resolve (h.subject u) h.engine).value.2).states.get? v = _
    rw [Engine.resolve_states]
  | compute u =>
    change ((Engine.computeActive (h.subject u) h.engine).value.2).states.get? v = _
    rw [Engine.computeActive_value, Engine.resolve_states]
  | dispatch u trigger data =>
    change ((Engine.dispatch (h.subject u) trigger data h.engine).value.2).states.get? v = _
    rw [Engine.dispatch_frame]
  | _ => rfl

theorem step_activeEffects (h : Host) (r : Request) (v : Uuid) :
    (h.step r).engine.activeEffects v =
      match r with
      | .update u =>
        if u = v then (h.engine.activeNow (h.subject u)).flatten else h.engine.activeEffects v
      | .forget u => if u = v then .empty else h.engine.activeEffects v
      | _ => h.engine.activeEffects v := by
  simp only [Engine.activeEffects, step_states]
  cases r with
  | update u => by_cases huv : u = v <;> simp [huv]
  | forget u => by_cases huv : u = v <;> simp [huv]
  | _ => rfl

theorem step_cache (h : Host) (r : Request) :
    (h.step r).engine.cache =
      match r with
      | .resolve u | .compute u | .update u =>
        (Engine.resolve (h.subject u) h.engine).value.2.cache
      | .rescan u => h.engine.cache.rescan u
      | .uncache u | .forget u => h.engine.cache.remove u
      | .addProvider p => h.engine.cache.addProvider p
      | .setProvider i p => h.engine.cache.setProvider i p
      | .addObserver o => h.engine.cache.addObserver o
      | .dispatch .. | .change .. => h.engine.cache := by
  cases r with
  | update u =>
    change ((Engine.transition (h.subject u) h.engine).value.2).cache = _
    rw [Engine.transition_value]
  | compute u =>
    change ((Engine.computeActive (h.subject u) h.engine).value.2).cache = _
    rw [Engine.computeActive_value]
  | dispatch u trigger data =>
    change ((Engine.dispatch (h.subject u) trigger data h.engine).value.2).cache = _
    rw [Engine.dispatch_frame]
  | _ => rfl

theorem subject_update (g : Engine) (subjects : Uuid → Subject) (u v : Uuid) (s : Subject) :
    (⟨g, Function.update subjects u s⟩ : Host).subject v =
      if u = v then { s with id := v } else { subjects v with id := v } := by
  by_cases huv : u = v
  · subst huv
    simp [subject]
  · simp [subject, huv, Function.update_of_ne (Ne.symm huv)]

/-- A subject changes when it is updated, when an occurrence is dispatched to it and when the host
changes it, and with no other request. -/
theorem step_subject (h : Host) (r : Request) (v : Uuid) :
    (h.step r).subject v =
      match r with
      | .update u =>
        if u = v then { (h.engine.performed (h.subject u)).2.subject with id := v } else h.subject v
      | .dispatch u trigger data =>
        if u = v then
          { (Engine.dispatch (h.subject u) trigger data h.engine).value.1.2 with id := v }
        else h.subject v
      | .change u f => if u = v then { (h.subject u).modify f with id := v } else h.subject v
      | _ => h.subject v := by
  cases r with
  | update u =>
    have hs : (Engine.transition (h.subject u) h.engine).value.1.2 =
        (h.engine.performed (h.subject u)).2.subject :=
      congrArg (·.1.2) (Engine.transition_value ..)
    simp only [← hs]
    exact subject_update ..
  | dispatch u trigger data => exact subject_update ..
  | change u f => exact subject_update ..
  | _ => rfl

theorem reply_update (h : Host) (u : Uuid) :
    h.reply (.update u) =
      .updated ⟨h.engine.activeEffects u, (h.engine.activeNow (h.subject u)).flatten,
        (h.engine.performed (h.subject u)).1⟩ := by
  change Reply.updated (Engine.transition (h.subject u) h.engine).value.1.1 = _
  rw [Engine.transition_value]
  rfl

/-- A host whose only provider lends the effects `es` to everyone. -/
def lending (es : List Effect) : Host where
  engine :=
    let g := Engine.new .builtin .arithmetic 0
    { g with cache := g.cache.addProvider fun _ => pure [.of ⟨"h", es, []⟩] }
  subjects := fun u => .inMemory u "s"

end Host

end Ability
