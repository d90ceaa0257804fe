import Ability.Holder

/-!
What providers answered, kept for each subject. With a lifetime of zero nothing is kept; with any other
an answer stays until it is dropped.
-/

namespace Ability

/-- Tells who lends what to a subject. -/
abbrev Provider := Subject → Logged (List Provision)

/-- Is told what the providers answered. -/
abbrev Observer := Subject → List Provision → List Event

/-- One answer of the providers. The number tells answers apart. -/
structure Resolution where
  number : Nat
  provisions : List Provision

/-- A subject has a slot from its first resolution on. The slot is emptied to ask again, and removed
to forget the subject. -/
structure HolderCache where
  lifetime : Nat
  providers : List Provider
  observers : List Observer
  slots : Table Uuid (Option Resolution)
  answers : Nat

namespace HolderCache

/-- The lifetime, in milliseconds, unless another is chosen. -/
def defaultLifetime : Nat := 4000

def new (lifetime : Nat) : HolderCache := ⟨lifetime, [], [], .empty, 0⟩

def addProvider (c : HolderCache) (p : Provider) : HolderCache :=
  { c with providers := c.providers ++ [p] }

def setProvider (c : HolderCache) (i : Nat) (p : Provider) : HolderCache :=
  { c with providers := c.providers.set i p }

def addObserver (c : HolderCache) (o : Observer) : HolderCache :=
  { c with observers := c.observers ++ [o] }

def kept? (c : HolderCache) (id : Uuid) : Option Resolution :=
  if c.lifetime = 0 then none else (c.slots.get? id).join

/-- All providers' answers in the order of registration. -/
def ask (s : Subject) : List Provider → Logged (List Provision)
  | [] => return []
  | p :: r => do
    let ps ← p s
    return ps ++ (← ask s r)

def consult (c : HolderCache) (s : Subject) : Logged (List Provision) := do
  let ps ← ask s c.providers
  Logged.tellAll (c.observers.flatMap fun o => o s ps)
  return ps

def keep (c : HolderCache) (id : Uuid) (ps : List Provision) : Resolution × HolderCache :=
  let r := ⟨c.answers, ps⟩
  (r, { c with slots := c.slots.insert id (some r), answers := c.answers + 1 })

/-- Empties the slot of a subject, so that its next resolution asks again. -/
def rescan (c : HolderCache) (id : Uuid) : HolderCache :=
  if c.slots.contains id then { c with slots := c.slots.insert id none } else c

def remove (c : HolderCache) (id : Uuid) : HolderCache := { c with slots := c.slots.erase id }

def size (c : HolderCache) : Nat := c.slots.size

end HolderCache

end Ability
