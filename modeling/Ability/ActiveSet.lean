import Ability.Holder

/-!
The active effects of a subject with the holders they come from: one entry for each set of effects, none
of them empty.
-/

namespace Ability

abbrev ActiveSet := List (EffectSet × Provision)

namespace ActiveSet

/-- Records what a holder contributes. A later holder with the same set takes the place of the earlier
one. -/
def insert (a : ActiveSet) (s : EffectSet) (p : Provision) : ActiveSet :=
  if s.isEmpty then a
  else if a.any (·.1.same s) then a.map fun e => if e.1.same s then (e.1, p) else e
  else a ++ [(s, p)]

def flatten (a : ActiveSet) : EffectSet := .ofList (a.flatMap (·.1.members))

def holdersOf (a : ActiveSet) (id : Uuid) : List Provision :=
  (a.filter (·.1.contains id)).map (·.2)

def collect (ev : Evaluator) (s : Subject) : ActiveSet → List Provision → Logged ActiveSet
  | a, [] => return a
  | a, p :: r => do
    let es ← p.holder.active ev s p
    collect ev s (a.insert es p) r

end ActiveSet

end Ability
