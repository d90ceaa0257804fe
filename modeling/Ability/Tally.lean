import Ability.Dice
import Ability.Kind
import Ability.Table

/-! What is counted while the engine runs, under names with labels. -/

namespace Ability

inductive Counter
  | cacheHit
  | cacheMiss
  | lifecycleFailure (phase : Phase)
  | chainExecution (executor : ExecutorKind) (success : Bool)
  | dispatch (trigger : String)

namespace Counter

def name : Counter → String
  | cacheHit => "holder_cache_hits_total"
  | cacheMiss => "holder_cache_misses_total"
  | lifecycleFailure _ => "effect_lifecycle_failures_total"
  | chainExecution .. => "chain_executions_total"
  | dispatch _ => "trigger_dispatches_total"

def labels : Counter → List (String × String)
  | cacheHit | cacheMiss => []
  | lifecycleFailure phase => [("phase", phase.name)]
  | chainExecution k success =>
    [("executor", k.name), ("result", if success then "success" else "failure")]
  | dispatch trigger => [("trigger", trigger)]

def key (c : Counter) : String :=
  c.labels.foldl (fun s l => s ++ "|" ++ l.1 ++ "=" ++ l.2) c.name

def descriptions : List (String × String) :=
  [("holder_cache_hits_total", "Holder resolutions served from the cache"),
   ("holder_cache_misses_total", "Holder resolutions that queried every provider"),
   ("effect_lifecycle_failures_total", "Enable, disable or reload calls that returned an error"),
   ("chain_executions_total", "Effect chain executions by executor and result"),
   ("trigger_dispatches_total", "Triggers dispatched to active effects")]

end Counter

abbrev Metrics := Table String Nat

def Metrics.count (m : Metrics) (c : Counter) : Metrics := m.insert c.key ((m.get? c.key).getD 0 + 1)

/-- What runs keep besides the subject: how often each cycling executor has been used, the dice, and
the counters. -/
structure Tally where
  turns : Nat → Nat
  dice : Dice
  metrics : Metrics

namespace Tally

def start (dice : Dice) : Tally := ⟨fun _ => 0, dice, .empty⟩

def count (t : Tally) (c : Counter) : Tally := { t with metrics := t.metrics.count c }

/-- The turn of an executor, which passes on to the next. -/
def takeTurn (t : Tally) (number : Nat) : Nat × Tally :=
  (t.turns number, { t with turns := fun n => if n = number then t.turns n + 1 else t.turns n })

end Tally

end Ability
