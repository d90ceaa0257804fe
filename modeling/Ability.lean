import Ability.Definitions
import Ability.Describe
import Ability.Probe
import Ability.Settings.Basic
import Ability.Proofs.EffectSet
import Ability.Proofs.Engine
import Ability.Proofs.Host
import Ability.Proofs.Lifecycle.Calls
import Ability.Proofs.Lifecycle.Runs
import Ability.Proofs.ActiveSet
import Ability.Proofs.Permission.Callbacks
import Ability.Proofs.Permission.Supply
import Ability.Proofs.Permission.Runs
import Ability.Proofs.Activation.Fixpoint
import Ability.Proofs.Expression.Exactness
import Ability.Proofs.Condition
import Ability.Proofs.Provenance
import Ability.Proofs.Noninterference
import Ability.Proofs.Cache.History
import Ability.Proofs.Number.Interval
import Ability.Proofs.Number.Shortest
import Ability.Proofs.Number.Text
import Ability.Proofs.Json.Scalars
import Ability.Proofs.Json.Printer
import Ability.Proofs.Identity.Content
import Ability.Proofs.Identity.Name
import Ability.Proofs.Independence
import Ability.Proofs.Placeholders
import Ability.Proofs.Dispatch
import Ability.Proofs.Compile.Binding
import Ability.Proofs.Compile.Safety
import Ability.Proofs.Compile.Kinds
import Ability.Proofs.Template.Leftmost
import Ability.Proofs.Expression.Modulo
import Ability.Proofs.Expression.Substitution
import Ability.Proofs.Attribute
import Ability.Proofs.Identity.Distinct
import Ability.Proofs.Identity.Context
import Ability.Proofs.Activation.Rest
import Ability.Proofs.Definitions.Tick
import Ability.Proofs.Expression.Lexemes
import Ability.Proofs.Compile.Validity
import Ability.Proofs.Chain.Splice
import Ability.Proofs.Chain.Rounds
import Ability.Proofs.Chain.Session
import Ability.Proofs.Permission.Edits
import Ability.Proofs.Definitions.Order
import Ability.Proofs.Settings.Layers
import Ability.Proofs.Restriction
import Ability.Proofs.Layering
import Ability.Proofs.Config.Paths
import Ability.Proofs.Registry.Chains
