import Ability.Config.Section
import Ability.Dice
import Ability.Occurrence

/-!
Kinds of conditions, effects and arguments. A kind checks the arguments of an element when it is
compiled and makes a datum of them; everything it does later is given that datum back. A datum of
another form is refused.
-/

namespace Ability

/-- What a kind keeps of an element from its compilation. -/
inductive Datum
  | nothing
  | text (value : String)
  | json (value : Json)

inductive DatumForm
  | nothing
  | text
  | json
deriving DecidableEq

def Datum.form : Datum → DatumForm
  | nothing => .nothing
  | text _ => .text
  | json _ => .json

def DatumForm.foreign : DatumForm → Datum
  | nothing => .text ""
  | _ => .nothing

theorem DatumForm.foreign_form (f : DatumForm) : f.foreign.form ≠ f := by
  cases f <;> decide

structure Lender where
  holder : String
  placeholders : Placeholders
  provider : Option String

/-- A named predicate. It is asked with a lender and without one. -/
structure ConditionKind where
  id : String
  form : DatumForm
  compile : Json → Except EngineError Datum
  holds : Subject → Evaluation → Option Lender → Datum → Check Bool

def ConditionKind.check (k : ConditionKind) (s : Subject) (e : Evaluation) (lender : Option Lender)
    (d : Datum) : Check Bool :=
  if d.form = k.form then k.holds s e lender d else throw (.dataMismatch k.id)

/-- What a callback knows of the block it is called for. -/
structure Site where
  id : Uuid
  args : Json
  context : String
  evaluator : Evaluator

def Site.evaluation (site : Site) (p : Placeholders) : Evaluation := ⟨site.evaluator, site.args, p⟩

/-- What a callback can do: fail, change the subject, tell events. -/
abbrev Act (α : Type) := ExceptT EngineError (StateT Subject Logged) α

inductive Phase
  | enable
  | disable
  | reload
deriving DecidableEq

def Phase.name : Phase → String
  | enable => "enable"
  | disable => "disable"
  | reload => "reload"

structure LeafKind where
  id : String
  form : DatumForm
  compile : Json → Except EngineError Datum
  lifecycle : Phase → Site → Datum → Act Unit := fun _ _ _ => pure ()
  respond : Site → Occurrence → Datum → Act Bool := fun _ _ _ => pure false

def LeafKind.call (k : LeafKind) (phase : Phase) (site : Site) (d : Datum) : Act Unit :=
  if d.form = k.form then k.lifecycle phase site d else throw (.dataMismatch k.id)

def LeafKind.trigger (k : LeafKind) (site : Site) (o : Occurrence) (d : Datum) : Act Bool :=
  if d.form = k.form then k.respond site o d else throw (.dataMismatch k.id)

inductive EffectKind
  | leaf (kind : LeafKind)
  | chainRunner (id : String)

def EffectKind.id : EffectKind → String
  | leaf k => k.id
  | chainRunner id => id

/-- A callback of any kind with a given datum; no datum is a chain. -/
def EffectKind.call (k : EffectKind) (phase : Phase) (site : Site) (d : Datum) : Act Unit :=
  match k with
  | leaf k => k.call phase site d
  | chainRunner id => throw (.dataMismatch id)

def EffectKind.trigger (k : EffectKind) (site : Site) (o : Occurrence) (d : Datum) : Act Bool :=
  match k with
  | leaf k => k.trigger site o d
  | chainRunner id => throw (.dataMismatch id)

/-- The form of datum that a kind takes; chains are none. -/
def EffectKind.form : EffectKind → DatumForm
  | leaf k => k.form
  | chainRunner _ => .nothing

/-- A named gate before the response of an effect. Its name is also the key of its argument. -/
structure ArgumentKind where
  name : String
  form : DatumForm
  compile : Json → Except EngineError Datum
  holds : Site → Occurrence → Datum → ExceptT EngineError (StateT Dice Logged) Bool

def ArgumentKind.check (k : ArgumentKind) (site : Site) (o : Occurrence) (d : Datum) :
    ExceptT EngineError (StateT Dice Logged) Bool :=
  if d.form = k.form then k.holds site o d else throw (.dataMismatch k.name)

inductive ExecutorKind
  | normal
  | random
  | cycle
deriving DecidableEq

def ExecutorKind.name : ExecutorKind → String
  | normal => "normal"
  | random => "random"
  | cycle => "cycle"

end Ability
