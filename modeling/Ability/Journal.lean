/-!
What is told to the outside while elements are compiled and run, and computations that tell it beside
their result.
-/

namespace Ability

inductive Level
  | info
  | warn
  | error
deriving DecidableEq

/-- A line written by an element, a provider or an observer, or a record of the engine itself. -/
inductive Event
  | line (text : String)
  | record (level : Level) (message : String) (fields : List (String × String))
deriving DecidableEq

structure Logged (α : Type) where
  value : α
  events : List Event

namespace Logged

@[ext] theorem ext {x y : Logged α} (h₁ : x.value = y.value) (h₂ : x.events = y.events) : x = y := by
  cases x; cases y; cases h₁; cases h₂; rfl

instance : Monad Logged where
  pure a := ⟨a, []⟩
  bind x f := ⟨(f x.value).value, x.events ++ (f x.value).events⟩

@[simp] theorem pure_value (a : α) : (pure a : Logged α).value = a := rfl

@[simp] theorem pure_events (a : α) : (pure a : Logged α).events = [] := rfl

@[simp] theorem bind_value (x : Logged α) (f : α → Logged β) : (x >>= f).value = (f x.value).value := rfl

@[simp] theorem bind_events (x : Logged α) (f : α → Logged β) :
    (x >>= f).events = x.events ++ (f x.value).events := rfl

instance : LawfulMonad Logged :=
  LawfulMonad.mk' Logged
    (fun x => by ext1 <;> simp [Functor.map])
    (fun _ _ => by ext1 <;> simp)
    (fun _ _ _ => by ext1 <;> simp)

def tell (e : Event) : Logged Unit := ⟨(), [e]⟩

def tellAll (es : List Event) : Logged Unit := ⟨(), es⟩

end Logged

end Ability
