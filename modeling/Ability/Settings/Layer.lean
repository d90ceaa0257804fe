import Ability.Settings.Address

/-!
Layers of settings. A layer is a row of trees, each with the address that it is for; layers lie on one
another, and what a later one sets counts.
-/

namespace Ability.Settings

/-- Trees with their addresses as written. -/
abbrev Layer := List (String × Tree)

/-- The tree after what a layer sets, one after the other. -/
def Layer.apply (t : Tree) (l : Layer) : Tree := l.foldl (fun t e => t.set (.ofText e.1) e.2) t

/-- The tree of layers, the lowest first. -/
def stack (layers : List Layer) : Tree := layers.foldl Layer.apply .empty

end Ability.Settings
