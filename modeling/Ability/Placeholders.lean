import Ability.Table

/-! Placeholder sets: the texts that stand for names. -/

namespace Ability

abbrev Placeholders := Table String String

namespace Placeholders

def ofPairs (pairs : List (String × String)) : Placeholders := Table.ofList pairs

/-- All names of both sets; a name that both have keeps the text of `other`. -/
def merged (base other : Placeholders) : Placeholders := Table.merge base other

end Placeholders

end Ability
