/-! Decimal digits. -/

namespace Ability.Digits

def value (ds : List Char) : Nat := ds.foldl (fun n d => 10 * n + (d.toNat - 48)) 0

end Ability.Digits
