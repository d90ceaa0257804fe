import Ability.Table
import Ability.Digest.Sha1
import Ability.Number.Hexadecimal

/-!
Identifiers of 128 bits, ordered as their sixteen bytes are, and the identifiers that are derived from
a name within a namespace.
-/

namespace Ability

structure Uuid where
  bits : BitVec 128
deriving DecidableEq, Inhabited

namespace Uuid

instance : LT Uuid := ⟨fun a b => a.bits < b.bits⟩

theorem lt_def {a b : Uuid} : a < b ↔ a.bits.toNat < b.bits.toNat := Iff.rfl

instance : DecidableLT Uuid := fun a b => inferInstanceAs (Decidable (a.bits < b.bits))

instance : Key Uuid where
  decEq := inferInstance
  decLt := inferInstance
  irrefl _ h := Nat.lt_irrefl _ (lt_def.mp h)
  trans h₁ h₂ := Nat.lt_trans (lt_def.mp h₁) (lt_def.mp h₂)
  eq_of_not_lt {a b} h₁ h₂ := by
    rw [lt_def] at h₁ h₂
    have h : a.bits = b.bits := BitVec.eq_of_toNat_eq (by omega)
    cases a; cases b; cases h; rfl

def ofBytes (bytes : List UInt8) : Uuid :=
  ⟨BitVec.ofNat 128 (bytes.foldl (fun n b => 256 * n + b.toNat) 0)⟩

def toBytes (u : Uuid) : List UInt8 := Sha1.bigEndian 16 u.bits.toNat

/-- The identifier of a name: the first sixteen bytes of the digest of namespace and name, with
version five and the standard variant written over six bits of it. -/
def ofName (space : Uuid) (name : List UInt8) : Uuid :=
  let d := ofBytes ((Sha1.digest (space.toBytes ++ name)).take 16)
  let cleared := d.bits &&& ~~~ (BitVec.ofNat 128 (0xf <<< 76) ||| BitVec.ofNat 128 (0x3 <<< 62))
  ⟨cleared ||| BitVec.ofNat 128 (0x5 <<< 76) ||| BitVec.ofNat 128 (0x2 <<< 62)⟩

def objectSpace : Uuid := ⟨0x6ba7b8129dad11d180b400c04fd430c8#128⟩

/-- Lowercase digits in groups of 8, 4, 4, 4 and 12. -/
def toText (u : Uuid) : String :=
  let ds := Hexadecimal.digits 32 u.bits.toNat
  String.ofList (ds.take 8 ++ '-' :: (ds.drop 8).take 4 ++ '-' :: (ds.drop 12).take 4 ++
    '-' :: (ds.drop 16).take 4 ++ '-' :: ds.drop 20)

def plainDigits? (cs : List Char) : Option (List Char) :=
  if cs.length = 32 then some cs else none

/-- Thirty-two digits with hyphens at the group ends. -/
def groupedDigits? (cs : List Char) : Option (List Char) :=
  let ds := cs.filter (· ≠ '-')
  if cs.length = 36 ∧ ds.length = 32 ∧ [8, 13, 18, 23].all (cs[·]? = some '-') then some ds else none

def urnPrefix : List Char := "urn:uuid:".toList

/-- Grouped digits may stand in braces or behind `urn:uuid:` in letters of either case. -/
def unwrap (cs : List Char) : List Char :=
  match cs with
  | '{' :: r => if r.getLast? = some '}' then r.dropLast else cs
  | _ => if urnPrefix.isPrefixOf (cs.map Char.toLower) then cs.drop urnPrefix.length else cs

/-- Reads an identifier in any of its written forms; letters may be of either case. -/
def ofText? (text : String) : Option Uuid := do
  let ds ← (plainDigits? text.toList).or (groupedDigits? (unwrap text.toList))
  return ⟨BitVec.ofNat 128 (← Hexadecimal.number? ds)⟩

end Uuid

end Ability
