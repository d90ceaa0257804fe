import Ability.Proofs.Number.Parts
import Mathlib

/-! Bit patterns of finite doubles. They are kept when a double is made of them, and negation turns their first
bit and no other. -/

namespace Ability.Binary64

open Float.Model.UnpackedFloat (Sign packComponents unpackMantissa_packComponents unpackExponent_packComponents
  unpackSign_packComponents)

def signOf (s : Bool) : Sign := if s then .negative else .positive

/-- The bits of a sign, an exponent and a fraction. -/
def components (s : Sign) (e : BitVec 11) (f : BitVec 52) : BitVec 64 := packComponents .binary64 s e f

theorem toNat_append {v w : Nat} (a : BitVec v) (b : BitVec w) : (a ++ b).toNat = a.toNat * 2 ^ w + b.toNat := by
  rw [BitVec.toNat_append, ← Nat.shiftLeft_add_eq_or_of_lt b.isLt, Nat.shiftLeft_eq]

section Components

variable (s : Sign) (e : BitVec 11) (f : BitVec 52)

theorem toNat_components (s : Bool) : (components (signOf s) e f).toNat = pattern s e.toNat f.toNat := by
  rw [components, packComponents, toNat_append, toNat_append, pattern]
  cases s
  · simp [signOf, Sign.toBitVec, leadingBit]
  · simp [signOf, Sign.toBitVec, leadingBit, signBit]
    omega

/-- Nothing that is unpacked depends on the sign except the sign. -/
theorem neg_unpack :
    (Float.Model.UnpackedFloat.unpack .binary64 (components s e f)).neg =
      Float.Model.UnpackedFloat.unpack .binary64 (components (-s) e f) := by
  simp only [components, Float.Model.UnpackedFloat.unpack, unpackMantissa_packComponents,
    unpackExponent_packComponents, unpackSign_packComponents, Sign.ofBitVec_toBitVec]
  split
  · split <;> rfl
  · split
    · split <;> rfl
    · rfl

variable {e}

theorem isFinite_unpack (he : e ≠ -1#11) :
    (Float.Model.UnpackedFloat.unpack .binary64 (components s e f)).isFinite = true := by
  simp only [components, Float.Model.UnpackedFloat.unpack, unpackMantissa_packComponents,
    unpackExponent_packComponents, unpackSign_packComponents]
  rw [if_neg he]
  split
  · split <;> rfl
  · rfl

theorem pack_unpack (he : e ≠ -1#11) :
    Float.Model.UnpackedFloat.pack .binary64 (Float.Model.UnpackedFloat.unpack .binary64 (components s e f)) =
      components s e f := by
  have hnumber : Float.Model.UnpackedFloat.isNaNBits (packComponents .binary64 s e f) = false := by
    simp only [Float.Model.UnpackedFloat.isNaNBits, unpackExponent_packComponents, he, false_and, decide_false]
  rw [components, Float.Model.UnpackedFloat.pack_unpack, hnumber]
  rfl

end Components

section Patterns

variable {s : Bool} {e f : Nat}

theorem pattern_lt (he : e < 2047) (hf : f < leadingBit) : pattern s e f < 2 ^ 64 := by
  unfold pattern signBit leadingBit at *
  split <;> omega

theorem ofNat_ne_allOnes (he : e < 2047) : BitVec.ofNat 11 e ≠ -1#11 := by
  intro h
  have hnat := congrArg BitVec.toNat h
  rw [BitVec.toNat_ofNat, Nat.mod_eq_of_lt (by omega)] at hnat
  have hones : (-1#11 : BitVec 11).toNat = 2047 := rfl
  omega

theorem toNat_components_ofNat (he : e < 2047) (hf : f < leadingBit) :
    (components (signOf s) (BitVec.ofNat 11 e) (BitVec.ofNat 52 f)).toNat = pattern s e f := by
  have hf' : f < 2 ^ 52 := hf
  rw [toNat_components, BitVec.toNat_ofNat, BitVec.toNat_ofNat, Nat.mod_eq_of_lt (by omega),
    Nat.mod_eq_of_lt hf']

theorem eq_components {b : BitVec 64} (he : e < 2047) (hf : f < leadingBit) (hb : b.toNat = pattern s e f) :
    b = components (signOf s) (BitVec.ofNat 11 e) (BitVec.ofNat 52 f) := by
  apply BitVec.eq_of_toNat_eq
  rw [hb, toNat_components_ofNat he hf]

theorem toBits_ofBits (he : e < 2047) (hf : f < leadingBit) :
    (Float.ofBits (UInt64.ofNat (pattern s e f))).toBits.toNat = pattern s e f := by
  have hcomponents : BitVec.ofNat 64 (pattern s e f) = _ := eq_components (s := s) he hf
    (by rw [BitVec.toNat_ofNat, Nat.mod_eq_of_lt (pattern_lt he hf)])
  show (Float.Model.UnpackedFloat.pack .binary64
    (Float.Model.UnpackedFloat.unpack .binary64 (BitVec.ofNat 64 (pattern s e f)))).toNat = _
  rw [hcomponents, pack_unpack _ _ (ofNat_ne_allOnes he), toNat_components_ofNat he hf]

variable {x : Float}

theorem toBits_neg (he : e < 2047) (hf : f < leadingBit) (h : x.toBits.toNat = pattern s e f) :
    (-x).toBits.toNat = pattern (!s) e f := by
  have hcomponents : x.toBits.toBitVec = _ := eq_components he hf h
  have hsign : -signOf s = signOf (!s) := by cases s <;> rfl
  show (Float.Model.UnpackedFloat.pack .binary64
    (Float.Model.UnpackedFloat.unpack .binary64 x.toBits.toBitVec).neg).toNat = _
  rw [hcomponents, neg_unpack, pack_unpack _ _ (ofNat_ne_allOnes he), hsign, toNat_components_ofNat he hf]

theorem isFinite_of_toBits (he : e < 2047) (hf : f < leadingBit) (h : x.toBits.toNat = pattern s e f) :
    x.isFinite = true := by
  have hcomponents : x.toBits.toBitVec = _ := eq_components he hf h
  show (Float.Model.UnpackedFloat.unpack .binary64 x.toBits.toBitVec).isFinite = true
  rw [hcomponents, isFinite_unpack _ _ (ofNat_ne_allOnes he)]

end Patterns

end Ability.Binary64
