import Ability.Number.Binary64
import Mathlib.Tactic.NormNum

/-! Doubles and their parts. The parts of a double are in one form only, so that they tell the double. -/

namespace Ability.Binary64

/-- The one form in which a finite magnitude is given: with 53 binary digits, or with fewer of the
smallest unit. -/
structure Canonical (m : Nat) (q : Int) : Prop where
  lt : m < 2 * leadingBit
  ge : -1074 ≤ q
  full : q = -1074 ∨ leadingBit ≤ m

theorem canonical_of_parts {x : Float} {s : Bool} {m : Nat} {q : Int} (h : parts x = .finite s m q) :
    Canonical m q := by
  have hfraction : x.toBits.toNat % leadingBit < leadingBit := Nat.mod_lt _ (by decide)
  simp only [parts] at h
  split at h
  · split at h <;> cases h
  · split at h
    · cases h
      exact ⟨by omega, le_rfl, .inl rfl⟩
    · cases h
      refine ⟨by omega, by omega, .inr (Nat.le_add_right ..)⟩

/-- There is one bit pattern only for what is not a number. -/
theorem toBits_of_parts_nan {x : Float} (h : parts x = .nan) :
    x.toBits.toBitVec = Float.Model.UnpackedFloat.packedNaN .binary64 := by
  simp only [parts] at h
  split at h
  · next hexponent =>
    split at h
    · cases h
    · next hfraction =>
      apply x.toModel.valid.eq_packedNaN
      · apply BitVec.eq_of_toNat_eq
        rw [Float.Model.UnpackedFloat.unpackExponent, BitVec.toNat_cast, BitVec.extractLsb_toNat,
          Nat.shiftRight_eq_div_pow]
        exact hexponent
      · intro hzero
        have hnat := congrArg BitVec.toNat hzero
        rw [Float.Model.UnpackedFloat.unpackMantissa, BitVec.toNat_cast, BitVec.extractLsb_toNat,
          Nat.shiftRight_zero] at hnat
        exact hfraction hnat
  · split at h <;> cases h

theorem eq_of_toBits_eq {x y : Float} (h : x.toBits.toNat = y.toBits.toNat) : x = y := by
  have hbits : x.toModel.toBits = y.toModel.toBits := UInt64.toNat_inj.mp h
  rcases x with ⟨⟨a, ha⟩⟩
  rcases y with ⟨⟨b, hb⟩⟩
  cases hbits
  rfl

/-- The bit pattern that stands for given parts. -/
def pattern (s : Bool) (exponent fraction : Nat) : Nat :=
  (if s then signBit else 0) + exponent * leadingBit + fraction

theorem toBits_eq_pattern (x : Float) :
    x.toBits.toNat = pattern (decide (signBit ≤ x.toBits.toNat)) (x.toBits.toNat / leadingBit % 2048)
      (x.toBits.toNat % leadingBit) := by
  have hlt : x.toBits.toNat < 2 ^ 64 := x.toBits.toNat_lt
  unfold pattern signBit leadingBit
  by_cases hs : 0x8000000000000000 ≤ x.toBits.toNat
  · rw [if_pos (decide_eq_true hs)]
    omega
  · rw [if_neg (by simpa using hs)]
    omega

theorem toBits_of_parts_infinite {x : Float} {s : Bool} (h : parts x = .infinite s) :
    x.toBits.toNat = pattern s 2047 0 := by
  simp only [parts] at h
  split at h
  · next hexponent =>
    split at h
    · next hfraction =>
      rw [toBits_eq_pattern, hexponent, hfraction]
      cases h
      rfl
    · cases h
  · split at h <;> cases h

/-- A magnitude without the leading bit has the least exponent. -/
theorem toBits_of_parts_finite {x : Float} {s : Bool} {m : Nat} {q : Int}
    (h : parts x = .finite s m q) :
    x.toBits.toNat =
      if m < leadingBit then pattern s 0 m else pattern s (q + 1075).toNat (m - leadingBit) := by
  have hfraction : x.toBits.toNat % leadingBit < leadingBit := Nat.mod_lt _ (by decide)
  simp only [parts] at h
  split at h
  · split at h <;> cases h
  · rw [toBits_eq_pattern]
    split at h
    · next hexponent =>
      cases h
      rw [if_pos hfraction, hexponent]
    · cases h
      have hq : ((x.toBits.toNat / leadingBit % 2048 : Nat) - 1075 + 1075 : Int).toNat =
          x.toBits.toNat / leadingBit % 2048 := by omega
      rw [if_neg (by omega), hq, Nat.add_sub_cancel_left]

theorem parts_injective {x y : Float} (h : parts x = parts y) : x = y := by
  apply eq_of_toBits_eq
  cases hy : parts y with
  | nan =>
    have hbits := (toBits_of_parts_nan (h.trans hy)).trans (toBits_of_parts_nan hy).symm
    exact congrArg BitVec.toNat hbits
  | infinite s => rw [toBits_of_parts_infinite (h.trans hy), toBits_of_parts_infinite hy]
  | finite s m q => rw [toBits_of_parts_finite (h.trans hy), toBits_of_parts_finite hy]

end Ability.Binary64
