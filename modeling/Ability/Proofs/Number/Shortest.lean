import Ability.Proofs.Number.Interval

/-! The shortest decimal of a magnitude. Seventeen digits suffice, so that the search for the fewest always
ends with a decimal that rounds to the magnitude; hence the decimal tells the magnitude. -/

namespace Ability.Binary64

def Decimal.value (d : Decimal) : ℚ := d.digits * 10 ^ d.exponent

theorem stripZeros_value (n : Nat) (d : Decimal) : (stripZeros n d).value = d.value := by
  induction n generalizing d with
  | zero => rfl
  | succ n ih =>
    unfold stripZeros
    split
    · next h =>
      have hten : d.digits = 10 * (d.digits / 10) := by omega
      have hcast : (d.digits : ℚ) = 10 * (d.digits / 10 : Nat) := by exact_mod_cast hten
      rw [ih, Decimal.value, Decimal.value, zpow_add_one₀ (by norm_num), hcast]
      ring
    · rfl

namespace Interval

/-- A number is at least the power of ten that has as many digits. -/
theorem pow_le_of_decimalLength {n : Nat} (hn : 0 < n) : 10 ^ (decimalLength n - 1) ≤ n := by
  by_contra h
  rcases Nat.eq_zero_or_pos (decimalLength n - 1) with hz | hp
  · rw [hz] at h
    omega
  · have hle := (Nat.length_toDigits_le_iff (by norm_num) hp).mpr (not_le.mp h)
    unfold decimalLength at hle hp
    omega

theorem exp2_le_exp10 {k n : Nat} (h : k ≤ 3 * n) : exp2 k ≤ exp10 n := by
  have hpow : exp2 k ≤ 8 ^ n := (Nat.pow_le_pow_right (by norm_num) h).trans_eq (Nat.pow_mul 2 3 n)
  exact hpow.trans (Nat.pow_le_pow_left (by norm_num) n)

/-- The least magnitude is far above `10 ^ -400`. -/
theorem den_le {m : Nat} {q : Int} (hm : 0 < m) (hq : -1074 ≤ q) :
    (of m q).den ≤ (of m q).value * exp10 400 := by
  have hvalue : 1 ≤ (of m q).value := Nat.mul_pos (by omega) (Nat.pow_pos (by norm_num))
  have hden : (of m q).den ≤ exp10 400 := exp2_le_exp10 (by omega)
  exact hden.trans (Nat.le_mul_of_pos_left _ hvalue)

/-- The position of the point is not beyond the first digit. -/
theorem pow_point_le {m : Nat} {q : Int} (hm : 0 < m) (hq : -1074 ≤ q) :
    (10 : ℚ) ^ ((of m q).point - 1) ≤ (4 * m : Nat) * quarter q := by
  have hd := den_pos m q
  have hvalue := value_eq m q
  have hnat : 0 < (of m q).den := by exact_mod_cast hd
  unfold point
  split
  · next h =>
    have hpos : 0 < (of m q).value / (of m q).den := Nat.div_pos h hnat
    have hlen : 1 ≤ decimalLength ((of m q).value / (of m q).den) :=
      List.length_pos_iff.mpr Nat.toDigits_ne_nil
    have hpow := pow_le_of_decimalLength hpos
    have hexp : ((decimalLength ((of m q).value / (of m q).den) : Int) - 1) =
        (decimalLength ((of m q).value / (of m q).den) - 1 : Nat) := by omega
    rw [hexp, zpow_natCast]
    have hmul := (Nat.mul_le_mul_right (of m q).den hpow).trans (Nat.div_mul_le_self ..)
    have hcast : ((10 : ℚ) ^ (decimalLength ((of m q).value / (of m q).den) - 1)) * (of m q).den ≤
        (of m q).value := by exact_mod_cast hmul
    rw [hvalue] at hcast
    exact le_of_mul_le_mul_right hcast hd
  · have hsome : ((List.range 400).find? fun k =>
        decide ((of m q).den ≤ (of m q).value * exp10 (k + 1))).isSome := by
      refine List.find?_isSome.mpr ⟨399, by simp, decide_eq_true ?_⟩
      exact den_le hm hq
    obtain ⟨k, hk⟩ := Option.isSome_iff_exists.mp hsome
    simp only [hk]
    have hle := of_decide_eq_true
      (List.find?_some (p := fun k => decide ((of m q).den ≤ (of m q).value * exp10 (k + 1))) hk)
    have hexp : (-(k : Int) - 1) = -((k + 1 : Nat) : Int) := by push_cast; ring
    have hcast : ((of m q).den : ℚ) ≤ (of m q).value * 10 ^ (k + 1) := by
      rw [← exp10_cast]
      exact_mod_cast hle
    rw [hvalue] at hcast
    rw [hexp, zpow_neg, zpow_natCast, inv_le_iff_one_le_mul₀ (by positivity)]
    refine le_of_mul_le_mul_right ?_ hd
    linarith

/-- The grid of the seventeenth digit is finer than the interval is wide. -/
theorem onGrid?_ne_none {tie : Tie} {m : Nat} {q : Int} (hm : 0 < m) (hc : Canonical m q) :
    (of m q).onGrid? tie ((of m q).point - 17) ≠ none := by
  intro hnone
  have hwidth := width_le_of_onGrid?_none hm hnone
  have hpoint := pow_point_le hm hc.ge
  have hten : (10 : ℚ) ^ ((of m q).point - 1) = 10 ^ 16 * 10 ^ ((of m q).point - 17) := by
    have hexp : (of m q).point - 1 = ((16 : Nat) : Int) + ((of m q).point - 17) := by push_cast; ring
    rw [hexp, zpow_add₀ (by norm_num), zpow_natCast]
  rw [hten] at hpoint
  have hscaled : ((10 ^ 16 * (4 * m + 2) : Nat) : ℚ) * quarter q ≤
      (10 ^ 16 * lowest m q + 4 * m : Nat) * quarter q := by
    push_cast at hwidth hpoint ⊢
    linarith
  have hnat : 10 ^ 16 * (4 * m + 2) ≤ 10 ^ 16 * lowest m q + 4 * m := by
    exact_mod_cast le_of_mul_le_mul_right hscaled (quarter_pos q)
  have hlt := hc.lt
  have hbit : leadingBit = 4503599627370496 := rfl
  unfold lowest at hnat
  split at hnat <;> omega

end Interval

/-- The shortest decimal of a magnitude rounds to it. -/
theorem shortest_rounds {tie : Tie} {m : Nat} {q : Int} (hm : 0 < m) (hc : Canonical m q) :
    Rounds m q (shortest tie m q).value := by
  have hsome : ((List.range 17).findSome? fun (k : Nat) =>
      ((Interval.of m q).onGrid? tie ((Interval.of m q).point - (k + 1))).map
        (Decimal.mk · ((Interval.of m q).point - (k + 1)))).isSome := by
    refine List.findSome?_isSome_iff.mpr ⟨16, by simp, ?_⟩
    rw [Option.isSome_map, Option.isSome_iff_ne_none]
    exact Interval.onGrid?_ne_none hm hc
  obtain ⟨d, hd⟩ := Option.isSome_iff_exists.mp hsome
  simp only [shortest, hd, stripZeros_value]
  obtain ⟨k, -, hk⟩ := List.exists_of_findSome?_eq_some hd
  obtain ⟨n, hn, rfl⟩ := Option.map_eq_some_iff.mp hk
  exact Interval.holds_iff.mp (Interval.holds_of_onGrid? hn)

theorem shortest_value_pos {tie : Tie} {m : Nat} {q : Int} (hm : 0 < m) (hc : Canonical m q) :
    0 < (shortest tie m q).value := by
  have hlow : 0 < lowest m q := by
    have := lowest_ge m q
    omega
  have hpos : 0 < (lowest m q : ℚ) * quarter q := mul_pos (by exact_mod_cast hlow) (quarter_pos q)
  exact hpos.trans_le (shortest_rounds hm hc).low_le

/-- Two magnitudes with the same shortest decimal are the same. -/
theorem shortest_injective {tie : Tie} {m m' : Nat} {q q' : Int} (hm : 0 < m) (hm' : 0 < m')
    (hc : Canonical m q) (hc' : Canonical m' q')
    (h : (shortest tie m q).value = (shortest tie m' q').value) : m = m' ∧ q = q' :=
  (shortest_rounds hm hc).unique hc hc' (h ▸ shortest_rounds hm' hc')

end Ability.Binary64
