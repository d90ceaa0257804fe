import Ability.Number.Shortest
import Ability.Proofs.Number.Parts
import Mathlib.Algebra.Order.Field.Power
import Mathlib.Tactic.FieldSimp
import Mathlib.Tactic.Linarith
import Mathlib.Tactic.Positivity
import Mathlib.Tactic.Ring

/-! The interval of the rationals that round to one magnitude. It is measured in quarters of the unit; no
rational lies in the intervals of two magnitudes. -/

namespace Ability.Binary64

/-- A quarter of the unit of the magnitudes `m · 2 ^ q`. -/
def quarter (q : Int) : ℚ := 2 ^ (q - 2)

/-- The lower end in quarters of the unit; just above a power of two the neighbour is nearer. -/
def lowest (m : Nat) (q : Int) : Nat := if m = leadingBit ∧ -1074 < q then 4 * m - 1 else 4 * m - 2

/-- Rationals between two neighbours round to the even one. -/
def Rounds (m : Nat) (q : Int) (x : ℚ) : Prop :=
  if m % 2 = 0 then lowest m q * quarter q ≤ x ∧ x ≤ (4 * m + 2 : Nat) * quarter q
  else lowest m q * quarter q < x ∧ x < (4 * m + 2 : Nat) * quarter q

theorem quarter_pos (q : Int) : 0 < quarter q := zpow_pos (by norm_num) _

theorem quarter_add (q : Int) (n : Nat) : quarter (q + n) = 2 ^ n * quarter q := by
  have hsum : q + n - 2 = n + (q - 2) := by ring
  rw [quarter, quarter, hsum, zpow_add₀ (by norm_num), zpow_natCast]

/-- A power with a whole exponent as a quotient of two with natural ones. -/
theorem zpow_mul_pow_toNat {a : ℚ} (ha : a ≠ 0) (e : Int) : a ^ e * a ^ (-e).toNat = a ^ e.toNat := by
  rcases le_total 0 e with he | he
  · obtain ⟨n, rfl⟩ := Int.eq_ofNat_of_zero_le he
    simp
  · obtain ⟨n, hn⟩ := Int.eq_ofNat_of_zero_le (neg_nonneg.mpr he)
    obtain rfl : e = -n := by omega
    simp [ha]

theorem Rounds.low_le {m : Nat} {q : Int} {x : ℚ} (h : Rounds m q x) : lowest m q * quarter q ≤ x := by
  unfold Rounds at h
  split at h
  · exact h.1
  · exact h.1.le

theorem Rounds.le_high {m : Nat} {q : Int} {x : ℚ} (h : Rounds m q x) :
    x ≤ (4 * m + 2 : Nat) * quarter q := by
  unfold Rounds at h
  split at h
  · exact h.2
  · exact h.2.le

theorem Rounds.strict {m : Nat} {q : Int} {x : ℚ} (h : Rounds m q x) (hm : m % 2 ≠ 0) :
    lowest m q * quarter q < x ∧ x < (4 * m + 2 : Nat) * quarter q := by
  rwa [Rounds, if_neg hm] at h

theorem rounds_of_between {m : Nat} {q : Int} {x : ℚ} (hlow : lowest m q * quarter q < x)
    (hhigh : x < (4 * m + 2 : Nat) * quarter q) : Rounds m q x := by
  unfold Rounds
  split
  · exact ⟨hlow.le, hhigh.le⟩
  · exact ⟨hlow, hhigh⟩

/-- Where two intervals meet, the lower end of the one is below the upper end of the other, and they are not
the same if either magnitude is odd. -/
theorem Rounds.ends {m m' n : Nat} {q : Int} {x : ℚ} (h : Rounds m q x) (h' : Rounds m' (q + n) x) :
    lowest m' (q + n) * 2 ^ n ≤ 4 * m + 2 ∧
      (m % 2 ≠ 0 ∨ m' % 2 ≠ 0 → lowest m' (q + n) * 2 ^ n < 4 * m + 2) := by
  have hq := quarter_pos q
  have hlow : (lowest m' (q + n) : ℚ) * quarter (q + n) =
      (lowest m' (q + n) * 2 ^ n : Nat) * quarter q := by
    rw [quarter_add]
    push_cast
    ring
  have hle := h'.low_le
  rw [hlow] at hle
  refine ⟨?_, ?_⟩
  · have hends := le_of_mul_le_mul_right (hle.trans h.le_high) hq
    exact_mod_cast hends
  · intro hodd
    have hends : ((lowest m' (q + n) * 2 ^ n : Nat) : ℚ) * quarter q < (4 * m + 2 : Nat) * quarter q := by
      rcases hodd with hm | hm'
      · exact hle.trans_lt (h.strict hm).2
      · have hlt := (h'.strict hm').1
        rw [hlow] at hlt
        exact hlt.trans_le h.le_high
    have hlt := lt_of_mul_lt_mul_right hends hq.le
    exact_mod_cast hlt

theorem lowest_ge (m : Nat) (q : Int) : 4 * m - 2 ≤ lowest m q := by
  unfold lowest
  split <;> omega

theorem lowest_lt (q : Int) {m : Nat} (hm : 0 < m) : lowest m q < 4 * m := by
  unfold lowest
  split <;> omega

/-- The intervals of two magnitudes of one unit do not meet. -/
theorem Rounds.eq_of_unit_eq {m m' : Nat} {q : Int} {x : ℚ} (h : Rounds m q x) (h' : Rounds m' q x) :
    m = m' := by
  obtain ⟨hle, hlt⟩ := h.ends (n := 0) (by simpa using h')
  obtain ⟨hle', hlt'⟩ := h'.ends (n := 0) (by simpa using h)
  have hlow := lowest_ge m q
  have hlow' := lowest_ge m' q
  simp only [Nat.cast_zero, add_zero, pow_zero, mul_one] at hle hle' hlt hlt'
  omega

/-- A magnitude of a greater unit is too great to round to the same. -/
theorem Rounds.not_lt {m m' : Nat} {q q' : Int} {x : ℚ} (hc : Canonical m q) (hc' : Canonical m' q')
    (h : Rounds m q x) (h' : Rounds m' q' x) : ¬ q < q' := by
  intro hq
  obtain ⟨n, rfl⟩ : ∃ n : Nat, q' = q + n := ⟨(q' - q).toNat, by omega⟩
  have hpow : 2 ≤ 2 ^ n := Nat.le_self_pow (by omega) 2
  obtain ⟨hle, hlt⟩ := h.ends h'
  have hlt53 := hc.lt
  have hfull : leadingBit ≤ m' := by
    have hge := hc.ge
    rcases hc'.full with hm | hm <;> omega
  -- in the least case twice the lower end is the upper end of the greatest odd magnitude
  have hlow : 4 * leadingBit - 1 ≤ lowest m' (q + n) := by
    have hge := hc.ge
    unfold lowest
    split <;> omega
  have hdouble : 2 * (4 * leadingBit - 1) ≤ lowest m' (q + n) * 2 ^ n := by
    rw [Nat.mul_comm]
    exact Nat.mul_le_mul hlow hpow
  have hbit : leadingBit = 4503599627370496 := rfl
  omega

theorem Rounds.unique {m m' : Nat} {q q' : Int} {x : ℚ} (hc : Canonical m q) (hc' : Canonical m' q')
    (h : Rounds m q x) (h' : Rounds m' q' x) : m = m' ∧ q = q' := by
  have hq := Rounds.not_lt hc hc' h h'
  have hq' := Rounds.not_lt hc' hc h' h
  obtain rfl : q = q' := by omega
  exact ⟨h.eq_of_unit_eq h', rfl⟩

namespace Interval

theorem den_pos (m : Nat) (q : Int) : 0 < ((of m q).den : ℚ) := by
  have h : (of m q).den = 2 ^ (2 - q).toNat := rfl
  rw [h]
  positivity

/-- Numerators over the common denominator are quarters of the unit. -/
theorem scale (q : Int) (n m : Nat) :
    ((n * exp2 (q - 2).toNat : Nat) : ℚ) = n * quarter q * (of m q).den := by
  have hden : ((of m q).den : ℚ) = 2 ^ (-(q - 2)).toNat := by
    rw [neg_sub]
    exact_mod_cast rfl
  have hnum : ((exp2 (q - 2).toNat : Nat) : ℚ) = 2 ^ (q - 2).toNat := by exact_mod_cast rfl
  rw [Nat.cast_mul, hnum, hden, mul_assoc, quarter, zpow_mul_pow_toNat (by norm_num)]

theorem low_eq (m : Nat) (q : Int) : ((of m q).low : ℚ) = lowest m q * quarter q * (of m q).den :=
  scale q (lowest m q) m

theorem value_eq (m : Nat) (q : Int) :
    ((of m q).value : ℚ) = (4 * m : Nat) * quarter q * (of m q).den := scale q (4 * m) m

theorem high_eq (m : Nat) (q : Int) :
    ((of m q).high : ℚ) = (4 * m + 2 : Nat) * quarter q * (of m q).den := scale q (4 * m + 2) m

theorem exp10_cast (n : Nat) : ((exp10 n : Nat) : ℚ) = 10 ^ n := by exact_mod_cast rfl

section

variable {i : Interval} {b d : Nat} {e : Int} {y : ℚ}

/-- Over common denominators the comparisons of an interval are comparisons of whole numbers. -/
theorem common (hd : 0 < (i.den : ℚ)) (hb : (b : ℚ) = y * i.den) : ∃ k : ℚ, 0 < k ∧
    ((b * exp10 (-e).toNat : Nat) : ℚ) = y * k ∧
    ((d * exp10 e.toNat * i.den : Nat) : ℚ) = d * 10 ^ e * k := by
  refine ⟨i.den * 10 ^ (-e).toNat, by positivity, ?_, ?_⟩
  · rw [Nat.cast_mul, exp10_cast, hb]
    ring
  · rw [Nat.cast_mul, Nat.cast_mul, exp10_cast, ← zpow_mul_pow_toNat (by norm_num) e]
    ring

theorem le_iff (hd : 0 < (i.den : ℚ)) (hb : (b : ℚ) = y * i.den) :
    b * exp10 (-e).toNat ≤ d * exp10 e.toNat * i.den ↔ y ≤ d * 10 ^ e := by
  obtain ⟨k, hk, hl, hr⟩ := common (d := d) (e := e) hd hb
  rw [← Nat.cast_le (α := ℚ), hl, hr, mul_le_mul_iff_left₀ hk]

theorem ge_iff (hd : 0 < (i.den : ℚ)) (hb : (b : ℚ) = y * i.den) :
    d * exp10 e.toNat * i.den ≤ b * exp10 (-e).toNat ↔ d * 10 ^ e ≤ y := by
  obtain ⟨k, hk, hl, hr⟩ := common (d := d) (e := e) hd hb
  rw [← Nat.cast_le (α := ℚ), hl, hr, mul_le_mul_iff_left₀ hk]

end

theorem holds_iff {m d : Nat} {q e : Int} :
    (of m q).holds d e = true ↔ Rounds m q (d * 10 ^ e) := by
  have hd := den_pos m q
  have hclosed : (of m q).closed = decide (m % 2 = 0) := rfl
  unfold holds Rounds
  rw [hclosed]
  by_cases hm : m % 2 = 0
  · simp only [hm, decide_true, if_true, decide_eq_true_eq, le_iff hd (low_eq m q),
      ge_iff hd (high_eq m q)]
  · simp only [hm, decide_false, Bool.false_eq_true, if_false, decide_eq_true_eq, ← not_le,
      le_iff hd (high_eq m q), ge_iff hd (low_eq m q)]

theorem holds_of_onGrid? {tie : Tie} {i : Interval} {e : Int} {d : Nat}
    (h : i.onGrid? tie e = some d) : i.holds d e = true := by
  simp only [onGrid?] at h
  split at h
  · next hb ha =>
    cases h
    split
    · exact hb
    · exact ha
  · next hb _ =>
    cases h
    exact hb
  · next _ ha =>
    cases h
    exact ha
  · cases h

/-- No neighbour on a grid is in the interval only if both ends lie between two points of the grid. -/
theorem width_le_of_onGrid?_none {tie : Tie} {m : Nat} {q e : Int} (hm : 0 < m)
    (h : (of m q).onGrid? tie e = none) :
    (4 * m + 2 : Nat) * quarter q ≤ lowest m q * quarter q + 10 ^ e := by
  have hd := den_pos m q
  have hvalue := value_eq m q
  have hq := quarter_pos q
  simp only [onGrid?] at h
  generalize hfloor : (of m q).value * exp10 (-e).toNat / ((of m q).den * exp10 e.toNat) = d at h
  have hbelow : (d : ℚ) * 10 ^ e ≤ (4 * m : Nat) * quarter q := by
    rw [← ge_iff hd hvalue, ← hfloor, mul_assoc, mul_comm (exp10 _)]
    exact Nat.div_mul_le_self ..
  have habove : ((4 * m : Nat) : ℚ) * quarter q < (d + 1 : Nat) * 10 ^ e := by
    rw [← not_le, ← ge_iff hd hvalue, not_le, ← hfloor, mul_assoc, mul_comm (exp10 _)]
    refine Nat.lt_mul_of_div_lt (Nat.lt_succ_self _) ?_
    have hden : 0 < (of m q).den := by exact_mod_cast hd
    exact Nat.mul_pos hden (Nat.pow_pos (by norm_num))
  split at h
  · cases h
  · cases h
  · cases h
  next hbefore hafter =>
  have hlow : (d : ℚ) * 10 ^ e ≤ lowest m q * quarter q := by
    by_contra hlow
    have hhigh : ((4 * m : Nat) : ℚ) * quarter q < (4 * m + 2 : Nat) * quarter q := by
      gcongr
      omega
    rw [holds_iff.mpr (rounds_of_between (not_le.mp hlow) (hbelow.trans_lt hhigh))] at hbefore
    cases hbefore
  have hhigh : ((4 * m + 2 : Nat) : ℚ) * quarter q ≤ (d + 1 : Nat) * 10 ^ e := by
    by_contra hhigh
    have hlow : (lowest m q : ℚ) * quarter q < (4 * m : Nat) * quarter q := by
      gcongr
      exact lowest_lt q hm
    rw [holds_iff.mpr (rounds_of_between (hlow.trans habove) (not_le.mp hhigh))] at hafter
    cases hafter
  have hnext : ((d + 1 : Nat) : ℚ) * 10 ^ e = d * 10 ^ e + 10 ^ e := by
    push_cast
    ring
  rw [hnext] at hhigh
  exact hhigh.trans (add_le_add_left hlow _)

end Interval

end Ability.Binary64
