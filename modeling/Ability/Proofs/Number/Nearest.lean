import Ability.Proofs.Number.Bits
import Ability.Proofs.Number.Shortest

/-! Rounding to the nearest double. A quotient in the interval of a magnitude is rounded to that magnitude, so
that a decimal in the interval of a double reads as the double. -/

namespace Ability.Binary64

variable {num den : Nat} {m : Nat} {q : Int}

theorem exp2_cast (n : Nat) : ((exp2 n : Nat) : ℚ) = 2 ^ n := by exact_mod_cast rfl

theorem exp2_pos (n : Nat) : 0 < exp2 n := Nat.pow_pos (by norm_num)

/-- A whole number not farther than a half from `x`, an odd one nearer than that. -/
structure Near (n : Nat) (x : ℚ) : Prop where
  low : n - 1 / 2 ≤ x
  high : x ≤ n + 1 / 2
  strict : n % 2 ≠ 0 → n - 1 / 2 < x ∧ x < n + 1 / 2

theorem div_lt_half {r den : Nat} (h : 2 * r < den) : (r : ℚ) / den < 1 / 2 := by
  have hpos : (0 : ℚ) < den := by exact_mod_cast (Nat.zero_le _).trans_lt h
  have hcast : (2 : ℚ) * r < den := by exact_mod_cast h
  rw [div_lt_iff₀ hpos]
  linarith

theorem half_lt_div {r den : Nat} (hden : 0 < den) (h : den < 2 * r) : 1 / 2 < (r : ℚ) / den := by
  have hpos : (0 : ℚ) < den := by exact_mod_cast hden
  have hcast : (den : ℚ) < 2 * r := by exact_mod_cast h
  rw [lt_div_iff₀ hpos]
  linarith

theorem div_eq_half {r den : Nat} (hden : 0 < den) (h : 2 * r = den) : (r : ℚ) / den = 1 / 2 := by
  have hpos : (0 : ℚ) < den := by exact_mod_cast hden
  have hcast : (2 : ℚ) * r = den := by exact_mod_cast h
  rw [← hcast, div_eq_iff (by linarith)]
  ring

theorem near_roundDiv (num : Nat) {den : Nat} (hden : 0 < den) : Near (roundDiv num den) ((num : ℚ) / den) := by
  have hpos : (0 : ℚ) < den := by exact_mod_cast hden
  have hlt := Nat.mod_lt num hden
  have hsplit : (num : ℚ) / den = (num / den : Nat) + (num % den : Nat) / den := by
    have hdiv : ((den * (num / den) + num % den : Nat) : ℚ) = num := by rw [Nat.div_add_mod]
    rw [← hdiv]
    push_cast
    field_simp
  unfold roundDiv
  generalize num / den = d at *
  generalize num % den = r at *
  rw [hsplit]
  have hzero : (0 : ℚ) ≤ r / den := by positivity
  have hone : (r : ℚ) / den < 1 := by
    rw [div_lt_one hpos]
    exact_mod_cast hlt
  dsimp only
  split
  · next hdown =>
    refine ⟨by linarith, ?_, fun hodd => ⟨by linarith, ?_⟩⟩
    · rcases hdown with h | ⟨h, -⟩
      · linarith [div_lt_half h]
      · linarith [div_eq_half hden h]
    · rcases hdown with h | ⟨-, h⟩
      · linarith [div_lt_half h]
      · exact absurd h hodd
  · next hup =>
    have hge : den < 2 * r ∨ 2 * r = den ∧ d % 2 ≠ 0 := by omega
    have hcast : ((d + 1 : Nat) : ℚ) = d + 1 := Nat.cast_succ d
    refine ⟨?_, by linarith, fun hodd => ⟨?_, by linarith⟩⟩
    · rcases hge with h | ⟨h, -⟩
      · linarith [half_lt_div hden h]
      · linarith [div_eq_half hden h]
    · rcases hge with h | ⟨-, h⟩
      · linarith [half_lt_div hden h]
      · omega

/-- The unit is the least one, or else the number has 53 binary digits in it. -/
structure Unit (q : Int) (x : ℚ) : Prop where
  ge : -1074 ≤ q
  lt : x < 2 ^ 53 * 2 ^ q
  full : q = -1074 ∨ 2 ^ 52 * 2 ^ q ≤ x

theorem two_zpow_le_iff (num : Nat) {den : Nat} (hden : 0 < den) (l : Int) :
    (2 : ℚ) ^ l ≤ num / den ↔ if 0 ≤ l then den * exp2 l.toNat ≤ num else den ≤ num * exp2 (-l).toNat := by
  have hpos : (0 : ℚ) < den := by exact_mod_cast hden
  rw [le_div_iff₀ hpos]
  split
  · next hl =>
    obtain ⟨n, rfl⟩ := Int.eq_ofNat_of_zero_le hl
    rw [← Nat.cast_le (α := ℚ), Nat.cast_mul, exp2_cast, Int.toNat_natCast, zpow_natCast, mul_comm]
  · next hl =>
    obtain ⟨n, hn⟩ := Int.eq_ofNat_of_zero_le (a := -l) (by omega)
    obtain rfl : l = -n := by omega
    rw [← Nat.cast_le (α := ℚ), Nat.cast_mul, exp2_cast, neg_neg, Int.toNat_natCast, zpow_neg, zpow_natCast,
      inv_mul_le_iff₀ (by positivity), mul_comm]

/-- The numbers of binary digits tell a quotient up to a factor of four. -/
theorem log2_bounds (hnum : 0 < num) (hden : 0 < den) :
    (2 : ℚ) ^ ((num.log2 : Int) - den.log2 - 1) ≤ num / den ∧
      (num : ℚ) / den < 2 ^ ((num.log2 : Int) - den.log2 + 1) := by
  have hpos : (0 : ℚ) < den := by exact_mod_cast hden
  have hnumlow : (2 : ℚ) ^ (num.log2 : Int) ≤ num := by exact_mod_cast Nat.log2_self_le hnum.ne'
  have hnumhigh : (num : ℚ) < 2 ^ ((num.log2 : Int) + 1) := by exact_mod_cast Nat.lt_log2_self
  have hdenlow : (2 : ℚ) ^ (den.log2 : Int) ≤ den := by exact_mod_cast Nat.log2_self_le hden.ne'
  have hdenhigh : (den : ℚ) < 2 ^ ((den.log2 : Int) + 1) := by exact_mod_cast Nat.lt_log2_self
  set l : Int := (num.log2 : Int) - den.log2 with hl
  constructor
  · rw [le_div_iff₀ hpos]
    calc (2 : ℚ) ^ (l - 1) * den ≤ 2 ^ (l - 1) * 2 ^ ((den.log2 : Int) + 1) := by gcongr
      _ = 2 ^ (num.log2 : Int) := by rw [← zpow_add₀ (by norm_num), hl]; congr 1; ring
      _ ≤ num := hnumlow
  · rw [div_lt_iff₀ hpos]
    calc (num : ℚ) < 2 ^ ((num.log2 : Int) + 1) := hnumhigh
      _ = 2 ^ (l + 1) * 2 ^ (den.log2 : Int) := by rw [← zpow_add₀ (by norm_num), hl]; congr 1; ring
      _ ≤ 2 ^ (l + 1) * den := by gcongr

theorem unit_unitExponent (hnum : 0 < num) (hden : 0 < den) : Unit (unitExponent num den) ((num : ℚ) / den) := by
  have htwo : (1 : ℚ) < 2 := by norm_num
  obtain ⟨hlow, hhigh⟩ := log2_bounds hnum hden
  set l : Int := (num.log2 : Int) - den.log2 with hl
  -- the place of the first binary digit
  obtain ⟨k, hk, hklow, hkhigh⟩ : ∃ k : Int, unitExponent num den = max (-1074) (k - 52) ∧
      (2 : ℚ) ^ k ≤ num / den ∧ (num : ℚ) / den < 2 ^ (k + 1) := by
    have hiff := two_zpow_le_iff num hden l
    by_cases h : (2 : ℚ) ^ l ≤ num / den
    · exact ⟨l, by simp only [unitExponent, ← hl, ← hiff, h, if_true], h, hhigh⟩
    · refine ⟨l - 1, by simp only [unitExponent, ← hl, ← hiff, h, if_false], hlow, ?_⟩
      rw [sub_add_cancel]
      exact not_le.1 h
  rw [hk]
  have hshift : ∀ n : Nat, (2 : ℚ) ^ n * 2 ^ (max (-1074) (k - 52)) = 2 ^ (n + max (-1074) (k - 52)) := by
    intro n
    rw [zpow_add₀ (by norm_num), zpow_natCast]
  refine ⟨le_max_left .., ?_, ?_⟩
  · rw [hshift]
    refine hkhigh.trans_le (zpow_le_zpow_right₀ htwo.le ?_)
    omega
  · rw [hshift]
    by_cases h : -1074 < k - 52
    · refine .inr (le_trans (zpow_le_zpow_right₀ htwo.le ?_) hklow)
      omega
    · exact .inl (by omega)

/-- Dividing in units, the numerator or the denominator scaled. -/
theorem near_units (num : Nat) {den : Nat} (hden : 0 < den) (q : Int) :
    Near (if 0 ≤ q then roundDiv num (den * exp2 q.toNat) else roundDiv (num * exp2 (-q).toNat) den)
      ((num : ℚ) / den / 2 ^ q) := by
  split
  · next hq =>
    obtain ⟨n, rfl⟩ := Int.eq_ofNat_of_zero_le hq
    have h := near_roundDiv num (Nat.mul_pos hden (exp2_pos n))
    rwa [Nat.cast_mul, exp2_cast, ← div_div] at h
  · next hq =>
    obtain ⟨n, hn⟩ := Int.eq_ofNat_of_zero_le (a := -q) (by omega)
    obtain rfl : q = -n := by omega
    have h := near_roundDiv (num * exp2 n) hden
    rw [Nat.cast_mul, exp2_cast] at h
    rw [neg_neg, Int.toNat_natCast, zpow_neg, zpow_natCast, div_inv_eq_mul, div_mul_eq_mul_div]
    exact h

theorem quarter_mul (q : Int) : 4 * quarter q = 2 ^ q := by
  rw [quarter, zpow_sub₀ (by norm_num)]
  norm_num
  ring

/-- A number near `m` units is in the interval of `m`, if it is not below it where the interval is narrow. -/
theorem rounds_of_near {x : ℚ} (hx : 0 ≤ x) (h : Near m (x / 2 ^ q))
    (hnarrow : m = leadingBit ∧ -1074 < q → m * 2 ^ q ≤ x) : Rounds m q x := by
  have hq := quarter_pos q
  have hunit := quarter_mul q
  have hscale : x = x / 2 ^ q * (4 * quarter q) := by
    rw [hunit]
    field_simp
  generalize x / 2 ^ q = y at h hscale
  have hhigh : ((4 * m + 2 : Nat) : ℚ) * quarter q = (m + 1 / 2) * (4 * quarter q) := by
    push_cast
    ring
  have hlow : (lowest m q : ℚ) * quarter q ≤ x ∧ (m % 2 ≠ 0 → (lowest m q : ℚ) * quarter q < x) := by
    unfold lowest
    split
    · next hm =>
      have hle := hnarrow hm
      rw [← hunit] at hle
      have hlt : ((4 * m - 1 : Nat) : ℚ) * quarter q < m * (4 * quarter q) := by
        have hbit : 0 < leadingBit := by decide
        rw [Nat.cast_sub (by omega)]
        push_cast
        linarith
      exact ⟨(hlt.trans_le hle).le, fun _ => hlt.trans_le hle⟩
    · rcases Nat.eq_zero_or_pos m with rfl | hm
      · simpa using hx
      · have hcast : ((4 * m - 2 : Nat) : ℚ) * quarter q = (m - 1 / 2) * (4 * quarter q) := by
          rw [Nat.cast_sub (by omega)]
          push_cast
          ring
        rw [hcast, hscale]
        exact ⟨by gcongr; exact h.low, fun hodd => by gcongr; exact (h.strict hodd).1⟩
  unfold Rounds
  rw [hhigh]
  split
  · exact ⟨hlow.1, by rw [hscale]; gcongr; exact h.high⟩
  · next hodd => exact ⟨hlow.2 hodd, by rw [hscale]; gcongr; exact (h.strict hodd).2⟩

/-- The bits of a magnitude. -/
def magnitudeBits (m : Nat) (q : Int) : Nat := (q + 1074).toNat * leadingBit + m

/-- Where rounding makes a 54th binary digit, the next unit takes over. -/
theorem rounds_carried {x : ℚ} (hge : -1074 ≤ q) (h : Near (2 * leadingBit) (x / 2 ^ q))
    (hlt : x < 2 ^ 53 * 2 ^ q) : Rounds leadingBit (q + 1) x := by
  have hpos : (0 : ℚ) < 2 ^ q := by positivity
  have hquarter : quarter (q + 1) = 2 ^ q / 2 := by
    have hsucc : quarter (q + 1) = 2 ^ 1 * quarter q := quarter_add q 1
    rw [hsucc, ← quarter_mul]
    ring
  have hlow := h.low
  rw [le_div_iff₀ hpos] at hlow
  have hlowest : lowest leadingBit (q + 1) = 4 * leadingBit - 1 := if_pos ⟨rfl, by omega⟩
  rw [Rounds, if_pos (by decide), hlowest, hquarter]
  norm_num [leadingBit] at hlow ⊢
  constructor <;> linarith

/-- A quotient is rounded to the magnitude in whose interval it is, as long as that is not too large. -/
theorem exists_rounds (hnum : 0 < num) (hden : 0 < den) :
    ∃ m q, Canonical m q ∧ Rounds m q ((num : ℚ) / den) ∧
      nearestBits num den = min (magnitudeBits m q) (2047 * leadingBit) := by
  have hunit := unit_unitExponent hnum hden
  have hnear := near_units num hden (unitExponent num den)
  have hbits : nearestBits num den = min (magnitudeBits _ _) (2047 * leadingBit) := if_neg hnum.ne'
  have hx : (0 : ℚ) ≤ (num : ℚ) / den := by positivity
  generalize (num : ℚ) / den = x at *
  generalize unitExponent num den = q at *
  generalize (if 0 ≤ q then _ else _ : Nat) = m at *
  have hpos : (0 : ℚ) < 2 ^ q := by positivity
  have hbit : (leadingBit : ℚ) = 2 ^ 52 := by norm_num [leadingBit]
  have hlow := hnear.low
  have hhigh := hnear.high
  have hlt := (div_lt_iff₀ hpos).2 hunit.lt
  have hm : m ≤ 2 * leadingBit := by
    have hcast : (m : ℚ) < 2 * leadingBit + 1 := by linarith
    exact Nat.le_of_lt_succ (by exact_mod_cast hcast)
  have hfull : q = -1074 ∨ leadingBit ≤ m ∧ (leadingBit : ℚ) * 2 ^ q ≤ x := by
    refine hunit.full.imp_right fun h => ?_
    have hge := (le_div_iff₀ hpos).2 h
    have hcast : (leadingBit : ℚ) < m + 1 := by linarith
    exact ⟨Nat.le_of_lt_succ (by exact_mod_cast hcast), by rwa [hbit]⟩
  rcases hm.lt_or_eq with hm | rfl
  · refine ⟨m, q, ⟨hm, hunit.ge, hfull.imp_right And.left⟩, rounds_of_near hx hnear ?_, hbits⟩
    rintro ⟨rfl, hq⟩
    exact (hfull.resolve_left hq.ne').2
  · have hge := hunit.ge
    have hcarry : magnitudeBits (2 * leadingBit) q = magnitudeBits leadingBit (q + 1) := by
      unfold magnitudeBits leadingBit
      omega
    refine ⟨leadingBit, q + 1, ⟨by decide, by omega, .inr le_rfl⟩, rounds_carried hge hnear hunit.lt, ?_⟩
    rw [hbits, hcarry]

theorem nearestBits_of_rounds (hnum : 0 < num) (hden : 0 < den) (hc : Canonical m q) (hq : q ≤ 971)
    (h : Rounds m q ((num : ℚ) / den)) : nearestBits num den = magnitudeBits m q := by
  obtain ⟨m', q', hc', h', hbits⟩ := exists_rounds hnum hden
  obtain ⟨rfl, rfl⟩ := h.unique hc hc' h'
  have hlt := hc.lt
  rw [hbits, min_eq_left]
  unfold magnitudeBits leadingBit at *
  omega

section Doubles

variable {s : Bool} {x : Float} {b : Nat}

theorem pattern_split (s : Bool) (b : Nat) :
    pattern s (b / leadingBit) (b % leadingBit) = (if s then signBit else 0) + b := by
  rw [pattern, Nat.add_assoc, Nat.mul_comm, Nat.div_add_mod]

/-- Exponent and fraction of the bits of a finite double. -/
theorem fields_lt (h : b < 2047 * leadingBit) : b / leadingBit < 2047 ∧ b % leadingBit < leadingBit :=
  ⟨Nat.div_lt_of_lt_mul (by rwa [Nat.mul_comm]), Nat.mod_lt _ (by decide)⟩

/-- The bits of a rounded quotient that is not too large are those that were worked out. -/
theorem toBits_nearest (h : nearestBits num den < 2047 * leadingBit) :
    (nearest s num den).toBits.toNat =
      pattern s (nearestBits num den / leadingBit) (nearestBits num den % leadingBit) := by
  obtain ⟨hexponent, hfraction⟩ := fields_lt h
  rw [← toBits_ofBits hexponent hfraction, pattern_split, nearest]

theorem neg_nearest (h : nearestBits num den < 2047 * leadingBit) :
    -(nearest false num den) = nearest true num den := by
  obtain ⟨hexponent, hfraction⟩ := fields_lt h
  apply eq_of_toBits_eq
  rw [toBits_neg hexponent hfraction (toBits_nearest h), toBits_nearest h]
  rfl

theorem isFinite_nearest (h : nearestBits num den < 2047 * leadingBit) : (nearest s num den).isFinite = true :=
  isFinite_of_toBits (fields_lt h).1 (fields_lt h).2 (toBits_nearest h)

theorem exponent_le_of_parts (h : parts x = .finite s m q) : q ≤ 971 := by
  simp only [parts] at h
  split at h
  · split at h <;> cases h
  · split at h
    · cases h
      decide
    · next hexponent _ =>
      cases h
      omega

theorem magnitudeBits_lt (hc : Canonical m q) (hq : q ≤ 971) : magnitudeBits m q < 2047 * leadingBit := by
  have hlt := hc.lt
  unfold magnitudeBits leadingBit at *
  omega

theorem toBits_of_parts (h : parts x = .finite s m q) :
    x.toBits.toNat = pattern s (magnitudeBits m q / leadingBit) (magnitudeBits m q % leadingBit) := by
  have hc := canonical_of_parts h
  rw [toBits_of_parts_finite h, pattern_split, magnitudeBits]
  have hge := hc.ge
  split
  · next hm =>
    obtain rfl := hc.full.resolve_right (by omega)
    simp [pattern]
  · unfold pattern leadingBit at *
    omega

theorem parts_of_isFinite (h : x.isFinite = true) : ∃ s m q, parts x = .finite s m q := by
  have hfinite : (Float.Model.UnpackedFloat.unpack .binary64 x.toBits.toBitVec).isFinite = true := h
  cases hx : parts x with
  | finite s m q => exact ⟨s, m, q, rfl⟩
  | nan =>
    rw [toBits_of_parts_nan hx] at hfinite
    cases hfinite
  | infinite s =>
    have hbits : x.toBits.toBitVec = BitVec.ofNat 64 (pattern s 2047 0) := by
      apply BitVec.eq_of_toNat_eq
      rw [← toBits_of_parts_infinite hx]
      exact (Nat.mod_eq_of_lt x.toBits.toNat_lt).symm
    rw [hbits] at hfinite
    cases s <;> cases hfinite

/-- A double is what the quotients in its interval are rounded to. -/
theorem nearest_of_rounds (hnum : 0 < num) (hden : 0 < den) (hx : parts x = .finite s m q)
    (h : Rounds m q ((num : ℚ) / den)) : nearest s num den = x := by
  have hc := canonical_of_parts hx
  have hq := exponent_le_of_parts hx
  have hbits := nearestBits_of_rounds hnum hden hc hq h
  apply eq_of_toBits_eq
  rw [toBits_nearest (hbits ▸ magnitudeBits_lt hc hq), toBits_of_parts hx, hbits]

end Doubles

section Decimals

variable {d : Nat} {e : Int}

/-- Nothing that rounds to a double other than zero is so small that it is taken for zero unread. -/
theorem log2_add_ge_of_rounds (hm : 0 < m) (hc : Canonical m q) (h : Rounds m q (d * 10 ^ e)) :
    -400 ≤ d.log2 + e := by
  by_contra hlt
  have hsmall : (d : ℚ) * 10 ^ e < 10 ^ (-400 : Int) := by
    have hpow : (d : ℚ) < 10 ^ ((d.log2 : Int) + 1) := by
      have hlog : d < 10 ^ (d.log2 + 1) :=
        (Nat.lt_log2_self (n := d)).trans_le (Nat.pow_le_pow_left (by norm_num) _)
      exact_mod_cast hlog
    calc (d : ℚ) * 10 ^ e < 10 ^ ((d.log2 : Int) + 1) * 10 ^ e := by gcongr
      _ = 10 ^ ((d.log2 : Int) + 1 + e) := by rw [← zpow_add₀ (by norm_num)]
      _ ≤ 10 ^ (-400 : Int) := zpow_le_zpow_right₀ (by norm_num) (by omega)
  have hlarge : (2 : ℚ) ^ (-1076 : Int) ≤ d * 10 ^ e := by
    have hquarter : (2 : ℚ) ^ (-1076 : Int) ≤ quarter q :=
      zpow_le_zpow_right₀ (by norm_num) (by linarith [hc.ge])
    have hlowest : (1 : ℚ) ≤ lowest m q := by
      have hge := lowest_ge m q
      exact_mod_cast (by omega : 1 ≤ lowest m q)
    calc (2 : ℚ) ^ (-1076 : Int) ≤ 1 * quarter q := by rwa [one_mul]
      _ ≤ lowest m q * quarter q := mul_le_mul_of_nonneg_right hlowest (quarter_pos q).le
      _ ≤ d * 10 ^ e := h.low_le
  have hpowers : (2 : ℚ) ^ 1076 ≤ 10 ^ 400 := by
    rw [← exp2_cast, ← Interval.exp10_cast]
    exact_mod_cast Interval.exp2_le_exp10 (k := 1076) (n := 400) (by norm_num)
  have hinverse : (10 : ℚ) ^ (-400 : Int) ≤ 2 ^ (-1076 : Int) := by
    rw [zpow_neg, zpow_neg, zpow_ofNat, zpow_ofNat]
    exact inv_anti₀ (by positivity) hpowers
  linarith

/-- A decimal without a positive exponent is read as a quotient. -/
theorem exists_ofDecimal_eq_nearest (hd : 0 < d) (he : e ≤ 0) (hge : -400 ≤ d.log2 + e) :
    ∃ num den : Nat, 0 < num ∧ 0 < den ∧ (num : ℚ) / den = d * 10 ^ e ∧
      ∀ s, ofDecimal s d e = nearest s num den := by
  have hten : ∀ n, 0 < exp10 n := fun n => Nat.pow_pos (by norm_num)
  have hread : ∀ s, ofDecimal s d e =
      if 0 ≤ e then nearest s (d * exp10 e.toNat) 1 else nearest s d (exp10 (-e).toNat) := by
    intro s
    rw [ofDecimal, if_neg (by omega), if_neg (by omega)]
  rcases he.lt_or_eq with he | rfl
  · refine ⟨d, exp10 (-e).toNat, hd, hten _, ?_, fun s => by rw [hread, if_neg (by omega)]⟩
    obtain ⟨n, hn⟩ := Int.eq_ofNat_of_zero_le (neg_nonneg.2 he.le)
    obtain rfl : e = -n := by omega
    rw [neg_neg, Int.toNat_natCast, Interval.exp10_cast, div_eq_mul_inv, ← zpow_natCast, ← zpow_neg]
  · exact ⟨d * exp10 0, 1, Nat.mul_pos hd (hten _), one_pos, by simp [exp10], fun s => by rw [hread]; rfl⟩

theorem signed_ofDecimal_zero {s : Bool} {x : Float} (hx : parts x = .finite s 0 q) (e : Int) :
    (if s then -ofDecimal false 0 e else ofDecimal false 0 e) = x := by
  have hread : ofDecimal false 0 e = nearest false 0 1 := if_pos (.inl rfl)
  have hq : q = -1074 := (canonical_of_parts hx).full.resolve_right (by decide)
  have hbits : nearestBits 0 1 < 2047 * leadingBit := by decide
  have hzero : nearest s 0 1 = x := by
    apply eq_of_toBits_eq
    rw [toBits_nearest hbits, toBits_of_parts hx, hq]
    rfl
  rw [hread, neg_nearest hbits, ← hzero]
  cases s <;> rfl

/-- A decimal that is in the interval of a double reads as that double, behind a minus sign if it has one. -/
theorem signed_ofDecimal_of_rounds {s : Bool} {x : Float} (hd : 0 < d) (he : e ≤ 0) (hm : 0 < m)
    (hx : parts x = .finite s m q) (h : Rounds m q (d * 10 ^ e)) :
    (if s then -ofDecimal false d e else ofDecimal false d e) = x := by
  have hc := canonical_of_parts hx
  have hq := exponent_le_of_parts hx
  obtain ⟨num, den, hnum, hden, hvalue, hread⟩ :=
    exists_ofDecimal_eq_nearest hd he (log2_add_ge_of_rounds hm hc h)
  rw [← hvalue] at h
  have hbits := nearestBits_of_rounds hnum hden hc hq h
  rw [hread, ← nearest_of_rounds hnum hden hx h]
  cases s
  · rfl
  · exact neg_nearest (hbits ▸ magnitudeBits_lt hc hq)

end Decimals

section Naturals

theorem ofDecimal_natural (s : Bool) (n : Nat) : ofDecimal s n 0 = nearest s n 1 := by
  unfold ofDecimal
  split
  · next h =>
    obtain rfl : n = 0 := by omega
    rfl
  · simp [exp10]

/-- Whole numbers of 64 bits are not too large for a double. -/
theorem nearestBits_natural_lt {n : Nat} (hn : n < 2 ^ 64) : nearestBits n 1 < 2047 * leadingBit := by
  rcases Nat.eq_zero_or_pos n with rfl | hpos
  · decide
  obtain ⟨m, q, hc, hrounds, hbits⟩ := exists_rounds hpos one_pos
  refine hbits.trans_lt ((Nat.min_le_left ..).trans_lt (magnitudeBits_lt hc ?_))
  by_contra hq
  have hm : leadingBit ≤ m := hc.full.resolve_left (by omega)
  have hlowest : (2 ^ 53 : ℚ) ≤ lowest m q := by
    have hge := lowest_ge m q
    have hnat : 2 ^ 53 ≤ lowest m q := by
      unfold leadingBit at hm
      omega
    exact_mod_cast hnat
  have hquarter : (2 : ℚ) ^ (11 : Int) ≤ quarter q := zpow_le_zpow_right₀ (by norm_num) (by omega)
  have hlow : (lowest m q : ℚ) * quarter q ≤ n := by simpa using hrounds.low_le
  have hhigh : (n : ℚ) < 2 ^ 53 * 2 ^ (11 : Int) := by
    norm_num
    exact hn
  have hlarge : (2 : ℚ) ^ 53 * 2 ^ (11 : Int) ≤ lowest m q * quarter q := by gcongr
  exact absurd (hlarge.trans hlow) (not_le.2 hhigh)

end Naturals

end Ability.Binary64
