import Ability.Json.Basic
import Ability.Proofs.Expression.Slots
import Ability.Proofs.Number.Nearest
import Ability.Proofs.Number.Text

/-! Numbers of a document as expressions. A number without an exponent in its text is a numeral, behind a minus
sign if it has one, and has its own value; an exponent is a word that the expression does not know. -/

namespace Ability

open Binary64

/-- What a document can hold: whole numbers of 64 bits, and doubles other than the special ones. -/
def Number.Storable : Number → Prop
  | integer i => -2 ^ 63 ≤ i ∧ i < 2 ^ 64
  | decimal x => x.isFinite = true

/-- Numbers that are written without an exponent: whole numbers, zero, and what is at least `1e-5` and below `1e16`
when it is rounded to the decimal that is written. -/
def Number.Plain : Number → Prop
  | integer _ => True
  | decimal x => ∀ s m q, parts x = .finite s m q →
      m = 0 ∨ 10 ^ (-5 : Int) ≤ (shortest .even m q).value ∧ (shortest .even m q).value < 10 ^ 16

namespace Expression

section Numerals

variable {ds fs : List Char}

theorem digits_value (ds : List Char) : Digits.value ds = digitsValue ds := rfl

theorem isNumeralChar_of_isDigit {c : Char} (h : c.isDigit = true) : isNumeralChar c = true := by
  simp [isNumeralChar, h]

theorem numeralValue?_whole (hds : ∀ c ∈ ds, c.isDigit = true) (hne : ds ≠ []) :
    numeralValue? ds = some (ofDecimal false (digitsValue ds) 0) := by
  obtain ⟨c, cs, rfl⟩ := List.exists_cons_of_ne_nil hne
  obtain ⟨htake, hdrop⟩ := takeWhile_of_stop (r := []) hds (by simp)
  rw [List.append_nil] at htake hdrop
  simp only [numeralValue?, htake, hdrop]
  simp [hds c (List.mem_cons_self ..), digits_value]

theorem numeralValue?_point (hds : ∀ c ∈ ds, c.isDigit = true) (hne : ds ≠ []) (hfs : ∀ c ∈ fs, c.isDigit = true) :
    numeralValue? (ds ++ '.' :: fs) =
      some (ofDecimal false (digitsValue (ds ++ fs)) (-(fs.length : Int))) := by
  obtain ⟨c, cs, rfl⟩ := List.exists_cons_of_ne_nil hne
  obtain ⟨htake, hdrop⟩ := takeWhile_of_stop (r := '.' :: fs) hds (by simp)
  have hall : fs.all Char.isDigit = true := List.all_eq_true.2 hfs
  simp only [numeralValue?, htake, hdrop]
  simp [hds c (List.mem_cons_self ..), digits_value, hall]

/-- The text has a point with digits on both sides. -/
def Pointed (cs : List Char) : Prop :=
  ∃ ws fs, cs = ws ++ '.' :: fs ∧ ws ≠ [] ∧ (∀ c ∈ ws, c.isDigit = true) ∧ ∀ c ∈ fs, c.isDigit = true

theorem pointed_positionalText (hds : ∀ c ∈ ds, c.isDigit = true) (hne : ds ≠ []) (p : Int) :
    Pointed (Layout.document.positionalText ds p) := by
  have hzeros : ∀ n, ∀ c ∈ List.replicate n '0', c.isDigit = true := by
    intro n c hc
    rw [List.eq_of_mem_replicate hc]
    rfl
  unfold Layout.positionalText
  split
  · refine ⟨['0'], List.replicate (-p).toNat '0' ++ ds, rfl, by simp, by simp, ?_⟩
    exact List.forall_mem_append.2 ⟨hzeros _, hds⟩
  split
  · refine ⟨ds ++ List.replicate (p - ds.length).toNat '0', ['0'], rfl, by simp [hne], ?_, by simp⟩
    exact List.forall_mem_append.2 ⟨hds, hzeros _⟩
  · next hp _ =>
    refine ⟨ds.take p.toNat, ds.drop p.toNat, rfl, ?_, fun c hc => hds c (List.mem_of_mem_take hc),
      fun c hc => hds c (List.mem_of_mem_drop hc)⟩
    simp only [Ne, List.take_eq_nil_iff, hne, or_false]
    omega

/-- The decimal that a pointed text is read as. -/
theorem Pointed.read {cs : List Char} (h : Pointed cs) :
    (∀ c ∈ cs, isNumeralChar c = true) ∧ ∃ (d : Nat) (e : Int), e ≤ 0 ∧ numeral cs = d * 10 ^ e ∧
      numeralValue? cs = some (ofDecimal false d e) := by
  obtain ⟨ws, fs, rfl, hne, hws, hfs⟩ := h
  have hpoint : '.' ∉ ws := notMem_of_digits hws rfl
  have hexponent : 'e' ∉ ws ++ '.' :: fs := by
    simp [notMem_of_digits hws (c := 'e') rfl, notMem_of_digits hfs (c := 'e') rfl]
  refine ⟨?_, digitsValue (ws ++ fs), -(fs.length : Int), by omega, ?_, numeralValue?_point hws hne hfs⟩
  · simp only [List.mem_append, List.mem_cons]
    rintro c (hc | rfl | hc)
    · exact isNumeralChar_of_isDigit (hws c hc)
    · rfl
    · exact isNumeralChar_of_isDigit (hfs c hc)
  · rw [numeral_fixed hexponent, fixedValue_point hpoint]

end Numerals

section Layouts

variable {m : Nat} {q : Int}

/-- Where the point of a decimal stands tells its power of ten. -/
theorem pow_point_bounds {d : Decimal} (hd : 0 < d.digits) {p : Int}
    (hp : p = (Nat.toDigits 10 d.digits).length + d.exponent) :
    (10 : ℚ) ^ (p - 1) ≤ d.value ∧ d.value < 10 ^ p := by
  obtain ⟨k, hk⟩ : ∃ k, (Nat.toDigits 10 d.digits).length = k + 1 :=
    Nat.exists_eq_succ_of_ne_zero (List.length_pos_iff.2 Nat.toDigits_ne_nil).ne'
  have hlow : 10 ^ k ≤ d.digits := by
    have hpow := Interval.pow_le_of_decimalLength hd
    rwa [decimalLength, hk] at hpow
  have hhigh : d.digits < 10 ^ (k + 1) := (Nat.length_toDigits_le_iff (by norm_num) k.succ_pos).1 hk.le
  have hten : (0 : ℚ) < 10 ^ d.exponent := by positivity
  have hp' : p - 1 = k + d.exponent := by omega
  have hsucc : p = (k + 1 : Nat) + d.exponent := by omega
  rw [hp', hsucc, zpow_add₀ (by norm_num), zpow_add₀ (by norm_num), zpow_natCast, zpow_natCast, Decimal.value]
  constructor
  · gcongr
    exact_mod_cast hlow
  · gcongr
    exact_mod_cast hhigh

theorem positional_iff {d : Decimal} (hd : 0 < d.digits) :
    Layout.document.positional ((Nat.toDigits 10 d.digits).length + d.exponent) = true ↔
      10 ^ (-5 : Int) ≤ d.value ∧ d.value < 10 ^ 16 := by
  obtain ⟨hlow, hhigh⟩ := pow_point_bounds hd rfl
  generalize ((Nat.toDigits 10 d.digits).length : Int) + d.exponent = p at *
  have hten : (1 : ℚ) < 10 := by norm_num
  rw [← zpow_ofNat]
  constructor
  · intro h
    obtain ⟨hge, hle⟩ : -4 ≤ p ∧ p ≤ 16 := of_decide_eq_true h
    exact ⟨(zpow_le_zpow_right₀ hten.le (by omega)).trans hlow,
      hhigh.trans_le (zpow_le_zpow_right₀ hten.le hle)⟩
  · rintro ⟨hge, hle⟩
    have hfirst := (zpow_lt_zpow_iff_right₀ hten).1 (hge.trans_lt hhigh)
    have hlast := (zpow_lt_zpow_iff_right₀ hten).1 (hlow.trans_lt hle)
    exact decide_eq_true ⟨by omega, by omega⟩

theorem digits_pos_of_value_pos {d : Decimal} (h : 0 < d.value) : 0 < d.digits := by
  by_contra hd
  obtain hzero : d.digits = 0 := by omega
  simp [Decimal.value, hzero] at h

/-- Zero and what is written without an exponent has a point in its text. -/
theorem pointed_magnitude (hc : Canonical m q) (h : m = 0 ∨ 10 ^ (-5 : Int) ≤ (shortest .even m q).value ∧
    (shortest .even m q).value < 10 ^ 16) : Pointed (Layout.document.magnitude m q) := by
  unfold Layout.magnitude
  split
  · exact ⟨['0'], ['0'], rfl, by simp, by simp, by simp⟩
  · next hm =>
    have hvalue : 0 < (shortest .even m q).value := shortest_value_pos (Nat.pos_of_ne_zero hm) hc
    have hpositional := (positional_iff (digits_pos_of_value_pos hvalue)).2 (h.resolve_left hm)
    exact (if_pos hpositional).symm ▸ pointed_positionalText (isDigit_toDigits _) Nat.toDigits_ne_nil _

end Layouts

/-- A text that is a number for an expression, and which one. -/
def IsNumber (cs : List Char) (x : Float) : Prop :=
  ∃ y : SignedNumber, cs = write (y.bare 0) ∧ y.value = x

theorem write_bare (y : SignedNumber) :
    write (y.bare 0) = (if y.negative then ['-'] else []) ++ y.magnitude.text := by
  unfold SignedNumber.bare
  split <;> simp [write, Symbol.text, Operator.symbol]

/-- The literal that a numeral is. -/
def Literal.ofNumeral (cs : List Char) (x : Float) (hcs : ∀ c ∈ cs, isNumeralChar c = true)
    (hx : numeralValue? cs = some x) : Literal :=
  ⟨cs, x, .inl ⟨List.all_eq_true.2 hcs, hx⟩⟩

theorem isNumber_integer {i : Int} (hi : i.natAbs < 2 ^ 64) :
    IsNumber (Number.integer i).write (Number.integer i).toFloat := by
  have hdigits := isDigit_toDigits i.natAbs
  have hread := numeralValue?_whole hdigits Nat.toDigits_ne_nil
  rw [digitsValue_toDigits, ofDecimal_natural] at hread
  refine ⟨⟨decide (i < 0), .ofNumeral _ _ (fun c hc => isNumeralChar_of_isDigit (hdigits c hc)) hread⟩, ?_, ?_⟩
  · simp [write_bare, Number.write, Literal.ofNumeral]
  · simp only [SignedNumber.value, Literal.ofNumeral, Number.toFloat, ofInt]
    by_cases h : i < 0
    · simp [h, neg_nearest (nearestBits_natural_lt hi)]
    · simp [h]

theorem isNumber_decimal {x : Float} {s : Bool} {m : Nat} {q : Int} (hx : parts x = .finite s m q)
    (h : m = 0 ∨ 10 ^ (-5 : Int) ≤ (shortest .even m q).value ∧ (shortest .even m q).value < 10 ^ 16) :
    IsNumber (Number.decimal x).write x := by
  have hc := canonical_of_parts hx
  obtain ⟨hchars, d, e, he, hvalue, hread⟩ := (pointed_magnitude hc h).read
  refine ⟨⟨s, .ofNumeral _ _ hchars hread⟩, ?_, ?_⟩
  · rw [write_bare, Number.write, Layout.write_eq, hx]
    rfl
  · show (if s then -ofDecimal false d e else ofDecimal false d e) = x
    rw [Layout.magnitude_value] at hvalue
    have hten : (0 : ℚ) < 10 ^ e := by positivity
    rcases Nat.eq_zero_or_pos m with rfl | hm
    · obtain rfl : d = 0 := by simpa [hten.ne'] using hvalue
      exact signed_ofDecimal_zero hx e
    · rw [if_neg hm.ne'] at hvalue
      have hpos : 0 < (shortest .even m q).value := shortest_value_pos hm hc
      have hrounds : Rounds m q (shortest .even m q).value := shortest_rounds hm hc
      have hvalue' : (shortest .even m q).value = d * 10 ^ e := hvalue
      rw [hvalue'] at hpos hrounds
      have hd : 0 < d := by exact_mod_cast (pos_iff_pos_of_mul_pos hpos).2 hten
      exact signed_ofDecimal_of_rounds hd he hm hx hrounds

section Exponents

/-- The text is a numeral with an exponent behind it that has a sign. -/
def Exponential (cs : List Char) : Prop :=
  ∃ ws r v, cs = ws ++ 'e' :: r ∧ (∀ c ∈ ws, isNumeralChar c = true) ∧ numeralValue? ws = some v ∧
    (∀ c ∈ r.head?, c.isAlphanum = false) ∧ '%' ∉ r

theorem exponential_exponentText {ds : List Char} (hds : ∀ c ∈ ds, c.isDigit = true) (hne : ds ≠ []) (p : Int) :
    Exponential (Layout.document.exponentText ds p) := by
  obtain ⟨d, fs, rfl⟩ := List.exists_cons_of_ne_nil hne
  have hd : ∀ c ∈ [d], c.isDigit = true := by simpa using hds d (List.mem_cons_self ..)
  have hfs : ∀ c ∈ fs, c.isDigit = true := fun c hc => hds c (List.mem_cons_of_mem _ hc)
  have hpercent : '%' ∉ Nat.toDigits 10 (p - 1).natAbs := notMem_of_digits (isDigit_toDigits _) rfl
  obtain ⟨sign, hsign, halnum, htext⟩ : ∃ sign : Char, sign ≠ '%' ∧ sign.isAlphanum = false ∧
      Layout.document.exponentText (d :: fs) p =
        ([d] ++ if fs = [] then [] else '.' :: fs) ++ 'e' :: sign :: Nat.toDigits 10 (p - 1).natAbs := by
    by_cases h : p - 1 < 0
    · exact ⟨'-', by decide, by decide, by simp [Layout.exponentText, h]⟩
    · exact ⟨'+', by decide, by decide, by simp [Layout.exponentText, h, Layout.document]⟩
  have hrest : ∀ c ∈ (sign :: Nat.toDigits 10 (p - 1).natAbs).head?, c.isAlphanum = false := by
    rintro c ⟨⟩
    exact halnum
  have hnone : '%' ∉ sign :: Nat.toDigits 10 (p - 1).natAbs := by simp [hsign.symm, hpercent]
  by_cases hempty : fs = []
  · rw [if_pos hempty, List.append_nil] at htext
    exact ⟨[d], _, _, htext, fun c hc => isNumeralChar_of_isDigit (hd c hc), numeralValue?_whole hd (by simp),
      hrest, hnone⟩
  · rw [if_neg hempty] at htext
    obtain ⟨hchars, _, _, -, -, hread⟩ := Pointed.read ⟨[d], fs, rfl, by simp, hd, hfs⟩
    exact ⟨_, _, _, htext, hchars, hread, hrest, hnone⟩

theorem exponential_magnitude {m : Nat} {q : Int} (hm : m ≠ 0) (hc : Canonical m q)
    (h : ¬ (10 ^ (-5 : Int) ≤ (shortest .even m q).value ∧ (shortest .even m q).value < 10 ^ 16)) :
    Exponential (Layout.document.magnitude m q) := by
  have hvalue : 0 < (shortest .even m q).value := shortest_value_pos (Nat.pos_of_ne_zero hm) hc
  have hexponent := mt (positional_iff (digits_pos_of_value_pos hvalue)).1 h
  have htext : Layout.document.magnitude m q = Layout.document.exponentText _ _ :=
    (if_neg hm).trans (if_neg hexponent)
  rw [htext]
  exact exponential_exponentText (isDigit_toDigits _) Nat.toDigits_ne_nil _

/-- An exponent is a word of its own, and not one that means anything. -/
theorem tokenize_exponential {cs : List Char} (h : Exponential cs) :
    tokenize cs = .error (.unknownWord "e") := by
  obtain ⟨ws, r, v, rfl, hchars, hread, hrest, -⟩ := h
  have hword : tokenize ('e' :: r) = .error (.unknownWord "e") := by
    obtain ⟨htake, -⟩ := takeWhile_of_stop (p := Char.isAlphanum) (r := r) (List.forall_mem_nil _) hrest
    rw [List.nil_append] at htake
    rw [tokenize_cons (by decide), lexeme, if_neg (by decide), if_pos (by decide), htake]
    rfl
  cases ws with
  | nil => cases hread
  | cons c ws =>
    have hblank := not_isBlank_of_isNameChar (isNameChar_of_isNumeralChar (hchars c (List.mem_cons_self ..)))
    have hnumeral := lexeme_numeral (r := 'e' :: r) hchars hread (by simp [isNumeralChar])
    rw [List.cons_append, tokenize_cons hblank, hnumeral, ok_bind, hword]
    rfl

end Exponents

section Placeholders

variable {n : Number}

theorem isNumber_of_plain (hn : n.Storable) (h : n.Plain) :
    IsNumber n.write n.toFloat ∧ n.toFloat.isFinite = true := by
  match n with
  | .integer i =>
    have hi : i.natAbs < 2 ^ 64 := by
      obtain ⟨hlow, hhigh⟩ := hn
      omega
    exact ⟨isNumber_integer hi, isFinite_nearest (nearestBits_natural_lt hi)⟩
  | .decimal x =>
    obtain ⟨s, m, q, hx⟩ := parts_of_isFinite hn
    exact ⟨isNumber_decimal hx (h s m q hx), hn⟩

/-- The sign of a number with an exponent is an operator before it, and its digits are not at fault. -/
theorem tokenize_of_not_plain (hn : n.Storable) (h : ¬ n.Plain) :
    tokenize n.write = .error (.unknownWord "e") ∧ '%' ∉ n.write := by
  match n with
  | .integer i => exact absurd trivial h
  | .decimal x =>
    obtain ⟨s, m, q, hx⟩ := parts_of_isFinite hn
    have hplain : ¬ (m = 0 ∨ 10 ^ (-5 : Int) ≤ (shortest .even m q).value ∧
        (shortest .even m q).value < 10 ^ 16) := by
      intro hplain
      refine h fun s' m' q' hx' => ?_
      rw [hx] at hx'
      cases hx'
      exact hplain
    rw [not_or] at hplain
    have hexponential := exponential_magnitude hplain.1 (canonical_of_parts hx) hplain.2
    have htext : (Number.decimal x).write =
        (if s then ['-'] else []) ++ Layout.document.magnitude m q := by
      rw [Number.write, Layout.write_eq, hx]
      rfl
    have hread := tokenize_exponential hexponential
    have hpercent : '%' ∉ Layout.document.magnitude m q := by
      obtain ⟨ws, r, -, hws, hchars, -, -, hr⟩ := hexponential
      rw [hws]
      simp only [List.mem_append, List.mem_cons, not_or]
      refine ⟨fun hmem => ?_, by decide, hr⟩
      exact absurd (hchars _ hmem) (by decide)
    rw [htext]
    cases s
    · exact ⟨hread, hpercent⟩
    · have hends : (Symbol.op .sub).EndsBefore (Layout.document.magnitude m q) := by
        rintro c hc rfl
        exact (Layout.magnitude_startsWithDigit _ m q).head_ne (c := '=') rfl hc
      refine ⟨?_, by simpa using hpercent⟩
      show tokenize ((Symbol.op .sub).text ++ _) = _
      rw [tokenize_symbol hends, hread]
      rfl

theorem SignedNumber.linked_bare (y : SignedNumber) (k : Nat) : (tokensOf (y.bare k)).IsChain Token.Follows := by
  unfold bare
  split
  · simp [tokensOf, Symbol.token, Token.Follows, Token.closes, Token.opens]
  · exact .singleton _

theorem SignedNumber.judge_bare {y : SignedNumber} (h : y.value.isFinite = true) (k : Nat) :
    judge (tokensOf (y.bare k)) = .ok y.value := by
  have hread : valueOf (tokensOf (y.bare k)) = .ok y.value := by
    unfold bare value
    split <;> rfl
  rw [judge, hread, ok_bind, if_pos h]
  rfl

/-- A reference to a placeholder, as an expression. -/
def referenceTo (name : String) : String := String.ofList ('%' :: (name.toList ++ ['%']))

variable {name : String} {p : Placeholders}

/-- A reference to a number without an exponent has the value of the number. -/
theorem evaluate_referenceTo_of_plain (hne : name ≠ "") (hname : ∀ c ∈ name.toList, Template.isNameChar c = true)
    (hp : p.get? name = some n.toText) (hn : n.Storable) (h : n.Plain) :
    evaluate (referenceTo name) p = .ok n.toFloat := by
  obtain ⟨⟨y, htext, hvalue⟩, hfinite⟩ := isNumber_of_plain hn h
  let gs : List (Nat × Slot) := [(0, .reference name.toList)]
  have hslots : referenceTo name = String.ofList (slotText gs) := by simp [referenceTo, slotText, gs, Slot.text]
  have hnames : Named gs := by simpa [Named, gs, slotNames, Slot.names, hne] using hname
  have hfilled : filledWith (fun _ => y.bare) gs = y.bare 0 := by simp [filledWith, gs]
  have hstands : StandFor p (fun _ => y.bare) gs := by
    simpa [StandFor, gs, slotNames, Slot.names, ← htext, Number.toText] using hp
  have hread := evaluate_slotText (σ := fun _ => y) hnames (.singleton _) (.singleton _)
    (fits_bare fun _ => y) hstands (hfilled ▸ y.linked_bare 0)
  rw [hslots, hread, hfilled, SignedNumber.judge_bare (hvalue ▸ hfinite), hvalue]
  rfl

/-- A reference to a number with an exponent is at fault with the letter. -/
theorem evaluate_referenceTo_of_not_plain (hne : name ≠ "")
    (hname : ∀ c ∈ name.toList, Template.isNameChar c = true) (hp : p.get? name = some n.toText)
    (hn : n.Storable) (h : ¬ n.Plain) :
    evaluate (referenceTo name) p = .error (.expression (referenceTo name) (.unknownWord "e")) := by
  obtain ⟨hread, hpercent⟩ := tokenize_of_not_plain hn h
  have hfill : Template.fill p (referenceTo name) = n.toText :=
    Template.fill_reference (by simpa using hne) hname (by rwa [String.ofList_toList])
  have htext : n.toText.toList = n.write := String.toList_ofList
  have hnone : Template.references n.toText = [] := by
    rw [Template.references_eq_nil_iff, htext]
    exact Template.not_mentions_of_notMem hpercent
  simp only [evaluate, hfill, hnone, value, htext, hread]
  rfl

end Placeholders

end Expression

end Ability
