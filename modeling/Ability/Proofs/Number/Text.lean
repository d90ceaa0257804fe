import Ability.Proofs.Number.Shortest
import Mathlib.Data.List.TakeWhile

/-! What the written form of a double stands for. Read as a number with a point and an exponent it is the
decimal that was written, in whichever of the forms; so no two doubles have one text. -/

namespace Ability.Binary64

def digitsValue (ds : List Char) : Nat := Nat.ofDigitChars 10 ds 0

/-- The number that digits with a point among them stand for. -/
def fixedValue (cs : List Char) : ℚ :=
  let whole := cs.takeWhile (· ≠ '.')
  let fraction := (cs.dropWhile (· ≠ '.')).drop 1
  digitsValue (whole ++ fraction) * 10 ^ (-(fraction.length : Int))

def exponentValue : List Char → Int
  | '-' :: ds => -(digitsValue ds : Int)
  | '+' :: ds => digitsValue ds
  | ds => digitsValue ds

/-- The number that a text with a point and an exponent stands for; it may lack either. -/
def numeral (cs : List Char) : ℚ :=
  fixedValue (cs.takeWhile (· ≠ 'e')) * 10 ^ exponentValue ((cs.dropWhile (· ≠ 'e')).drop 1)

section Reading

variable {c : Char} {cs ds fs : List Char}

theorem span_of_notMem (h : c ∉ cs) (rest : List Char) :
    (cs ++ c :: rest).takeWhile (· ≠ c) = cs ∧ (cs ++ c :: rest).dropWhile (· ≠ c) = c :: rest := by
  have hall : ∀ x ∈ cs, decide (x ≠ c) = true := by
    intro x hx
    exact decide_eq_true fun hxc => h (hxc ▸ hx)
  rw [List.takeWhile_append_of_pos hall, List.dropWhile_append_of_pos hall]
  simp

theorem span_of_notMem_self (h : c ∉ cs) :
    cs.takeWhile (· ≠ c) = cs ∧ cs.dropWhile (· ≠ c) = [] := by
  have hall : ∀ x ∈ cs, decide (x ≠ c) = true := by
    intro x hx
    exact decide_eq_true fun hxc => h (hxc ▸ hx)
  exact ⟨List.takeWhile_eq_self_iff.mpr hall, List.dropWhile_eq_nil_iff.mpr hall⟩

theorem fixedValue_whole (h : '.' ∉ cs) : fixedValue cs = digitsValue cs := by
  obtain ⟨ht, hd⟩ := span_of_notMem_self h
  simp only [fixedValue, ht, hd]
  simp

theorem fixedValue_point (h : '.' ∉ cs) :
    fixedValue (cs ++ '.' :: fs) = digitsValue (cs ++ fs) * 10 ^ (-(fs.length : Int)) := by
  obtain ⟨ht, hd⟩ := span_of_notMem h fs
  simp only [fixedValue, ht, hd, List.drop_succ_cons, List.drop_zero]

theorem numeral_fixed (h : 'e' ∉ cs) : numeral cs = fixedValue cs := by
  obtain ⟨ht, hd⟩ := span_of_notMem_self h
  simp only [numeral, ht, hd]
  simp [exponentValue, digitsValue]

theorem numeral_exponent (h : 'e' ∉ cs) :
    numeral (cs ++ 'e' :: fs) = fixedValue cs * 10 ^ exponentValue fs := by
  obtain ⟨ht, hd⟩ := span_of_notMem h fs
  simp only [numeral, ht, hd, List.drop_succ_cons, List.drop_zero]

theorem digitsValue_zeros (n : Nat) (ds : List Char) :
    digitsValue (List.replicate n '0' ++ ds) = digitsValue ds := by
  simp [digitsValue, Nat.ofDigitChars_append, Nat.ofDigitChars_replicate_zero]

theorem digitsValue_append_zeros (ds : List Char) (n : Nat) :
    digitsValue (ds ++ List.replicate n '0') = 10 ^ n * digitsValue ds := by
  simp [digitsValue, Nat.ofDigitChars_append, Nat.ofDigitChars_replicate_zero]

theorem notMem_of_digits (hds : ∀ c ∈ ds, c.isDigit = true) (hc : c.isDigit = false) : c ∉ ds := by
  intro hmem
  rw [hds c hmem] at hc
  cases hc

theorem exponentValue_digits (hds : ∀ c ∈ ds, c.isDigit = true) : exponentValue ds = digitsValue ds := by
  unfold exponentValue
  split
  · exact absurd (List.mem_cons_self ..) (notMem_of_digits hds rfl)
  · exact absurd (List.mem_cons_self ..) (notMem_of_digits hds rfl)
  · rfl

end Reading

section Writing

variable {ds : List Char}

theorem isDigit_toDigits (n : Nat) : ∀ c ∈ Nat.toDigits 10 n, c.isDigit = true :=
  fun _ hc => Nat.isDigit_of_mem_toDigits (by norm_num) (by norm_num) hc

theorem digitsValue_toDigits (n : Nat) : digitsValue (Nat.toDigits 10 n) = n :=
  Nat.ofDigitChars_ten_toDigits

theorem positionalText_value (l : Layout) (hds : ∀ c ∈ ds, c.isDigit = true) (p : Int) :
    numeral (l.positionalText ds p) = digitsValue ds * 10 ^ (p - ds.length) := by
  have hpoint := notMem_of_digits hds (c := '.') rfl
  have hexp := notMem_of_digits hds (c := 'e') rfl
  have hten : (10 : ℚ) ≠ 0 := by norm_num
  unfold Layout.positionalText
  split
  -- all digits stand behind the point
  · next hp =>
    have hsplit : '0' :: '.' :: List.replicate (-p).toNat '0' ++ ds =
        ['0'] ++ '.' :: (List.replicate (-p).toNat '0' ++ ds) := rfl
    have hone : digitsValue (['0'] ++ (List.replicate (-p).toNat '0' ++ ds)) = digitsValue ds :=
      digitsValue_zeros ((-p).toNat + 1) ds
    rw [hsplit, numeral_fixed (by simp [hexp]), fixedValue_point (by simp), hone]
    congr 2
    rw [List.length_append, List.length_replicate]
    omega
  split
  -- the digits are followed by zeros before the point
  · next hp hlen =>
    have hwhole : ((digitsValue (ds ++ List.replicate (p - ds.length).toNat '0') : Nat) : ℚ) =
        digitsValue ds * 10 ^ (p - ds.length) := by
      obtain ⟨n, hn⟩ := Int.eq_ofNat_of_zero_le (sub_nonneg.mpr hlen)
      rw [hn, digitsValue_append_zeros, Int.toNat_natCast, zpow_natCast]
      push_cast
      ring
    split
    · rw [numeral_fixed (by simp [hexp]), fixedValue_point (by simp [hpoint])]
      have hone : ['0'] = List.replicate 1 '0' := rfl
      rw [hone, digitsValue_append_zeros, ← hwhole, List.length_replicate]
      push_cast
      ring
    · rw [List.append_nil, numeral_fixed (by simp [hexp]), fixedValue_whole (by simp [hpoint]), hwhole]
  -- the point stands among the digits
  · next hp hlen =>
    have htake : ∀ c : Char, c ∉ ds → c ∉ ds.take p.toNat := fun c hc hm => hc (List.mem_of_mem_take hm)
    have hdrop : ∀ c : Char, c ∉ ds → c ∉ ds.drop p.toNat := fun c hc hm => hc (List.mem_of_mem_drop hm)
    rw [numeral_fixed (by simp [htake _ hexp, hdrop _ hexp]), fixedValue_point (htake _ hpoint),
      List.take_append_drop]
    congr 2
    rw [List.length_drop]
    omega

theorem exponentValue_signed (plus : Bool) (e : Int) :
    exponentValue ((if e < 0 then ['-'] else if plus then ['+'] else []) ++ Nat.toDigits 10 e.natAbs) =
      e := by
  have hdigits := digitsValue_toDigits e.natAbs
  split
  · have hneg : exponentValue (['-'] ++ Nat.toDigits 10 e.natAbs) =
        -(digitsValue (Nat.toDigits 10 e.natAbs) : Int) := rfl
    rw [hneg, hdigits]
    omega
  · split
    · have hplus : exponentValue (['+'] ++ Nat.toDigits 10 e.natAbs) =
          digitsValue (Nat.toDigits 10 e.natAbs) := rfl
      rw [hplus, hdigits]
      omega
    · rw [List.nil_append, exponentValue_digits (isDigit_toDigits _), hdigits]
      omega

theorem exponentText_value (l : Layout) (hds : ∀ c ∈ ds, c.isDigit = true) (hne : ds ≠ []) (p : Int) :
    numeral (l.exponentText ds p) = digitsValue ds * 10 ^ (p - ds.length) := by
  have hpoint := notMem_of_digits hds (c := '.') rfl
  have hexp := notMem_of_digits hds (c := 'e') rfl
  obtain ⟨d, fs, rfl⟩ := List.exists_cons_of_ne_nil hne
  simp only [List.mem_cons, not_or] at hpoint hexp
  have hlength : (p - (d :: fs).length : Int) = -(fs.length : Int) + (p - 1) := by
    rw [List.length_cons]
    push_cast
    ring
  have htext : l.exponentText (d :: fs) p =
      ([d] ++ if fs.length = 0 then [] else '.' :: fs) ++ 'e' ::
        ((if p - 1 < 0 then ['-'] else if l.plus then ['+'] else []) ++
          Nat.toDigits 10 (p - 1).natAbs) := by
    simp [Layout.exponentText]
  rw [htext, numeral_exponent, exponentValue_signed, hlength, zpow_add₀ (by norm_num), ← mul_assoc]
  · congr 1
    split
    · next hfs =>
      rw [List.length_eq_zero_iff] at hfs
      rw [List.append_nil, fixedValue_whole (by simp [hpoint]), hfs]
      simp
    · exact fixedValue_point (by simp [hpoint])
  · split <;> simp [hexp]

end Writing

/-- A magnitude as it is written, without its sign. -/
def Layout.magnitude (l : Layout) (m : Nat) (q : Int) : List Char :=
  if m = 0 then '0' :: (if l.wholeMark then ['.', '0'] else [])
  else
    let d := shortest l.tie m q
    let ds := Nat.toDigits 10 d.digits
    let p := ds.length + d.exponent
    if l.positional p then l.positionalText ds p else l.exponentText ds p

def Parts.negative : Parts → Bool
  | nan => false
  | infinite s => s
  | finite s _ _ => s

def Layout.body (l : Layout) : Parts → List Char
  | .nan => ['N', 'a', 'N']
  | .infinite _ => ['i', 'n', 'f']
  | .finite _ m q => l.magnitude m q

/-- A text whose first character is a digit. -/
def StartsWithDigit (cs : List Char) : Prop := ∃ c r, cs = c :: r ∧ c.isDigit = true

section

variable {l : Layout} {cs cs' : List Char} {s t : Bool}

theorem Layout.write_eq (l : Layout) (x : Float) :
    l.write x = (if (parts x).negative then ['-'] else []) ++ l.body (parts x) := by
  unfold Layout.write
  cases parts x with
  | nan => rfl
  | infinite s => rfl
  | finite s m q => rfl

theorem sign_append_injective (hc : cs.head? ≠ some '-') (hc' : cs'.head? ≠ some '-')
    (h : (if s then ['-'] else []) ++ cs = (if t then ['-'] else []) ++ cs') : s = t ∧ cs = cs' := by
  cases s <;> cases t
  · exact ⟨rfl, h⟩
  · exact absurd (congrArg List.head? h) (by simpa using hc)
  · exact absurd (congrArg List.head? h).symm (by simpa using hc')
  · exact ⟨rfl, List.append_cancel_left h⟩

theorem StartsWithDigit.head_ne (h : StartsWithDigit cs) {c : Char} (hc : c.isDigit = false) :
    cs.head? ≠ some c := by
  obtain ⟨d, r, rfl, hd⟩ := h
  intro hdc
  obtain rfl : d = c := Option.some.inj hdc
  rw [hd] at hc
  cases hc

theorem StartsWithDigit.append (h : StartsWithDigit cs) (fs : List Char) : StartsWithDigit (cs ++ fs) := by
  obtain ⟨d, r, rfl, hd⟩ := h
  exact ⟨d, r ++ fs, rfl, hd⟩

theorem StartsWithDigit.take (h : StartsWithDigit cs) {n : Nat} (hn : 0 < n) :
    StartsWithDigit (cs.take n) := by
  obtain ⟨d, r, rfl, hd⟩ := h
  obtain ⟨k, rfl⟩ := Nat.exists_eq_succ_of_ne_zero hn.ne'
  exact ⟨d, r.take k, rfl, hd⟩

theorem startsWithDigit_toDigits (n : Nat) : StartsWithDigit (Nat.toDigits 10 n) := by
  obtain ⟨d, r, hdr⟩ := List.exists_cons_of_ne_nil (Nat.toDigits_ne_nil (b := 10) (n := n))
  exact ⟨d, r, hdr, isDigit_toDigits n d (hdr ▸ List.mem_cons_self ..)⟩

theorem Layout.magnitude_startsWithDigit (l : Layout) (m : Nat) (q : Int) :
    StartsWithDigit (l.magnitude m q) := by
  unfold Layout.magnitude
  split
  · exact ⟨'0', _, rfl, rfl⟩
  have hds := startsWithDigit_toDigits (shortest l.tie m q).digits
  dsimp only
  split
  · unfold Layout.positionalText
    split
    · exact ⟨'0', _, rfl, rfl⟩
    split
    · exact (hds.append _).append _
    · exact (hds.take (by omega)).append _
  · exact (((hds.take one_pos).append _).append _).append _

theorem Layout.magnitude_value (l : Layout) (m : Nat) (q : Int) :
    numeral (l.magnitude m q) = if m = 0 then 0 else (shortest l.tie m q).value := by
  unfold Layout.magnitude
  split
  · split
    · have hsplit : '0' :: ['.', '0'] = ['0'] ++ '.' :: ['0'] := rfl
      rw [hsplit, numeral_fixed (by simp), fixedValue_point (by simp)]
      simp [digitsValue, Nat.ofDigitChars_cons]
    · rw [numeral_fixed (by simp), fixedValue_whole (by simp)]
      simp [digitsValue, Nat.ofDigitChars_cons]
  · have hds := isDigit_toDigits (shortest l.tie m q).digits
    dsimp only
    split
    · rw [positionalText_value l hds, digitsValue_toDigits, add_sub_cancel_left]
      rfl
    · rw [exponentText_value l hds Nat.toDigits_ne_nil, digitsValue_toDigits, add_sub_cancel_left]
      rfl

theorem Layout.magnitude_injective {m m' : Nat} {q q' : Int} (hc : Canonical m q)
    (hc' : Canonical m' q') (h : l.magnitude m q = l.magnitude m' q') : m = m' ∧ q = q' := by
  have hvalue := congrArg numeral h
  rw [l.magnitude_value, l.magnitude_value] at hvalue
  rcases Nat.eq_zero_or_pos m with rfl | hm <;> rcases Nat.eq_zero_or_pos m' with rfl | hm'
  · have hq := hc.full
    have hq' := hc'.full
    have hbit : 0 < leadingBit := by decide
    exact ⟨rfl, by omega⟩
  · rw [if_pos rfl, if_neg hm'.ne'] at hvalue
    exact absurd hvalue (shortest_value_pos hm' hc').ne
  · rw [if_pos rfl, if_neg hm.ne'] at hvalue
    exact absurd hvalue (shortest_value_pos hm hc).ne'
  · rw [if_neg hm.ne', if_neg hm'.ne'] at hvalue
    exact shortest_injective hm hm' hc hc' hvalue

theorem Layout.body_head_ne (l : Layout) (p : Parts) : (l.body p).head? ≠ some '-' := by
  cases p with
  | nan => simp [body]
  | infinite s => simp [body]
  | finite s m q => exact (l.magnitude_startsWithDigit m q).head_ne rfl

/-- No two doubles are written alike. -/
theorem Layout.write_injective (l : Layout) {x y : Float} (h : l.write x = l.write y) : x = y := by
  rw [l.write_eq, l.write_eq] at h
  obtain ⟨hsign, hbody⟩ := sign_append_injective (l.body_head_ne _) (l.body_head_ne _) h
  have hmagnitude : ∀ m q c, c.isDigit = false → (l.magnitude m q).head? ≠ some c :=
    fun m q c hc => (l.magnitude_startsWithDigit m q).head_ne hc
  apply parts_injective
  cases hx : parts x with
  | nan =>
    cases hy : parts y with
    | nan => rfl
    | infinite s => simp [hx, hy, body] at hbody
    | finite s m q =>
      rw [hx, hy] at hbody
      exact absurd (congrArg List.head? hbody).symm (hmagnitude m q 'N' rfl)
  | infinite s =>
    cases hy : parts y with
    | nan => simp [hx, hy, body] at hbody
    | infinite t =>
      rw [hx, hy] at hsign
      exact congrArg _ hsign
    | finite t m q =>
      rw [hx, hy] at hbody
      exact absurd (congrArg List.head? hbody).symm (hmagnitude m q 'i' rfl)
  | finite s m q =>
    cases hy : parts y with
    | nan =>
      rw [hx, hy] at hbody
      exact absurd (congrArg List.head? hbody) (hmagnitude m q 'N' rfl)
    | infinite t =>
      rw [hx, hy] at hbody
      exact absurd (congrArg List.head? hbody) (hmagnitude m q 'i' rfl)
    | finite t m' q' =>
      rw [hx, hy] at hsign hbody
      obtain ⟨hm, hq⟩ := magnitude_injective (canonical_of_parts hx) (canonical_of_parts hy) hbody
      have hst : s = t := hsign
      rw [hst, hm, hq]

end

end Ability.Binary64
