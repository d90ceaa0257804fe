import Ability.Proofs.Expression.Writing
import Mathlib.Data.String.Basic

/-! Cutting a text into tokens byte by byte. The scanner looks at single bytes, shows each as the character of its
code and cuts pieces off between bytes; a cut inside a character would be the end of it. All characters that it knows
are single bytes, and no byte of another shows one of them. So every cut is between characters, and the tokens are
those that the characters have. -/

namespace Ability.Expression

open String

def shown (b : UInt8) : Char := Char.ofNat b.toNat

/-- The characters from one byte up to another, both of which have to stand between characters. -/
def slice? (s : String) (i j : Nat) : Option (List Char) :=
  if i ≤ j ∧ Pos.Raw.IsValid s ⟨i⟩ ∧ Pos.Raw.IsValid s ⟨j⟩ then
    some (Pos.Raw.extract s ⟨i⟩ ⟨j⟩).toList
  else none

/-- Where the bytes from `i` on that show characters of a class come to their end. -/
def runEnd (s : String) (p : Char → Bool) (i : Nat) : Nat :=
  if h : i < s.toByteArray.size then
    if p (shown s.toByteArray[i]) then runEnd s p (i + 1) else i
  else i
termination_by s.toByteArray.size - i
decreasing_by exact Nat.sub_succ_lt_self _ _ h

/-- The operators, the longer before the shorter ones. -/
def Operator.all : List Operator :=
  [eq, ne, le, ge, and, or, lt, gt, add, sub, mul, div, mod, pow, not]

/-- The token at a byte that shows `c`, and the byte behind it; nothing if a cut goes through a character. -/
def lexemeAt (s : String) (i : Nat) (c : Char) : Option (Except Fault (Token × Nat)) :=
  if isNumeralChar c then
    let j := runEnd s isNumeralChar i
    (slice? s i j).map fun run =>
      match numeralValue? run with
      | some x => .ok (.number x, j)
      | none => .error (.badNumeral (ofList run))
  else if c.isAlpha then
    let j := runEnd s Char.isAlphanum i
    (slice? s i j).map fun run =>
      match wordValue? run with
      | some x => .ok (.number x, j)
      | none => .error (.unknownWord (ofList run))
  else if c = '(' then some (.ok (.lparen, i + 1))
  else if c = ')' then some (.ok (.rparen, i + 1))
  else
    (slice? s i s.utf8ByteSize).map fun rest =>
      match Operator.all.find? (·.symbol.isPrefixOf rest) with
      | some o => .ok (.op o, i + o.symbol.length)
      | none => .error (.unknownCharacter c)

theorem lt_runEnd {s : String} {p : Char → Bool} {i : Nat} (h : i < s.toByteArray.size)
    (hp : p (shown s.toByteArray[i]) = true) : i < runEnd s p i := by
  have hle : ∀ i, i ≤ runEnd s p i := by
    intro i
    induction i using runEnd.induct s p with
    | case1 i h hp ih =>
      rw [runEnd, dif_pos h, if_pos hp]
      omega
    | case2 i h hp => rw [runEnd, dif_pos h, if_neg hp]
    | case3 i h => rw [runEnd, dif_neg h]
  rw [runEnd, dif_pos h, if_pos hp]
  exact hle (i + 1)

theorem Operator.symbol_length_pos (o : Operator) : 0 < o.symbol.length := by
  cases o <;> decide

theorem isAlphanum_of_isAlpha {c : Char} (h : c.isAlpha = true) : c.isAlphanum = true := by
  rw [Char.isAlphanum, h, Bool.true_or]

theorem lexemeAt_lt {s : String} {i j : Nat} {t : Token} (h : i < s.toByteArray.size)
    (ht : lexemeAt s i (shown s.toByteArray[i]) = some (.ok (t, j))) : i < j := by
  have hop := Operator.symbol_length_pos
  unfold lexemeAt at ht
  split at ht
  · next hc =>
    have hlt := lt_runEnd h hc
    obtain ⟨run, -, hrun⟩ := Option.map_eq_some_iff.1 ht
    grind
  split at ht
  · next hc =>
    have hlt := lt_runEnd (p := Char.isAlphanum) h (isAlphanum_of_isAlpha hc)
    obtain ⟨run, -, hrun⟩ := Option.map_eq_some_iff.1 ht
    grind
  split at ht
  · grind
  split at ht
  · grind
  · obtain ⟨rest, -, hrest⟩ := Option.map_eq_some_iff.1 ht
    grind

/-- The tokens of a text from a byte on; nothing if a cut goes through a character. -/
def scan (s : String) (i : Nat) : Option (Except Fault (List Token)) :=
  if h : i < s.toByteArray.size then
    let c := shown s.toByteArray[i]
    if isBlank c then scan s (i + 1)
    else
      match _h : lexemeAt s i c with
      | none => none
      | some (.error e) => some (.error e)
      | some (.ok (t, j)) => (scan s j).map (·.map (t :: ·))
  else some (.ok [])
termination_by s.toByteArray.size - i
decreasing_by
  · exact Nat.sub_succ_lt_self _ _ h
  · have := lexemeAt_lt h ‹_›
    exact Nat.sub_lt_sub_left h this

section Narrow

/-- The class holds characters of a single byte only. -/
def Narrow (p : Char → Bool) : Prop := ∀ c, p c = true → c.toNat < 128

theorem toNat_shown (b : UInt8) : (shown b).toNat = b.toNat := by
  have hb : b.toNat.isValidChar := .inl (Nat.lt_of_lt_of_le b.toNat_lt (by decide))
  rw [shown, Char.ofNat, dif_pos hb]
  rfl

theorem leadByte_eq (c : Char) : leadByte c = shown ((utf8EncodeChar c).headD 0) := rfl

theorem leadByte_of_narrow {c : Char} (hc : c.toNat < 128) : leadByte c = c := by
  have hsize : c.utf8Size = 1 := Char.utf8Size_eq_one_iff.2 (Nat.le_of_lt_succ hc)
  have hmod : c.toNat % 256 = c.toNat := Nat.mod_eq_of_lt (by omega)
  apply Char.ext
  apply UInt32.toNat.inj
  change (leadByte c).toNat = c.toNat
  rw [leadByte_eq, toNat_shown, utf8EncodeChar_eq_singleton hsize]
  exact hmod

theorem leadByte_of_wide {c : Char} (hc : 128 ≤ c.toNat) : 128 ≤ (leadByte c).toNat := by
  have hval : 128 ≤ c.val.toNat := hc
  rw [leadByte_eq, toNat_shown, utf8EncodeChar]
  split
  · omega
  repeat' split
  all_goals simp only [List.headD_cons, UInt8.toNat_ofNat']; omega

/-- The first byte of a character tells whether it is of the class. -/
theorem Narrow.leadByte {p : Char → Bool} (hp : Narrow p) (c : Char) : p (leadByte c) = p c := by
  by_cases hc : c.toNat < 128
  · rw [leadByte_of_narrow hc]
  · have hno : ∀ d : Char, 128 ≤ d.toNat → p d = false := by
      intro d hd
      by_contra h
      exact absurd (hp d (by simpa using h)) (by omega)
    have hwide := leadByte_of_wide (Nat.le_of_not_lt hc)
    rw [hno _ hwide, hno c (Nat.le_of_not_lt hc)]

theorem narrow_isDigit : Narrow Char.isDigit := by
  intro c hc
  have hle : c.toNat ≤ '9'.toNat := (Char.isDigit_iff_toNat.1 hc).2
  exact Nat.lt_of_le_of_lt hle (by decide)

theorem narrow_isAlpha : Narrow Char.isAlpha := by
  intro c hc
  have hcase : ∀ d : Char, d.toNat < 128 → c.val ≤ d.val → c.toNat < 128 := fun d hd hle =>
    Nat.lt_of_le_of_lt (UInt32.le_iff_toNat_le.1 hle) hd
  rcases Bool.or_eq_true_iff.1 hc with h | h
  · have hupper : c.val ≥ 'A'.val ∧ c.val ≤ 'Z'.val := of_decide_eq_true h
    exact hcase 'Z' (by decide) hupper.2
  · have hlower : (decide (c.val ≥ 'a'.val) && decide (c.val ≤ 'z'.val)) = true := h
    exact hcase 'z' (by decide) (of_decide_eq_true (Bool.and_eq_true_iff.1 hlower).2)

theorem narrow_isAlphanum : Narrow Char.isAlphanum := by
  intro c hc
  rcases Bool.or_eq_true_iff.1 hc with h | h
  · exact narrow_isAlpha c h
  · exact narrow_isDigit c h

theorem narrow_isNumeralChar : Narrow isNumeralChar := by
  intro c hc
  simp only [isNumeralChar, decide_eq_true_eq] at hc
  rcases hc with h | rfl
  · exact narrow_isDigit c h
  · decide

theorem narrow_isBlank : Narrow isBlank := by
  intro c hc
  simp only [isBlank, decide_eq_true_eq] at hc
  rcases hc with rfl | rfl | rfl | rfl | rfl <;> decide

theorem narrow_eq {d : Char} (hd : d.toNat < 128) : Narrow (decide <| · = d) := by
  intro c hc
  rwa [of_decide_eq_true hc]

end Narrow

/-- The characters `cs` stand at the byte `i` and go on to the end of the text. -/
def Stands (s : String) (i : Nat) (cs : List Char) : Prop :=
  ∃ before, s.toList = before ++ cs ∧ i = utf8Len before

namespace Stands

variable {s : String} {i : Nat} {c : Char} {cs w r : List Char}

theorem start (s : String) : Stands s 0 s.toList := ⟨[], rfl, rfl⟩

theorem append (h : Stands s i (w ++ r)) : Stands s (i + utf8Len w) r := by
  obtain ⟨before, hs, rfl⟩ := h
  exact ⟨before ++ w, by rw [hs, List.append_assoc], by rw [utf8Len_append]⟩

theorem tail (h : Stands s i (c :: r)) (hc : c.toNat < 128) : Stands s (i + 1) r := by
  have hsize : c.utf8Size = 1 := Char.utf8Size_eq_one_iff.2 (Nat.le_of_lt_succ hc)
  have hnext := h.append (w := [c])
  rwa [utf8Len_cons, utf8Len_nil, hsize] at hnext

theorem isValid (h : Stands s i cs) : Pos.Raw.IsValid s ⟨i⟩ := by
  obtain ⟨before, hs, rfl⟩ := h
  rw [Pos.Raw.isValid_iff_exists_append]
  refine ⟨ofList before, ofList cs, ?_, ?_⟩
  · rw [← ofList_append, ← hs, ofList_toList]
  · rw [rawEndPos_ofList]

theorem slice (h : Stands s i (w ++ r)) : slice? s i (i + utf8Len w) = some w := by
  have hvalid : i ≤ i + utf8Len w ∧ Pos.Raw.IsValid s ⟨i⟩ ∧ Pos.Raw.IsValid s ⟨i + utf8Len w⟩ :=
    ⟨Nat.le_add_right .., h.isValid, h.append.isValid⟩
  rw [slice?, if_pos hvalid]
  obtain ⟨before, hs, rfl⟩ := h
  have hextract := extract_of_valid before w r
  rw [List.append_assoc, ← hs, ofList_toList] at hextract
  rw [hextract, toList_ofList]

theorem size (h : Stands s i cs) : s.utf8ByteSize = i + utf8Len cs := by
  obtain ⟨before, hs, rfl⟩ := h
  rw [← ofList_toList (s := s), hs, utf8ByteSize_ofList, utf8Len_append]

theorem byte (h : Stands s i (c :: r)) :
    ∃ hi : i < s.toByteArray.size, shown s.toByteArray[i] = leadByte c := by
  obtain ⟨before, hs, rfl⟩ := h
  have hbytes : s.toByteArray = before.utf8Encode ++ ((utf8EncodeChar c).toByteArray ++ r.utf8Encode) := by
    rw [← ofList_toList (s := s), hs, toByteArray_ofList, List.utf8Encode_append, List.utf8Encode_cons,
      List.utf8Encode_singleton]
  have hbefore : before.utf8Encode.size = utf8Len before := by
    rw [← toByteArray_ofList, size_toByteArray, utf8ByteSize_ofList]
  have hpos := c.utf8Size_pos
  have hi : utf8Len before < s.toByteArray.size := by
    simp only [hbytes, ByteArray.size_append, hbefore, List.size_toByteArray, length_utf8EncodeChar]
    omega
  have hfirst : s.toByteArray[utf8Len before] = (utf8EncodeChar c).get ⟨0, by simpa using hpos⟩ := by
    simp only [hbytes]
    rw [ByteArray.getElem_append_right (by rw [hbefore]), ByteArray.getElem_append_left (by simp [hbefore, hpos])]
    simp only [hbefore, Nat.sub_self, List.getElem_toByteArray, List.get_eq_getElem]
  refine ⟨hi, ?_⟩
  obtain ⟨b, bs, hb⟩ := List.exists_cons_of_ne_nil (utf8EncodeChar_ne_nil (c := c))
  simp only [hfirst, leadByte_eq, hb, List.get_eq_getElem, List.getElem_cons_zero, List.headD_cons]

theorem not_lt (h : Stands s i []) : ¬ i < s.toByteArray.size := by
  rw [size_toByteArray, h.size]
  simp

theorem runEnd {p : Char → Bool} (hp : Narrow p) (h : Stands s i cs) :
    runEnd s p i = i + utf8Len (cs.takeWhile p) := by
  induction cs generalizing i with
  | nil => rw [Expression.runEnd, dif_neg h.not_lt, List.takeWhile_nil, utf8Len_nil, Nat.add_zero]
  | cons c r ih =>
    obtain ⟨hi, hbyte⟩ := h.byte
    rw [Expression.runEnd, dif_pos hi, hbyte, hp.leadByte, List.takeWhile_cons]
    split
    · next hc =>
      have hsize : c.utf8Size = 1 := Char.utf8Size_eq_one_iff.2 (Nat.le_of_lt_succ (hp c hc))
      rw [ih (h.tail (hp c hc)), utf8Len_cons, hsize]
      omega
    · rfl

/-- A run is cut off between characters. -/
theorem slice_run {p : Char → Bool} (hp : Narrow p) (h : Stands s i cs) :
    slice? s i (Expression.runEnd s p i) = some (cs.takeWhile p) ∧
      Stands s (Expression.runEnd s p i) (cs.dropWhile p) := by
  have hcs : Stands s i (cs.takeWhile p ++ cs.dropWhile p) := by rwa [List.takeWhile_append_dropWhile]
  rw [h.runEnd hp]
  exact ⟨hcs.slice, hcs.append⟩

end Stands

theorem operator?_eq (cs : List Char) :
    operator? cs = (Operator.all.find? (·.symbol.isPrefixOf cs)).map fun o => (o, cs.drop o.symbol.length) := by
  have hshort : ∀ r : List Char, (∀ r', r = '=' :: r' → False) → ['='].isPrefixOf r = false := by
    intro r hr
    cases r with
    | nil => rfl
    | cons c r =>
      have hc : ('=' == c) = false := beq_eq_false_iff_ne.2 fun hc => hr r (by rw [hc])
      rw [List.isPrefixOf, hc, Bool.false_and]
  unfold operator?
  split
  case h_7 r hr | h_8 r hr | h_15 r hr =>
    have hno := hshort r hr
    rw [Operator.all]
    simp only [List.find?, Operator.symbol, List.isPrefixOf_cons_cons_self, List.isPrefixOf_cons_cons, hno]
    rfl
  case h_16 heq hne hle hge hand hor hlt hgt hadd hsub hmul hdiv hmod hpow hnot =>
    have hnone : Operator.all.find? (·.symbol.isPrefixOf cs) = none := by
      rw [List.find?_eq_none]
      intro o _ ho
      obtain ⟨r, rfl⟩ := List.isPrefixOf_iff_prefix.1 ho
      cases o with
      | eq => exact heq r rfl
      | ne => exact hne r rfl
      | le => exact hle r rfl
      | ge => exact hge r rfl
      | and => exact hand r rfl
      | or => exact hor r rfl
      | lt => exact hlt r rfl
      | gt => exact hgt r rfl
      | add => exact hadd r rfl
      | sub => exact hsub r rfl
      | mul => exact hmul r rfl
      | div => exact hdiv r rfl
      | mod => exact hmod r rfl
      | pow => exact hpow r rfl
      | not => exact hnot r rfl
    rw [hnone]
    rfl
  all_goals rfl

/-- A token at a byte is the token at the character that begins there, and leaves the same rest. -/
theorem Stands.lexemeAt {s : String} {i : Nat} {c : Char} {r : List Char} (h : Stands s i (c :: r)) :
    (∃ e, Expression.lexemeAt s i (leadByte c) = some (.error e) ∧ lexeme c r = .error e) ∨
      ∃ t j r', Expression.lexemeAt s i (leadByte c) = some (.ok (t, j)) ∧ lexeme c r = .ok (t, r') ∧
        Stands s j r' := by
  have hparen : ∀ d : Char, d.toNat < 128 → (leadByte c = d ↔ c = d) := by
    intro d hd
    simpa using (narrow_eq hd).leadByte c
  unfold Expression.lexemeAt lexeme
  simp only [narrow_isNumeralChar.leadByte, narrow_isAlpha.leadByte, hparen '(' (by decide), hparen ')' (by decide)]
  split
  · next hc =>
    obtain ⟨hslice, hrest⟩ := h.slice_run narrow_isNumeralChar
    rw [List.takeWhile_cons_of_pos hc] at hslice
    rw [List.dropWhile_cons_of_pos hc] at hrest
    simp only [hslice, Option.map_some]
    cases numeralValue? (c :: r.takeWhile isNumeralChar) with
    | some x => exact .inr ⟨_, _, _, rfl, rfl, hrest⟩
    | none => exact .inl ⟨_, rfl, rfl⟩
  split
  · next hc =>
    obtain ⟨hslice, hrest⟩ := h.slice_run narrow_isAlphanum
    rw [List.takeWhile_cons_of_pos (isAlphanum_of_isAlpha hc)] at hslice
    rw [List.dropWhile_cons_of_pos (isAlphanum_of_isAlpha hc)] at hrest
    simp only [hslice, Option.map_some]
    cases wordValue? (c :: r.takeWhile Char.isAlphanum) with
    | some x => exact .inr ⟨_, _, _, rfl, rfl, hrest⟩
    | none => exact .inl ⟨_, rfl, rfl⟩
  split
  · next hc => exact .inr ⟨_, _, _, rfl, rfl, h.tail (by rw [hc]; decide)⟩
  split
  · next hc => exact .inr ⟨_, _, _, rfl, rfl, h.tail (by rw [hc]; decide)⟩
  · have hslice : slice? s i s.utf8ByteSize = some (c :: r) := by
      have hall := Stands.slice (w := c :: r) (r := []) (by rwa [List.append_nil])
      rwa [← h.size] at hall
    simp only [hslice, Option.map_some, operator?_eq]
    cases hfind : Operator.all.find? (·.symbol.isPrefixOf (c :: r)) with
    | none => exact .inl ⟨_, rfl, rfl⟩
    | some o =>
      have hbegins : o.symbol.isPrefixOf (c :: r) = true := by simpa using List.find?_some hfind
      obtain ⟨r', hr'⟩ := List.isPrefixOf_iff_prefix.1 hbegins
      rw [← hr'] at h
      have hbehind := h.append
      refine .inr ⟨_, _, _, rfl, rfl, ?_⟩
      have hlen : utf8Len o.symbol = o.symbol.length := by cases o <;> rfl
      rw [← hr', List.drop_left, ← hlen]
      exact hbehind

theorem scan_blank {s : String} {i : Nat} (h : i < s.toByteArray.size)
    (hblank : isBlank (shown s.toByteArray[i]) = true) : scan s i = scan s (i + 1) := by
  rw [scan, dif_pos h]
  exact if_pos hblank

theorem scan_lexeme {s : String} {i : Nat} (h : i < s.toByteArray.size)
    (hblank : isBlank (shown s.toByteArray[i]) = false) :
    scan s i = (lexemeAt s i (shown s.toByteArray[i])).bind fun
      | .error e => some (.error e)
      | .ok (t, j) => (scan s j).map (·.map (t :: ·)) := by
  rw [scan, dif_pos h]
  simp only [hblank, Bool.false_eq_true, if_false]
  split <;> simp_all

/-- Between characters the scanner finds the tokens of the characters that are left. -/
theorem Stands.scan {s : String} {i : Nat} {cs : List Char} (h : Stands s i cs) :
    Expression.scan s i = some (tokenize cs) := by
  induction cs using tokenize.induct generalizing i with
  | case1 =>
    rw [Expression.scan, dif_neg h.not_lt, tokenize]
  | case2 c r hblank ih =>
    obtain ⟨hi, hbyte⟩ := h.byte
    rw [scan_blank hi (by rwa [hbyte, narrow_isBlank.leadByte]), tokenize, if_pos hblank]
    exact ih (h.tail (narrow_isBlank c hblank))
  | case3 c r hblank e he =>
    obtain ⟨hi, hbyte⟩ := h.byte
    have hblank : isBlank c = false := by simpa using hblank
    rw [scan_lexeme hi (by rwa [hbyte, narrow_isBlank.leadByte]), hbyte, tokenize_cons hblank, he]
    rcases h.lexemeAt with ⟨e', hat, he'⟩ | ⟨t, j, r', -, ht, -⟩
    · obtain rfl := Except.error.inj (he.symm.trans he')
      rw [hat]
      rfl
    · cases he.symm.trans ht
  | case4 c r hblank t r' ht ih =>
    obtain ⟨hi, hbyte⟩ := h.byte
    have hblank : isBlank c = false := by simpa using hblank
    rw [scan_lexeme hi (by rwa [hbyte, narrow_isBlank.leadByte]), hbyte, tokenize_cons hblank, ht]
    rcases h.lexemeAt with ⟨e, -, he⟩ | ⟨t', j, r'', hat, ht', hrest⟩
    · cases ht.symm.trans he
    · obtain ⟨rfl, rfl⟩ := Prod.mk.inj (Except.ok.inj (ht.symm.trans ht'))
      simp only [hat, Option.bind_some, ih hrest, Option.map_some, ok_bind]

/-- The scanner never cuts through a character. -/
theorem scan_eq_tokenize (s : String) : scan s 0 = some (tokenize s.toList) := (Stands.start s).scan

end Ability.Expression
