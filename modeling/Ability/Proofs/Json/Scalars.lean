import Ability.Json.Printer
import Ability.Json.Reader
import Ability.Proofs.Number.Text

/-! The text of scalars. A written text reads back, whatever follows it, and no two numbers are written
alike: a double shows a character that no whole number does. -/

namespace Ability

namespace Hexadecimal

theorem digits_length (n v : Nat) : (digits n v).length = n := by
  induction n generalizing v with
  | zero => rfl
  | succ n ih => rw [digits, List.length_append, ih, List.length_singleton]

end Hexadecimal

namespace Json

theorem readHex4_digits {v : Nat} (hv : v < 65536) (r : List Char) :
    readHex4 (Hexadecimal.digits 4 v ++ r) = .ok (v, r) := by
  have hread := Hexadecimal.number?_digits 4 v
  have hpow : v % Nat.pow 16 4 = v := Nat.mod_eq_of_lt hv
  rw [hpow] at hread
  obtain ⟨a, b, c, d, hdigits⟩ := List.length_eq_four.mp (Hexadecimal.digits_length 4 v)
  rw [hdigits] at hread ⊢
  simp only [List.cons_append, List.nil_append, readHex4, hread]

theorem readUnicode_digits {c : Char} (hc : c.toNat < 32) (r : List Char) :
    readUnicode (Hexadecimal.digits 4 c.toNat ++ r) = .ok (c, r) := by
  have hhex := readHex4_digits (v := c.toNat) (by omega) r
  have hlow : ¬ (0xdc00 ≤ c.toNat ∧ c.toNat ≤ 0xdfff) := by omega
  have hhigh : ¬ (0xd800 ≤ c.toNat ∧ c.toNat ≤ 0xdbff) := by omega
  have hread : readUnicode (Hexadecimal.digits 4 c.toNat ++ r) = .ok (Char.ofNat c.toNat, r) := by
    simp only [readUnicode, hhex, bind, Except.bind, if_neg hlow, if_neg hhigh]
  rw [hread, Char.ofNat_toNat]

/-- One character is read back from its escaped form. -/
theorem readChars_escapeChar (c : Char) (n : Nat) (acc r : List Char) :
    readChars true (n + 1) acc (escapeChar c ++ r) = readChars true n (c :: acc) r := by
  by_cases hshort : c ∈ ['"', '\\', '\x08', '\t', '\n', '\x0c', '\r']
  · simp only [List.mem_cons, List.not_mem_nil, or_false] at hshort
    rcases hshort with rfl | rfl | rfl | rfl | rfl | rfl | rfl <;> rfl
  simp only [List.mem_cons, List.not_mem_nil, or_false, not_or] at hshort
  simp only [escapeChar, hshort, if_false]
  split
  · next hc =>
    have hstep : readChars true (n + 1) acc ('\\' :: 'u' :: Hexadecimal.digits 4 c.toNat ++ r) =
        (readUnicode (Hexadecimal.digits 4 c.toNat ++ r) >>= fun x =>
          readChars true n (x.1 :: acc) x.2) := rfl
    rw [hstep, readUnicode_digits hc]
    rfl
  · next hc =>
    rw [List.singleton_append]
    simp only [readChars, hshort, hc, if_false]

theorem readChars_flatMap_escapeChar (cs : List Char) {n : Nat} (hn : cs.length < n) (acc r : List Char) :
    readChars true n acc (cs.flatMap escapeChar ++ '"' :: r) = .ok (acc.reverse ++ cs, r) := by
  induction cs generalizing n acc with
  | nil =>
    obtain ⟨n, rfl⟩ := Nat.exists_eq_succ_of_ne_zero (Nat.ne_of_gt hn)
    rw [List.append_nil]
    rfl
  | cons c cs ih =>
    obtain ⟨n, rfl⟩ := Nat.exists_eq_succ_of_ne_zero (Nat.ne_of_gt (Nat.lt_of_le_of_lt (Nat.zero_le _) hn))
    rw [List.flatMap_cons, List.append_assoc, readChars_escapeChar,
      ih (Nat.lt_of_succ_lt_succ hn), List.reverse_cons, List.append_assoc, List.singleton_append]

theorem writeText_append (s : String) (r : List Char) :
    writeText s ++ r = '"' :: (s.toList.flatMap escapeChar ++ '"' :: r) := by
  simp [writeText]

/-- No written text is the beginning of another. -/
theorem writeText_append_injective {s t : String} {r r' : List Char}
    (h : writeText s ++ r = writeText t ++ r') : s = t ∧ r = r' := by
  rw [writeText_append, writeText_append] at h
  have htail := (List.cons.inj h).2
  have hread := readChars_flatMap_escapeChar s.toList
    (n := s.toList.length + t.toList.length + 1) (by omega) [] r
  rw [htail, readChars_flatMap_escapeChar t.toList (by omega) [] r'] at hread
  obtain ⟨hst, hrr⟩ := Prod.mk.inj (Except.ok.inj hread)
  exact ⟨(String.toList_inj.mp hst).symm, hrr.symm⟩

end Json

/-- The characters that numbers are written with. -/
def IsNumberChar (c : Char) : Prop := c.isDigit = true ∨ c ∈ ['-', '+', '.', 'e', 'N', 'a', 'i', 'n', 'f']

def NumberText (cs : List Char) : Prop := ∀ c ∈ cs, IsNumberChar c

namespace NumberText

variable {cs fs : List Char}

theorem digits (h : ∀ c ∈ cs, c.isDigit = true) : NumberText cs := fun c hc => .inl (h c hc)

theorem of_subset (h : NumberText cs) (hsub : fs ⊆ cs) : NumberText fs := fun c hc => h c (hsub hc)

theorem append (h : NumberText cs) (h' : NumberText fs) : NumberText (cs ++ fs) :=
  List.forall_mem_append.mpr ⟨h, h'⟩

theorem cons {c : Char} (hc : IsNumberChar c) (h : NumberText cs) : NumberText (c :: cs) :=
  List.forall_mem_cons.mpr ⟨hc, h⟩

theorem nil : NumberText [] := by simp [NumberText]

theorem mark {c : Char} (hc : c ∈ ['-', '+', '.', 'e', 'N', 'a', 'i', 'n', 'f']) : NumberText [c] :=
  cons (.inr hc) nil

theorem zeros (n : Nat) : NumberText (List.replicate n '0') := by
  refine digits fun c hc => ?_
  rw [(List.mem_replicate.mp hc).2]
  rfl

theorem sign (s : Bool) : NumberText (if s then ['-'] else []) := by
  cases s
  · exact nil
  · exact mark (by simp)

end NumberText

namespace Binary64

variable {l : Layout} {ds : List Char}

theorem Layout.positionalText_chars (hds : ∀ c ∈ ds, c.isDigit = true) (p : Int) :
    NumberText (l.positionalText ds p) := by
  have hdigits := NumberText.digits hds
  unfold Layout.positionalText
  split
  · exact (NumberText.cons (.inl rfl) (.cons (.inr (by simp)) (.zeros _))).append hdigits
  split
  · refine (hdigits.append (.zeros _)).append ?_
    split
    · exact .cons (.inr (by simp)) (.zeros 1)
    · exact .nil
  · exact (hdigits.of_subset (List.take_subset ..)).append
      (.cons (.inr (by simp)) (hdigits.of_subset (List.drop_subset ..)))

theorem Layout.exponentText_chars (hds : ∀ c ∈ ds, c.isDigit = true) (p : Int) :
    NumberText (l.exponentText ds p) := by
  have hdigits := NumberText.digits hds
  have hpoint : NumberText (if ds.length ≤ 1 then [] else '.' :: ds.drop 1) := by
    split
    · exact .nil
    · exact .cons (.inr (by simp)) (hdigits.of_subset (List.drop_subset ..))
  have hsign : NumberText (if p - 1 < 0 then ['-'] else if l.plus then ['+'] else []) := by
    split
    · exact .mark (by simp)
    split
    · exact .mark (by simp)
    · exact .nil
  exact (((hdigits.of_subset (List.take_subset ..)).append hpoint).append
    (.cons (.inr (by simp)) hsign)).append (.digits (isDigit_toDigits _))

theorem Layout.write_chars (l : Layout) (x : Float) : NumberText (l.write x) := by
  rw [l.write_eq]
  refine .append (.sign _) ?_
  cases parts x with
  | nan => exact .cons (.inr (by simp)) (.cons (.inr (by simp)) (.mark (by simp)))
  | infinite s => exact .cons (.inr (by simp)) (.cons (.inr (by simp)) (.mark (by simp)))
  | finite s m q =>
    change NumberText (l.magnitude m q)
    unfold Layout.magnitude
    split
    · refine .cons (.inl rfl) ?_
      split
      · exact .cons (.inr (by simp)) (.zeros 1)
      · exact .nil
    dsimp only
    split
    · exact positionalText_chars (isDigit_toDigits _) _
    · exact exponentText_chars (isDigit_toDigits _) _

/-- A double in a document shows that it is none of the whole numbers. -/
theorem document_write_mark (x : Float) :
    ∃ c ∈ Layout.document.write x, c.isDigit = false ∧ c ≠ '-' := by
  suffices h : ∃ c ∈ Layout.document.body (parts x), c ∈ ['.', 'e', 'N', 'i'] by
    obtain ⟨c, hc, hmark⟩ := h
    refine ⟨c, ?_, ?_⟩
    · rw [Layout.write_eq]
      exact List.mem_append_right _ hc
    · simp only [List.mem_cons, List.not_mem_nil, or_false] at hmark
      rcases hmark with rfl | rfl | rfl | rfl <;> decide
  cases parts x with
  | nan => exact ⟨'N', by simp [Layout.body]⟩
  | infinite s => exact ⟨'i', by simp [Layout.body]⟩
  | finite s m q =>
    change ∃ c ∈ Layout.document.magnitude m q, _
    unfold Layout.magnitude
    split
    · exact ⟨'.', by simp [Layout.document]⟩
    dsimp only
    split
    · refine ⟨'.', ?_, by simp⟩
      unfold Layout.positionalText
      split
      · simp
      split
      · simp [Layout.document]
      · simp
    · refine ⟨'e', ?_, by simp⟩
      simp [Layout.exponentText]

end Binary64

namespace Number

theorem write_chars (n : Number) : NumberText n.write := by
  cases n with
  | integer i =>
    have hsign := NumberText.sign (decide (i < 0))
    simp only [decide_eq_true_eq] at hsign
    exact hsign.append (.digits (Binary64.isDigit_toDigits _))
  | decimal x => exact Binary64.Layout.document.write_chars x

theorem write_integer_injective {i j : Int} (h : (integer i).write = (integer j).write) : i = j := by
  have hhead := fun n => (Binary64.startsWithDigit_toDigits n).head_ne (c := '-') rfl
  have hsigned : (if decide (i < 0) then ['-'] else []) ++ Nat.toDigits 10 i.natAbs =
      (if decide (j < 0) then ['-'] else []) ++ Nat.toDigits 10 j.natAbs := by
    simp only [decide_eq_true_eq]
    exact h
  obtain ⟨hsign, hdigits⟩ := Binary64.sign_append_injective (hhead _) (hhead _) hsigned
  have habs := congrArg Binary64.digitsValue hdigits
  rw [Binary64.digitsValue_toDigits, Binary64.digitsValue_toDigits] at habs
  rw [decide_eq_decide] at hsign
  omega

theorem write_integer_ne_decimal (i : Int) (x : Float) : (integer i).write ≠ (decimal x).write := by
  intro h
  obtain ⟨c, hc, hdigit, hminus⟩ := Binary64.document_write_mark x
  have hmem : c ∈ (integer i).write := by
    rw [h]
    exact hc
  rcases List.mem_append.mp hmem with hsign | hdigits
  · split at hsign
    · exact hminus (List.mem_singleton.mp hsign)
    · cases hsign
  · rw [Binary64.isDigit_toDigits _ c hdigits] at hdigit
    cases hdigit

/-- No two numbers are written alike. -/
theorem write_injective {m n : Number} (h : m.write = n.write) : m = n := by
  cases m with
  | integer i =>
    cases n with
    | integer j => rw [write_integer_injective h]
    | decimal y => exact absurd h (write_integer_ne_decimal i y)
  | decimal x =>
    cases n with
    | integer j => exact absurd h.symm (write_integer_ne_decimal j x)
    | decimal y => rw [Binary64.Layout.write_injective .document h]

end Number

end Ability
