import Ability.Config.Section
import Ability.Proofs.Number.Text

/-! Paths into a configuration. To follow one path and then another is to follow both in one, and so what is read of a
subsection is what is read of the whole under the longer path. A failed read only tells which of the two it was given. -/

namespace Ability

open Binary64

section Indexes

theorem toDigits_digit {c : Char} (hc : c.isDigit = true) : Nat.toDigits 10 (c.toNat - 48) = [c] := by
  obtain ⟨hlo, hhi⟩ := Char.isDigit_iff_toNat.1 hc
  have hlt : c.toNat - 48 < 10 := by
    have hnine : '9'.toNat = 57 := rfl
    omega
  rw [Nat.toDigits_of_lt_base hlt, List.singleton_inj]
  apply Char.toNat_inj.1
  rw [Nat.toNat_digitChar_of_lt_ten hlt]
  have hzero : '0'.toNat = 48 := rfl
  omega

theorem digitsValue_concat (ds : List Char) (c : Char) :
    digitsValue (ds ++ [c]) = 10 * digitsValue ds + (c.toNat - 48) := by
  rw [digitsValue, Nat.ofDigitChars_append]
  rfl

/-- Digits write their value, perhaps after zeros that are not needed. -/
theorem eq_zeros_append_toDigits {ds : List Char} (hds : ∀ c ∈ ds, c.isDigit = true) (hne : ds ≠ []) :
    ∃ zeros, ds = List.replicate zeros '0' ++ Nat.toDigits 10 (digitsValue ds) := by
  induction ds using List.reverseRecOn with
  | nil => exact absurd rfl hne
  | append_singleton ds c ih =>
    obtain ⟨hds, hc⟩ := List.forall_mem_append.1 hds
    have hdigit := toDigits_digit (hc c (List.mem_singleton_self c))
    rw [digitsValue_concat]
    rcases eq_or_ne ds [] with rfl | hne
    · exact ⟨0, by simpa [digitsValue] using hdigit.symm⟩
    obtain ⟨zeros, hzeros⟩ := ih hds hne
    rcases Nat.eq_zero_or_pos (digitsValue ds) with hvalue | hvalue
    · refine ⟨zeros + 1, ?_⟩
      rw [hvalue, Nat.toDigits_zero] at hzeros
      rw [hvalue, Nat.mul_zero, Nat.zero_add, hdigit, hzeros, List.replicate_succ']
    · refine ⟨zeros, ?_⟩
      have hlt : c.toNat - 48 < 10 := by
        have := (Char.isDigit_iff_toNat.1 (hc c (List.mem_singleton_self c))).2
        have hnine : '9'.toNat = 57 := rfl
        omega
      rw [← Nat.toDigits_append_toDigits (by decide) hvalue hlt, hdigit, ← List.append_assoc, ← hzeros]

end Indexes

namespace Json

/-- The segment writes a number of at most 64 bits, perhaps after a plus sign and zeros that are not needed. -/
def WritesIndex (s : String) (i : Nat) : Prop :=
  i < 2 ^ 64 ∧ ∃ sign zeros, (sign = [] ∨ sign = ['+']) ∧
    s.toList = sign ++ (List.replicate zeros '0' ++ Nat.toDigits 10 i)

theorem index?_eq {s : String} {sign ds : List Char} (hs : s.toList = sign ++ ds)
    (hsign : sign = ['+'] ∨ sign = [] ∧ ds.head? ≠ some '+') :
    index? s = if ds ≠ [] ∧ ds.all Char.isDigit ∧ digitsValue ds < 2 ^ 64 then some (digitsValue ds) else none := by
  unfold index?
  rw [hs]
  rcases hsign with rfl | ⟨rfl, hhead⟩
  · rfl
  · rw [List.nil_append]
    split
    · exact absurd rfl hhead
    · rfl

theorem index?_eq_some_iff {s : String} {i : Nat} : index? s = some i ↔ WritesIndex s i := by
  constructor
  · intro h
    obtain ⟨sign, ds, hs, hsign⟩ : ∃ sign ds, s.toList = sign ++ ds ∧
        (sign = ['+'] ∨ sign = [] ∧ ds.head? ≠ some '+') := by
      rcases eq_or_ne (s.toList.head?) (some '+') with hhead | hhead
      · obtain ⟨ds, hds⟩ := List.head?_eq_some_iff.1 hhead
        exact ⟨['+'], ds, hds, .inl rfl⟩
      · exact ⟨[], s.toList, rfl, .inr ⟨rfl, hhead⟩⟩
    rw [index?_eq hs hsign, Option.ite_none_right_eq_some] at h
    obtain ⟨⟨hne, hds, hlt⟩, h⟩ := h
    obtain rfl := Option.some.inj h
    obtain ⟨zeros, hzeros⟩ := eq_zeros_append_toDigits (List.all_eq_true.1 hds) hne
    exact ⟨hlt, sign, zeros, hsign.symm.imp_left And.left, hzeros ▸ hs⟩
  · rintro ⟨hlt, sign, zeros, hsign, hs⟩
    have hds : ∀ c ∈ List.replicate zeros '0' ++ Nat.toDigits 10 i, c.isDigit = true := by
      refine List.forall_mem_append.2 ⟨fun c hc => ?_, isDigit_toDigits i⟩
      rw [List.eq_of_mem_replicate hc]
      rfl
    have hhead : (List.replicate zeros '0' ++ Nat.toDigits 10 i).head? ≠ some '+' := by
      intro h
      cases hds '+' (List.mem_of_mem_head? h)
    have hvalue : digitsValue (List.replicate zeros '0' ++ Nat.toDigits 10 i) = i := by
      rw [digitsValue_zeros, digitsValue_toDigits]
    rw [index?_eq hs (hsign.symm.imp_right (⟨·, hhead⟩)), hvalue]
    refine if_pos ⟨?_, List.all_eq_true.2 hds, hlt⟩
    simp [Nat.toDigits_ne_nil]

/-- The segment leads from a value to one in it: to the first field of its name, or to the entry at its index. -/
inductive Selects : Json → String → Json → Prop
  | field {before after : List (String × Json)} {s : String} {w : Json} (first : ∀ e ∈ before, e.1 ≠ s) :
      Selects (object (before ++ (s, w) :: after)) s w
  | entry {items : List Json} {s : String} {i : Nat} {w : Json} (index : WritesIndex s i) (entry : items[i]? = some w) :
      Selects (array items) s w

theorem step?_eq_some_iff {v w : Json} {s : String} : v.step? s = some w ↔ v.Selects s w := by
  cases v with
  | object fields =>
    rw [step?, Option.map_eq_some_iff]
    constructor
    · rintro ⟨e, he, rfl⟩
      obtain ⟨hname, before, after, rfl, hbefore⟩ := List.find?_eq_some_iff_append.1 he
      obtain rfl : e.1 = s := by simpa using hname
      exact .field fun f hf => by simpa using hbefore f hf
    · rintro ⟨first⟩
      exact ⟨(s, w), List.find?_eq_some_iff_append.2 ⟨by simp, _, _, rfl, by simpa using first⟩, rfl⟩
  | array items =>
    rw [step?, Option.bind_eq_some_iff]
    constructor
    · rintro ⟨i, hi, hw⟩
      exact .entry (index?_eq_some_iff.1 hi) hw
    · rintro (_ | ⟨index, entry⟩)
      exact ⟨_, index?_eq_some_iff.2 index, entry⟩
  | _ => exact iff_of_false (by rintro ⟨⟩) (by rintro ⟨⟩)

section Composition

theorem splitOn_append_sep {α : Type} [DecidableEq α] (sep : α) (xs ys : List α) :
    (xs ++ sep :: ys).splitOn sep = xs.splitOn sep ++ ys.splitOn sep := by
  induction xs with
  | nil => simp [List.splitOn_cons_eq_if_modifyHead]
  | cons x xs ih =>
    rw [List.cons_append, List.splitOn_cons_eq_if_modifyHead, List.splitOn_cons_eq_if_modifyHead, ih]
    split
    · rfl
    · obtain ⟨part, parts, h⟩ := List.exists_cons_of_ne_nil (List.splitOn_ne_nil sep xs)
      rw [h]
      rfl

theorem segments_append (p q : String) : segments (p ++ "." ++ q) = segments p ++ segments q := by
  have hlist : (p ++ "." ++ q).toList = p.toList ++ '.' :: q.toList := by simp
  rw [segments, hlist, splitOn_append_sep, List.map_append]
  rfl

theorem segments_plain {s : String} (hs : '.' ∉ s.toList) : segments s = [s] := by
  rw [segments, List.splitOn_eq_singleton hs, List.map_singleton, String.ofList_toList]

theorem walk?_append (v : Json) (ss ts : List String) : v.walk? (ss ++ ts) = (v.walk? ss).bind (·.walk? ts) :=
  List.foldlM_append

theorem get?_append (v : Json) (p q : String) : v.get? (p ++ "." ++ q) = (v.get? p).bind (·.get? q) := by
  rw [get?, segments_append, walk?_append]
  rfl

theorem get?_plain (v : Json) {s : String} (hs : '.' ∉ s.toList) : v.get? s = v.step? s := by
  rw [get?, segments_plain hs, walk?, List.foldlM_cons]
  exact Option.bind_fun_some ..

end Composition

end Json

/-- The same failure, told of another key. -/
def EngineError.atKey (key : String) : EngineError → EngineError
  | missingKey _ => missingKey key
  | invalidType _ expected => invalidType key expected
  | e => e

/-- Reads that agree, or else fail alike, each with the key that it was given. -/
def SameButKey {m : Type → Type} [MonadExcept EngineError m] {α : Type} (key other : String) (x y : m α) : Prop :=
  x = y ∨ ∃ e : EngineError, x = throw (e.atKey key) ∧ y = throw (e.atKey other)

namespace Json

/-- What is read of the part under a key is what is read of the whole under a path. -/
structure ReadsAs (part : Json) (key : String) (whole : Json) (path : String) : Prop where
  get : part.get? key = whole.get? path
  has : part.has key = whole.has path
  text : part.text? key = whole.text? path
  required : SameButKey key path (part.requireText key) (whole.requireText path)
  flag : part.flag key = whole.flag path
  flagOr (default : Bool) : part.flagOr key default = whole.flagOr path default
  texts : part.texts key = whole.texts path
  subsection : part.subsection key = whole.subsection path
  subsections : part.subsections key = whole.subsections path
  number (ev : Evaluator) (shown : Placeholders) :
    SameButKey key path (Evaluation.number ⟨ev, part, shown⟩ key) (Evaluation.number ⟨ev, whole, shown⟩ path)

variable {part whole : Json} {key path : String}

theorem requireText_sameButKey (h : part.get? key = whole.get? path) :
    SameButKey key path (part.requireText key) (whole.requireText path) := by
  unfold requireText
  rw [h]
  split
  · exact .inr ⟨.missingKey path, rfl, rfl⟩
  · exact .inr ⟨.missingKey path, rfl, rfl⟩
  · split
    · exact .inl rfl
    · exact .inr ⟨.invalidType path "string", rfl, rfl⟩

theorem number_sameButKey (h : part.get? key = whole.get? path) (ev : Evaluator) (shown : Placeholders) :
    SameButKey key path (Evaluation.number ⟨ev, part, shown⟩ key) (Evaluation.number ⟨ev, whole, shown⟩ path) := by
  simp only [Evaluation.number, h]
  cases whole.get? path with
  | none => exact .inr ⟨.missingKey path, rfl, rfl⟩
  | some w =>
    cases w with
    | null => exact .inr ⟨.missingKey path, rfl, rfl⟩
    | array items => exact .inr ⟨.invalidType path "number or expression", rfl, rfl⟩
    | object fields => exact .inr ⟨.invalidType path "number or expression", rfl, rfl⟩
    | _ => exact .inl rfl

/-- All reads look at nothing but what the path leads to. -/
theorem ReadsAs.of_get (h : part.get? key = whole.get? path) : part.ReadsAs key whole path where
  get := h
  has := by rw [Json.has, Json.has, h]
  text := by rw [text?, text?, h]
  required := requireText_sameButKey h
  flag := by rw [Json.flag, Json.flag, Json.flagOr, Json.flagOr, h]
  flagOr default := by rw [Json.flagOr, Json.flagOr, h]
  texts := by rw [Json.texts, Json.texts, h]
  subsection := by rw [Json.subsection, Json.subsection, h]
  subsections := by rw [Json.subsections, Json.subsections, h]
  number := number_sameButKey h

end Json

/-- A tour: an index with a sign and a zero too many, an empty name, and a name of digits. -/
def Json.tour : Json := .object [("a", .array [.null, .object [("", .object [("0", .text "x")])]])]

end Ability
