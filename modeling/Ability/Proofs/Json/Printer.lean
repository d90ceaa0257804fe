import Ability.Proofs.Json.Scalars

/-! The compact text of a value tells the value. The first character shows of which form a value is, and a
written value is never the beginning of another where a comma, a closing bracket or nothing comes next. -/

namespace Ability

/-- A list of characters with `P` and what follows from the first one without it are told apart. -/
theorem append_injective_of_stop {P : Char → Prop} {cs ds r s : List Char} (hcs : ∀ c ∈ cs, P c)
    (hds : ∀ c ∈ ds, P c) (hr : ∀ c ∈ r.head?, ¬ P c) (hs : ∀ c ∈ s.head?, ¬ P c)
    (h : cs ++ r = ds ++ s) : cs = ds ∧ r = s := by
  induction cs generalizing ds with
  | nil =>
    cases ds with
    | nil => exact ⟨rfl, h⟩
    | cons d ds =>
      have hhead : r.head? = some d := congrArg List.head? h
      exact absurd (hds d (List.mem_cons_self ..)) (hr d hhead)
  | cons c cs ih =>
    obtain ⟨hc, hcs⟩ := List.forall_mem_cons.mp hcs
    cases ds with
    | nil =>
      have hhead : s.head? = some c := (congrArg List.head? h).symm
      exact absurd hc (hs c hhead)
    | cons d ds =>
      obtain ⟨hcd, htail⟩ := List.cons.inj h
      obtain ⟨heq, hrs⟩ := ih hcs (List.forall_mem_cons.mp hds).2 htail
      exact ⟨by rw [hcd, heq], hrs⟩

theorem Number.write_head (n : Number) :
    ∃ c r, n.write = c :: r ∧ (c.isDigit = true ∨ c ∈ ['-', 'N', 'i']) := by
  have hsigned : ∀ (s : Bool) (cs : List Char), (∃ c r, cs = c :: r ∧ (c.isDigit = true ∨ c ∈ ['N', 'i'])) →
      ∃ c r, (if s then ['-'] else []) ++ cs = c :: r ∧ (c.isDigit = true ∨ c ∈ ['-', 'N', 'i']) := by
    rintro s cs ⟨c, r, rfl, hc⟩
    cases s with
    | true => exact ⟨'-', c :: r, rfl, by simp⟩
    | false => exact ⟨c, r, rfl, hc.imp id (List.mem_cons_of_mem _)⟩
  have hdigit : ∀ {cs : List Char}, Binary64.StartsWithDigit cs →
      ∃ c r, cs = c :: r ∧ (c.isDigit = true ∨ c ∈ ['N', 'i']) := by
    rintro cs ⟨c, r, rfl, hc⟩
    exact ⟨c, r, rfl, .inl hc⟩
  cases n with
  | integer i =>
    have h := hsigned (decide (i < 0)) _ (hdigit (Binary64.startsWithDigit_toDigits i.natAbs))
    simp only [decide_eq_true_eq] at h
    exact h
  | decimal x =>
    have hwrite : (decimal x).write = Binary64.Layout.document.write x := rfl
    rw [hwrite, Binary64.Layout.write_eq]
    apply hsigned
    cases Binary64.parts x with
    | nan => exact ⟨'N', _, rfl, by simp⟩
    | infinite s => exact ⟨'i', _, rfl, by simp⟩
    | finite s m q => exact hdigit (Binary64.Layout.magnitude_startsWithDigit .document m q)

namespace Json

inductive Form
  | null
  | bool
  | number
  | text
  | array
  | object

def form : Json → Form
  | null => .null
  | bool _ => .bool
  | number _ => .number
  | text _ => .text
  | array _ => .array
  | object _ => .object

/-- The form of the values that begin with a character. -/
def formOf (c : Char) : Form :=
  if c = 'n' then .null
  else if c = 't' ∨ c = 'f' then .bool
  else if c = '"' then .text
  else if c = '[' then .array
  else if c = '{' then .object
  else .number

/-- What may follow a value inside another, or at the end. -/
def Ends (r : List Char) : Prop := ∀ c ∈ r.head?, c ∈ [',', ']', '}']

theorem not_isNumberChar_of_ends {c : Char} (hc : c ∈ [',', ']', '}']) : ¬ IsNumberChar c := by
  simp only [List.mem_cons, List.not_mem_nil, or_false] at hc
  rcases hc with rfl | rfl | rfl <;> simp [IsNumberChar]

theorem write_head (v : Json) : ∃ c r, v.write = c :: r ∧ formOf c = v.form ∧ c ∉ [',', ']', '}'] := by
  cases v with
  | null => exact ⟨'n', _, rfl, rfl, by simp⟩
  | bool b => cases b <;> exact ⟨_, _, rfl, rfl, by simp⟩
  | number n =>
    obtain ⟨c, r, hn, hc⟩ := n.write_head
    refine ⟨c, r, hn, ?_, ?_⟩
    · rcases hc with hc | hc
      · have hne : ∀ d : Char, d.isDigit = false → c ≠ d := by
          rintro d hd rfl
          rw [hd] at hc
          cases hc
        simp only [formOf, form, hne 'n' rfl, hne 't' rfl, hne 'f' rfl, hne '"' rfl, hne '[' rfl,
          hne '{' rfl, or_false, if_false]
      · simp only [List.mem_cons, List.not_mem_nil, or_false] at hc
        rcases hc with rfl | rfl | rfl <;> rfl
    · exact fun hmem => not_isNumberChar_of_ends hmem (n.write_chars c (hn ▸ List.mem_cons_self ..))
  | text s => exact ⟨'"', _, rfl, rfl, by simp⟩
  | array items => exact ⟨'[', _, rfl, rfl, by simp⟩
  | object fields => exact ⟨'{', _, rfl, rfl, by simp⟩

theorem form_eq_of_write_append {v w : Json} {r s : List Char} (h : v.write ++ r = w.write ++ s) :
    v.form = w.form := by
  obtain ⟨c, r', hv, hc, -⟩ := v.write_head
  obtain ⟨d, s', hw, hd, -⟩ := w.write_head
  rw [hv, hw] at h
  rw [← hc, ← hd, (List.cons.inj h).1]

section Joined

variable {α : Type} {f : α → List Char} {close : Char} {l m : List α} {r s : List Char}

/-- Parts with commas between them, the bracket that closes them, and what comes then. -/
def joined (close : Char) : List (List Char) → List Char → List Char
  | [], r => close :: r
  | [t], r => t ++ close :: r
  | t :: u :: l, r => t ++ ',' :: joined close (u :: l) r

def afterPart (close : Char) : List (List Char) → List Char → List Char
  | [], r => close :: r
  | t :: l, r => ',' :: joined close (t :: l) r

theorem joined_cons (t : List Char) (l : List (List Char)) (r : List Char) :
    joined close (t :: l) r = t ++ afterPart close l r := by
  cases l <;> rfl

theorem ends_afterPart (hclose : close ∈ [']', '}']) (l : List (List Char)) (r : List Char) :
    Ends (afterPart close l r) := by
  intro c hc
  cases l with
  | nil =>
    obtain rfl : close = c := Option.some.inj hc
    exact List.mem_cons_of_mem _ hclose
  | cons t l =>
    obtain rfl : ',' = c := Option.some.inj hc
    exact List.mem_cons_self ..

/-- Parts that do not begin with the bracket and are told from what comes after them are told from each
other when they are joined. -/
theorem eq_of_joined_eq (hclose : close ∈ [']', '}'])
    (hhead : ∀ x, ∃ c t, f x = c :: t ∧ c ≠ close)
    (hf : ∀ x ∈ l, ∀ y {r s}, Ends r → Ends s → f x ++ r = f y ++ s → x = y ∧ r = s)
    (h : joined close (l.map f) r = joined close (m.map f) s) : l = m ∧ r = s := by
  have hne : ∀ x l r s, joined close ((x :: l).map f) r ≠ close :: s := by
    intro x l r s h
    obtain ⟨c, t, hx, hc⟩ := hhead x
    rw [List.map_cons, joined_cons, hx] at h
    exact hc (List.cons.inj h).1
  have hcomma : ',' ≠ close := by
    rintro rfl
    simp at hclose
  induction l generalizing m with
  | nil =>
    cases m with
    | nil => exact ⟨rfl, (List.cons.inj h).2⟩
    | cons y m => exact absurd h.symm (hne y m s r)
  | cons x l ih =>
    cases m with
    | nil => exact absurd h (hne x l r s)
    | cons y m =>
      obtain ⟨hx, hl⟩ := List.forall_mem_cons.mp hf
      rw [List.map_cons, List.map_cons, joined_cons, joined_cons] at h
      obtain ⟨hxy, hafter⟩ := hx y (ends_afterPart hclose _ _) (ends_afterPart hclose _ _) h
      have hrest : joined close (l.map f) r = joined close (m.map f) s := by
        cases l with
        | nil =>
          cases m with
          | nil => exact hafter
          | cons y' m => exact absurd (List.cons.inj hafter).1.symm hcomma
        | cons x' l =>
          cases m with
          | nil => exact absurd (List.cons.inj hafter).1 hcomma
          | cons y' m => exact (List.cons.inj hafter).2
      obtain ⟨hlm, hrs⟩ := ih hl hrest
      exact ⟨by rw [hxy, hlm], hrs⟩

end Joined

def writeField (e : String × Json) : List Char := writeText e.1 ++ ':' :: e.2.write

theorem writeItems_append (l : List Json) (r : List Char) :
    writeItems l ++ ']' :: r = joined ']' (l.map write) r := by
  induction l with
  | nil => rfl
  | cons v l ih =>
    cases l with
    | nil => rfl
    | cons w l =>
      rw [List.map_cons, joined_cons, List.map_cons, afterPart, ← List.map_cons, ← ih]
      simp [writeItems]

theorem writeFields_append (l : List (String × Json)) (r : List Char) :
    writeFields l ++ '}' :: r = joined '}' (l.map writeField) r := by
  induction l with
  | nil => rfl
  | cons e l ih =>
    cases l with
    | nil => simp [writeFields, writeField, joined]
    | cons e' l =>
      rw [List.map_cons, joined_cons, List.map_cons, afterPart, ← List.map_cons, ← ih]
      simp [writeFields, writeField]

theorem write_array_append (l : List Json) (r : List Char) :
    (array l).write ++ r = '[' :: joined ']' (l.map write) r := by
  rw [← writeItems_append]
  simp [write]

theorem write_object_append (l : List (String × Json)) (r : List Char) :
    (object l).write ++ r = '{' :: joined '}' (l.map writeField) r := by
  rw [← writeFields_append]
  simp [write]

/-- A written value is told from what comes after it. -/
theorem eq_of_write_append : ∀ (v w : Json) {r s : List Char}, Ends r → Ends s →
    v.write ++ r = w.write ++ s → v = w ∧ r = s
  | .null, w, r, s, _, _, h => by
    have hform := form_eq_of_write_append h
    cases w with
    | null => exact ⟨rfl, List.append_cancel_left h⟩
    | _ => cases hform
  | .bool b, w, r, s, _, _, h => by
    have hform := form_eq_of_write_append h
    cases w with
    | bool b' =>
      have hbool : b = b' := by
        cases b <;> cases b' <;> first | rfl | cases h
      subst hbool
      exact ⟨rfl, List.append_cancel_left h⟩
    | _ => cases hform
  | .number n, w, r, s, hr, hs, h => by
    have hform := form_eq_of_write_append h
    cases w with
    | number n' =>
      obtain ⟨hn, hrs⟩ := append_injective_of_stop n.write_chars n'.write_chars
        (fun c hc => not_isNumberChar_of_ends (hr c hc)) (fun c hc => not_isNumberChar_of_ends (hs c hc)) h
      exact ⟨by rw [Number.write_injective hn], hrs⟩
    | _ => cases hform
  | .text t, w, r, s, _, _, h => by
    have hform := form_eq_of_write_append h
    cases w with
    | text t' =>
      obtain ⟨ht, hrs⟩ := writeText_append_injective h
      exact ⟨by rw [ht], hrs⟩
    | _ => cases hform
  | .array l, w, r, s, _, _, h => by
    have hform := form_eq_of_write_append h
    cases w with
    | array m =>
      rw [write_array_append, write_array_append] at h
      have hhead : ∀ v : Json, ∃ c t, v.write = c :: t ∧ c ≠ ']' := by
        intro v
        obtain ⟨c, t, hv, -, hc⟩ := v.write_head
        exact ⟨c, t, hv, fun heq => hc (heq ▸ by simp)⟩
      obtain ⟨hl, hrs⟩ := eq_of_joined_eq (by simp) hhead
        (fun v hv w r s hr hs h => eq_of_write_append v w hr hs h) (List.cons.inj h).2
      exact ⟨by rw [hl], hrs⟩
    | _ => cases hform
  | .object l, w, r, s, _, _, h => by
    have hform := form_eq_of_write_append h
    cases w with
    | object m =>
      rw [write_object_append, write_object_append] at h
      have hhead : ∀ e : String × Json, ∃ c t, writeField e = c :: t ∧ c ≠ '}' :=
        fun e => ⟨'"', _, rfl, by decide⟩
      have hfield : ∀ e ∈ l, ∀ e' {r s}, Ends r → Ends s →
          writeField e ++ r = writeField e' ++ s → e = e' ∧ r = s := by
        rintro ⟨k, v⟩ he ⟨k', w⟩ r s hr hs h
        simp only [writeField, List.append_assoc, List.cons_append] at h
        obtain ⟨hk, hv⟩ := writeText_append_injective h
        obtain ⟨hvw, hrs⟩ := eq_of_write_append v w hr hs (List.cons.inj hv).2
        exact ⟨by rw [hk, hvw], hrs⟩
      obtain ⟨hl, hrs⟩ := eq_of_joined_eq (by simp) hhead hfield (List.cons.inj h).2
      exact ⟨by rw [hl], hrs⟩
    | _ => cases hform
termination_by v => v.size
decreasing_by
  · have hle := size_le_totalSize hv
    simp only [size]
    omega
  · have hle : v.size ≤ fieldsSize l := size_le_fieldsSize he
    simp only [size]
    omega

theorem write_injective {v w : Json} (h : v.write = w.write) : v = w :=
  (eq_of_write_append v w (r := []) (s := []) (by simp [Ends]) (by simp [Ends]) (by rw [h])).1

/-- All control characters are escaped. -/
def Printable (cs : List Char) : Prop := ∀ c ∈ cs, 32 ≤ c.toNat

theorem printable_digits (n v : Nat) : Printable (Hexadecimal.digits n v) := by
  induction n generalizing v with
  | zero => simp [Hexadecimal.digits, Printable]
  | succ n ih =>
    have hdigit : ∀ k < 16, 32 ≤ (Hexadecimal.digit k).toNat := by decide
    refine List.forall_mem_append.mpr ⟨ih _, ?_⟩
    exact List.forall_mem_singleton.mpr (hdigit _ (Nat.mod_lt _ (by norm_num)))

theorem printable_escapeChar (c : Char) : Printable (escapeChar c) := by
  by_cases hshort : c ∈ ['"', '\\', '\x08', '\t', '\n', '\x0c', '\r']
  · simp only [List.mem_cons, List.not_mem_nil, or_false] at hshort
    rcases hshort with rfl | rfl | rfl | rfl | rfl | rfl | rfl <;> simp [escapeChar, Printable]
  simp only [List.mem_cons, List.not_mem_nil, or_false, not_or] at hshort
  simp only [escapeChar, hshort, if_false]
  split
  · have hdigits := printable_digits 4 c.toNat
    simp only [Printable, List.forall_mem_cons]
    exact ⟨by decide, by decide, hdigits⟩
  · next hc => exact List.forall_mem_singleton.mpr (not_lt.mp hc)

theorem printable_writeText (s : String) : Printable (writeText s) := by
  intro c hc
  simp only [writeText, List.cons_append, List.mem_cons, List.mem_append, List.mem_flatMap,
    List.not_mem_nil, or_false] at hc
  rcases hc with rfl | ⟨d, -, hd⟩ | rfl
  · decide
  · exact printable_escapeChar d c hd
  · decide

theorem printable_of_isNumberChar {c : Char} (hc : IsNumberChar c) : 32 ≤ c.toNat := by
  rcases hc with hc | hc
  · simp only [Char.isDigit, Bool.and_eq_true, decide_eq_true_eq, ge_iff_le] at hc
    have hle : '0'.toNat ≤ c.toNat := UInt32.le_iff_toNat_le.mp hc.1
    exact le_trans (by decide) hle
  · simp only [List.mem_cons, List.not_mem_nil, or_false] at hc
    rcases hc with rfl | rfl | rfl | rfl | rfl | rfl | rfl | rfl | rfl <;> decide

theorem printable_joined {close : Char} (hclose : 32 ≤ close.toNat) {ts : List (List Char)}
    (hts : ∀ t ∈ ts, Printable t) : Printable (joined close ts []) := by
  induction ts with
  | nil => exact List.forall_mem_singleton.mpr hclose
  | cons t ts ih =>
    obtain ⟨ht, hts⟩ := List.forall_mem_cons.mp hts
    rw [joined_cons]
    refine List.forall_mem_append.mpr ⟨ht, ?_⟩
    cases ts with
    | nil => exact List.forall_mem_singleton.mpr hclose
    | cons u ts => exact List.forall_mem_cons.mpr ⟨by decide, ih hts⟩

theorem printable_write : ∀ v : Json, Printable v.write
  | .null => by simp [write, Printable]
  | .bool b => by cases b <;> simp [write, Printable]
  | .number n => fun c hc => printable_of_isNumberChar (n.write_chars c hc)
  | .text s => printable_writeText s
  | .array l => by
    have hjoined : Printable (joined ']' (l.map write) []) := by
      refine printable_joined (by decide) fun t ht => ?_
      obtain ⟨v, hv, rfl⟩ := List.mem_map.mp ht
      exact printable_write v
    have happend := write_array_append l []
    rw [List.append_nil] at happend
    rw [happend]
    exact List.forall_mem_cons.mpr ⟨by decide, hjoined⟩
  | .object l => by
    have hjoined : Printable (joined '}' (l.map writeField) []) := by
      refine printable_joined (by decide) fun t ht => ?_
      obtain ⟨e, he, rfl⟩ := List.mem_map.mp ht
      refine List.forall_mem_append.mpr ⟨printable_writeText e.1, ?_⟩
      exact List.forall_mem_cons.mpr ⟨by decide, printable_write e.2⟩
    have happend := write_object_append l []
    rw [List.append_nil] at happend
    rw [happend]
    exact List.forall_mem_cons.mpr ⟨by decide, hjoined⟩
termination_by v => v.size
decreasing_by
  · have hle := size_le_totalSize hv
    simp only [size]
    omega
  · have hle := size_le_fieldsSize he
    simp only [size]
    omega

end Json

end Ability
