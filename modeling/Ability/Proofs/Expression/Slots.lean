import Ability.Proofs.Expression.Writing

/-! Expressions with placeholders. Where operands stand apart from operators, no modulo operator is taken for the
percent sign of a placeholder, neither before the placeholders are filled in nor afterwards; so that filling in
symbols gives the symbols of the whole expression. -/

namespace Ability.Expression

/-- A number with a minus sign or without. -/
structure SignedNumber where
  negative : Bool
  magnitude : Literal

namespace SignedNumber

def value (x : SignedNumber) : Float := if x.negative then -x.magnitude.value else x.magnitude.value

/-- The number behind some blanks. -/
def bare (x : SignedNumber) (n : Nat) : List (Nat × Symbol) :=
  if x.negative then [(n, .op .sub), (0, .literal x.magnitude)] else [(n, .literal x.magnitude)]

def enclosed (x : SignedNumber) (n : Nat) : List (Nat × Symbol) :=
  (n, .lparen) :: (x.bare 0 ++ [(0, .rparen)])

end SignedNumber

/-- What an expression with placeholders is made of. -/
inductive Slot
  | symbol (s : Symbol)
  | reference (name : List Char)

namespace Slot

def text : Slot → List Char
  | symbol s => s.text
  | reference name => '%' :: (name ++ ['%'])

/-- The token that a slot is meant as, a reference as the number it stands for. -/
def token (σ : List Char → SignedNumber) : Slot → Token
  | symbol s => s.token
  | reference name => .number (σ name).value

def pieces : Slot → List Template.Piece
  | symbol s => Template.literals s.text
  | reference name => [.reference name]

def names : Slot → List (List Char)
  | symbol _ => []
  | reference name => [name]

def isOperand : Slot → Bool
  | symbol (.literal _) | reference _ => true
  | symbol _ => false

def isOperator : Slot → Bool
  | symbol (.op _) => true
  | symbol _ | reference _ => false

end Slot

/-- The text of slots, each behind as many blanks as are given with it. -/
def slotText (gs : List (Nat × Slot)) : List Char :=
  gs.flatMap fun g => List.replicate g.1 ' ' ++ g.2.text

def slotTokens (σ : List Char → SignedNumber) (gs : List (Nat × Slot)) : List Token :=
  gs.map (·.2.token σ)

def slotPieces (gs : List (Nat × Slot)) : List Template.Piece :=
  gs.flatMap fun g => Template.literals (List.replicate g.1 ' ') ++ g.2.pieces

/-- Operands and operators have a blank between them. -/
def Loose (a b : Nat × Slot) : Prop :=
  a.2.isOperand ∧ b.2.isOperator ∨ a.2.isOperator ∧ b.2.isOperand → 0 < b.1

instance : DecidableRel Loose := fun a b =>
  inferInstanceAs (Decidable (a.2.isOperand ∧ b.2.isOperator ∨ a.2.isOperator ∧ b.2.isOperand → 0 < b.1))

def slotNames (gs : List (Nat × Slot)) : List (List Char) := gs.flatMap (·.2.names)

/-- The references are to names that a placeholder can have. -/
def Named (gs : List (Nat × Slot)) : Prop :=
  ∀ name ∈ slotNames gs, name ≠ [] ∧ name.all Template.isNameChar = true

instance (gs : List (Nat × Slot)) : Decidable (Named gs) :=
  inferInstanceAs (Decidable (∀ name ∈ slotNames gs, name ≠ [] ∧ name.all Template.isNameChar = true))

section Pieces

open Template

variable {σ : List Char → SignedNumber} {gs : List (Nat × Slot)}

theorem slotText_cons (n : Nat) (s : Slot) (gs : List (Nat × Slot)) :
    slotText ((n, s) :: gs) = List.replicate n ' ' ++ (s.text ++ slotText gs) := by
  simp [slotText]

theorem slotPieces_cons (n : Nat) (s : Slot) (gs : List (Nat × Slot)) :
    slotPieces ((n, s) :: gs) = literals (List.replicate n ' ') ++ (s.pieces ++ slotPieces gs) := by
  simp [slotPieces]

/-- What an operand may begin with other than a number. -/
theorem Slot.eq_of_opens {s : Slot} (h : (s.token σ).opens = true) (hs : s.isOperand = false) :
    s = .symbol (.op .sub) ∨ s = .symbol .lparen ∨ s = .symbol (.op .not) := by
  cases s with
  | reference name => cases hs
  | symbol t =>
    cases t with
    | literal l => cases hs
    | lparen => exact .inr (.inl rfl)
    | rparen => cases h
    | op o => cases o <;> first | (simp; done) | cases h

/-- The pieces of a slot, if a modulo operator leaves its percent sign open for nothing. -/
theorem pieces_slot {n : Nat} {s : Slot} (hnames : Named ((n, s) :: gs))
    (hclosed : pieces none (slotText gs) = slotPieces gs)
    (hopen : s = .symbol (.op .mod) → pieces (some []) (slotText gs) = literals ['%'] ++ slotPieces gs) :
    pieces none (s.text ++ slotText gs) = s.pieces ++ slotPieces gs := by
  match s with
  | .reference name =>
    obtain ⟨hne, hname⟩ := hnames name (List.mem_append_left _ (List.mem_singleton_self _))
    have htext : (Slot.reference name).text ++ slotText gs = '%' :: (name ++ '%' :: slotText gs) := by
      simp [Slot.text]
    rw [htext, pieces_none_cons, if_pos rfl, pieces_reference hne (List.all_eq_true.1 hname), hclosed]
    rfl
  | .symbol t =>
    by_cases hpercent : '%' ∈ t.text
    · obtain rfl := Symbol.eq_mod_of_percent_mem hpercent
      have htext : (Slot.symbol (.op .mod)).text ++ slotText gs = '%' :: slotText gs := rfl
      rw [htext, pieces_none_cons, if_pos rfl, hopen rfl]
      rfl
    · exact (pieces_literals hpercent _).trans (congrArg _ hclosed)

/-- The pieces of an expression are those of its slots. A modulo operator leaves a percent sign open for the
signs right behind it, but they are followed by no operand without a blank. -/
theorem pieces_slotText (hnames : Named gs) (hlinked : (slotTokens σ gs).IsChain Token.Follows)
    (hloose : gs.IsChain Loose) :
    pieces none (slotText gs) = slotPieces gs ∧
    ∀ o k since, (Token.op o :: slotTokens σ gs).IsChain Token.Follows →
      ((k, .symbol (.op o)) :: gs).IsChain Loose →
      pieces (some since) (slotText gs) = literals ('%' :: since) ++ slotPieces gs := by
  induction gs with
  | nil =>
    refine ⟨rfl, fun o k since _ _ => ?_⟩
    exact pieces_release since (by simp [slotText])
  | cons g gs ih =>
    obtain ⟨n, s⟩ := g
    have hnames' : Named gs := fun name hmem => hnames name (List.mem_append_right _ hmem)
    obtain ⟨closed, afterOperator⟩ := ih hnames' (List.isChain_cons.1 hlinked).2 (List.isChain_cons.1 hloose).2
    have whole : pieces none (slotText ((n, s) :: gs)) = slotPieces ((n, s) :: gs) := by
      rw [slotText_cons, slotPieces_cons, pieces_literals (by simp), pieces_slot hnames closed]
      rintro rfl
      exact afterOperator .mod n [] hlinked hloose
    refine ⟨whole, fun o k since hlinked' hloose' => ?_⟩
    cases n with
    | succ n =>
      rw [pieces_release since ?_, whole]
      rintro c hc
      obtain rfl : c = ' ' := by simpa [slotText, List.replicate_succ, eq_comm] using hc
      decide
    | zero =>
      have hopens : (s.token σ).opens := (List.isChain_cons_cons.1 hlinked').1
      have hapart : Loose (k, .symbol (.op o)) (0, s) := (List.isChain_cons_cons.1 hloose').1
      have hsymbol : s.isOperand = false := by
        by_contra hoperand
        exact absurd (hapart (.inr ⟨rfl, by simpa using hoperand⟩)) (lt_irrefl 0)
      rcases Slot.eq_of_opens hopens hsymbol with rfl | rfl | rfl
      · have hrest := afterOperator .sub 0 (since ++ ['-']) hlinked hloose
        have hsign : pieces (some since) (slotText ((0, .symbol (.op .sub)) :: gs)) =
            pieces (some (since ++ ['-'])) (slotText gs) := pieces_names since ['-'] _ (List.all_eq_true.1 rfl)
        rw [hsign, hrest, slotPieces_cons]
        simp [Slot.pieces, literals, Symbol.text, Operator.symbol]
      · rw [pieces_release since ?_, whole]
        rintro c ⟨⟩
        decide
      · rw [pieces_release since ?_, whole]
        rintro c ⟨⟩
        decide

end Pieces

section Filling

/-- No modulo operator right behind a number. -/
def Clear (a b : Nat × Symbol) : Prop := ∀ l, a.2 = .literal l → b.2 = .op .mod → 0 < b.1

/-- Symbols to put in place of references: the blanks before a reference are those before its symbols, and no
modulo operator can come of them. -/
structure Fits (f : List Char → Nat → List (Nat × Symbol)) : Prop where
  blanks : ∀ name n, write (f name n) = List.replicate n ' ' ++ write (f name 0)
  tokens : ∀ name n, tokensOf (f name n) = tokensOf (f name 0)
  head : ∀ name n, ∃ g gs, f name n = g :: gs ∧ g.2 ≠ .op .mod
  clear : ∀ name n, (f name n).IsChain Clear

theorem fits_bare (σ : List Char → SignedNumber) : Fits fun name => (σ name).bare where
  blanks name n := by
    unfold SignedNumber.bare
    split <;> simp [write]
  tokens name n := by
    unfold SignedNumber.bare
    split <;> rfl
  head name n := by
    unfold SignedNumber.bare
    split
    · exact ⟨_, _, rfl, by simp⟩
    · exact ⟨_, _, rfl, by simp⟩
  clear name n := by
    unfold SignedNumber.bare
    split <;> simp [Clear]

theorem fits_enclosed (σ : List Char → SignedNumber) : Fits fun name => (σ name).enclosed where
  blanks name n := by simp [SignedNumber.enclosed, write]
  tokens name n := rfl
  head name n := ⟨_, _, rfl, by simp⟩
  clear name n := by
    unfold SignedNumber.enclosed SignedNumber.bare
    split <;> simp [Clear]

/-- The symbols of an expression with those of `f` in place of the references. -/
def filledWith (f : List Char → Nat → List (Nat × Symbol)) (gs : List (Nat × Slot)) : List (Nat × Symbol) :=
  gs.flatMap fun g =>
    match g.2 with
    | .symbol s => [(g.1, s)]
    | .reference name => f name g.1

/-- The names in an expression stand for the symbols of `f`. -/
def StandFor (p : Placeholders) (f : List Char → Nat → List (Nat × Symbol)) (gs : List (Nat × Slot)) : Prop :=
  ∀ name ∈ slotNames gs, p.get? (String.ofList name) = some (String.ofList (write (f name 0)))

instance (p : Placeholders) (f : List Char → Nat → List (Nat × Symbol)) (gs : List (Nat × Slot)) :
    Decidable (StandFor p f gs) :=
  inferInstanceAs (Decidable (∀ name ∈ slotNames gs, _ = _))

variable {σ : List Char → SignedNumber} {gs : List (Nat × Slot)}
  {f : List Char → Nat → List (Nat × Symbol)}

theorem filledWith_cons (g : Nat × Slot) (gs : List (Nat × Slot)) :
    filledWith f (g :: gs) = filledWith f [g] ++ filledWith f gs := by
  simp [filledWith]

theorem flatMap_fill_slotPieces {p : Placeholders} (hf : Fits f) (hp : StandFor p f gs) :
    (slotPieces gs).flatMap (Template.Piece.fill p) = write (filledWith f gs) := by
  induction gs with
  | nil => rfl
  | cons g gs ih =>
    obtain ⟨n, s⟩ := g
    have hrest := ih fun name hmem => hp name (List.mem_append_right _ hmem)
    have hslot : List.replicate n ' ' ++ s.pieces.flatMap (Template.Piece.fill p) =
        write (filledWith f [(n, s)]) := by
      match s with
      | .symbol t => simp [filledWith, write, Slot.pieces, Template.flatMap_fill_literals]
      | .reference name =>
        have hname := hp name (List.mem_append_left _ (List.mem_singleton_self _))
        simp [filledWith, Slot.pieces, Template.Piece.fill, hname, hf.blanks name n]
    rw [filledWith_cons (n, s) gs, write_append, ← hslot, ← hrest, slotPieces_cons, List.flatMap_append,
      List.flatMap_append, Template.flatMap_fill_literals, List.append_assoc]

theorem eq_cons_of_filledWith_head (hf : Fits f) {n : Nat} (h : (n, .op .mod) ∈ (filledWith f gs).head?) :
    ∃ hs, gs = (n, .symbol (.op .mod)) :: hs := by
  cases gs with
  | nil => cases h
  | cons g gs =>
    obtain ⟨k, s⟩ := g
    match s with
    | .symbol t =>
      cases h
      exact ⟨gs, rfl⟩
    | .reference name =>
      obtain ⟨g, r, hcons, hhead⟩ := hf.head name k
      simp only [filledWith, List.flatMap_cons, hcons, List.cons_append, List.head?_cons, Option.mem_def,
        Option.some.injEq] at h
      rw [h] at hhead
      exact absurd rfl hhead

theorem clear_filledWith (hf : Fits f) (hloose : gs.IsChain Loose) : (filledWith f gs).IsChain Clear := by
  induction gs with
  | nil => exact .nil
  | cons g gs ih =>
    obtain ⟨n, s⟩ := g
    obtain ⟨hnext, hloose⟩ := List.isChain_cons.1 hloose
    have hslot : (filledWith f [(n, s)]).IsChain Clear := by
      match s with
      | .symbol t => exact .singleton _
      | .reference name => simpa [filledWith] using hf.clear name n
    have hoperand : ∀ a ∈ (filledWith f [(n, s)]).getLast?, ∀ l, a.2 = .literal l → s.isOperand := by
      match s with
      | .symbol t =>
        rintro _ ⟨⟩ l hl
        obtain rfl : t = .literal l := hl
        rfl
      | .reference name => exact fun _ _ _ _ => rfl
    rw [filledWith_cons]
    refine hslot.append (ih hloose) ?_
    rintro a ha ⟨k, t⟩ hb l hl rfl
    obtain ⟨hs, rfl⟩ := eq_cons_of_filledWith_head hf hb
    exact hnext _ rfl (.inl ⟨hoperand a ha l hl, rfl⟩)

/-- Without a modulo operator right behind a number there is no name before it. -/
theorem not_encloses_of_clear {hs : List (Nat × Symbol)} (hlinked : (tokensOf hs).IsChain Token.Follows)
    (hclear : hs.IsChain Clear) : ¬ Encloses hs := by
  rintro ⟨before, n, inside, after, rfl, hne, hinside⟩
  obtain ⟨inside, g, rfl⟩ := (List.eq_nil_or_concat' inside).resolve_left hne
  have hsplit : before ++ (n, .op .mod) :: (inside ++ [g] ++ (0, .op .mod) :: after) =
      (before ++ (n, .op .mod) :: inside) ++ g :: (0, .op .mod) :: after := by simp
  rw [hsplit] at hlinked hclear
  have hfollows : Token.Follows g.2.token (.op .mod) := by
    simp only [tokensOf, List.map_append, List.map_cons] at hlinked
    exact (List.isChain_append_cons_cons.1 hlinked).2.1
  have hafter := (List.isChain_append_cons_cons.1 hclear).2.1
  have hname := (hinside g (by simp)).2
  obtain ⟨k, s⟩ := g
  match s with
  | .literal l => exact absurd (hafter l rfl rfl) (lt_irrefl 0)
  | .op .sub => cases hfollows

/-- With symbols in place of its references, an expression has the value of its tokens. -/
theorem evaluate_slotText {p : Placeholders} (hnames : Named gs)
    (hslots : (slotTokens σ gs).IsChain Token.Follows) (hloose : gs.IsChain Loose) (hf : Fits f)
    (hp : StandFor p f gs) (hlinked : (tokensOf (filledWith f gs)).IsChain Token.Follows) :
    evaluate (String.ofList (slotText gs)) p =
      (judge (tokensOf (filledWith f gs))).mapError (.expression (String.ofList (slotText gs))) := by
  have hfill : Template.fill p (String.ofList (slotText gs)) = String.ofList (write (filledWith f gs)) := by
    rw [Template.fill, Template.ofText, String.toList_ofList, (pieces_slotText hnames hslots hloose).1,
      flatMap_fill_slotPieces hf hp]
  apply evaluate_of_tokenize
  · rw [hfill, String.toList_ofList, mentions_write_iff]
    exact not_encloses_of_clear hlinked (clear_filledWith hf hloose)
  · rw [hfill, String.toList_ofList, tokenize_write hlinked]

end Filling

end Ability.Expression
