import Ability.Proofs.Expression.Modulo
import Ability.Proofs.Expression.Refusal
import Ability.Proofs.Expression.Slots
import Mathlib.Order.MinMax

/-! Numbers put in place of placeholders. In parentheses a number is one operand wherever it is put. A bare number
is one too, unless it has a minus sign and is raised to a power: the sign then holds for the power. -/

namespace Ability.Expression

/-- Some of the numbers among tokens in another form: as an operand of the same value, or, where no power of it
is taken, as a number behind a minus sign. -/
inductive Regroups : List Token → List Token → Prop
  | nil : Regroups [] []
  | keep (t : Token) {ts us : List Token} : Regroups ts us → Regroups (t :: ts) (t :: us)
  | operand (x : Tree .primary) {ts us : List Token} :
      x.Defined → Regroups ts us → Regroups (.number x.value :: ts) (x.tokens ++ us)
  | signed (v : Float) {ts us : List Token} :
      (∀ r, ts ≠ .op .pow :: r) → Regroups ts us → Regroups (.number (-v) :: ts) (.op .sub :: .number v :: us)

namespace Regroups

variable {ts us rs : List Token}

theorem append (h : Regroups (ts ++ rs) us) :
    ∃ us' vs, us = us' ++ vs ∧ Regroups ts us' ∧ Regroups rs vs := by
  induction ts generalizing us with
  | nil => exact ⟨[], us, rfl, .nil, h⟩
  | cons t ts ih =>
    cases h with
    | keep _ h =>
      obtain ⟨us', vs, rfl, hts, hrs⟩ := ih h
      exact ⟨_, vs, rfl, .keep t hts, hrs⟩
    | operand x hx h =>
      obtain ⟨us', vs, rfl, hts, hrs⟩ := ih h
      exact ⟨_, vs, (List.append_assoc ..).symm, .operand x hx hts, hrs⟩
    | signed v hpow h =>
      obtain ⟨us', vs, rfl, hts, hrs⟩ := ih h
      refine ⟨_, vs, rfl, .signed v ?_ hts, hrs⟩
      rintro r rfl
      exact hpow (r ++ rs) rfl

theorem cons_op {o : Operator} (h : Regroups (.op o :: ts) us) :
    ∃ us', us = .op o :: us' ∧ Regroups ts us' := by
  cases h with
  | keep _ h => exact ⟨_, rfl, h⟩

theorem append_op {o : Operator} (h : Regroups (ts ++ .op o :: rs) us) :
    ∃ us' vs, us = us' ++ .op o :: vs ∧ Regroups ts us' ∧ Regroups rs vs := by
  obtain ⟨us', vs, rfl, hts, h⟩ := h.append
  obtain ⟨vs, rfl, hrs⟩ := h.cons_op
  exact ⟨us', vs, rfl, hts, hrs⟩

theorem parentheses (h : Regroups (.lparen :: (ts ++ .rparen :: rs)) us) :
    ∃ us' vs, us = .lparen :: (us' ++ .rparen :: vs) ∧ Regroups ts us' ∧ Regroups rs vs := by
  cases h with
  | keep _ h =>
    obtain ⟨us', vs, rfl, hts, hrs⟩ := h.append
    cases hrs with
    | keep _ hrs => exact ⟨us', _, rfl, hts, hrs⟩

end Regroups

/-- Trees of the same value, the second one not less deep. -/
structure Tree.Like {p : Part} (t t' : Tree p) : Prop where
  value : t'.value = t.value
  defined : t'.Defined ↔ t.Defined
  depth : t.depth ≤ t'.depth

structure More.Like {j : Join} (m m' : More j) : Prop where
  value : ∀ x, m'.value x = m.value x
  defined : m'.Defined ↔ m.Defined
  depth : m.depth ≤ m'.depth

/-- Parts that a sign cannot be the beginning of. -/
def Part.isSignless : Part → Bool
  | primary | power => true
  | join _ | comparison | sign => false

/-- What has come of the tokens of a tree is a tree like it, or a minus sign before a number where a number was. -/
def Tree.Regrouped {p : Part} (t : Tree p) (us : List Token) : Prop :=
  (∃ t' : Tree p, t'.tokens = us ∧ t.Like t') ∨
    p.isSignless ∧ ∃ v, t.tokens = [.number (-v)] ∧ us = [.op .sub, .number v]

theorem Tree.Regrouped.tree {p : Part} {t : Tree p} {us : List Token} (h : t.Regrouped us)
    (hp : p.isSignless = false) : ∃ t' : Tree p, t'.tokens = us ∧ t.Like t' := by
  rcases h with h | ⟨hp', -⟩
  · exact h
  · rw [hp] at hp'
    cases hp'

theorem Join.operand_not_isSignless (j : Join) : j.operand.isSignless = false := by
  cases j <;> rfl

/-- A number and whatever it is written as. -/
theorem Tree.regrouped_number {v : Float} {us : List Token} (h : Regroups [.number v] us) :
    (Tree.number v).Regrouped us := by
  cases h with
  | keep _ h =>
    cases h
    exact .inl ⟨.number v, rfl, rfl, Iff.rfl, le_rfl⟩
  | operand x hx h =>
    cases h
    exact .inl ⟨x, (List.append_nil _).symm, rfl, ⟨fun _ => trivial, fun _ => hx⟩, Nat.zero_le _⟩
  | signed v _ h =>
    cases h
    exact .inr ⟨rfl, v, rfl, rfl⟩

/-- A number that a power is taken of is an operand. -/
theorem Tree.regrouped_number_raised {v : Float} {ts us : List Token}
    (h : Regroups (.number v :: .op .pow :: ts) us) :
    ∃ (x : Tree .primary) (vs : List Token), us = x.tokens ++ .op .pow :: vs ∧ (Tree.number v).Like x ∧
      Regroups ts vs := by
  cases h with
  | keep _ h =>
    obtain ⟨vs, rfl, hts⟩ := h.cons_op
    exact ⟨.number v, vs, rfl, ⟨rfl, Iff.rfl, le_rfl⟩, hts⟩
  | operand x hx h =>
    obtain ⟨vs, rfl, hts⟩ := h.cons_op
    exact ⟨x, vs, rfl, ⟨rfl, ⟨fun _ => trivial, fun _ => hx⟩, Nat.zero_le _⟩, hts⟩
  | signed v hpow h => exact absurd rfl (hpow ts)

/-- A number without a power is one of a power as well, and a minus sign makes a signed operand of it. -/
theorem Tree.regrouped_unsigned {x : Tree .power} {us : List Token} (h : x.Regrouped us) :
    ∃ t' : Tree .sign, t'.tokens = us ∧ (Tree.unsigned x).Like t' := by
  rcases h with ⟨x', rfl, hx⟩ | ⟨-, v, hv, rfl⟩
  · exact ⟨.unsigned x', rfl, hx.value, hx.defined, Nat.succ_le_succ hx.depth⟩
  · have hbase : (Tree.base (.number (-v))).tokens = [.number (-v)] := rfl
    obtain rfl : x = .base (.number (-v)) := Tree.eq_of_tokens (hv.trans hbase.symm)
    refine ⟨.negative (.unsigned (.base (.number v))), rfl, rfl, Iff.rfl, ?_⟩
    simp

mutual

theorem Tree.regrouped {p : Part} : ∀ (t : Tree p) {us : List Token}, Regroups t.tokens us → t.Regrouped us
  | .joined (j := j) x m, us, h => by
    obtain ⟨us, vs, rfl, first, rest⟩ := h.append
    obtain ⟨x', rfl, hx⟩ := (x.regrouped first).tree j.operand_not_isSignless
    obtain ⟨m', rfl, hm⟩ := m.regrouped rest
    refine .inl ⟨.joined x' m', rfl, ?_, and_congr hx.defined hm.defined, max_le_max hx.depth hm.depth⟩
    rw [Tree.value, hm.value, hx.value, Tree.value]
  | .alone x, us, h => by
    obtain ⟨x', rfl, hx⟩ := (x.regrouped h).tree rfl
    exact .inl ⟨.alone x', rfl, hx.value, hx.defined, hx.depth⟩
  | .compared x o ho y, us, h => by
    obtain ⟨us, vs, rfl, left, right⟩ := Regroups.append_op h
    obtain ⟨x', rfl, hx⟩ := (x.regrouped left).tree rfl
    obtain ⟨y', rfl, hy⟩ := (y.regrouped right).tree rfl
    refine .inl ⟨.compared x' o ho y', rfl, ?_, and_congr hx.defined hy.defined, max_le_max hx.depth hy.depth⟩
    rw [Tree.value, hx.value, hy.value, Tree.value]
  | .negative x, us, h => by
    obtain ⟨us, rfl, operand⟩ := Regroups.cons_op h
    obtain ⟨x', rfl, hx⟩ := (x.regrouped operand).tree rfl
    exact .inl ⟨.negative x', rfl, congrArg (- ·) hx.value, hx.defined, Nat.succ_le_succ hx.depth⟩
  | .negated x, us, h => by
    obtain ⟨us, rfl, operand⟩ := Regroups.cons_op h
    obtain ⟨x', rfl, hx⟩ := (x.regrouped operand).tree rfl
    refine .inl ⟨.negated x', rfl, ?_, hx.defined, Nat.succ_le_succ hx.depth⟩
    rw [Tree.value, hx.value, Tree.value]
  | .unsigned x, us, h => .inl (Tree.regrouped_unsigned (x.regrouped h))
  | .base x, us, h => by
    rcases x.regrouped h with ⟨x', rfl, hx⟩ | ⟨-, hnegative⟩
    · exact .inl ⟨.base x', rfl, hx.value, hx.defined, hx.depth⟩
    · exact .inr ⟨rfl, hnegative⟩
  | .raised (.number v) y, us, h => by
    obtain ⟨x', vs, rfl, hx, exponent⟩ := Tree.regrouped_number_raised h
    obtain ⟨y', rfl, hy⟩ := (y.regrouped exponent).tree rfl
    refine .inl ⟨.raised x' y', rfl, ?_, and_congr hx.defined hy.defined, max_le_max hx.depth hy.depth⟩
    rw [Tree.value, hx.value, hy.value, Tree.value]
  | .raised (.group x) y, us, h => by
    have h' : Regroups (.lparen :: (x.tokens ++ .rparen :: .op .pow :: y.tokens)) us := by
      simpa using h
    obtain ⟨us, vs, rfl, inner, raised⟩ := h'.parentheses
    obtain ⟨vs, rfl, exponent⟩ := raised.cons_op
    obtain ⟨x', rfl, hx⟩ := (x.regrouped inner).tree rfl
    obtain ⟨y', rfl, hy⟩ := (y.regrouped exponent).tree rfl
    refine .inl ⟨.raised (.group x') y', by simp, ?_, and_congr hx.defined hy.defined,
      max_le_max hx.depth hy.depth⟩
    simp only [Tree.value, hx.value, hy.value]
  | .number v, us, h => Tree.regrouped_number h
  | .group x, us, h => by
    obtain ⟨us, vs, rfl, inner, nothing⟩ := Regroups.parentheses h
    cases nothing
    obtain ⟨x', rfl, hx⟩ := (x.regrouped inner).tree rfl
    exact .inl ⟨.group x', rfl, hx.value, hx.defined, hx.depth⟩

theorem More.regrouped {j : Join} : ∀ (m : More j) {us : List Token}, Regroups m.tokens us →
    ∃ m' : More j, m'.tokens = us ∧ m.Like m'
  | .none, us, h => by
    cases h
    exact ⟨.none, rfl, fun _ => rfl, Iff.rfl, le_rfl⟩
  | .next o ho y m, us, h => by
    obtain ⟨us, rfl, next⟩ := Regroups.cons_op h
    obtain ⟨us, vs, rfl, first, rest⟩ := next.append
    obtain ⟨y', rfl, hy⟩ := (y.regrouped first).tree j.operand_not_isSignless
    obtain ⟨m', rfl, hm⟩ := m.regrouped rest
    refine ⟨.next o ho y' m', rfl, fun x => ?_, ?_, max_le_max hy.depth hm.depth⟩
    · rw [More.value, hm.value, hy.value, More.value]
    · simp only [More.Defined, hy.defined, hy.value, hm.defined]

end

/-- Tokens that do not nest too deep, if they are an expression at all. -/
def Shallow (ts : List Token) : Prop := ∀ t : Whole, t.tokens = ts → t.depth ≤ maxNesting

theorem judge_of_regroups {t : Whole} {us : List Token} (h : Regroups t.tokens us) (hdepth : Shallow us) :
    us.IsChain Token.Follows ∧ judge us = judge t.tokens := by
  obtain ⟨t', rfl, hlike⟩ := (t.regrouped h).tree rfl
  have hd' := hdepth t' rfl
  have hd := hlike.depth.trans hd'
  refine ⟨t'.phrase.linked, ?_⟩
  unfold judge
  by_cases ht : t.Defined
  · rw [valueOf_complete t hd ht, valueOf_complete t' hd' (hlike.defined.2 ht), hlike.value]
  · rw [valueOf_refuses t hd ht, valueOf_refuses t' hd' (mt hlike.defined.1 ht)]

theorem shallow_of_valueOf {ts : List Token} {v : Float} (h : valueOf ts = .ok v) : Shallow ts := by
  obtain ⟨t, ht, hd, -⟩ := valueOf_sound h
  rintro t' rfl
  obtain rfl : t = t' := Tree.eq_of_tokens ht
  exact hd

section Slots

variable {σ : List Char → SignedNumber} {gs : List (Nat × Slot)} {f : List Char → Nat → List (Nat × Symbol)}

/-- Symbols that are an operand worth the number `x`. -/
def IsOperand (x : SignedNumber) (hs : List (Nat × Symbol)) : Prop :=
  ∃ t : Tree .primary, t.tokens = tokensOf hs ∧ t.value = x.value ∧ t.Defined

/-- No power is taken of a reference to a number with a minus sign. -/
def Unraised (σ : List Char → SignedNumber) (a b : Nat × Slot) : Prop :=
  ∀ name, a.2 = .reference name → b.2 = .symbol (.op .pow) → (σ name).negative = false

theorem SignedNumber.isOperand_bare {x : SignedNumber} (hx : x.negative = false) (n : Nat) :
    IsOperand x (x.bare n) := by
  refine ⟨.number x.magnitude.value, ?_, ?_, trivial⟩
  · simp [bare, hx, tokensOf, Symbol.token]
  · simp [value, hx]

theorem SignedNumber.tokensOf_bare {x : SignedNumber} (hx : x.negative = true) (n : Nat) :
    tokensOf (x.bare n) = [.op .sub, .number x.magnitude.value] := by
  simp [bare, hx, tokensOf, Symbol.token]

def SignedNumber.tree (x : SignedNumber) : Tree .sign :=
  if x.negative then .negative (.unsigned (.base (.number x.magnitude.value)))
  else .unsigned (.base (.number x.magnitude.value))

theorem SignedNumber.isOperand_enclosed (x : SignedNumber) (n : Nat) : IsOperand x (x.enclosed n) := by
  have htokens : x.tree.tokens = tokensOf (x.bare 0) := by
    unfold tree bare
    split <;> rfl
  have hvalue : x.tree.value = x.value := by
    unfold tree value
    split <;> rfl
  have hdefined : x.tree.Defined := by
    unfold tree
    split <;> trivial
  refine ⟨x.tree.enclosed, ?_, hvalue, x.tree.enclosed_defined.2 hdefined⟩
  rw [x.tree.enclosed_tokens, htokens]
  simp [enclosed, tokensOf, Symbol.token]

theorem Slot.eq_op_of_token {s : Slot} {o : Operator} (h : s.token σ = .op o) : s = .symbol (.op o) := by
  match s with
  | .symbol (.op o') =>
    cases h
    rfl

theorem regroups_filledWith
    (hf : ∀ name n, IsOperand (σ name) (f name n) ∨ (σ name).negative = true ∧
      tokensOf (f name n) = [.op .sub, .number (σ name).magnitude.value])
    (hpow : gs.IsChain fun a b => ∀ name, a.2 = .reference name → b.2 = .symbol (.op .pow) →
      ∀ n, IsOperand (σ name) (f name n)) :
    Regroups (slotTokens σ gs) (tokensOf (filledWith f gs)) := by
  induction gs with
  | nil => exact .nil
  | cons g gs ih =>
    obtain ⟨n, s⟩ := g
    obtain ⟨hnext, hrest⟩ := List.isChain_cons.1 hpow
    have hregroups := ih hrest
    match s with
    | .symbol t => exact .keep t.token hregroups
    | .reference name =>
      have htokens : tokensOf (filledWith f ((n, .reference name) :: gs)) =
          tokensOf (f name n) ++ tokensOf (filledWith f gs) := by simp [filledWith, tokensOf]
      rw [htokens]
      by_cases hoperand : IsOperand (σ name) (f name n)
      · obtain ⟨x, hx, hvalue, hdefined⟩ := hoperand
        rw [← hx, slotTokens, List.map_cons, Slot.token, ← hvalue]
        exact .operand x hdefined hregroups
      · obtain ⟨hsign, hminus⟩ := (hf name n).resolve_left hoperand
        rw [hminus, slotTokens, List.map_cons, Slot.token, SignedNumber.value, if_pos hsign]
        refine .signed _ ?_ hregroups
        rintro r hr
        obtain ⟨b, hs, rfl, hb, -⟩ := List.map_eq_cons_iff.1 hr
        exact hoperand (hnext b rfl name rfl (Slot.eq_op_of_token hb) n)

theorem evaluate_of_regroups {p : Placeholders} {t : Whole} (ht : t.tokens = slotTokens σ gs)
    (hnames : Named gs) (hloose : gs.IsChain Loose) (hf : Fits f) (hp : StandFor p f gs)
    (h : Regroups (slotTokens σ gs) (tokensOf (filledWith f gs))) (hdepth : Shallow (tokensOf (filledWith f gs))) :
    evaluate (String.ofList (slotText gs)) p =
      (judge (slotTokens σ gs)).mapError (.expression (String.ofList (slotText gs))) := by
  rw [← ht] at h
  obtain ⟨hlinked, hjudge⟩ := judge_of_regroups h hdepth
  rw [evaluate_slotText hnames (ht ▸ t.phrase.linked) hloose hf hp hlinked, hjudge, ht]

/-- Placeholders that hold numbers are operands of an expression, with parentheses around the numbers and without,
as long as no power is taken of a number with a minus sign. -/
theorem placeholders_are_operands {p p' : Placeholders} (haccepted : ∃ t : Whole, t.tokens = slotTokens σ gs)
    (hnames : Named gs) (hloose : gs.IsChain Loose) (hpow : gs.IsChain (Unraised σ))
    (hp : StandFor p (fun name => (σ name).bare) gs) (hp' : StandFor p' (fun name => (σ name).enclosed) gs)
    (hdepth : Shallow (tokensOf (filledWith (fun name => (σ name).bare) gs)))
    (hdepth' : Shallow (tokensOf (filledWith (fun name => (σ name).enclosed) gs))) :
    evaluate (String.ofList (slotText gs)) p = evaluate (String.ofList (slotText gs)) p' ∧
      evaluate (String.ofList (slotText gs)) p =
        (judge (slotTokens σ gs)).mapError (.expression (String.ofList (slotText gs))) := by
  obtain ⟨t, ht⟩ := haccepted
  have hbare : Regroups (slotTokens σ gs) (tokensOf (filledWith (fun name => (σ name).bare) gs)) := by
    apply regroups_filledWith
    · intro name n
      cases hsign : (σ name).negative with
      | false => exact .inl (SignedNumber.isOperand_bare hsign n)
      | true => exact .inr ⟨rfl, SignedNumber.tokensOf_bare hsign n⟩
    · exact hpow.imp fun a b hab name ha hb n => SignedNumber.isOperand_bare (hab name ha hb) n
  have henclosed : Regroups (slotTokens σ gs) (tokensOf (filledWith (fun name => (σ name).enclosed) gs)) := by
    apply regroups_filledWith
    · exact fun name n => .inl ((σ name).isOperand_enclosed n)
    · exact hloose.imp fun a b _ name _ _ n => (σ name).isOperand_enclosed n
  have hvalue := evaluate_of_regroups ht hnames hloose (fits_bare σ) hp hbare hdepth
  have hvalue' := evaluate_of_regroups ht hnames hloose (fits_enclosed σ) hp' henclosed hdepth'
  exact ⟨hvalue.trans hvalue'.symm, hvalue⟩

end Slots

section

/-- A placeholder less the square of another one. -/
def lessSquare : List (Nat × Slot) :=
  [(0, .reference ['a']), (1, .symbol (.op .sub)), (1, .reference ['b']), (1, .symbol (.op .pow)),
    (1, .symbol (.literal two))]

/-- Three, with a minus sign for one name. -/
def threes (name : List Char) : SignedNumber := ⟨name = ['a'], three⟩

theorem placeholders_are_operands_lessSquare :
    evaluate "%a% - %b% ^ 2" (.ofPairs [("a", "-3"), ("b", "3")]) =
        evaluate "%a% - %b% ^ 2" (.ofPairs [("a", "(-3)"), ("b", "(3)")]) ∧
      evaluate "%a% - %b% ^ 2" (.ofPairs [("a", "-3"), ("b", "3")]) = .ok (-12.0) := by
  have htext : String.ofList (slotText lessSquare) = "%a% - %b% ^ 2" := by decide
  have haccepted : ∃ t : Whole, t.tokens = slotTokens threes lessSquare := by
    have hread : valueOf (slotTokens threes lessSquare) = .ok _ := rfl
    obtain ⟨t, ht, -⟩ := valueOf_sound hread
    exact ⟨t, ht⟩
  have hunraised : lessSquare.IsChain (Unraised threes) := by simp [lessSquare, Unraised, threes]
  have hbare : StandFor (.ofPairs [("a", "-3"), ("b", "3")]) (fun name => (threes name).bare) lessSquare := by
    decide
  have henclosed : StandFor (.ofPairs [("a", "(-3)"), ("b", "(3)")]) (fun name => (threes name).enclosed)
      lessSquare := by decide
  have hvalue := placeholders_are_operands haccepted (by decide) (by decide) hunraised hbare henclosed
    (shallow_of_valueOf rfl) (shallow_of_valueOf rfl)
  rw [htext] at hvalue
  exact ⟨hvalue.1, hvalue.2.trans rfl⟩

def square : List (Nat × Slot) :=
  [(0, .reference ['a']), (1, .symbol (.op .pow)), (1, .symbol (.literal two))]

/-- Of a bare number with a minus sign the power is taken before the sign. -/
theorem minus_sign_left_of_power :
    evaluate "%a% ^ 2" (.ofPairs [("a", "-3")]) = .ok (-9.0) ∧
      evaluate "%a% ^ 2" (.ofPairs [("a", "(-3)")]) = .ok 9.0 ∧ ((-9.0 : Float) == 9.0) = false := by
  have htext : String.ofList (slotText square) = "%a% ^ 2" := by decide
  have hvalue : ∀ {p f}, Fits f → StandFor p f square → (tokensOf (filledWith f square)).IsChain Token.Follows →
      evaluate "%a% ^ 2" p = (judge (tokensOf (filledWith f square))).mapError (.expression "%a% ^ 2") := by
    intro p f hf hp hlinked
    rw [← htext]
    exact evaluate_slotText (σ := threes) (by decide) (by decide) (by decide) hf hp hlinked
  have hbare := hvalue (p := .ofPairs [("a", "-3")]) (fits_bare threes) (by decide) (by decide)
  have henclosed := hvalue (p := .ofPairs [("a", "(-3)")]) (fits_enclosed threes) (by decide) (by decide)
  exact ⟨hbare.trans rfl, henclosed.trans rfl, rfl⟩

end

end Ability.Expression
