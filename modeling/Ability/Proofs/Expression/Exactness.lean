import Ability.Proofs.Expression.Reading

/-! An expression has a value just when it has a tree, which is then its only one. -/

namespace Ability.Expression

theorem Tree.power_ne_op (t : Tree .power) (o : Operator) (r s : List Token) :
    t.tokens ++ r ≠ .op o :: s :=
  match t with
  | .base (.number _) | .base (.group _) | .raised (.number _) _ | .raised (.group _) _ => nofun

mutual

/-- Tokens that go on behind a part leave no choice in where it ends and how it is made. -/
theorem Tree.eq_of_tokens_append {p : Part} : ∀ (t t' : Tree p) {r r' : List Token},
    p.Stops r → p.Stops r' → t.tokens ++ r = t'.tokens ++ r' → t = t' ∧ r = r'
  | .joined x m, .joined x' m', r, r', hr, hr', h => by
    simp only [Tree.tokens, List.append_assoc] at h
    -- the first operands end before the same token, and what follows them starts there
    obtain ⟨rfl, tail⟩ := Tree.eq_of_tokens_append x x' (m.stops hr) (m'.stops hr') h
    obtain ⟨rfl, rfl⟩ := More.eq_of_tokens_append m m' hr hr' tail
    exact ⟨rfl, rfl⟩
  | .alone x, .alone x', r, r', hr, hr', h => by
    obtain ⟨rfl, rfl⟩ :=
      Tree.eq_of_tokens_append x x' (hr.of_le (by decide)) (hr'.of_le (by decide)) h
    exact ⟨rfl, rfl⟩
  | .alone x, .compared x' o ho y, r, r', hr, hr', h => by
    simp only [Tree.tokens, List.append_assoc] at h
    obtain ⟨rfl, rfl⟩ :=
      Tree.eq_of_tokens_append x x' (hr.of_le (by decide)) (Part.Stops.op_comparison ho) h
    exact absurd ho hr.not_isComparison
  | .compared x o ho y, .alone x', r, r', hr, hr', h => by
    simp only [Tree.tokens, List.append_assoc] at h
    obtain ⟨rfl, rfl⟩ :=
      Tree.eq_of_tokens_append x x' (Part.Stops.op_comparison ho) (hr'.of_le (by decide)) h
    exact absurd ho hr'.not_isComparison
  | .compared x o ho y, .compared x' o' ho' y', r, r', hr, hr', h => by
    simp only [Tree.tokens, List.append_assoc] at h
    obtain ⟨rfl, tail⟩ :=
      Tree.eq_of_tokens_append x x' (Part.Stops.op_comparison ho) (Part.Stops.op_comparison ho') h
    obtain ⟨⟨rfl⟩, right⟩ := List.cons_eq_cons.1 tail
    obtain ⟨rfl, rfl⟩ :=
      Tree.eq_of_tokens_append y y' (hr.of_le (by decide)) (hr'.of_le (by decide)) right
    exact ⟨rfl, rfl⟩
  | .negative x, .negative x', r, r', hr, hr', h => by
    obtain ⟨-, inner⟩ := List.cons_eq_cons.1 h
    obtain ⟨rfl, rfl⟩ := Tree.eq_of_tokens_append x x' hr hr' inner
    exact ⟨rfl, rfl⟩
  | .negated x, .negated x', r, r', hr, hr', h => by
    obtain ⟨-, inner⟩ := List.cons_eq_cons.1 h
    obtain ⟨rfl, rfl⟩ := Tree.eq_of_tokens_append x x' hr hr' inner
    exact ⟨rfl, rfl⟩
  | .unsigned x, .unsigned x', r, r', hr, hr', h => by
    obtain ⟨rfl, rfl⟩ := Tree.eq_of_tokens_append x x' hr hr' h
    exact ⟨rfl, rfl⟩
  | .negative _, .negated _, _, _, _, _, h => by cases h
  | .negated _, .negative _, _, _, _, _, h => by cases h
  -- a power begins with a number or a parenthesis, never with a sign
  | .negative _, .unsigned x, _, _, _, _, h => absurd h.symm (x.power_ne_op _ _ _)
  | .negated _, .unsigned x, _, _, _, _, h => absurd h.symm (x.power_ne_op _ _ _)
  | .unsigned x, .negative _, _, _, _, _, h => absurd h (x.power_ne_op _ _ _)
  | .unsigned x, .negated _, _, _, _, _, h => absurd h (x.power_ne_op _ _ _)
  | .base x, .base x', r, r', hr, hr', h => by
    obtain ⟨rfl, rfl⟩ :=
      Tree.eq_of_tokens_append x x' (hr.of_le (by decide)) (hr'.of_le (by decide)) h
    exact ⟨rfl, rfl⟩
  | .base x, .raised x' y, r, r', hr, hr', h => by
    simp only [Tree.tokens, List.append_assoc] at h
    obtain ⟨rfl, rfl⟩ :=
      Tree.eq_of_tokens_append x x' (hr.of_le (by decide)) (Part.Stops.op.2 (by decide)) h
    exact absurd (Part.Stops.op.1 hr) (by decide)
  | .raised x y, .base x', r, r', hr, hr', h => by
    simp only [Tree.tokens, List.append_assoc] at h
    obtain ⟨rfl, rfl⟩ :=
      Tree.eq_of_tokens_append x x' (Part.Stops.op.2 (by decide)) (hr'.of_le (by decide)) h
    exact absurd (Part.Stops.op.1 hr') (by decide)
  | .raised x y, .raised x' y', r, r', hr, hr', h => by
    simp only [Tree.tokens, List.append_assoc] at h
    obtain ⟨rfl, tail⟩ :=
      Tree.eq_of_tokens_append x x' (Part.Stops.op.2 (by decide)) (Part.Stops.op.2 (by decide)) h
    obtain ⟨-, exponent⟩ := List.cons_eq_cons.1 tail
    obtain ⟨rfl, rfl⟩ := Tree.eq_of_tokens_append y y' hr hr' exponent
    exact ⟨rfl, rfl⟩
  | .number v, .number v', r, r', _, _, h => by
    cases h
    exact ⟨rfl, rfl⟩
  | .group x, .group x', r, r', _, _, h => by
    simp only [Tree.tokens, List.append_assoc, List.cons_append] at h
    obtain ⟨-, inner⟩ := List.cons_eq_cons.1 h
    obtain ⟨rfl, tail⟩ := Tree.eq_of_tokens_append x x' .rparen .rparen inner
    obtain ⟨-, rfl⟩ := List.cons_eq_cons.1 tail
    exact ⟨rfl, rfl⟩
  | .number _, .group _, _, _, _, _, h => by cases h
  | .group _, .number _, _, _, _, _, h => by cases h

theorem More.eq_of_tokens_append {j : Join} : ∀ (m m' : More j) {r r' : List Token},
    (Part.join j).Stops r → (Part.join j).Stops r' → m.tokens ++ r = m'.tokens ++ r' → m = m' ∧ r = r'
  | .none, .none, _, _, _, _, h => ⟨rfl, h⟩
  | .none, .next o ho y m, r, r', hr, hr', h => by
    obtain rfl : r = .op o :: (y.tokens ++ m.tokens) ++ r' := h
    exact absurd ho hr.not_has
  | .next o ho y m, .none, r, r', hr, hr', h => by
    obtain rfl : .op o :: (y.tokens ++ m.tokens) ++ r = r' := h
    exact absurd ho hr'.not_has
  | .next o ho y m, .next o' ho' y' m', r, r', hr, hr', h => by
    simp only [More.tokens, List.append_assoc, List.cons_append] at h
    obtain ⟨⟨rfl⟩, right⟩ := List.cons_eq_cons.1 h
    obtain ⟨rfl, tail⟩ := Tree.eq_of_tokens_append y y' (m.stops hr) (m'.stops hr') right
    obtain ⟨rfl, rfl⟩ := More.eq_of_tokens_append m m' hr hr' tail
    exact ⟨rfl, rfl⟩

end

abbrev Whole : Type := Tree (.join .or)

/-- A signed operand in parentheses. -/
def Tree.enclosed (x : Tree .sign) : Tree .primary :=
  .group (.joined (.joined (.alone (.joined (.joined x .none) .none)) .none) .none)

theorem Tree.enclosed_tokens (x : Tree .sign) : x.enclosed.tokens = .lparen :: (x.tokens ++ [.rparen]) := by
  show .lparen :: (x.tokens ++ [] ++ [] ++ [] ++ [] ++ [.rparen]) = _
  simp only [List.append_nil]

theorem Tree.enclosed_defined (x : Tree .sign) : x.enclosed.Defined ↔ x.Defined := by
  show (((x.Defined ∧ True) ∧ True) ∧ True) ∧ True ↔ _
  simp only [and_true]

theorem disjunction_nil : disjunction (unary maxNesting) [] = .error .unfinished := rfl

theorem valueOf_sound {ts : List Token} {v : Float} (h : valueOf ts = .ok v) :
    ∃ t : Whole, t.tokens = ts ∧ t.depth ≤ maxNesting ∧ t.Defined ∧ t.value = v := by
  unfold valueOf at h
  split at h
  · cases h
  · obtain ⟨⟨x, r⟩, hx, h⟩ := bind_eq_ok.1 h
    obtain ⟨t, rfl, hd, ht, rfl⟩ := disjunction_sound (unary_sound maxNesting) _ _ _ hx
    dsimp only at h
    split at h
    · cases h
      exact ⟨t, by simp, hd, ht, rfl⟩
    · cases h

theorem valueOf_complete (t : Whole) (hd : t.depth ≤ maxNesting) (ht : t.Defined) :
    valueOf t.tokens = .ok t.value := by
  have read := disjunction_complete (unary_complete maxNesting) t hd ht [] .nil
  rw [List.append_nil] at read
  unfold valueOf
  split
  · rename_i hempty
    -- an expression is not empty, for nothing is read off no tokens at all
    rw [List.isEmpty_iff.1 hempty, disjunction_nil] at read
    cases read
  · rw [read]
    rfl

theorem Tree.eq_of_tokens {p : Part} {t t' : Tree p} (h : t.tokens = t'.tokens) : t = t' := by
  have h' : t.tokens ++ [] = t'.tokens ++ [] := by rw [h]
  exact (t.eq_of_tokens_append t' .nil .nil h').1

/-- The value of a token list is that of the one tree it can be read as. There is none when there is no
such tree, when signed positions nest too deep in it, or when it divides by zero anywhere. -/
theorem valueOf_exact (ts : List Token) :
    (∀ v, valueOf ts = .ok v ↔
      ∃ t : Whole, t.tokens = ts ∧ t.depth ≤ maxNesting ∧ t.Defined ∧ t.value = v) ∧
    (∀ t t' : Whole, t.tokens = ts → t'.tokens = ts → t = t') ∧
    ((∃ f, valueOf ts = .error f) ↔
      ¬ ∃ t : Whole, t.tokens = ts ∧ t.depth ≤ maxNesting ∧ t.Defined) := by
  refine ⟨fun v => ⟨valueOf_sound, ?_⟩, ?_, ?_⟩
  · rintro ⟨t, rfl, hd, ht, rfl⟩
    exact valueOf_complete t hd ht
  · rintro t t' rfl ht'
    exact Tree.eq_of_tokens ht'.symm
  constructor
  · rintro ⟨f, hf⟩ ⟨t, rfl, hd, ht⟩
    rw [valueOf_complete t hd ht] at hf
    cases hf
  · intro none
    cases h : valueOf ts with
    | error f => exact ⟨f, rfl⟩
    | ok v =>
      obtain ⟨t, rfl, hd, ht, -⟩ := valueOf_sound h
      exact absurd ⟨t, rfl, hd, ht⟩ none

example (x y : Float) :
    valueOf [.op .sub, .number x, .op .pow, .op .sub, .number y] = .ok (-Binary64.power x (-y)) := rfl

end Ability.Expression
