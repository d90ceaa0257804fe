import Ability.Proofs.Expression.Exactness

/-! What is wrong with an expression that divides by zero and does not nest too deep: the first division by zero,
and nothing else. -/

namespace Ability.Expression

/-- A tree of the part, not deeper than `d`, that divides by zero somewhere is refused for it. -/
def Refuses (p : Part) (d : Nat) (read : Parser) : Prop :=
  ∀ t : Tree p, t.depth ≤ d → ¬ t.Defined → ∀ r, p.Stops r →
    read (t.tokens ++ r) = .error .divisionByZero

variable {d : Nat} {j : Join} {read : Parser}

theorem Operator.apply_of_not_takes {o : Operator} {x y : Float} (h : ¬ o.Takes y) :
    o.apply x y = .error .divisionByZero := by
  simp only [Operator.Takes, Classical.not_imp] at h
  obtain ⟨rfl | rfl, hy⟩ := h <;> simp [Operator.apply, hy]

theorem joinMore_refuses (hc : Complete j.operand d read) (hr : Refuses j.operand d read) :
    ∀ more : More j, more.depth ≤ d → ¬ more.Defined → ∀ r, (Part.join j).Stops r →
      ∀ n x, more.tokens.length ≤ n →
        joinMore j.has read n x (more.tokens ++ r) = .error .divisionByZero
  | .none, _, hm, _, _, _, _, _ => absurd trivial hm
  | .next o ho y more, hd, hm, r, hstops, n, x, hn => by
    obtain ⟨hyd, hmd⟩ := Nat.max_le.1 hd
    cases n with
    | zero => cases hn
    | succ n =>
      have hlen : more.tokens.length ≤ n := by
        simp only [More.tokens, List.length_cons, List.length_append] at hn
        omega
      simp only [More.tokens, List.cons_append, List.append_assoc]
      rw [joinMore, if_pos ho]
      by_cases hy : y.Defined
      · rw [hc y hyd hy (more.tokens ++ r) (more.stops hstops)]
        show (o.apply x y.value >>= fun z => joinMore j.has read n z (more.tokens ++ r)) = _
        by_cases hto : o.Takes y.value
        · rw [Operator.apply_of_takes hto]
          exact joinMore_refuses hc hr more hmd (fun h => hm ⟨hy, hto, h⟩) r hstops n _ hlen
        · rw [Operator.apply_of_not_takes hto]
          rfl
      · rw [hr y hyd hy (more.tokens ++ r) (more.stops hstops)]
        rfl

theorem join_refuses (hc : Complete j.operand d read) (hr : Refuses j.operand d read) :
    Refuses (.join j) d (join j.has read)
  | .joined t more, hd, h, r, hstops => by
    obtain ⟨htd, hmd⟩ := Nat.max_le.1 hd
    simp only [join, Tree.tokens, List.append_assoc]
    by_cases ht : t.Defined
    · rw [hc t htd ht (more.tokens ++ r) (more.stops hstops)]
      exact joinMore_refuses hc hr more hmd (fun hm => h ⟨ht, hm⟩) r hstops _ _ (by simp)
    · rw [hr t htd ht (more.tokens ++ r) (more.stops hstops)]
      rfl

theorem comparison_refuses (hc : Complete (.join .sum) d read) (hr : Refuses (.join .sum) d read) :
    Refuses .comparison d (comparison read)
  | .alone t, hd, h, r, hstops => by
    simp only [comparison, Tree.tokens]
    rw [hr t hd h r (hstops.of_le (by decide))]
    rfl
  | .compared t o ho u, hd, h, r, hstops => by
    obtain ⟨htd, hud⟩ := Nat.max_le.1 hd
    simp only [comparison, Tree.tokens, List.append_assoc, List.cons_append]
    by_cases ht : t.Defined
    · have hu : ¬ u.Defined := fun hu => h ⟨ht, hu⟩
      rw [hc t htd ht (.op o :: (u.tokens ++ r)) (.op_comparison ho), ok_bind]
      dsimp only
      rw [if_pos ho, hr u hud hu r (hstops.of_le (by decide))]
      rfl
    · rw [hr t htd ht (.op o :: (u.tokens ++ r)) (.op_comparison ho)]
      rfl

theorem disjunction_refuses (hc : Complete .sign d read) (hr : Refuses .sign d read) :
    Refuses (.join .or) d (disjunction read) := by
  have product : Complete (.join .product) d _ := join_complete hc
  have productRefuses : Refuses (.join .product) d _ := join_refuses hc hr
  have sum : Complete (.join .sum) d _ := join_complete product
  have sumRefuses : Refuses (.join .sum) d _ := join_refuses product productRefuses
  have compared := comparison_complete sum
  have comparedRefuses := comparison_refuses sum sumRefuses
  have conjunction : Complete (.join .and) d _ := join_complete compared
  have conjunctionRefuses : Refuses (.join .and) d _ := join_refuses compared comparedRefuses
  exact join_refuses conjunction conjunctionRefuses

theorem primary_refuses (hc : Complete .sign d read) (hr : Refuses .sign d read) :
    Refuses .primary d (primary read)
  | .number v, _, h, _, _ => absurd trivial h
  | .group t, hd, h, r, _ => by
    have inner := disjunction_refuses hc hr t hd h (.rparen :: r) .rparen
    simp only [Tree.tokens, List.cons_append, List.append_assoc, List.nil_append, primary, inner]
    rfl

theorem power_refuses (hc : Complete .sign d read) (hr : Refuses .sign d read) :
    Refuses .power d (power read)
  | .base t, hd, h, r, hstops => by
    have first := primary_refuses hc hr t hd h r (hstops.of_le (by decide))
    simp only [power, Tree.tokens, first]
    rfl
  | .raised t u, hd, h, r, hstops => by
    obtain ⟨htd, hud⟩ := Nat.max_le.1 hd
    have hpow : Part.primary.Stops (.op .pow :: (u.tokens ++ r)) := Part.Stops.op.2 (by decide)
    simp only [power, Tree.tokens, List.append_assoc, List.cons_append]
    by_cases ht : t.Defined
    · have hu : ¬ u.Defined := fun hu => h ⟨ht, hu⟩
      rw [primary_complete hc t htd ht _ hpow]
      show (read (u.tokens ++ r) >>= fun z => .ok (Binary64.power t.value z.1, z.2)) = _
      rw [hr u hud hu r hstops]
      rfl
    · rw [primary_refuses hc hr t htd ht _ hpow]
      rfl

theorem unary_refuses (b : Nat) : Refuses .sign b (unary b) := by
  induction b with
  | zero =>
    intro t hd
    cases t <;> cases hd
  | succ b ih =>
    intro t hd h r hstops
    cases t with
    | negative t =>
      have inner := ih t (Nat.le_of_succ_le_succ hd) h r hstops
      simp only [Tree.tokens, List.cons_append, unary, inner]
      rfl
    | negated t =>
      have inner := ih t (Nat.le_of_succ_le_succ hd) h r hstops
      simp only [Tree.tokens, List.cons_append, unary, inner]
      rfl
    | unsigned t =>
      have inner := power_refuses (unary_complete b) ih t (Nat.le_of_succ_le_succ hd) h r hstops
      exact (unary_of_unsigned b t r).trans inner

theorem valueOf_refuses (t : Whole) (hd : t.depth ≤ maxNesting) (h : ¬ t.Defined) :
    valueOf t.tokens = .error .divisionByZero := by
  have read := disjunction_refuses (unary_complete maxNesting) (unary_refuses maxNesting) t hd h [] .nil
  rw [List.append_nil] at read
  unfold valueOf
  split
  · next hempty =>
    rw [List.isEmpty_iff.1 hempty, disjunction_nil] at read
    cases read
  · rw [read]
    rfl

end Ability.Expression
