import Ability.Proofs.Expression.Grammar

/-! Reading against the grammar, one level after the other: a parser that is sound and complete for the
operands of a level makes one for the level. Only signs nest, so the depth enters at the signs alone. -/

namespace Ability.Expression

theorem bind_eq_ok {ε α β : Type} {x : Except ε α} {f : α → Except ε β} {b : β} :
    x >>= f = .ok b ↔ ∃ a, x = .ok a ∧ f a = .ok b := by
  cases x <;> simp [bind, Except.bind]

theorem ok_bind {ε α β : Type} (a : α) (f : α → Except ε β) : Except.ok a >>= f = f a := rfl

/-- What is read is written by a tree of the part, not deeper than `d`, and has its value. -/
def Sound (p : Part) (d : Nat) (read : Parser) : Prop :=
  ∀ ts v r, read ts = .ok (v, r) →
    ∃ t : Tree p, t.tokens ++ r = ts ∧ t.depth ≤ d ∧ t.Defined ∧ t.value = v

/-- Every tree of the part, not deeper than `d`, is read off the front of what it is written in. -/
def Complete (p : Part) (d : Nat) (read : Parser) : Prop :=
  ∀ t : Tree p, t.depth ≤ d → t.Defined → ∀ r, p.Stops r → read (t.tokens ++ r) = .ok (t.value, r)

variable {d : Nat} {j : Join} {read : Parser}

theorem joinMore_sound (hs : Sound j.operand d read) {n : Nat} {x v : Float} {ts r : List Token}
    (h : joinMore j.has read n x ts = .ok (v, r)) :
    ∃ more : More j, more.tokens ++ r = ts ∧ more.depth ≤ d ∧ more.Defined ∧ more.value x = v := by
  -- whenever the loop stops, for want of fuel or of an operator, it has read the empty rest
  induction n generalizing x ts with
  | zero =>
    cases h
    exact ⟨.none, rfl, Nat.zero_le d, trivial, rfl⟩
  | succ n ih =>
    rw [joinMore.eq_def] at h
    split at h
    · contradiction
    rename_i hn
    cases hn
    split at h
    · rename_i o r'
      split at h
      · rename_i ho
        obtain ⟨⟨y, r''⟩, hy, h⟩ := bind_eq_ok.1 h
        obtain ⟨z, hz, h⟩ := bind_eq_ok.1 h
        obtain ⟨t, rfl, hd, ht, rfl⟩ := hs _ _ _ hy
        obtain ⟨hto, rfl⟩ := Operator.apply_eq_ok.1 hz
        obtain ⟨more, rfl, hmd, hm, rfl⟩ := ih h
        exact ⟨.next o ho t more, by simp, Nat.max_le.2 ⟨hd, hmd⟩, ⟨ht, hto, hm⟩, rfl⟩
      · cases h
        exact ⟨.none, rfl, Nat.zero_le d, trivial, rfl⟩
    · cases h
      exact ⟨.none, rfl, Nat.zero_le d, trivial, rfl⟩

theorem join_sound (hs : Sound j.operand d read) : Sound (.join j) d (join j.has read) := by
  intro ts v r h
  obtain ⟨⟨x, r'⟩, hx, h⟩ := bind_eq_ok.1 h
  obtain ⟨t, rfl, hd, ht, rfl⟩ := hs _ _ _ hx
  obtain ⟨more, rfl, hmd, hm, rfl⟩ := joinMore_sound hs h
  exact ⟨.joined t more, by simp, Nat.max_le.2 ⟨hd, hmd⟩, ⟨ht, hm⟩, rfl⟩

theorem comparison_sound (hs : Sound (.join .sum) d read) : Sound .comparison d (comparison read) := by
  intro ts v r h
  obtain ⟨⟨x, r'⟩, hx, h⟩ := bind_eq_ok.1 h
  obtain ⟨t, rfl, hd, ht, rfl⟩ := hs _ _ _ hx
  dsimp only at h
  split at h
  · rename_i o r'' _
    split at h
    · rename_i ho
      obtain ⟨⟨y, r'''⟩, hy, h⟩ := bind_eq_ok.1 h
      obtain ⟨z, hz, h⟩ := bind_eq_ok.1 h
      obtain ⟨u, rfl, hud, hu, rfl⟩ := hs _ _ _ hy
      obtain ⟨-, rfl⟩ := Operator.apply_eq_ok.1 hz
      cases h
      exact ⟨.compared t o ho u, by simp, Nat.max_le.2 ⟨hd, hud⟩, ⟨ht, hu⟩, rfl⟩
    · cases h
      exact ⟨.alone t, rfl, hd, ht, rfl⟩
  · cases h
    exact ⟨.alone t, rfl, hd, ht, rfl⟩

theorem disjunction_sound (hs : Sound .sign d read) : Sound (.join .or) d (disjunction read) := by
  have product : Sound (.join .product) d _ := join_sound hs
  have sum : Sound (.join .sum) d _ := join_sound product
  have conjunction : Sound (.join .and) d _ := join_sound (comparison_sound sum)
  exact join_sound conjunction

theorem primary_sound (hs : Sound .sign d read) : Sound .primary d (primary read) := by
  intro ts v r h
  unfold primary at h
  split at h
  · cases h
    exact ⟨.number v, rfl, Nat.zero_le d, trivial, rfl⟩
  · obtain ⟨⟨x, r'⟩, hx, h⟩ := bind_eq_ok.1 h
    obtain ⟨t, rfl, hd, ht, rfl⟩ := disjunction_sound hs _ _ _ hx
    dsimp only at h
    split at h
    · cases h
      exact ⟨.group t, by simp, hd, ht, rfl⟩
    · cases h
  · cases h
  · cases h

theorem power_sound (hs : Sound .sign d read) : Sound .power d (power read) := by
  intro ts v r h
  obtain ⟨⟨x, r'⟩, hx, h⟩ := bind_eq_ok.1 h
  obtain ⟨t, rfl, hd, ht, rfl⟩ := primary_sound hs _ _ _ hx
  dsimp only at h
  split at h
  · obtain ⟨⟨y, r''⟩, hy, h⟩ := bind_eq_ok.1 h
    obtain ⟨u, rfl, hud, hu, rfl⟩ := hs _ _ _ hy
    cases h
    exact ⟨.raised t u, by simp, Nat.max_le.2 ⟨hd, hud⟩, ⟨ht, hu⟩, rfl⟩
  · cases h
    exact ⟨.base t, rfl, hd, ht, rfl⟩

theorem unary_sound (b : Nat) : Sound .sign b (unary b) := by
  induction b with
  | zero =>
    intro ts v r h
    cases h
  | succ b ih =>
    intro ts v r h
    rw [unary.eq_def] at h
    split at h
    · contradiction
    · rename_i b' ts' hb
      cases hb
      obtain ⟨⟨x, r'⟩, hx, h⟩ := bind_eq_ok.1 h
      obtain ⟨t, rfl, hd, ht, rfl⟩ := ih _ _ _ hx
      cases h
      exact ⟨.negative t, rfl, Nat.succ_le_succ hd, ht, rfl⟩
    · rename_i b' ts' hb
      cases hb
      obtain ⟨⟨x, r'⟩, hx, h⟩ := bind_eq_ok.1 h
      obtain ⟨t, rfl, hd, ht, rfl⟩ := ih _ _ _ hx
      cases h
      exact ⟨.negated t, rfl, Nat.succ_le_succ hd, ht, rfl⟩
    · rename_i hb _ _
      cases hb
      obtain ⟨t, rfl, hd, ht, rfl⟩ := power_sound ih _ _ _ h
      exact ⟨.unsigned t, rfl, Nat.succ_le_succ hd, ht, rfl⟩

/-- An operand is over where another one is joined to it, and where its level is over. -/
theorem More.stops (more : More j) {r : List Token} (hr : (Part.join j).Stops r) :
    j.operand.Stops (more.tokens ++ r) := by
  have hj := Part.looseness_join j
  cases more with
  | none => exact hr.of_le (by omega)
  | next o h y more =>
    have ho := Join.has_iff.1 h
    exact Part.Stops.op.2 (by omega)

theorem joinMore_of_stops {n : Nat} {x : Float} {r : List Token} (hr : (Part.join j).Stops r) :
    joinMore j.has read n x r = .ok (x, r) := by
  cases n with
  | zero => rfl
  | succ n =>
    rw [joinMore.eq_def]
    split
    · contradiction
    rename_i hn
    cases hn
    split
    · rw [if_neg hr.not_has]
    · rfl

theorem joinMore_complete (hc : Complete j.operand d read) :
    ∀ more : More j, more.depth ≤ d → more.Defined → ∀ r, (Part.join j).Stops r →
      ∀ n x, more.tokens.length ≤ n → joinMore j.has read n x (more.tokens ++ r) = .ok (more.value x, r)
  | .none, _, _, r, hr, n, x, _ => joinMore_of_stops hr
  | .next o ho y more, hd, hm, r, hr, n, x, hn => by
    obtain ⟨hyd, hmd⟩ := Nat.max_le.1 hd
    obtain ⟨hy, hto, hm⟩ := hm
    cases n with
    | zero => cases hn
    | succ n =>
      have hlen : more.tokens.length ≤ n := by
        simp only [More.tokens, List.length_cons, List.length_append] at hn
        omega
      have first := hc y hyd hy (more.tokens ++ r) (more.stops hr)
      have rest := joinMore_complete hc more hmd hm r hr n (o.value x y.value) hlen
      simp only [More.tokens, More.value, List.cons_append, List.append_assoc]
      rw [joinMore, if_pos ho, first]
      show (o.apply x y.value >>= fun z => joinMore j.has read n z (more.tokens ++ r)) = _
      rw [Operator.apply_of_takes hto]
      exact rest

theorem join_complete (hc : Complete j.operand d read) : Complete (.join j) d (join j.has read)
  | .joined t more, hd, ht, r, hr => by
    obtain ⟨htd, hmd⟩ := Nat.max_le.1 hd
    obtain ⟨ht, hm⟩ := ht
    have first := hc t htd ht (more.tokens ++ r) (more.stops hr)
    have rest := joinMore_complete hc more hmd hm r hr (more.tokens ++ r).length t.value (by simp)
    simp only [join, Tree.tokens, Tree.value, List.append_assoc, first]
    exact rest

theorem comparison_complete (hc : Complete (.join .sum) d read) :
    Complete .comparison d (comparison read)
  | .alone t, hd, ht, r, hr => by
    have first := hc t hd ht r (hr.of_le (by decide))
    -- the tokens that follow do not begin with a comparison, so no second operand is looked for
    simp only [comparison, Tree.tokens, Tree.value, first, ok_bind]
    split
    · rw [if_neg hr.not_isComparison]
      rfl
    · rfl
  | .compared t o ho u, hd, h, r, hr => by
    obtain ⟨htd, hud⟩ := Nat.max_le.1 hd
    obtain ⟨ht, hu⟩ := h
    have first := hc t htd ht (.op o :: (u.tokens ++ r)) (.op_comparison ho)
    have second := hc u hud hu r (hr.of_le (by decide))
    simp only [comparison, Tree.tokens, Tree.value, List.append_assoc, List.cons_append, first]
    show (if o.isComparison then _ else _) = _
    rw [if_pos ho, second]
    show (o.apply t.value u.value >>= fun z => .ok (z, r)) = _
    rw [Operator.apply_of_takes (Operator.takes_of_isComparison ho _)]
    rfl

theorem disjunction_complete (hc : Complete .sign d read) :
    Complete (.join .or) d (disjunction read) := by
  have product : Complete (.join .product) d _ := join_complete hc
  have sum : Complete (.join .sum) d _ := join_complete product
  have conjunction : Complete (.join .and) d _ := join_complete (comparison_complete sum)
  exact join_complete conjunction

theorem primary_complete (hc : Complete .sign d read) : Complete .primary d (primary read)
  | .number v, _, _, r, _ => rfl
  | .group t, hd, ht, r, _ => by
    have inner := disjunction_complete hc t hd ht (.rparen :: r) .rparen
    simp only [Tree.tokens, List.cons_append, List.append_assoc, List.nil_append, primary, inner]
    rfl

theorem power_complete (hc : Complete .sign d read) : Complete .power d (power read)
  | .base t, hd, ht, r, hr => by
    have first := primary_complete hc t hd ht r (hr.of_le (by decide))
    simp only [power, Tree.tokens, Tree.value, first, ok_bind]
    split
    · exact absurd (Part.Stops.op.1 hr) (by decide)
    · rfl
  | .raised t u, hd, h, r, hr => by
    obtain ⟨htd, hud⟩ := Nat.max_le.1 hd
    obtain ⟨ht, hu⟩ := h
    have first := primary_complete hc t htd ht (.op .pow :: (u.tokens ++ r)) (Part.Stops.op.2 (by decide))
    have second := hc u hud hu r hr
    simp only [power, Tree.tokens, Tree.value, List.append_assoc, List.cons_append, first]
    show (read (u.tokens ++ r) >>= fun z => .ok (Binary64.power t.value z.1, z.2)) = _
    rw [second]
    rfl

theorem unary_of_unsigned (b : Nat) (t : Tree .power) (r : List Token) :
    unary (b + 1) (t.tokens ++ r) = power (unary b) (t.tokens ++ r) := by
  match t with
  | .base (.number _) | .base (.group _) | .raised (.number _) _ | .raised (.group _) _ => rfl

theorem unary_complete (b : Nat) : Complete .sign b (unary b) := by
  induction b with
  | zero =>
    intro t hd
    -- every tree of a sign stands one deep at least
    cases t <;> cases hd
  | succ b ih =>
    intro t hd ht r hr
    cases t with
    | negative t =>
      have inner := ih t (Nat.le_of_succ_le_succ hd) ht r hr
      simp only [Tree.tokens, List.cons_append, unary, inner]
      rfl
    | negated t =>
      have inner := ih t (Nat.le_of_succ_le_succ hd) ht r hr
      simp only [Tree.tokens, List.cons_append, unary, inner]
      rfl
    | unsigned t =>
      have inner := power_complete ih t (Nat.le_of_succ_le_succ hd) ht r hr
      exact (unary_of_unsigned b t r).trans inner

end Ability.Expression
