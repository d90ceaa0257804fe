import Ability.Proofs.Expression.Exactness
import Ability.Proofs.Expression.Writing

/-! Modulo operators and the percent signs of placeholders. With a blank between any two tokens an expression is
read as its tokens, whatever the placeholders; without blanks it is too, unless two modulo operators have only
numbers and signs between them, which are then a name. -/

namespace Ability.Expression

/-- Symbols with so many blanks between any two. -/
def apart (n : Nat) : List Symbol → List (Nat × Symbol)
  | [] => []
  | s :: ss => (0, s) :: ss.map (n, ·)

def printed (n : Nat) (ss : List Symbol) : String := String.ofList (write (apart n ss))

def Accepted (ss : List Symbol) : Prop := ∃ t : Whole, t.tokens = ss.map Symbol.token

/-- Two modulo operators with only numbers and signs between them. -/
def ModuloChain (ss : List Symbol) : Prop :=
  ∃ before inside after, ss = before ++ .op .mod :: (inside ++ .op .mod :: after) ∧
    inside ≠ [] ∧ ∀ s ∈ inside, s.isName = true

variable {ss : List Symbol} {n : Nat}

theorem apart_zero (ss : List Symbol) : apart 0 ss = ss.map (0, ·) := by
  cases ss <;> rfl

theorem tokensOf_apart (n : Nat) (ss : List Symbol) : tokensOf (apart n ss) = ss.map Symbol.token := by
  cases ss <;> simp [apart, tokensOf]

theorem encloses_apart_zero_iff : Encloses (apart 0 ss) ↔ ModuloChain ss := by
  rw [apart_zero]
  constructor
  · rintro ⟨before, n, inside, after, hss, hne, hinside⟩
    have hsymbols := congrArg (List.map Prod.snd) hss
    simp only [List.map_map, List.map_append, List.map_cons] at hsymbols
    rw [show Prod.snd ∘ (fun s : Symbol => (0, s)) = id from rfl, List.map_id] at hsymbols
    refine ⟨_, inside.map (·.2), _, hsymbols, by simpa using hne, ?_⟩
    intro s hs
    obtain ⟨g, hg, rfl⟩ := List.mem_map.1 hs
    exact (hinside g hg).2
  · rintro ⟨before, inside, after, rfl, hne, hinside⟩
    refine ⟨before.map (0, ·), 0, inside.map (0, ·), after.map (0, ·), by simp, by simpa using hne, ?_⟩
    simpa using hinside

/-- Blanks between any two symbols leave no name between percent signs. -/
theorem not_encloses_apart_succ : ¬ Encloses (apart (n + 1) ss) := by
  rintro ⟨before, k, inside, after, hss, hne, hinside⟩
  cases ss with
  | nil => simp [apart] at hss
  | cons s ss =>
    obtain ⟨g, inside, rfl⟩ := List.exists_cons_of_ne_nil hne
    -- only the first symbol has no blanks before it, and that is not behind a modulo operator
    have hmem : g ∈ ss.map (n + 1, ·) := by
      rw [apart] at hss
      cases before with
      | nil =>
        rw [(List.cons.inj hss).2]
        simp
      | cons b before =>
        rw [(List.cons.inj hss).2]
        simp
    obtain ⟨s', -, rfl⟩ := List.mem_map.1 hmem
    exact absurd (hinside _ (List.mem_cons_self ..)).1 (Nat.succ_ne_zero n)

theorem tokenize_printed (h : Accepted ss) : tokenize (printed n ss).toList = .ok (ss.map Symbol.token) := by
  obtain ⟨t, ht⟩ := h
  have hlinked : (tokensOf (apart n ss)).IsChain Token.Follows := by
    rw [tokensOf_apart, ← ht]
    exact t.phrase.linked
  rw [printed, String.toList_ofList, tokenize_write hlinked, tokensOf_apart]

theorem evaluate_printed (h : Accepted ss) (hnone : ¬ Encloses (apart n ss)) (p : Placeholders) :
    evaluate (printed n ss) p = (judge (ss.map Symbol.token)).mapError (.expression (printed n ss)) := by
  have hmentions : ¬ Template.Mentions (printed n ss).toList := by
    rwa [printed, String.toList_ofList, mentions_write_iff]
  have hfill := Template.fill_of_not_mentions p hmentions
  exact evaluate_of_tokenize (hfill.symm ▸ hmentions) (hfill.symm ▸ tokenize_printed h)

theorem evaluate_of_mentions {text : String} (h : Template.Mentions text.toList) :
    ∃ name, evaluate text .empty = .error (.unresolvedPlaceholder name) := by
  have hfill : Template.fill .empty text = text := Template.fill_eq_self fun _ _ => rfl
  obtain ⟨name, more, hnames⟩ : ∃ name more, Template.references text = name :: more :=
    List.exists_cons_of_ne_nil fun hnil => Template.references_eq_nil_iff.1 hnil h
  refine ⟨name, ?_⟩
  simp only [evaluate, hfill, hnames]

theorem moduloChain_iff_mentions : ModuloChain ss ↔ Template.Mentions (printed 0 ss).toList := by
  rw [printed, String.toList_ofList, mentions_write_iff, encloses_apart_zero_iff]

section

def ten : Literal := ⟨['1', '0'], Binary64.ofDecimal false 10 0, .inl ⟨rfl, rfl⟩⟩

def three : Literal := ⟨['3'], Binary64.ofDecimal false 3 0, .inl ⟨rfl, rfl⟩⟩

def two : Literal := ⟨['2'], Binary64.ofDecimal false 2 0, .inl ⟨rfl, rfl⟩⟩

/-- A remainder of a remainder, the first divisor being `x`. -/
def remainders (x : Tree .primary) : Whole :=
  .joined (.joined (.alone (.joined (.joined (.unsigned (.base (.number ten.value)))
    (.next .mod rfl (.unsigned (.base x)) (.next .mod rfl (.unsigned (.base (.number two.value))) .none)))
    .none)) .none) .none

end

end Ability.Expression
