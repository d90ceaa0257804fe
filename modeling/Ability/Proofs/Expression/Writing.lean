import Ability.Evaluator
import Ability.Proofs.Expression.Reading
import Ability.Proofs.Template
import Mathlib.Data.List.Chain

/-! Expressions as they are written. Tokens that follow each other as the grammar has them are read back
whatever blanks stand between their texts; but a text may mention a placeholder where modulo operators stand
close to what is between them. -/

namespace Ability.Expression

/-- A token that an operand may begin with. -/
def Token.opens : Token → Bool
  | number _ | lparen | op .sub | op .not => true
  | op _ | rparen => false

/-- A token that an operand may end with. -/
def Token.closes : Token → Bool
  | number _ | rparen => true
  | op _ | lparen => false

/-- A token that may stand behind an operand. -/
def Token.continues : Token → Bool
  | op _ | rparen => true
  | number _ | lparen => false

def Token.Follows (a b : Token) : Prop := if a.closes then b.continues else b.opens

instance : DecidableRel Token.Follows := fun a b =>
  inferInstanceAs (Decidable (if a.closes then b.continues else b.opens))

/-- Tokens that begin and end as an operand does, each followed by one that may follow it. -/
structure Phrase (ts : List Token) : Prop where
  nonempty : ts ≠ []
  opens : ∀ t ∈ ts.head?, t.opens
  closes : ∀ t ∈ ts.getLast?, t.closes
  linked : ts.IsChain Token.Follows

namespace Phrase

variable {ts us : List Token} {o : Operator}

theorem number (x : Float) : Phrase [.number x] where
  nonempty := by simp
  opens := by simp [Token.opens]
  closes := by simp [Token.closes]
  linked := .singleton _

/-- What a phrase may follow may stand before it. -/
theorem linked_cons (h : Phrase ts) {t : Token} (ht : t.closes = false) : (t :: ts).IsChain Token.Follows := by
  refine List.isChain_cons.2 ⟨?_, h.linked⟩
  intro u hu
  simpa [Token.Follows, ht] using h.opens u hu

theorem linked_append (h : Phrase ts) {t : Token} (ht : t.continues = true)
    (hus : (t :: us).IsChain Token.Follows) : (ts ++ t :: us).IsChain Token.Follows := by
  refine h.linked.append hus ?_
  intro u hu v hv
  obtain rfl : t = v := Option.some.inj hv
  simpa [Token.Follows, h.closes u hu] using ht

theorem joined (h : Phrase ts) (h' : Phrase us) : Phrase (ts ++ .op o :: us) where
  nonempty := by simp
  opens := by
    rw [List.head?_append_of_ne_nil _ h.nonempty]
    exact h.opens
  closes := by
    rw [List.getLast?_append_of_ne_nil _ (by simp), List.getLast?_cons_of_ne_nil h'.nonempty]
    exact h'.closes
  linked := h.linked_append rfl (h'.linked_cons rfl)

theorem signed (h : Phrase ts) (ho : (Token.op o).opens = true) : Phrase (.op o :: ts) where
  nonempty := by simp
  opens := by simpa using ho
  closes := by
    rw [List.getLast?_cons_of_ne_nil h.nonempty]
    exact h.closes
  linked := h.linked_cons rfl

theorem grouped (h : Phrase ts) : Phrase (.lparen :: (ts ++ [.rparen])) where
  nonempty := by simp
  opens := by simp [Token.opens]
  closes := by simp [List.getLast?_cons, Token.closes]
  linked := by
    have hlinked := h.linked_append (t := .rparen) rfl (.singleton _)
    refine List.isChain_cons.2 ⟨?_, hlinked⟩
    rw [List.head?_append_of_ne_nil _ h.nonempty]
    exact fun u hu => by simpa [Token.Follows, Token.closes] using h.opens u hu

end Phrase

mutual

theorem Tree.phrase {p : Part} : ∀ t : Tree p, Phrase t.tokens
  | .joined first more => more.phrase first.phrase
  | .alone x => x.phrase
  | .compared x _ _ y => x.phrase.joined y.phrase
  | .negative x => x.phrase.signed rfl
  | .negated x => x.phrase.signed rfl
  | .unsigned x => x.phrase
  | .base x => x.phrase
  | .raised x y => x.phrase.joined y.phrase
  | .number v => .number v
  | .group x => x.phrase.grouped

theorem More.phrase {j : Join} : ∀ (m : More j) {ts : List Token}, Phrase ts → Phrase (ts ++ m.tokens)
  | .none, ts, h => by rwa [More.tokens, List.append_nil]
  | .next o _ y more, ts, h => by
    have hmore := more.phrase (h.joined (o := o) y.phrase)
    simpa only [More.tokens, List.append_assoc, List.cons_append] using hmore

end

/-- A number as it is written: a numeral, or one of the two words. -/
structure Literal where
  text : List Char
  value : Float
  spelled : text.all isNumeralChar = true ∧ numeralValue? text = some value ∨
    wordValue? text = some value

inductive Symbol
  | literal (l : Literal)
  | op (o : Operator)
  | lparen
  | rparen

namespace Symbol

def text : Symbol → List Char
  | literal l => l.text
  | op o => o.symbol
  | lparen => ['(']
  | rparen => [')']

def token : Symbol → Token
  | literal l => .number l.value
  | op o => .op o
  | lparen => .lparen
  | rparen => .rparen

/-- What can be part of the name of a placeholder. -/
def isName : Symbol → Bool
  | literal _ | op .sub => true
  | op _ | lparen | rparen => false

end Symbol

/-- The text of symbols, each behind as many blanks as are given with it. -/
def write (gs : List (Nat × Symbol)) : List Char :=
  gs.flatMap fun g => List.replicate g.1 ' ' ++ g.2.text

def tokensOf (gs : List (Nat × Symbol)) : List Token := gs.map (·.2.token)

theorem write_cons (n : Nat) (s : Symbol) (gs : List (Nat × Symbol)) :
    write ((n, s) :: gs) = List.replicate n ' ' ++ (s.text ++ write gs) := by
  simp [write]

theorem write_append (gs hs : List (Nat × Symbol)) : write (gs ++ hs) = write gs ++ write hs :=
  List.flatMap_append

section Characters

theorem isNameChar_of_isNumeralChar {c : Char} (h : isNumeralChar c = true) :
    Template.isNameChar c = true := by
  simp only [isNumeralChar, decide_eq_true_eq] at h
  rcases h with h | rfl
  · simp [Template.isNameChar, Char.isAlphanum, h]
  · decide

theorem not_isBlank_of_isNameChar {c : Char} (h : Template.isNameChar c = true) : isBlank c = false := by
  by_contra hblank
  simp only [isBlank, Bool.not_eq_false, decide_eq_true_eq] at hblank
  rcases hblank with rfl | rfl | rfl | rfl | rfl <;> exact absurd h (by decide)

theorem text_of_wordValue? {cs : List Char} {x : Float} (h : wordValue? cs = some x) :
    cs = ['t', 'r', 'u', 'e'] ∨ cs = ['f', 'a', 'l', 's', 'e'] := by
  unfold wordValue? at h
  split at h
  · next hcs => exact .inl hcs
  split at h
  · next hcs => exact .inr hcs
  · cases h

theorem Literal.isNameChar (l : Literal) : ∀ c ∈ l.text, Template.isNameChar c = true := by
  rcases l.spelled with ⟨hnumeral, -⟩ | hword
  · exact fun c hc => isNameChar_of_isNumeralChar (List.all_eq_true.1 hnumeral c hc)
  · rcases text_of_wordValue? hword with h | h <;> rw [h] <;> exact List.all_eq_true.1 rfl

theorem Literal.text_ne_nil (l : Literal) : l.text ≠ [] := by
  intro h
  have hspelled := l.spelled
  rw [h] at hspelled
  rcases hspelled with ⟨-, hnumeral⟩ | hword
  · cases hnumeral
  · cases hword

theorem Symbol.text_ne_nil (s : Symbol) : s.text ≠ [] := by
  match s with
  | .literal l => exact l.text_ne_nil
  | .op o => cases o <;> simp [text, Operator.symbol]
  | .lparen | .rparen => simp [text]

theorem Symbol.isName_iff (s : Symbol) : s.isName = true ↔ ∀ c ∈ s.text, Template.isNameChar c = true := by
  rw [← List.all_eq_true]
  match s with
  | .literal l => exact ⟨fun _ => List.all_eq_true.2 l.isNameChar, fun _ => rfl⟩
  | .op o => cases o <;> decide
  | .lparen | .rparen => decide

theorem Symbol.eq_mod_of_percent_mem {s : Symbol} (h : '%' ∈ s.text) : s = .op .mod := by
  match s with
  | .literal l =>
    have hname := l.isNameChar _ h
    rw [Template.not_isNameChar_percent] at hname
    cases hname
  | .op o => cases o <;> first | rfl | exact absurd h (by decide)
  | .lparen | .rparen => exact absurd h (by decide)

end Characters

section Reading

/-- Characters that do not go on with the text of a symbol. -/
def Symbol.EndsBefore (s : Symbol) (r : List Char) : Prop :=
  match s with
  | literal _ => ∀ c ∈ r.head?, isNumeralChar c = false ∧ c.isAlphanum = false
  | op _ => ∀ c ∈ r.head?, c ≠ '='
  | lparen | rparen => True

theorem takeWhile_of_stop {p : Char → Bool} {cs r : List Char} (hcs : ∀ c ∈ cs, p c = true)
    (hr : ∀ c ∈ r.head?, p c = false) : (cs ++ r).takeWhile p = cs ∧ (cs ++ r).dropWhile p = r := by
  rw [List.takeWhile_append_of_pos hcs, List.dropWhile_append_of_pos hcs]
  cases r with
  | nil => simp
  | cons c r => simp [hr c rfl]

theorem lexeme_numeral {c : Char} {cs r : List Char} {x : Float} (hcs : ∀ d ∈ c :: cs, isNumeralChar d = true)
    (hx : numeralValue? (c :: cs) = some x) (hr : ∀ d ∈ r.head?, isNumeralChar d = false) :
    lexeme c (cs ++ r) = .ok (.number x, r) := by
  obtain ⟨hc, hcs⟩ := List.forall_mem_cons.1 hcs
  obtain ⟨htake, hdrop⟩ := takeWhile_of_stop hcs hr
  simp only [lexeme, hc, if_true, htake, hdrop, hx]

theorem lexeme_word {c : Char} {cs r : List Char} {x : Float} (hc : isNumeralChar c = false)
    (halpha : c.isAlpha = true) (hcs : ∀ d ∈ cs, d.isAlphanum = true)
    (hx : wordValue? (c :: cs) = some x) (hr : ∀ d ∈ r.head?, d.isAlphanum = false) :
    lexeme c (cs ++ r) = .ok (.number x, r) := by
  obtain ⟨htake, hdrop⟩ := takeWhile_of_stop hcs hr
  simp only [lexeme, hc, halpha, if_true, Bool.false_eq_true, if_false, htake, hdrop, hx]

theorem Literal.lexeme (l : Literal) {r : List Char} (hr : (Symbol.literal l).EndsBefore r) :
    ∃ c cs, l.text = c :: cs ∧ lexeme c (cs ++ r) = .ok (.number l.value, r) := by
  have hnumeral : ∀ c ∈ r.head?, isNumeralChar c = false := fun c hc => (hr c hc).1
  have halnum : ∀ c ∈ r.head?, c.isAlphanum = false := fun c hc => (hr c hc).2
  obtain ⟨text, x, spelled⟩ := l
  rcases spelled with ⟨hall, hx⟩ | hx
  · obtain ⟨c, cs, rfl⟩ := List.exists_cons_of_ne_nil (Literal.text_ne_nil ⟨text, x, .inl ⟨hall, hx⟩⟩)
    exact ⟨c, cs, rfl, lexeme_numeral (List.all_eq_true.1 hall) hx hnumeral⟩
  · rcases text_of_wordValue? hx with rfl | rfl
    · exact ⟨'t', _, rfl, lexeme_word rfl rfl (List.all_eq_true.1 rfl) hx halnum⟩
    · exact ⟨'f', _, rfl, lexeme_word rfl rfl (List.all_eq_true.1 rfl) hx halnum⟩

theorem operator?_symbol {o : Operator} {r : List Char} (hr : (Symbol.op o).EndsBefore r) :
    operator? (o.symbol ++ r) = some (o, r) := by
  cases r with
  | nil => cases o <;> rfl
  | cons d r =>
    -- only a sign of equality would make a longer operator of a shorter one
    have hd : d ≠ '=' := hr d rfl
    cases o
    case lt | gt | not => simp [Operator.symbol, operator?, hd]
    all_goals rfl

theorem Operator.symbol_head (o : Operator) : ∀ c ∈ o.symbol.head?,
    isNumeralChar c = false ∧ c.isAlpha = false ∧ c ≠ '(' ∧ c ≠ ')' := by
  cases o <;> rintro c ⟨⟩ <;> decide

theorem lexeme_operator {o : Operator} {r : List Char} (hr : (Symbol.op o).EndsBefore r) :
    ∃ c cs, o.symbol = c :: cs ∧ lexeme c (cs ++ r) = .ok (.op o, r) := by
  have hread := operator?_symbol hr
  have hhead := o.symbol_head
  obtain ⟨c, cs, hsymbol⟩ := List.exists_cons_of_ne_nil (Symbol.text_ne_nil (.op o))
  rw [Symbol.text] at hsymbol
  rw [hsymbol] at hread hhead
  obtain ⟨hnumeral, halpha, hleft, hright⟩ := hhead c rfl
  rw [List.cons_append] at hread
  refine ⟨c, cs, hsymbol, ?_⟩
  simp only [lexeme, hnumeral, halpha, hleft, hright, Bool.false_eq_true, if_false, hread]

theorem Symbol.lexeme (s : Symbol) {r : List Char} (hr : s.EndsBefore r) :
    ∃ c cs, s.text = c :: cs ∧ Expression.lexeme c (cs ++ r) = .ok (s.token, r) := by
  match s with
  | .literal l => exact l.lexeme hr
  | .op o => exact lexeme_operator hr
  | .lparen => exact ⟨'(', [], rfl, rfl⟩
  | .rparen => exact ⟨')', [], rfl, rfl⟩

theorem Symbol.not_isBlank (s : Symbol) : ∀ c ∈ s.text, isBlank c = false := by
  match s with
  | .literal l => exact fun c hc => not_isBlank_of_isNameChar (l.isNameChar c hc)
  | .op o => cases o <;> simp [text, Operator.symbol, isBlank]
  | .lparen | .rparen => simp [text, isBlank]

theorem Symbol.text_head_of_continues {s : Symbol} (hs : s.token.continues = true) :
    ∀ c ∈ s.text.head?, isNumeralChar c = false ∧ c.isAlphanum = false := by
  match s with
  | .op o => cases o <;> rintro c ⟨⟩ <;> decide
  | .rparen =>
    rintro c ⟨⟩
    decide

theorem Symbol.text_head_of_opens {s : Symbol} (hs : s.token.opens = true) :
    ∀ c ∈ s.text.head?, c ≠ '=' := by
  match s with
  | .literal l =>
    rintro c hc rfl
    exact absurd (l.isNameChar _ (List.mem_of_mem_head? hc)) (by decide)
  | .op .sub | .op .not | .lparen =>
    rintro c ⟨⟩
    decide

variable {gs : List (Nat × Symbol)}

theorem write_head_of_cons {n : Nat} {s : Symbol} {c : Char} (hc : c ∈ (write ((n, s) :: gs)).head?) :
    c = ' ' ∨ c ∈ s.text.head? := by
  rw [write_cons] at hc
  cases n with
  | zero =>
    rw [List.replicate_zero, List.nil_append, List.head?_append_of_ne_nil _ s.text_ne_nil] at hc
    exact .inr hc
  | succ n => exact .inl (Option.some.inj hc).symm

/-- A symbol ends before a blank and before whatever may follow it. -/
theorem Symbol.endsBefore_write {s : Symbol} (h : (s.token :: tokensOf gs).IsChain Token.Follows) :
    s.EndsBefore (write gs) := by
  cases gs with
  | nil => cases s <;> simp [EndsBefore, write]
  | cons g gs =>
    obtain ⟨n, t⟩ := g
    have hfollows : Token.Follows s.token t.token := (List.isChain_cons_cons.1 h).1
    match s with
    | .literal l =>
      intro c hc
      rcases write_head_of_cons hc with rfl | hc
      · decide
      · exact Symbol.text_head_of_continues hfollows c hc
    | .op o =>
      intro c hc
      rcases write_head_of_cons hc with rfl | hc
      · decide
      · exact Symbol.text_head_of_opens hfollows c hc
    | .lparen | .rparen => exact trivial

theorem tokenize_blanks (n : Nat) (r : List Char) : tokenize (List.replicate n ' ' ++ r) = tokenize r := by
  induction n with
  | zero => rfl
  | succ n ih =>
    rw [List.replicate_succ, List.cons_append, tokenize]
    exact ih

theorem tokenize_cons {c : Char} (hc : isBlank c = false) (r : List Char) :
    tokenize (c :: r) = lexeme c r >>= fun x => (tokenize x.2).map (x.1 :: ·) := by
  rw [tokenize, hc]
  simp only [Bool.false_eq_true, if_false]
  split
  · next e he =>
    rw [he]
    rfl
  · next t r' ht =>
    rw [ht]
    rfl

theorem tokenize_symbol {s : Symbol} {r : List Char} (hr : s.EndsBefore r) :
    tokenize (s.text ++ r) = (tokenize r).map (s.token :: ·) := by
  obtain ⟨c, cs, htext, hlexeme⟩ := s.lexeme hr
  have hc : isBlank c = false := s.not_isBlank c (htext ▸ List.mem_cons_self ..)
  rw [htext, List.cons_append, tokenize_cons hc, hlexeme]
  rfl

/-- Blanks make no difference where each token is one that may follow the one before it. -/
theorem tokenize_write (h : (tokensOf gs).IsChain Token.Follows) :
    tokenize (write gs) = .ok (tokensOf gs) := by
  induction gs with
  | nil =>
    rw [write, List.flatMap_nil, tokenize]
    rfl
  | cons g gs ih =>
    obtain ⟨n, s⟩ := g
    rw [write_cons, tokenize_blanks, tokenize_symbol (s.endsBefore_write h), ih (List.isChain_cons.1 h).2]
    rfl

end Reading

section Mentions

/-- Two modulo operators with numbers and signs between them and no blanks, before the second one neither. -/
def Encloses (gs : List (Nat × Symbol)) : Prop :=
  ∃ before n inside after, gs = before ++ (n, .op .mod) :: (inside ++ (0, .op .mod) :: after) ∧
    inside ≠ [] ∧ ∀ g ∈ inside, g.1 = 0 ∧ g.2.isName = true

variable {gs : List (Nat × Symbol)}

/-- Every percent sign is a modulo operator. -/
theorem eq_append_of_write_eq {u r : List Char} (h : write gs = u ++ '%' :: r) :
    ∃ before n after, gs = before ++ (n, .op .mod) :: after ∧ u = write before ++ List.replicate n ' ' ∧
      r = write after := by
  induction gs generalizing u with
  | nil => simp [write] at h
  | cons g gs ih =>
    obtain ⟨n, s⟩ := g
    have later : ∀ {w}, write gs = w ++ '%' :: r → u = List.replicate n ' ' ++ (s.text ++ w) →
        ∃ before n' after, (n, s) :: gs = before ++ (n', .op .mod) :: after ∧
          u = write before ++ List.replicate n' ' ' ∧ r = write after := by
      rintro w hw rfl
      obtain ⟨before, n', after, rfl, rfl, rfl⟩ := ih hw
      exact ⟨(n, s) :: before, n', after, rfl, by simp [write_cons], rfl⟩
    rw [write_cons, ← List.append_assoc] at h
    rcases List.append_eq_append_iff.1 h with ⟨w, hu, hr⟩ | ⟨w, hg, hr⟩
    · exact later hr (by rw [hu, List.append_assoc])
    · cases w with
      | nil =>
        rw [List.append_nil] at hg
        exact later (w := []) hr.symm (by rw [← hg, List.append_nil])
      | cons c w =>
        obtain ⟨rfl, rfl⟩ := List.cons.inj hr
        have hpercent : '%' ∈ s.text := by
          have hmem : '%' ∈ List.replicate n ' ' ++ s.text := by simp [hg]
          exact (List.mem_append.1 hmem).resolve_left (by simp)
        obtain rfl := Symbol.eq_mod_of_percent_mem hpercent
        have hlast : List.replicate n ' ' ++ ['%'] = u ++ '%' :: w := hg
        obtain ⟨rfl, -, rfl⟩ := (List.append_cons_inj_of_notMem (by simp) (by simp)).1 hlast
        exact ⟨[], n, gs, rfl, rfl, rfl⟩

theorem write_eq_nil_iff : write gs = [] ↔ gs = [] := by
  cases gs with
  | nil => simp [write]
  | cons g gs => simp [write, g.2.text_ne_nil]

/-- What is written without blanks can be a name just when it is numbers and signs. -/
theorem isNameChar_write_iff :
    (∀ c ∈ write gs, Template.isNameChar c = true) ↔ ∀ g ∈ gs, g.1 = 0 ∧ g.2.isName = true := by
  have hblank : Template.isNameChar ' ' = false := by decide
  simp only [write, List.mem_flatMap, List.mem_append, List.mem_replicate, Symbol.isName_iff]
  constructor
  · intro h g hg
    refine ⟨?_, fun c hc => h c ⟨g, hg, .inr hc⟩⟩
    by_contra hn
    have hname := h ' ' ⟨g, hg, .inl ⟨hn, rfl⟩⟩
    rw [hblank] at hname
    cases hname
  · rintro h c ⟨g, hg, ⟨hn, rfl⟩ | hc⟩
    · exact absurd (h g hg).1 hn
    · exact (h g hg).2 c hc

theorem mentions_write_iff : Template.Mentions (write gs) ↔ Encloses gs := by
  constructor
  · rintro ⟨u, name, v, htext, hne, hname⟩
    obtain ⟨before, n, rest, rfl, rfl, hrest⟩ := eq_append_of_write_eq htext
    obtain ⟨inside, k, after, rfl, rfl, rfl⟩ := eq_append_of_write_eq hrest.symm
    obtain ⟨hinside, hblanks⟩ := List.forall_mem_append.1 hname
    obtain rfl : k = 0 := by
      by_contra hk
      exact absurd (hblanks ' ' (List.mem_replicate.2 ⟨hk, rfl⟩)) (by decide)
    refine ⟨before, n, inside, after, rfl, ?_, isNameChar_write_iff.1 hinside⟩
    rintro rfl
    exact hne rfl
  · rintro ⟨before, n, inside, after, rfl, hne, hinside⟩
    refine ⟨write before ++ List.replicate n ' ', write inside, write after, ?_, ?_, ?_⟩
    · simp [write_append, write_cons, Symbol.text, Operator.symbol]
    · rwa [Ne, write_eq_nil_iff]
    · exact isNameChar_write_iff.2 hinside

end Mentions

/-- The value of tokens, which has to be finite. -/
def judge (ts : List Token) : Except Fault Float := do
  let x ← valueOf ts
  if x.isFinite then return x else throw .notFinite

theorem value_of_tokenize {shown text : String} {ts : List Token} (h : tokenize text.toList = .ok ts) :
    value shown text = (judge ts).mapError (.expression shown) := by
  unfold value judge
  rw [h]
  simp only [Except.mapError, ok_bind]
  cases valueOf ts with
  | error f => rfl
  | ok x =>
    rw [ok_bind, ok_bind]
    split <;> rfl

theorem evaluate_of_tokenize {text : String} {p : Placeholders} {ts : List Token}
    (hnone : ¬ Template.Mentions (Template.fill p text).toList)
    (h : tokenize (Template.fill p text).toList = .ok ts) :
    evaluate text p = (judge ts).mapError (.expression text) := by
  rw [evaluate, Template.references_eq_nil_iff.2 hnone]
  exact value_of_tokenize h

end Ability.Expression
