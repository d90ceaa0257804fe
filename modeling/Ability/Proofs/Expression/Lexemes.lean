import Ability.Proofs.Expression.Bytes
import Ability.Proofs.Expression.Numbers

/-! The texts that are made of lexemes. A lexeme ends where its text could not go on: a numeral before what is neither
digit nor point, a word before what is neither letter nor digit, an operator where no longer one begins. Blanks may
stand between lexemes; they have to where the text of one could go on into the next. -/

namespace Ability.Expression

section Numerals

/-- A run of digits and points that is a number: it has a digit and at most one point. -/
structure Numeral where
  text : List Char
  run : ∀ c ∈ text, isNumeralChar c = true
  digit : ∃ c ∈ text, c.isDigit = true
  point : text.count '.' ≤ 1

/-- The double nearest to what the digits count, those behind the point being fractions. -/
def Numeral.value (n : Numeral) : Float :=
  Binary64.ofDecimal false (Digits.value (n.text.filter Char.isDigit))
    (-((n.text.dropWhile (· != '.')).tail.length : Int))

variable {cs ws fs : List Char}

theorem ne_point_of_isDigit {c : Char} (h : c.isDigit = true) : (c != '.') = true := by
  rw [bne_iff_ne]
  rintro rfl
  exact absurd h (by decide)

theorem count_point_eq_zero_iff (hcs : ∀ c ∈ cs, isNumeralChar c = true) :
    cs.count '.' = 0 ↔ ∀ c ∈ cs, c.isDigit = true := by
  rw [List.count_eq_zero]
  constructor
  · intro hpoint c hc
    have hne : c ≠ '.' := fun h => hpoint (h ▸ hc)
    simpa [isNumeralChar, hne] using hcs c hc
  · intro hdigits hmem
    exact absurd (hdigits _ hmem) (by decide)

/-- A run is digits only, or digits up to its first point. -/
theorem run_cases (hcs : ∀ c ∈ cs, isNumeralChar c = true) :
    (∀ c ∈ cs, c.isDigit = true) ∨
      ∃ ws fs, cs = ws ++ '.' :: fs ∧ (∀ c ∈ ws, c.isDigit = true) ∧ ∀ c ∈ fs, isNumeralChar c = true := by
  induction cs with
  | nil => exact .inl (by simp)
  | cons c cs ih =>
    obtain ⟨hc, hrest⟩ := List.forall_mem_cons.1 hcs
    by_cases hdigit : c.isDigit = true
    · rcases ih hrest with hall | ⟨ws, fs, rfl, hws, hfs⟩
      · exact .inl (List.forall_mem_cons.2 ⟨hdigit, hall⟩)
      · exact .inr ⟨c :: ws, fs, rfl, List.forall_mem_cons.2 ⟨hdigit, hws⟩, hfs⟩
    · obtain rfl : c = '.' := by simpa [isNumeralChar, hdigit] using hc
      exact .inr ⟨[], cs, rfl, List.forall_mem_nil _, hrest⟩

/-- What a run is read as, if it is a number. -/
theorem numeralValue?_run (hcs : ∀ c ∈ cs, isNumeralChar c = true) :
    numeralValue? cs = if (∃ c ∈ cs, c.isDigit = true) ∧ cs.count '.' ≤ 1 then
      some (Binary64.ofDecimal false (Digits.value (cs.filter Char.isDigit))
        (-((cs.dropWhile (· != '.')).tail.length : Int)))
    else none := by
  rcases run_cases hcs with hdigits | ⟨ws, fs, rfl, hws, hfs⟩
  · have hcount := (count_point_eq_zero_iff hcs).2 hdigits
    have hpoint : cs.dropWhile (· != '.') = [] :=
      List.dropWhile_eq_nil_iff.2 fun c hc => ne_point_of_isDigit (hdigits c hc)
    have htake : cs.takeWhile Char.isDigit = cs := List.takeWhile_eq_self_iff.2 hdigits
    have hdrop : cs.dropWhile Char.isDigit = [] := List.dropWhile_eq_nil_iff.2 hdigits
    simp [numeralValue?, htake, hdrop, hcount, hpoint, List.filter_eq_self.2 hdigits]
  · have hcount := count_point_eq_zero_iff hfs
    have hnone : ws.count '.' = 0 :=
      (count_point_eq_zero_iff fun c hc => isNumeralChar_of_isDigit (hws c hc)).2 hws
    obtain ⟨htake, hdrop⟩ := takeWhile_of_stop (r := '.' :: fs) hws (by simp)
    obtain ⟨-, hpoint⟩ := takeWhile_of_stop (p := (· != '.')) (r := '.' :: fs)
      (fun c hc => ne_point_of_isDigit (hws c hc)) (by simp)
    have hone : (ws ++ '.' :: fs).count '.' ≤ 1 ↔ ∀ c ∈ fs, c.isDigit = true := by
      rw [← hcount, List.count_append, List.count_cons_self, hnone]
      omega
    simp only [numeralValue?, htake, hdrop, hpoint, hone, List.drop_succ_cons, List.drop_zero, List.tail_cons,
      List.all_eq_true, List.any_eq_true, List.filter_append, List.filter_eq_self.2 hws]
    by_cases hfraction : ∀ c ∈ fs, c.isDigit = true
    · simp [List.filter_eq_self.2 hfraction, and_comm]
    · simp [hfraction]

/-- A run of digits and points is read as a number just if it is a numeral. -/
theorem numeralValue?_eq_some_iff (hcs : ∀ c ∈ cs, isNumeralChar c = true) (x : Float) :
    numeralValue? cs = some x ↔ ∃ n : Numeral, n.text = cs ∧ n.value = x := by
  rw [numeralValue?_run hcs, Option.ite_none_right_eq_some]
  constructor
  · rintro ⟨⟨hdigit, hpoint⟩, hx⟩
    exact ⟨⟨cs, hcs, hdigit, hpoint⟩, rfl, Option.some.inj hx⟩
  · rintro ⟨n, rfl, rfl⟩
    exact ⟨⟨n.digit, n.point⟩, rfl⟩

end Numerals

section Operators

theorem Operator.mem_all (o : Operator) : o ∈ Operator.all := by cases o <;> decide

theorem Operator.all_longest_first :
    Operator.all.Pairwise fun o p => p.symbol.length ≤ o.symbol.length := by decide

theorem Operator.symbol_injective : Function.Injective Operator.symbol := by
  have hall : ∀ o ∈ all, ∀ p ∈ all, o.symbol = p.symbol → o = p := by decide
  exact fun o p => hall o o.mem_all p p.mem_all

theorem Operator.symbol_length_le (o : Operator) : o.symbol.length ≤ 2 := by cases o <;> decide

/-- The operator is the longest one that a text begins with. -/
theorem operator?_eq_some_iff {cs r : List Char} {o : Operator} :
    operator? cs = some (o, r) ↔
      cs = o.symbol ++ r ∧ ∀ p : Operator, p.symbol <+: cs → p.symbol.length ≤ o.symbol.length := by
  have hfound : ∀ {p : Operator}, Operator.all.find? (·.symbol.isPrefixOf cs) = some p →
      p.symbol <+: cs ∧ ∀ q : Operator, q.symbol <+: cs → q.symbol.length ≤ p.symbol.length := by
    intro p hp
    obtain ⟨hbegins, before, after, hall, hbefore⟩ := List.find?_eq_some_iff_append.1 hp
    refine ⟨List.isPrefixOf_iff_prefix.1 hbegins, fun q hq => ?_⟩
    have horder := Operator.all_longest_first
    have hmem := q.mem_all
    rw [hall] at horder hmem
    rcases List.mem_append.1 hmem with hq' | hq'
    · have hno := hbefore q hq'
      rw [List.isPrefixOf_iff_prefix.2 hq] at hno
      cases hno
    · rcases List.mem_cons.1 hq' with rfl | hq'
      · exact Nat.le_refl _
      · exact (List.pairwise_cons.1 (List.pairwise_append.1 horder).2.1).1 q hq'
  rw [operator?_eq, Option.map_eq_some_iff]
  constructor
  · rintro ⟨p, hp, hpair⟩
    obtain ⟨rfl, rfl⟩ := Prod.mk.inj hpair
    obtain ⟨⟨r, rfl⟩, hlongest⟩ := hfound hp
    exact ⟨by rw [List.drop_left], hlongest⟩
  · rintro ⟨rfl, hlongest⟩
    have hbegins : o.symbol.isPrefixOf (o.symbol ++ r) = true :=
      List.isPrefixOf_iff_prefix.2 (List.prefix_append ..)
    have hsome : (Operator.all.find? (·.symbol.isPrefixOf (o.symbol ++ r))).isSome :=
      List.find?_isSome.2 ⟨o, o.mem_all, hbegins⟩
    obtain ⟨p, hp⟩ := Option.isSome_iff_exists.1 hsome
    obtain ⟨hbegins, hlonger⟩ := hfound hp
    have hlength := Nat.le_antisymm (hlongest p hbegins) (hlonger o (List.prefix_append ..))
    have hsame := (List.prefix_of_prefix_length_le hbegins (List.prefix_append ..) hlength.le).eq_of_length hlength
    obtain rfl := Operator.symbol_injective hsame
    exact ⟨p, hp, by rw [List.drop_left]⟩

end Operators

inductive Lexeme
  | lparen
  | rparen
  | op (o : Operator)
  | word (truth : Bool)
  | numeral (n : Numeral)

namespace Lexeme

def text : Lexeme → List Char
  | lparen => ['(']
  | rparen => [')']
  | op o => o.symbol
  | word true => ['t', 'r', 'u', 'e']
  | word false => ['f', 'a', 'l', 's', 'e']
  | numeral n => n.text

def token : Lexeme → Token
  | lparen => .lparen
  | rparen => .rparen
  | op o => .op o
  | word true => .number 1.0
  | word false => .number 0.0
  | numeral n => .number n.value

/-- What follows does not go on with the text of the lexeme. -/
def EndsBefore (l : Lexeme) (r : List Char) : Prop :=
  match l with
  | lparen | rparen => True
  | op o => ∀ p : Operator, p.symbol <+: o.symbol ++ r → p.symbol.length ≤ o.symbol.length
  | word _ => ∀ c ∈ r.head?, c.isAlphanum = false
  | numeral _ => ∀ c ∈ r.head?, isNumeralChar c = false

variable {l : Lexeme} {r r' : List Char}

/-- Whether a lexeme ends shows at the next character. -/
theorem EndsBefore.congr (hhead : r.head? = r'.head?) (h : l.EndsBefore r) : l.EndsBefore r' := by
  match l with
  | lparen | rparen => exact trivial
  | word _ | numeral _ => simpa only [EndsBefore, hhead] using h
  | op o =>
    intro p hp
    have hlength : p.symbol.length ≤ (o.symbol ++ r'.take 1).length := by
      have hone := o.symbol_length_pos
      have htwo := p.symbol_length_le
      have hle := hp.length_le
      simp only [List.length_append, List.length_take] at hle ⊢
      omega
    have hnext : o.symbol ++ r'.take 1 <+: o.symbol ++ r' :=
      (List.prefix_append_right_inj _).2 (List.take_prefix ..)
    have hshort := List.prefix_of_prefix_length_le hp hnext hlength
    rw [List.take_one, ← hhead, ← List.take_one] at hshort
    exact h p (hshort.trans ((List.prefix_append_right_inj _).2 (List.take_prefix ..)))

theorem not_isBlank_symbol (o : Operator) : ∀ c ∈ o.symbol, isBlank c = false := (Symbol.op o).not_isBlank

/-- A lexeme ends at the end of the text and before a blank. -/
theorem endsBefore_of_blank (l : Lexeme) (h : ∀ c ∈ r.head?, isBlank c = true) : l.EndsBefore r := by
  have hname : ∀ c ∈ r.head?, Template.isNameChar c = false := by
    intro c hc
    by_contra hno
    exact absurd (h c hc) (by simp [not_isBlank_of_isNameChar (by simpa using hno)])
  match l with
  | lparen | rparen => exact trivial
  | word _ =>
    intro c hc
    by_contra hno
    exact absurd (hname c hc) (by simp [Template.isNameChar, by simpa using hno])
  | numeral _ =>
    intro c hc
    by_contra hno
    exact absurd (hname c hc) (by simp [isNameChar_of_isNumeralChar (by simpa using hno)])
  | op o =>
    intro p hp
    by_contra hlonger
    obtain ⟨s, hs⟩ := List.prefix_of_prefix_length_le (List.prefix_append ..) hp (Nat.le_of_not_le hlonger)
    rw [← hs, List.prefix_append_right_inj] at hp
    cases s with
    | nil => simp [← hs] at hlonger
    | cons c s =>
      obtain ⟨r', rfl⟩ := hp
      have hc : isBlank c = false := not_isBlank_symbol p c (by simp [← hs])
      rw [h c rfl] at hc
      cases hc

theorem not_isBlank (l : Lexeme) : ∀ c ∈ l.text, isBlank c = false := by
  match l with
  | lparen | rparen | word true | word false => simp [text, isBlank]
  | op o => exact not_isBlank_symbol o
  | numeral n => exact fun c hc => not_isBlank_of_isNameChar (isNameChar_of_isNumeralChar (n.run c hc))

/-- A lexeme is read where it ends. -/
theorem lexeme (l : Lexeme) (h : l.EndsBefore r) :
    ∃ c cs, l.text = c :: cs ∧ Expression.lexeme c (cs ++ r) = .ok (l.token, r) := by
  match l with
  | lparen => exact ⟨'(', [], rfl, rfl⟩
  | rparen => exact ⟨')', [], rfl, rfl⟩
  | word true => exact ⟨'t', _, rfl, lexeme_word rfl rfl (List.all_eq_true.1 rfl) rfl h⟩
  | word false => exact ⟨'f', _, rfl, lexeme_word rfl rfl (List.all_eq_true.1 rfl) rfl h⟩
  | numeral n =>
    obtain ⟨d, hd, -⟩ := n.digit
    obtain ⟨c, cs, htext⟩ := List.exists_cons_of_ne_nil (List.ne_nil_of_mem hd)
    have hvalue := (numeralValue?_eq_some_iff n.run n.value).2 ⟨n, rfl, rfl⟩
    have hrun := n.run
    rw [htext] at hvalue hrun
    exact ⟨c, cs, htext, lexeme_numeral hrun hvalue h⟩
  | op o =>
    have hread : operator? (o.symbol ++ r) = some (o, r) := operator?_eq_some_iff.2 ⟨rfl, h⟩
    have hhead := o.symbol_head
    obtain ⟨c, cs, hsymbol⟩ := List.exists_cons_of_length_pos o.symbol_length_pos
    rw [hsymbol] at hread hhead
    obtain ⟨hnumeral, halpha, hleft, hright⟩ := hhead c rfl
    rw [List.cons_append] at hread
    refine ⟨c, cs, hsymbol, ?_⟩
    simp only [Expression.lexeme, hnumeral, halpha, hleft, hright, Bool.false_eq_true, if_false, hread]
    rfl

theorem head_dropWhile {p : Char → Bool} : ∀ c ∈ (r.dropWhile p).head?, p c = false := by
  intro c hc
  have hstop := List.head?_dropWhile_not p r
  rw [Option.mem_def] at hc
  rwa [hc] at hstop

/-- What is read is a lexeme, and it ends there. -/
theorem of_lexeme {c : Char} {t : Token} (h : Expression.lexeme c r = .ok (t, r')) :
    ∃ l : Lexeme, c :: r = l.text ++ r' ∧ l.EndsBefore r' ∧ l.token = t := by
  simp only [Expression.lexeme] at h
  split at h
  · next hc =>
    have hrun : ∀ d ∈ c :: r.takeWhile isNumeralChar, isNumeralChar d = true :=
      List.forall_mem_cons.2 ⟨hc, fun d hd => List.mem_takeWhile_imp hd⟩
    split at h
    · next x hx =>
      obtain ⟨rfl, rfl⟩ := Prod.mk.inj (Except.ok.inj h)
      obtain ⟨n, htext, rfl⟩ := (numeralValue?_eq_some_iff hrun x).1 hx
      refine ⟨.numeral n, ?_, head_dropWhile, rfl⟩
      rw [text, htext, List.cons_append, List.takeWhile_append_dropWhile]
    · cases h
  split at h
  · split at h
    · next x hx =>
      obtain ⟨rfl, rfl⟩ := Prod.mk.inj (Except.ok.inj h)
      have hsplit : c :: r = c :: r.takeWhile Char.isAlphanum ++ r.dropWhile Char.isAlphanum := by
        rw [List.cons_append, List.takeWhile_append_dropWhile]
      unfold wordValue? at hx
      split at hx
      · next htext =>
        rw [htext] at hsplit
        exact ⟨.word true, hsplit, head_dropWhile, congrArg _ (Option.some.inj hx)⟩
      split at hx
      · next htext =>
        rw [htext] at hsplit
        exact ⟨.word false, hsplit, head_dropWhile, congrArg _ (Option.some.inj hx)⟩
      · cases hx
    · cases h
  split at h
  · next hc =>
    obtain ⟨rfl, rfl⟩ := Prod.mk.inj (Except.ok.inj h)
    exact ⟨.lparen, by rw [hc]; rfl, trivial, rfl⟩
  split at h
  · next hc =>
    obtain ⟨rfl, rfl⟩ := Prod.mk.inj (Except.ok.inj h)
    exact ⟨.rparen, by rw [hc]; rfl, trivial, rfl⟩
  split at h
  · next o s hread =>
    obtain ⟨rfl, rfl⟩ := Prod.mk.inj (Except.ok.inj h)
    obtain ⟨htext, hlongest⟩ := operator?_eq_some_iff.1 hread
    rw [htext] at hlongest
    exact ⟨.op o, htext, hlongest, rfl⟩
  · cases h

end Lexeme

/-- The text is made of these lexemes and of blanks, and each lexeme ends where it does also before `after`. -/
inductive Cut (after : List Char) : List Char → List Lexeme → Prop
  | nil : Cut after [] []
  | blank {c : Char} {cs : List Char} {ls : List Lexeme} (hc : isBlank c = true) (h : Cut after cs ls) :
      Cut after (c :: cs) ls
  | lexeme {l : Lexeme} {cs : List Char} {ls : List Lexeme} (hl : l.EndsBefore (cs ++ after))
      (h : Cut after cs ls) : Cut after (l.text ++ cs) (l :: ls)

def Blanks (w : List Char) : Prop := ∀ c ∈ w, isBlank c = true

namespace Cut

variable {a b w : List Char} {ls : List Lexeme}

/-- Lexemes are read one after the other, and what is behind them after that. -/
theorem tokenize_append (h : Cut b a ls) :
    tokenize (a ++ b) = (tokenize b).map (ls.map Lexeme.token ++ ·) := by
  induction h with
  | nil => cases h : tokenize b <;> simp [Except.map, h]
  | blank hc h ih => rw [List.cons_append, tokenize, if_pos hc, ih]
  | @lexeme l cs ls hl h ih =>
    obtain ⟨c, text, htext, hread⟩ := l.lexeme hl
    have hc : isBlank c = false := l.not_isBlank c (htext ▸ List.mem_cons_self ..)
    rw [htext, List.cons_append, List.cons_append, List.append_assoc, tokenize_cons hc, hread, ok_bind, ih]
    cases tokenize b <;> rfl

/-- What has tokens is made of their lexemes. -/
theorem of_tokenize {cs : List Char} {ts : List Token} (h : tokenize cs = .ok ts) :
    ∃ ls, Cut [] cs ls ∧ ls.map Lexeme.token = ts := by
  induction cs using tokenize.induct generalizing ts with
  | case1 =>
    rw [tokenize] at h
    exact ⟨[], .nil, Except.ok.inj h⟩
  | case2 c r hblank ih =>
    rw [tokenize, if_pos hblank] at h
    obtain ⟨ls, hcut, hls⟩ := ih h
    exact ⟨ls, .blank hblank hcut, hls⟩
  | case3 c r hblank e he =>
    rw [tokenize_cons (by simpa using hblank), he] at h
    cases h
  | case4 c r hblank t r' ht ih =>
    rw [tokenize_cons (by simpa using hblank), ht, ok_bind] at h
    obtain ⟨us, hus, rfl⟩ : ∃ us, tokenize r' = .ok us ∧ t :: us = ts := by
      cases hus : tokenize r' with
      | error e =>
        rw [hus] at h
        cases h
      | ok us =>
        rw [hus] at h
        exact ⟨us, rfl, Except.ok.inj h⟩
    obtain ⟨ls, hcut, rfl⟩ := ih hus
    obtain ⟨l, htext, hends, rfl⟩ := Lexeme.of_lexeme ht
    rw [htext]
    exact ⟨l :: ls, .lexeme (by rwa [List.append_nil]) hcut, rfl⟩

theorem blanks (hw : Blanks w) (h : Cut b a ls) : Cut b (w ++ a) ls := by
  induction w with
  | nil => exact h
  | cons c w ih =>
    obtain ⟨hc, hw⟩ := List.forall_mem_cons.1 hw
    exact .blank hc (ih hw)

/-- Blanks behind a cut leave each lexeme where it ends. -/
theorem before_blanks (hw : Blanks w) (h : Cut b a ls) : Cut (w ++ b) a ls := by
  induction h with
  | nil => exact .nil
  | blank hc h ih => exact .blank hc ih
  | @lexeme l cs ls hl h ih =>
    refine .lexeme ?_ ih
    cases cs with
    | cons c cs => exact hl.congr (r := c :: cs ++ b) rfl
    | nil =>
      cases w with
      | nil => exact hl
      | cons c w =>
        refine l.endsBefore_of_blank ?_
        rintro d ⟨⟩
        exact hw c (List.mem_cons_self ..)

/-- Blanks between two lexemes make no difference. -/
theorem tokenize_insert (hw : Blanks w) (h : Cut b a ls) : tokenize (a ++ (w ++ b)) = tokenize (a ++ b) := by
  have hskip : tokenize (w ++ b) = tokenize b := by
    have hblanks : Cut b (w ++ []) [] := .blanks hw .nil
    rw [List.append_nil] at hblanks
    rw [hblanks.tokenize_append]
    cases tokenize b <;> rfl
  rw [(h.before_blanks hw).tokenize_append, h.tokenize_append, hskip]

/-- Between any two of its lexemes a text comes apart. -/
theorem split {ls' : List Lexeme} {cs : List Char} (h : Cut w cs (ls ++ ls')) :
    ∃ a b, cs = a ++ b ∧ Cut (b ++ w) a ls ∧ Cut w b ls' := by
  generalize hall : ls ++ ls' = all at h
  induction h generalizing ls with
  | nil =>
    obtain ⟨rfl, rfl⟩ := List.append_eq_nil_iff.1 hall
    exact ⟨[], [], rfl, .nil, .nil⟩
  | @blank c cs _ hc h ih =>
    obtain ⟨a, b, rfl, ha, hb⟩ := ih hall
    exact ⟨c :: a, b, rfl, .blank hc ha, hb⟩
  | @lexeme l cs all hl h ih =>
    cases ls with
    | nil =>
      obtain rfl : ls' = l :: all := hall
      exact ⟨[], l.text ++ cs, rfl, .nil, .lexeme hl h⟩
    | cons l' ls =>
      obtain ⟨rfl, hrest⟩ := List.cons.inj hall
      obtain ⟨a, b, rfl, ha, hb⟩ := ih hrest
      refine ⟨l'.text ++ a, b, by rw [List.append_assoc], .lexeme ?_ ha, hb⟩
      rwa [← List.append_assoc]

end Cut

section Spaced

/-- The text of lexemes, each with what is behind it. -/
def written (gs : List (Lexeme × List Char)) : List Char :=
  gs.flatMap fun g => g.1.text ++ g.2

/-- There are blanks behind each lexeme, and at least one that is not behind the last. -/
structure Spaced (gs : List (Lexeme × List Char)) : Prop where
  blanks : ∀ g ∈ gs, Blanks g.2
  between : ∀ g ∈ gs.dropLast, g.2 ≠ []

theorem Spaced.cut {gs : List (Lexeme × List Char)} (h : Spaced gs) : Cut [] (written gs) (gs.map Prod.fst) := by
  induction gs with
  | nil => exact .nil
  | cons g gs ih =>
    obtain ⟨l, gap⟩ := g
    obtain ⟨hgap, hrest⟩ := List.forall_mem_cons.1 h.blanks
    have hnext : Spaced gs := by
      refine ⟨hrest, fun g hg => h.between g ?_⟩
      rw [List.dropLast_cons_of_ne_nil]
      · exact List.mem_cons_of_mem _ hg
      · rintro rfl
        cases hg
    have hends : l.EndsBefore (gap ++ written gs) := by
      refine l.endsBefore_of_blank fun c hc => ?_
      cases gap with
      | cons d gap => exact hgap c (List.mem_of_mem_head? hc)
      | nil =>
        cases gs with
        | nil => cases hc
        | cons g gs => exact absurd rfl (h.between (l, []) (by simp))
    have htext : written ((l, gap) :: gs) = l.text ++ (gap ++ written gs) := by simp [written]
    rw [htext]
    exact .lexeme (by rwa [List.append_nil]) ((ih hnext).blanks hgap)

end Spaced

/-- The scanner cuts a text between characters only and finds tokens just if the text is made of lexemes and blanks;
lexemes with blanks between them are found again, and blanks between two of them make no difference. -/
theorem tokenize_finds_lexemes :
    (∀ s : String, scan s 0 = some (tokenize s.toList)) ∧
      (∀ cs ts, tokenize cs = .ok ts ↔ ∃ ls, Cut [] cs ls ∧ ls.map Lexeme.token = ts) ∧
      (∀ lead gs, Blanks lead → Spaced gs → tokenize (lead ++ written gs) = .ok (gs.map (·.1.token))) ∧
      (∀ cs ls ls', Cut [] cs (ls ++ ls') → ∃ a b, cs = a ++ b ∧ Cut b a ls ∧ Cut [] b ls') ∧
      ∀ a b ls w, Cut b a ls → Blanks w → tokenize (a ++ (w ++ b)) = tokenize (a ++ b) := by
  have hread : ∀ {cs ls}, Cut [] cs ls → tokenize cs = .ok (ls.map Lexeme.token) := by
    intro cs ls h
    have happend := h.tokenize_append
    rw [List.append_nil, tokenize] at happend
    simpa [Except.map] using happend
  refine ⟨scan_eq_tokenize, fun cs ts => ⟨Cut.of_tokenize, ?_⟩, ?_, ?_, ?_⟩
  · rintro ⟨ls, h, rfl⟩
    exact hread h
  · intro lead gs hlead hgs
    rw [hread (hgs.cut.blanks hlead), List.map_map]
    rfl
  · intro cs ls ls' h
    obtain ⟨a, b, hcs, ha, hb⟩ := h.split
    exact ⟨a, b, hcs, by rwa [List.append_nil] at ha, hb⟩
  · exact fun a b ls w h hw => h.tokenize_insert hw

/-- Between a word and an operator blanks may stand. -/
theorem tokenize_finds_lexemes_truth :
    tokenize "\ttrue\n!= false".toList = .ok [.number 1.0, .op .ne, .number 0.0] ∧
      tokenize "true \r!=false".toList = tokenize "true!=false".toList := by
  obtain ⟨-, -, hjoined, -, hinserted⟩ := tokenize_finds_lexemes
  have hends : (Lexeme.word true).EndsBefore ([] ++ "!=false".toList) := by
    rintro c ⟨⟩
    decide
  have hcut : Cut "!=false".toList "true".toList [.word true] := .lexeme hends .nil
  have hspaced : Spaced [(.word true, ['\n']), (.op .ne, [' ']), (.word false, [])] :=
    ⟨by simp [Blanks, isBlank], by simp⟩
  exact ⟨hjoined ['\t'] _ (by simp [Blanks, isBlank]) hspaced,
    hinserted _ _ _ [' ', '\r'] hcut (by simp [Blanks, isBlank])⟩

end Ability.Expression
