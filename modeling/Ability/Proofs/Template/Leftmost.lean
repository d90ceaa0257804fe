import Mathlib.Tactic.ByContra
import Mathlib.Data.List.Basic
import Ability.Proofs.Compile.Kinds
import Ability.Proofs.Template

/-! Filling in as a walk from one reference to the next. What is passed on the way is copied, and the walk goes
on right behind the reference, so that no value is ever looked at. What is filled in leaves a reference over just
when there is one to be found in the result. -/

namespace Ability.Template

/-- A reference to `name` is written behind `before`, and `after` is what follows it. -/
structure Occurs (cs before name after : List Char) : Prop where
  split : cs = before ++ '%' :: (name ++ '%' :: after)
  nonempty : name ≠ []
  names : ∀ c ∈ name, isNameChar c = true

/-- No reference begins further left. -/
structure Leftmost (cs before name after : List Char) : Prop extends Occurs cs before name after where
  first : ∀ before' name' after', Occurs cs before' name' after' → before.length ≤ before'.length

/-- A text is read from the left, one reference after the other. A name that is known is replaced by its value,
and a reference to any other name stays as it is written. -/
inductive Rewritten (p : Placeholders) : List Char → List Char → Prop
  | rest {cs : List Char} (clear : ∀ before name after, ¬ Occurs cs before name after) : Rewritten p cs cs
  | known {cs before name after out : List Char} {value : String} (next : Leftmost cs before name after)
      (found : p.get? (String.ofList name) = some value) (rest : Rewritten p after out) :
      Rewritten p cs (before ++ (value.toList ++ out))
  | unknown {cs before name after out : List Char} (next : Leftmost cs before name after)
      (missing : p.get? (String.ofList name) = none) (rest : Rewritten p after out) :
      Rewritten p cs (before ++ ('%' :: (name ++ '%' :: out)))

variable {p q : Placeholders} {cs before name after out : List Char}

theorem Occurs.append (h : Occurs cs before name after) (u : List Char) :
    Occurs (u ++ cs) (u ++ before) name after where
  split := by rw [h.split, List.append_assoc]
  nonempty := h.nonempty
  names := h.names

theorem Occurs.exists_leftmost {before name after : List Char} (h : Occurs cs before name after) :
    ∃ before name after, Leftmost cs before name after := by
  by_cases hfirst : ∀ before' name' after', Occurs cs before' name' after' → before.length ≤ before'.length
  · exact ⟨before, name, after, h, hfirst⟩
  · push Not at hfirst
    obtain ⟨before', name', after', h', hlt⟩ := hfirst
    exact h'.exists_leftmost
termination_by before.length
decreasing_by omega

theorem Leftmost.length_lt (h : Leftmost cs before name after) : after.length < cs.length := by
  have hlength := congrArg List.length h.split
  simp only [List.length_append, List.length_cons] at hlength
  omega

/-- A percent sign and the name characters behind it stand for themselves if no reference comes of them. -/
theorem pieces_of_open {since r : List Char} (hsince : ∀ c ∈ since, isNameChar c = true)
    (h : ∀ name after, ¬ Occurs ('%' :: (since ++ r)) [] name after) :
    pieces (some since) r = literals ('%' :: since) ++ pieces none r := by
  induction r generalizing since with
  | nil => exact (List.append_nil _).symm
  | cons c r ih =>
    by_cases hpercent : c = '%'
    · subst hpercent
      by_cases hne : since = []
      · subst hne
        rfl
      · exact absurd ⟨rfl, hne, hsince⟩ (h since r)
    by_cases hname : isNameChar c = true
    · have hsince' : ∀ d ∈ since ++ [c], isNameChar d = true := by
        simpa [or_imp, forall_and] using ⟨hsince, hname⟩
      have hopen := ih hsince' (by simpa using h)
      have hread : pieces (some since) (c :: r) = pieces (some (since ++ [c])) r := by
        rw [pieces_some_cons, if_neg hpercent, if_pos hname]
      have hnone : pieces none (c :: r) = .literal c :: pieces none r := by rw [pieces_none_cons, if_neg hpercent]
      rw [hread, hopen, hnone]
      simp [literals]
    · have hhead : ∀ d ∈ (c :: r).head?, isNameChar d = false ∧ d ≠ '%' := by
        intro d hd
        obtain rfl : c = d := Option.some.inj hd
        exact ⟨Bool.eq_false_iff.2 hname, hpercent⟩
      exact pieces_release since hhead

theorem pieces_cons {c : Char} {r : List Char} (h : ∀ name after, ¬ Occurs (c :: r) [] name after) :
    pieces none (c :: r) = .literal c :: pieces none r := by
  by_cases hpercent : c = '%'
  · subst hpercent
    rw [pieces_none_cons, if_pos rfl, pieces_of_open (fun c hc => absurd hc List.not_mem_nil) h]
    rfl
  · rw [pieces_none_cons, if_neg hpercent]

theorem pieces_of_clear (h : ∀ before name after, ¬ Occurs cs before name after) :
    pieces none cs = literals cs := by
  induction cs with
  | nil => rfl
  | cons c r ih =>
    rw [pieces_cons (h []), ih fun before name after hr => h _ _ _ (hr.append [c])]
    rfl

/-- The scanner comes upon the leftmost reference, with everything before it as literals. -/
theorem pieces_of_leftmost (h : Leftmost cs before name after) :
    pieces none cs = literals before ++ .reference name :: pieces none after := by
  induction before generalizing cs with
  | nil =>
    rw [h.split, List.nil_append, pieces_none_cons, if_pos rfl, pieces_reference h.nonempty h.names]
    rfl
  | cons c before ih =>
    obtain ⟨⟨rfl, hne, hname⟩, hfirst⟩ := h
    have hclear : ∀ name' after',
        ¬ Occurs (c :: (before ++ '%' :: (name ++ '%' :: after))) [] name' after' := by
      intro name' after' h'
      exact absurd (hfirst [] name' after' h') (by simp)
    have hnext : Leftmost (before ++ '%' :: (name ++ '%' :: after)) before name after := by
      refine ⟨⟨rfl, hne, hname⟩, fun before' name' after' h' => ?_⟩
      exact Nat.le_of_succ_le_succ (hfirst _ _ _ (h'.append [c]))
    rw [List.cons_append, pieces_cons hclear, ih hnext]
    rfl

theorem Rewritten.eq_fill (h : Rewritten p cs out) : out = (pieces none cs).flatMap (Piece.fill p) := by
  induction h with
  | rest clear => rw [pieces_of_clear clear, flatMap_fill_literals]
  | known next found _ ih =>
    rw [pieces_of_leftmost next, List.flatMap_append, flatMap_fill_literals, List.flatMap_cons, ← ih,
      Piece.fill, found]
  | unknown next missing _ ih =>
    rw [pieces_of_leftmost next, List.flatMap_append, flatMap_fill_literals, List.flatMap_cons, ← ih,
      Piece.fill, missing]
    simp

/-- Every text is rewritten to something: behind a reference there is less to read than before it. -/
theorem exists_rewritten (p : Placeholders) (cs : List Char) : ∃ out, Rewritten p cs out := by
  by_cases hclear : ∀ before name after, ¬ Occurs cs before name after
  · exact ⟨cs, .rest hclear⟩
  · push Not at hclear
    obtain ⟨before, name, after, h⟩ := hclear
    obtain ⟨before, name, after, next⟩ := h.exists_leftmost
    have hshorter := next.length_lt
    obtain ⟨out, hrest⟩ := exists_rewritten p after
    cases hvalue : p.get? (String.ofList name) with
    | some value => exact ⟨_, .known next hvalue hrest⟩
    | none => exact ⟨_, .unknown next hvalue hrest⟩
termination_by cs.length

theorem rewritten_iff : Rewritten p cs out ↔ out = (pieces none cs).flatMap (Piece.fill p) := by
  refine ⟨Rewritten.eq_fill, fun hout => ?_⟩
  obtain ⟨out', h⟩ := exists_rewritten p cs
  rw [hout, ← h.eq_fill]
  exact h

/-- A piece as it is written. -/
def Piece.written : Piece → List Char
  | literal c => [c]
  | reference name => '%' :: (name ++ ['%'])

/-- A character other than a percent sign, or a reference to a name. -/
def Piece.Plain : Piece → Prop
  | literal c => c ≠ '%'
  | reference name => name ≠ [] ∧ ∀ c ∈ name, isNameChar c = true

instance : DecidablePred Piece.Plain
  | .literal c => inferInstanceAs (Decidable (c ≠ '%'))
  | .reference name => @instDecidableAnd (name ≠ []) _ inferInstance (List.decidableBAll _ name)

theorem Piece.fill_empty (x : Piece) : x.fill .empty = x.written := by
  cases x <;> simp [fill, written]

/-- The pieces of a text put together are the text. -/
theorem flatMap_written_pieces (cs : List Char) : (pieces none cs).flatMap Piece.written = cs := by
  have hfill : (pieces none cs).flatMap (Piece.fill .empty) = cs :=
    flatMap_fill_pieces fun _ _ => Table.get?_empty _
  rwa [List.flatMap_congr fun x _ => Piece.fill_empty x] at hfill

theorem pieces_written {ps : List Piece} (h : ∀ x ∈ ps, x.Plain) :
    pieces none (ps.flatMap Piece.written) = ps := by
  induction ps with
  | nil => rfl
  | cons x ps ih =>
    obtain ⟨hx, hps⟩ := List.forall_mem_cons.1 h
    have hrest := ih hps
    rw [List.flatMap_cons]
    cases x with
    | literal c =>
      have hpercent : '%' ∉ [c] := by simpa using Ne.symm hx
      rw [Piece.written, pieces_literals hpercent, hrest]
      rfl
    | reference name =>
      have htext : (Piece.reference name).written ++ ps.flatMap Piece.written =
          '%' :: (name ++ '%' :: ps.flatMap Piece.written) := by simp [Piece.written]
      rw [htext, pieces_none_cons, if_pos rfl, pieces_reference hx.1 hx.2, hrest]

variable {text : String}

theorem fill_toList (p : Placeholders) (text : String) :
    (fill p text).toList = (ofText text).flatMap (Piece.fill p) := String.toList_ofList

theorem fill_congr (h : ∀ name ∈ references text, p.get? name = q.get? name) : fill p text = fill q text := by
  have hpieces : ∀ x ∈ ofText text, x.fill p = x.fill q := by
    intro x hx
    cases x with
    | literal c => rfl
    | reference name => rw [Piece.fill, Piece.fill, h _ (mem_references.2 ⟨name, hx, rfl⟩)]
  rw [fill, fill, List.flatMap_congr hpieces]

theorem references_of_leftmost (h : Leftmost text.toList before name after) :
    ∃ names, references text = String.ofList name :: names := by
  have hpieces : ofText text = literals before ++ .reference name :: pieces none after := pieces_of_leftmost h
  simp [references, hpieces, literals, List.filterMap_map]

theorem exists_leftmost_of_references {names : List String} {found : String}
    (h : references text = found :: names) : ∃ before after, Leftmost text.toList before found.toList after := by
  have hmentions : Mentions text.toList := by
    by_contra hnone
    rw [references_eq_nil_iff.2 hnone] at h
    cases h
  obtain ⟨before, name, after, hsplit, hne, hname⟩ := hmentions
  obtain ⟨before, name, after, hfirst⟩ := Occurs.exists_leftmost ⟨hsplit, hne, hname⟩
  obtain ⟨names', hnames⟩ := references_of_leftmost hfirst
  obtain rfl : found = String.ofList name := (List.cons.inj (h.symm.trans hnames)).1
  refine ⟨before, after, ?_⟩
  rwa [String.toList_ofList]

/-- The first reference that is left over is the one a failure names. -/
theorem evaluate_eq_unresolved_iff {found : String} :
    Expression.evaluate text p = .error (.unresolvedPlaceholder found) ↔
      ∃ before after, Leftmost (fill p text).toList before found.toList after := by
  constructor
  · intro h
    simp only [Expression.evaluate] at h
    split at h
    next first names hnames =>
      obtain rfl : first = found := EngineError.unresolvedPlaceholder.inj (Except.error.inj h)
      exact exists_leftmost_of_references hnames
    next =>
      obtain ⟨fault, hfault⟩ := Expression.exists_fault_of_value h
      cases hfault
  · rintro ⟨before, after, h⟩
    obtain ⟨names, hnames⟩ := references_of_leftmost h
    simp only [Expression.evaluate, hnames, String.ofList_toList]

/-- A text is filled in one pass over its leftmost references. It is made of its pieces, each of which is filled
by itself, and so is every text put together from pieces; only the names it refers to count. An expression is
refused for the first reference that filling leaves over or brings in, and for no other. -/
theorem fill_takes_leftmost (p : Placeholders) (text : String) :
    (∀ out, Rewritten p text.toList out ↔ out = (fill p text).toList) ∧
      ((ofText text).flatMap Piece.written = text.toList ∧
        (fill p text).toList = (ofText text).flatMap (Piece.fill p)) ∧
      (∀ ps : List Piece, (∀ x ∈ ps, x.Plain) →
        fill p (String.ofList (ps.flatMap Piece.written)) = String.ofList (ps.flatMap (Piece.fill p))) ∧
      (∀ q : Placeholders, (∀ name ∈ references text, p.get? name = q.get? name) →
        fill p text = fill q text) ∧
      ∀ found, Expression.evaluate text p = .error (.unresolvedPlaceholder found) ↔
        ∃ before after, Leftmost (fill p text).toList before found.toList after := by
  refine ⟨fun out => ?_, ⟨flatMap_written_pieces _, fill_toList p text⟩, fun ps hps => ?_,
    fun q hq => fill_congr hq, fun found => evaluate_eq_unresolved_iff⟩
  · rw [fill_toList]
    exact rewritten_iff
  · rw [fill, ofText, String.toList_ofList, pieces_written hps]

/-- What is left of a hundred, with signs that open nothing, a name that is not known and a value that looks like
a reference. -/
theorem fill_takes_leftmost_hundred :
    let p : Placeholders := .ofPairs [("hp", "%é%$1 %hp%")]
    let ps : List Piece := [.literal 'é', .reference ['h', 'p'], .literal '/', .reference ['m', 'a', 'x']]
    fill p "100%% of %hp%hp%" = "100%% of %é%$1 %hp%hp%" ∧
      fill p (String.ofList (ps.flatMap Piece.written)) = "é%é%$1 %hp%/%max%" ∧
      fill p "100%% of %hp%hp%" = fill (.ofPairs [("hp", "%é%$1 %hp%"), ("max", "9")]) "100%% of %hp%hp%" ∧
      Expression.evaluate "100%% of %hp%hp%" p = .error (.unresolvedPlaceholder "hp") := by
  intro p ps
  obtain ⟨-, -, hpieces, hagree, hunresolved⟩ := fill_takes_leftmost p "100%% of %hp%hp%"
  have hfilled : fill p "100%% of %hp%hp%" = "100%% of %é%$1 %hp%hp%" := by decide
  have hleft : references (fill p "100%% of %hp%hp%") = ["hp"] := by decide
  have hplain : ∀ x ∈ ps, x.Plain := by decide
  exact ⟨hfilled, (hpieces ps hplain).trans (by decide), hagree _ (by decide),
    (hunresolved "hp").2 (exists_leftmost_of_references hleft)⟩

end Ability.Template
