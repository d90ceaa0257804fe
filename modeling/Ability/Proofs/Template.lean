import Ability.Template

/-! References in a text. A text has one just when a name stands somewhere between two percent signs; where no
reference names anything known, filling leaves the text as it is. -/

namespace Ability.Template

/-- A name stands between two percent signs, somewhere. -/
def Mentions (cs : List Char) : Prop :=
  ∃ u name v, cs = u ++ '%' :: (name ++ '%' :: v) ∧ name ≠ [] ∧ ∀ c ∈ name, isNameChar c = true

/-- A percent sign that is still open and what has been read since, as it is written. -/
def opened : Option (List Char) → List Char
  | none => []
  | some name => '%' :: name

theorem pieces_none_cons (c : Char) (r : List Char) :
    pieces none (c :: r) = if c = '%' then pieces (some []) r else .literal c :: pieces none r := rfl

theorem pieces_some_cons (name : List Char) (c : Char) (r : List Char) : pieces (some name) (c :: r) =
    if c = '%' then
      if name = [] then .literal '%' :: pieces (some []) r
      else .reference name :: pieces none r
    else if isNameChar c then pieces (some (name ++ [c])) r
    else released (some name) ++ .literal c :: pieces none r := rfl

theorem not_isNameChar_percent : isNameChar '%' = false := by decide

theorem reference_notMem_literals (name cs : List Char) : Piece.reference name ∉ literals cs := by
  simp [literals]

theorem flatMap_fill_literals (p : Placeholders) (cs : List Char) :
    (literals cs).flatMap (Piece.fill p) = cs := by
  induction cs with
  | nil => rfl
  | cons c cs ih => exact congrArg (c :: ·) ih

section

variable {pending : Option (List Char)} {cs : List Char}

theorem reference_notMem_released (name : List Char) : Piece.reference name ∉ released pending := by
  cases pending with
  | none => exact List.not_mem_nil
  | some since => exact reference_notMem_literals name _

theorem flatMap_fill_released (p : Placeholders) :
    (released pending).flatMap (Piece.fill p) = opened pending := by
  cases pending with
  | none => rfl
  | some since => exact flatMap_fill_literals ..

/-- Names that stand for nothing stay as they are written. -/
theorem flatMap_fill_pieces {p : Placeholders}
    (h : ∀ name, .reference name ∈ pieces pending cs → p.get? (String.ofList name) = none) :
    (pieces pending cs).flatMap (Piece.fill p) = opened pending ++ cs := by
  fun_induction pieces pending cs with
  | case1 pending =>
    rw [List.append_nil]
    exact flatMap_fill_released p
  | case2 r ih => exact ih h
  | case3 c r hc ih =>
    have hr := ih fun name hname => h name (List.mem_cons_of_mem _ hname)
    exact congrArg (c :: ·) hr
  | case4 r ih =>
    have hr := ih fun name hname => h name (List.mem_cons_of_mem _ hname)
    exact congrArg ('%' :: ·) hr
  | case5 since r hne ih =>
    have hname := h since (List.mem_cons_self ..)
    have hr := ih fun name hname => h name (List.mem_cons_of_mem _ hname)
    rw [List.flatMap_cons, hr, Piece.fill, hname]
    simp [opened]
  | case6 since c r hc hn ih =>
    rw [ih h]
    simp [opened]
  | case7 since c r hc hn ih =>
    have hr := ih fun name hname => h name (List.mem_append_right _ (List.mem_cons_of_mem _ hname))
    rw [List.flatMap_append, List.flatMap_cons, hr, flatMap_fill_released]
    rfl

theorem Mentions.append {cs : List Char} (u : List Char) (h : Mentions cs) : Mentions (u ++ cs) := by
  obtain ⟨v, name, w, rfl, hname⟩ := h
  exact ⟨u ++ v, name, w, (List.append_assoc ..).symm, hname⟩

/-- A reference is read off a percent sign, the name behind it and the next percent sign. -/
theorem mentions_of_reference_mem {name : List Char}
    (hpending : ∀ since ∈ pending, ∀ c ∈ since, isNameChar c = true)
    (h : .reference name ∈ pieces pending cs) : Mentions (opened pending ++ cs) := by
  fun_induction pieces pending cs with
  | case1 pending => exact absurd h (reference_notMem_released name)
  | case2 r ih => exact ih (by simp) h
  | case3 c r hc ih => exact (ih (by simp) (List.mem_of_ne_of_mem (by simp) h)).append [c]
  | case4 r ih => exact (ih (by simp) (List.mem_of_ne_of_mem (by simp) h)).append ['%']
  | case5 since r hne ih => exact ⟨[], since, r, rfl, hne, hpending since rfl⟩
  | case6 since c r hc hn ih =>
    have hsince : ∀ since' ∈ some (since ++ [c]), ∀ c ∈ since', isNameChar c = true := by
      simpa [or_imp, forall_and] using ⟨hpending since rfl, hn⟩
    simpa [opened] using ih hsince h
  | case7 since c r hc hn ih =>
    have hmem := (List.mem_append.1 h).resolve_left (reference_notMem_released name)
    have hlater := (ih (by simp) (List.mem_of_ne_of_mem (by simp) hmem)).append ('%' :: since ++ [c])
    simpa [opened] using hlater

theorem pieces_names (since name r : List Char) (hname : ∀ c ∈ name, isNameChar c = true) :
    pieces (some since) (name ++ r) = pieces (some (since ++ name)) r := by
  induction name generalizing since with
  | nil => rw [List.nil_append, List.append_nil]
  | cons c name ih =>
    obtain ⟨hc, hname⟩ := List.forall_mem_cons.1 hname
    have hpercent : c ≠ '%' := by
      rintro rfl
      exact absurd hc (by simp [not_isNameChar_percent])
    rw [List.cons_append, pieces_some_cons, if_neg hpercent, if_pos hc, ih _ hname, List.append_assoc]
    rfl

theorem pieces_reference {name : List Char} (hne : name ≠ []) (hname : ∀ c ∈ name, isNameChar c = true)
    (r : List Char) : pieces (some []) (name ++ '%' :: r) = .reference name :: pieces none r := by
  rw [pieces_names [] name _ hname, List.nil_append, pieces_some_cons, if_pos rfl, if_neg hne]

theorem pieces_literals {cs : List Char} (h : '%' ∉ cs) (r : List Char) :
    pieces none (cs ++ r) = literals cs ++ pieces none r := by
  induction cs with
  | nil => rfl
  | cons c cs ih =>
    rw [List.mem_cons, not_or] at h
    rw [List.cons_append, pieces_none_cons, if_neg (Ne.symm h.1), ih h.2]
    rfl

/-- An open percent sign comes to nothing before a character that cannot be in a name. -/
theorem pieces_release {r : List Char} (since : List Char)
    (h : ∀ c ∈ r.head?, isNameChar c = false ∧ c ≠ '%') :
    pieces (some since) r = literals ('%' :: since) ++ pieces none r := by
  cases r with
  | nil => exact (List.append_nil _).symm
  | cons c r =>
    obtain ⟨hname, hpercent⟩ := h c rfl
    simp [pieces_none_cons, pieces_some_cons, released, hname, hpercent]

/-- What stands between two percent signs is a reference, unless one of the signs belongs to another. -/
theorem reference_mem_of_mentions (pending : Option (List Char)) (h : Mentions cs) :
    ∃ name, .reference name ∈ pieces pending cs := by
  obtain ⟨u, name, v, rfl, hne, hname⟩ := h
  induction u generalizing pending with
  | nil =>
    have hmem : .reference name ∈ pieces (some []) (name ++ '%' :: v) := by
      rw [pieces_reference hne hname]
      exact List.mem_cons_self ..
    cases pending with
    | none => exact ⟨name, by simpa [pieces_none_cons] using hmem⟩
    | some since =>
      by_cases hsince : since = []
      · exact ⟨name, by simpa [pieces_some_cons, hsince] using hmem⟩
      · exact ⟨since, by simp [pieces_some_cons, hsince]⟩
  | cons c u ih =>
    cases pending with
    | none =>
      rw [List.cons_append, pieces_none_cons]
      split
      · exact ih _
      · obtain ⟨n, hn⟩ := ih none
        exact ⟨n, List.mem_cons_of_mem _ hn⟩
    | some since =>
      rw [List.cons_append, pieces_some_cons]
      split
      · split
        · obtain ⟨n, hn⟩ := ih (some [])
          exact ⟨n, List.mem_cons_of_mem _ hn⟩
        · exact ⟨since, List.mem_cons_self ..⟩
      · split
        · exact ih _
        · obtain ⟨n, hn⟩ := ih none
          exact ⟨n, List.mem_append_right _ (List.mem_cons_of_mem _ hn)⟩

end

variable {text : String}

theorem mem_references {name : String} :
    name ∈ references text ↔ ∃ cs, .reference cs ∈ ofText text ∧ String.ofList cs = name := by
  unfold references
  rw [List.mem_filterMap]
  constructor
  · rintro ⟨_ | cs, hmem, hname⟩
    · cases hname
    · exact ⟨cs, hmem, Option.some.inj hname⟩
  · rintro ⟨cs, hmem, hname⟩
    exact ⟨.reference cs, hmem, congrArg some hname⟩

theorem references_eq_nil_iff : references text = [] ↔ ¬ Mentions text.toList := by
  rw [List.eq_nil_iff_forall_not_mem]
  constructor
  · intro h hmentions
    obtain ⟨cs, hcs⟩ := reference_mem_of_mentions none hmentions
    exact h _ (mem_references.2 ⟨cs, hcs, rfl⟩)
  · intro h name hname
    obtain ⟨cs, hcs, -⟩ := mem_references.1 hname
    have hmem : .reference cs ∈ pieces none text.toList := hcs
    exact h (mentions_of_reference_mem (by simp) hmem)

theorem fill_eq_self {p : Placeholders} (h : ∀ name ∈ references text, p.get? name = none) :
    fill p text = text := by
  have hpieces : (ofText text).flatMap (Piece.fill p) = text.toList :=
    flatMap_fill_pieces fun cs hcs => h _ (mem_references.2 ⟨cs, hcs, rfl⟩)
  rw [fill, hpieces, String.ofList_toList]

theorem fill_of_not_mentions (p : Placeholders) (h : ¬ Mentions text.toList) : fill p text = text := by
  refine fill_eq_self fun name hname => ?_
  rw [references_eq_nil_iff.2 h] at hname
  cases hname

theorem not_mentions_of_notMem {cs : List Char} (h : '%' ∉ cs) : ¬ Mentions cs := by
  rintro ⟨u, name, v, rfl, -⟩
  simp at h

/-- A text that is a single reference is filled with what its name stands for. -/
theorem fill_reference {p : Placeholders} {name : List Char} {value : String} (hne : name ≠ [])
    (hname : ∀ c ∈ name, isNameChar c = true) (hvalue : p.get? (String.ofList name) = some value) :
    fill p (String.ofList ('%' :: (name ++ ['%']))) = value := by
  have hpieces : pieces none ('%' :: (name ++ ['%'])) = [.reference name] := by
    rw [pieces_none_cons, if_pos rfl, pieces_reference hne hname]
    rfl
  rw [fill, ofText, String.toList_ofList, hpieces, List.flatMap_singleton, Piece.fill, hvalue,
    String.ofList_toList]

end Ability.Template
