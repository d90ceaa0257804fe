import Ability.Settings.Basic

/-! The settings files of a directory. The name of a file ends in that of its form; so where the directory holds only
the files that a service asks for, one of them can stand in for another that is missing, and for the default one, but
the default file stands in for none. -/

namespace Ability.Settings

theorem splitOn_append {α : Type} [DecidableEq α] {sep : α} {r : List α} (hr : sep ∉ r) (l : List α) :
    ∃ parts last, (l ++ r).splitOn sep = parts ++ [last ++ r] := by
  induction l with
  | nil => exact ⟨[], [], List.splitOn_eq_singleton hr⟩
  | cons x l ih =>
    obtain ⟨parts, last, h⟩ := ih
    rw [List.cons_append, List.splitOn_cons_eq_if_modifyHead, h]
    split
    · exact ⟨[] :: parts, last, rfl⟩
    · cases parts with
      | nil => exact ⟨[], x :: last, rfl⟩
      | cons part parts => exact ⟨(x :: part) :: parts, last, rfl⟩

namespace Files

theorem append_toml_leads (cs : List Char) : cs ++ ".toml".toList ≠ [] ∧ cs ++ ".toml".toList ≠ ['.'] := by
  constructor <;>
  · intro h
    have hlength := congrArg List.length h
    simp at hlength

/-- The name of the file of a name ends in that of its form. -/
theorem nameAt?_toml {name file : String} (h : nameAt? (name ++ ".toml") = some file) :
    ∃ start, file.toList = start ++ ".toml".toList := by
  have hplain : '/' ∉ ".toml".toList := by decide
  obtain ⟨parts, last, hparts⟩ := splitOn_append hplain name.toList
  unfold nameAt? at h
  rw [String.toList_append, hparts, List.filter_append,
    List.filter_cons_of_pos (p := fun part => part ≠ [] ∧ part ≠ ['.']) (decide_eq_true (append_toml_leads last)),
    List.filter_nil] at h
  cases hkept : parts.filter fun part => part ≠ [] ∧ part ≠ ['.'] with
  | nil =>
    rw [hkept, List.nil_append] at h
    obtain ⟨-, h⟩ := Option.ite_none_left_eq_some.1 h
    exact ⟨last, by rw [← Option.some.inj h, String.toList_ofList]⟩
  | cons part rest =>
    rw [hkept] at h
    cases rest <;> cases h

theorem nameAt?_ne_json {name file other : String} (h : nameAt? (name ++ ".toml") = some file) :
    file ≠ other ++ ".json" := by
  rintro rfl
  obtain ⟨start, hstart⟩ := nameAt?_toml h
  have hend := congrArg (fun cs => cs.reverse.take 5) hstart
  simp at hend

/-- A name that is no path is the name of its own file. -/
theorem nameAt?_plain {name : String} (h : '/' ∉ name.toList) :
    nameAt? (name ++ ".toml") = some (name ++ ".toml") := by
  have hplain : '/' ∉ (name ++ ".toml").toList := by simpa using h
  have hleads := append_toml_leads name.toList
  rw [← String.toList_append] at hleads
  have hstart : (name ++ ".toml").startsWith "/" = false := by
    rw [String.startsWith_string_eq_false_iff]
    exact fun hslash => hplain (hslash.subset (List.mem_singleton_self _))
  unfold nameAt?
  rw [List.splitOn_eq_singleton hplain,
    List.filter_cons_of_pos (p := fun part => part ≠ [] ∧ part ≠ ['.']) (decide_eq_true hleads), List.filter_nil]
  simp only [hstart, Bool.false_eq_true, if_false, String.ofList_toList]

theorem nameAt?_default : nameAt? ("default" ++ ".toml") = some "default.toml" := nameAt?_plain (by decide)

/-- The default file does not have the ending twice. -/
theorem ne_default_of_nameAt? {name file other : String} (hfile : nameAt? (name ++ ".toml") = some file)
    (hother : nameAt? (other ++ ".toml") = some (file ++ ".toml")) : other ≠ "default" := by
  rintro rfl
  obtain ⟨start, hstart⟩ := nameAt?_toml hfile
  have hsame := congrArg String.toList (Option.some.inj (hother.symm.trans nameAt?_default))
  have hend := congrArg (fun cs => (cs.reverse.drop 5).take 5) hsame
  simp [hstart] at hend

theorem append_toml_ne {name file : String} (hfile : nameAt? (name ++ ".toml") = some file) :
    file ++ ".toml" ≠ ".toml" := by
  obtain ⟨start, hstart⟩ := nameAt?_toml hfile
  intro heq
  have hlength := congrArg (fun t => t.toList.length) heq
  simp [hstart] at hlength

/-- The layer of the file of a name, if it is there. A file without a name before its ending sets nothing. -/
def own? (files : Files) (name : String) : Option Layer :=
  match nameAt? (name ++ ".toml") with
  | none => some []
  | some file =>
    match files.text? file with
    | some s => if file = ".toml" then some [] else Toml.layer? s
    | none => some []

/-- The directory holds the files of these names and no others. -/
def Only (files : Files) (names : List String) : Prop :=
  ∀ f ∈ files, ∃ name ∈ names, nameAt? (name ++ ".toml") = some f.1

theorem mem_of_text? {files : Files} {file text : String} (h : files.text? file = some text) :
    ∃ s, (file, s) ∈ files := by
  obtain ⟨s, hs, -⟩ := Option.map_eq_some_iff.1 h
  obtain ⟨before, after, hfiles, -⟩ := List.lookup_eq_some_iff.1 hs
  exact ⟨s, hfiles ▸ by simp⟩

theorem own?_of_text? {files : Files} {name file text : String} (hfile : nameAt? (name ++ ".toml") = some file)
    (hne : file ≠ ".toml") (htext : files.text? file = some text) : files.own? name = Toml.layer? text := by
  simp only [own?, hfile, htext, if_neg hne]

/-- Where a file is missing, the one that is taken in its place is of another name, and not the default one. -/
theorem layer?_eq_own? {files : Files} {names : List String} (h : files.Only ("default" :: names)) (name : String) :
    files.layer? name = files.own? name ∨
      files.own? name = some [] ∧ ∃ other ∈ names, files.layer? name = files.own? other := by
  cases hfile : nameAt? (name ++ ".toml") with
  | none => exact .inl (by simp only [layer?, own?, hfile])
  | some file =>
    cases hown : files.text? file with
    | some s => exact .inl (by simp only [layer?, own?, hfile, hown])
    | none =>
      cases htoml : files.text? (file ++ ".toml") with
      | some s =>
        obtain ⟨_, hmem⟩ := mem_of_text? htoml
        obtain ⟨other, hother, hat⟩ := h _ hmem
        have hothers : other ∈ names := (List.mem_cons.1 hother).resolve_left (ne_default_of_nameAt? hfile hat)
        refine .inr ⟨by simp only [own?, hfile, hown], other, hothers, ?_⟩
        rw [own?_of_text? hat (append_toml_ne hfile) htoml]
        simp only [layer?, hfile, hown, htoml]
      | none =>
        cases hjson : files.text? (file ++ ".json") with
        | some s =>
          -- No file that is asked for ends so, and there are no others.
          obtain ⟨_, hmem⟩ := mem_of_text? hjson
          obtain ⟨other, -, hat⟩ := h _ hmem
          exact absurd rfl (nameAt?_ne_json hat)
        | none => exact .inl (by simp only [layer?, own?, hfile, hown, htoml, hjson])

end Files

end Ability.Settings
