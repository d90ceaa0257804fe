import Ability.Proofs.Permission.Sheet
import Ability.Proofs.Standing
import Mathlib.Data.List.Induction

/-! Permissions that are edited by hand. Whether a subject has one can be told from the edits alone: it was last put
into the base, or a source granted it and has taken nothing back since. Sources do not touch each other. -/

namespace Ability

inductive PermissionEdit
  | addBase (permission : String)
  | removeBase (permission : String)
  | grant (source : Uuid) (permission : String)
  | revoke (source : Uuid)

namespace PermissionEdit

/-- The edit puts the permission into the base or takes it out. -/
def EditsBase (p : String) (e : PermissionEdit) : Prop := e = .addBase p ∨ e = .removeBase p

/-- The source in whose name the edit is made; the base has none. -/
def source? : PermissionEdit → Option Uuid
  | .addBase _ | .removeBase _ => none
  | .grant i _ | .revoke i => some i

/-- The last edit of the permission in the base put it there. -/
def Based (p : String) (es : List PermissionEdit) : Prop := Stands (· = .addBase p) (EditsBase p) es

/-- The source granted the permission and has taken nothing back since. -/
def Granted (i : Uuid) (p : String) (es : List PermissionEdit) : Prop := Stands (· = .grant i p) (· = .revoke i) es

variable {p : String} {i : Uuid} {es : List PermissionEdit} {e : PermissionEdit}

theorem based_concat : Based p (es ++ [e]) ↔ e = .addBase p ∨ Based p es ∧ ¬ e.EditsBase p := Stands.concat

theorem granted_concat : Granted i p (es ++ [e]) ↔ e = .grant i p ∨ Granted i p es ∧ e ≠ .revoke i := Stands.concat

end PermissionEdit

open PermissionEdit

def Sheet.edit (sh : Sheet) : PermissionEdit → Sheet
  | .addBase p => sh.addBase p
  | .removeBase p => sh.removeBase p
  | .grant i p => sh.grant i p
  | .revoke i => sh.revoke i

namespace Subject

def edit (s : Subject) (e : PermissionEdit) : Subject := s.modify (·.edit e)

def edited (s : Subject) (es : List PermissionEdit) : Subject := es.foldl edit s

end Subject

namespace Sheet

variable {sh : Sheet} {e : PermissionEdit} {i : Uuid} {p : String}

theorem mem_base_edit : p ∈ (sh.edit e).base ↔ e = .addBase p ∨ p ∈ sh.base ∧ ¬ e.EditsBase p := by
  cases e with
  | addBase q =>
    by_cases h : q = p
    · simp [edit, mem_addBase, h]
    · simp [edit, mem_addBase, EditsBase, h, Ne.symm h]
  | removeBase q => simp [edit, mem_removeBase, EditsBase, eq_comm]
  | grant j q => simp [edit, EditsBase]
  | revoke j => simp [edit, EditsBase]

theorem mem_granted_edit :
    (i, p) ∈ (sh.edit e).granted ↔ e = .grant i p ∨ (i, p) ∈ sh.granted ∧ e ≠ .revoke i := by
  cases e with
  | addBase q => simp [edit]
  | removeBase q => simp [edit]
  | grant j q => simp [edit, mem_granted_grant, eq_comm]
  | revoke j => simp [edit, mem_granted_revoke, eq_comm]

theorem mem_base_edited (es : List PermissionEdit) : p ∈ (es.foldl edit .empty).base ↔ Based p es := by
  induction es using List.reverseRecOn with
  | nil => simp [Based, Stands.not_nil, empty]
  | append_singleton es e ih =>
    rw [List.foldl_append, List.foldl_cons, List.foldl_nil, mem_base_edit, ih, based_concat]

theorem mem_granted_edited (es : List PermissionEdit) :
    (i, p) ∈ (es.foldl edit .empty).granted ↔ Granted i p es := by
  induction es using List.reverseRecOn with
  | nil => simp [Granted, Stands.not_nil, empty]
  | append_singleton es e ih =>
    rw [List.foldl_append, List.foldl_cons, List.foldl_nil, mem_granted_edit, ih, granted_concat]

/-- A sheet on which the same is in the base, and the same is granted by the same sources. -/
def SamePermissions (sh sh' : Sheet) : Prop :=
  (∀ p, p ∈ sh.base ↔ p ∈ sh'.base) ∧ ∀ i p, (i, p) ∈ sh.granted ↔ (i, p) ∈ sh'.granted

namespace SamePermissions

variable {sh' : Sheet}

theorem edit (h : SamePermissions sh sh') (e : PermissionEdit) : SamePermissions (sh.edit e) (sh'.edit e) :=
  ⟨fun p => by rw [mem_base_edit, mem_base_edit, h.1], fun i p => by rw [mem_granted_edit, mem_granted_edit, h.2]⟩

theorem foldl_edit (h : SamePermissions sh sh') (es : List PermissionEdit) :
    SamePermissions (es.foldl Sheet.edit sh) (es.foldl Sheet.edit sh') := by
  induction es generalizing sh sh' with
  | nil => exact h
  | cons e es ih => exact ih (h.edit e)

theorem hasPermission (h : SamePermissions sh sh') (p : String) : sh.hasPermission p = sh'.hasPermission p := by
  rw [Bool.eq_iff_iff, hasPermission_iff_mem, hasPermission_iff_mem, h.1]
  simp only [h.2]

end SamePermissions

/-- Edits in the names of different sources can be made in either order. -/
theorem edit_edit {d e : PermissionEdit} (h : d.source? ≠ e.source?) (sh : Sheet) :
    SamePermissions ((sh.edit d).edit e) ((sh.edit e).edit d) := by
  constructor
  · intro p
    simp only [mem_base_edit]
    cases d <;> cases e <;> simp [source?, EditsBase] at h ⊢
  · intro i p
    simp only [mem_granted_edit]
    cases d <;> cases e <;> simp [source?] at h ⊢ <;> grind

theorem edit_grant_of_mem (h : (i, p) ∈ sh.granted) : sh.edit (.grant i p) = sh := by
  simp [edit, grant, h]

end Sheet

namespace Subject

theorem edited_cons (s : Subject) (e : PermissionEdit) (es : List PermissionEdit) :
    s.edited (e :: es) = (s.edit e).edited es := rfl

theorem edited_concat (s : Subject) (es : List PermissionEdit) (e : PermissionEdit) :
    s.edited (es ++ [e]) = (s.edited es).edit e := by
  rw [edited, List.foldl_append]
  rfl

theorem edited_eq (s : Subject) (es : List PermissionEdit) : s.edited es = s.modify (es.foldl Sheet.edit) := by
  induction es generalizing s with
  | nil => simp [edited, modify]
  | cons e es ih => simp [edited_cons, ih, edit, modify, Function.comp_def]

theorem inMemory_edited (id : Uuid) (name : String) (es : List PermissionEdit) :
    (inMemory id name).edited es = ⟨id, name, some (es.foldl Sheet.edit .empty)⟩ := edited_eq ..

theorem hasPermission_edited (id : Uuid) (name : String) (es : List PermissionEdit) (p : String) :
    ((inMemory id name).edited es).hasPermission p = true ↔ Based p es ∨ ∃ i, Granted i p es := by
  have hsheet : ((inMemory id name).edited es).hasPermission p = (es.foldl Sheet.edit .empty).hasPermission p := by
    rw [inMemory_edited]
    rfl
  simp only [hsheet, Sheet.hasPermission_iff_mem, Sheet.mem_base_edited, Sheet.mem_granted_edited]

end Subject

/-- A subject to which nothing but edits of permissions has been done has those that were last put into its base, and
those that a source granted and has not taken back. A source takes back what it granted itself, however often, and
nothing else. To grant again what still stands changes nothing, and edits in the names of different sources may have
been made in either order, whatever is edited later. -/
theorem permissions_follow_edits (id : Uuid) (name : String) (es : List PermissionEdit) :
    let s := (Subject.inMemory id name).edited es
    (∀ p, s.hasPermission p = true ↔ Based p es ∨ ∃ i, Granted i p es) ∧
      (∀ i p, (s.edit (.revoke i)).hasPermission p = true ↔ Based p es ∨ ∃ j, j ≠ i ∧ Granted j p es) ∧
      (∀ i p, Granted i p es → s.edit (.grant i p) = s) ∧
      ∀ d e later, d.source? ≠ e.source? → ∀ p,
        (s.edited (d :: e :: later)).hasPermission p = (s.edited (e :: d :: later)).hasPermission p := by
  intro s
  have hs : s = ⟨id, name, some (es.foldl Sheet.edit .empty)⟩ := Subject.inMemory_edited id name es
  refine ⟨Subject.hasPermission_edited id name es, fun i p => ?_, fun i p hgranted => ?_,
    fun d e later hsources p => ?_⟩
  · have hbased : Based p (es ++ [.revoke i]) ↔ Based p es := by simp [based_concat, EditsBase]
    have hgranted : ∀ j, Granted j p (es ++ [.revoke i]) ↔ j ≠ i ∧ Granted j p es := by
      intro j
      simp [granted_concat, and_comm, eq_comm]
    have hrevoked := Subject.hasPermission_edited id name (es ++ [.revoke i]) p
    rw [Subject.edited_concat] at hrevoked
    simpa only [hbased, hgranted] using hrevoked
  · have hsame : (es.foldl Sheet.edit .empty).edit (.grant i p) = es.foldl Sheet.edit .empty :=
      Sheet.edit_grant_of_mem ((Sheet.mem_granted_edited es).mpr hgranted)
    rw [hs]
    exact congrArg (fun sh => (⟨id, name, some sh⟩ : Subject)) hsame
  · have hsame := ((es.foldl Sheet.edit .empty).edit_edit hsources).foldl_edit later
    have hpermission := hsame.hasPermission p
    rw [hs, Subject.edited_eq, Subject.edited_eq]
    exact hpermission

/-- Flying is granted twice by one source and once by another, which then takes it back. -/
def flights : List PermissionEdit :=
  [.addBase "chat", .grant ⟨1⟩ "fly", .grant ⟨2⟩ "fly", .grant ⟨1⟩ "fly", .revoke ⟨2⟩]

/-- The first source still grants it then, and needs to take it back once. -/
theorem permissions_follow_edits_flights :
    let s := (Subject.inMemory ⟨7⟩ "steve").edited flights
    Granted ⟨1⟩ "fly" flights ∧ s.hasPermission "fly" = true ∧ s.edit (.grant ⟨1⟩ "fly") = s ∧
      (s.edit (.revoke ⟨1⟩)).hasPermission "fly" = false ∧
      (PermissionEdit.revoke ⟨1⟩).source? ≠ (PermissionEdit.grant ⟨2⟩ "fly").source? ∧
      (s.edited [.revoke ⟨1⟩, .grant ⟨2⟩ "fly", .addBase "swim"]).hasPermission "fly" =
        (s.edited [.grant ⟨2⟩ "fly", .revoke ⟨1⟩, .addBase "swim"]).hasPermission "fly" := by
  intro s
  obtain ⟨hhas, -, hagain, hcommute⟩ := permissions_follow_edits ⟨7⟩ "steve" flights
  have hgranted : Granted ⟨1⟩ "fly" flights :=
    ⟨[.addBase "chat", .grant ⟨1⟩ "fly", .grant ⟨2⟩ "fly"], .grant ⟨1⟩ "fly", [.revoke ⟨2⟩], rfl, rfl, by simp⟩
  have hsources : (PermissionEdit.revoke ⟨1⟩).source? ≠ (PermissionEdit.grant ⟨2⟩ "fly").source? := by decide
  exact ⟨hgranted, (hhas "fly").mpr (.inr ⟨⟨1⟩, hgranted⟩), hagain _ _ hgranted, by decide, hsources,
    hcommute _ _ _ hsources "fly"⟩

end Ability
