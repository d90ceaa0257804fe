import Ability.Compile
import Ability.Proofs.Json.Printer

/-! The structural paths of blocks. A path is an identifier of the user's choice and what the steps down to the
block add to it. No step begins as another one does and the number in it ends at a bracket, so the steps are
found again; and the last step of a path is found from the end of it, whatever the identifier holds. -/

namespace Ability.Compile

/-- One step down in a configuration: to an entry of the effects or of the conditions that are written in it, or
to one of the effects for when the condition does not hold. -/
inductive Step
  | effects (i : Nat)
  | conditions (i : Nat)
  | notMet (i : Nat)
deriving DecidableEq

namespace Step

def text : Step → String
  | effects i => "/" ++ item "effects" i
  | conditions i => "/" ++ item "conditions" i
  | notMet i => "/not_met/" ++ item "effects" i

def written? (config : Json) : Step → Option Json
  | effects i => (config.subsections "effects")[i]?
  | conditions i => (config.subsections "conditions")[i]?
  | notMet i => ((config.subsection "args").subsections "not_met_effects")[i]?

end Step

def holderPath (id : String) : String := "holder:" ++ id

/-- Where a block stands in a configuration: the steps down to it from the top. -/
abbrev Place := List Step

namespace Place

def path (base : String) (p : Place) : String := p.foldl (fun path s => path ++ s.text) base

def written? (config : Json) (p : Place) : Option Json := p.foldlM Step.written? config

end Place

theorem item_toList (list : String) (i : Nat) :
    (item list i).toList = list.toList ++ '[' :: (Nat.toDigits 10 i ++ [']']) := by
  have hopen : "[".toList = ['['] := rfl
  have hclose : "]".toList = [']'] := rfl
  have hdigits : (toString i).toList = Nat.toDigits 10 i := String.toList_ofList
  simp only [item, String.toList_append, hopen, hclose, hdigits, List.append_assoc, List.cons_append,
    List.nil_append]

theorem digits_append_injective {i j : Nat} {c : Char} {x y : List Char} (hc : c.isDigit = false)
    (h : Nat.toDigits 10 i ++ c :: x = Nat.toDigits 10 j ++ c :: y) : i = j ∧ x = y := by
  have hstop : ∀ {z : List Char}, ∀ d ∈ (c :: z).head?, ¬ d.isDigit = true := by
    intro z d hd hdigit
    rw [← Option.some.inj hd, hc] at hdigit
    cases hdigit
  obtain ⟨hdigits, hrest⟩ := append_injective_of_stop (Binary64.isDigit_toDigits i)
    (Binary64.isDigit_toDigits j) hstop hstop h
  have hvalue := congrArg Binary64.digitsValue hdigits
  rw [Binary64.digitsValue_toDigits, Binary64.digitsValue_toDigits] at hvalue
  exact ⟨hvalue, (List.cons.inj hrest).2⟩

theorem item_append_injective {start list : String} {i j : Nat} {x y : List Char}
    (h : (start ++ item list i).toList ++ x = (start ++ item list j).toList ++ y) : i = j ∧ x = y := by
  simp only [String.toList_append, item_toList, List.append_assoc, List.append_cancel_left_eq,
    List.cons_append, List.nil_append, List.cons.injEq, true_and] at h
  exact digits_append_injective rfl h

/-- From its end, a text is parted again into what stands before an entry and the number of the entry. -/
theorem append_item_injective {list : String} {i j : Nat} {x y : List Char}
    (h : x ++ (item list i).toList = y ++ (item list j).toList) : x = y := by
  rw [item_toList, item_toList] at h
  have hreverse := congrArg List.reverse h
  simp only [List.reverse_append, List.reverse_cons, List.append_assoc, List.reverse_nil, List.nil_append,
    List.cons_append, List.cons.injEq, true_and] at hreverse
  have hdigit : ∀ n, ∀ c ∈ (Nat.toDigits 10 n).reverse, c.isDigit = true :=
    fun n c hc => Binary64.isDigit_toDigits n c (List.mem_reverse.mp hc)
  have hstop : ∀ {z : List Char}, ∀ d ∈ ('[' :: z).head?, ¬ d.isDigit = true := by
    rintro z d ⟨⟩
    decide
  obtain ⟨-, hrest⟩ := append_injective_of_stop (hdigit i) (hdigit j) hstop hstop hreverse
  have hbefore := List.append_cancel_left (List.cons.inj hrest).2
  exact List.reverse_injective hbefore

/-- The character after the slash shows of which form a step is. -/
def Step.mark : Step → Char
  | effects _ => 'e'
  | conditions _ => 'c'
  | notMet _ => 'n'

theorem Step.text_mark (s : Step) (x : List Char) : (s.text.toList ++ x)[1]? = some s.mark := by
  cases s <;> simp [text, item, mark]

theorem Step.text_append_injective {s t : Step} {x y : List Char}
    (h : s.text.toList ++ x = t.text.toList ++ y) : s = t ∧ x = y := by
  have hmark : s.mark = t.mark := by
    have hsecond := text_mark s x
    rw [h, text_mark] at hsecond
    exact (Option.some.inj hsecond).symm
  cases s <;> cases t
  case effects.effects => exact (item_append_injective h).imp (congrArg effects) id
  case conditions.conditions => exact (item_append_injective h).imp (congrArg conditions) id
  case notMet.notMet => exact (item_append_injective h).imp (congrArg notMet) id
  all_goals simp [mark] at hmark

theorem Step.text_ne_nil (s : Step) : s.text.toList ≠ [] := by
  intro hnil
  have hmark := s.text_mark []
  rw [hnil] at hmark
  cases hmark

namespace Place

theorem path_toList (base : String) (p : Place) :
    (path base p).toList = base.toList ++ p.flatMap fun s => s.text.toList := by
  induction p generalizing base with
  | nil => exact (List.append_nil _).symm
  | cons s p ih =>
    have hcons : path base (s :: p) = path (base ++ s.text) p := rfl
    rw [hcons, ih, String.toList_append, List.flatMap_cons, List.append_assoc]

theorem flatMap_text_injective : Function.Injective fun p : Place => p.flatMap fun s => s.text.toList := by
  intro p
  induction p with
  | nil =>
    intro q h
    cases q with
    | nil => rfl
    | cons t q => exact absurd (List.append_eq_nil_iff.mp h.symm).1 t.text_ne_nil
  | cons s p ih =>
    intro q h
    cases q with
    | nil => exact absurd (List.append_eq_nil_iff.mp h).1 s.text_ne_nil
    | cons t q =>
      obtain ⟨rfl, hrest⟩ := Step.text_append_injective h
      rw [ih hrest]

/-- Different places below one top have different paths. -/
theorem path_injective (base : String) : Function.Injective (path base) := by
  intro p q h
  have hlist := congrArg String.toList h
  rw [path_toList, path_toList] at hlist
  exact flatMap_text_injective (List.append_cancel_left hlist)

/-- The path of a direct effect tells under what it stands. -/
theorem path_effects_injective {base base' : String} {i j : Nat}
    (h : path base [.effects i] = path base' [.effects j]) : base = base' := by
  have hlist := congrArg String.toList h
  simp only [path, List.foldl_cons, List.foldl_nil, Step.text, String.toList_append] at hlist
  rw [← List.append_assoc, ← List.append_assoc] at hlist
  exact String.toList_inj.mp (List.append_cancel_right (append_item_injective hlist))

theorem path_holder_injective {id id' : String} {i j : Nat}
    (h : path (holderPath id) [.effects i] = path (holderPath id') [.effects j]) : id = id' := by
  have hbase := congrArg String.toList (path_effects_injective h)
  simp only [holderPath, String.toList_append, List.append_cancel_left_eq] at hbase
  exact String.toList_inj.mp hbase

theorem path_holder_ne_chain (id id' : String) (i j : Nat) :
    path (holderPath id) [.effects i] ≠ path (chainPath id') [.effects j] := by
  intro h
  have hbase := congrArg (fun s => s.toList.head?) (path_effects_injective h)
  simp [holderPath, chainPath] at hbase

end Place

end Ability.Compile
