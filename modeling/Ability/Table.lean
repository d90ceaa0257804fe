/-!
Finite maps kept as lists in ascending key order. Two tables with the same bindings are equal, and
the order of the entries is the order in which they are shown.
-/

namespace Ability

/-- Keys are compared by a strict linear order. -/
class Key (κ : Type) extends LT κ where
  decEq : DecidableEq κ
  decLt : DecidableLT κ
  irrefl : ∀ a : κ, ¬ a < a
  trans : ∀ {a b c : κ}, a < b → b < c → a < c
  eq_of_not_lt : ∀ {a b : κ}, ¬ a < b → ¬ b < a → a = b

instance (priority := low) Key.toDecidableEq {κ : Type} [Key κ] : DecidableEq κ := Key.decEq

instance (priority := low) Key.toDecidableLT {κ : Type} [Key κ] : DecidableLT κ := Key.decLt

instance : Key String where
  decEq := inferInstance
  decLt := inferInstance
  irrefl := String.lt_irrefl
  trans := String.lt_trans
  eq_of_not_lt h₁ h₂ := String.le_antisymm (String.not_lt.mp h₂) (String.not_lt.mp h₁)

/-- A map from `κ` to `α` whose entries ascend strictly by key. -/
structure Table (κ : Type) [Key κ] (α : Type) where
  entries : List (κ × α)
  sorted : entries.Pairwise (fun x y => x.1 < y.1)

namespace Table

variable {κ : Type} [Key κ] {α β : Type}

@[ext] theorem ext {s t : Table κ α} (h : s.entries = t.entries) : s = t := by
  cases s; cases t; cases h; rfl

def empty : Table κ α := ⟨[], .nil⟩

instance : Inhabited (Table κ α) := ⟨empty⟩

def get? (t : Table κ α) (k : κ) : Option α :=
  (t.entries.find? fun e => e.1 = k).map (·.2)

def contains (t : Table κ α) (k : κ) : Bool := (t.get? k).isSome

def keys (t : Table κ α) : List κ := t.entries.map (·.1)

def values (t : Table κ α) : List α := t.entries.map (·.2)

def size (t : Table κ α) : Nat := t.entries.length

def isEmpty (t : Table κ α) : Bool := t.entries.isEmpty

/-- Put one binding into an ascending list, in place of the one with the same key. -/
def insertEntry (k : κ) (v : α) : List (κ × α) → List (κ × α)
  | [] => [(k, v)]
  | e :: r =>
    if k < e.1 then (k, v) :: e :: r
    else if e.1 < k then e :: insertEntry k v r
    else (k, v) :: r

theorem mem_insertEntry {k : κ} {v : α} {x : κ × α} :
    ∀ {l : List (κ × α)}, x ∈ insertEntry k v l → x = (k, v) ∨ x ∈ l
  | [], h => by simpa [insertEntry] using h
  | e :: r, h => by
    unfold insertEntry at h
    split at h
    · simpa using h
    · split at h
      · rcases List.mem_cons.mp h with h | h
        · exact .inr (by simp [h])
        · exact (mem_insertEntry h).imp id (List.mem_cons_of_mem _)
      · rcases List.mem_cons.mp h with h | h
        · exact .inl h
        · exact .inr (List.mem_cons_of_mem _ h)

theorem insertEntry_sorted (k : κ) (v : α) :
    ∀ {l : List (κ × α)}, l.Pairwise (fun x y => x.1 < y.1) →
      (insertEntry k v l).Pairwise (fun x y => x.1 < y.1)
  | [], _ => by simp [insertEntry]
  | e :: r, h => by
    obtain ⟨he, hr⟩ := List.pairwise_cons.mp h
    unfold insertEntry
    split
    · next hk => exact List.pairwise_cons.mpr ⟨fun y hy => by
        rcases List.mem_cons.mp hy with rfl | hy
        · exact hk
        · exact Key.trans hk (he y hy), h⟩
    · next hk =>
      split
      · next hk' => exact List.pairwise_cons.mpr ⟨fun y hy => by
          rcases mem_insertEntry hy with rfl | hy
          · exact hk'
          · exact he y hy, insertEntry_sorted k v hr⟩
      · next hk' =>
        have : e.1 = k := Key.eq_of_not_lt hk' hk
        exact List.pairwise_cons.mpr ⟨fun y hy => this ▸ he y hy, hr⟩

def insert (t : Table κ α) (k : κ) (v : α) : Table κ α :=
  ⟨insertEntry k v t.entries, insertEntry_sorted k v t.sorted⟩

def erase (t : Table κ α) (k : κ) : Table κ α :=
  ⟨t.entries.filter fun e => e.1 ≠ k, t.sorted.filter _⟩

/-- Put the bindings one after the other, so that a later one replaces an earlier one. -/
def insertAll (t : Table κ α) (l : List (κ × α)) : Table κ α :=
  l.foldl (fun t e => t.insert e.1 e.2) t

def ofList (l : List (κ × α)) : Table κ α := empty.insertAll l

/-- All bindings of `s` and `t`; where both bind a key, `t` is followed. -/
def merge (s t : Table κ α) : Table κ α := s.insertAll t.entries

@[simp] theorem get?_empty (k : κ) : (empty : Table κ α).get? k = none := rfl

theorem find?_insertEntry (k j : κ) (v : α) :
    ∀ l : List (κ × α), ((insertEntry k v l).find? fun e => e.1 = j) =
      if k = j then some (k, v) else l.find? fun e => e.1 = j
  | [] => by by_cases h : k = j <;> simp [insertEntry, h]
  | e :: r => by
    have ih := find?_insertEntry k j v r
    unfold insertEntry
    split
    · by_cases h : k = j <;> simp [List.find?_cons, h]
    · next h₁ =>
      split
      · next h₂ =>
        have hne : e.1 ≠ k := fun h => Key.irrefl k (h ▸ h₂)
        by_cases h : e.1 = j
        · have : k ≠ j := fun h' => hne (h.trans h'.symm)
          simp [h, this]
        · simp [h, ih]
      · next h₂ =>
        have he : e.1 = k := Key.eq_of_not_lt h₂ h₁
        by_cases h : k = j <;> simp [h, he]

theorem get?_insert (t : Table κ α) (k j : κ) (v : α) :
    (t.insert k v).get? j = if k = j then some v else t.get? j := by
  unfold get? insert
  rw [find?_insertEntry k j v t.entries]
  split <;> rfl

theorem get?_erase (t : Table κ α) (k j : κ) :
    (t.erase k).get? j = if k = j then none else t.get? j := by
  unfold get? erase
  rw [List.find?_filter]
  split
  · next h => subst h; simp
  · next h =>
    congr 2
    funext e
    by_cases he : e.1 = j
    · have : ¬ e.1 = k := fun h' => h (h'.symm.trans he)
      simp [he, Ne.symm h]
    · simp [he]

theorem get?_eq_none_iff {t : Table κ α} {k : κ} : t.get? k = none ↔ k ∉ t.keys := by
  simp only [get?, keys, Option.map_eq_none_iff, List.find?_eq_none, decide_eq_true_eq, List.mem_map,
    not_exists, not_and]

theorem keys_nodup (t : Table κ α) : t.keys.Nodup := by
  rw [keys, List.nodup_iff_pairwise_ne, List.pairwise_map]
  refine t.sorted.imp ?_
  intro x y hxy heq
  exact Key.irrefl y.1 (heq ▸ hxy)

end Table

end Ability
