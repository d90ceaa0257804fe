import Ability.Block

/-! Sets of effects, in ascending order of their identifiers. -/

namespace Ability

structure EffectSet where
  members : List Effect
  sorted : members.Pairwise (fun x y => x.id < y.id)

namespace EffectSet

def empty : EffectSet := ⟨[], .nil⟩

instance : Inhabited EffectSet := ⟨empty⟩

def ids (s : EffectSet) : List Uuid := s.members.map (·.id)

def isEmpty (s : EffectSet) : Bool := s.members.isEmpty

def size (s : EffectSet) : Nat := s.members.length

def contains (s : EffectSet) (id : Uuid) : Bool := s.members.any (·.id = id)

/-- Put an effect into an ascending list, in place of the one that is the same. -/
def insertInto (e : Effect) : List Effect → List Effect
  | [] => [e]
  | x :: r =>
    if e.id < x.id then e :: x :: r
    else if x.id < e.id then x :: insertInto e r
    else e :: r

theorem mem_insertInto {e x : Effect} : ∀ {l : List Effect}, x ∈ insertInto e l → x = e ∨ x ∈ l
  | [], h => by simpa [insertInto] using h
  | y :: r, h => by
    unfold insertInto at h
    split at h
    · simpa using h
    · split at h
      · rcases List.mem_cons.mp h with h | h
        · exact .inr (by simp [h])
        · exact (mem_insertInto h).imp id (List.mem_cons_of_mem _)
      · rcases List.mem_cons.mp h with h | h
        · exact .inl h
        · exact .inr (List.mem_cons_of_mem _ h)

theorem insertInto_sorted (e : Effect) : ∀ {l : List Effect}, l.Pairwise (fun x y => x.id < y.id) →
    (insertInto e l).Pairwise (fun x y => x.id < y.id)
  | [], _ => by simp [insertInto]
  | x :: r, h => by
    obtain ⟨hx, hr⟩ := List.pairwise_cons.mp h
    unfold insertInto
    split
    · next he => exact List.pairwise_cons.mpr ⟨fun y hy => by
        rcases List.mem_cons.mp hy with rfl | hy
        · exact he
        · exact Key.trans he (hx y hy), h⟩
    · next he =>
      split
      · next he' => exact List.pairwise_cons.mpr ⟨fun y hy => by
          rcases mem_insertInto hy with rfl | hy
          · exact he'
          · exact hx y hy, insertInto_sorted e hr⟩
      · next he' =>
        have : x.id = e.id := Key.eq_of_not_lt he' he
        exact List.pairwise_cons.mpr ⟨fun y hy => this ▸ hx y hy, hr⟩

def insert (s : EffectSet) (e : Effect) : EffectSet :=
  ⟨insertInto e s.members, insertInto_sorted e s.sorted⟩

/-- Of effects that are the same, the last one is kept. -/
def ofList (l : List Effect) : EffectSet := l.foldl insert empty

def union (s t : EffectSet) : EffectSet := t.members.foldl insert s

def diff (s t : EffectSet) : EffectSet :=
  ⟨s.members.filter fun e => !t.contains e.id, s.sorted.filter _⟩

def same (s t : EffectSet) : Bool := s.ids = t.ids

end EffectSet

end Ability
