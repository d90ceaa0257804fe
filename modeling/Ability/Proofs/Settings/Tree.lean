import Ability.Settings.Layer

/-! What trees of settings hold at paths of keys. Where layers agree on what is a table, laying one more over a tree
leaves at each path what that layer gives there, or else what was there before. -/

namespace Ability.Settings

/-- What there is at a place, without what is below it. -/
inductive Content
  | table
  | value (v : Value)
  | other

/-- Which paths of keys lead to tables. -/
abbrev Plan := List String → Prop

def Plan.under (plan : Plan) (key : String) : Plan := fun p => plan (key :: p)

namespace Tree

def content : Tree → Content
  | table _ => .table
  | value v => .value v
  | list _ => .other
  | nothing => .other

def reading? : List String → Tree → Option Content
  | [], t => some t.content
  | k :: p, t => (t.child? k).bind (reading? p)

mutual

/-- What a tree brings to a path when it is merged into another; of entries with one key the last that does counts. -/
def given? : Tree → List String → Option Content
  | t, [] => some t.content
  | table es, k :: p => entriesGiven? es k p
  | _, _ :: _ => none

def entriesGiven? : List (String × Tree) → String → List String → Option Content
  | [], _, _ => none
  | (key, t) :: es, k, p => (entriesGiven? es k p).or (if key = k then t.given? p else none)

end

mutual

/-- The tables in the tree are those of the plan. -/
def Agrees : Tree → Plan → Prop
  | table es, plan => plan [] ∧ EntriesAgree es plan
  | value _, plan | list _, plan | nothing, plan => ¬ plan []

def EntriesAgree : List (String × Tree) → Plan → Prop
  | [], _ => True
  | (key, t) :: es, plan => t.Agrees (plan.under key) ∧ EntriesAgree es plan

end

attribute [simp] reading? given? entriesGiven? Agrees EntriesAgree

/-- Nothing is held below a path that is no table in the plan. -/
def Within (t : Tree) (plan : Plan) : Prop := ∀ p k r, ¬ plan p → t.reading? (p ++ k :: r) = none

theorem given?_nil (t : Tree) : t.given? [] = some t.content := by cases t <;> rw [given?]

mutual

/-- A tree that agrees with the plan brings nothing below what is no table in it. -/
theorem Agrees.given?_below {t : Tree} {plan : Plan} (ht : t.Agrees plan) {p : List String} (hp : ¬ plan p)
    (k : String) (r : List String) : t.given? (p ++ k :: r) = none := by
  match t with
  | table es =>
    rw [Agrees] at ht
    cases p with
    | nil => exact absurd ht.1 hp
    | cons j p =>
      rw [List.cons_append, given?]
      exact entriesGiven?_below ht.2 hp k r
  | value v => cases p <;> simp
  | list ts => cases p <;> simp
  | nothing => cases p <;> simp

theorem entriesGiven?_below {es : List (String × Tree)} {plan : Plan} (hes : EntriesAgree es plan) {j : String}
    {p : List String} (hp : ¬ plan (j :: p)) (k : String) (r : List String) :
    entriesGiven? es j (p ++ k :: r) = none := by
  match es with
  | [] => rw [entriesGiven?]
  | (key, t) :: es =>
    rw [EntriesAgree] at hes
    rw [entriesGiven?, entriesGiven?_below hes.2 hp, Option.none_or]
    split
    · next hkey =>
      subst hkey
      have hunder : ¬ plan.under key p := hp
      exact hes.1.given?_below hunder k r
    · rfl

end

mutual

/-- What it brings is a table just where the plan has one. -/
theorem Agrees.given?_table {t : Tree} {plan : Plan} (ht : t.Agrees plan) {p : List String} {c : Content}
    (hc : t.given? p = some c) : c = .table ↔ plan p := by
  match t, p with
  | table es, [] =>
    rw [Agrees] at ht
    obtain rfl := Option.some.inj (given?_nil _ ▸ hc)
    exact iff_of_true rfl ht.1
  | table es, k :: p =>
    rw [Agrees] at ht
    rw [given?] at hc
    exact entriesGiven?_table ht.2 hc
  | value v, [] | list ts, [] | nothing, [] =>
    rw [Agrees] at ht
    obtain rfl := Option.some.inj (given?_nil _ ▸ hc)
    exact iff_of_false nofun ht
  | value v, k :: p | list ts, k :: p | nothing, k :: p => cases hc

theorem entriesGiven?_table {es : List (String × Tree)} {plan : Plan} (hes : EntriesAgree es plan) {k : String}
    {p : List String} {c : Content} (hc : entriesGiven? es k p = some c) : c = .table ↔ plan (k :: p) := by
  match es with
  | [] =>
    rw [entriesGiven?] at hc
    cases hc
  | (key, t) :: es =>
    rw [EntriesAgree] at hes
    rw [entriesGiven?, Option.or_eq_some_iff] at hc
    rcases hc with hc | ⟨-, hc⟩
    · exact entriesGiven?_table hes.2 hc
    · split at hc
      · next hkey =>
        subst hkey
        have hunder : c = .table ↔ plan.under key p := hes.1.given?_table hc
        exact hunder
      · cases hc

end

theorem child?_alterEntry (f : Tree → Tree) (key : String) (es : List (String × Tree)) (k : String) :
    (table (alterEntry f key es)).child? k =
      if key = k then some (f (((table es).child? k).getD nothing)) else (table es).child? k := by
  induction es with
  | nil => by_cases h : key = k <;> simp [alterEntry, child?, entries, h]
  | cons e es ih =>
    simp only [child?, entries] at ih ⊢
    rw [alterEntry]
    split
    · next he => by_cases h : key = k <;> simp [he, h]
    · next he =>
      rw [List.find?_cons, List.find?_cons]
      by_cases hk : e.1 = k
      · have h : key ≠ k := fun h => he (hk.trans h.symm)
        simp [hk, h]
      · simpa [hk] using ih

theorem reading?_cons_entries (t : Tree) (k : String) (p : List String) :
    t.reading? (k :: p) = (table t.entries).reading? (k :: p) := rfl

theorem Within.child {t : Tree} {plan : Plan} (ht : t.Within plan) (key : String) :
    ((t.child? key).getD nothing).Within (plan.under key) := by
  intro p k r hp
  cases hchild : t.child? key with
  | none => cases p <;> rfl
  | some u =>
    have hnone := ht (key :: p) k r hp
    rwa [List.cons_append, reading?, hchild] at hnone

/-- A change under a key that leaves what `g` gives at each path, or else what was there, does so one key above. -/
theorem reading?_alterEntry {f : Tree → Tree} {g : List String → Option Content} {plan : Plan} {key : String}
    {es : List (String × Tree)} (hes : (table es).Within plan) (hg : (g []).isSome = true)
    (hf : ∀ t : Tree, t.Within (plan.under key) → ∀ p, (f t).reading? p = (g p).or (t.reading? p)) (k : String)
    (p : List String) : (table (alterEntry f key es)).reading? (k :: p) =
      (if key = k then g p else none).or ((table es).reading? (k :: p)) := by
  rw [reading?, child?_alterEntry]
  split
  · next hkey =>
    subst hkey
    rw [Option.bind_some, hf _ (hes.child key), reading?]
    cases (table es).child? key with
    | some u => rfl
    | none =>
      cases p with
      | nil =>
        obtain ⟨c, hc⟩ := Option.isSome_iff_exists.1 hg
        simp [hc]
      | cons j p => rfl
  · rw [Option.none_or, reading?]

theorem Within.alterEntry {f : Tree → Tree} {g : List String → Option Content} {plan : Plan} {key : String}
    {es : List (String × Tree)} (hes : (table es).Within plan) (hroot : plan [])
    (hg : ∀ p k r, ¬ plan.under key p → g (p ++ k :: r) = none)
    (hf : ∀ k p, (table (alterEntry f key es)).reading? (k :: p) =
      (if key = k then g p else none).or ((table es).reading? (k :: p))) :
    (table (alterEntry f key es)).Within plan := by
  intro p k r hp
  cases p with
  | nil => exact absurd hroot hp
  | cons j p =>
    have hold := hes (j :: p) k r hp
    rw [List.cons_append] at hold ⊢
    rw [hf, hold, Option.or_none]
    split
    · next hkey =>
      subst hkey
      exact hg p k r hp
    · rfl

theorem Within.entries {t : Tree} {plan : Plan} (ht : t.Within plan) : (table t.entries).Within plan := by
  intro p
  cases p with
  | nil => exact ht []
  | cons j p => exact ht (j :: p)

theorem content_merge (b t : Tree) : (b.merge t).content = t.content := by cases t <;> simp [merge, content]

/-- What is no table leaves nothing of what was there. -/
theorem reading?_merge_leaf {t : Tree} (hleaf : ∀ es, t ≠ table es) {plan : Plan} (ht : t.Agrees plan) {b : Tree}
    (hb : b.Within plan) (k : String) (p : List String) :
    (b.merge t).reading? (k :: p) = (t.given? (k :: p)).or (b.reading? (k :: p)) := by
  have hplan : ¬ plan [] := by
    cases t with
    | table es => exact absurd rfl (hleaf es)
    | _ => rwa [Agrees] at ht
  have hgiven : t.given? (k :: p) = none := ht.given?_below hplan k p
  have hbelow : b.reading? (k :: p) = none := hb [] k p hplan
  rw [hgiven, hbelow]
  cases t with
  | table es => exact absurd rfl (hleaf es)
  | _ => simp [merge, reading?, child?, Tree.entries]

mutual

/-- Merging leaves at each path what the upper tree brings there, or else what was there. -/
theorem reading?_merge (t : Tree) {plan : Plan} (ht : t.Agrees plan) (b : Tree) (hb : b.Within plan)
    (p : List String) : (b.merge t).reading? p = (t.given? p).or (b.reading? p) := by
  match t, p with
  | t, [] => rw [given?_nil, reading?, content_merge, Option.some_or]
  | table es, k :: p =>
    rw [Agrees] at ht
    rw [merge, given?, reading?_cons_entries b]
    exact reading?_mergeEntries es ht.1 ht.2 b.entries hb.entries k p
  | value v, k :: p => exact reading?_merge_leaf (by simp) ht hb k p
  | list ts, k :: p => exact reading?_merge_leaf (by simp) ht hb k p
  | nothing, k :: p => exact reading?_merge_leaf (by simp) ht hb k p

theorem reading?_mergeEntries (es : List (String × Tree)) {plan : Plan} (hroot : plan []) (hes : EntriesAgree es plan)
    (bs : List (String × Tree)) (hbs : (table bs).Within plan) (k : String) (p : List String) :
    (table (mergeEntries bs es)).reading? (k :: p) = (entriesGiven? es k p).or ((table bs).reading? (k :: p)) := by
  match es with
  | [] => rw [mergeEntries, entriesGiven?, Option.none_or]
  | (key, t) :: es =>
    rw [EntriesAgree] at hes
    -- The first entry goes in before the others, which then count before it.
    have hone := reading?_alterEntry hbs (by simp) fun b => reading?_merge t hes.1 b
    have hwithin := hbs.alterEntry hroot (fun p k r hp => hes.1.given?_below hp k r) hone
    rw [mergeEntries, reading?_mergeEntries es hroot hes.2 _ hwithin, hone, entriesGiven?, Option.or_assoc]

end

end Tree

namespace Address

/-- What setting a tree at an address brings to a path. On the way to a key there is a table, on the way to a position
something else. -/
def given? : Address → Tree → List String → Option Content
  | [], t, p => t.given? p
  | .key _ :: _, _, [] => some .table
  | .key key :: a, t, k :: p => if key = k then given? a t p else none
  | .index _ :: _, _, [] => some .other
  | .index _ :: _, _, _ :: _ => none

def Agrees : Address → Tree → Plan → Prop
  | [], t, plan => t.Agrees plan
  | .key key :: a, t, plan => plan [] ∧ Agrees a t (plan.under key)
  | .index _ :: _, _, plan => ¬ plan []

attribute [simp] given? Agrees

variable {a : Address} {t : Tree} {plan : Plan}

theorem given?_nil_isSome (a : Address) (t : Tree) : (a.given? t []).isSome = true := by
  match a with
  | [] => simp
  | .key _ :: _ => rfl
  | .index _ :: _ => rfl

theorem Agrees.given?_below (h : a.Agrees t plan) {p : List String} (hp : ¬ plan p) (k : String) (r : List String) :
    a.given? t (p ++ k :: r) = none := by
  induction a generalizing plan p with
  | nil => exact Tree.Agrees.given?_below h hp k r
  | cons s a ih =>
    cases s with
    | index i => cases p <;> rfl
    | key key =>
      obtain ⟨hroot, ha⟩ := h
      cases p with
      | nil => exact absurd hroot hp
      | cons j p =>
        rw [List.cons_append, given?]
        split
        · next hkey =>
          subst hkey
          exact ih ha hp
        · rfl

theorem Agrees.given?_table (h : a.Agrees t plan) {p : List String} {c : Content} (hc : a.given? t p = some c) :
    c = .table ↔ plan p := by
  induction a generalizing plan p with
  | nil => exact Tree.Agrees.given?_table h hc
  | cons s a ih =>
    cases s with
    | index i =>
      cases p with
      | nil =>
        obtain rfl := Option.some.inj hc
        exact iff_of_false nofun h
      | cons k p => cases hc
    | key key =>
      obtain ⟨hroot, ha⟩ := h
      cases p with
      | nil =>
        obtain rfl := Option.some.inj hc
        exact iff_of_true rfl hroot
      | cons k p =>
        rw [given?] at hc
        split at hc
        · next hkey =>
          subst hkey
          exact ih ha hc
        · cases hc

/-- Setting a tree leaves at each path what that brings there, or else what was there. -/
theorem reading?_alter (h : a.Agrees t plan) {b : Tree} (hb : b.Within plan) (p : List String) :
    (b.alter (·.merge t) a).reading? p = (a.given? t p).or (b.reading? p) := by
  induction a generalizing plan p b with
  | nil => exact Tree.reading?_merge t h b hb p
  | cons s a ih =>
    cases s with
    | index i =>
      cases p with
      | nil => rfl
      | cons k p => exact (hb [] k p h).symm
    | key key =>
      obtain ⟨-, ha⟩ := h
      cases p with
      | nil => rfl
      | cons k p => exact Tree.reading?_alterEntry hb.entries (given?_nil_isSome a t) (fun u hu => ih ha hu) k p

theorem within_alter (h : a.Agrees t plan) {b : Tree} (hb : b.Within plan) : (b.alter (·.merge t) a).Within plan := by
  intro p k r hp
  rw [reading?_alter h hb, h.given?_below hp, hb p k r hp, Option.none_or]

end Address

namespace Layer

/-- What a layer brings to a path: of its entries the last that does counts. -/
def given? : Layer → List String → Option Content
  | [], _ => none
  | e :: l, p => (given? l p).or ((Address.ofText e.1).given? e.2 p)

def Agrees (l : Layer) (plan : Plan) : Prop := ∀ e ∈ l, (Address.ofText e.1).Agrees e.2 plan

variable {l : Layer} {plan : Plan}

theorem given?_append (l m : Layer) (p : List String) : (given? (l ++ m) p) = (m.given? p).or (l.given? p) := by
  induction l with
  | nil => exact (Option.or_none ..).symm
  | cons e l ih => rw [List.cons_append, given?, ih, given?, Option.or_assoc]

/-- An entry that brings nothing to a path changes nothing there. -/
theorem given?_insert {e : String × Tree} {p : List String} (he : (Address.ofText e.1).given? e.2 p = none)
    (before after : Layer) : given? (before ++ e :: after) p = given? (before ++ after) p := by
  rw [given?_append, given?, he, Option.or_none, given?_append]

/-- A layer sets no path twice as a table and as something else. -/
theorem Agrees.given?_table (hl : l.Agrees plan) {p : List String} {c : Content} (hc : l.given? p = some c) :
    c = .table ↔ plan p := by
  induction l with
  | nil => cases hc
  | cons e l ih =>
    obtain ⟨he, hl⟩ := List.forall_mem_cons.1 hl
    rcases Option.or_eq_some_iff.1 hc with hc | ⟨-, hc⟩
    · exact ih hl hc
    · exact he.given?_table hc

theorem apply_spec (hl : l.Agrees plan) {t : Tree} (ht : t.Within plan) :
    (l.apply t).Within plan ∧ ∀ p, (l.apply t).reading? p = (l.given? p).or (t.reading? p) := by
  induction l generalizing t with
  | nil => exact ⟨ht, fun p => (Option.none_or ..).symm⟩
  | cons e l ih =>
    obtain ⟨he, hl⟩ := List.forall_mem_cons.1 hl
    obtain ⟨hwithin, hreading⟩ := ih hl (Address.within_alter he ht)
    refine ⟨hwithin, fun p => (hreading p).trans ?_⟩
    rw [Address.reading?_alter he ht, given?, Option.or_assoc]

end Layer

/-- What stands at a path when layers are laid on one another, the highest first here. -/
def winner (layers : List Layer) (p : List String) : Option Content := layers.findSome? (·.given? p)

theorem winner_cons (l : Layer) (layers : List Layer) (p : List String) :
    winner (l :: layers) p = (l.given? p).or (winner layers p) := by
  cases h : l.given? p <;> simp [winner, h]

theorem winner_append (above below : List Layer) (p : List String) :
    winner (above ++ below) p = (winner above p).or (winner below p) := List.findSome?_append

theorem Tree.Within.mono {t : Tree} {plan plan' : Plan} (ht : t.Within plan) (h : ∀ p, plan p → plan' p) :
    t.Within plan' :=
  fun p k r hp => ht p k r (mt (h p) hp)

theorem foldl_apply_spec {layers : List Layer} {plan : Plan} (hlayers : ∀ l ∈ layers, l.Agrees plan) {t : Tree}
    (ht : t.Within plan) (p : List String) :
    (layers.foldl Layer.apply t).reading? p = (winner layers.reverse p).or (t.reading? p) := by
  induction layers generalizing t with
  | nil => exact (Option.none_or ..).symm
  | cons l layers ih =>
    obtain ⟨hl, hlayers⟩ := List.forall_mem_cons.1 hlayers
    obtain ⟨hwithin, hreading⟩ := Layer.apply_spec hl ht
    have hnone : winner [] p = none := rfl
    rw [List.foldl_cons, ih hlayers hwithin, hreading, List.reverse_cons, winner_append, winner_cons, hnone,
      Option.or_none, Option.or_assoc]

end Ability.Settings
