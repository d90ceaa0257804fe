import Ability.Proofs.Activation.Monotone

/-! The placeholders a provider attaches grant nothing. A built-in condition does not look at its lender, and
each condition is also asked without one; so whatever is met with some placeholders is met with none, unless
it is inverted. -/

namespace Ability

variable {ev : Evaluator} {s : Subject}

theorem Placeholders.merged_empty (own : Placeholders) : own.merged .empty = own := rfl

namespace Condition

theorem holds_without_lender {k : ConditionKind} (hk : k ∈ Builtin.conditions) (e : Evaluation)
    (lender : Option Lender) (d : Datum) : k.holds s e lender d = k.holds s e none d := by
  simp only [Builtin.conditions, List.mem_cons, List.not_mem_nil, or_false] at hk
  rcases hk with rfl | rfl | rfl | rfl | rfl <;> rfl

theorem check_without_lender {k : ConditionKind} (hk : k ∈ Builtin.conditions) (e : Evaluation)
    (lender : Option Lender) (d : Datum) : k.check s e lender d = k.check s e none d := by
  unfold ConditionKind.check
  rw [holds_without_lender hk]

/-- A lender without placeholders makes no difference to a built-in condition. -/
theorem lent_eq_alone {c : Condition} (hc : c.Plain) {q : Provision} (hq : q.placeholders = .empty) :
    c.lent ev s q = c.alone ev s := by
  unfold lent alone
  rw [hq, Placeholders.merged_empty, check_without_lender hc.kind]

theorem Met.without_placeholders {c : Condition} (hc : c.Plain) {p q : Provision}
    (hq : q.placeholders = .empty) (hp : c.Met ev s p) : c.Met ev s q := by
  rw [met_iff_of_upright hc.upright] at hp ⊢
  obtain ⟨-, halone⟩ := hp
  rw [lent_eq_alone hc hq]
  exact ⟨halone, halone⟩

theorem allMet_without_placeholders {cs : List Condition} (hcs : ∀ c ∈ cs, c.Plain) {p q : Provision}
    (hq : q.placeholders = .empty) (hp : (allMet ev s p cs).value = true) :
    (allMet ev s q cs).value = true := by
  rw [allMet_iff] at hp ⊢
  intro c hc
  exact (hp c hc).without_placeholders (hcs c hc) hq

end Condition

/-- Whatever a holder of plain conditions makes active when it is provided with some placeholders, it makes
active when it is provided with none. -/
theorem placeholders_grant_nothing {h : Holder} (hown : ∀ c ∈ h.conditions, c.Plain)
    (heffects : ∀ e ∈ h.effects, ∀ c ∈ e.conditions, c.Plain) (ev : Evaluator) (s : Subject)
    (p q : Provision) (hq : q.placeholders = .empty) (i : Uuid)
    (hi : (h.active ev s p).value.contains i = true) : (h.active ev s q).value.contains i = true := by
  rw [EffectSet.contains_iff, Holder.id_mem_active] at hi ⊢
  obtain ⟨hholder, e, he, heffect, rfl⟩ := hi
  refine ⟨?_, e, he, ?_, rfl⟩
  · exact Condition.allMet_without_placeholders hown hq hholder
  · exact Condition.allMet_without_placeholders (heffects e he) hq heffect

def classIs (value : String) : Condition where
  id := ⟨9⟩
  kind := Builtin.placeholderEquals
  args := .object [("placeholder", .text "%class%"), ("value", .text value)]
  datum := .nothing
  inverted := false
  showNotMet := false
  notMetLines := []
  notMetEffects := []
  context := ""

def levelAtLeast (value : Json) : Condition where
  id := ⟨10⟩
  kind := Builtin.attributeAtLeast
  args := .object [("attribute", .text "level"), ("value", value)]
  datum := .text "level"
  inverted := false
  showNotMet := false
  notMetLines := []
  notMetEffects := []
  context := ""

def guild : Holder where
  id := "guild"
  effects :=
    [{ giver ⟨7⟩ "cast" with conditions := [classIs "mage"] },
      { giver ⟨8⟩ "hide" with conditions := [classIs "%class%"] }]
  conditions := [levelAtLeast (.number (.integer 2))]

def rogue : Subject where
  id := ⟨1⟩
  name := "s"
  sheet := some { Sheet.empty with
    attributes := .ofList [("class", .text "rogue"), ("level", .number (.integer 3))] }

/-- The guild as lent by one who claims that the subject is a mage. -/
def claimed : Provision := ⟨guild, .ofPairs [("class", "mage"), ("level", "9 || %class%")], none⟩

/-- The claim is believed where a lender is asked for, and yet it makes nothing active that is not active
without it. -/
theorem placeholders_grant_nothing_claimed :
    (∀ c ∈ guild.conditions, c.Plain) ∧ (∀ e ∈ guild.effects, ∀ c ∈ e.conditions, c.Plain) ∧
      (Provision.of guild).placeholders = .empty ∧
      (classIs "mage").lent .arithmetic rogue claimed = .ok true ∧
      (guild.active .arithmetic rogue claimed).value.ids = [⟨8⟩] ∧
      (guild.active .arithmetic rogue (.of guild)).value.contains ⟨8⟩ = true := by
  have hequals : Builtin.placeholderEquals ∈ Builtin.conditions := by simp [Builtin.conditions]
  have hatLeast : Builtin.attributeAtLeast ∈ Builtin.conditions := by simp [Builtin.conditions]
  have hown : ∀ c ∈ guild.conditions, c.Plain := List.forall_mem_singleton.mpr ⟨hatLeast, rfl⟩
  have heffects : ∀ e ∈ guild.effects, ∀ c ∈ e.conditions, c.Plain := by
    refine List.forall_mem_cons.mpr ⟨?_, List.forall_mem_singleton.mpr ?_⟩
    · exact List.forall_mem_singleton.mpr ⟨hequals, rfl⟩
    · exact List.forall_mem_singleton.mpr ⟨hequals, rfl⟩
  have hactive : (guild.active .arithmetic rogue claimed).value.contains ⟨8⟩ = true := rfl
  refine ⟨hown, heffects, rfl, rfl, rfl, ?_⟩
  exact placeholders_grant_nothing hown heffects .arithmetic rogue claimed (.of guild) rfl ⟨8⟩ hactive

end Ability
