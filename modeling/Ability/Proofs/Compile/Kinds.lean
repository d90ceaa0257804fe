import Ability.Builtin.Registries
import Ability.Proofs.Expression.Reading
import Ability.Proofs.Trigger

/-! What the kinds that come with the engine check when an element is compiled, and what they read when it
runs. The reads accept every form of value that the checks accept; all that is left to fail is the evaluation
of an expression, in the kinds that compare numbers. -/

namespace Ability

open Expression (bind_eq_ok)

/-- A placeholder without a value, or a text that is no expression or has no value. -/
inductive EngineError.OfExpression : EngineError → Prop
  | expression (text : String) (fault : Expression.Fault) : OfExpression (.expression text fault)
  | unresolvedPlaceholder (name : String) : OfExpression (.unresolvedPlaceholder name)

theorem Expression.exists_fault_of_mapError {α : Type} {x : Except Fault α} {shown : String}
    {err : EngineError} (h : x.mapError (.expression shown) = .error err) :
    ∃ fault, err = .expression shown fault := by
  cases x with
  | ok a => cases h
  | error fault => exact ⟨fault, (Except.error.inj h).symm⟩

theorem bind_eq_error {ε α β : Type} {x : Except ε α} {f : α → Except ε β} {e : ε}
    (h : x >>= f = .error e) : x = .error e ∨ ∃ a, f a = .error e := by
  cases x with
  | error d => exact .inl (congrArg _ (Except.error.inj h))
  | ok a => exact .inr ⟨a, h⟩

/-- A text without references is not blamed on a placeholder. -/
theorem Expression.exists_fault_of_value {shown text : String} {err : EngineError}
    (h : value shown text = .error err) : ∃ fault, err = .expression shown fault := by
  rcases bind_eq_error h with h | ⟨ts, h⟩
  · exact exists_fault_of_mapError h
  rcases bind_eq_error h with h | ⟨x, h⟩
  · exact exists_fault_of_mapError h
  split at h
  · cases h
  · exact ⟨_, (Except.error.inj h).symm⟩

theorem Expression.evaluate_fails {text : String} {p : Placeholders} {err : EngineError}
    (h : evaluate text p = .error err) : err.OfExpression := by
  simp only [evaluate] at h
  split at h
  · exact Except.error.inj h ▸ .unresolvedPlaceholder _
  · obtain ⟨fault, rfl⟩ := exists_fault_of_value h
    exact .expression _ fault

def Check.Fails {α : Type} (P : EngineError → Prop) (x : Check α) : Prop :=
  ∀ err, x.run.value = .error err → P err

namespace Check.Fails

variable {α β : Type} {P Q : EngineError → Prop}

theorem pure (a : α) : Check.Fails P (Pure.pure a) := nofun

theorem bind {x : Check α} {k : α → Check β} (hx : Check.Fails P x) (hk : ∀ a, Check.Fails P (k a)) :
    Check.Fails P (x >>= k) := by
  intro err h
  have hbind : (x >>= k).run.value = (ExceptT.bindCont k x.run.value).value := rfl
  rw [hbind] at h
  cases hv : x.run.value with
  | ok a => exact hk a err (by rwa [hv] at h)
  | error e =>
    rw [hv] at h
    obtain rfl : e = err := Except.error.inj h
    exact hx e hv

theorem mono {x : Check α} (hx : Check.Fails P x) (hPQ : ∀ err, P err → Q err) : Check.Fails Q x :=
  fun err h => hPQ err (hx err h)

end Check.Fails

theorem Evaluator.arithmetic_fails (text : String) (p : Placeholders) :
    Check.Fails EngineError.OfExpression (arithmetic.evaluate text p) := by
  have hvalue : (arithmetic.evaluate text p).run.value = Expression.evaluate text p := by
    simp only [arithmetic, ExceptT.run, ExceptT.mk, Logged.pure_value]
  intro err h
  rw [hvalue] at h
  exact Expression.evaluate_fails h

section

variable {σ α β : Type} {x : ExceptT EngineError (StateT σ Logged) α}
  {k : α → ExceptT EngineError (StateT σ Logged) β} {s s' : σ} {told : List Event}

theorem run_bind_ok {a : α} (h : x.run s = ⟨(.ok a, s'), told⟩) :
    (x >>= k).run s = ⟨((k a).run s').value, told ++ ((k a).run s').events⟩ := by
  have hbind : (x >>= k).run s = (x.run s >>= fun r => ExceptT.bindCont k r.1 r.2 : Logged _) := rfl
  rw [hbind, h]
  rfl

theorem run_bind_error {e : EngineError} (h : x.run s = ⟨(.error e, s'), told⟩) :
    (x >>= k).run s = ⟨(.error e, s'), told ++ []⟩ := by
  have hbind : (x >>= k).run s = (x.run s >>= fun r => ExceptT.bindCont k r.1 r.2 : Logged _) := rfl
  rw [hbind, h]
  rfl

end

theorem Json.scalar_of_requireText {v : Json} {path t : String} (h : v.requireText path = .ok t) :
    ∃ w, v.get? path = some w ∧ w.scalarText? = some t := by
  unfold requireText at h
  split at h
  · cases h
  · cases h
  · next w _ hw =>
    split at h
    · next s hs => exact ⟨w, hw, hs.trans (congrArg some (Except.ok.inj h))⟩
    · cases h

namespace Evaluation

variable {args : Json} {p : Placeholders} {path t : String}

theorem number_fails (h : args.requireText path = .ok t) :
    Check.Fails EngineError.OfExpression (Evaluation.number ⟨.arithmetic, args, p⟩ path) := by
  obtain ⟨w, hw, hs⟩ := Json.scalar_of_requireText h
  cases w with
  | number n =>
    simp only [number, hw]
    exact .pure _
  | bool b =>
    simp only [number, hw]
    exact .pure _
  | text s =>
    simp only [number, hw]
    exact Evaluator.arithmetic_fails s p
  | null => cases hs
  | array items => cases hs
  | object fields => cases hs

theorem text_value (h : args.requireText path = .ok t) :
    Evaluation.text ⟨.arithmetic, args, p⟩ path = ExceptT.mk ⟨.ok (Template.fill p t), []⟩ := by
  rw [text, h]
  rfl

theorem text?_value (h : args.requireText path = .ok t) :
    Evaluation.text? ⟨.arithmetic, args, p⟩ path = ⟨some (Template.fill p t), []⟩ := by
  obtain ⟨w, hw, hs⟩ := Json.scalar_of_requireText h
  have ht : args.text? path = some t := by simp only [Json.text?, hw, Option.bind_some, hs]
  simp only [text?, ht]
  rfl

theorem text_fails {P : EngineError → Prop} (h : args.requireText path = .ok t) :
    Check.Fails P (Evaluation.text ⟨.arithmetic, args, p⟩ path) := by
  rw [text_value h]
  exact nofun

theorem number_events : (Evaluation.number ⟨.arithmetic, args, p⟩ path).run.events = [] := by
  unfold number
  split <;> rfl

end Evaluation

namespace Builtin

def comparisons : List ConditionKind :=
  [placeholderGreaterThan, placeholderLessThan, attributeAtLeast]

theorem requirePair_eq_ok {args : Json} {d : Datum} (h : requirePair args = .ok d) :
    (∃ x, args.requireText "placeholder" = .ok x) ∧ (∃ y, args.requireText "value" = .ok y) ∧
      d = .nothing := by
  obtain ⟨x, hx, h⟩ := bind_eq_ok.mp h
  obtain ⟨y, hy, h⟩ := bind_eq_ok.mp h
  exact ⟨⟨x, hx⟩, ⟨y, hy⟩, (Except.ok.inj h).symm⟩

theorem requireMessage_eq_ok {args : Json} {d : Datum} (h : requireMessage args = .ok d) :
    (∃ m, args.requireText "message" = .ok m) ∧ d = .nothing := by
  obtain ⟨m, hm, h⟩ := bind_eq_ok.mp h
  exact ⟨⟨m, hm⟩, (Except.ok.inj h).symm⟩

theorem map_text_eq_ok {x : Except EngineError String} {d : Datum} (h : Datum.text <$> x = .ok d) :
    ∃ t, x = .ok t ∧ d = .text t := by
  cases x with
  | error e => cases h
  | ok t => exact ⟨t, rfl, (Except.ok.inj h).symm⟩

end Builtin

theorem ConditionKind.check_of_form {k : ConditionKind} {d : Datum} (h : d.form = k.form) (s : Subject)
    (e : Evaluation) (lender : Option Lender) : k.check s e lender d = k.holds s e lender d := if_pos h

/-- What a built-in condition checked when it was compiled leaves only the expressions of a comparison to
fail. -/
theorem ConditionKind.check_fails {k : ConditionKind} (hk : k ∈ Builtin.conditions) {args : Json}
    {d : Datum} (hd : k.compile args = .ok d) (s : Subject) (p : Placeholders) (lender : Option Lender) :
    Check.Fails (fun err => err.OfExpression ∧ k ∈ Builtin.comparisons)
      (k.check s ⟨.arithmetic, args, p⟩ lender d) := by
  have hnumber : ∀ {path t}, args.requireText path = .ok t → k ∈ Builtin.comparisons →
      Check.Fails (fun err => err.OfExpression ∧ k ∈ Builtin.comparisons)
        (Evaluation.number ⟨.arithmetic, args, p⟩ path) := fun ht hmem =>
    (Evaluation.number_fails ht).mono fun _ herr => ⟨herr, hmem⟩
  simp only [Builtin.conditions, List.mem_cons, List.not_mem_nil, or_false] at hk
  rcases hk with rfl | rfl | rfl | rfl | rfl
  · obtain ⟨⟨x, hx⟩, ⟨y, hy⟩, rfl⟩ := Builtin.requirePair_eq_ok hd
    rw [check_of_form rfl]
    exact .bind (Evaluation.text_fails hx) fun _ => .bind (Evaluation.text_fails hy) fun _ => .pure _
  · obtain ⟨⟨x, hx⟩, ⟨y, hy⟩, rfl⟩ := Builtin.requirePair_eq_ok hd
    have hmem : Builtin.placeholderGreaterThan ∈ Builtin.comparisons := by simp [Builtin.comparisons]
    rw [check_of_form rfl]
    exact .bind (hnumber hx hmem) fun _ => .bind (hnumber hy hmem) fun _ => .pure _
  · obtain ⟨⟨x, hx⟩, ⟨y, hy⟩, rfl⟩ := Builtin.requirePair_eq_ok hd
    have hmem : Builtin.placeholderLessThan ∈ Builtin.comparisons := by simp [Builtin.comparisons]
    rw [check_of_form rfl]
    exact .bind (hnumber hx hmem) fun _ => .bind (hnumber hy hmem) fun _ => .pure _
  · obtain ⟨t, -, rfl⟩ := Builtin.map_text_eq_ok hd
    rw [check_of_form rfl]
    exact .pure _
  · obtain ⟨v, hv, hd⟩ := bind_eq_ok.mp hd
    obtain ⟨key, -, hd⟩ := bind_eq_ok.mp hd
    obtain rfl := Except.ok.inj hd
    have hmem : Builtin.attributeAtLeast ∈ Builtin.comparisons := by simp [Builtin.comparisons]
    rw [check_of_form rfl]
    simp only [Builtin.attributeAtLeast]
    split
    · exact .bind (hnumber hv hmem) fun _ => .pure _
    · exact .pure _

/-- The block was compiled from these arguments and is evaluated with arithmetic. -/
structure Site.Plain (site : Site) (args : Json) : Prop where
  args : site.args = args
  evaluator : site.evaluator = .arithmetic

theorem Site.Plain.evaluation {site : Site} {args : Json} (h : site.Plain args) (p : Placeholders) :
    site.evaluation p = ⟨.arithmetic, args, p⟩ := by
  rw [Site.evaluation, h.args, h.evaluator]

section

variable {site : Site} {args : Json} {o : Occurrence}

/-- The check of an argument tells nothing, and only an expression can make it fail. -/
def ArgumentKind.Mild (x : ExceptT EngineError (StateT Dice Logged) Bool) : Prop :=
  ∀ dice, (x.run dice).events = [] ∧ ∀ err, (x.run dice).value.1 = .error err → err.OfExpression

theorem ArgumentKind.check_of_form {k : ArgumentKind} {d : Datum} (h : d.form = k.form) :
    k.check site o d = k.holds site o d := if_pos h

namespace Builtin

theorem argumentNumber_run (hsite : site.Plain args) (path : String) (dice : Dice) :
    (argumentNumber site o path).run dice =
      ⟨((Evaluation.number ⟨.arithmetic, args, o.placeholders⟩ path).run.value, dice), []⟩ := by
  have hrun : (argumentNumber site o path).run dice =
      ⟨(((site.evaluation o.placeholders).number path).run.value, dice),
        ((site.evaluation o.placeholders).number path).run.events ++ []⟩ := rfl
  rw [hrun, hsite.evaluation, Evaluation.number_events, List.append_nil]

theorem argumentNumber_mild (hsite : site.Plain args) {path t : String}
    (ht : args.requireText path = .ok t) {k : Float → ExceptT EngineError (StateT Dice Logged) Bool}
    (hk : ∀ x dice, ∃ b dice', (k x).run dice = ⟨(.ok b, dice'), []⟩) :
    ArgumentKind.Mild (argumentNumber site o path >>= k) := by
  intro dice
  have hrun := argumentNumber_run (o := o) hsite path dice
  cases hx : (Evaluation.number ⟨.arithmetic, args, o.placeholders⟩ path).run.value with
  | error e =>
    rw [hx] at hrun
    rw [run_bind_error hrun]
    refine ⟨rfl, fun err herr => ?_⟩
    obtain rfl : e = err := Except.error.inj herr
    exact Evaluation.number_fails ht e hx
  | ok x =>
    obtain ⟨b, dice', hb⟩ := hk x dice
    rw [hx] at hrun
    rw [run_bind_ok hrun, hb]
    exact ⟨rfl, nofun⟩

end Builtin

theorem ArgumentKind.check_mild {k : ArgumentKind} (hk : k ∈ Builtin.arguments) {d : Datum}
    (hd : k.compile args = .ok d) (hsite : site.Plain args) : Mild (k.check site o d) := by
  simp only [Builtin.arguments, List.mem_cons, List.not_mem_nil, or_false] at hk
  rcases hk with rfl | rfl
  · obtain ⟨t, ht, hd⟩ := bind_eq_ok.mp hd
    obtain rfl := Except.ok.inj hd
    rw [check_of_form rfl]
    exact Builtin.argumentNumber_mild hsite ht fun x dice => ⟨_, _, rfl⟩
  · obtain ⟨t, ht, hd⟩ := bind_eq_ok.mp hd
    obtain rfl := Except.ok.inj hd
    rw [check_of_form rfl]
    exact Builtin.argumentNumber_mild hsite ht fun x dice => ⟨_, _, rfl⟩

theorem Builtin.message?_run (hsite : site.Plain args) {m : String}
    (hm : args.requireText "message" = .ok m) (s : Subject) :
    (message? site o).run s = ⟨(.ok (some (Template.fill o.placeholders m)), s), []⟩ := by
  have hrun : (message? site o).run s =
      ((site.evaluation o.placeholders).text? "message" >>= fun m => pure (.ok m, s) : Logged _) := rfl
  rw [hrun, hsite.evaluation, Evaluation.text?_value hm]
  rfl

namespace LeafKind

theorem call_of_form {k : LeafKind} {d : Datum} (h : d.form = k.form) (phase : Phase) :
    k.call phase site d = k.lifecycle phase site d := if_pos h

theorem trigger_of_form {k : LeafKind} {d : Datum} (h : d.form = k.form) :
    k.trigger site o d = k.respond site o d := if_pos h

theorem form_of_compile {k : LeafKind} (hk : .leaf k ∈ Builtin.effects) {d : Datum}
    (hd : k.compile args = .ok d) : d.form = k.form := by
  rcases Builtin.leaf_mem_effects.mp hk with rfl | rfl | rfl
  · obtain ⟨t, -, rfl⟩ := Builtin.map_text_eq_ok hd
    rfl
  · obtain ⟨-, rfl⟩ := Builtin.requireMessage_eq_ok hd
    rfl
  · obtain ⟨-, rfl⟩ := Builtin.requireMessage_eq_ok hd
    rfl

theorem call_ok {k : LeafKind} (hk : .leaf k ∈ Builtin.effects) {d : Datum}
    (hd : k.compile args = .ok d) (phase : Phase) (site : Site) (s : Subject) :
    ((k.call phase site d).run s).value.1 = .ok () := by
  rw [call_of_form (form_of_compile hk hd)]
  rcases Builtin.leaf_mem_effects.mp hk with rfl | rfl | rfl
  · obtain ⟨t, -, rfl⟩ := Builtin.map_text_eq_ok hd
    cases phase <;> rfl
  · rfl
  · rfl

/-- A built-in effect answers an occurrence, and tells nothing but what it logs. -/
theorem trigger_ok {k : LeafKind} (hk : .leaf k ∈ Builtin.effects) {d : Datum}
    (hd : k.compile args = .ok d) (hsite : site.Plain args) (o : Occurrence) (s : Subject) :
    (∃ b, ((k.trigger site o d).run s).value.1 = .ok b) ∧
      ∀ e ∈ ((k.trigger site o d).run s).events, ∃ fields, e = .record .info "效果日志" fields := by
  rw [trigger_of_form (form_of_compile hk hd)]
  rcases Builtin.leaf_mem_effects.mp hk with rfl | rfl | rfl
  · exact ⟨⟨false, rfl⟩, nofun⟩
  · obtain ⟨⟨m, hm⟩, rfl⟩ := Builtin.requireMessage_eq_ok hd
    have hrun : (Builtin.sendMessage.respond site o .nothing).run s = _ :=
      run_bind_ok (Builtin.message?_run hsite hm s)
    rw [hrun]
    exact ⟨⟨true, rfl⟩, nofun⟩
  · obtain ⟨⟨m, hm⟩, rfl⟩ := Builtin.requireMessage_eq_ok hd
    have hrun : (Builtin.logMessage.respond site o .nothing).run s = _ :=
      run_bind_ok (Builtin.message?_run hsite hm s)
    rw [hrun]
    exact ⟨⟨true, rfl⟩, fun e he => ⟨_, List.mem_singleton.mp he⟩⟩

end LeafKind

end

end Ability
