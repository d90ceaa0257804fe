import Ability.Proofs.Compile.Validity

/-! The arguments that an effect is compiled with. They are the registered ones that have a value, in the order of
their names; so a value more means an argument more, and leaves the others as they are. -/

namespace Ability

section Reading

/-- The values agree at every path that does not begin with the key. -/
def Json.AgreeBeside (key : String) (v w : Json) : Prop :=
  ∀ path, (segments path).head? ≠ some key → v.get? path = w.get? path

/-- An object with another value under a name. -/
def Json.put (v : Json) (name : String) (w : Json) : Json :=
  match v with
  | object fields => object (Table.insertEntry name w fields)
  | v => v

/-- The configuration of an element with a value for `require` among its arguments. -/
def Json.requiring (config value : Json) : Json :=
  config.put "args" ((config.subsection "args").put "require" value)

namespace Json

variable {v w u : Json} {key path : String}

theorem step?_put {fields : List (String × Json)} (name s : String) (w : Json) :
    ((object fields).put name w).step? s = if name = s then some w else (object fields).step? s := by
  rw [put, step?, step?, Table.find?_insertEntry]
  split <;> rfl

theorem put_agree (v : Json) (key : String) (w : Json) : (v.put key w).AgreeBeside key v := by
  intro path hpath
  cases v with
  | object fields =>
    unfold get? walk?
    cases hsegments : segments path with
    | nil => exact absurd hsegments (segments_ne_nil path)
    | cons s ss =>
      rw [hsegments] at hpath
      have hne : key ≠ s := fun h => hpath (congrArg some h.symm)
      rw [List.foldlM_cons, List.foldlM_cons, step?_put, if_neg hne]
  | _ => rfl

theorem get?_put {fields : List (String × Json)} (hkey : segments key = [key]) (w : Json) :
    ((object fields).put key w).get? key = some w := by
  simp [get?, walk?, hkey, step?_put]

theorem isObject_subsection (v : Json) (key : String) : ∃ fields, v.subsection key = object fields := by
  unfold subsection
  split
  · exact ⟨_, rfl⟩
  · exact ⟨[], rfl⟩

theorem has_eq_true_iff : v.has path = true ↔ ∃ w, v.get? path = some w ∧ w ≠ null := by
  unfold has
  cases v.get? path with
  | none => simp
  | some w => cases w <;> simp [isNull]

namespace AgreeBeside

variable (h : v.AgreeBeside key w) (hpath : (segments path).head? ≠ some key)
include h hpath

theorem has : v.has path = w.has path := by rw [Json.has, Json.has, h path hpath]
theorem text? : v.text? path = w.text? path := by rw [Json.text?, Json.text?, h path hpath]

theorem requireText : v.requireText path = w.requireText path := by
  rw [Json.requireText, Json.requireText, h path hpath]

theorem subsections : v.subsections path = w.subsections path := by
  rw [Json.subsections, Json.subsections, h path hpath]

end AgreeBeside

end Json

end Reading

section Overlooking

/-- The kind does not look at what stands under the key, when it is compiled or when it is asked. -/
structure ArgumentKind.Overlooks (k : ArgumentKind) (key : String) : Prop where
  compile {v w : Json} : v.AgreeBeside key w → k.compile v = k.compile w
  check {site site' : Site} (o : Occurrence) (d : Datum) : site.args.AgreeBeside key site'.args →
    site.context = site'.context → site.evaluator = site'.evaluator → k.check site o d = k.check site' o d

structure LeafKind.Overlooks (k : LeafKind) (key : String) : Prop where
  compile {v w : Json} : v.AgreeBeside key w → k.compile v = k.compile w
  trigger {site site' : Site} (o : Occurrence) (d : Datum) : site.args.AgreeBeside key site'.args →
    site.context = site'.context → site.evaluator = site'.evaluator → k.trigger site o d = k.trigger site' o d

namespace Builtin

theorem chance_overlooks : chance.Overlooks "require" where
  compile {v w} h := by
    have hread : v.requireText "chance" = w.requireText "chance" := h.requireText (by decide)
    simp only [chance, hread]
  check {site site'} o d h _ hevaluator := by
    have hread := h "chance" (by decide)
    have hnumber : (site.evaluation o.placeholders).number "chance" =
        (site'.evaluation o.placeholders).number "chance" := by
      simp only [Site.evaluation, Evaluation.number, hread, hevaluator]
    have hholds : chance.holds site o d = chance.holds site' o d := by
      simp only [chance]
      unfold argumentNumber
      rw [hnumber]
    rw [ArgumentKind.check, ArgumentKind.check, hholds]

theorem leaf_overlooks {k : LeafKind} (hk : .leaf k ∈ effects) : k.Overlooks "require" := by
  have hmessage : (Json.segments "message").head? ≠ some "require" := by decide
  have hpermission : (Json.segments "permission").head? ≠ some "require" := by decide
  have hread : ∀ {site site' : Site} (o : Occurrence), site.args.AgreeBeside "require" site'.args →
      site.evaluator = site'.evaluator → message? site o = message? site' o := by
    intro site site' o h hevaluator
    have htext : (site.evaluation o.placeholders).text? "message" =
        (site'.evaluation o.placeholders).text? "message" := by
      simp only [Site.evaluation, Evaluation.text?, h.text? hmessage, hevaluator]
    unfold message?
    rw [htext]
  rcases leaf_mem_effects.1 hk with rfl | rfl | rfl
  · refine ⟨fun h => ?_, fun o d _ _ _ => rfl⟩
    simp only [givePermission, h.requireText hpermission]
  · refine ⟨fun h => ?_, fun {site site'} o d h _ hevaluator => ?_⟩
    · simp only [sendMessage, requireMessage, h.requireText hmessage]
    · have hrespond : sendMessage.respond site o d = sendMessage.respond site' o d := by
        simp only [sendMessage, hread o h hevaluator]
      rw [LeafKind.trigger, LeafKind.trigger, hrespond]
  · refine ⟨fun h => ?_, fun {site site'} o d h _ hevaluator => ?_⟩
    · simp only [logMessage, requireMessage, h.requireText hmessage]
    · have hrespond : logMessage.respond site o d = logMessage.respond site' o d := by
        simp only [logMessage, hread o h hevaluator]
      rw [LeafKind.trigger, LeafKind.trigger, hrespond]

end Builtin

/-- What stands under `require` is the matter of the built-in argument of that name, if it is registered, and of no
other. -/
structure Registries.KeepRequireApart (r : Registries) : Prop where
  require {k : ArgumentKind} : r.arguments.get? "require" = some k → k = Builtin.require
  others {name : String} {k : ArgumentKind} : r.arguments.get? name = some k → name ≠ "require" →
    (Json.segments name).head? ≠ some "require" ∧ k.Overlooks "require"

theorem Registries.HaveBuiltinKinds.keepRequireApart {r : Registries} (hr : r.HaveBuiltinKinds) :
    r.KeepRequireApart := by
  have hentries : r.arguments.entries = [("chance", Builtin.chance), ("require", Builtin.require)] := by
    rw [hr]
    rfl
  have hget : ∀ {name k}, r.arguments.get? name = some k →
      name = "chance" ∧ k = Builtin.chance ∨ name = "require" ∧ k = Builtin.require := by
    intro name k hk
    have hmem := Table.mem_entries_iff.2 hk
    simpa [hentries] using hmem
  constructor
  · intro k hk
    rcases hget hk with ⟨hname, -⟩ | ⟨-, rfl⟩
    · exact absurd hname (by decide)
    · rfl
  · intro name k hk hname
    rcases hget hk with ⟨rfl, rfl⟩ | ⟨rfl, -⟩
    · exact ⟨by decide, Builtin.chance_overlooks⟩
    · exact absurd rfl hname

end Overlooking

namespace Compile

section Parts

variable {α β : Type} {n : Nat}

theorem report_eq_some_iff {x : ExceptT EngineError Compile α} {message context : String} {a : α} :
    (report message context x n).value.1 = some a ↔ (x.run n).value.1 = .ok a := by
  simp only [report, Bind.bind, StateT.bind]
  cases (x.run n).value.1 with
  | ok b => exact ⟨fun h => congrArg _ (Option.some.inj h), fun h => congrArg _ (Except.ok.inj h)⟩
  | error e =>
    constructor
    · intro h
      cases h
    · intro h
      cases h

theorem run_bind_eq_ok_iff {x : ExceptT EngineError Compile α} {k : α → ExceptT EngineError Compile β} {b : β} :
    ((x >>= k).run n).value.1 = .ok b ↔
      ∃ a, (x.run n).value.1 = .ok a ∧ ((k a).run (x.run n).value.2).value.1 = .ok b := by
  have hrun : ((x >>= k).run n).value.1 =
      (ExceptT.bindCont k (x.run n).value.1 (x.run n).value.2).value.1 := rfl
  rw [hrun]
  cases (x.run n).value.1 with
  | ok a => exact ⟨fun h => ⟨a, rfl, h⟩, fun ⟨_, ha, h⟩ => Except.ok.inj ha ▸ h⟩
  | error e => exact ⟨nofun, fun ⟨_, ha, _⟩ => nomatch ha⟩

/-- What an effect of a kind is made of. -/
structure MadeOf (r : Registries) (config : Json) (context : String) (n : Nat) (kind : EffectKind) (e : Effect) :
    Prop where
  arguments : Compile.arguments r (config.subsection "args") = .ok e.arguments
  response : ((responseOf r kind (config.subsection "args") context).run n).value.1 = .ok e.response
  ofArgs : e.args = config.subsection "args"
  ofContext : e.context = context

theorem effect_madeOf {r : Registries} {config : Json} {context path : String} {e : Effect}
    (h : (effect r config context path n).value.1 = some e) :
    ∃ id kind, config.text? "id" = some id ∧ r.effects.get? id = some kind ∧ MadeOf r config context n kind e := by
  rw [effect, report_eq_some_iff] at h
  obtain ⟨id, hid, h⟩ := run_bind_eq_ok_iff.1 h
  obtain ⟨kind, hkind, h⟩ := run_bind_eq_ok_iff.1 h
  obtain ⟨s, hs, h⟩ := run_bind_eq_ok_iff.1 h
  obtain ⟨as, has, h⟩ := run_bind_eq_ok_iff.1 h
  obtain ⟨cs, hcs, h⟩ := run_bind_eq_ok_iff.1 h
  obtain rfl := Except.ok.inj h
  exact ⟨id, kind, Json.requireText_eq_ok_iff.1 hid, lookup_eq_ok hkind, has, hs, rfl, rfl⟩

end Parts

section Selection

theorem forall₂_of_mapM {ε α β : Type} {f : α → Except ε β} {xs : List α} {ys : List β} (h : xs.mapM f = .ok ys) :
    List.Forall₂ (fun x y => f x = .ok y) xs ys := by
  induction xs generalizing ys with
  | nil =>
    obtain rfl := Except.ok.inj h
    exact .nil
  | cons x xs ih =>
    rw [List.mapM_cons] at h
    obtain ⟨y, hy, h⟩ := Expression.bind_eq_ok.1 h
    obtain ⟨zs, hzs, h⟩ := Expression.bind_eq_ok.1 h
    obtain rfl := Except.ok.inj h
    exact .cons hy (ih hzs)

/-- The arguments are the registered ones that have a value other than null, each once and by ascending name; each was
made of these values by its own kind. -/
def Selected (r : Registries) (args : Json) (as : List Argument) : Prop :=
  ∃ names : List String, names.Pairwise (· < ·) ∧
    (∀ name, name ∈ names ↔ (∃ k, r.arguments.get? name = some k) ∧ ∃ v, args.get? name = some v ∧ v ≠ .null) ∧
    List.Forall₂ (fun name a => r.arguments.get? name = some a.kind ∧ a.kind.compile args = .ok a.datum) names as

variable {r : Registries} {args : Json} {as : List Argument}

theorem arguments_selected (h : arguments r args = .ok as) : Selected r args as := by
  refine ⟨(r.arguments.entries.filter fun e => args.has e.1).map (·.1), ?_, fun name => ?_, ?_⟩
  · exact List.pairwise_map.2 (r.arguments.sorted.filter _)
  · simp only [List.mem_map, List.mem_filter, Prod.exists, exists_and_right, exists_eq_right,
      Table.mem_entries_iff, Json.has_eq_true_iff]
  · have hregistered : ∀ e ∈ r.arguments.entries.filter fun e => args.has e.1, r.arguments.get? e.1 = some e.2 :=
      fun e he => Table.mem_entries_iff.1 (List.mem_filter.1 he).1
    rw [List.forall₂_map_left_iff]
    refine ((List.forall₂_and_left _ _).2 ⟨hregistered, forall₂_of_mapM h⟩).imp fun e a ⟨he, ha⟩ => ?_
    obtain ⟨d, hd, ha⟩ := Expression.bind_eq_ok.1 ha
    obtain rfl := Except.ok.inj ha
    exact ⟨he, hd⟩

/-- The argument may be put in somewhere, and the others are left as they are. -/
inductive MayAdd (a : Argument) : List Argument → List Argument → Prop
  | same (as : List Argument) : MayAdd a as as
  | here (as : List Argument) : MayAdd a as (a :: as)
  | after (b : Argument) {as bs : List Argument} (rest : MayAdd a as bs) : MayAdd a (b :: as) (b :: bs)

/-- What is made of these entries of the registry. -/
def made (args : Json) (es : List (String × ArgumentKind)) : Except EngineError (List Argument) :=
  (es.filter fun e => args.has e.1).mapM fun e => return ⟨e.2, ← e.2.compile args⟩

theorem made_cons (args : Json) (e : String × ArgumentKind) (es : List (String × ArgumentKind)) :
    made args (e :: es) = if args.has e.1 then do
      let d ← e.2.compile args
      return ⟨e.2, d⟩ :: (← made args es) else made args es := by
  rw [made, List.filter_cons]
  split
  · rw [List.mapM_cons, bind_assoc]
    rfl
  · rfl

theorem made_cons_eq_ok {e : String × ArgumentKind} {es : List (String × ArgumentKind)}
    (h : made args (e :: es) = .ok as) :
    args.has e.1 = false ∧ made args es = .ok as ∨
      args.has e.1 = true ∧ ∃ d bs, e.2.compile args = .ok d ∧ made args es = .ok bs ∧ as = ⟨e.2, d⟩ :: bs := by
  rw [made_cons] at h
  split at h
  · next hhas =>
    obtain ⟨d, hd, h⟩ := Expression.bind_eq_ok.1 h
    obtain ⟨bs, hbs, h⟩ := Expression.bind_eq_ok.1 h
    exact .inr ⟨hhas, d, bs, hd, hbs, (Except.ok.inj h).symm⟩
  · next hhas => exact .inl ⟨Bool.eq_false_iff.2 hhas, h⟩

section Required

variable (hr : r.KeepRequireApart) {v w : Json} (hagree : w.AgreeBeside "require" v)
include hr hagree

/-- The arguments of other names do not change, and neither does whether they are asked for. -/
theorem arguments_others {es : List (String × ArgumentKind)}
    (hes : ∀ e ∈ es, r.arguments.get? e.1 = some e.2 ∧ e.1 ≠ "require") : made w es = made v es := by
  induction es with
  | nil => rfl
  | cons e es ih =>
    obtain ⟨⟨hget, hname⟩, hrest⟩ := List.forall_mem_cons.1 hes
    obtain ⟨hpath, hoverlooks⟩ := hr.others hget hname
    rw [made_cons, made_cons, hagree.has hpath, hoverlooks.compile hagree, ih hrest]

/-- A value for `require` adds the argument of that name, if there is one, and no other. -/
theorem made_require {es : List (String × ArgumentKind)} (hes : ∀ e ∈ es, r.arguments.get? e.1 = some e.2)
    (hsorted : es.Pairwise fun x y => x.1 < y.1) (hnone : v.has "require" = false) {as bs : List Argument}
    (hv : made v es = .ok as) (hw : made w es = .ok bs) : MayAdd ⟨Builtin.require, .nothing⟩ as bs := by
  induction es generalizing as bs with
  | nil =>
    obtain rfl := Except.ok.inj hv
    obtain rfl := Except.ok.inj hw
    exact .same []
  | cons e es ih =>
    obtain ⟨hget, hrest⟩ := List.forall_mem_cons.1 hes
    obtain ⟨hbefore, hsorted⟩ := List.pairwise_cons.1 hsorted
    by_cases hname : e.1 = "require"
    · -- Names ascend, so `require` does not come again.
      have hothers := arguments_others hr hagree fun f hf =>
        ⟨hrest f hf, fun h => Key.irrefl f.1 ((hname.trans h.symm) ▸ hbefore f hf)⟩
      have hkind : e.2 = Builtin.require := hr.require (hname ▸ hget)
      rw [made_cons, hname, hnone, if_neg Bool.false_ne_true, ← hothers] at hv
      rcases made_cons_eq_ok hw with ⟨-, hrest⟩ | ⟨-, d, cs, hd, hrest, rfl⟩
      · obtain rfl := Except.ok.inj (hv.symm.trans hrest)
        exact .same as
      · obtain rfl := Except.ok.inj (hv.symm.trans hrest)
        rw [hkind] at hd ⊢
        obtain ⟨t, -, hd⟩ := Expression.bind_eq_ok.1 hd
        obtain rfl := Except.ok.inj hd
        exact .here as
    · obtain ⟨hpath, hoverlooks⟩ := hr.others hget hname
      have hhas := hagree.has hpath
      rcases made_cons_eq_ok hv with ⟨hno, hvs⟩ | ⟨hyes, d, as, hd, hvs, rfl⟩ <;>
        rcases made_cons_eq_ok hw with ⟨hno', hws⟩ | ⟨hyes', d', bs, hd', hws, rfl⟩
      · exact ih hrest hsorted hvs hws
      · cases hno.symm.trans (hhas.symm.trans hyes')
      · cases hno'.symm.trans (hhas.trans hyes)
      · rw [hoverlooks.compile hagree, hd] at hd'
        obtain rfl := Except.ok.inj hd'
        exact .after _ (ih hrest hsorted hvs hws)

theorem arguments_require (hnone : v.get? "require" = none) {as bs : List Argument} (hv : arguments r v = .ok as)
    (hw : arguments r w = .ok bs) :
    (∀ a ∈ as, a.kind.Overlooks "require") ∧ MayAdd ⟨Builtin.require, .nothing⟩ as bs := by
  have hhas : v.has "require" = false := by rw [Json.has, hnone]
  have hregistered : ∀ e ∈ r.arguments.entries, r.arguments.get? e.1 = some e.2 := fun e => Table.mem_entries_iff.1
  refine ⟨fun a ha => ?_, made_require hr hagree hregistered r.arguments.sorted hhas hv hw⟩
  obtain ⟨e, he, hmade⟩ := mem_of_mapM_eq_ok hv a ha
  obtain ⟨hmem, hvalue⟩ := List.mem_filter.1 he
  have hname : e.1 ≠ "require" := fun h => by
    rw [h, hhas] at hvalue
    cases hvalue
  obtain ⟨d, hd, hmade⟩ := Expression.bind_eq_ok.1 hmade
  obtain rfl := Except.ok.inj hmade
  exact (hr.others (hregistered e hmem) hname).2

end Required

end Selection

end Compile

end Ability
