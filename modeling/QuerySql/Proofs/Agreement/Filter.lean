import Mathlib.Logic.Function.Basic
import QuerySql.Compile.Filter
import QuerySql.Proofs.Blank
import QuerySql.Proofs.Form
import QuerySql.Proofs.Success.Filter

/-!
# Filters of one form

Two computations agree on what a function keeps of their results if they fail
with the same error, or both succeed and the function cannot tell the results
apart. A filter agrees with its form on everything but the bound values.
-/

set_option autoImplicit false

namespace QuerySql

/-- The computations are the same but for what `f` forgets of their results. -/
def AgreeOn {M : Type → Type} [Functor M] {α γ : Type} (f : α → γ) (x y : M α) : Prop :=
  f <$> x = f <$> y

namespace AgreeOn

section

variable {M : Type → Type} [Monad M] {α β γ δ ι : Type} {f : α → γ} {g : β → δ}

theorem refl (x : M α) : AgreeOn f x x := rfl

variable [LawfulMonad M]

theorem of_pure {u v : α} (h : f u = f v) : AgreeOn f (pure u : M α) (pure v) := by
  simp only [AgreeOn, map_pure, h]

theorem bind {x y : M α} {k l : α → M β} (hx : AgreeOn f x y)
    (hk : ∀ u v, f u = f v → AgreeOn g (k u) (l v)) : AgreeOn g (x >>= k) (y >>= l) := by
  -- what follows depends on `f u` alone, so it factors through `f`
  have hf : Function.FactorsThrough (fun u => g <$> k u) f := by
    intro u v huv
    exact (hk u v huv).trans (hk v v rfl).symm
  have hl : ∀ v, g <$> l v = g <$> k v := fun v => (hk v v rfl).symm
  let after := Function.extend f (fun u => g <$> k u) fun _ => g <$> (x >>= k)
  have hafter : ∀ u, g <$> k u = after (f u) := fun u => (hf.extend_apply _ u).symm
  calc g <$> (x >>= k) = (f <$> x) >>= after := by simp only [map_bind, hafter, bind_map_left]
    _ = (f <$> y) >>= after := by rw [hx]
    _ = g <$> (y >>= l) := by simp only [map_bind, hl, hafter, bind_map_left]

theorem after {x : M α} {k l : α → M β} (hk : ∀ u, AgreeOn g (k u) (l u)) :
    AgreeOn g (x >>= k) (x >>= l) := by
  refine bind (f := id) (refl x) fun u v huv => ?_
  cases huv
  exact hk u

theorem map {x y : M α} {h : α → β} (hx : AgreeOn f x y)
    (hh : ∀ u v, f u = f v → g (h u) = g (h v)) : AgreeOn g (h <$> x) (h <$> y) := by
  simp only [map_eq_pure_bind]
  exact bind hx fun u v huv => of_pure (hh u v huv)

theorem present {x y : M α} (hx : AgreeOn f x y) :
    AgreeOn (Option.map f) (some <$> x) (some <$> y) :=
  map hx fun _ _ h => congrArg some h

theorem append {x y xs ys : M (List α)} (hx : AgreeOn (List.map f) x y)
    (hxs : AgreeOn (List.map f) xs ys) :
    AgreeOn (List.map f) (do let here ← x; let later ← xs; return here ++ later)
      (do let here ← y; let later ← ys; return here ++ later) := by
  refine bind hx fun here here' hh => bind hxs fun later later' hl => of_pure ?_
  rw [List.map_append, List.map_append, hh, hl]

theorem prepend {x y : M (Option α)} {xs ys : M (List α)} (hx : AgreeOn (Option.map f) x y)
    (hxs : AgreeOn (List.map f) xs ys) :
    AgreeOn (List.map f) (do let here ← x; let later ← xs; return here.toList ++ later)
      (do let here ← y; let later ← ys; return here.toList ++ later) := by
  refine bind hx fun here here' hh => bind hxs fun later later' hl => of_pure ?_
  rw [List.map_append, List.map_append, ← Option.toList_map, ← Option.toList_map, hh, hl]

theorem each {k l : ι → M α} {h : ι → ι} (hk : ∀ x, AgreeOn f (k x) (l (h x))) (xs : List ι) :
    AgreeOn (List.map f) (xs.mapM k) ((xs.map h).mapM l) := by
  induction xs with
  | nil => exact refl _
  | cons x xs ih =>
    simp only [List.mapM_cons, List.map_cons]
    refine bind (hk x) fun u v huv => bind ih fun us vs hs => of_pure ?_
    rw [List.map_cons, List.map_cons, huv, hs]

end

variable {α β γ δ : Type} {f : α → γ} {g : β → δ}

theorem lift {x y : Except Error α} (h : AgreeOn f x y) :
    AgreeOn f (liftM x : Compile α) (liftM y) := by
  simp only [AgreeOn, ← liftM_map] at h ⊢
  rw [h]

theorem after_lift {x : Except Error α} {k l : α → Compile β}
    (hk : ∀ u, x = .ok u → AgreeOn g (k u) (l u)) :
    AgreeOn g ((liftM x : Compile α) >>= k) (liftM x >>= l) := by
  cases x with
  | error e => exact refl _
  | ok u => exact hk u rfl

theorem run {x y : Compile α} (h : AgreeOn f x y) (a : Aliases) :
    AgreeOn (fun r : α × Aliases => f r.1) (x a) (y a) := by
  have hfst : ∀ z : Compile α,
      (fun r : α × Aliases => f r.1) <$> z a = Prod.fst <$> (f <$> z) a := by
    intro z
    change _ = Prod.fst <$> (z a >>= fun r => pure (f r.1, r.2))
    cases z a <;> rfl
  rw [AgreeOn, hfst, hfst, h]

theorem outcome {x y : Except Error α} (h : AgreeOn f x y) :
    (∃ e, x = .error e ∧ y = .error e) ∨ ∃ u v, x = .ok u ∧ y = .ok v ∧ f u = f v := by
  cases x with
  | error e =>
    cases y with
    | error e' =>
      cases h
      exact .inl ⟨e, rfl, rfl⟩
    | ok v => cases h
  | ok u =>
    cases y with
    | error e => cases h
    | ok v => exact .inr ⟨u, v, rfl, rfl, Except.ok.inj h⟩

end AgreeOn

namespace Context

def extended (cx : Context) (e : Extension) : Context := { cx with extension := e }

variable (cx : Context) (e : Extension)

@[simp] theorem extended_model : (cx.extended e).model = cx.model := rfl

@[simp] theorem extended_operation : (cx.extended e).operation = cx.operation := rfl

end Context

namespace Condition

theorem operand_agree (m : Model) (f : Field) (json : Json) :
    AgreeOn (fun _ => Value.null) (operand m f json) (operand m f json.blank) := by
  cases json with
  | num n => cases n <;> rfl
  | _ => rfl

theorem blank_fold_bound (mode : Mode) (v w : Value) :
    (mode.fold (.bound v)).blank = (mode.fold (.bound w)).blank := by
  cases mode <;> rfl

variable (m : Model) (f : Field) (lhs : Scalar)

theorem compare_agree (mode : Mode) (op : Comparison) (json : Json) :
    AgreeOn Pred.blank (compare m f lhs mode op json) (compare m f lhs mode op json.blank) := by
  refine AgreeOn.bind (operand_agree m f json) fun v w _ => AgreeOn.of_pure ?_
  simp only [Pred.blank, blank_fold_bound mode v w]

theorem is_in_agree (mode : Mode) (negated : Bool) (items : List Json) :
    AgreeOn Pred.blank (isIn m f lhs mode negated (.arr items))
      (isIn m f lhs mode negated (.arr (items.map Json.blank))) := by
  cases items with
  | nil => rfl
  | cons item items =>
    refine AgreeOn.bind (AgreeOn.each (operand_agree m f) (item :: items)) fun vs ws h => ?_
    have hblank : ∀ us : List Value, (us.map fun v => mode.fold (.bound v)).map Scalar.blank =
        (us.map fun _ => Value.null).map fun v => (mode.fold (.bound v)).blank := by
      intro us
      simp only [List.map_map, List.map_inj_left, Function.comp_apply]
      exact fun v _ => blank_fold_bound mode v .null
    apply AgreeOn.of_pure
    simp only [Pred.blank, hblank, h]

theorem pattern_agree (mode : Mode) (p : Pattern) (json : Json) :
    AgreeOn Pred.blank (pattern m f lhs mode p json) (pattern m f lhs mode p json.blank) := by
  unfold pattern
  split
  · exact AgreeOn.refl _
  · cases json with
    | str text =>
      refine congrArg Except.ok ?_
      simp only [Pred.blank, blank_fold_bound mode (.text (p.write text)) (.text (p.write ""))]
    | _ => exact AgreeOn.refl _

theorem operator_blank_agree (mode : Mode) (key : String) (json : Json) :
    AgreeOn Pred.blank (operator m f lhs mode key json) (operator m f lhs mode key json.blank) := by
  unfold operator
  split
  · exact AgreeOn.refl _
  · exact AgreeOn.refl _
  · exact pattern_agree m f lhs mode _ json
  · exact compare_agree m f lhs mode _ json
  · cases json <;> exact AgreeOn.refl _
  · cases json with
    | null => exact AgreeOn.refl _
    | _ => exact compare_agree m f lhs mode .eq _
  · cases json with
    | null => exact AgreeOn.refl _
    | _ => exact compare_agree m f lhs mode .ne _

theorem operator_items_agree (mode : Mode) (key : String) (items : List Json) :
    AgreeOn Pred.blank (operator m f lhs mode key (.arr items))
      (operator m f lhs mode key (formOperand key (.arr items))) := by
  rw [formOperand]
  split
  · rename_i negated hk
    simp only [operator, hk]
    exact is_in_agree m f lhs mode negated items
  · exact AgreeOn.refl _

theorem mode_form (inherited : Mode) (entries : Json.Entries) :
    mode m f inherited (formOperators entries) = mode m f inherited entries := by
  have hget : Json.Entries.get? (formOperators entries) modeKey = entries.get? modeKey := by
    induction entries with
    | nil => rfl
    | cons e rest ih =>
      obtain ⟨key, value⟩ := e
      simp only [Json.Entries.get?, formOperators, List.lookup_cons] at ih ⊢
      by_cases hk : key = modeKey
      · subst hk
        have hv : formOperand modeKey value = value := by
          cases value <;> rfl
        simp [hv]
      · have hk' : (modeKey == key) = false := beq_eq_false_iff_ne.mpr (Ne.symm hk)
        simp only [hk', ih]
  unfold mode
  rw [hget]

mutual

theorem operators_agree (mode : Mode) (entries : List (String × Json)) :
    AgreeOn (List.map Pred.blank) (operators m f lhs mode entries)
      (operators m f lhs mode (formOperators entries)) := by
  match entries with
  | [] => exact AgreeOn.refl _
  | (key, value) :: rest =>
    rw [formOperators, operators, operators]
    by_cases hk : key = modeKey
    · rw [if_pos hk, if_pos hk]
      exact AgreeOn.prepend (AgreeOn.refl _) (operators_agree mode rest)
    · rw [if_neg hk, if_neg hk]
      exact AgreeOn.prepend (entry_agree mode key value) (operators_agree mode rest)

theorem entry_agree (mode : Mode) (key : String) (value : Json) :
    AgreeOn (Option.map Pred.blank) (entry m f lhs mode key value)
      (entry m f lhs mode key (formOperand key value)) := by
  match value with
  | .obj nested =>
    by_cases hk : key = "not"
    · simp only [formOperand, entry, if_pos hk, mode_form]
      refine AgreeOn.after fun inner =>
        AgreeOn.bind (operators_agree inner nested) fun ps qs h => AgreeOn.of_pure ?_
      rw [Pred.blank_not?, Pred.blank_not?, Pred.blank_through.map_optional,
        Pred.blank_through.map_optional, h]
    · simp only [formOperand, entry, if_neg hk]
      exact AgreeOn.refl _
  | .arr items =>
    have hform : ∃ items', formOperand key (.arr items) = .arr items' := by
      rw [formOperand]
      split <;> exact ⟨_, rfl⟩
    obtain ⟨items', hi⟩ := hform
    have hop := operator_items_agree m f lhs mode key items
    rw [hi] at hop ⊢
    exact AgreeOn.present hop
  | .null | .bool _ | .num _ | .str _ =>
    simp only [formOperand]
    split
    · exact AgreeOn.present (operator_blank_agree m f lhs mode key _)
    · exact AgreeOn.refl _

end

theorem compile_agree (json : Json) :
    AgreeOn (Option.map Pred.blank) (compile m f lhs json) (compile m f lhs (form json)) := by
  cases json with
  | null => exact AgreeOn.refl _
  | arr items => exact AgreeOn.refl _
  | obj entries =>
    simp only [form, compile, mode_form]
    refine AgreeOn.after fun mode =>
      AgreeOn.bind (operators_agree m f lhs mode entries) fun ps qs h => AgreeOn.of_pure ?_
    rw [Pred.blank_through.map_optional, Pred.blank_through.map_optional, h]
  | num n => cases n <;> rfl
  | bool _ | str _ => rfl

end Condition

namespace Connective

theorem check_items_form (schema : Schema) (m m' : Model) (c : Connective) (items : List Json) :
    c.checkItems m (Filter.formItems schema m' items) = c.checkItems m items := by
  induction items with
  | nil => rfl
  | cons item rest ih =>
    cases item with
    | obj entries => simp only [Filter.formItems, checkItems, ih]
    | _ => rfl

theorem check_operand_form (schema : Schema) (m m' : Model) (c : Connective) (value : Json) :
    c.checkOperand m (Filter.formOperand schema m' value) = c.checkOperand m value := by
  match value with
  | .arr (item :: items) =>
    have hitems := check_items_form schema m m' c (item :: items)
    cases item <;> exact hitems
  | .arr [] | .obj _ | .null | .bool _ | .num _ | .str _ => rfl

theorem apply_agree (m : Model) (c : Connective) {os os' : List (Option Pred)}
    (h : os.map (Option.map Pred.blank) = os'.map (Option.map Pred.blank)) :
    AgreeOn Pred.blank (c.apply m os) (c.apply m os') := by
  rw [AgreeOn, ← Pred.blank_through.map_apply, ← Pred.blank_through.map_apply, h]

end Connective

theorem AgreeOn.descend {β δ : Type} {g : β → δ} {s : Settings} {cx : Context} {e : Extension}
    {r : Relation} {k l : Context → Compile β}
    (h : ∀ target tag, s.schema.model? r.target = some target →
      AgreeOn g (k (cx.nested r target tag)) (l (cx.nested r target tag))) :
    AgreeOn g (Compile.descend s cx r >>= k) (Compile.descend s (cx.extended e) r >>= l) := by
  have hsame : Compile.descend s (cx.extended e) r = Compile.descend s cx r := rfl
  rw [hsame]
  simp only [Compile.descend, bind_assoc]
  refine AgreeOn.after_lift fun target ht => ?_
  split
  · exact AgreeOn.refl _
  · simp only [bind_assoc, pure_bind]
    exact AgreeOn.after fun tag => h target tag (Schema.target_ok.mp ht)

namespace Filter

theorem linked_agree {r : Relation} {parent child : Context} {e : Extension} {negated : Bool}
    {ps qs : List Pred} (h : ps.map Pred.blank = qs.map Pred.blank) :
    AgreeOn Pred.blank (linked r parent child negated ps)
      (linked r (parent.extended e) child negated qs) := by
  refine AgreeOn.after fun links => AgreeOn.of_pure ?_
  simp only [Pred.blank, Pred.blank_all_eq_map, List.map_append, h]

theorem subquery_agree {s : Settings} {cx : Context} {e : Extension} {r : Relation}
    {target : Model} (ht : s.schema.model? r.target = some target) {c : Connective}
    {negated : Bool} {entries entries' : Json.Entries}
    (h : ∀ tag, AgreeOn (List.map Pred.blank) (conditions s (cx.nested r target tag) entries)
      (conditions s (cx.nested r target tag) entries')) :
    AgreeOn Pred.blank
      (do
        let child ← Compile.descend s cx r
        let nested ← conditions s child entries
        let p ← c.apply child.model [Pred.all? nested]
        linked r cx child negated [p])
      (do
        let child ← Compile.descend s (cx.extended e) r
        let nested ← conditions s child entries'
        let p ← c.apply child.model [Pred.all? nested]
        linked r (cx.extended e) child negated [p]) := by
  refine AgreeOn.descend fun target' tag ht' => ?_
  cases ht.symm.trans ht'
  refine AgreeOn.bind (h tag) fun ps qs hps => ?_
  refine AgreeOn.bind (AgreeOn.lift (Connective.apply_agree target c ?_))
    fun p q hpq => linked_agree ?_
  · simp only [List.map_cons, List.map_nil, Pred.blank_through.map_optional, hps]
  · simp only [List.map_cons, List.map_nil, hpq]

theorem form_keys (schema : Schema) (m : Model) (entries : Json.Entries) :
    (form schema m entries).map (·.1) = entries.map (·.1) := by
  induction entries with
  | nil => rfl
  | cons e rest ih => simp only [form, List.map_cons, ih]

theorem form_quantifiers_keys (schema : Schema) (r : Relation) (entries : Json.Entries) :
    (formQuantifiers schema r entries).map (·.1) = entries.map (·.1) := by
  induction entries with
  | nil => rfl
  | cons e rest ih => simp only [formQuantifiers, List.map_cons, ih]

theorem count_of_keys {entries entries' : Json.Entries}
    (h : entries'.map (·.1) = entries.map (·.1)) :
    Quantifier.count entries' = Quantifier.count entries := by
  have hcount : ∀ es : Json.Entries, Quantifier.count es =
      (es.map (·.1)).countP fun key => (Quantifier.ofKey? key).isSome := by
    intro es
    rw [List.countP_map]
    rfl
  rw [hcount, hcount, h]

mutual

theorem conditions_agree (s : Settings) (cx : Context) (e : Extension)
    (entries : List (String × Json)) :
    AgreeOn (List.map Pred.blank) (conditions s cx entries)
      (conditions s (cx.extended e) (form s.schema cx.model entries)) := by
  match entries with
  | [] => exact AgreeOn.refl _
  | (key, value) :: rest =>
    have hrest := conditions_agree s cx e rest
    rw [form, conditions, conditions]
    refine AgreeOn.after_lift fun k hkey => ?_
    rcases FilterKey.resolve_ok hkey with ⟨c, hk, rfl⟩ | ⟨hk, f, hf, rfl⟩ | ⟨hk, hf, r, hr, rfl⟩
    · simp only [hk]
      exact AgreeOn.prepend (AgreeOn.present (connective_agree s cx e c value)) hrest
    · simp only [hk, hf]
      exact AgreeOn.prepend (AgreeOn.lift (Condition.compile_agree cx.model f _ value)) hrest
    · simp only [hk, hf, hr]
      exact AgreeOn.prepend (AgreeOn.present (relation_agree s cx e r value)) hrest

theorem connective_agree (s : Settings) (cx : Context) (e : Extension) (c : Connective)
    (value : Json) :
    AgreeOn Pred.blank (connective s cx c value)
      (connective s (cx.extended e) c (formOperand s.schema cx.model value)) := by
  rw [connective, connective, Context.extended_model, Connective.check_operand_form]
  refine AgreeOn.after fun _ => ?_
  match value with
  | .obj entries =>
    refine AgreeOn.bind (f := List.map (Option.map Pred.blank))
      (AgreeOn.map (conditions_agree s cx e entries) fun ps qs h => ?_)
      fun os os' h => AgreeOn.lift (Connective.apply_agree cx.model c h)
    simp only [List.map_cons, List.map_nil, Pred.blank_through.map_optional, h]
  | .arr items =>
    exact AgreeOn.bind (each_agree s cx e items)
      fun os os' h => AgreeOn.lift (Connective.apply_agree cx.model c h)
  | .null | .bool _ | .num _ | .str _ => exact AgreeOn.refl _

theorem each_agree (s : Settings) (cx : Context) (e : Extension) (items : List Json) :
    AgreeOn (List.map (Option.map Pred.blank)) (each s cx items)
      (each s (cx.extended e) (formItems s.schema cx.model items)) := by
  match items with
  | [] => exact AgreeOn.refl _
  | .obj entries :: rest =>
    rw [formItems, each, each]
    refine AgreeOn.bind (conditions_agree s cx e entries) fun ps qs h =>
      AgreeOn.bind (each_agree s cx e rest) fun os os' ho => AgreeOn.of_pure ?_
    rw [List.map_cons, List.map_cons, Pred.blank_through.map_optional,
      Pred.blank_through.map_optional, h, ho]
  | .null :: rest | .bool _ :: rest | .num _ :: rest | .str _ :: rest | .arr _ :: rest =>
    simp only [formItems, each]
    exact each_agree s cx e rest

theorem relation_agree (s : Settings) (cx : Context) (e : Extension) (r : Relation)
    (value : Json) :
    AgreeOn Pred.blank (relation s cx r value)
      (relation s (cx.extended e) r (formRelation s.schema r value)) := by
  match value with
  | .null | .bool _ | .num _ | .str _ | .arr _ => exact AgreeOn.refl _
  | .obj entries =>
    by_cases hz : Quantifier.count entries = 0
    · cases ht : s.schema.model? r.target with
      | none =>
        simp only [formRelation, if_pos hz, ht]
        rw [relation, relation, if_pos hz, if_pos hz]
        exact AgreeOn.refl _
      | some target =>
        have hz' := (count_of_keys (form_keys s.schema target entries)).trans hz
        simp only [formRelation, if_pos hz, ht]
        rw [relation, relation, if_pos hz, if_pos hz']
        match entries with
        | [] => exact AgreeOn.refl _
        | entry :: rest =>
          simp only [form, List.isEmpty_cons, Bool.false_eq_true, if_false]
          exact subquery_agree ht fun tag =>
            conditions_agree s (cx.nested r target tag) .none (entry :: rest)
    · have hkeys := form_quantifiers_keys s.schema r entries
      have hlen : (formQuantifiers s.schema r entries).length = entries.length := by
        simpa using congrArg List.length hkeys
      simp only [formRelation, if_neg hz]
      rw [relation, relation, count_of_keys hkeys, hlen, if_neg hz, if_neg hz]
      split
      · exact AgreeOn.refl _
      · refine AgreeOn.map (quantifiers_agree s cx e r entries) fun ps qs h => ?_
        rw [Pred.blank_through.map_all, Pred.blank_through.map_all, h]

theorem quantifiers_agree (s : Settings) (cx : Context) (e : Extension) (r : Relation)
    (entries : List (String × Json)) :
    AgreeOn (List.map Pred.blank) (quantifiers s cx r entries)
      (quantifiers s (cx.extended e) r (formQuantifiers s.schema r entries)) := by
  match entries with
  | [] => exact AgreeOn.refl _
  | (key, value) :: rest =>
    rw [formQuantifiers, quantifiers, quantifiers]
    cases Quantifier.ofKey? key with
    | none => exact AgreeOn.append (AgreeOn.refl _) (quantifiers_agree s cx e r rest)
    | some q =>
      refine AgreeOn.append (AgreeOn.map (quantified_agree s cx e r q value) fun p p' hp => ?_)
        (quantifiers_agree s cx e r rest)
      rw [List.map_singleton, List.map_singleton, hp]

theorem quantified_agree (s : Settings) (cx : Context) (e : Extension) (r : Relation)
    (q : Quantifier) (value : Json) :
    AgreeOn Pred.blank (quantified s cx r q value)
      (quantified s (cx.extended e) r q (formQuantified s.schema r value)) := by
  rw [quantified.eq_def, quantified.eq_def]
  split
  · exact AgreeOn.refl _
  · match value with
    | .null | .bool _ | .num _ | .str _ | .arr _ => exact AgreeOn.refl _
    | .obj entries =>
      cases ht : s.schema.model? r.target with
      | none =>
        simp only [formQuantified, ht]
        exact AgreeOn.refl _
      | some target =>
        simp only [formQuantified, ht]
        match entries with
        | [] => exact AgreeOn.refl _
        | entry :: rest =>
          simp only [form, List.isEmpty_cons, Bool.false_eq_true, if_false]
          exact subquery_agree ht fun tag =>
            conditions_agree s (cx.nested r target tag) .none (entry :: rest)

end

theorem compile_agree (s : Settings) (cx : Context) (e : Extension) (entries : Json.Entries) :
    AgreeOn (Option.map Pred.blank) (compile s cx entries)
      (compile s (cx.extended e) (form s.schema cx.model entries)) := by
  refine AgreeOn.map (conditions_agree s cx e entries) fun ps qs h => ?_
  rw [Pred.blank_through.map_optional, Pred.blank_through.map_optional, h]

theorem compile_optional_agree (s : Settings) (cx : Context) (e : Extension)
    (filter : Option Json.Entries) :
    AgreeOn (Option.map Pred.blank) (compile? s cx filter)
      (compile? s (cx.extended e) (filter.map (form s.schema cx.model))) := by
  cases filter with
  | none => exact AgreeOn.refl _
  | some entries => exact compile_agree s cx e entries

end Filter

end QuerySql
