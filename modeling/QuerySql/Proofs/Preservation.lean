import QuerySql.Proofs.Meaning
import QuerySql.Proofs.Success.Statement

/-!
# Compiled filters keep their meaning

At every row of every database the predicate of a filter has the truth value
that the filter itself has. A subquery is correct because its alias is newer
than every alias around it: binding it hides none of the rows that the link
refers to, and the not-null guards of a link add nothing to its equalities.
-/

set_option autoImplicit false

namespace QuerySql

variable {α : Type} (db : Database α)

namespace Condition

theorem fold_eval (σ : Scope α) (mode : Mode) (s : Scalar) :
    (mode.fold s).eval db σ = mode.cell db (s.eval db σ) := by
  cases mode with
  | sensitive => rfl
  | insensitive => rfl

theorem binds_cell {json : Json} {v : Value} (h : Binds json v) :
    json.cell db = db.bound v := by
  simp only [Json.cell, h.2, Option.bind_some]

theorem binds_cells {items : List Json} {vs : List Value} (h : List.Forall₂ Binds items vs) :
    items.map (fun json => json.cell db) = vs.map db.bound := by
  induction h with
  | nil => rfl
  | cons hv _ ih => rw [List.map_cons, List.map_cons, binds_cell db hv, ih]

theorem truth_of_comparison {mode : Mode} {cell : Cell α} {op : FieldOperator} {c : Comparison}
    {json : Json} (hc : op.comparison? = some c) (hn : json ≠ .null) :
    op.truth db mode cell json = mode.compare db c cell json := by
  cases op with
  | equals | not =>
    cases hc
    cases json with
    | null => exact absurd rfl hn
    | bool _ | num _ | str _ | arr _ | obj _ => rfl
  | compare op =>
    cases hc
    rfl
  | isIn _ | pattern _ | unsupported _ => cases hc

theorem operates_eval (σ : Scope α) {f : Field} {lhs : Scalar} {mode : Mode}
    {op : FieldOperator} {json : Json} {p : Pred} (h : Operates f lhs mode op json p) :
    p.eval db σ = op.truth db mode (lhs.eval db σ) json := by
  cases h with
  | isNull => simp [Pred.eval, FieldOperator.truth]
  | isNotNull => cases hc : lhs.eval db σ <;> simp [Pred.eval, FieldOperator.truth, hc]
  | @compare op c json v hc hv =>
    rw [truth_of_comparison db hc hv.1, Pred.eval, fold_eval, fold_eval, Mode.compare,
      binds_cell db hv]
    rfl
  | @noItems negated => cases negated <;> rfl
  | @isIn negated items vs _ hvs =>
    have hcells := congrArg (List.map (mode.cell db)) (binds_cells db hvs)
    simp only [List.map_map, Function.comp_def] at hcells
    simp only [Pred.eval, FieldOperator.truth, fold_eval, List.map_map, Function.comp_def, hcells]
    rfl
  | pattern _ => simp only [Pred.eval, FieldOperator.truth, fold_eval, Scalar.eval]

theorem operates_no_object {f : Field} {lhs : Scalar} {mode : Mode} {op : FieldOperator}
    {entries : Json.Entries} {p : Pred} (h : Operates f lhs mode op (.obj entries) p) : False := by
  cases h with
  | compare hc hv => cases hv.2

theorem mode_within {m : Model} {f : Field} {mode inner : Mode} {entries : Json.Entries}
    (h : Condition.mode m f mode entries = .ok inner) : inner = mode.within entries := by
  unfold Condition.mode at h
  unfold Mode.within
  split at h
  · rename_i hk
    cases h
    rw [hk]
  · rename_i json hk
    rw [hk]
    split at h
    · split at h
      · rename_i text ht
        cases h
        rw [ht]
        rfl
      · split at h
        · rename_i text _ ht
          split at h
          · cases h
            rw [ht]
            rfl
          · cases h
        · cases h
    · cases h

theorem runs_states {m : Model} {f : Field} {lhs : Scalar} {mode : Mode}
    {entries : Json.Entries} {ps : List Pred} (h : Runs m f lhs mode entries ps) :
    states entries = !ps.isEmpty := by
  induction h with
  | nil => rfl
  | mode _ ih => simpa [states] using ih
  | @negation mode inner nested rest qs ps _ _ _ ihn ih =>
    cases qs <;> simp_all [states, statesValue, modeKey, Pred.all?]
  | @operator mode key op json rest p ps hne _ here _ _ =>
    have hv : statesValue json = true := by
      cases json with
      | obj _ => exact (operates_no_object here).elim
      | null | bool _ | num _ | str _ | arr _ => rfl
    simp [states, hne, hv]

theorem runs_eval (σ : Scope α) {m : Model} {f : Field} {lhs : Scalar} {mode : Mode}
    {entries : Json.Entries} {ps : List Pred} (h : Runs m f lhs mode entries ps) :
    Truth.all (ps.map (Pred.eval db σ)) = operatorsTruth db (lhs.eval db σ) mode entries := by
  induction h with
  | nil => rfl
  | mode _ ih => rw [ih, operatorsTruth, if_pos rfl]; rfl
  | @negation mode inner nested rest qs ps hm here _ ihn ih =>
    have hs := runs_states here
    have hi := mode_within hm
    rw [operatorsTruth, if_neg (by decide), operatorTruth, List.map_append, Truth.all_append, ih]
    congr 1
    cases qs with
    | nil =>
      rw [hs]
      rfl
    | cons q qs =>
      rw [hs, ← hi, ← ihn, ← Pred.eval_all db σ (q :: qs)]
      exact Truth.and_yes _
  | @operator mode key op json rest p ps hne hk here _ ih =>
    have ho : operatorTruth db (lhs.eval db σ) mode key json =
        op.truth db mode (lhs.eval db σ) json := by
      cases json with
      | obj _ => exact (operates_no_object here).elim
      | null | bool _ | num _ | str _ | arr _ => simp only [operatorTruth, hk]
    rw [List.map_cons, Truth.all_cons, ih, operatorsTruth, if_neg hne, ho, operates_eval db σ here]

theorem compiles_eval (σ : Scope α) {m : Model} {f : Field} {lhs : Scalar} {json : Json}
    {p : Option Pred} (h : Compiles m f lhs json p) :
    Pred.evalOption db σ p = truth db (lhs.eval db σ) json := by
  cases h with
  | null => simp [Pred.evalOption, Pred.eval, truth]
  | scalar hv =>
    have ht : truth db (lhs.eval db σ) json =
        Mode.sensitive.compare db .eq (lhs.eval db σ) json := by
      obtain ⟨hn, ho⟩ := hv
      cases json with
      | null => exact absurd rfl hn
      | obj _ => cases ho
      | bool _ | num _ | str _ | arr _ => rfl
    rw [ht, Mode.compare, binds_cell db hv]
    rfl
  | operators hm here =>
    rw [Pred.eval_option_all?, runs_eval db σ here, truth, mode_within hm]

end Condition

theorem Connective.apply_eval (σ : Scope α) {m : Model} {c : Connective}
    {os : List (Option Pred)} {p : Pred} (h : c.apply m os = .ok p) :
    p.eval db σ = c.truth (os.map (Pred.evalOption db σ)) := by
  cases c with
  | and =>
    cases h
    rw [Connective.truth, Pred.all_eval_option, ← Pred.eval_option_all?]
    cases Pred.all? (os.filterMap id) <;> rfl
  | or =>
    cases h
    rw [Connective.truth, Pred.eval_any, List.map_map]
    congr 1
    apply List.map_congr_left
    intro o _
    cases o <;> rfl
  | not =>
    simp only [Connective.apply] at h
    split at h
    · rename_i q hq
      cases h
      rw [Connective.truth, Pred.all_eval_option, hq, Pred.eval]
      simp
    · cases h

namespace Link

theorem keys_links {r : Relation} (h : r.cardinality ≠ .manyToMany) (parent child : Row α) :
    r.links db parent child =
      r.pairs.all fun p => db.compareCells .eq (child p.2) (parent p.1) = .yes := by
  unfold Relation.links
  split
  · contradiction
  · rfl

theorem guard_eval (σ : Scope α) (r : Relation) (parent child : Context) (own referenced : String)
    (h : (equality parent child own referenced).eval db σ = .yes) :
    (guard r parent child own referenced).eval db σ = .yes := by
  obtain ⟨hchild, hparent⟩ := db.cells_of_compare h
  unfold guard
  split
  · simpa [Pred.eval, Scalar.eval] using hchild
  · simpa [Pred.eval, Scalar.eval] using hparent

theorem joins_eval (σ : Scope α) {r : Relation} {parent child : Context} {links : List Pred}
    {a b : Aliases} (h : Joins r parent child links a b) (hp : parent.tag.index < a.used)
    (hc : child.tag.index < a.used) :
    Truth.all (links.map (Pred.eval db σ)) = .yes ↔
      r.links db (σ.row parent.tag) (σ.row child.tag) = true := by
  cases h with
  | keys hcard =>
    rw [keys_links db hcard, List.all_eq_true, Truth.all_eq_yes]
    simp only [List.map_append, List.map_map, List.mem_append, List.mem_map, decide_eq_true_eq]
    constructor
    · intro h p hmem
      exact h _ (.inl ⟨p, hmem, rfl⟩)
    · rintro h t (⟨p, hmem, rfl⟩ | ⟨p, hmem, rfl⟩)
      · exact h p hmem
      · exact guard_eval db σ r parent child p.1 p.2 (h p hmem)
  | @junction _ j own referenced rest hcard hj hpairs =>
    have hp' : parent.tag ≠ ⟨a.used⟩ := fun e => by simp [e] at hp
    have hc' : child.tag ≠ ⟨a.used⟩ := fun e => by simp [e] at hc
    simp only [Relation.links, hcard, hj, hpairs, List.map_cons, List.map_nil, Truth.all_cons,
      Truth.all_nil, Truth.and_yes, junctionRow, Pred.eval, Truth.of_bool_eq_yes, Bool.bne_false,
      Pred.evalAll, Scalar.eval, Scope.cell, Scope.bind_row_self, Truth.and_eq_yes,
      σ.bind_row_other _ hp', σ.bind_row_other _ hc', Bool.decide_and]

end Link

namespace Filter

variable (schema : Schema)

/-- What the nested filter of a subquery says of a child row. -/
def nestedTruth (target : Model) (child : Row α) : Option (Connective × Json.Entries) → Truth
  | none => .yes
  | some (c, entries) => c.truth [truth db schema target child entries]

/-- The predicates have the truth of what they were compiled from, at the row
that stands under the alias of the context. -/
def Outcome.Means (σ : Scope α) : Outcome → Prop
  | .conditions cx entries ps =>
    Truth.all (ps.map (Pred.eval db σ)) = truth db schema cx.model (σ.row cx.tag) entries
  | .connective cx c value p =>
    p.eval db σ = c.truth (operandTruths db schema cx.model (σ.row cx.tag) value)
  | .each cx items os =>
    os.map (Pred.evalOption db σ) = itemTruths db schema cx.model (σ.row cx.tag) items
  | .relation cx r value p => p.eval db σ = relationTruth db schema (σ.row cx.tag) r value
  | .quantifiers cx r entries ps =>
    Truth.all (ps.map (Pred.eval db σ)) = quantifierTruths db schema (σ.row cx.tag) r entries
  | .quantified cx r q value p => p.eval db σ = quantifiedTruth db schema (σ.row cx.tag) r q value
  | .subquery cx r negated nested p =>
    p.eval db σ = .ofBool (((r.related db schema (σ.row cx.tag)).any fun c =>
      nestedTruth db schema c.1 c.2 nested = .yes) != negated)

theorem nested_and (target : Model) (child : Row α) (entries : Json.Entries) :
    nestedTruth db schema target child (nestedFilter .and entries) =
      truth db schema target child entries := by
  unfold nestedFilter
  cases entries with
  | nil => simp [nestedTruth, truth]
  | cons e rest => simp [nestedTruth, Connective.truth]

theorem quantifier_subquery (q : Quantifier) (entries : Json.Entries)
    (hne : q = .every → entries ≠ []) (related : List (Model × Row α)) :
    q.truth (related.map fun c => truth db schema c.1 c.2 entries) =
      .ofBool ((related.any fun c =>
        nestedTruth db schema c.1 c.2 (nestedFilter q.connective entries) = .yes) !=
          q.negated) := by
  by_cases hq : q = .every
  · subst hq
    have hn : nestedFilter Quantifier.every.connective entries = some (.not, entries) := by
      cases entries with
      | nil => exact absurd rfl (hne rfl)
      | cons e rest => rfl
    simp [hn, nestedTruth, Connective.truth, Truth.not_eq_yes, Quantifier.truth,
      Quantifier.negated, List.any_map, Function.comp_def]
  · have hc : q.connective = .and := if_neg hq
    rw [hc]
    cases q <;> simp [nested_and, Quantifier.truth, Quantifier.negated, List.any_map,
      Function.comp_def] at hq ⊢

/-- A subquery finds a related row that its conditions hold of. The new alias
stands for the row that is tried, all others for what they stood for. -/
theorem subquery_eval (σ : Scope α) (ps : List Pred) {cx : Context} {r : Relation}
    {target : Model} {tag : Alias} {links : List Pred} {negated : Bool}
    {nested : Option (Connective × Json.Entries)} {a b : Aliases}
    (ht : schema.model? r.target = some target)
    (link : Link.Joins r cx (cx.nested r target tag) links a b)
    (hcx : cx.tag.index < tag.index) (htag : tag.index < a.used)
    (hps : ∀ row, Truth.all (ps.map (Pred.eval db (σ.bind tag row))) =
      nestedTruth db schema target row nested) :
    (Pred.related negated target.tableName tag (ps ++ links)).eval db σ =
      .ofBool (((r.related db schema (σ.row cx.tag)).any fun c =>
        nestedTruth db schema c.1 c.2 nested = .yes) != negated) := by
  have hne : cx.tag ≠ tag := fun e => by simp [e] at hcx
  have hrow : ∀ row, (Truth.all (Pred.evalAll db (σ.bind tag row) (ps ++ links)) = .yes) ↔
      (r.links db (σ.row cx.tag) row = true ∧
        nestedTruth db schema target row nested = .yes) := by
    intro row
    have hlink := Link.joins_eval db (σ.bind tag row) link (Nat.lt_trans hcx htag) htag
    rw [σ.bind_row_other row hne] at hlink
    rw [Pred.eval_all_eq_map, List.map_append, Truth.all_append, Truth.and_eq_yes, hps, hlink,
      and_comm]
    simp [Context.nested]
  simp only [Pred.eval, Relation.related, ht, List.any_map, List.any_filter, Function.comp_def,
    hrow, Bool.decide_and, Bool.decide_eq_true]

theorem runs_mean {s : Settings} {o : Outcome} {a b : Aliases} (h : Runs s o a b)
    (hcx : o.context.tag.index < a.used) (σ : Scope α) : o.Means db s.schema σ := by
  -- a subquery binds a row to an alias not yet handed out, which leaves the row at hand alone
  induction h generalizing σ with
  | nil => rfl
  | connectiveEntry hk here _ ih ihl =>
    have hl := ihl (Nat.lt_of_lt_of_le hcx (runs_used here)) σ
    simp only [Outcome.Means, Outcome.context] at hl ih ⊢
    rw [List.map_cons, Truth.all_cons, hl, ih hcx σ, truth, hk]
  | @fieldEntry cx _ _ _ f _ _ _ _ hk hf here _ ih =>
    have hl := ih hcx σ
    have hc := Condition.compiles_eval db σ here
    simp only [Outcome.Means] at hl ⊢
    rw [List.map_append, Truth.all_append, hl, Pred.all_to_list, hc, truth, hk, hf]
    rfl
  | relationEntry hk hf hr here _ ih ihl =>
    have hl := ihl (Nat.lt_of_lt_of_le hcx (runs_used here)) σ
    simp only [Outcome.Means, Outcome.context] at hl ih ⊢
    rw [List.map_cons, Truth.all_cons, hl, ih hcx σ, truth, hk, hf, hr]
  | object _ hp ih =>
    have ho := ih hcx σ
    simp only [Outcome.Means] at ho ⊢
    rw [Connective.apply_eval db σ hp, operandTruths, ← ho, List.map_singleton,
      Pred.eval_option_all?]
  | array _ _ hp ih =>
    have ho := ih hcx σ
    simp only [Outcome.Means] at ho ⊢
    rw [Connective.apply_eval db σ hp, operandTruths, ho]
  | noItem => rfl
  | item here _ ih ihl =>
    have hh := ih hcx σ
    have hl := ihl (Nat.lt_of_lt_of_le hcx (runs_used here)) σ
    simp only [Outcome.Means] at hh hl ⊢
    rw [List.map_cons, hl, itemTruths, Pred.eval_option_all?, hh]
  | absent _ _ ih =>
    have hsub := ih hcx σ
    simp only [Outcome.Means, nestedTruth] at hsub ⊢
    rw [hsub, relationTruth]
    cases Relation.related db _ s.schema _ <;> simp
  | bare hq _ ih =>
    have hsub := ih hcx σ
    simp only [Outcome.Means] at hsub ⊢
    rw [hsub, relationTruth, if_pos hq, quantifier_subquery db _ .some _ (by simp)]
    rfl
  | keywords hz _ _ ih =>
    have hall := ih hcx σ
    simp only [Outcome.Means] at hall ⊢
    rw [Pred.eval_all, hall, relationTruth, if_neg hz]
  | noQuantifier => rfl
  | quantifier hk here _ ih ihl =>
    have hh := ih hcx σ
    have hl := ihl (Nat.lt_of_lt_of_le hcx (runs_used here)) σ
    simp only [Outcome.Means] at hh hl ⊢
    rw [List.map_cons, Truth.all_cons, hl, hh, quantifierTruths, hk]
  | everyRecord _ =>
    simp [Outcome.Means, Pred.eval, quantifiedTruth, Quantifier.truth, truth]
  | matching _ hne _ ih =>
    have hsub := ih hcx σ
    simp only [Outcome.Means] at hsub ⊢
    rw [hsub, quantifiedTruth, quantifier_subquery db _ _ _ hne]
  | @presence _ _ q _ _ _ hq _ _ ih =>
    have hsub := ih hcx σ
    simp only [Outcome.Means] at hsub ⊢
    rw [hsub, quantifiedTruth]
    cases q <;> cases Relation.related db _ s.schema _ <;>
      simp [nestedTruth, Quantifier.negated, Quantifier.isToMany] at hq ⊢
  | unfiltered ht _ link =>
    exact subquery_eval db s.schema σ [] ht link hcx (Nat.lt_succ_self _) (fun _ => rfl)
  | @filtered cx r _ c entries target ps links p a _ _ ht _ nested hp link ih =>
    have hps : ∀ row, Truth.all ([p].map (Pred.eval db (σ.bind ⟨a.used⟩ row))) =
        nestedTruth db s.schema target row (some (c, entries)) := by
      intro row
      have hn := ih (Nat.lt_succ_self _) (σ.bind ⟨a.used⟩ row)
      simp only [Outcome.Means, Context.nested, Scope.bind_row_self] at hn
      rw [List.map_singleton, Truth.all_cons, Truth.all_nil, Truth.and_yes,
        Connective.apply_eval db _ hp, List.map_singleton, Pred.eval_option_all?, hn, nestedTruth]
    exact subquery_eval db s.schema σ [p] ht link hcx (runs_used nested) hps

end Filter

/-- A filter compiles to the text of a predicate that has the filter's own truth
at every row of every database. -/
theorem filter_keeps_meaning (c : Compiler) (model : String) (entries : Json.Entries)
    (p : Fragment) (h : c.filter model entries = .ok (some p)) :
    ∃ m e, c.schema.model? model = some m ∧ Pred.render c.dialect e = p ∧
      ∀ (β : Type) (db : Database β) (σ : Scope β) (row : Row β),
        e.eval db (σ.bind ⟨0⟩ row) = Filter.truth db c.schema m row entries := by
  obtain ⟨m, ps, b, hm, hrun, hp⟩ := Compiler.filter_ok h
  obtain ⟨e, he, rfl⟩ := Option.map_eq_some_iff.mp hp.symm
  refine ⟨m, e, hm, rfl, ?_⟩
  intro β db σ row
  have hmean := Filter.runs_mean db hrun Nat.zero_lt_one (σ.bind ⟨0⟩ row)
  have hall := Pred.eval_option_all? db (σ.bind ⟨0⟩ row) ps
  rw [he] at hall
  exact hall.trans (by simpa [Filter.Outcome.Means, Context.atRoot, Compiler.settings] using hmean)

def Sample.filter : Json.Entries :=
  [("name", .obj [("not", .obj [("contains", .str "a%"), ("mode", .str "insensitive")])]),
    ("posts", .obj [("every", .obj [("tags", .obj [("some", .obj [("label", .str "x")])])])]),
    ("OR", .arr [.obj [("age", .null)], .obj [("posts", .obj [("none", .obj [])])]])]

theorem sample_filter_keeps_meaning : ∃ p,
    (Sample.compiler .mysql).filter "User" Sample.filter = .ok (some p) ∧
      ∃ m e, Sample.schema.model? "User" = some m ∧ Pred.render Dialect.mysql e = p ∧
        ∀ (β : Type) (db : Database β) (σ : Scope β) (row : Row β),
          e.eval db (σ.bind ⟨0⟩ row) = Filter.truth db Sample.schema m row Sample.filter :=
  ⟨_, rfl, filter_keeps_meaning (Sample.compiler .mysql) "User" Sample.filter _ rfl⟩

end QuerySql
