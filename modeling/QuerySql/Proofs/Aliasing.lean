import QuerySql.Proofs.Scope
import QuerySql.Proofs.Success.Statement

/-!
# Aliases of a query

A compilation hands out its aliases one after the other, and each goes to one
table or derived table of the statement. Whatever a clause refers to was given
its alias in a query around it.
-/

set_option autoImplicit false

namespace QuerySql

structure Aliases.HandsOut (a b : Aliases) (tags : List Alias) : Prop where
  le : a.used ≤ b.used
  perm : tags.Perm ((List.range' a.used (b.used - a.used)).map Alias.mk)

namespace Aliases.HandsOut

variable {a b c : Aliases} {xs ys : List Alias}

theorem nil : a.HandsOut a [] := ⟨Nat.le_refl _, by simp⟩

theorem next : a.HandsOut ⟨a.used + 1⟩ [⟨a.used⟩] := ⟨Nat.le_succ _, by simp⟩

theorem append (hx : a.HandsOut b xs) (hy : b.HandsOut c ys) : a.HandsOut c (xs ++ ys) := by
  have hab := hx.le
  have hbc := hy.le
  have hrange : List.range' a.used (c.used - a.used) =
      List.range' a.used (b.used - a.used) ++ List.range' b.used (c.used - b.used) := by
    have hb : b.used = a.used + (b.used - a.used) := by omega
    have hc : c.used - a.used = (b.used - a.used) + (c.used - b.used) := by omega
    rw [hc, ← List.range'_append_1, ← hb]
  refine ⟨Nat.le_trans hab hbc, ?_⟩
  rw [hrange, List.map_append]
  exact hx.perm.append hy.perm

theorem of_perm (hx : a.HandsOut b xs) (h : ys.Perm xs) : a.HandsOut b ys :=
  ⟨hx.le, h.trans hx.perm⟩

end Aliases.HandsOut

/-- Parts of a statement of which each sees what it refers to, with the aliases
handed out meanwhile going to subqueries in them. -/
structure Aliases.Covers {α : Type} (tags : α → List Alias) (sees : α → Prop) (a b : Aliases)
    (xs : List α) : Prop where
  tags : a.HandsOut b (xs.flatMap tags)
  within : ∀ x ∈ xs, sees x

namespace Aliases.Covers

variable {α : Type} {tags : α → List Alias} {sees : α → Prop} {a b c : Aliases} {xs ys : List α}

theorem plain (h : ∀ x ∈ xs, tags x = [] ∧ sees x) : Covers tags sees a a xs := by
  have htags : xs.flatMap tags = [] := List.flatMap_eq_nil_iff.mpr fun x hx => (h x hx).1
  exact ⟨htags ▸ HandsOut.nil, fun x hx => (h x hx).2⟩

theorem nil : Covers tags sees a a [] := plain (List.forall_mem_nil _)

theorem single {x : α} (ht : tags x = []) (hs : sees x) : Covers tags sees a a [x] :=
  plain (List.forall_mem_singleton.mpr ⟨ht, hs⟩)

theorem append (hx : Covers tags sees a b xs) (hy : Covers tags sees b c ys) :
    Covers tags sees a c (xs ++ ys) :=
  ⟨List.flatMap_append ▸ hx.tags.append hy.tags, List.forall_mem_append.mpr ⟨hx.within, hy.within⟩⟩

theorem cons {x : α} (hx : Covers tags sees a b [x]) (hy : Covers tags sees b c ys) :
    Covers tags sees a c (x :: ys) :=
  hx.append hy

theorem gather {x : α} (h : Covers tags sees a b xs) (ht : tags x = xs.flatMap tags)
    (hs : sees x) : Covers tags sees a b [x] := by
  refine ⟨?_, List.forall_mem_singleton.mpr hs⟩
  rw [List.flatMap_singleton, ht]
  exact h.tags

end Aliases.Covers

namespace Pred

abbrev Placed (visible : List Alias) (a b : Aliases) (ps : List Pred) : Prop :=
  Aliases.Covers tags (Within visible) a b ps

theorem tags_all_eq (ps : List Pred) : tagsAll ps = ps.flatMap tags := by
  induction ps with
  | nil => rfl
  | cons p ps ih => rw [tagsAll, ih, List.flatMap_cons]

namespace Placed

variable {visible : List Alias} {a b : Aliases} {ps : List Pred}

theorem conjunction (h : Placed visible a b ps) : Placed visible a b [Pred.all ps] := by
  match ps with
  | [p] => exact h
  | [] => exact h.gather rfl (.and h.within)
  | p :: q :: ps => exact h.gather (tags_all_eq (p :: q :: ps)) (.and h.within)

theorem disjunction (h : Placed visible a b ps) : Placed visible a b [Pred.any ps] := by
  match ps with
  | [p] => exact h
  | [] => exact h.gather rfl (.or h.within)
  | p :: q :: ps => exact h.gather (tags_all_eq (p :: q :: ps)) (.or h.within)

theorem optional (h : Placed visible a b ps) : Placed visible a b (Pred.all? ps).toList := by
  cases ps with
  | nil => exact h
  | cons p ps => exact conjunction h

theorem present {o : Option Pred} (h : Placed visible a b o.toList) :
    Placed visible a b [o.getD (.truth true)] := by
  cases o with
  | none => exact h.gather rfl .truth
  | some p => exact h

theorem related {negated : Bool} {table : String}
    (h : Placed (⟨a.used⟩ :: visible) ⟨a.used + 1⟩ b ps) :
    Placed visible a b [.related negated table ⟨a.used⟩ ps] := by
  refine ⟨?_, List.forall_mem_singleton.mpr (.related h.within)⟩
  rw [List.flatMap_singleton, Pred.tags, tags_all_eq]
  exact Aliases.HandsOut.next.append h.tags

theorem negation {p : Pred} (h : Placed visible a b [p]) : Placed visible a b [.not p] :=
  h.gather (List.flatMap_singleton _ p).symm (.not (h.within p List.mem_cons_self))

end Placed

end Pred

theorem Connective.operand_cons (o : Option Pred) (os : List (Option Pred)) :
    (o :: os).filterMap id = o.toList ++ os.filterMap id := by
  cases o <;> rfl

theorem Connective.operand_single (o : Option Pred) : [o].filterMap id = o.toList := by
  cases o <;> rfl

theorem Connective.apply_placed {m : Model} {c : Connective} {os : List (Option Pred)} {p : Pred}
    {visible : List Alias} {a b : Aliases} (hp : c.apply m os = .ok p)
    (h : Pred.Placed visible a b (os.filterMap id)) : Pred.Placed visible a b [p] := by
  cases c with
  | and =>
    cases hp
    exact h.optional.present
  | or =>
    cases hp
    have htags : (os.map fun o => o.getD (.truth true)).flatMap Pred.tags =
        (os.filterMap id).flatMap Pred.tags := by
      clear h
      induction os with
      | nil => rfl
      | cons o os ih => cases o <;> simp [Pred.tags, ih]
    have hwithin : ∀ q ∈ os.map fun o => o.getD (.truth true), q.Within visible := by
      intro q hq
      obtain ⟨o, ho, rfl⟩ := List.mem_map.mp hq
      cases o with
      | none => exact .truth
      | some q => exact h.within q (List.mem_filterMap.mpr ⟨_, ho, rfl⟩)
    exact Pred.Placed.disjunction ⟨htags ▸ h.tags, hwithin⟩
  | not =>
    rw [apply] at hp
    split at hp
    · rename_i q hq
      cases hp
      rw [hq] at h
      exact h.negation
    · cases hp

namespace Condition

variable {visible : List Alias} {a : Aliases} {m : Model} {f : Field} {lhs : Scalar}

theorem fold_within {mode : Mode} {s : Scalar} (h : s.Within visible) :
    (mode.fold s).Within visible := by
  cases mode <;> exact h

theorem operates_placed {mode : Mode} {op : FieldOperator} {json : Json} {p : Pred}
    (h : Operates f lhs mode op json p) (hl : lhs.Within visible) :
    p.tags = [] ∧ p.Within visible := by
  cases h with
  | isNull | isNotNull => exact ⟨rfl, .isNull hl⟩
  | compare _ _ => exact ⟨rfl, .compare (fold_within hl) (fold_within trivial)⟩
  | noItems => exact ⟨rfl, .truth⟩
  | isIn _ _ =>
    refine ⟨rfl, .isIn (fold_within hl) fun item hi => ?_⟩
    obtain ⟨v, _, rfl⟩ := List.mem_map.mp hi
    exact fold_within trivial
  | pattern _ => exact ⟨rfl, .like (fold_within hl) (fold_within trivial)⟩

theorem runs_placed {mode : Mode} {entries : Json.Entries} {ps : List Pred}
    (h : Runs m f lhs mode entries ps) (hl : lhs.Within visible) :
    Pred.Placed visible a a ps := by
  induction h with
  | nil => exact .nil
  | mode _ ih => exact ih
  | @negation _ _ _ _ qs _ _ _ _ ih ihl =>
    refine .append ?_ ihl
    have hq := ih.optional
    cases ho : Pred.all? qs with
    | none => exact .nil
    | some q =>
      rw [ho] at hq
      exact hq.negation
  | operator _ _ here _ ih =>
    obtain ⟨htags, hwithin⟩ := operates_placed here hl
    exact .cons (.single htags hwithin) ih

theorem compiles_placed {json : Json} {p : Option Pred} (h : Compiles m f lhs json p)
    (hl : lhs.Within visible) : Pred.Placed visible a a p.toList := by
  cases h with
  | null => exact .single rfl (.isNull hl)
  | scalar _ => exact .single rfl (.compare hl trivial)
  | operators _ here => exact (runs_placed here hl).optional

end Condition

namespace Link

variable {r : Relation} {parent child : Context} {visible : List Alias} {ps : List Pred}
  {a b : Aliases}

theorem equality_placed {own referenced : String} (hp : parent.tag ∈ visible)
    (hc : child.tag ∈ visible) : (equality parent child own referenced).tags = [] ∧
      (equality parent child own referenced).Within visible :=
  ⟨rfl, .compare hc hp⟩

theorem guard_placed {own referenced : String} (hp : parent.tag ∈ visible)
    (hc : child.tag ∈ visible) : (guard r parent child own referenced).tags = [] ∧
      (guard r parent child own referenced).Within visible := by
  unfold guard
  split
  · exact ⟨rfl, .isNull hc⟩
  · exact ⟨rfl, .isNull hp⟩

theorem junction_placed {j : Junction} {own referenced : String} (hp : parent.tag ∈ visible)
    (hc : child.tag ∈ visible) :
    Pred.Placed visible a ⟨a.used + 1⟩ [junctionRow j ⟨a.used⟩ parent child own referenced] := by
  have hown : (⟨a.used⟩ : Alias) ∈ (⟨a.used⟩ : Alias) :: visible := List.mem_cons_self
  exact .related (.cons (.single rfl (.compare hown (List.mem_cons_of_mem _ hc)))
    (.single rfl (.compare hown (List.mem_cons_of_mem _ hp))))

theorem joins_placed (h : Joins r parent child ps a b) (hp : parent.tag ∈ visible)
    (hc : child.tag ∈ visible) : Pred.Placed visible a b ps := by
  cases h with
  | keys _ =>
    refine .plain fun p h => ?_
    rcases List.mem_append.mp h with h | h
    · obtain ⟨pair, _, rfl⟩ := List.mem_map.mp h
      exact equality_placed hp hc
    · obtain ⟨pair, _, rfl⟩ := List.mem_map.mp h
      exact guard_placed hp hc
  | junction _ _ _ => exact junction_placed hp hc

theorem correlates_placed (h : Correlates r parent child ps a b) (hp : parent.tag ∈ visible)
    (hc : child.tag ∈ visible) : Pred.Placed visible a b ps := by
  cases h with
  | keys =>
    refine .plain fun p h => ?_
    obtain ⟨pair, _, rfl⟩ := List.mem_map.mp h
    exact equality_placed hp hc
  | junction _ _ => exact junction_placed hp hc

end Link

namespace Filter

def Outcome.preds : Outcome → List Pred
  | .conditions _ _ ps | .quantifiers _ _ _ ps => ps
  | .each _ _ os => os.filterMap id
  | .connective _ _ _ p | .relation _ _ _ p | .quantified _ _ _ _ p | .subquery _ _ _ _ p => [p]

theorem runs_placed {s : Settings} {o : Outcome} {a b : Aliases} (h : Runs s o a b) :
    ∀ visible, o.context.tag ∈ visible → Pred.Placed visible a b o.preds := by
  induction h with
  | nil | noItem | noQuantifier => exact fun _ _ => .nil
  | connectiveEntry _ _ _ ih ihl | relationEntry _ _ _ _ _ ih ihl | quantifier _ _ _ ih ihl =>
    exact fun visible hv => (ih visible hv).cons (ihl visible hv)
  | fieldEntry _ _ here _ ih =>
    exact fun visible hv => (Condition.compiles_placed here hv).append (ih visible hv)
  | object _ hp ih =>
    intro visible hv
    refine Connective.apply_placed hp ?_
    rw [Connective.operand_single]
    exact (ih visible hv).optional
  | array _ _ hp ih => exact fun visible hv => Connective.apply_placed hp (ih visible hv)
  | @item _ _ _ ps os _ _ _ _ _ ih ihl =>
    intro visible hv
    rw [Outcome.preds, Connective.operand_cons]
    exact (ih visible hv).optional.append (ihl visible hv)
  | absent _ _ ih | bare _ _ ih | matching _ _ _ ih | presence _ _ _ ih => exact ih
  | keywords _ _ _ ih => exact fun visible hv => (ih visible hv).conjunction
  | everyRecord _ => exact fun _ _ => .single rfl .truth
  | unfiltered _ _ link =>
    intro visible hv
    exact .related (Link.joins_placed link (List.mem_cons_of_mem _ hv) List.mem_cons_self)
  | filtered _ _ _ hp link ih =>
    intro visible hv
    refine .related (.cons (Connective.apply_placed hp ?_)
      (Link.joins_placed link (List.mem_cons_of_mem _ hv) List.mem_cons_self))
    rw [Connective.operand_single]
    exact (ih _ List.mem_cons_self).optional

end Filter

namespace Having

def Outcome.preds : Outcome → List Pred
  | .conditions _ ps => ps
  | .connective _ _ p => [p]
  | .each _ os => os.filterMap id

variable {cx : Context} {visible : List Alias} {a : Aliases}

theorem aggregates_placed {f : Field} {entries : Json.Entries} {ps : List Pred}
    (h : Aggregates cx f entries ps) (hv : cx.tag ∈ visible) : Pred.Placed visible a a ps := by
  induction h with
  | nil => exact .nil
  | other _ _ ih => exact ih
  | aggregate _ _ here _ ih =>
    exact (Condition.compiles_placed here (by simpa [Scalar.Within, Compile.column])).append ih

theorem field_placed {f : Field} {value : Json} {ps : List Pred} (h : FieldRuns cx f value ps)
    (hv : cx.tag ∈ visible) : Pred.Placed visible a a ps := by
  cases h with
  | entries aggregates plain =>
    exact (aggregates_placed aggregates hv).append (Condition.compiles_placed plain hv)
  | literal _ plain => exact Condition.compiles_placed plain hv

theorem runs_placed {o : Outcome} (h : Runs cx o) (hv : cx.tag ∈ visible) :
    Pred.Placed visible a a o.preds := by
  induction h with
  | nil | noItem => exact .nil
  | connectiveEntry _ _ _ ih ihl => exact ih.cons ihl
  | fieldEntry _ _ here _ ih => exact (field_placed here hv).append ih
  | @object _ _ ps _ _ hp ih =>
    refine Connective.apply_placed hp ?_
    rw [Connective.operand_single]
    exact ih.optional
  | array _ _ hp ih => exact Connective.apply_placed hp ih
  | @item _ _ ps os _ _ ih ihl =>
    rw [Outcome.preds, Connective.operand_cons]
    exact ih.optional.append ihl

end Having

theorem Keyset.past_placed {cx : Context} {orderBy : Option (List Json.Entries)}
    {cursor : Option Json.Entries} {qs : List Pred} {visible : List Alias} {a : Aliases}
    (h : Keyset.Past cx orderBy cursor qs) (hv : cx.tag ∈ visible) :
    Pred.Placed visible a a qs := by
  cases h with
  | none => exact .nil
  | @some _ ks direction bounds _ _ _ hbounds =>
    have hcolumns : ∀ b ∈ bounds, b.1.tag ∈ visible :=
      fun b hb => Column.tag_of_reads (Keyset.bounds_read hbounds b hb) ▸ hv
    unfold Keyset.row
    split
    · exact .single rfl (.compare (hcolumns _ List.mem_cons_self) trivial)
    · refine .single rfl (.compareRows fun c hc => ?_)
      obtain ⟨b, hb, rfl⟩ := List.mem_map.mp hc
      exact hcolumns b hb

theorem Read.filtered_placed {s : Settings} {cx : Context} {args : Args} {p : Option Pred}
    {visible : List Alias} {a b : Aliases} (h : Read.Filtered s cx args p a b)
    (hv : cx.tag ∈ visible) : Pred.Placed visible a b p.toList := by
  cases h with
  | mk conditions past =>
    have hconditions := (Filter.runs_placed conditions visible hv).optional
    exact Pred.Placed.optional (hconditions.append (Keyset.past_placed past hv))

namespace Projection

abbrev Placed (visible : List Alias) (a b : Aliases) (ps : List Projection) : Prop :=
  Aliases.Covers tags (Within visible) a b ps

theorem tags_all_eq (ps : List Projection) : tagsAll ps = ps.flatMap tags := by
  induction ps with
  | nil => rfl
  | cons p ps ih => rw [tagsAll, ih, List.flatMap_cons]

theorem Placed.of_reads {cx : Context} {visible : List Alias} {a : Aliases} {ps : List Projection}
    (h : ∀ p ∈ ps, p.Reads cx) (hv : cx.tag ∈ visible) : Placed visible a a ps := by
  refine .plain fun p hp => ?_
  have hr := h p hp
  cases p with
  | column c => exact ⟨rfl, .column (Column.tag_of_reads hr ▸ hv)⟩
  | aggregate kind c name =>
    exact ⟨rfl, .aggregate fun x hx => Column.tag_of_reads (hr.1 x hx) ▸ hv⟩
  | relation => exact absurd hr id

end Projection

theorem Pred.tags_to_list (p : Option Pred) : Pred.tags? p = p.toList.flatMap Pred.tags := by
  cases p with
  | none => rfl
  | some p => exact (List.flatMap_singleton _ p).symm

theorem Scalar.within_of_reads {cx : Context} {visible : List Alias} {s : Scalar}
    (h : s.Reads cx) (hv : cx.tag ∈ visible) : s.Within visible := by
  cases s with
  | column c =>
    rw [← Column.tag_of_reads h] at hv
    exact hv
  | aggregate kind c => exact fun x hx => Column.tag_of_reads (h x hx) ▸ hv
  | bound _ | folded _ => exact h.elim

namespace Records

theorem field_columns_placed {cx : Context} {visible : List Alias} {a : Aliases}
    (hv : cx.tag ∈ visible) : Projection.Placed visible a a (fieldColumns cx) :=
  .of_reads (field_columns_read cx) hv

theorem filtered_placed {s : Settings} {child : Context} {filter : Option Json.Entries}
    {ps : List Pred} {visible : List Alias} {a b : Aliases} (h : Filtered s child filter ps a b)
    (hv : child.tag ∈ visible) : Pred.Placed visible a b ps := by
  cases h with
  | none => exact .nil
  | some conditions => exact (Filter.runs_placed conditions visible hv).optional.present

theorem closes_placed {s : Settings} {cx child : Context} {r : Relation} {args : RelationArgs}
    {columns : List Projection} {p : Projection} {visible : List Alias} {a b d : Aliases}
    (h : Closes s cx child r args columns p b d) (ht : child.tag = ⟨a.used⟩)
    (hc : Projection.Placed (child.tag :: visible) ⟨a.used + 1⟩ b columns)
    (hv : cx.tag ∈ visible) : Projection.Placed visible a d [p] := by
  cases h with
  | @mk ps links orderBy _ c d filter link order =>
    have hown : child.tag ∈ child.tag :: visible := List.mem_cons_self
    have hlinks := Link.correlates_placed link (List.mem_cons_of_mem child.tag hv) hown
    have hfilter : Pred.Placed (child.tag :: visible) b d (Pred.all? (ps ++ links)).toList :=
      Pred.Placed.optional ((filtered_placed filter hown).append hlinks)
    refine ⟨?_, List.forall_mem_singleton.mpr (.relation hc.within ⟨?_, by simp, by simp, ?_⟩)⟩
    · -- the alias of the rows is handed out before those of the columns, and written after them
      have htags := (Aliases.HandsOut.next.append hc.tags).append
        (hfilter.tags.append Aliases.HandsOut.next)
      refine htags.of_perm ?_
      simp only [List.flatMap_singleton, Projection.tags, Projection.tags_all_eq, Body.tags,
        Pred.tags_to_list, ht]
      simp
    · exact fun q hq => hfilter.within q (Option.mem_toList.mpr hq)
    · exact fun it hit => Scalar.within_of_reads (Ordering.compile_ok order it hit) hown

def Outcome.columns : Outcome → List Projection
  | .selected _ _ ps | .inclusions _ _ ps | .relation _ _ _ ps | .nested _ _ ps => ps

theorem runs_placed {s : Settings} {o : Outcome} {a b : Aliases} (h : Runs s o a b) :
    ∀ visible, o.context.tag ∈ visible → Projection.Placed visible a b o.columns := by
  induction h with
  | noSelected | noInclusion | omitted => exact fun _ _ => .nil
  | @fieldEntry cx _ flag _ f _ _ _ hf _ ih =>
    intro visible hv
    refine .append ?_ (ih visible hv)
    cases flag with
    | false => exact .nil
    | true =>
      have hreads : (Projection.column (Compile.column cx f)).Reads cx :=
        ⟨f, (Model.field_mem hf).1, rfl⟩
      exact Projection.Placed.of_reads (List.forall_mem_singleton.mpr hreads) hv
  | relationEntry _ _ _ _ ih ihl | inclusionEntry _ _ _ _ ih ihl =>
    exact fun visible hv => (ih visible hv).append (ihl visible hv)
  | flagged _ closing =>
    intro visible hv
    exact closes_placed closing rfl (field_columns_placed List.mem_cons_self) hv
  | arguments _ _ _ closing ih =>
    intro visible hv
    exact closes_placed closing rfl (ih _ List.mem_cons_self) hv
  | allFields => exact fun _ hv => field_columns_placed hv
  | nestedSelection _ ih => exact ih
  | nestedInclusion _ ih =>
    exact fun visible hv => (field_columns_placed hv).append (ih visible hv)
  | otherArgument _ _ ih => exact ih

theorem columns_placed {s : Settings} {cx : Context} {select inclusion : Option Json.Entries}
    {ps : List Projection} {visible : List Alias} {a b : Aliases}
    (h : columns s cx select inclusion a = .ok (ps, b)) (hv : cx.tag ∈ visible) :
    Projection.Placed visible a b ps := by
  rcases columns_ok h with ⟨entries, _, _, hruns⟩ | ⟨qs, _, rfl, hruns⟩
  · exact runs_placed hruns visible hv
  · exact (field_columns_placed hv).append (runs_placed hruns visible hv)

end Records

theorem Body.hands_out {b : Body} {columns : List Projection} {first second last : Aliases}
    (ht : b.tag = ⟨first.used⟩)
    (hc : Aliases.HandsOut ⟨first.used + 1⟩ second (columns.flatMap Projection.tags))
    (hf : Aliases.HandsOut second last (b.filter.toList.flatMap Pred.tags))
    (hh : Pred.tags? b.having = []) :
    first.HandsOut last (Projection.tagsAll columns ++ b.tags) := by
  refine ((Aliases.HandsOut.next.append hc).append hf).of_perm ?_
  rw [Projection.tags_all_eq, Body.tags, hh, Pred.tags_to_list, ht]
  simp

theorem Statement.runs_placed {s : Settings} {cx : Context} {args : Args} {op : Operation}
    {st : Statement} {b : Aliases} (h : Statement.Runs s cx args op st b) (hop : op ≠ .create)
    (ht : cx.tag = ⟨0⟩) : Aliases.HandsOut ⟨0⟩ b st.tags ∧ st.Within := by
  have hv : cx.tag ∈ [cx.tag] := List.mem_cons_self
  have hmem : ∀ {p : Option Pred} {a b : Aliases}, Pred.Placed [cx.tag] a b p.toList →
      ∀ q ∈ p, q.Within [cx.tag] :=
    fun hp q hq => hp.within q (Option.mem_toList.mpr hq)
  cases h with
  | find _ columns hdistinct filter order =>
    have hcolumns := Records.columns_placed columns hv
    have hfilter := Read.filtered_placed filter hv
    refine ⟨Body.hands_out ht hcolumns.tags hfilter.tags rfl, ?_⟩
    have htags := fun c hc => Column.tag_of_reads (Read.distinct_ok hdistinct c hc)
    exact .select hcolumns.within htags ⟨hmem hfilter, by simp, by simp,
      fun it hit => Scalar.within_of_reads (Ordering.compile_ok order it hit) hv⟩
  | aggregate _ filter columns _ =>
    have hcolumns : Projection.Placed [cx.tag] ⟨1⟩ ⟨1⟩ _ := .of_reads columns hv
    have hfilter := Read.filtered_placed filter hv
    refine ⟨Body.hands_out ht hcolumns.tags hfilter.tags rfl, ?_⟩
    exact .select hcolumns.within (by simp) ⟨hmem hfilter, by simp, by simp, by simp⟩
  | @overPage _ ps page p orderBy b _ filter hpage columns order =>
    have hcolumns : Projection.Placed [⟨b.used⟩] ⟨1⟩ ⟨1⟩ ps := .of_reads columns List.mem_cons_self
    have htags := fun c hc => Column.tag_of_reads (Read.page_columns_ok hpage c hc)
    have hfilter := Read.filtered_placed filter hv
    refine ⟨?_, ?_⟩
    · -- the derived table takes the last alias
      exact (Body.hands_out ht hcolumns.tags hfilter.tags rfl).append Aliases.HandsOut.next
    · exact .overPage hcolumns.within htags ⟨hmem hfilter, by simp, by simp,
        fun it hit => Scalar.within_of_reads (Ordering.compile_ok order it hit) hv⟩
  | @groupBy _ grouping _ qs _ _ columns filter having _ order =>
    have hcolumns : Projection.Placed [cx.tag] ⟨1⟩ ⟨1⟩ _ := .of_reads columns hv
    have hfilter := Read.filtered_placed filter hv
    have hhaving : Pred.Placed [cx.tag] ⟨1⟩ ⟨1⟩ (Pred.all? qs).toList :=
      (Having.runs_placed having hv).optional
    refine ⟨Body.hands_out ht hcolumns.tags hfilter.tags ?_, ?_⟩
    · rw [Pred.tags_to_list]
      simpa using hhaving.tags.perm
    · have hgrouping : ∀ c ∈ grouping.map (Compile.column cx), c.tag ∈ [cx.tag] := by
        simp [Compile.column]
      exact .select hcolumns.within (by simp) ⟨hmem hfilter, hgrouping, hmem hhaving,
        fun it hit => Scalar.within_of_reads (Ordering.compile_ok order it hit) hv⟩
  | create _ _ => exact absurd rfl hop
  | update _ _ conditions =>
    have hfilter := (Filter.runs_placed conditions [cx.tag] hv).optional
    refine ⟨?_, .update (hmem hfilter)⟩
    rw [Statement.tags, Pred.tags_to_list, ht]
    exact Aliases.HandsOut.next.append hfilter.tags
  | delete conditions =>
    have hfilter := (Filter.runs_placed conditions [cx.tag] hv).optional
    refine ⟨?_, .delete (hmem hfilter)⟩
    rw [Statement.tags, Pred.tags_to_list, ht]
    exact Aliases.HandsOut.next.append hfilter.tags

/-- The text of a compiled query is that of an outline which introduces each
alias handed out exactly once, and refers to an alias only inside of the query
that introduces it. -/
theorem aliases_stay_in_scope (c : Compiler) (engine : Engine) (model : String) (op : Operation)
    (args : Args) (prepared : Prepared) (hd : c.dialect = engine.dialect) (hop : op ≠ .create)
    (h : c.compile model op args = .ok prepared) :
    ∃ st as, c.statement model op args = .ok (st, as) ∧
      prepared.sql = Sign.write c.dialect.placeholder 0 (st.outline c.dialect).signs ∧
      (st.outline c.dialect).introduced.Perm ((List.range as.used).map Alias.mk) ∧
      (st.outline c.dialect).Scoped c.dialect [] := by
  obtain ⟨st, as, hst, rfl⟩ := Compiler.compile_ok h
  obtain ⟨m, _, _, hruns⟩ := Compiler.statement_ok hst
  obtain ⟨htags, hwithin⟩ := Statement.runs_placed hruns hop rfl
  have hplain : c.dialect.Plain := hd ▸ engine.plain
  refine ⟨st, as, hst, ?_, ?_, Statement.scoped_outline hplain hwithin⟩
  · rw [Statement.signs_outline]
    exact Fragment.text_of_signs c.dialect.placeholder 0 (st.render c.dialect).parts
  · rw [Statement.introduced_outline, List.range_eq_range']
    exact htags.perm

theorem sample_aliases_stay_in_scope : ∃ prepared,
    (Sample.compiler .sqlite).compile "User" .findMany Sample.page = .ok prepared ∧
      ∃ st as, (Sample.compiler .sqlite).statement "User" .findMany Sample.page = .ok (st, as) ∧
        prepared.sql = Sign.write Dialect.sqlite.placeholder 0 (st.outline .sqlite).signs ∧
        (st.outline .sqlite).introduced.Perm ((List.range as.used).map Alias.mk) ∧
        (st.outline .sqlite).Scoped .sqlite [] := by
  obtain ⟨prepared, hc⟩ := Sample.page_compiles
  exact ⟨prepared, hc, aliases_stay_in_scope _ .sqlite _ _ _ _ rfl (by decide) hc⟩

end QuerySql
