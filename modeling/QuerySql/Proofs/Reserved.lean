import QuerySql.Proofs.Keyed
import QuerySql.Proofs.Markers
import QuerySql.Proofs.Parameters

/-!
# Reserved keys

A filter that compiles spells no reserved key, in whatever object of it and however
deep: not under a connective or a relation, nor among the operators of a field. The
filters of selected relations are no exception, and neither are those that become a
part of an assembled filter.
-/

set_option autoImplicit false

namespace QuerySql

namespace Json

/-- The values that a value is made of, itself among them. -/
inductive Within (whole : Json) : Json → Prop
  | self : Within whole whole
  | item {items : List Json} {item : Json} (h : Within whole (.arr items)) (hin : item ∈ items) :
      Within whole item
  | value {entries : Entries} {e : String × Json} (h : Within whole (.obj entries))
      (hin : e ∈ entries) : Within whole e.2

/-- No object of the value has a reserved key. -/
def Unreserved (json : Json) : Prop :=
  ∀ entries, json.Within (.obj entries) → ∀ e ∈ entries, isReserved e.1 = false

mutual

def unreserved : Json → Bool
  | .obj entries => unreservedEntries entries
  | .arr items => unreservedItems items
  | _ => true

def unreservedEntries : List (String × Json) → Bool
  | [] => true
  | (key, value) :: rest => !isReserved key && value.unreserved && unreservedEntries rest

def unreservedItems : List Json → Bool
  | [] => true
  | item :: rest => item.unreserved && unreservedItems rest

end

theorem unreserved_entries_iff {entries : Entries} : unreservedEntries entries = true ↔
    ∀ e ∈ entries, isReserved e.1 = false ∧ e.2.unreserved = true := by
  induction entries with
  | nil => simp [unreservedEntries]
  | cons e rest ih => simp [unreservedEntries, ih]

theorem unreserved_items_iff {items : List Json} :
    unreservedItems items = true ↔ ∀ item ∈ items, item.unreserved = true := by
  induction items with
  | nil => simp [unreservedItems]
  | cons item rest ih => simp [unreservedItems, ih]

theorem Within.unreserved {whole json : Json} (h : whole.Within json)
    (hw : whole.unreserved = true) : json.unreserved = true := by
  induction h with
  | self => exact hw
  | item _ hin ih => exact unreserved_items_iff.mp ih _ hin
  | value _ hin ih => exact (unreserved_entries_iff.mp ih _ hin).2

theorem unreserved_of_computed {json : Json} (h : json.unreserved = true) : json.Unreserved :=
  fun _ hwithin e he => (unreserved_entries_iff.mp (hwithin.unreserved h) e he).1

theorem unreserved_of_binds {json : Json} {v : Value} (h : Condition.Binds json v) :
    json.unreserved = true := by
  cases json with
  | arr _ => cases h.2
  | obj _ => cases h.2
  | null | bool _ | num _ | str _ => rfl

end Json

theorem connective_unreserved {key : String} {c : Connective}
    (h : Connective.ofKey? key = some c) : isReserved key = false := by
  have hkey : c.key = key := by simpa using List.find?_some h
  subst hkey
  cases c <;> decide +kernel

theorem quantifier_unreserved {key : String} {q : Quantifier}
    (h : Quantifier.ofKey? key = some q) : isReserved key = false := by
  have hkey : q.key = key := by simpa using List.find?_some h
  subst hkey
  cases q <;> decide +kernel

theorem operator_unreserved {key : String} {op : FieldOperator}
    (h : FieldOperator.ofKey? key = some op) : isReserved key = false := by
  have hall : (FieldOperator.table.all fun e => !isReserved e.1) = true := by decide +kernel
  obtain ⟨before, after, htable, -⟩ := List.lookup_eq_some_iff.mp h
  have hin : (key, op) ∈ FieldOperator.table := by
    rw [htable]
    exact List.mem_append_right _ List.mem_cons_self
  simpa using List.all_eq_true.mp hall _ hin

theorem FilterKey.unreserved {m : Model} {key : String} {k : FilterKey}
    (h : FilterKey.resolve m key = .ok k) : isReserved key = false := by
  unfold FilterKey.resolve at h
  split at h
  · rename_i hc
    exact connective_unreserved hc
  · split at h
    · cases h
    · rename_i hkey
      simpa using hkey

namespace Condition

theorem items_unreserved {items : List Json} {vs : List Value}
    (h : List.Forall₂ Binds items vs) : Json.unreservedItems items = true := by
  induction h with
  | nil => rfl
  | cons hv _ ih => rw [Json.unreservedItems, Json.unreserved_of_binds hv, ih, Bool.and_self]

theorem operates_unreserved {f : Field} {lhs : Scalar} {mode : Mode} {op : FieldOperator}
    {json : Json} {p : Pred} (h : Operates f lhs mode op json p) : json.unreserved = true := by
  cases h with
  | isNull | isNotNull | noItems | pattern _ => rfl
  | compare _ hv => exact Json.unreserved_of_binds hv
  | isIn _ hvs => exact items_unreserved hvs

theorem mode_unreserved {m : Model} {f : Field} {inherited mode : Mode} {entries : Json.Entries}
    (hkeys : entries.keys.Nodup) (h : Condition.mode m f inherited entries = .ok mode)
    {value : Json} (hin : (modeKey, value) ∈ entries) : value.unreserved = true := by
  simp only [Condition.mode, Json.Entries.get_of_mem hkeys hin] at h
  split at h
  · rfl
  · cases h

theorem runs_unreserved {m : Model} {f : Field} {lhs : Scalar} {mode : Mode}
    {entries : Json.Entries} {ps : List Pred} (h : Runs m f lhs mode entries ps)
    (hkeyed : (Json.obj entries).keyed = true)
    (hmode : ∀ value, (modeKey, value) ∈ entries → value.unreserved = true) :
    Json.unreservedEntries entries = true := by
  induction h with
  | nil => rfl
  | mode _ ih =>
    have hrest := ih (Json.keyed_rest hkeyed).2 fun v hv => hmode v (List.mem_cons_of_mem _ hv)
    have hkey : isReserved modeKey = false := by decide +kernel
    rw [Json.unreservedEntries, hkey, hmode _ List.mem_cons_self, hrest]
    rfl
  | negation hm _ _ ih ihl =>
    obtain ⟨hnested, hkeyed⟩ := Json.keyed_rest hkeyed
    have hhere := ih hnested fun v hv => mode_unreserved (Json.keyed_obj.mp hnested).1 hm hv
    have hrest := ihl hkeyed fun v hv => hmode v (List.mem_cons_of_mem _ hv)
    have hkey : isReserved "not" = false := by decide +kernel
    rw [Json.unreservedEntries, hkey, Json.unreserved, hhere, hrest]
    rfl
  | operator _ hk here _ ihl =>
    have hrest := ihl (Json.keyed_rest hkeyed).2 fun v hv => hmode v (List.mem_cons_of_mem _ hv)
    rw [Json.unreservedEntries, operator_unreserved hk, operates_unreserved here, hrest]
    rfl

theorem compile_unreserved {m : Model} {f : Field} {lhs : Scalar} {json : Json} {p : Option Pred}
    (hkeyed : json.keyed = true) (h : compile m f lhs json = .ok p) : json.unreserved = true := by
  cases compile_ok h with
  | null => rfl
  | scalar hv => exact Json.unreserved_of_binds hv
  | operators hm here =>
    exact runs_unreserved here hkeyed fun v hv => mode_unreserved (Json.keyed_obj.mp hkeyed).1 hm hv

end Condition

namespace Filter

mutual

theorem conditions_unreserved (s : Settings) (cx : Context) (entries : List (String × Json))
    {ps : List Pred} {a b : Aliases} (hkeyed : (Json.obj entries).keyed = true)
    (h : conditions s cx entries a = .ok (ps, b)) : Json.unreservedEntries entries = true := by
  match entries with
  | [] => rfl
  | (key, value) :: rest =>
    obtain ⟨hvalue, hkeyed⟩ := Json.keyed_rest hkeyed
    simp only [conditions, Compile.bind_ok, Compile.lift_ok] at h
    obtain ⟨k, _, ⟨hk, rfl⟩, h⟩ := h
    have hhere : value.unreserved = true ∧ Json.unreservedEntries rest = true := by
      rcases FilterKey.resolve_ok hk with ⟨c, _, rfl⟩ | ⟨_, f, _, rfl⟩ | ⟨_, _, r, _, rfl⟩
      · simp only [Compile.bind_ok, Compile.map_ok] at h
        obtain ⟨_, _, ⟨p, hp, -⟩, later, _, hl, -⟩ := h
        exact ⟨connective_unreserved s cx c value hvalue hp,
          conditions_unreserved s cx rest hkeyed hl⟩
      · simp only [Compile.bind_ok, Compile.lift_ok] at h
        obtain ⟨_, _, ⟨hp, -⟩, later, _, hl, -⟩ := h
        exact ⟨Condition.compile_unreserved hvalue hp, conditions_unreserved s cx rest hkeyed hl⟩
      · simp only [Compile.bind_ok, Compile.map_ok] at h
        obtain ⟨_, _, ⟨p, hp, -⟩, later, _, hl, -⟩ := h
        exact ⟨relation_unreserved s cx r value hvalue hp,
          conditions_unreserved s cx rest hkeyed hl⟩
    rw [Json.unreservedEntries, FilterKey.unreserved hk, hhere.1, hhere.2]
    rfl

theorem connective_unreserved (s : Settings) (cx : Context) (c : Connective) (value : Json)
    {p : Pred} {a b : Aliases} (hkeyed : value.keyed = true)
    (h : connective s cx c value a = .ok (p, b)) : value.unreserved = true := by
  match value with
  | .obj entries =>
    simp only [connective, Compile.bind_ok, Compile.map_ok] at h
    obtain ⟨_, _, _, _, _, ⟨ps, hps, -⟩, -⟩ := h
    exact conditions_unreserved s cx entries hkeyed hps
  | .arr items =>
    simp only [connective, Compile.bind_ok, Compile.lift_ok] at h
    obtain ⟨_, _, ⟨hcheck, rfl⟩, os, _, hos, -⟩ := h
    have hobjects : ∀ item ∈ items, ∃ entries, item = .obj entries := by
      rcases Connective.check_operand_ok hcheck with ⟨_, heq⟩ | ⟨_, _, heq, hall⟩
      · cases heq
      · cases heq
        exact hall
    exact each_unreserved s cx items (Json.keyed_arr.mp hkeyed) hobjects hos
  | .null | .bool _ | .num _ | .str _ => rfl

theorem each_unreserved (s : Settings) (cx : Context) (items : List Json)
    {os : List (Option Pred)} {a b : Aliases} (hkeyed : ∀ item ∈ items, item.keyed = true)
    (hobjects : ∀ item ∈ items, ∃ entries, item = .obj entries)
    (h : each s cx items a = .ok (os, b)) : Json.unreservedItems items = true := by
  match items with
  | [] => rfl
  | .obj entries :: rest =>
    obtain ⟨hhere, hrest⟩ := List.forall_mem_cons.mp hkeyed
    simp only [each, Compile.bind_ok] at h
    obtain ⟨ps, _, hps, later, _, hl, -⟩ := h
    have hlater := each_unreserved s cx rest hrest
      (fun item hin => hobjects item (List.mem_cons_of_mem _ hin)) hl
    rw [Json.unreservedItems, Json.unreserved, conditions_unreserved s cx entries hhere hps, hlater]
    rfl
  | .null :: _ | .bool _ :: _ | .num _ :: _ | .str _ :: _ | .arr _ :: _ =>
    obtain ⟨_, heq⟩ := hobjects _ List.mem_cons_self
    cases heq

theorem relation_unreserved (s : Settings) (cx : Context) (r : Relation) (value : Json)
    {p : Pred} {a b : Aliases} (hkeyed : value.keyed = true)
    (h : relation s cx r value a = .ok (p, b)) : value.unreserved = true := by
  match value with
  | .null => rfl
  | .obj entries =>
    simp only [relation] at h
    split at h
    · split at h
      · rename_i hempty
        rw [List.isEmpty_iff.mp hempty]
        rfl
      · simp only [Compile.bind_ok] at h
        obtain ⟨child, _, _, ps, _, hps, -⟩ := h
        exact conditions_unreserved s child entries hkeyed hps
    · split at h
      · exact (Compile.throw_ok.mp h).elim
      · rename_i hall
        obtain ⟨ps, hps, -⟩ := Compile.map_ok.mp h
        exact quantifiers_unreserved s cx r entries hkeyed (not_not.mp hall) hps
  | .bool _ | .num _ | .str _ | .arr _ => exact (Compile.throw_ok.mp h).elim

theorem quantifiers_unreserved (s : Settings) (cx : Context) (r : Relation)
    (entries : List (String × Json)) {ps : List Pred} {a b : Aliases}
    (hkeyed : (Json.obj entries).keyed = true) (hall : Quantifier.count entries = entries.length)
    (h : quantifiers s cx r entries a = .ok (ps, b)) : Json.unreservedEntries entries = true := by
  match entries with
  | [] => rfl
  | (key, value) :: rest =>
    obtain ⟨hvalue, hkeyed⟩ := Json.keyed_rest hkeyed
    obtain ⟨hkey, hcount⟩ := Quantifier.count_cons hall
    obtain ⟨q, hq⟩ := Option.isSome_iff_exists.mp hkey
    simp only [quantifiers, hq, Compile.bind_ok, Compile.map_ok] at h
    obtain ⟨_, _, ⟨p, hp, -⟩, later, _, hl, -⟩ := h
    have hhere := quantified_unreserved s cx r q value hvalue hp
    have hrest := quantifiers_unreserved s cx r rest hkeyed hcount hl
    rw [Json.unreservedEntries, quantifier_unreserved hq, hhere, hrest]
    rfl

theorem quantified_unreserved (s : Settings) (cx : Context) (r : Relation) (q : Quantifier)
    (value : Json) {p : Pred} {a b : Aliases} (hkeyed : value.keyed = true)
    (h : quantified s cx r q value a = .ok (p, b)) : value.unreserved = true := by
  rw [quantified.eq_def] at h
  split at h
  · exact (Compile.throw_ok.mp h).elim
  · match value with
    | .null => rfl
    | .obj entries =>
      simp only at h
      split at h
      · rename_i hempty
        rw [List.isEmpty_iff.mp hempty]
        rfl
      · simp only [Compile.bind_ok] at h
        obtain ⟨child, _, _, ps, _, hps, -⟩ := h
        exact conditions_unreserved s child entries hkeyed hps
    | .bool _ | .num _ | .str _ | .arr _ => exact (Compile.throw_ok.mp h).elim

end

theorem compile_unreserved {s : Settings} {cx : Context} {entries : Json.Entries}
    {p : Option Pred} {a b : Aliases} (hkeyed : (Json.obj entries).keyed = true)
    (h : compile s cx entries a = .ok (p, b)) : (Json.obj entries).unreserved = true := by
  obtain ⟨ps, hps, -⟩ := Compile.map_ok.mp h
  exact conditions_unreserved s cx entries hkeyed hps

theorem optional_unreserved {s : Settings} {cx : Context} {filter : Option Json.Entries}
    {p : Option Pred} {a b : Aliases} (hkeyed : (Json.obj (filter.getD [])).keyed = true)
    (h : compile? s cx filter a = .ok (p, b)) :
    ∀ entries ∈ filter, (Json.obj entries).unreserved = true := by
  cases filter with
  | none => exact fun _ hin => nomatch hin
  | some entries =>
    intro entries' hin
    cases Option.mem_some.mp hin
    exact compile_unreserved hkeyed h

end Filter

namespace Records

mutual

def filters : List (String × Json) → List Json.Entries
  | [] => []
  | (_, value) :: rest => relationFilters value ++ filters rest

def relationFilters : Json → List Json.Entries
  | .obj args => argumentFilters args
  | _ => []

def argumentFilters : List (String × Json) → List Json.Entries
  | [] => []
  | (key, .obj entries) :: rest =>
    (if key = "where" then [entries]
      else if key = "select" || key = "include" then filters entries
      else []) ++ argumentFilters rest
  | _ :: rest => argumentFilters rest

end

end Records

def Args.filters (args : Args) : List Json.Entries :=
  args.filter.toList ++ Records.filters (args.select.getD []) ++
    Records.filters (args.inclusion.getD [])

namespace Records

theorem mem_argument_filters {args : Json.Entries} {f : Json.Entries}
    (h : f ∈ argumentFilters args) : ("where", .obj f) ∈ args ∨
      ∃ key entries, (key = "select" ∨ key = "include") ∧ (key, .obj entries) ∈ args ∧
        f ∈ filters entries := by
  induction args with
  | nil => simp [argumentFilters] at h
  | cons e rest ih =>
    obtain ⟨key, value⟩ := e
    have hlater (hin : f ∈ argumentFilters rest) : ("where", .obj f) ∈ (key, value) :: rest ∨
        ∃ k entries, (k = "select" ∨ k = "include") ∧ (k, .obj entries) ∈ (key, value) :: rest ∧
          f ∈ filters entries :=
      (ih hin).imp (List.mem_cons_of_mem _) fun ⟨k, entries, hk, hmem, hf⟩ =>
        ⟨k, entries, hk, List.mem_cons_of_mem _ hmem, hf⟩
    cases value with
    | obj entries =>
      rw [argumentFilters, List.mem_append] at h
      rcases h with h | h
      · split at h
        · rename_i hkey
          rw [List.mem_singleton.mp h, hkey]
          exact .inl List.mem_cons_self
        · split at h
          · rename_i hkey
            exact .inr ⟨key, entries, by simpa using hkey, List.mem_cons_self, h⟩
          · cases h
      · exact hlater h
    | null | bool _ | num _ | str _ | arr _ => exact hlater h

theorem filter_of_absent {args : Json.Entries} (h : "where" ∉ args.keys) :
    RelationArgs.filterOf args = none := by
  induction args with
  | nil => rfl
  | cons e rest ih =>
    obtain ⟨key, value⟩ := e
    obtain ⟨hkey, hrest⟩ := not_or.mp (mt List.mem_cons.mpr h)
    rw [RelationArgs.filterOf, ih hrest, if_neg (Ne.symm hkey)]
    rfl

theorem filter_of_mem {args : Json.Entries} (hkeys : args.keys.Nodup) {f : Json.Entries}
    (h : ("where", .obj f) ∈ args) : RelationArgs.filterOf args = some f := by
  induction args with
  | nil => cases h
  | cons e rest ih =>
    obtain ⟨key, value⟩ := e
    obtain ⟨hnew, hrest⟩ := List.nodup_cons.mp hkeys
    rw [RelationArgs.filterOf]
    rcases List.mem_cons.mp h with heq | h
    · cases heq
      rw [filter_of_absent hnew]
      rfl
    · rw [ih hrest h]
      rfl

theorem set_flags {m : Model} {r : Relation} {args next : RelationArgs} {key : String}
    {value : Json} (h : RelationArgs.set m r args key value = .ok next) :
    (args.select = true ∨ key = "select" → next.select = true) ∧
      (args.inclusion = true ∨ key = "include" → next.inclusion = true) := by
  unfold RelationArgs.set at h
  split at h
  case h_7 => cases h
  all_goals
    simp only [except_bind_ok, except_pure_ok] at h
    obtain ⟨_, _, rfl⟩ := h
    simp

theorem read_flags {m : Model} {r : Relation} {args next : RelationArgs}
    {entries : Json.Entries} (h : RelationArgs.read m r args entries = .ok next) :
    (args.select = true ∨ "select" ∈ entries.keys → next.select = true) ∧
      (args.inclusion = true ∨ "include" ∈ entries.keys → next.inclusion = true) := by
  induction entries generalizing args with
  | nil =>
    cases h
    exact ⟨fun h => h.resolve_right (by simp [Json.Entries.keys]),
      fun h => h.resolve_right (by simp [Json.Entries.keys])⟩
  | cons e rest ih =>
    obtain ⟨key, value⟩ := e
    simp only [RelationArgs.read, except_bind_ok] at h
    obtain ⟨args', hset, h⟩ := h
    obtain ⟨hselect, hinclusion⟩ := set_flags hset
    refine ⟨fun hor => (ih h).1 ?_, fun hor => (ih h).2 ?_⟩
    · rcases hor with hset | hin
      · exact .inl (hselect (.inl hset))
      · rcases List.mem_cons.mp hin with heq | hin
        · exact .inl (hselect (.inr heq.symm))
        · exact .inr hin
    · rcases hor with hset | hin
      · exact .inl (hinclusion (.inl hset))
      · rcases List.mem_cons.mp hin with heq | hin
        · exact .inl (hinclusion (.inr heq.symm))
        · exact .inr hin

theorem enter_one {s : Settings} {cx child : Context} {r : Relation} {args : RelationArgs}
    {a b : Aliases} (h : enter s cx r args a = .ok (child, b)) :
    ¬ (args.select = true ∧ args.inclusion = true) := by
  rintro ⟨hselect, hinclusion⟩
  simp only [enter, hselect, hinclusion, Bool.and_self] at h
  split at h
  · simp only [Compile.bind_ok, Compile.throw_ok, false_and, exists_false] at h
  · simp only [if_true, Compile.bind_ok, Compile.throw_ok, false_and, exists_false, and_false] at h

theorem close_filter {s : Settings} {cx child : Context} {r : Relation} {args : RelationArgs}
    {columns : List Projection} {p : Projection} {a b : Aliases}
    (hclose : close s cx child r args columns a = .ok (p, b)) {entries : Json.Entries}
    (hf : args.filter = some entries) :
    ∃ q d, Filter.compile s child entries a = .ok (q, d) := by
  rw [close_over, hf] at hclose
  simp only [Compile.bind_ok] at hclose
  obtain ⟨q, d, hq, -⟩ := hclose
  exact ⟨q, d, hq⟩

mutual

theorem selected_filters (s : Settings) (cx : Context) (entries : List (String × Json))
    {ps : List Projection} {a b : Aliases} (hkeyed : (Json.obj entries).keyed = true)
    (h : selected s cx entries a = .ok (ps, b)) :
    ∀ f ∈ filters entries, (Json.obj f).unreserved = true := by
  match entries with
  | [] => exact List.forall_mem_nil _
  | (key, value) :: rest =>
    obtain ⟨hvalue, hrest⟩ := Json.keyed_rest hkeyed
    rw [filters]
    refine List.forall_mem_append.mpr ?_
    rcases hfield : cx.model.field? key with _ | field
    · rcases hrelation : cx.model.relation? key with _ | r
      · simp only [selected, hfield, hrelation] at h
        split at h <;>
          simp only [Compile.bind_ok, Compile.throw_ok, false_and, exists_false] at h
      · simp only [selected, hfield, hrelation, Compile.bind_ok] at h
        obtain ⟨qs, _, hq, later, _, hl, -⟩ := h
        exact ⟨relation_filters s cx r value hvalue hq, selected_filters s cx rest hrest hl⟩
    · simp only [selected, hfield, Compile.bind_ok, Compile.lift_ok] at h
      obtain ⟨flag, _, ⟨hflag, -⟩, _, _, _, later, _, hl, -⟩ := h
      have hlater := selected_filters s cx rest hrest hl
      cases flag_ok hflag
      exact ⟨List.forall_mem_nil _, hlater⟩

theorem inclusions_filters (s : Settings) (cx : Context) (entries : List (String × Json))
    {ps : List Projection} {a b : Aliases} (hkeyed : (Json.obj entries).keyed = true)
    (h : inclusions s cx entries a = .ok (ps, b)) :
    ∀ f ∈ filters entries, (Json.obj f).unreserved = true := by
  match entries with
  | [] => exact List.forall_mem_nil _
  | (key, value) :: rest =>
    obtain ⟨hvalue, hrest⟩ := Json.keyed_rest hkeyed
    rw [filters]
    simp only [inclusions, Compile.bind_ok] at h
    obtain ⟨r, _, _, qs, _, hq, later, _, hl, -⟩ := h
    exact List.forall_mem_append.mpr
      ⟨relation_filters s cx r value hvalue hq, inclusions_filters s cx rest hrest hl⟩

theorem relation_filters (s : Settings) (cx : Context) (r : Relation) (value : Json)
    {ps : List Projection} {a b : Aliases} (hkeyed : value.keyed = true)
    (h : relation s cx r value a = .ok (ps, b)) :
    ∀ f ∈ relationFilters value, (Json.obj f).unreserved = true := by
  match value with
  | .obj entries =>
    simp only [relation, Compile.bind_ok, Compile.lift_ok] at h
    obtain ⟨args, _, ⟨hargs, rfl⟩, child, _, he, columns, _, hc, p, _, hp, -⟩ := h
    obtain ⟨hkeys, hvalues⟩ := Json.keyed_obj.mp hkeyed
    have hone : ¬ ("select" ∈ Json.Entries.keys entries ∧ "include" ∈ Json.Entries.keys entries) :=
      fun ⟨hselect, hinclude⟩ => enter_one he
        ⟨(read_flags hargs).1 (.inr hselect), (read_flags hargs).2 (.inr hinclude)⟩
    intro f hf
    rcases mem_argument_filters hf with hown | ⟨key, nested, hkey, hin, hf⟩
    · have hfilter := read_filter hargs
      rw [Option.or_none, filter_of_mem hkeys hown] at hfilter
      obtain ⟨q, d, hq⟩ := close_filter hp hfilter
      exact Filter.compile_unreserved (hvalues _ hown) hq
    · exact nested_filters s child entries hkeyed hone hc key nested hkey hin f hf
  | .null | .bool _ | .num _ | .str _ | .arr _ => exact List.forall_mem_nil _

theorem nested_filters (s : Settings) (cx : Context) (args : List (String × Json))
    {ps : List Projection} {a b : Aliases} (hkeyed : (Json.obj args).keyed = true)
    (hone : ¬ ("select" ∈ Json.Entries.keys args ∧ "include" ∈ Json.Entries.keys args))
    (h : nested s cx args a = .ok (ps, b)) (key : String) (entries : Json.Entries)
    (hkey : key = "select" ∨ key = "include") (hin : (key, .obj entries) ∈ args) :
    ∀ f ∈ filters entries, (Json.obj f).unreserved = true := by
  match args with
  | [] => cases hin
  | (first, .obj found) :: rest =>
    obtain ⟨hfound, hrest⟩ := Json.keyed_rest hkeyed
    have hnew := (List.nodup_cons.mp (Json.keyed_obj.mp hkeyed).1).1
    rw [nested] at h
    rcases List.mem_cons.mp hin with heq | hin
    · obtain ⟨hfirst, hentries⟩ := Prod.mk.inj heq
      rw [Json.obj.inj hentries]
      rw [← hfirst] at h
      rcases hkey with rfl | rfl
      · rw [if_pos rfl] at h
        obtain ⟨qs, _, hq, -⟩ := Compile.bind_ok.mp h
        exact selected_filters s cx found hfound hq
      · rw [if_neg (by decide), if_pos rfl] at h
        obtain ⟨qs, _, hq, -⟩ := Compile.bind_ok.mp h
        exact inclusions_filters s cx found hfound hq
    · have hmem : key ∈ Json.Entries.keys rest := List.mem_map_of_mem hin
      have hne : first ≠ key := fun heq => hnew (heq ▸ hmem)
      have hother : first ≠ "select" ∧ first ≠ "include" := by
        constructor
        · rintro rfl
          have hinclude : key = "include" := hkey.resolve_left (Ne.symm hne)
          exact hone ⟨List.mem_cons_self, List.mem_cons_of_mem _ (hinclude ▸ hmem)⟩
        · rintro rfl
          have hselect : key = "select" := hkey.resolve_right (Ne.symm hne)
          exact hone ⟨List.mem_cons_of_mem _ (hselect ▸ hmem), List.mem_cons_self⟩
      rw [if_neg hother.1, if_neg hother.2] at h
      exact nested_filters s cx rest hrest (fun hboth => hone (hboth.imp
        (List.mem_cons_of_mem _) (List.mem_cons_of_mem _))) h key entries hkey hin
  | (first, .null) :: rest | (first, .bool _) :: rest | (first, .num _) :: rest
  | (first, .str _) :: rest | (first, .arr _) :: rest =>
    rcases List.mem_cons.mp hin with heq | hin
    · cases heq
    · exact nested_filters s cx rest (Json.keyed_rest hkeyed).2 (fun hboth => hone (hboth.imp
        (List.mem_cons_of_mem _) (List.mem_cons_of_mem _))) h key entries hkey hin

end

theorem columns_filters {s : Settings} {cx : Context} {select inclusion : Option Json.Entries}
    {ps : List Projection} {a b : Aliases} (hselect : (Json.obj (select.getD [])).keyed = true)
    (hinclusion : (Json.obj (inclusion.getD [])).keyed = true)
    (h : columns s cx select inclusion a = .ok (ps, b)) :
    ∀ f ∈ filters (select.getD []) ++ filters (inclusion.getD []),
      (Json.obj f).unreserved = true := by
  refine List.forall_mem_append.mpr ?_
  rcases select with _ | chosen <;> rcases inclusion with _ | added
  · exact ⟨List.forall_mem_nil _, List.forall_mem_nil _⟩
  · obtain ⟨qs, _, hq, -⟩ := Compile.bind_ok.mp h
    exact ⟨List.forall_mem_nil _, inclusions_filters s cx added hinclusion hq⟩
  · obtain ⟨qs, _, hq, -⟩ := Compile.bind_ok.mp h
    exact ⟨selected_filters s cx chosen hselect hq, List.forall_mem_nil _⟩
  · exact (Compile.throw_ok.mp h).elim

end Records

namespace Read

theorem filter_compiles {s : Settings} {cx : Context} {args : Args} {p : Option Pred}
    {a b : Aliases} (h : filter s cx args a = .ok (p, b)) :
    ∃ q c, Filter.compile? s cx args.filter a = .ok (q, c) := by
  obtain ⟨q, c, hq, -⟩ := Compile.bind_ok.mp h
  exact ⟨q, c, hq⟩

theorem find_compiles {s : Settings} {cx : Context} {args : Args} {st : Statement}
    {a b : Aliases} (hop : cx.operation.isRead = true) (h : find s cx args a = .ok (st, b)) :
    (∃ ps c d, Records.columns s cx args.select args.inclusion c = .ok (ps, d)) ∧
      ∃ q c d, Filter.compile? s cx args.filter c = .ok (q, d) := by
  have hcolumns := columns_of_read s args hop
  have hrows : ∀ {c : Aliases}, findRows s cx args c = .ok (st, b) →
      (∃ ps c d, Records.columns s cx args.select args.inclusion c = .ok (ps, d)) ∧
        ∃ q c d, Filter.compile? s cx args.filter c = .ok (q, d) := by
    intro c h
    simp only [findRows, hcolumns, Compile.bind_ok] at h
    obtain ⟨ps, d, hps, _, _, _, p, _, hp, -⟩ := h
    exact ⟨⟨ps, c, d, hps⟩, (filter_compiles hp).imp fun q hq => ⟨_, hq⟩⟩
  rw [find_rows] at h
  split at h
  · obtain ⟨_, _, _, h⟩ := Compile.bind_ok.mp h
    exact hrows h
  · exact hrows h

end Read

theorem Operation.selects_only_reads {op : Operation} (h : op.isRead = false) :
    op.accepts .select = false ∧ op.accepts .inclusion = false := by
  cases op with
  | findMany | findFirst | findUnique => cases h
  | count | aggregate | groupBy | create | update | delete => exact ⟨rfl, rfl⟩

namespace Compiler

/-- Each operation compiles its filter, and reads of records their columns. Only a
`create` has no filter. -/
theorem compile_at_compiles {s : Settings} {cx : Context} {args : Args} {st : Statement}
    {a b : Aliases} (h : compileAt s args cx a = .ok (st, b)) :
    (cx.operation.isRead = true →
      ∃ ps c d, Records.columns s cx args.select args.inclusion c = .ok (ps, d)) ∧
      (cx.operation ≠ .create → ∃ q c d, Filter.compile? s cx args.filter c = .ok (q, d)) := by
  unfold compileAt at h
  cases hop : cx.operation with
  | findMany | findFirst | findUnique =>
    rw [hop] at h
    have hread : cx.operation.isRead = true := by rw [hop]; rfl
    obtain ⟨hcolumns, hfilter⟩ := Read.find_compiles hread h
    exact ⟨fun _ => hcolumns, fun _ => hfilter⟩
  | count | aggregate =>
    simp only [hop, Read.aggregate, Compile.bind_ok] at h
    obtain ⟨p, _, hp, -⟩ := h
    exact ⟨fun hread => absurd hread (by decide), fun _ => (Read.filter_compiles hp).imp fun q hq => ⟨_, hq⟩⟩
  | groupBy =>
    simp only [hop, Read.groupBy, Compile.bind_ok] at h
    obtain ⟨_, _, _, _, _, _, p, _, hp, -⟩ := h
    exact ⟨fun hread => absurd hread (by decide), fun _ => (Read.filter_compiles hp).imp fun q hq => ⟨_, hq⟩⟩
  | create => exact ⟨fun hread => absurd hread (by decide), fun hne => absurd rfl hne⟩
  | update =>
    simp only [hop, Write.update, Compile.bind_ok] at h
    obtain ⟨_, _, _, _, _, _, h⟩ := h
    split at h
    · simp only [Compile.bind_ok, Compile.throw_ok, false_and, exists_false] at h
    · simp only [Compile.bind_ok] at h
      obtain ⟨p, d, hp, -⟩ := h
      exact ⟨fun hread => absurd hread (by decide), fun _ => ⟨p, _, d, hp⟩⟩
  | delete =>
    simp only [hop, Write.delete, Compile.bind_ok] at h
    obtain ⟨p, d, hp, -⟩ := h
    exact ⟨fun hread => absurd hread (by decide), fun _ => ⟨p, _, d, hp⟩⟩

theorem filters_unreserved {c : Compiler} {model : String} {op : Operation} {args : Args}
    {p : Prepared} (hkeyed : args.keyed = true) (h : c.compile model op args = .ok p) :
    ∀ f ∈ args.filters, (Json.obj f).unreserved = true := by
  obtain ⟨st, as, hst, -⟩ := compile_ok h
  obtain ⟨m, hm, hcheck, hrun⟩ := statement_iff.mp hst
  obtain ⟨hcolumns, hfilter⟩ := compile_at_compiles hrun
  obtain ⟨hown, hselect, hinclusion⟩ := Args.keyed_iff.mp hkeyed
  rw [Args.filters, List.append_assoc]
  refine List.forall_mem_append.mpr ⟨?_, ?_⟩
  · -- a `create` has no filter to compile
    by_cases hcreate : op = .create
    · subst hcreate
      have hnone : args.filter = none := by simpa [Args.has] using Args.lacks hcheck .filter rfl
      rw [hnone]
      exact List.forall_mem_nil _
    · obtain ⟨q, _, _, hq⟩ := hfilter hcreate
      exact fun f hf => Filter.optional_unreserved hown hq f (Option.mem_toList.mp hf)
  · -- only reads of records have a selection or an inclusion
    by_cases hread : op.isRead = true
    · obtain ⟨ps, _, _, hps⟩ := hcolumns hread
      exact Records.columns_filters hselect hinclusion hps
    · obtain ⟨hselects, hincludes⟩ := Operation.selects_only_reads (by simpa using hread)
      have hnoSelect : args.select = none := by
        simpa [Args.has] using Args.lacks hcheck .select hselects
      have hnoInclude : args.inclusion = none := by
        simpa [Args.has] using Args.lacks hcheck .inclusion hincludes
      rw [hnoSelect, hnoInclude]
      exact List.forall_mem_nil _

theorem filter_unreserved {c : Compiler} {model : String} {entries : Json.Entries}
    {p : Option Fragment} (hkeyed : (Json.obj entries).keyed = true)
    (h : c.filter model entries = .ok p) : (Json.obj entries).unreserved = true := by
  simp only [filter, predicate, except_bind_ok, except_map_ok, except_pure_ok] at h
  obtain ⟨_, ⟨⟨q, b⟩, hrun, rfl⟩, rfl⟩ := h
  obtain ⟨m, hm, hq⟩ := run_ok hrun
  exact Filter.compile_unreserved hkeyed hq

end Compiler

namespace Marker

/-- An entry of an assembled filter is a reserved key that stands for something, or
has no reserved key in it. -/
theorem entry_unreserved {s : Settings} {cx : Context} {key : String} {value : Json}
    {ps : List Pred} {a b : Aliases} (hkeyed : value.keyed = true)
    (h : entry s .compiler cx key value a = .ok (ps, b)) :
    key = link ∨ key = junction ∨ key = parent ∨
      isReserved key = false ∧ value.unreserved = true := by
  unfold entry at h
  cases hc : Connective.ofKey? key with
  | some c =>
    simp only [hc, Compile.bind_ok] at h
    obtain ⟨p, _, hp, -⟩ := h
    have hvalue := Filter.connective_unreserved s cx c value hkeyed hp
    exact .inr (.inr (.inr ⟨connective_unreserved hc, hvalue⟩))
  | none =>
    simp only [hc] at h
    by_cases hkey : isReserved key = true
    · rw [if_pos hkey] at h
      simp only [expand] at h
      split at h
      · exact .inl ‹_›
      · split at h
        · exact .inr (.inl ‹_›)
        · split at h
          · exact .inr (.inr (.inl ‹_›))
          · exact (Compile.throw_ok.mp h).elim
    · rw [if_neg hkey] at h
      refine .inr (.inr (.inr ⟨by simpa using hkey, ?_⟩))
      rcases hfield : cx.model.field? key with _ | f
      · rcases hrelation : cx.model.relation? key with _ | r
        · simp only [hfield, hrelation, Compile.throw_ok] at h
        · simp only [hfield, hrelation, Compile.bind_ok] at h
          obtain ⟨p, _, hp, -⟩ := h
          exact Filter.relation_unreserved s cx r value hkeyed hp
      · simp only [hfield, Compile.bind_ok, Compile.lift_ok] at h
        obtain ⟨p, _, ⟨hp, -⟩, -⟩ := h
        exact Condition.compile_unreserved hkeyed hp

theorem conditions_unreserved {s : Settings} {cx : Context} {entries : Json.Entries}
    {ps : List Pred} {a b : Aliases} (hkeyed : ∀ e ∈ entries, e.2.keyed = true)
    (h : conditions s .compiler cx entries a = .ok (ps, b)) :
    ∀ e ∈ entries, e.1 = link ∨ e.1 = junction ∨ e.1 = parent ∨
      isReserved e.1 = false ∧ e.2.unreserved = true := by
  induction entries generalizing ps a b with
  | nil => exact List.forall_mem_nil _
  | cons e rest ih =>
    obtain ⟨hhere, hrest⟩ := List.forall_mem_cons.mp hkeyed
    simp only [conditions, Compile.bind_ok] at h
    obtain ⟨here, _, hh, later, _, hl, -⟩ := h
    exact List.forall_mem_cons.mpr ⟨entry_unreserved hhere hh, ih hrest hl⟩

end Marker

/-- Reserved keys are refused wherever a query can put them: in a filter that is
compiled alone, in the filter of a query, and in that of any relation that it selects.
The filters that the compiler assembles around them do use reserved keys, but only
the known ones and only in their own entries; what a query gave them has none. The
entries of an object are taken to have distinct keys, and of all that is read from text
they have. -/
theorem reserved_keys_are_refused (c : Compiler) :
    (∀ model filter p, (Json.obj filter).keyed = true → c.filter model filter = .ok p →
      (Json.obj filter).Unreserved) ∧
    (∀ model op args p, args.keyed = true → c.compile model op args = .ok p →
      ∀ f ∈ args.filters, (Json.obj f).Unreserved) ∧
    (∀ cx entries r a, (∀ e ∈ entries, e.2.keyed = true) →
      Marker.conditions c.settings .compiler cx entries a = .ok r →
        ∀ e ∈ entries, e.1 = Marker.link ∨ e.1 = Marker.junction ∨ e.1 = Marker.parent ∨
          isReserved e.1 = false ∧ e.2.Unreserved) ∧
    ∀ text json, Json.parse? text = some json →
      json.keyed = true ∧ ∀ args, Args.ofJson json = .ok args → args.keyed = true := by
  refine ⟨fun model filter p hkeyed h => ?_, fun model op args p hkeyed h f hf => ?_,
    fun cx entries r a hkeyed h e he => ?_, fun text json hparse => ?_⟩
  · exact Json.unreserved_of_computed (Compiler.filter_unreserved hkeyed h)
  · exact Json.unreserved_of_computed (Compiler.filters_unreserved hkeyed h f hf)
  · exact (Marker.conditions_unreserved hkeyed h e he).imp_right
      (Or.imp_right (Or.imp_right (And.imp_right Json.unreserved_of_computed)))
  · exact ⟨Json.parse_keyed hparse, fun args hargs => Args.decoded_keyed hparse hargs⟩

theorem sample_reserved_keys_are_refused : Sample.page.filters.length = 3 ∧
    (∀ f ∈ Sample.page.filters, (Json.obj f).Unreserved) ∧
    (Json.obj (Sample.page.filter.getD [])).Unreserved ∧
    ∀ r ∈ Sample.user.relations, ∀ e ∈ Marker.subqueryFilter r (.matching [("title", .str "a")]),
      e.1 = Marker.link ∨ e.1 = Marker.junction ∨ e.1 = Marker.parent ∨
        isReserved e.1 = false ∧ e.2.Unreserved := by
  obtain ⟨halone, hquery, hassembled, -⟩ := reserved_keys_are_refused (Sample.compiler .sqlite)
  obtain ⟨prepared, hcompiles⟩ := Sample.page_compiles
  refine ⟨rfl, hquery "User" .findMany Sample.page prepared rfl hcompiles, ?_, fun r hr => ?_⟩
  · have hfilter : (((Sample.compiler .sqlite).filter "User" (Sample.page.filter.getD [])).map
        (fun _ => ())).toOption = some () := by
      decide +kernel
    obtain ⟨p, hp, -⟩ := except_ok_of_read hfilter
    exact halone "User" _ p rfl hp
  · have hsubquery : ∀ r ∈ Sample.user.relations, ((Marker.conditions
        (Sample.compiler .sqlite).settings .compiler
        ((Context.atRoot Sample.user .findMany {}).nested r Sample.post ⟨1⟩)
        (Marker.subqueryFilter r (.matching [("title", .str "a")])) ⟨2⟩).map
          (fun _ => ())).toOption = some () := by
      decide +kernel
    have hkeyed : ∀ r ∈ Sample.user.relations,
        ∀ e ∈ Marker.subqueryFilter r (.matching [("title", .str "a")]), e.2.keyed = true := by
      decide +kernel
    obtain ⟨ps, hps, -⟩ := except_ok_of_read (hsubquery r hr)
    exact hassembled _ _ ps _ (hkeyed r hr) hps

end QuerySql
