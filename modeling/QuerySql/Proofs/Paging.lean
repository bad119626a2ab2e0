import Mathlib.Data.Int.Order.Basic
import Mathlib.Data.List.Induction
import Mathlib.Order.Lattice
import QuerySql.Proofs.Evaluation
import QuerySql.Proofs.Parameters

/-!
# Paging

A page starts at its cursor. The columns that the cursor is compared in are
those that the page is sorted by, so the rows that the comparison keeps are the
ones that do not sort before the cursor.
-/

set_option autoImplicit false

namespace QuerySql

theorem Keyset.row_eval {α : Type} (db : Database α) (σ : Scope α) (op : Comparison)
    (bounds : List (Column × Value)) : (Keyset.row op bounds).eval db σ =
      db.compareRows op (bounds.map fun b => σ.cell b.1) (bounds.map fun b => db.bound b.2) := by
  match bounds with
  | [(column, value)] | [] => rfl
  | b :: c :: bounds =>
    rw [Keyset.row, Pred.eval, List.map_map, List.map_map]
    · rfl
    · simp

section

variable {α : Type} [LinearOrder α]

def Comparison.holds (x y : α) : Comparison → Bool
  | .eq => x = y
  | .ne => x ≠ y
  | .lt => x < y
  | .le => x ≤ y
  | .gt => y < x
  | .ge => y ≤ x

/-- The engine compares values by the order that it sorts them in, and only a null
is bound as one. -/
structure Database.Ordered (db : Database α) : Prop where
  compare_eq : ∀ op x y, db.compare op x y = .ofBool (op.holds x y)
  bound_some : ∀ v, v ≠ .null → (db.bound v).isSome = true

def Direction.Less (x y : α) : Direction → Prop
  | .asc => x < y
  | .desc => y < x

/-- Whether nulls come before values: an engine has a place of its own for them where
the item names none, as the lowest or as the highest of all values. -/
def SortItem.nullsFirst (nullsLow : Bool) (it : SortItem) : Bool :=
  match it.nulls with
  | some .first => true
  | some .last => false
  | none => decide (it.direction = .asc) == nullsLow

def SortItem.Before (nullsLow : Bool) (it : SortItem) : Cell α → Cell α → Prop
  | some x, some y => it.direction.Less x y
  | none, some _ => it.nullsFirst nullsLow = true
  | some _, none => it.nullsFirst nullsLow = false
  | none, none => False

/-- The rows of one scope sort strictly before those of another: the first item
whose cells differ decides. -/
def Ordering.Before (db : Database α) (nullsLow : Bool) (σ τ : Scope α) : List SortItem → Prop
  | [] => False
  | it :: rest =>
    it.Before nullsLow (it.key.eval db σ) (it.key.eval db τ) ∨
      it.key.eval db σ = it.key.eval db τ ∧ Before db nullsLow σ τ rest

theorem Direction.not_less_self (d : Direction) (x : α) : ¬d.Less x x := by
  cases d with
  | asc | desc => exact lt_irrefl x

theorem Direction.less_of_ne (d : Direction) {x y : α} (h : x ≠ y) :
    d.Less y x ↔ ¬d.Less x y := by
  cases d with
  | asc => exact ⟨fun hlt => not_lt_of_gt hlt, fun hlt => lt_of_le_of_ne (not_lt.mp hlt) h.symm⟩
  | desc => exact ⟨fun hlt => not_lt_of_gt hlt, fun hlt => lt_of_le_of_ne (not_lt.mp hlt) h⟩

theorem SortItem.not_before_self (nullsLow : Bool) (it : SortItem) (x : Cell α) :
    ¬it.Before nullsLow x x := by
  cases x with
  | none => exact id
  | some x => exact it.direction.not_less_self x

theorem Ordering.before_of_eq (db : Database α) (nullsLow : Bool) {σ τ : Scope α} {it : SortItem}
    (h : it.key.eval db σ = it.key.eval db τ) (rest : List SortItem) :
    Ordering.Before db nullsLow σ τ (it :: rest) ↔ Ordering.Before db nullsLow σ τ rest := by
  rw [Ordering.Before, h]
  simp [SortItem.not_before_self]

theorem Ordering.before_of_ne (db : Database α) (nullsLow : Bool) {σ τ : Scope α} {it : SortItem}
    (h : it.key.eval db σ ≠ it.key.eval db τ) (rest : List SortItem) :
    Ordering.Before db nullsLow σ τ (it :: rest) ↔
      it.Before nullsLow (it.key.eval db σ) (it.key.eval db τ) := by
  simp [Ordering.Before, h]

theorem Database.past_cons {db : Database α} (hdb : db.Ordered) (d : Direction) (x y : α)
    (xs ys : List (Cell α)) :
    db.compareRows (Keyset.pastOp d) (some x :: xs) (some y :: ys) = .yes ↔
      d.Less y x ∨ x = y ∧ db.compareRows (Keyset.pastOp d) xs ys = .yes := by
  have hcells : ∀ op, db.compareCells op (some x) (some y) = .yes ↔ op.holds x y = true := by
    intro op
    rw [Database.compareCells, hdb.compare_eq, Truth.of_bool_eq_yes]
  have hlast : db.compareCells (Keyset.pastOp d) (some x) (some y) = .yes ↔ d.Less y x ∨ x = y := by
    rw [hcells]
    cases d with
    | asc => exact decide_eq_true_iff.trans (le_iff_lt_or_eq.trans (or_congr_right eq_comm))
    | desc => exact decide_eq_true_iff.trans le_iff_lt_or_eq
  have hmore : ∀ rest, (db.compareCells (if d = .asc then .gt else .lt) (some x) (some y)).or
      ((db.compareCells .eq (some x) (some y)).and rest) = .yes ↔
        d.Less y x ∨ x = y ∧ rest = .yes := by
    intro rest
    rw [Truth.or_eq_yes, Truth.and_eq_yes, hcells, hcells]
    cases d <;> simp [Comparison.holds, Direction.Less]
  match xs, ys with
  | [], [] =>
    have hend : db.compareRows (Keyset.pastOp d) [] [] = .yes := by
      cases d <;> rfl
    rw [hend, eq_self, and_true]
    exact hlast
  | _ :: _, _ | [], _ :: _ =>
    rw [← hmore]
    cases d <;> rfl

/-- The columns not in `seen` are sorted in one direction where they come up first. -/
def Ordering.FirstsIn (d : Direction) (seen : List Scalar) (page : List SortItem) : Prop :=
  ∀ before it after, page = before ++ it :: after → it.key ∉ seen →
    it.key ∉ before.map (·.key) → it.direction = d

theorem Ordering.FirstsIn.tail {d : Direction} {seen more : List Scalar} {it : SortItem}
    {rest : List SortItem} (h : FirstsIn d seen (it :: rest)) (hmore : it.key :: seen ⊆ more) :
    FirstsIn d more rest := by
  intro before it' after hsplit hnot hfirst
  have hnew : it'.key ∉ it.key :: seen := fun hmem => hnot (hmore hmem)
  rw [List.mem_cons, not_or] at hnew
  refine h (it :: before) it' after (by rw [hsplit]; rfl) hnew.2 ?_
  rw [List.map_cons, List.mem_cons, not_or]
  exact ⟨hnew.1, hfirst⟩

theorem erase_dups_cons {key : Scalar} {keys seen : List Scalar} (h : key ∉ seen) :
    ((key :: keys).removeAll seen).eraseDups =
      key :: (keys.removeAll (key :: seen)).eraseDups := by
  have hfirst : (key :: keys).removeAll seen = key :: keys.removeAll seen := by
    simp [List.removeAll, h]
  have hrest : (keys.removeAll seen).filter (fun other => !other == key) =
      keys.removeAll (key :: seen) := by
    simp [List.removeAll, List.filter_filter, beq_eq_decide]
  rw [hfirst, List.eraseDups_cons, hrest]

/-- Where the rows first differ in what the items sort by, the first has a null. -/
def Ordering.DepartsByNull (db : Database α) (σ τ : Scope α) : List SortItem → Prop
  | [] => False
  | it :: rest =>
    it.key.eval db σ = none ∧ it.key.eval db τ ≠ none ∨
      it.key.eval db σ = it.key.eval db τ ∧ DepartsByNull db σ τ rest

omit [LinearOrder α] in
theorem Ordering.departs_of_eq {db : Database α} {σ τ : Scope α} {it : SortItem}
    (h : it.key.eval db σ = it.key.eval db τ) (rest : List SortItem) :
    Ordering.DepartsByNull db σ τ (it :: rest) ↔ Ordering.DepartsByNull db σ τ rest := by
  rw [Ordering.DepartsByNull, h]
  simp

omit [LinearOrder α] in
theorem Database.null_not_past (db : Database α) (d : Direction) (y : Cell α)
    (xs ys : List (Cell α)) :
    db.compareRows (Keyset.pastOp d) (none :: xs) (y :: ys) ≠ .yes := by
  have hmore : (db.compareCells (if d = .asc then .gt else .lt) none y).or
      ((db.compareCells .eq none y).and (db.compareRows (Keyset.pastOp d) xs ys)) ≠ .yes := by
    generalize db.compareRows (Keyset.pastOp d) xs ys = rest
    cases rest <;> simp [Database.compareCells, Truth.or, Truth.and]
  match xs, ys with
  | [], [] => exact fun h => by cases h
  | _ :: _, _ | [], _ :: _ => cases d <;> exact hmore

/-- A comparison in the distinct columns of an ordering keeps the rows that do not sort
before its values, but for those that first differ from them by a null. The columns in
`seen` are known to hold them already. -/
theorem Keyset.kept_iff {db : Database α} (hdb : db.Ordered) (nullsLow : Bool) {σ τ : Scope α}
    {d : Direction} {page : List SortItem} {bounds : List (Column × Value)} {seen : List Scalar}
    (hseen : ∀ key ∈ seen, key.eval db σ = key.eval db τ)
    (hcolumns : bounds.map (fun b => Scalar.column b.1) =
      ((page.map (·.key)).removeAll seen).eraseDups)
    (hfirsts : Ordering.FirstsIn d seen page)
    (hvalue : ∀ b ∈ bounds, τ.cell b.1 = db.bound b.2 ∧ (db.bound b.2).isSome = true) :
    db.compareRows (Keyset.pastOp d) (bounds.map fun b => σ.cell b.1)
        (bounds.map fun b => db.bound b.2) = .yes ↔
      ¬Ordering.Before db nullsLow σ τ page ∧ ¬Ordering.DepartsByNull db σ τ page := by
  induction page generalizing bounds seen with
  | nil =>
    have hnil : bounds = [] := by simpa [List.removeAll] using hcolumns
    subst hnil
    cases d <;> simp [Ordering.Before, Ordering.DepartsByNull, Database.compareRows,
      Keyset.pastOp, Truth.ofBool]
  | cons it rest ih =>
    by_cases hin : it.key ∈ seen
    · -- a column again, which neither side looks at
      rw [Ordering.before_of_eq db nullsLow (hseen _ hin), Ordering.departs_of_eq (hseen _ hin)]
      refine ih hseen ?_ (hfirsts.tail (List.cons_subset.mpr ⟨hin, List.Subset.refl seen⟩)) hvalue
      simpa [List.removeAll, hin] using hcolumns
    · rw [List.map_cons, erase_dups_cons hin] at hcolumns
      obtain ⟨b, bs, rfl, hb, hbs⟩ := List.map_eq_cons_iff.mp hcolumns
      rw [List.forall_mem_cons] at hvalue
      obtain ⟨y, hy⟩ := Option.isSome_iff_exists.mp hvalue.1.2
      have hτ : it.key.eval db τ = some y := by rw [← hb, ← hy, ← hvalue.1.1]; rfl
      have hσ : it.key.eval db σ = σ.cell b.1 := by rw [← hb]; rfl
      rw [List.map_cons, List.map_cons]
      cases hx : σ.cell b.1 with
      | none =>
        have hdeparts : Ordering.DepartsByNull db σ τ (it :: rest) :=
          .inl ⟨hσ.trans hx, by rw [hτ]; exact Option.some_ne_none y⟩
        exact iff_of_false (db.null_not_past d _ _ _) fun h => h.2 hdeparts
      | some x =>
        rw [hx] at hσ
        have hd : it.direction = d := hfirsts [] it rest rfl hin List.not_mem_nil
        rw [hy, Database.past_cons hdb]
        by_cases hxy : x = y
        · have heq : it.key.eval db σ = it.key.eval db τ := by rw [hσ, hτ, hxy]
          have hnext := ih (List.forall_mem_cons.mpr ⟨heq, hseen⟩) hbs
            (hfirsts.tail (List.Subset.refl _)) hvalue.2
          rw [Ordering.before_of_eq db nullsLow heq, Ordering.departs_of_eq heq, ← hnext]
          simp [hxy, Direction.not_less_self]
        · rw [Ordering.before_of_ne db nullsLow (by simpa [hσ, hτ] using hxy), hσ, hτ,
            SortItem.Before, hd, ← Direction.less_of_ne d hxy, Ordering.DepartsByNull, hσ, hτ]
          simp [hxy]

end

/-- The identifiers that break the ties of a page. -/
def Ordering.ties (s : Settings) (cx : Context) (page : List SortItem) : List SortItem :=
  if breaksTies s cx then
    (cx.model.identifiers.map fun f => ascending cx f.name).filter fun it =>
      it.key ∉ page.map (·.key)
  else []

namespace Keyset

/-- Keys found so far beside the items of an ordering: one key for each name, and the
direction of an item is known to a key where its column comes up first. -/
structure Tracks (tag : Alias) (names : List String) (ks : List Key) (items : List SortItem) :
    Prop where
  names_eq : ks.map (·.name) = names.eraseDups
  keys_eq : items.map (·.key) = names.map fun name => .column ⟨tag, name⟩
  first : ∀ before it after, items = before ++ it :: after → it.key ∉ before.map (·.key) →
    ∃ k ∈ ks, k.direction = it.direction

theorem tracks_nil (tag : Alias) : Tracks tag [] [] [] := ⟨rfl, rfl, by simp⟩

variable {tag : Alias} {names : List String} {ks : List Key} {items : List SortItem}

theorem Tracks.mem_names (h : Tracks tag names ks items) (name : String) :
    name ∈ ks.map (·.name) ↔ name ∈ names := by
  rw [h.names_eq, List.mem_eraseDups]

theorem Tracks.mem_keys (h : Tracks tag names ks items) (name : String) :
    Scalar.column ⟨tag, name⟩ ∈ items.map (·.key) ↔ name ∈ names := by
  simp [h.keys_eq]

theorem Tracks.add (h : Tracks tag names ks items) {it : SortItem} {name : String}
    (hit : it.key = .column ⟨tag, name⟩) (value : Json) :
    Tracks tag (names ++ [name]) (add ks ⟨name, value, it.direction⟩) (items ++ [it]) where
  names_eq := add_names h.names_eq _
  keys_eq := by
    rw [List.map_append, List.map_append, h.keys_eq, List.map_singleton, hit]
    rfl
  first := by
    intro before it' after hsplit hnot
    have hmore : ∀ k ∈ ks, k ∈ Keyset.add ks ⟨name, value, it.direction⟩ := by
      intro k hk
      unfold Keyset.add
      split
      · exact hk
      · exact List.mem_append_left _ hk
    rcases List.eq_nil_or_concat after with rfl | ⟨init, last, rfl⟩
    · obtain ⟨rfl, hlast⟩ := List.append_inj' hsplit rfl
      obtain ⟨rfl⟩ := List.singleton_inj.mp hlast
      rw [hit, h.mem_keys, ← h.mem_names] at hnot
      exact ⟨_, by rw [add_new hnot]; exact List.mem_append_right _ List.mem_cons_self, rfl⟩
    · have hitems : items = before ++ it' :: init := by
        rw [List.concat_eq_append, ← List.cons_append, ← List.append_assoc] at hsplit
        exact (List.append_inj' hsplit rfl).1
      obtain ⟨k, hk, hdirection⟩ := h.first before it' init hitems hnot
      exact ⟨k, hmore k hk, hdirection⟩

theorem mention_of_field {s : Settings} {cx : Context} {key : String} {value : Json}
    {ms : List Ordering.Mention} (hplain : Aggregate.ofKey? key = none)
    (h : Ordering.keyMentions s cx none key value = .ok ms) : ∃ it,
      ms = [⟨some key, it⟩] ∧ it.key = .column ⟨cx.tag, key⟩ ∧
        Ordering.order cx.model key value = .ok (it.direction, it.nulls) := by
  unfold Ordering.keyMentions at h
  split at h
  · rename_i kind hkind
    rw [hplain] at hkind
    cases hkind
  · split at h
    · rename_i f hf
      simp only [Option.any_none, Bool.false_eq_true, if_false, Ordering.item, except_bind_ok,
        except_pure_ok] at h
      obtain ⟨⟨direction, nulls⟩, horder, it, ⟨_, _, rfl⟩, rfl⟩ := h
      obtain ⟨_, rfl⟩ := Model.field_mem hf
      exact ⟨_, rfl, rfl, horder⟩
    · split at h <;> cases h

section

variable {s : Settings} {cx : Context} {cursor : Json.Entries} {ks' : List Key}
  {ms : List Ordering.Mention}

theorem entry_tracks {entry : Json.Entries} (h : Tracks cx.tag names ks items)
    (hplain : ∀ key ∈ entry.keys, Aggregate.ofKey? key = none)
    (hk : entryKeys cx.model cursor ks entry = .ok ks')
    (hm : Ordering.entryMentions s cx none entry = .ok ms) :
    Tracks cx.tag (names ++ entry.keys) ks' (items ++ ms.map (·.item)) ∧
      ms.filterMap (·.field) = entry.keys := by
  induction entry generalizing names ks items ms with
  | nil =>
    cases hk
    cases hm
    simpa [Json.Entries.keys] using h
  | cons e rest ih =>
    obtain ⟨name, value⟩ := e
    simp only [Json.Entries.keys, List.map_cons, List.forall_mem_cons] at hplain
    simp only [Ordering.entryMentions, except_bind_ok, except_pure_ok] at hm
    obtain ⟨here, hhere, later, hlater, rfl⟩ := hm
    obtain ⟨it, rfl, hit, horder⟩ := mention_of_field hplain.1 hhere
    rw [entryKeys] at hk
    split at hk
    · cases hk
    · rename_i bound _
      simp only [horder, except_bind_ok, Except.ok.injEq, exists_eq_left'] at hk
      obtain ⟨hnext, hfields⟩ := ih (h.add hit bound) hplain.2 hk hlater
      simpa [Json.Entries.keys] using And.intro hnext hfields

theorem ordered_tracks {entries : List Json.Entries} (h : Tracks cx.tag names ks items)
    (hplain : ∀ entry ∈ entries, ∀ key ∈ entry.keys, Aggregate.ofKey? key = none)
    (hk : orderedKeys cx.model cursor ks entries = .ok ks')
    (hm : Ordering.mentions s cx none entries = .ok ms) :
    Tracks cx.tag (names ++ entries.flatMap Json.Entries.keys) ks' (items ++ ms.map (·.item)) ∧
      ms.filterMap (·.field) = entries.flatMap Json.Entries.keys := by
  induction entries generalizing names ks items ms with
  | nil =>
    cases hk
    cases hm
    simpa using h
  | cons entry rest ih =>
    rw [List.forall_mem_cons] at hplain
    simp only [orderedKeys, except_bind_ok] at hk
    obtain ⟨next, hn, hk⟩ := hk
    rw [Ordering.mentions] at hm
    split at hm
    · simp only [except_bind_ok, except_throw_ok, false_and, exists_false] at hm
    · simp only [except_bind_ok, except_pure_ok] at hm
      obtain ⟨here, hhere, later, hlater, rfl⟩ := hm
      obtain ⟨hentry, hfirst⟩ := entry_tracks h hplain.1 hn hhere
      obtain ⟨hrest, hfields⟩ := ih hentry hplain.2 hk hlater
      exact ⟨by simpa using hrest, by rw [List.filterMap_append, hfirst, hfields]; rfl⟩

theorem rest_tracks {written : List String} (rest : Json.Entries)
    (hwritten : ∀ name ∈ written, name ∈ names) (h : Tracks cx.tag names ks items) :
    Tracks cx.tag (names ++ Ordering.unseen written rest.keys)
      (rest.foldl (fun keys (name, value) => Keyset.add keys ⟨name, value, .asc⟩) ks)
      (items ++ (Ordering.unseen written rest.keys).map (Ordering.ascending cx)) := by
  induction rest generalizing names ks items with
  | nil => simpa [Json.Entries.keys, Ordering.unseen] using h
  | cons e rest ih =>
    obtain ⟨name, value⟩ := e
    by_cases hin : name ∈ written
    · have hseen : Keyset.add ks ⟨name, value, .asc⟩ = ks :=
        add_seen ((h.mem_names name).mpr (hwritten name hin))
      have hnext := ih hwritten h
      simpa [Json.Entries.keys, Ordering.unseen, hin, hseen] using hnext
    · have hadd : Tracks cx.tag (names ++ [name]) (Keyset.add ks ⟨name, value, .asc⟩)
          (items ++ [Ordering.ascending cx name]) :=
        @Tracks.add _ _ _ _ h (Ordering.ascending cx name) name rfl value
      have hnext := ih (fun n hn => List.mem_append_left _ (hwritten n hn)) hadd
      simpa [Json.Entries.keys, Ordering.unseen, hin] using hnext

end

/-- The fields of an ordering as written, and those that a cursor adds to them. -/
def pageNames (orderBy : Option (List Json.Entries)) (cursor : Json.Entries) : List String :=
  let written := (orderBy.getD []).flatMap Json.Entries.keys
  written ++ Ordering.unseen written cursor.keys

/-- What the comparison with a cursor and the ordering of its page have in common. -/
structure Agrees (tag : Alias) (orderBy : Option (List Json.Entries)) (cursor : Json.Entries)
    (direction : Direction) (bounds : List (Column × Value)) (page : List SortItem) : Prop where
  page_eq : page.map (·.key) = (pageNames orderBy cursor).map fun name => .column ⟨tag, name⟩
  columns_eq : bounds.map (fun b => Scalar.column b.1) = (page.map (·.key)).eraseDups
  direction_eq : ∀ before it after, page = before ++ it :: after →
    it.key ∉ before.map (·.key) → it.direction = direction
  value_eq : ∀ b ∈ bounds, ∃ json, cursor.get? b.1.name = some json ∧ Condition.Binds json b.2

theorem erase_dups_map {α β : Type} [DecidableEq α] [DecidableEq β] {f : α → β}
    (hf : Function.Injective f) (xs : List α) : (xs.map f).eraseDups = xs.eraseDups.map f := by
  induction xs using List.reverseRecOn with
  | nil => rfl
  | append_singleton xs x ih =>
    rw [List.map_append, List.eraseDups_append, List.eraseDups_append, ih, List.map_append]
    by_cases hx : x ∈ xs <;> simp [List.removeAll, hx, hf.eq_iff, List.eraseDups_cons]

theorem column_injective (tag : Alias) :
    Function.Injective fun name => Scalar.column ⟨tag, name⟩ := by
  intro x y h
  simpa using h

theorem Tracks.ties_eq {s : Settings} {cx : Context} (h : Tracks cx.tag names ks items) :
    Ordering.ties s cx items = (if Ordering.breaksTies s cx then
      Ordering.unseen names (cx.model.identifiers.map (·.name)) else []).map
        (Ordering.ascending cx) := by
  rw [Ordering.ties]
  split
  · rw [Ordering.unseen, List.filter_map, List.filter_map, List.map_map]
    have hkept : ∀ f : Field, f.name ∈ names ↔
        (Ordering.ascending cx f.name).key ∈ items.map (·.key) := fun f => (h.mem_keys f.name).symm
    simp only [Function.comp_def, ← hkept, List.contains_eq_mem, decide_not]
  · rfl

theorem page_of_order {s : Settings} {cx : Context} {orderBy : Option (List Json.Entries)}
    {cursor : Json.Entries} (hlead : Ordering.distinctFields cx = .ok [])
    (hcursor : cx.pagination?.bind (·.cursor) = some cursor)
    (hplain : ∀ entry ∈ orderBy.getD [], ∀ key ∈ entry.keys, Aggregate.ofKey? key = none)
    (order : Ordering.compile s cx orderBy none = .ok items)
    (hkeys : keys cx.model cursor orderBy = .ok ks) : ∃ page,
      items = page ++ Ordering.ties s cx page ∧
        Tracks cx.tag (pageNames orderBy cursor) ks page := by
  obtain ⟨ms, fields, hms, hfields, rfl⟩ := Ordering.compile_unled hlead order
  rw [hcursor] at hfields
  simp only [keys, except_bind_ok, except_pure_ok] at hkeys
  obtain ⟨ordered, ho, rfl⟩ := hkeys
  obtain ⟨hwritten, hseen⟩ := ordered_tracks (tracks_nil cx.tag) hplain ho hms
  have hpage := rest_tracks cursor (fun _ => id) hwritten
  have hnames : fields.map (·.name) = cursor.keys := (Model.expect_fields_ok hfields).1
  rw [List.nil_append, List.nil_append] at hpage
  refine ⟨_, ?_, hpage⟩
  rw [hpage.ties_eq, hnames, hseen]
  simp

theorem bound_of_key {cx : Context} {bounds : List (Column × Value)}
    (h : List.Forall₂ (fun k b => boundary cx k = .ok b) ks bounds) :
    bounds.map (·.1) = ks.map (fun k => ⟨cx.tag, k.name⟩) ∧
      ∀ b ∈ bounds, ∃ k ∈ ks, b.1.name = k.name ∧ Condition.Binds k.value b.2 := by
  induction h with
  | nil => simp
  | @cons k b ks bounds hk _ ih =>
    obtain ⟨⟨f, _, hname, hcolumn⟩, hbinds⟩ := boundary_ok hk
    have hb : b.1 = ⟨cx.tag, k.name⟩ := by rw [hcolumn, ← hname]; rfl
    refine ⟨by rw [List.map_cons, List.map_cons, ih.1, hb], List.forall_mem_cons.mpr ⟨?_, ?_⟩⟩
    · exact ⟨k, List.mem_cons_self, by rw [hb], hbinds⟩
    · intro c hc
      obtain ⟨j, hj, hc⟩ := ih.2 c hc
      exact ⟨j, List.mem_cons_of_mem _ hj, hc⟩

theorem agrees_of_tracks {cx : Context} {orderBy : Option (List Json.Entries)}
    {cursor : Json.Entries} {direction : Direction} {bounds : List (Column × Value)}
    (hkeys : keys cx.model cursor orderBy = .ok ks) (hsame : ∀ k ∈ ks, k.direction = direction)
    (hbounds : List.Forall₂ (fun k b => boundary cx k = .ok b) ks bounds)
    (h : Tracks cx.tag (pageNames orderBy cursor) ks items) :
    Agrees cx.tag orderBy cursor direction bounds items where
  page_eq := h.keys_eq
  columns_eq := by
    rw [h.keys_eq, erase_dups_map (column_injective cx.tag), ← h.names_eq, List.map_map]
    have hcolumns := congrArg (List.map Scalar.column) (bound_of_key hbounds).1
    rwa [List.map_map, List.map_map] at hcolumns
  direction_eq := by
    intro before it after hsplit hnot
    obtain ⟨k, hk, hdirection⟩ := h.first before it after hsplit hnot
    rw [← hdirection, hsame k hk]
  value_eq := by
    intro b hb
    obtain ⟨k, hk, hname, hbinds⟩ := (bound_of_key hbounds).2 b hb
    exact ⟨k.value, by rw [hname]; exact (keys_hold hkeys).2 k hk, hbinds⟩

theorem binds_ne_null {json : Json} {v : Value} (h : Condition.Binds json v) : v ≠ .null := by
  rintro rfl
  obtain ⟨hne, hvalue⟩ := h
  cases json with
  | null => exact hne rfl
  | num n =>
    cases n with
    | int i =>
      rw [Value.ofJson?, Value.ofInt] at hvalue
      split at hvalue <;> cases hvalue
    | double d => cases hvalue
  | bool _ | str _ | arr _ | obj _ => cases hvalue

def position {α : Type} (db : Database α) (cursor : Json.Entries) : Row α := fun name =>
  (cursor.get? name).bind fun json => (Value.ofJson? json).bind db.bound

theorem Agrees.column_of_item {orderBy : Option (List Json.Entries)} {cursor : Json.Entries}
    {direction : Direction} {bounds : List (Column × Value)}
    (h : Agrees tag orderBy cursor direction bounds items) {it : SortItem} (hit : it ∈ items) :
    ∃ name ∈ cursor.keys, it.key = .column ⟨tag, name⟩ := by
  have hmem : it.key ∈ items.map (·.key) := List.mem_map_of_mem hit
  have hcolumn := hmem
  rw [h.page_eq] at hcolumn
  obtain ⟨name, -, hname⟩ := List.mem_map.mp hcolumn
  rw [← List.mem_eraseDups, ← h.columns_eq] at hmem
  obtain ⟨b, hb, hkey⟩ := List.mem_map.mp hmem
  obtain ⟨json, hjson, -⟩ := h.value_eq b hb
  obtain ⟨before, after, hentries, -⟩ := List.lookup_eq_some_iff.mp hjson
  have hsame : b.1.name = name := by rw [Scalar.column.inj (hkey.trans hname.symm)]
  exact ⟨name, by rw [hentries, hsame]; simp [Json.Entries.keys], hname.symm⟩

/-- Rows past the cursor are those that do not sort before it, but for those that first
differ from it by a null. -/
theorem Agrees.kept_iff {α : Type} [LinearOrder α] {db : Database α}
    {orderBy : Option (List Json.Entries)} {cursor : Json.Entries} {direction : Direction}
    {bounds : List (Column × Value)} (h : Agrees tag orderBy cursor direction bounds items)
    (hdb : db.Ordered) (nullsLow : Bool) (σ : Scope α) (row : Row α) :
    (Keyset.row (pastOp direction) bounds).eval db (σ.bind tag row) = .yes ↔
      ¬Ordering.Before db nullsLow (σ.bind tag row) (σ.bind tag (position db cursor)) items ∧
        ¬Ordering.DepartsByNull db (σ.bind tag row) (σ.bind tag (position db cursor)) items := by
  have hnone : ∀ key ∈ ([] : List Scalar), key.eval db (σ.bind tag row) =
      key.eval db (σ.bind tag (position db cursor)) := List.forall_mem_nil _
  rw [row_eval]
  refine Keyset.kept_iff hdb nullsLow hnone ?_ ?_ ?_
  · simpa [List.removeAll] using h.columns_eq
  · intro before it after hsplit _ hfirst
    exact h.direction_eq before it after hsplit hfirst
  · intro b hb
    obtain ⟨json, hjson, hbinds⟩ := h.value_eq b hb
    have htag : b.1.tag = tag := by
      have hmem : Scalar.column b.1 ∈ bounds.map fun b => Scalar.column b.1 :=
        List.mem_map.mpr ⟨b, hb, rfl⟩
      rw [h.columns_eq, List.mem_eraseDups, h.page_eq] at hmem
      obtain ⟨name, _, hname⟩ := List.mem_map.mp hmem
      rw [← Scalar.column.inj hname]
    rw [Scope.cell, htag, Scope.bind_row_self, position, hjson, Option.bind_some, hbinds.2]
    exact ⟨rfl, hdb.bound_some b.2 (binds_ne_null hbinds)⟩

theorem not_departs_of_some {α : Type} {db : Database α} {σ τ : Scope α} {items : List SortItem}
    (h : ∀ it ∈ items, it.key.eval db σ ≠ none) : ¬Ordering.DepartsByNull db σ τ items := by
  induction items with
  | nil => exact id
  | cons it rest ih =>
    rw [List.forall_mem_cons] at h
    rintro (⟨hnull, -⟩ | ⟨-, hrest⟩)
    · exact h.1 hnull
    · exact ih h.2 hrest

theorem Agrees.holds_iff {α : Type} [LinearOrder α] {db : Database α}
    {orderBy : Option (List Json.Entries)} {cursor : Json.Entries} {direction : Direction}
    {bounds : List (Column × Value)} (h : Agrees tag orderBy cursor direction bounds items)
    (hdb : db.Ordered) (nullsLow : Bool) (σ : Scope α) {row : Row α}
    (hrow : ∀ name ∈ cursor.keys, (row name).isSome = true) :
    (Keyset.row (pastOp direction) bounds).eval db (σ.bind tag row) = .yes ↔
      ¬Ordering.Before db nullsLow (σ.bind tag row) (σ.bind tag (position db cursor)) items := by
  rw [h.kept_iff hdb nullsLow]
  refine and_iff_left (not_departs_of_some fun it hit hnull => ?_)
  obtain ⟨name, hname, hkey⟩ := h.column_of_item hit
  rw [hkey, Scalar.eval, Scope.cell, Scope.bind_row_self] at hnull
  simpa [hnull] using hrow name hname

end Keyset

def Statement.body? : Statement → Option Body
  | .select _ _ body | .overPage _ _ _ body => some body
  | .insert _ _ | .update _ _ _ _ | .delete _ _ _ => none

section

variable {s : Settings} {cx : Context} {args : Args} {cursor : Json.Entries}

theorem Read.no_distinct_of_cursor {columns : List Column} (h : Read.distinct s cx = .ok columns)
    (hcursor : cx.pagination?.bind (·.cursor) = some cursor) :
    Ordering.distinctFields cx = .ok [] := by
  simp only [Read.distinct, except_bind_ok] at h
  obtain ⟨fields, hfields, h⟩ := h
  split at h
  · rename_i hempty
    rw [hfields, List.isEmpty_iff.mp hempty]
  · simp only [hcursor, Option.isSome_some, if_true, except_bind_ok, except_throw_ok, false_and,
      exists_false] at h

theorem Read.no_distinct_of_check {m : Model} {op : Operation} (h : args.check m.name op = .ok ())
    (hop : op = .count ∨ op = .aggregate) :
    Ordering.distinctFields (Context.atRoot m op args) = .ok [] := by
  have hnone : args.distinct = none := by
    have hunused : op.accepts .distinct = false := by
      rcases hop with rfl | rfl <;> rfl
    simpa [Args.has] using Args.lacks h .distinct hunused
  have hdistinct : (Context.atRoot m op args).pagination?.bind (·.distinct) = none := by
    rcases hop with rfl | rfl <;> exact hnone
  rw [Ordering.distinctFields, hdistinct]

theorem Read.cursor_agrees {p : Option Pred} {items : List SortItem} {a b : Aliases}
    (hlead : Ordering.distinctFields cx = .ok [])
    (hcursor : cx.pagination?.bind (·.cursor) = some cursor)
    (hplain : ∀ entry ∈ args.orderBy.getD [], ∀ key ∈ entry.keys, Aggregate.ofKey? key = none)
    (filter : Read.Filtered s cx args p a b)
    (order : Ordering.compile s cx args.orderBy none = .ok items) :
    ∃ conditions page direction bounds,
      p = Pred.all? (conditions ++ [Keyset.row (Keyset.pastOp direction) bounds]) ∧
        items = page ++ Ordering.ties s cx page ∧
          Keyset.Agrees cx.tag args.orderBy cursor direction bounds page := by
  cases filter with
  | mk _ past =>
    rw [hcursor] at past
    cases past with
    | some _ hkeys hsame hbounds =>
      obtain ⟨page, hitems, htracks⟩ := Keyset.page_of_order hlead hcursor hplain order hkeys
      exact ⟨_, page, _, _, rfl, hitems, Keyset.agrees_of_tracks hkeys hsame hbounds htracks⟩

theorem Statement.cursor_agrees {m : Model} {op : Operation} {st : Statement} {b : Aliases}
    (hcursor : args.cursor = some cursor)
    (hpaged : op.isRead = true ∨
      (op = .count ∨ op = .aggregate) ∧ (args.take.isSome = true ∨ args.skip.isSome = true))
    (hplain : ∀ entry ∈ args.orderBy.getD [], ∀ key ∈ entry.keys, Aggregate.ofKey? key = none)
    (hcheck : args.check m.name op = .ok ())
    (h : Statement.Runs s (Context.atRoot m op args) args op st b) :
    ∃ body conditions page direction bounds, st.body? = some body ∧
      body.filter = Pred.all? (conditions ++ [Keyset.row (Keyset.pastOp direction) bounds]) ∧
      body.orderBy = page ++ Ordering.ties s (Context.atRoot m op args) page ∧
      Keyset.Agrees body.tag args.orderBy cursor direction bounds page := by
  have hread : op.isMutation = false := by
    rcases hpaged with hop | ⟨rfl | rfl, _⟩
    · cases op <;> first | rfl | cases hop
    · rfl
    · rfl
  have hroot : (Context.atRoot m op args).pagination?.bind (·.cursor) = some cursor := by
    rw [Context.root_cursor m op args hread, hcursor]
  cases h with
  | find _ _ hdistinct filter order =>
    obtain ⟨conditions, page, direction, bounds, hagrees⟩ :=
      Read.cursor_agrees (Read.no_distinct_of_cursor hdistinct hroot) hroot hplain filter order
    exact ⟨_, conditions, page, direction, bounds, rfl, hagrees⟩
  | overPage hop filter _ _ order =>
    obtain ⟨conditions, page, direction, bounds, hagrees⟩ :=
      Read.cursor_agrees (Read.no_distinct_of_check hcheck hop) hroot hplain filter order
    exact ⟨_, conditions, page, direction, bounds, rfl, hagrees⟩
  | aggregate hop _ _ unpaged =>
    -- all rows at once are no page
    rw [Bool.and_eq_true, Option.isNone_iff_eq_none, Option.isNone_iff_eq_none] at unpaged
    rcases hpaged with hop' | ⟨_, htake | hskip⟩
    · rcases hop with rfl | rfl <;> cases hop'
    · rw [unpaged.1] at htake
      cases htake
    · rw [unpaged.2] at hskip
      cases hskip
  | groupBy | create | update | delete =>
    rcases hpaged with hop | ⟨hop | hop, _⟩ <;> cases hop

end

/-- A page starts at its cursor: the comparison with the cursor and the ordering agree
in their columns, in one direction, and the rows that it keeps are those that do not
sort before the cursor. -/
theorem cursor_agrees_with_ordering (c : Compiler) (model : String) (op : Operation) (args : Args)
    (cursor : Json.Entries) (prepared : Prepared) (hcursor : args.cursor = some cursor)
    (hpaged : op.isRead = true ∨
      (op = .count ∨ op = .aggregate) ∧ (args.take.isSome = true ∨ args.skip.isSome = true))
    (hplain : ∀ entry ∈ args.orderBy.getD [], ∀ key ∈ entry.keys, Aggregate.ofKey? key = none)
    (h : c.compile model op args = .ok prepared) :
    ∃ m st as body conditions page direction bounds, c.schema.model? model = some m ∧
      c.statement model op args = .ok (st, as) ∧
      prepared = (st.render c.dialect).prepare c.dialect ∧ st.body? = some body ∧
      body.filter = Pred.all? (conditions ++ [Keyset.row (Keyset.pastOp direction) bounds]) ∧
      body.orderBy = page ++ Ordering.ties c.settings (Context.atRoot m op args) page ∧
      Keyset.Agrees body.tag args.orderBy cursor direction bounds page ∧
      ∀ (β : Type) [LinearOrder β] (db : Database β) (nullsLow : Bool) (σ : Scope β) (row : Row β),
        db.Ordered → (∀ name ∈ cursor.keys, (row name).isSome = true) →
          ((Keyset.row (Keyset.pastOp direction) bounds).eval db (σ.bind body.tag row) = .yes ↔
            ¬Ordering.Before db nullsLow (σ.bind body.tag row)
              (σ.bind body.tag (Keyset.position db cursor)) page) := by
  obtain ⟨st, as, hst, rfl⟩ := Compiler.compile_ok h
  obtain ⟨m, hm, hcheck, hruns⟩ := Compiler.statement_ok hst
  obtain ⟨body, conditions, page, direction, bounds, hbody, hfilter, horder, hagrees⟩ :=
    Statement.cursor_agrees hcursor hpaged hplain hcheck hruns
  refine ⟨m, st, as, body, conditions, page, direction, bounds, hm, hst, rfl, hbody, hfilter,
    horder, hagrees, ?_⟩
  intro β _ db nullsLow σ row hdb hrow
  exact hagrees.holds_iff hdb nullsLow σ hrow

namespace Sample

def ticket : Model where
  name := "Ticket"
  fields := [Field.asId ⟨"id", .bigInt, false, false, false⟩,
    Field.asUnique ⟨"code", .int, false, false, false⟩]

def pastTicket : Json.Entries := [("id", .num (.int 7)), ("code", .num (.int 3))]

def tickets : Args where
  orderBy := some [[("code", .str "desc")], [("id", .str "desc"), ("code", .str "asc")]]
  cursor := some pastTicket
  take := some 5

def integers : Database Int where
  rows := fun _ => []
  bound
    | .null => none
    | .int i => some i
    | _ => some 0
  compare := fun op x y => .ofBool (op.holds x y)
  like := fun _ _ => .no
  lower := some

theorem integers_ordered : integers.Ordered where
  compare_eq := fun _ _ _ => rfl
  bound_some := by
    intro v hv
    cases v with
    | null => exact absurd rfl hv
    | bool _ | int _ | double _ | text _ => rfl

theorem tickets_compile : ∃ prepared,
    (Compiler.ofConfig ⟨[ticket]⟩ { engine := .postgresql }).compile "Ticket" .count tickets =
      .ok prepared ∧ prepared.params = [.int 3, .int 7] := by
  have hparams : (((Compiler.ofConfig ⟨[ticket]⟩ { engine := .postgresql }).compile "Ticket" .count
      tickets).map (·.params)).toOption = some [.int 3, .int 7] := by
    decide +kernel
  exact except_ok_of_read hparams

end Sample

theorem sample_cursor_agrees_with_ordering : ∃ prepared,
    (Compiler.ofConfig ⟨[Sample.ticket]⟩ { engine := .postgresql }).compile "Ticket" .count
      Sample.tickets = .ok prepared ∧ prepared.params = [.int 3, .int 7] ∧
      ∃ (tag : Alias) (page : List SortItem) (direction : Direction)
        (bounds : List (Column × Value)),
        Keyset.Agrees tag Sample.tickets.orderBy Sample.pastTicket direction bounds page ∧
          ∀ (σ : Scope Int) (row : Row Int),
            (∀ name ∈ ["id", "code"], (row name).isSome = true) →
              ((Keyset.row (Keyset.pastOp direction) bounds).eval Sample.integers
                  (σ.bind tag row) = .yes ↔
                ¬Ordering.Before Sample.integers false (σ.bind tag row)
                  (σ.bind tag (Keyset.position Sample.integers Sample.pastTicket)) page) := by
  obtain ⟨prepared, hc, hparams⟩ := Sample.tickets_compile
  obtain ⟨m, st, as, body, _, page, direction, bounds, -, -, -, -, -, -, hagrees, hholds⟩ :=
    cursor_agrees_with_ordering (.ofConfig ⟨[Sample.ticket]⟩ { engine := .postgresql }) "Ticket"
      .count Sample.tickets Sample.pastTicket prepared rfl (.inr ⟨.inl rfl, .inl rfl⟩)
      (by decide) hc
  exact ⟨prepared, hc, hparams, body.tag, page, direction, bounds, hagrees, fun σ row hrow =>
    hholds Int Sample.integers false σ row Sample.integers_ordered hrow⟩

end QuerySql
