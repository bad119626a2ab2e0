import QuerySql.Proofs.Preservation

/-!
# Linked rows in filters and selections

A filter on a relation and a selection of it both look for the rows linked to a
parent row, and write the link differently: the filter as the pairs of keys with
guards against nulls, the selection as one local field for each referenced field.
They find the same rows unless a referenced field is paired with two local ones,
where the selection forgets all pairs of that field but the last.
-/

set_option autoImplicit false

namespace QuerySql

/-- No referenced field is paired with two different local fields. -/
def Relation.PairsOnce (r : Relation) : Prop :=
  ∀ p ∈ r.pairs, ∀ q ∈ r.pairs, p.2 = q.2 → p.1 = q.1

instance (r : Relation) : Decidable r.PairsOnce :=
  inferInstanceAs (Decidable (∀ p ∈ r.pairs, ∀ q ∈ r.pairs, p.2 = q.2 → p.1 = q.1))

variable {α : Type} (db : Database α)

/-- The two rows are linked for a selection: of the pairs with one referenced field,
only the last counts. -/
def Relation.correlates (r : Relation) (parent child : Row α) : Bool :=
  match r.cardinality with
  | .manyToMany => r.links db parent child
  | _ => (Link.byReference r.pairs).all fun p => db.compareCells .eq (child p.1) (parent p.2) = .yes

theorem Relation.keys_correlate {r : Relation} (h : r.cardinality ≠ .manyToMany)
    (parent child : Row α) : r.correlates db parent child =
      (Link.byReference r.pairs).all fun p =>
        db.compareCells .eq (child p.1) (parent p.2) = .yes := by
  unfold Relation.correlates
  split
  · contradiction
  · rfl

theorem Relation.correlates_of_links {r : Relation} {parent child : Row α}
    (h : r.links db parent child = true) : r.correlates db parent child = true := by
  by_cases hc : r.cardinality = .manyToMany
  · simpa only [Relation.correlates, hc] using h
  · rw [Link.keys_links db hc, List.all_eq_true] at h
    rw [Relation.keys_correlate db hc, List.all_eq_true]
    intro p hp
    exact h _ (Link.by_reference_mem hp)

theorem Relation.links_of_correlates {r : Relation} (hr : r.PairsOnce) {parent child : Row α}
    (h : r.correlates db parent child = true) : r.links db parent child = true := by
  by_cases hc : r.cardinality = .manyToMany
  · simpa only [Relation.correlates, hc] using h
  · rw [Relation.keys_correlate db hc, List.all_eq_true] at h
    rw [Link.keys_links db hc, List.all_eq_true]
    intro p hp
    obtain ⟨own, hown⟩ := Link.by_reference_covers hp
    have hsame : own = p.1 := hr _ (Link.by_reference_mem hown) p hp rfl
    exact hsame ▸ h _ hown

theorem Link.correlates_eval (σ : Scope α) {r : Relation} {parent child : Context}
    {links : List Pred} {a b : Aliases} (h : Correlates r parent child links a b)
    (hp : parent.tag.index < a.used) (hc : child.tag.index < a.used) :
    Truth.all (links.map (Pred.eval db σ)) = .yes ↔
      r.correlates db (σ.row parent.tag) (σ.row child.tag) = true := by
  cases h with
  | keys hcard _ =>
    rw [Relation.keys_correlate db hcard, List.all_eq_true, Truth.all_eq_yes]
    simp only [List.map_map, List.mem_map, forall_exists_index, and_imp,
      forall_apply_eq_imp_iff₂, decide_eq_true_eq]
    rfl
  | junction hj hpairs hcard =>
    -- a filter goes through the junction table alike
    rw [joins_eval db σ (.junction hcard hj hpairs) hp hc]
    simp only [Relation.correlates, hcard]

/-- A filter on a relation and a selection of it, wherever they stand in a query, see
linked rows alike: what the filter links, the selection links, and the converse holds
where no referenced field is paired with two local ones. -/
theorem filters_and_selections_link_alike (s : Settings) (cx cx' child child' : Context)
    (r : Relation) (negated : Bool) (conditions : List Pred) (args : RelationArgs)
    (columns : List Projection) (p : Pred) (q : Projection) (a b a' b' : Aliases)
    (hfilter : Filter.linked r cx child negated conditions a = .ok (p, b))
    (hselect : Records.close s cx' child' r args columns a' = .ok (q, b'))
    (hcx : cx.tag.index < a.used) (hchild : child.tag.index < a.used)
    (hcx' : cx'.tag.index < a'.used) (hchild' : child'.tag.index < a'.used) :
    ∃ links correlated nested fold body,
      p = .related negated child.model.tableName child.tag (conditions ++ links) ∧
      q = .relation r.name r.cardinality.isToMany fold columns body ∧
      body.table = child'.model.tableName ∧ body.tag = child'.tag ∧
      body.filter = Pred.all? (nested ++ correlated) ∧ (args.filter = none → nested = []) ∧
      ∀ (β : Type) (db : Database β) (σ σ' : Scope β), σ.row cx.tag = σ'.row cx'.tag →
        σ.row child.tag = σ'.row child'.tag →
          (Truth.all (links.map (Pred.eval db σ)) = .yes →
            Truth.all (correlated.map (Pred.eval db σ')) = .yes) ∧
          (r.PairsOnce → (Truth.all (links.map (Pred.eval db σ)) = .yes ↔
            Truth.all (correlated.map (Pred.eval db σ')) = .yes)) := by
  obtain ⟨links, hjoins, rfl⟩ := Filter.linked_ok hfilter
  cases Records.close_ok hselect with
  | @mk nested correlated orderBy _ c d filter link order =>
    have hnested : args.filter = none → nested = [] := by
      intro hnone
      rw [hnone] at filter
      cases filter
      rfl
    refine ⟨links, correlated, nested, _, _, rfl, rfl, rfl, rfl, rfl, hnested, ?_⟩
    intro β db σ σ' hparent hrow
    have hused := Records.filtered_used filter
    have hlinks := Link.joins_eval db σ hjoins hcx hchild
    have hcorrelated := Link.correlates_eval db σ' link (Nat.lt_of_lt_of_le hcx' hused)
      (Nat.lt_of_lt_of_le hchild' hused)
    rw [hparent, hrow] at hlinks
    rw [hlinks, hcorrelated]
    refine ⟨Relation.correlates_of_links db, fun hr => ?_⟩
    exact ⟨Relation.correlates_of_links db, Relation.links_of_correlates db hr⟩

namespace Sample

def shelf : Model where
  name := "Shelf"
  fields := [Field.asId ⟨"room", .int, false, false, false⟩, { name := "row", type := .int }]
  relations := [
    { name := "books", cardinality := .oneToMany, target := "Book", fields := ["room", "row"],
      references := ["place", "place"] }]

def book : Model where
  name := "Book"
  fields := [Field.asId ⟨"id", .int, false, false, false⟩, { name := "place", type := .int }]

def library : Schema := ⟨[shelf, book]⟩

def placed : Relation where
  name := "placed"
  cardinality := .oneToMany
  target := "Book"
  fields := ["room", "row"]
  references := ["id", "place"]

def atShelf : Context := Context.atRoot shelf .findMany {}

def atBook : Context := atShelf.nested placed book ⟨1⟩

def numbers : Database Nat where
  rows := fun _ => []
  bound := fun _ => none
  compare := fun _ x y => .ofBool (x = y)
  like := fun _ _ => .no
  lower := some

def shelved : Scope Nat where
  row
    | ⟨0⟩ => fun column => if column = "room" then some 1 else some 2
    | _ => fun _ => some 2
  aggregate := fun _ _ => none

end Sample

theorem sample_filters_and_selections_link_alike : Sample.placed.PairsOnce ∧
    ∃ (p : Pred) (q : Projection) (b b' : Aliases) (links correlated : List Pred),
      Filter.linked Sample.placed Sample.atShelf Sample.atBook false [] ⟨2⟩ = .ok (p, b) ∧
      Records.close (Compiler.ofConfig Sample.library {}).settings Sample.atShelf Sample.atBook
        Sample.placed {} [] ⟨2⟩ = .ok (q, b') ∧
      p = .related false "Book" ⟨1⟩ links ∧
      (∃ fold body, q = .relation "placed" true fold [] body ∧
        body.filter = Pred.all? correlated) ∧
      ∀ (σ : Scope Nat), Truth.all (links.map (Pred.eval Sample.numbers σ)) = .yes ↔
        Truth.all (correlated.map (Pred.eval Sample.numbers σ)) = .yes := by
  have honce : Sample.placed.PairsOnce := by decide
  obtain ⟨links, correlated, nested, fold, body, hp, hq, -, -, hbody, hnested, heval⟩ :=
    filters_and_selections_link_alike (Compiler.ofConfig Sample.library {}).settings Sample.atShelf
      Sample.atShelf Sample.atBook Sample.atBook Sample.placed false [] {} [] _ _ ⟨2⟩ _ ⟨2⟩ _ rfl
      rfl (by decide) (by decide) (by decide) (by decide)
  cases hnested rfl
  refine ⟨honce, _, _, _, _, links, correlated, rfl, rfl, hp, ⟨fold, body, hq, hbody⟩, fun σ => ?_⟩
  exact (heval Nat Sample.numbers σ σ rfl rfl).2 honce

/-- With a referenced field paired twice a selection takes rows for linked that a filter
does not. -/
theorem repeated_reference_links_apart :
    Schema.ofModels [Sample.shelf, Sample.book] = .ok Sample.library ∧
    ∃ (links : List Pred) (own columns : List Projection) (body : Body),
      (Compiler.ofConfig Sample.library {}).predicate "Shelf" [("books", .obj [])] =
        .ok (some (.related false "Book" ⟨1⟩ links)) ∧
      (Compiler.ofConfig Sample.library {}).projections "Shelf" .findMany
        { inclusion := some [("books", .bool true)] } =
          .ok (own ++ [.relation "books" true ⟨2⟩ columns body]) ∧
      body.table = "Book" ∧ body.tag = ⟨1⟩ ∧
      Truth.all (links.map (Pred.eval Sample.numbers Sample.shelved)) = .no ∧
      Pred.evalOption Sample.numbers Sample.shelved body.filter = .yes :=
  ⟨rfl, _, [.column ⟨⟨0⟩, "room"⟩, .column ⟨⟨0⟩, "row"⟩], _, _, rfl, rfl, rfl, rfl, rfl, rfl⟩

end QuerySql
