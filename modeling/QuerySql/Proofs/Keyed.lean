import QuerySql.Json.Reader
import QuerySql.Proofs.Built
import QuerySql.Query.Decode

/-!
# Objects with distinct keys

An object is a list of entries, so its type does not keep a key from coming twice.
Objects that are read from text have distinct keys at every depth, and so do those
among the arguments that are decoded from them.
-/

set_option autoImplicit false

namespace QuerySql

namespace Json

mutual

def keyed : Json → Bool
  | .obj entries => decide (entries.map (·.1)).Nodup && keyedValues entries
  | .arr items => keyedItems items
  | _ => true

def keyedValues : List (String × Json) → Bool
  | [] => true
  | (_, value) :: rest => value.keyed && keyedValues rest

def keyedItems : List Json → Bool
  | [] => true
  | item :: rest => item.keyed && keyedItems rest

end

theorem keyed_values_iff {entries : Entries} :
    keyedValues entries = true ↔ ∀ e ∈ entries, e.2.keyed = true := by
  induction entries with
  | nil => simp [keyedValues]
  | cons e rest ih => simp [keyedValues, ih]

theorem keyed_items_iff {items : List Json} :
    keyedItems items = true ↔ ∀ item ∈ items, item.keyed = true := by
  induction items with
  | nil => simp [keyedItems]
  | cons item rest ih => simp [keyedItems, ih]

theorem keyed_obj {entries : Entries} : (Json.obj entries).keyed = true ↔
    entries.keys.Nodup ∧ ∀ e ∈ entries, e.2.keyed = true := by
  simp [keyed, keyed_values_iff, Entries.keys]

theorem keyed_arr {items : List Json} :
    (Json.arr items).keyed = true ↔ ∀ item ∈ items, item.keyed = true := by
  simp [keyed, keyed_items_iff]

theorem keyed_rest {e : String × Json} {rest : Entries} (h : (Json.obj (e :: rest)).keyed = true) :
    e.2.keyed = true ∧ (Json.obj rest).keyed = true := by
  obtain ⟨hkeys, hvalues⟩ := keyed_obj.mp h
  obtain ⟨he, hrest⟩ := List.forall_mem_cons.mp hvalues
  exact ⟨he, keyed_obj.mpr ⟨(List.nodup_cons.mp hkeys).2, hrest⟩⟩

namespace Entries

theorem get_of_mem {entries : Entries} (h : entries.keys.Nodup) {key : String} {value : Json}
    (hin : (key, value) ∈ entries) : entries.get? key = some value := by
  induction entries with
  | nil => cases hin
  | cons e rest ih =>
    obtain ⟨hnew, hrest⟩ := List.nodup_cons.mp h
    rcases List.mem_cons.mp hin with rfl | hin
    · exact List.lookup_cons_self
    · have hne : (key == e.1) = false :=
        beq_false_of_ne fun heq => hnew (List.mem_map.mpr ⟨_, hin, heq⟩)
      rw [get?, List.lookup_cons, hne]
      exact ih hrest hin

theorem put_eq (entries : Entries) (key : String) (value : Json) :
    entries.put key value = Model.upsert Prod.fst (key, value) entries := by
  induction entries with
  | nil => rfl
  | cons e rest ih =>
    rw [put, Model.upsert, ih]
    split
    · rename_i hkey
      rw [hkey]
    · rfl

theorem mem_put {entries : Entries} {key : String} {value : Json} {e : String × Json}
    (h : e ∈ entries.put key value) : e = (key, value) ∨ e ∈ entries := by
  induction entries with
  | nil => exact .inl (List.mem_singleton.mp h)
  | cons e' rest ih =>
    rw [put] at h
    split at h
    · rename_i hkey
      rcases List.mem_cons.mp h with rfl | h
      · exact .inl (by rw [hkey])
      · exact .inr (List.mem_cons_of_mem _ h)
    · rcases List.mem_cons.mp h with rfl | h
      · exact .inr List.mem_cons_self
      · exact (ih h).imp id (List.mem_cons_of_mem _)

end Entries

theorem keyed_put {entries : Entries} {value : Json} (h : (Json.obj entries).keyed = true)
    (hv : value.keyed = true) (key : String) :
    (Json.obj (entries.put key value)).keyed = true := by
  obtain ⟨hkeys, hvalues⟩ := keyed_obj.mp h
  refine keyed_obj.mpr ⟨?_, fun e he => ?_⟩
  · rw [Entries.put_eq]
    exact Model.upsert_nodup hkeys
  · rcases Entries.mem_put he with rfl | he
    · exact hv
    · exact hvalues e he

/-- What the reader makes with a given fuel. -/
structure Reads (fuel : Nat) : Prop where
  value : ∀ {cs rest json}, value? fuel cs = some (json, rest) → json.keyed = true
  items : ∀ {cs rest found items}, items? fuel cs found = some (items, rest) →
    (∀ item ∈ found, item.keyed = true) → ∀ item ∈ items, item.keyed = true
  members : ∀ {cs rest found entries}, members? fuel cs found = some (entries, rest) →
    (Json.obj found).keyed = true → (Json.obj entries).keyed = true

theorem value_reads {fuel : Nat} (ih : Reads fuel) {cs rest : List Char} {json : Json}
    (h : value? (fuel + 1) cs = some (json, rest)) : json.keyed = true := by
  rw [value?] at h
  split at h
  · split at h
    · cases h
      rfl
    · obtain ⟨⟨entries, _⟩, hentries, heq⟩ := Option.map_eq_some_iff.mp h
      cases heq
      exact ih.members hentries rfl
  · split at h
    · cases h
      rfl
    · obtain ⟨⟨items, _⟩, hitems, heq⟩ := Option.map_eq_some_iff.mp h
      cases heq
      exact keyed_arr.mpr (ih.items hitems (List.forall_mem_nil _))
  all_goals
    obtain ⟨_, _, heq⟩ := Option.map_eq_some_iff.mp h
    cases heq
    rfl

theorem items_read {fuel : Nat} (ih : Reads fuel) {cs rest : List Char} {found items : List Json}
    (h : items? (fuel + 1) cs found = some (items, rest))
    (hfound : ∀ item ∈ found, item.keyed = true) : ∀ item ∈ items, item.keyed = true := by
  rw [items?] at h
  split at h
  · cases h
  · rename_i item _ hitem
    have hall : ∀ i ∈ item :: found, i.keyed = true :=
      List.forall_mem_cons.mpr ⟨ih.value hitem, hfound⟩
    split at h
    · exact ih.items h hall
    · cases h
      exact fun i hi => hall i (List.mem_reverse.mp hi)
    · cases h

theorem members_read {fuel : Nat} (ih : Reads fuel) {cs rest : List Char} {found entries : Entries}
    (h : members? (fuel + 1) cs found = some (entries, rest))
    (hfound : (Json.obj found).keyed = true) : (Json.obj entries).keyed = true := by
  rw [members?] at h
  split at h
  · split at h
    · cases h
    · split at h
      · split at h
        · cases h
        · rename_i value _ hvalue
          have hput := keyed_put hfound (ih.value hvalue)
          simp only at h
          split at h
          · exact ih.members h (hput _)
          · cases h
            exact hput _
          · cases h
      · cases h
  · cases h

theorem reads (fuel : Nat) : Reads fuel := by
  induction fuel with
  | zero =>
    refine ⟨fun h => ?_, fun h _ => ?_, fun h _ => ?_⟩
    · rw [value?] at h
      cases h
    · rw [items?] at h
      cases h
    · rw [members?] at h
      cases h
  | succ fuel ih => exact ⟨value_reads ih, items_read ih, members_read ih⟩

theorem parse_keyed {text : String} {json : Json} (h : parse? text = some json) :
    json.keyed = true := by
  simp only [parse?] at h
  split at h
  · rename_i hvalue
    split at h
    · cases h
      exact (reads _).value hvalue
    · cases h
  · cases h

end Json

namespace Args

def keyed (args : Args) : Bool :=
  [args.filter, args.select, args.inclusion].all fun entries =>
    (Json.obj (entries.getD [])).keyed

theorem keyed_iff {args : Args} : args.keyed = true ↔
    (Json.obj (args.filter.getD [])).keyed = true ∧
      (Json.obj (args.select.getD [])).keyed = true ∧
        (Json.obj (args.inclusion.getD [])).keyed = true := by
  simp [keyed]

theorem keyed_set {args next : Args} {a : Argument} {json : Json} (hargs : args.keyed = true)
    (hjson : json.keyed = true) (h : args.set a json = .ok next) : next.keyed = true := by
  obtain ⟨hfilter, hselect, hinclusion⟩ := keyed_iff.mp hargs
  have hentries : ∀ {entries}, Decode.entries json = .ok entries →
      (Json.obj entries).keyed = true := by
    intro entries he
    cases json <;> cases he
    exact hjson
  cases a with
  | filter =>
    simp only [set, except_bind_ok, except_pure_ok] at h
    obtain ⟨entries, he, rfl⟩ := h
    exact keyed_iff.mpr ⟨hentries he, hselect, hinclusion⟩
  | select =>
    simp only [set, except_bind_ok, except_pure_ok] at h
    obtain ⟨entries, he, rfl⟩ := h
    exact keyed_iff.mpr ⟨hfilter, hentries he, hinclusion⟩
  | inclusion =>
    simp only [set, except_bind_ok, except_pure_ok] at h
    obtain ⟨entries, he, rfl⟩ := h
    exact keyed_iff.mpr ⟨hfilter, hselect, hentries he⟩
  | aggregate kind =>
    cases kind <;> cases h <;> exact hargs
  | orderBy | take | skip | cursor | distinct | grouping | having | data =>
    simp only [set, except_bind_ok, except_pure_ok] at h
    obtain ⟨_, _, rfl⟩ := h
    exact hargs

/-- The payloads of the aggregates have distinct keys. -/
def payloadsKeyed (args : Args) : Prop :=
  ∀ kind payload, args.aggregate kind = some payload → payload.keyed = true

theorem payloads_keyed_set {args next : Args} {a : Argument} {json : Json}
    (hargs : args.payloadsKeyed) (hjson : json.keyed = true) (h : args.set a json = .ok next) :
    next.payloadsKeyed := by
  intro kind payload hpayload
  cases a with
  | aggregate set =>
    by_cases hkind : kind = set
    · subst hkind
      have hnew : next.aggregate kind = some json := by cases kind <;> cases h <;> rfl
      rw [hnew] at hpayload
      cases hpayload
      exact hjson
    · have hkept : next.aggregate kind = args.aggregate kind := by
        cases set <;> cases h <;> cases kind <;> first | rfl | exact absurd rfl hkind
      exact hargs kind payload (hkept ▸ hpayload)
  | filter | select | inclusion | orderBy | take | skip | cursor | distinct | grouping | having
  | data =>
    simp only [set, except_bind_ok, except_pure_ok] at h
    obtain ⟨_, _, rfl⟩ := h
    exact hargs kind payload (by cases kind <;> exact hpayload)

section Invariant

/-! What holds of the empty arguments, and of all that come from setting one argument to
a value with distinct keys, holds of the arguments that are decoded from text. -/

variable {P : Args → Prop}
  (hset : ∀ {args next : Args} {a : Argument} {json : Json}, P args → json.keyed = true →
    args.set a json = .ok next → P next)

include hset

theorem kept_by_read {args next : Args} {a : Argument} {json : Json} (hargs : P args)
    (hjson : json.keyed = true) (h : args.read a json = .ok next) : P next := by
  unfold read at h
  split at h
  · cases h
    exact hargs
  · exact hset hargs hjson h

theorem kept_by_entries {args next : Args} {entries : Json.Entries} (hargs : P args)
    (hvalues : ∀ e ∈ entries, e.2.keyed = true) (h : args.readEntries entries = .ok next) :
    P next := by
  induction entries generalizing args with
  | nil =>
    cases h
    exact hargs
  | cons e rest ih =>
    obtain ⟨he, hrest⟩ := List.forall_mem_cons.mp hvalues
    rw [readEntries] at h
    split at h
    · cases h
    · simp only [except_bind_ok] at h
      obtain ⟨mid, hmid, h⟩ := h
      exact ih (kept_by_read hset hargs he hmid) hrest h

theorem kept_by_places {count : Nat} {args next : Args} {places : List Argument}
    {values : List Json} (hargs : P args) (hvalues : ∀ v ∈ values, v.keyed = true)
    (h : readPlaces count args places values = .ok next) : P next := by
  induction places generalizing args values with
  | nil =>
    cases values with
    | nil =>
      cases h
      exact hargs
    | cons v rest => cases h
  | cons a places ih =>
    cases values with
    | nil => cases h
    | cons v rest =>
      obtain ⟨hv, hrest⟩ := List.forall_mem_cons.mp hvalues
      simp only [readPlaces, except_bind_ok] at h
      obtain ⟨mid, hmid, h⟩ := h
      exact ih (kept_by_read hset hargs hv hmid) hrest h

theorem decoded_of_set (hempty : P {}) {text : String} {json : Json} {args : Args}
    (hparse : Json.parse? text = some json) (h : Args.ofJson json = .ok args) : P args := by
  have hjson := Json.parse_keyed hparse
  unfold ofJson at h
  split at h
  · exact kept_by_entries hset hempty (Json.keyed_obj.mp hjson).2 h
  · exact kept_by_places hset hempty (Json.keyed_arr.mp hjson) h
  · cases h

end Invariant

theorem decoded_keyed {text : String} {json : Json} {args : Args}
    (hparse : Json.parse? text = some json) (h : Args.ofJson json = .ok args) :
    args.keyed = true :=
  decoded_of_set (P := fun args => args.keyed = true) keyed_set rfl hparse h

theorem decoded_payloads_keyed {text : String} {json : Json} {args : Args}
    (hparse : Json.parse? text = some json) (h : Args.ofJson json = .ok args) :
    args.payloadsKeyed :=
  decoded_of_set payloads_keyed_set (fun kind _ hp => by cases kind <;> cases hp) hparse h

end Args

end QuerySql
