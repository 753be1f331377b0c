import Mathlib.Data.List.Nodup
import RelationalAlgebra.Name.Map
/-!
# Maps by their entries

An entry of a map from names is what look-up finds under its name, and the entries of a map that is
built or filtered are known from look-up alone.
-/

namespace RelationalAlgebra.Name

variable {α : Type}

theorem lookup_eq_some_iff {name : String} {value : α} {entries : List (String × α)}
    (h : Ascending entries) : lookup name entries = some value ↔ (name, value) ∈ entries := by
  induction entries with
  | nil => simp [lookup]
  | cons entry rest ih =>
    obtain ⟨first, later⟩ := List.pairwise_cons.mp h
    rw [lookup, List.mem_cons]
    by_cases hn : name = entry.1
    · rw [if_pos hn]
      constructor
      · intro h
        left
        rw [hn, ← Option.some.inj h]
      · rintro (h | h)
        · rw [← h]
        · have lt := first _ h
          rw [← hn] at lt
          exact absurd lt (String.lt_irrefl _)
    · rw [if_neg hn, ih later]
      refine (or_iff_right ?_).symm
      intro h
      exact hn (by rw [← h])

theorem insertEntry_append {name : String} {value : α} {entries : List (String × α)}
    (h : ∀ e ∈ entries, e.1 < name) :
    insertEntry name value entries = entries ++ [(name, value)] := by
  induction entries with
  | nil => rfl
  | cons entry rest ih =>
    have lt := h entry (List.mem_cons_self ..)
    have notLt : ¬name < entry.1 := fun gt => String.lt_irrefl _ (String.lt_trans lt gt)
    have ne : name ≠ entry.1 := by
      rintro rfl
      exact String.lt_irrefl _ lt
    rw [insertEntry, if_neg notLt, if_neg ne, ih fun e he => h e (List.mem_cons_of_mem _ he)]
    rfl

theorem lookup_concat (name : String) (entries : List (String × α)) (e : String × α) :
    lookup name (entries ++ [e]) = (lookup name entries).or (if name = e.1 then some e.2 else none) := by
  induction entries with
  | nil => rfl
  | cons entry entries ih =>
    rw [List.cons_append, lookup, lookup, ih]
    split <;> rfl

namespace Map

theorem get?_eq_some_iff {m : Map α} {name : String} {value : α} :
    m.get? name = some value ↔ (name, value) ∈ m.entries := lookup_eq_some_iff m.ascending

theorem mem_keys_iff {m : Map α} {name : String} : name ∈ m.keys ↔ ∃ value, m.get? name = some value := by
  rw [keys, List.mem_map]
  constructor
  · rintro ⟨⟨n, v⟩, he, rfl⟩
    exact ⟨v, get?_eq_some_iff.mpr he⟩
  · rintro ⟨v, hv⟩
    exact ⟨(name, v), get?_eq_some_iff.mp hv, rfl⟩

theorem mem_values_iff {m : Map α} {value : α} :
    value ∈ m.values ↔ ∃ name, m.get? name = some value := by
  rw [values, List.mem_map]
  constructor
  · rintro ⟨⟨n, v⟩, he, rfl⟩
    exact ⟨n, get?_eq_some_iff.mpr he⟩
  · rintro ⟨n, hn⟩
    exact ⟨(n, value), get?_eq_some_iff.mp hn, rfl⟩

theorem contains_iff {m : Map α} {name : String} : m.contains name = true ↔ name ∈ m.keys := by
  rw [contains, Option.isSome_iff_exists, mem_keys_iff]

theorem get?_eq_none_iff {m : Map α} {name : String} : m.get? name = none ↔ name ∉ m.keys := by
  rw [← contains_iff, contains]
  simp

theorem get?_filter (m : Map α) (p : String → α → Bool) (name : String) :
    (m.filter p).get? name = (m.get? name).filter (p name) := by
  apply Option.ext
  intro v
  rw [get?_eq_some_iff, Option.filter_eq_some_iff, get?_eq_some_iff]
  exact List.mem_filter

theorem get?_foldl_insert {entries : List (String × α)} {m : Map α} {name : String} {value : α}
    (h : (entries.foldl (fun m e => m.insert e.1 e.2) m).get? name = some value) :
    (name, value) ∈ entries ∨ m.get? name = some value := by
  induction entries generalizing m with
  | nil => exact .inr h
  | cons e es ih =>
    rcases ih h with h | h
    · exact .inl (List.mem_cons_of_mem _ h)
    · rw [get?_insert] at h
      by_cases hn : name = e.1
      · rw [if_pos hn] at h
        left
        rw [hn, ← Option.some.inj h]
        exact List.mem_cons_self ..
      · rw [if_neg hn] at h
        exact .inr h

theorem get?_foldl_insert_eq (entries : List (String × α)) (m : Map α) (name : String) :
    (entries.foldl (fun m e => m.insert e.1 e.2) m).get? name =
      (lookup name entries.reverse).or (m.get? name) := by
  induction entries generalizing m with
  | nil => rfl
  | cons e entries ih =>
    rw [List.foldl_cons, ih, List.reverse_cons, lookup_concat, Option.or_assoc, get?_insert]
    congr 1
    split <;> rfl

theorem get?_ofList_eq_some {entries : List (String × α)} {name : String} {value : α}
    (h : (ofList entries).get? name = some value) : (name, value) ∈ entries := by
  rcases get?_foldl_insert h with h | h
  · exact h
  · rw [get?_empty] at h
    cases h

theorem mem_keys_ofList {entries : List (String × α)} {name : String} :
    name ∈ (ofList entries).keys ↔ name ∈ entries.map Prod.fst := by
  have general (m : Map α) : name ∈ (entries.foldl (fun m e => m.insert e.1 e.2) m).keys ↔
      name ∈ entries.map Prod.fst ∨ name ∈ m.keys := by
    induction entries generalizing m with
    | nil => simp
    | cons e es ih =>
      have inserted : name ∈ (m.insert e.1 e.2).keys ↔ name = e.1 ∨ name ∈ m.keys := by
        rw [mem_keys_iff, mem_keys_iff]
        simp only [get?_insert]
        by_cases hn : name = e.1
        · simp [hn]
        · simp [hn]
      rw [List.foldl_cons, ih, inserted, List.map_cons, List.mem_cons]
      tauto
  rw [ofList, general]
  simp [keys, empty]

theorem get?_ofList {entries : List (String × α)} (nodup : (entries.map Prod.fst).Nodup)
    {name : String} {value : α} :
    (ofList entries).get? name = some value ↔ (name, value) ∈ entries := by
  refine ⟨get?_ofList_eq_some, fun h => ?_⟩
  have key : name ∈ (ofList entries).keys := mem_keys_ofList.mpr (List.mem_map_of_mem h)
  obtain ⟨v, hv⟩ := mem_keys_iff.mp key
  have same := List.inj_on_of_nodup_map nodup (get?_ofList_eq_some hv) h rfl
  rw [hv, (Prod.mk.inj same).2]

theorem nodup_keys (m : Map α) : m.keys.Nodup := by
  rw [keys, List.Nodup, List.pairwise_map]
  refine m.ascending.imp ?_
  intro a b lt eq
  rw [eq] at lt
  exact String.lt_irrefl _ lt

theorem nodup_entries (m : Map α) : m.entries.Nodup := List.Nodup.of_map Prod.fst m.nodup_keys

theorem eq_of_get? {m m' : Map α} (h : ∀ name, m.get? name = m'.get? name) : m = m' := by
  have members : ∀ e, e ∈ m.entries ↔ e ∈ m'.entries := by
    rintro ⟨name, value⟩
    rw [← get?_eq_some_iff, ← get?_eq_some_iff, h]
  have perm := (List.perm_ext_iff_of_nodup m.nodup_entries m'.nodup_entries).mpr members
  refine ext (perm.eq_of_pairwise ?_ m.ascending m'.ascending)
  intro a b _ _ lt gt
  exact absurd (String.lt_trans lt gt) (String.lt_irrefl _)

theorem size_filter_le (m : Map α) (p : String → α → Bool) : (m.filter p).size ≤ m.size :=
  List.length_filter_le _ _

theorem length_insertEntry_le (name : String) (value : α) (entries : List (String × α)) :
    (insertEntry name value entries).length ≤ entries.length + 1 := by
  induction entries with
  | nil => exact Nat.le_refl _
  | cons entry rest ih =>
    rw [insertEntry]
    split
    · exact Nat.le_refl _
    · split
      · exact Nat.le_succ _
      · exact Nat.succ_le_succ ih

theorem size_insert_le (m : Map α) (name : String) (value : α) :
    (m.insert name value).size ≤ m.size + 1 := length_insertEntry_le name value m.entries

theorem size_ofList_le (entries : List (String × α)) : (ofList entries).size ≤ entries.length := by
  have general (m : Map α) :
      (entries.foldl (fun m e => m.insert e.1 e.2) m).size ≤ m.size + entries.length := by
    induction entries generalizing m with
    | nil => exact Nat.le_refl _
    | cons e es ih =>
      have first := size_insert_le m e.1 e.2
      have later := ih (m.insert e.1 e.2)
      rw [List.foldl_cons, List.length_cons]
      omega
  have := general empty
  rwa [show (empty : Map α).size = 0 from rfl, Nat.zero_add] at this

theorem isEmpty_iff {m : Map α} : m.isEmpty = true ↔ ∀ name, m.get? name = none := by
  rw [isEmpty, List.isEmpty_iff]
  constructor
  · intro h name
    rw [get?, h]
    rfl
  · intro h
    refine List.eq_nil_iff_forall_not_mem.mpr ?_
    rintro ⟨n, v⟩ he
    have := get?_eq_some_iff.mpr he
    rw [h] at this
    cases this

end Map

end RelationalAlgebra.Name
