import RelationalAlgebra.Name
/-!
# Maps from names

A finite map from names is the list of its entries in the order of the names.  Two maps with the
same entries are equal; `get?_insert` and `get?_erase` say what look-up sees of a change.
-/

namespace RelationalAlgebra

namespace Name

variable {α β : Type}

def insertEntry (name : String) (value : α) : List (String × α) → List (String × α)
  | [] => [(name, value)]
  | entry :: rest =>
    if name < entry.1 then (name, value) :: entry :: rest
    else if name = entry.1 then (name, value) :: rest
    else entry :: insertEntry name value rest

def lookup (name : String) : List (String × α) → Option α
  | [] => none
  | entry :: rest => if name = entry.1 then some entry.2 else lookup name rest

def Ascending (entries : List (String × α)) : Prop := entries.Pairwise fun a b => a.1 < b.1

theorem eq_or_mem_of_mem_insertEntry {name : String} {value : α} {entries : List (String × α)}
    {e : String × α} (h : e ∈ insertEntry name value entries) :
    e = (name, value) ∨ e ∈ entries := by
  induction entries with
  | nil => simpa [insertEntry] using h
  | cons entry rest ih =>
    rw [insertEntry] at h
    split at h
    · simpa using h
    · split at h
      · rcases List.mem_cons.mp h with h | h
        · exact .inl h
        · exact .inr (List.mem_cons_of_mem _ h)
      · rcases List.mem_cons.mp h with h | h
        · exact .inr (by simp [h])
        · exact (ih h).imp_right (List.mem_cons_of_mem _)

theorem ascending_insertEntry {name : String} {value : α} {entries : List (String × α)}
    (h : Ascending entries) : Ascending (insertEntry name value entries) := by
  induction entries with
  | nil => simp [insertEntry, Ascending]
  | cons entry rest ih =>
    obtain ⟨first, later⟩ := List.pairwise_cons.mp h
    rw [insertEntry]
    split
    · next lt =>
      refine List.pairwise_cons.mpr ⟨fun e he => ?_, h⟩
      rcases List.mem_cons.mp he with rfl | he
      · exact lt
      · exact String.lt_trans lt (first e he)
    · next ge =>
      split
      · next eq => exact List.pairwise_cons.mpr ⟨fun e he => eq ▸ first e he, later⟩
      · next ne =>
        refine List.pairwise_cons.mpr ⟨fun e he => ?_, ih later⟩
        rcases eq_or_mem_of_mem_insertEntry he with rfl | he
        · exact Std.lt_of_le_of_ne (String.not_lt.mp ge) (Ne.symm ne)
        · exact first e he

theorem lookup_insertEntry (name other : String) (value : α) (entries : List (String × α)) :
    lookup other (insertEntry name value entries) =
      if other = name then some value else lookup other entries := by
  induction entries with
  | nil => simp [insertEntry, lookup]
  | cons entry rest ih =>
    rw [insertEntry]
    split
    · simp [lookup]
    · split
      · next eq => by_cases h : other = name <;> simp [lookup, h, ← eq]
      · next ne =>
        by_cases h : other = entry.1
        · subst h; simp [lookup, Ne.symm ne]
        · simp [lookup, h, ih]

/-- A finite map from names, sorted by name. -/
structure Map (α : Type) where
  entries : List (String × α)
  ascending : Ascending entries

namespace Map

instance [DecidableEq α] : DecidableEq (Map α) := fun a b =>
  decidable_of_iff (a.entries = b.entries) ⟨fun h => by cases a; cases b; congr, fun h => by rw [h]⟩

theorem ext {a b : Map α} (h : a.entries = b.entries) : a = b := by
  cases a; cases b; congr

def empty : Map α := ⟨[], List.Pairwise.nil⟩

instance : EmptyCollection (Map α) := ⟨empty⟩

instance : Inhabited (Map α) := ⟨empty⟩

def get? (m : Map α) (name : String) : Option α := lookup name m.entries

def contains (m : Map α) (name : String) : Bool := (m.get? name).isSome

def insert (m : Map α) (name : String) (value : α) : Map α :=
  ⟨insertEntry name value m.entries, ascending_insertEntry m.ascending⟩

def filter (m : Map α) (p : String → α → Bool) : Map α :=
  ⟨m.entries.filter fun e => p e.1 e.2, m.ascending.filter _⟩

def erase (m : Map α) (name : String) : Map α := m.filter fun n _ => n ≠ name

def map (m : Map α) (f : α → β) : Map β :=
  ⟨m.entries.map fun e => (e.1, f e.2), by simpa [Ascending, List.pairwise_map] using m.ascending⟩

/-- The map of a list of entries; a later entry replaces an earlier one of the same name. -/
def ofList (entries : List (String × α)) : Map α :=
  entries.foldl (fun m e => m.insert e.1 e.2) empty

def keys (m : Map α) : List String := m.entries.map Prod.fst

def values (m : Map α) : List α := m.entries.map Prod.snd

def isEmpty (m : Map α) : Bool := m.entries.isEmpty

def size (m : Map α) : Nat := m.entries.length

theorem get?_insert (m : Map α) (name other : String) (value : α) :
    (m.insert name value).get? other = if other = name then some value else m.get? other :=
  lookup_insertEntry name other value m.entries

theorem get?_map (m : Map α) (f : α → β) (name : String) :
    (m.map f).get? name = (m.get? name).map f := by
  obtain ⟨entries, h⟩ := m
  simp only [map, get?]
  clear h
  induction entries with
  | nil => rfl
  | cons entry rest ih =>
    simp only [List.map_cons, lookup, ih]
    split <;> rfl

theorem get?_empty (name : String) : (empty : Map α).get? name = none := rfl

theorem get?_erase (m : Map α) (name other : String) :
    (m.erase name).get? other = if other = name then none else m.get? other := by
  obtain ⟨entries, h⟩ := m
  simp only [erase, filter, get?]
  clear h
  induction entries with
  | nil => simp [lookup]
  | cons entry rest ih =>
    by_cases hn : entry.1 = name
    · simp only [hn, List.filter_cons, ne_eq, not_true_eq_false, decide_false, Bool.false_eq_true,
        if_false, ih, lookup]
      split <;> rfl
    · simp only [List.filter_cons, ne_eq, hn, not_false_eq_true, decide_true, if_true, lookup, ih]
      by_cases ho : other = entry.1
      · simp [ho, hn]
      · simp [ho]

end Map

end Name

abbrev Renaming := Name.Map String

namespace Renaming

/-- The new name of an attribute, its old one when the renaming does not mention it. -/
def apply (r : Renaming) (name : String) : String := (r.get? name).getD name

/-- The renaming back; of several old names the last one is taken. -/
def inverse (r : Renaming) : Renaming := Name.Map.ofList (r.entries.map fun e => (e.2, e.1))

end Renaming

end RelationalAlgebra
