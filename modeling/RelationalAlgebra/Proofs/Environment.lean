import RelationalAlgebra.Environment
import RelationalAlgebra.Proofs.Name.Entries
import RelationalAlgebra.Proofs.Outcome
import RelationalAlgebra.Proofs.Relation.Extent
import RelationalAlgebra.Relation.Basic
/-!
# Environments of well-formed relations

The relations that are built from rows or from texts are well-formed, so environments of them are.  The
cells of an environment are those of its relations; a query gives no other cells than these and the
padding of the outer joins.
-/

namespace RelationalAlgebra

/-! ## Relations that are built -/

namespace Relation

theorem checkArity_eq_ok {header : Header} {counts : List Nat} {u : Unit}
    (h : checkArity header counts = .ok u) : ∀ n ∈ counts, n = header.size := by
  intro n hn
  unfold checkArity at h
  split at h
  · cases h
  · next none =>
    have same := List.find?_eq_none.mp none n hn
    simpa using same

theorem wellFormed_empty (header : Header) : (empty header).WellFormed :=
  ⟨fun _ hrow => (List.not_mem_nil hrow).elim, List.Pairwise.nil⟩

theorem wellFormed_ofRows {header : Header} {rows : List Row} {r : Relation}
    (h : ofRows? header rows = .ok r) : r.WellFormed := by
  obtain ⟨u, checked, rfl⟩ := map_eq_ok.mp h
  refine ⟨fun row hrow => ?_, Rows.ascending_ofInsertions rows⟩
  have member : row ∈ rows := Rows.mem_of_mem_ofInsertions hrow
  exact checkArity_eq_ok checked _ (List.mem_map_of_mem member)

theorem wellFormed_ofRaw {header : Header} {rows : List (List String)} {r : Relation}
    (h : ofRaw? header rows = .ok r) : r.WellFormed := by
  obtain ⟨u, checked, rfl⟩ := map_eq_ok.mp h
  refine ⟨fun row hrow => ?_, Rows.ascending_collect _⟩
  obtain ⟨raw, hraw, rfl⟩ := List.mem_map.mp (Rows.mem_of_mem_collect hrow)
  have width : raw.length = header.size := checkArity_eq_ok checked _ (List.mem_map_of_mem hraw)
  show (castRow (rawKinds header.size rows) raw).length = header.size
  rw [castRow, List.length_zipWith, rawKinds, List.length_map, List.length_range]
  omega

end Relation

/-! ## Environments -/

namespace Environment

variable {env : Environment}

def cells (env : Environment) : Set Cell :=
  {c | ∃ name r, env.get? name = some r ∧ ∃ row ∈ r.rows, c ∈ row}

def WellFormed (env : Environment) : Prop := ∀ name r, env.get? name = some r → r.WellFormed

theorem wellFormed_insert {r : Relation} (h : env.WellFormed) (wellFormed : r.WellFormed)
    (name : String) : WellFormed (env.insert name r) := by
  intro other s hs
  rw [Name.Map.get?_insert] at hs
  split at hs
  · rw [← Option.some.inj hs]
    exact wellFormed
  · exact h other s hs

/-- The environment with one more table; a table that is no relation is left out. -/
def addTable (env : Environment) (name : String) (names : List String) (rows : List Row) :
    Environment :=
  match (Header.ofNames? names).bind fun header => Relation.ofRows? header rows with
  | .ok r => env.insert name r
  | .error _ => env

def ofTables (tables : List (String × List String × List Row)) : Environment :=
  tables.foldl (fun env table => env.addTable table.1 table.2.1 table.2.2) .empty

theorem wellFormed_addTable (h : env.WellFormed) (name : String) (names : List String)
    (rows : List Row) : (env.addTable name names rows).WellFormed := by
  unfold addTable
  split
  · next r hr =>
    obtain ⟨header, -, hrows⟩ := bind_eq_ok.mp hr
    exact wellFormed_insert h (Relation.wellFormed_ofRows hrows) name
  · exact h

theorem wellFormed_ofTables (tables : List (String × List String × List Row)) :
    (ofTables tables).WellFormed := by
  unfold ofTables
  have start : WellFormed (.empty : Environment) := fun name r hr => by cases hr
  generalize (Name.Map.empty : Environment) = env at start ⊢
  induction tables generalizing env with
  | nil => exact start
  | cons table tables ih => exact ih _ (wellFormed_addTable start _ _ _)

/-- The cells that a query can give: those of the environment and the padding. -/
def results (env : Environment) : Set Cell := insert Relation.padding env.cells

/-- The padding is a text, and a text compares equal to itself alone. -/
theorem separated_results (h : Cell.Separated env.cells) : Cell.Separated env.results := by
  rintro c (rfl | hc) d (rfl | hd) same
  · rfl
  · exact Cell.eq_of_compare_text same
  · have swap : Cell.compare Relation.padding c = (Cell.compare c Relation.padding).swap :=
      Std.OrientedCmp.eq_swap
    rw [same] at swap
    exact (Cell.eq_of_compare_text swap).symm
  · exact h c hc d hd same

theorem sound_of_get? (h : env.WellFormed) {name : String} {r : Relation}
    (hr : env.get? name = some r) : r.Sound env.results :=
  ⟨h name r hr, fun row hrow _ hc => .inr ⟨name, r, hr, row, hrow, hc⟩⟩

theorem mem_cells_iff {c : Cell} : c ∈ env.cells ↔ c ∈ env.values.flatMap fun r => r.rows.flatten := by
  rw [List.mem_flatMap]
  constructor
  · rintro ⟨name, r, hr, row, hrow, hc⟩
    exact ⟨r, Name.Map.mem_values_iff.mpr ⟨name, hr⟩, List.mem_flatten.mpr ⟨row, hrow, hc⟩⟩
  · rintro ⟨r, hr, hc⟩
    obtain ⟨name, hname⟩ := Name.Map.mem_values_iff.mp hr
    obtain ⟨row, hrow, hc⟩ := List.mem_flatten.mp hc
    exact ⟨name, r, hname, row, hrow, hc⟩

instance : Decidable (Cell.Separated env.cells) :=
  let cells := env.values.flatMap fun r => r.rows.flatten
  decidable_of_iff (∀ c ∈ cells, ∀ d ∈ cells, Cell.compare c d = .eq → c = d)
    ⟨fun h c hc d hd => h c (mem_cells_iff.mp hc) d (mem_cells_iff.mp hd),
      fun h c hc d hd => h c (mem_cells_iff.mpr hc) d (mem_cells_iff.mpr hd)⟩

end Environment

end RelationalAlgebra
