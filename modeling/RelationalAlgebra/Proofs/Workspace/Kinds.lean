import RelationalAlgebra.Proofs.Relation.Kinds
import RelationalAlgebra.Proofs.Workspace.Runs
/-!
# Runs on columns of one kind

A relation that is read from texts has one kind for each column, the kind that is found for the texts of
that column.  From relations whose columns are of one kind each, the operators that put their rows together
of rows of their operands and the changes lead to no other relations, whatever cells are stored.  Unions
and outer joins are left out: a union mixes the columns of its operands, and an outer join puts a padding
text into columns of any kind.
-/

namespace RelationalAlgebra

/-- Whether the rows that are given have cells of the same kinds; rows that are read from texts always do. -/
def Construction.KeepsKinds : Construction → Prop
  | .rows _ content => ∃ kinds, Rows.OfKinds kinds content
  | .empty _ | .raw .. | .csv _ | .json _ => True

theorem Construction.uniform_build {construction : Construction} (keeps : construction.KeepsKinds)
    {r : Relation} (h : construction.build = .ok r) : r.Uniform := by
  cases construction with
  | empty header =>
    obtain rfl := Except.ok.inj h
    exact ⟨[], fun row hrow => (List.not_mem_nil hrow).elim⟩
  | rows header content =>
    obtain ⟨kinds, ofKinds⟩ := keeps
    obtain ⟨-, -, rfl⟩ := map_eq_ok.mp (mapError_eq_ok.mp h)
    exact ⟨kinds, ofKinds.ofInsertions⟩
  | raw header content => exact ⟨_, Relation.kinds_ofRaw (mapError_eq_ok.mp h)⟩
  | csv bytes =>
    obtain ⟨header, rows, h⟩ := Relation.exists_ofRaw_of_ofCsv h
    exact ⟨_, Relation.kinds_ofRaw h⟩
  | json text =>
    obtain ⟨header, rows, h⟩ := Relation.exists_ofRaw_of_ofJson h
    exact ⟨_, Relation.kinds_ofRaw h⟩

/-- A change finds the kinds of the columns in all positions of the rows, so the rows have to be as long as
the header. -/
theorem inherited_uniform :
    Inherited (fun r => r.WellFormed ∧ r.Uniform) Construction.KeepsKinds Query.Binary.KeepsKinds where
  build keeps h := ⟨Construction.wellFormed_build h, Construction.uniform_build keeps h⟩
  filter hr h := ⟨inherited_wellFormed.filter hr.1 h, hr.2.filter h⟩
  projection hr h := ⟨inherited_wellFormed.projection hr.1 h, hr.2.projection h⟩
  rename hr h := ⟨inherited_wellFormed.rename hr.1 h, hr.2.rename h⟩
  rearrange hr h := ⟨inherited_wellFormed.rearrange hr.1 h, hr.2.rearrange h⟩
  apply keeps ha hb h :=
    ⟨inherited_wellFormed.apply trivial ha.1 hb.1 h, Relation.Uniform.apply keeps ha.2 hb.2 h⟩
  insert hr h := ⟨Relation.wellFormed_insert hr.1 h, hr.2.insert hr.1 h⟩
  update hr h := ⟨Relation.wellFormed_update hr.1 h, hr.2.update hr.1 h⟩
  delete hr h := ⟨Relation.wellFormed_delete hr.1 h, hr.2.delete h⟩

namespace Workspace

theorem columns_stay_of_one_kind :
    (∀ (header : Header) (rows : List (List String)) (r : Relation),
      Relation.ofRaw? header rows = .ok r → ∀ row ∈ r.rows, row.map Cell.kind =
        (List.range header.size).map fun i => Kind.ofColumn (rows.map fun raw => raw.getD i "")) ∧
      ∀ ws : Workspace, ws.WellFormed → ws.Every Relation.Uniform → ∀ actions : List Action,
        (∀ action ∈ actions, action.OnlyUses Construction.KeepsKinds Query.Binary.KeepsKinds) →
        (ws.run actions).Every Relation.Uniform := by
  refine ⟨fun header rows r h => Relation.kinds_ofRaw h, ?_⟩
  intro ws wellFormed uniform actions within name b bound
  have start : ws.Every fun r => r.WellFormed ∧ r.Uniform :=
    fun name b hb => ⟨wellFormed name b hb, uniform name b hb⟩
  exact (inherited_uniform.run start within name b bound).2

/-- A run that stores texts in a column of integers and an integer in one of texts; the second insertion
fails. -/
def restocking : List Action :=
  [.construct "stock" (.raw stockHeader [["nut", " 03"]]),
    .change "stock" (.insert [.int 12, .text "+5"]), .change "stock" (.insert [.text "cam", .text "x"]),
    .change "stock" (.update "count > 4" (Name.Map.ofList [("count", .text "40")])),
    .compute "counts" (.projection "stock" ["count"]) trivial,
    .execute "pairs" (.binary .join (.scan "stock") (.scan "counts"))]

theorem columns_stay_of_one_kind_restocking :
    (∃ r, Relation.ofRaw? stockHeader [["nut", " 03"]] = .ok r ∧ r.rows = [[.text "nut", .int 3]] ∧
        ∀ row ∈ r.rows, row.map Cell.kind = (List.range stockHeader.size).map fun i =>
          Kind.ofColumn ([["nut", " 03"]].map fun raw => raw.getD i "")) ∧
      (∀ action ∈ restocking, action.OnlyUses Construction.KeepsKinds Query.Binary.KeepsKinds) ∧
      (∃ r, (run ∅ restocking).find "stock" = .ok r ∧
        r.rows = [[.text "12", .int 40], [.text "nut", .int 3]]) ∧
      (run ∅ restocking).Every Relation.Uniform := by
  have read : ∃ r, Relation.ofRaw? stockHeader [["nut", " 03"]] = .ok r ∧
      r.rows = [[.text "nut", .int 3]] := by
    decide +kernel
  have within : ∀ action ∈ restocking,
      action.OnlyUses Construction.KeepsKinds Query.Binary.KeepsKinds := by
    simp [restocking, Action.OnlyUses, Construction.KeepsKinds, Source.OnlyUses, Query.Plan.OnlyUses,
      Query.Binary.KeepsKinds]
  obtain ⟨r, h, rows⟩ := read
  refine ⟨⟨r, h, rows, columns_stay_of_one_kind.1 _ _ r h⟩, within, by decide +kernel, ?_⟩
  exact columns_stay_of_one_kind.2 ∅ wellFormed_empty (every_empty _) restocking within

end Workspace

end RelationalAlgebra
