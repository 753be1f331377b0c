import RelationalAlgebra.Proofs.Environment
import RelationalAlgebra.Proofs.Relation.Operators
import RelationalAlgebra.Relation.Mutation
/-!
# Changes of well-formed relations

A row that is inserted or overwritten keeps its length, and a set of rows into which rows are inserted still
ascends, so a relation is well-formed after each change.
-/

namespace RelationalAlgebra

namespace Rows

theorem eq_or_mem_of_mem_insert {row x : Row} {rows : Rows} (h : x ∈ insert row rows) :
    x = row ∨ x ∈ rows := by
  induction rows with
  | nil => exact .inl (List.mem_singleton.mp h)
  | cons r rs ih =>
    rw [insert] at h
    split at h
    · exact List.mem_cons.mp h
    · exact .inr h
    · rcases List.mem_cons.mp h with rfl | h
      · exact .inr (List.mem_cons_self ..)
      · exact (ih h).imp_right (List.mem_cons_of_mem _)

theorem ascending_insert {row : Row} {rows : Rows} (h : Ascending rows) :
    Ascending (insert row rows) := by
  induction rows with
  | nil => exact List.pairwise_singleton _ _
  | cons r rs ih =>
    obtain ⟨first, later⟩ := List.pairwise_cons.mp h
    rw [insert]
    split
    · next lt =>
      refine List.pairwise_cons.mpr ⟨fun x hx => ?_, h⟩
      rcases List.mem_cons.mp hx with rfl | hx
      · exact lt
      · exact Std.TransCmp.lt_trans lt (first x hx)
    · exact h
    · next gt =>
      refine List.pairwise_cons.mpr ⟨fun x hx => ?_, ih later⟩
      rcases eq_or_mem_of_mem_insert hx with rfl | hx
      · rw [Row.compare_swap, gt]
        rfl
      · exact first x hx

end Rows

namespace Relation

variable {r : Relation} {change : Change}

theorem mem_of_matching {names : List String} {clause : Predicate.Clause} {rows : List Row}
    {kept : Rows} (h : matching names clause rows = .ok kept) {row : Row} (hrow : row ∈ kept) :
    row ∈ rows := by
  obtain ⟨-, rfl⟩ := matching_eq_ok_iff.mp h
  exact (List.mem_filter.mp hrow).1

theorem length_columnKinds (r : Relation) : r.columnKinds.length = r.names.length := by
  rw [columnKinds, List.length_map, List.length_range]
  rfl

theorem length_conformRow {names : List String} {kinds : List (Option Kind)} {row row' : Row}
    (length : kinds.length = names.length) (length' : row.length = names.length)
    (h : conformRow names kinds row = .ok row') : row'.length = names.length := by
  induction names generalizing kinds row row' with
  | nil =>
    obtain rfl := List.eq_nil_of_length_eq_zero length'
    obtain rfl := Except.ok.inj h
    rfl
  | cons name names ih =>
    obtain ⟨kind, kinds, rfl⟩ := List.exists_cons_of_length_eq_add_one length
    obtain ⟨cell, cells, rfl⟩ := List.exists_cons_of_length_eq_add_one length'
    rw [conformRow] at h
    split at h
    · cases h
    · obtain ⟨rest, hrest, rfl⟩ := map_eq_ok.mp h
      rw [List.length_cons, ih (Nat.succ.inj length) (Nat.succ.inj length') hrest, List.length_cons]

theorem length_overwrite (targets : List (Nat × Cell)) (row : Row) :
    (overwrite targets row).length = row.length := by
  induction targets generalizing row with
  | nil => rfl
  | cons t targets ih =>
    have step : overwrite (t :: targets) row = overwrite targets (row.set t.1 t.2) := rfl
    rw [step, ih, List.length_set]

theorem WellFormed.insertRow (h : r.WellFormed) {row : Row} (length : row.length = r.header.size) :
    WellFormed ⟨r.header, Rows.insert row r.rows⟩ := by
  refine ⟨fun x hx => ?_, Rows.ascending_insert h.ascending⟩
  rcases Rows.eq_or_mem_of_mem_insert hx with rfl | hx
  · exact length
  · exact h.arity x hx

theorem WellFormed.insertRows (h : r.WellFormed) {rows : List Row}
    (lengths : ∀ row ∈ rows, row.length = r.header.size) :
    WellFormed ⟨r.header, rows.foldl (fun rows row => Rows.insert row rows) r.rows⟩ := by
  induction rows generalizing r with
  | nil => exact h
  | cons row rows ih =>
    have first := h.insertRow (lengths row (List.mem_cons_self ..))
    exact ih first fun row' hrow' => lengths row' (List.mem_cons_of_mem _ hrow')

theorem WellFormed.difference (h : r.WellFormed) (rows : Rows) :
    WellFormed ⟨r.header, Rows.difference r.rows rows⟩ :=
  ⟨fun row hrow => h.arity row (List.mem_filter.mp hrow).1, Rows.ascending_filter h.ascending _⟩

theorem wellFormed_insert (h : r.WellFormed) {row : Row} (inserted : r.insert row = .ok change) :
    change.relation.WellFormed := by
  unfold insert at inserted
  split at inserted
  · cases inserted
  · next checked =>
    obtain ⟨row', conformed, rfl⟩ := map_eq_ok.mp inserted
    have length : row.length = r.header.size := checkArity_eq_ok checked _ (List.mem_singleton_self _)
    exact h.insertRow (length_conformRow (length_columnKinds r) length conformed)

theorem wellFormed_delete (h : r.WellFormed) {predicate : String}
    (deleted : r.delete predicate = .ok change) : change.relation.WellFormed := by
  unfold delete at deleted
  split at deleted
  · cases deleted
  · obtain ⟨rows, -, rfl⟩ := map_eq_ok.mp deleted
    exact h.difference rows

theorem wellFormed_update (h : r.WellFormed) {predicate : String} {changes : Name.Map Cell}
    (updated : r.update predicate changes = .ok change) : change.relation.WellFormed := by
  unfold update at updated
  split at updated
  · cases updated
  · next targets _ =>
    split at updated
    · cases updated
    · obtain ⟨rows, matched, rfl⟩ := map_eq_ok.mp updated
      refine (h.difference _).insertRows fun row' hrow' => ?_
      obtain ⟨row, hrow, rfl⟩ := List.mem_map.mp hrow'
      rw [length_overwrite]
      exact h.arity row (mem_of_matching matched hrow)

/-! ## Changes keep the header -/

theorem header_insert {row : Row} (inserted : r.insert row = .ok change) :
    change.relation.header = r.header := by
  unfold insert at inserted
  split at inserted
  · cases inserted
  · obtain ⟨row', -, rfl⟩ := map_eq_ok.mp inserted
    rfl

theorem header_delete {predicate : String} (deleted : r.delete predicate = .ok change) :
    change.relation.header = r.header := by
  unfold delete at deleted
  split at deleted
  · cases deleted
  · obtain ⟨rows, -, rfl⟩ := map_eq_ok.mp deleted
    rfl

theorem header_update {predicate : String} {changes : Name.Map Cell}
    (updated : r.update predicate changes = .ok change) : change.relation.header = r.header := by
  unfold update at updated
  split at updated
  · cases updated
  · split at updated
    · cases updated
    · obtain ⟨rows, -, rfl⟩ := map_eq_ok.mp updated
      rfl

end Relation

end RelationalAlgebra
