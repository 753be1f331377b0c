import Mathlib.Data.List.GetD
import RelationalAlgebra.Proofs.Relation.Changes
/-!
# Columns of one kind

The kind that is found for a column of texts is the kind that each of them is read as.  An operator whose
rows are rows of one operand, or put together of rows of both, keeps the columns of one kind when those of
its operands are, and so does a change, which stores no cell of another kind in a column of one kind.
-/

namespace RelationalAlgebra

/-! ## Columns of texts -/

namespace Kind

theorem kind_of_read? {kind : Kind} {cs : List Char} {c : Cell} (h : kind.read? cs = some c) :
    c.kind = kind := by
  cases kind with
  | int | date | float =>
    obtain ⟨v, -, rfl⟩ := Option.map_eq_some_iff.mp h
    rfl
  | text =>
    obtain rfl := Option.some.inj h
    rfl

theorem admits_text (raw : String) : text.admits raw = true := rfl

/-- All texts of a column can be read as the kind that is found for it. -/
theorem admits_ofColumn {column : List String} {raw : String} (h : raw ∈ column) :
    (ofColumn column).admits raw = true := by
  unfold ofColumn
  cases found : all.find? fun kind => column.all kind.admits with
  | none => exact admits_text raw
  | some kind =>
    have admitted := List.find?_some found
    exact List.all_eq_true.mp admitted raw h

end Kind

theorem Cell.kind_cast {kind : Kind} {raw : String} (h : kind.admits raw = true) :
    (cast kind raw).kind = kind := by
  unfold cast
  split
  · next text => exact text.symm
  · obtain ⟨c, hc⟩ := Option.isSome_iff_exists.mp h
    rw [hc]
    exact Kind.kind_of_read? hc

/-! ## Rows of some kinds -/

def Row.kinds (row : Row) : List Kind := row.map Cell.kind

theorem Row.kinds_append (a b : Row) : kinds (a ++ b) = kinds a ++ kinds b := List.map_append

theorem Row.kinds_pick (positions : List Nat) (row : Row) :
    kinds (row.pick positions) = positions.map fun i => (kinds row).getD i .text := by
  unfold kinds pick
  rw [List.map_map]
  refine List.map_congr_left fun i _ => ?_
  exact (List.getD_map row (.text "") Cell.kind).symm

theorem Row.kinds_set {row : Row} {i : Nat} {c : Cell} (h : (kinds row).getD i .text = c.kind) :
    kinds (row.set i c) = kinds row := by
  unfold kinds at h ⊢
  rw [List.map_set, ← h]
  refine List.ext_getElem (List.length_set ..) fun j hj hj' => ?_
  by_cases same : i = j
  · subst same
    rw [List.getElem_set_self, List.getD_eq_getElem?_getD, List.getElem?_eq_getElem hj',
      Option.getD_some]
  · rw [List.getElem_set_ne same]

namespace Rows

def OfKinds (kinds : List Kind) (rows : List Row) : Prop := ∀ row ∈ rows, Row.kinds row = kinds

theorem OfKinds.of_subset {kinds : List Kind} {rows others : List Row} (h : OfKinds kinds rows)
    (sub : ∀ row ∈ others, row ∈ rows) : OfKinds kinds others := fun row hrow => h row (sub row hrow)

theorem OfKinds.filter {kinds : List Kind} {rows : List Row} (h : OfKinds kinds rows)
    (p : Row → Bool) : OfKinds kinds (rows.filter p) :=
  h.of_subset fun _ hrow => (List.mem_filter.mp hrow).1

theorem OfKinds.picks {kinds : List Kind} {rows : List Row} (h : OfKinds kinds rows)
    (positions : List Nat) :
    OfKinds (positions.map fun i => kinds.getD i .text) (rows.map (Row.pick positions)) := by
  intro row' hrow'
  obtain ⟨row, hrow, rfl⟩ := List.mem_map.mp hrow'
  rw [Row.kinds_pick, h row hrow]

theorem OfKinds.collect {kinds : List Kind} {rows : List Row} (h : OfKinds kinds rows) :
    OfKinds kinds (collect rows) := h.of_subset fun _ => mem_of_mem_collect

theorem OfKinds.ofInsertions {kinds : List Kind} {rows : List Row} (h : OfKinds kinds rows) :
    OfKinds kinds (ofInsertions rows) := h.of_subset fun _ => mem_of_mem_ofInsertions

theorem OfKinds.insert {kinds : List Kind} {row : Row} {rows : Rows} (hrow : Row.kinds row = kinds)
    (h : OfKinds kinds rows) : OfKinds kinds (Rows.insert row rows) := by
  intro x hx
  rcases eq_or_mem_of_mem_insert hx with rfl | hx
  · exact hrow
  · exact h x hx

theorem OfKinds.insertAll {kinds : List Kind} {added : List Row} {rows : Rows}
    (hadded : OfKinds kinds added) (h : OfKinds kinds rows) :
    OfKinds kinds (added.foldl (fun rows row => Rows.insert row rows) rows) := by
  induction added generalizing rows with
  | nil => exact h
  | cons row added ih =>
    refine ih (hadded.of_subset fun x hx => List.mem_cons_of_mem _ hx) ?_
    exact h.insert (hadded row (List.mem_cons_self ..))

end Rows

namespace Relation

/-- Every column holds cells of a single kind. -/
def Uniform (r : Relation) : Prop := ∃ kinds, Rows.OfKinds kinds r.rows

theorem getElem?_castRow (rows : List (List String)) {width : Nat} {raw : List String}
    (length : raw.length = width) {i : Nat} (hi : i < width) :
    (castRow (rawKinds width rows) raw)[i]? =
      some (Cell.cast (Kind.ofColumn (rows.map fun raw => raw.getD i "")) (raw.getD i "")) := by
  have inRaw : i < raw.length := by omega
  rw [castRow, List.getElem?_zipWith, rawKinds, List.getElem?_map, List.getElem?_range hi,
    List.getElem?_eq_getElem inRaw, List.getD_eq_getElem?_getD, List.getElem?_eq_getElem inRaw]
  rfl

theorem kinds_castRow {rows : List (List String)} {width : Nat} {raw : List String} (hraw : raw ∈ rows)
    (length : raw.length = width) :
    Row.kinds (castRow (rawKinds width rows) raw) = rawKinds width rows := by
  have widths : (castRow (rawKinds width rows) raw).length = width := by
    rw [castRow, List.length_zipWith, rawKinds, List.length_map, List.length_range, length, Nat.min_self]
  refine List.ext_getElem? fun i => ?_
  rw [Row.kinds, List.getElem?_map, rawKinds, List.getElem?_map]
  by_cases hi : i < width
  · rw [← rawKinds, getElem?_castRow rows length hi, List.getElem?_range hi]
    have member : raw.getD i "" ∈ rows.map fun raw => raw.getD i "" := List.mem_map_of_mem hraw
    exact congrArg some (Cell.kind_cast (Kind.admits_ofColumn member))
  · rw [← rawKinds, List.getElem?_eq_none (by omega), List.getElem?_eq_none (by simpa using hi)]
    rfl

/-- In a relation that is read from texts, each column has the kind that is found for it. -/
theorem kinds_ofRaw {header : Header} {rows : List (List String)} {r : Relation}
    (h : ofRaw? header rows = .ok r) : Rows.OfKinds (rawKinds header.size rows) r.rows := by
  obtain ⟨u, checked, rfl⟩ := map_eq_ok.mp h
  refine Rows.OfKinds.collect fun row hrow => ?_
  obtain ⟨raw, hraw, rfl⟩ := List.mem_map.mp hrow
  exact kinds_castRow hraw (checkArity_eq_ok checked _ (List.mem_map_of_mem hraw))

/-! ## Operators -/

variable {a b r p : Relation}

theorem Uniform.filter {clause : Predicate.Clause} (h : r.Uniform) (filtered : r.filter clause = .ok p) :
    p.Uniform := by
  obtain ⟨kinds, h⟩ := h
  obtain ⟨rows, matched, rfl⟩ := map_eq_ok.mp filtered
  exact ⟨kinds, h.of_subset fun row => mem_of_matching matched⟩

theorem Uniform.selection {predicate : String} (h : r.Uniform)
    (selected : r.selection predicate = .ok p) : p.Uniform := by
  unfold Relation.selection at selected
  split at selected
  · cases selected
  · exact h.filter selected

theorem Uniform.projection {names : List String} (h : r.Uniform)
    (projected : r.projection names = .ok p) : p.Uniform := by
  obtain ⟨kinds, h⟩ := h
  obtain ⟨-, -, ps, -, rows⟩ := projection_eq_ok projected
  refine ⟨ps.map fun i => kinds.getD i .text, ?_⟩
  rw [rows]
  exact (h.picks ps).collect

theorem Uniform.rename {map : Renaming} (h : r.Uniform) (renamed : r.rename map = .ok p) :
    p.Uniform := by
  unfold Uniform
  rw [(rename_eq_ok renamed).2]
  exact h

theorem Uniform.align {operation : String} {rows : Rows} (h : b.Uniform)
    (aligned : a.align b operation = .ok rows) : ∃ kinds, Rows.OfKinds kinds rows := by
  rcases (align_eq_ok aligned).2 with ⟨-, rfl⟩ | ⟨ps, -, rfl⟩
  · exact h
  · obtain ⟨kinds, h⟩ := h
    exact ⟨_, (h.picks ps).collect⟩

theorem Uniform.rearrange {header : Header} (h : r.Uniform)
    (rearranged : r.rearrange header = .ok p) : p.Uniform := by
  obtain ⟨rows, aligned, rfl⟩ := map_eq_ok.mp rearranged
  exact h.align aligned

theorem Uniform.intersection (ha : a.Uniform) (hb : b.Uniform) (met : a.intersection b = .ok p) :
    p.Uniform := by
  obtain ⟨rows, aligned, rfl⟩ := map_eq_ok.mp met
  obtain ⟨kinds, ha⟩ := ha
  obtain ⟨kinds', hb⟩ := hb.align aligned
  rcases Rows.intersection_cases a.rows rows with same | same
  · exact ⟨kinds', same ▸ hb.filter _⟩
  · exact ⟨kinds, same ▸ ha.filter _⟩

theorem Uniform.difference (h : a.Uniform) (left : a.difference b = .ok p) : p.Uniform := by
  obtain ⟨kinds, h⟩ := h
  obtain ⟨rows, -, rfl⟩ := map_eq_ok.mp left
  exact ⟨kinds, h.filter _⟩

theorem Uniform.product (ha : a.Uniform) (hb : b.Uniform) (made : a.product b = .ok p) :
    p.Uniform := by
  obtain ⟨as, ha⟩ := ha
  obtain ⟨bs, hb⟩ := hb
  obtain ⟨-, -, rows⟩ := product_eq_ok made
  refine ⟨as ++ bs, ?_⟩
  rw [rows]
  refine Rows.OfKinds.ofInsertions fun row hrow => ?_
  obtain ⟨left, hleft, hrow⟩ := List.mem_flatMap.mp hrow
  obtain ⟨right, hright, rfl⟩ := List.mem_map.mp hrow
  rw [Row.kinds_append, ha left hleft, hb right hright]

theorem Uniform.join (ha : a.Uniform) (hb : b.Uniform) (joined : a.join b = .ok p) : p.Uniform := by
  obtain ⟨as, ha⟩ := ha
  obtain ⟨bs, hb⟩ := hb
  obtain ⟨-, ps, qs, -, -, rows⟩ := joinWith_eq_ok joined
  let rest := (List.range b.header.size).filter fun i => !qs.contains i
  refine ⟨as ++ rest.map fun i => bs.getD i .text, ?_⟩
  rw [rows]
  refine Rows.OfKinds.ofInsertions fun row hrow => ?_
  obtain ⟨left, hleft, hrow⟩ := List.mem_flatMap.mp hrow
  -- without padding, every row of the join has a partner on the right
  obtain ⟨right, hright, rfl⟩ : ∃ right ∈ b.rows, left ++ right.pick rest = row := by
    obtain ⟨right, hright, rfl⟩ := List.mem_map.mp hrow
    exact ⟨right, (List.mem_filter.mp hright).1, rfl⟩
  rw [Row.kinds_append, Row.kinds_pick, ha left hleft, hb right hright]

theorem Uniform.division (h : a.Uniform) (divided : a.division b = .ok p) : p.Uniform := by
  obtain ⟨-, -, candidates, combined, missing, disqualified, hc, -, -, -, hp⟩ := division_eq_ok divided
  exact (h.projection hc).difference hp

end Relation

/-- Whether the rows of an operator are rows of one operand or put together of rows of both. -/
def Query.Binary.KeepsKinds : Query.Binary → Prop
  | .product | .intersection | .difference | .division | .join => True
  | .union | .leftJoin | .rightJoin | .fullJoin => False

theorem Relation.Uniform.apply {op : Query.Binary} {a b p : Relation} (keeps : op.KeepsKinds)
    (ha : a.Uniform) (hb : b.Uniform) (applied : a.apply op b = .ok p) : p.Uniform := by
  cases op with
  | product => exact ha.product hb applied
  | intersection => exact ha.intersection hb applied
  | difference => exact ha.difference applied
  | division => exact ha.division applied
  | join => exact ha.join hb applied
  | union | leftJoin | rightJoin | fullJoin => exact keeps.elim

/-! ## Changes -/

namespace Relation

variable {r : Relation} {change : Change}

theorem kindOf_eq {kind : Kind} {cells : List Cell} (ne : cells ≠ [])
    (h : ∀ c ∈ cells, c.kind = kind) : kindOf cells = some kind := by
  cases cells with
  | nil => exact absurd rfl ne
  | cons c cs =>
    have first : c.kind = kind := h c (List.mem_cons_self ..)
    have others : cs.all (fun d => decide (d.kind = c.kind)) = true := by
      refine List.all_eq_true.mpr fun d hd => decide_eq_true ?_
      rw [first, h d (List.mem_cons_of_mem _ hd)]
    rw [kindOf, if_pos others, first]

/-- The columns of a relation that has rows have the kinds of these rows. -/
theorem columnKinds_eq_of_uniform (wellFormed : r.WellFormed) {kinds : List Kind}
    (h : Rows.OfKinds kinds r.rows) (ne : r.rows ≠ []) : r.columnKinds = kinds.map some := by
  obtain ⟨row, hrow⟩ := List.exists_mem_of_ne_nil _ ne
  have length : kinds.length = r.header.size := by
    rw [← h row hrow, Row.kinds, List.length_map, wellFormed.arity row hrow]
  refine List.ext_getElem ?_ fun i hi hi' => ?_
  · rw [columnKinds, List.length_map, List.length_range, List.length_map, length]
  · have inKinds : i < kinds.length := by simpa using hi'
    have cells : ∀ c ∈ r.rows.map (fun row => row.getD i (.text "")), c.kind = kinds[i] := by
      intro c hc
      obtain ⟨row', hrow', rfl⟩ := List.mem_map.mp hc
      have same : (Row.kinds row').getD i .text = (row'.getD i (.text "")).kind :=
        List.getD_map row' (.text "") Cell.kind
      rw [← same, h row' hrow', List.getD_eq_getElem?_getD, List.getElem?_eq_getElem inKinds,
        Option.getD_some]
    simpa [columnKinds] using kindOf_eq (by simpa using ne) cells

theorem kind_conform {name : String} {kind : Kind} {c c' : Cell}
    (h : conform name (some kind) c = .ok c') : c'.kind = kind := by
  rw [conform] at h
  split at h
  · next same =>
    obtain rfl := Except.ok.inj h
    exact same
  · simp only at h
    split at h
    · next cast =>
      obtain rfl := Except.ok.inj h
      exact cast
    · cases h

theorem kinds_conformRow {names : List String} {kinds : List Kind} {row row' : Row}
    (length : kinds.length = names.length) (length' : row.length = names.length)
    (h : conformRow names (kinds.map some) row = .ok row') : Row.kinds row' = kinds := by
  induction names generalizing kinds row row' with
  | nil =>
    obtain rfl := List.eq_nil_of_length_eq_zero length
    obtain rfl := Except.ok.inj h
    rfl
  | cons name names ih =>
    obtain ⟨kind, kinds, rfl⟩ := List.exists_cons_of_length_eq_add_one length
    obtain ⟨cell, cells, rfl⟩ := List.exists_cons_of_length_eq_add_one length'
    rw [List.map_cons, conformRow] at h
    split at h
    · cases h
    · next stored conformed =>
      obtain ⟨rest, hrest, rfl⟩ := map_eq_ok.mp h
      have later := ih (Nat.succ.inj length) (Nat.succ.inj length') hrest
      rw [Row.kinds, List.map_cons, kind_conform conformed, ← later]
      rfl

theorem Uniform.insert (h : r.Uniform) (wellFormed : r.WellFormed) {row : Row}
    (inserted : r.insert row = .ok change) : change.relation.Uniform := by
  obtain ⟨kinds, h⟩ := h
  unfold Relation.insert at inserted
  split at inserted
  · cases inserted
  · next checked =>
    obtain ⟨stored, conformed, rfl⟩ := map_eq_ok.mp inserted
    by_cases none : r.rows = []
    · refine ⟨Row.kinds stored, ?_⟩
      rw [none]
      exact Rows.OfKinds.insert rfl fun _ hx => (List.not_mem_nil hx).elim
    · have eq := columnKinds_eq_of_uniform wellFormed h none
      have widths : kinds.length = r.names.length := by
        rw [← length_columnKinds, eq, List.length_map]
      have width : row.length = r.names.length :=
        checkArity_eq_ok checked _ (List.mem_singleton_self _)
      rw [eq] at conformed
      exact ⟨kinds, h.insert (kinds_conformRow widths width conformed)⟩

theorem Uniform.delete (h : r.Uniform) {predicate : String}
    (deleted : r.delete predicate = .ok change) : change.relation.Uniform := by
  obtain ⟨kinds, h⟩ := h
  unfold Relation.delete at deleted
  split at deleted
  · cases deleted
  · obtain ⟨rows, -, rfl⟩ := map_eq_ok.mp deleted
    exact ⟨kinds, h.filter _⟩

/-- The cells that an update stores have the kinds of their columns. -/
theorem kind_of_mem_targets {kinds : List Kind} (eq : r.columnKinds = kinds.map some)
    {changes : List (String × Cell)} {targets : List (Nat × Cell)}
    (h : r.targets changes = .ok targets) : ∀ t ∈ targets, kinds.getD t.1 .text = t.2.kind := by
  induction changes generalizing targets with
  | nil =>
    obtain rfl := Except.ok.inj h
    exact fun t ht => (List.not_mem_nil ht).elim
  | cons change changes ih =>
    rw [Relation.targets] at h
    split at h
    · cases h
    · next i position =>
      split at h
      · cases h
      · next stored conformed =>
        obtain ⟨rest, hrest, rfl⟩ := map_eq_ok.mp h
        have inKinds : i < kinds.length := by
          obtain ⟨lt, -⟩ := List.getElem?_eq_some_iff.mp (Header.getElem?_of_position? position)
          have length := length_columnKinds r
          rw [eq, List.length_map] at length
          exact length ▸ lt
        have column : (kinds.map some).getD i none = some kinds[i] := by simp [inKinds]
        rw [eq, column] at conformed
        refine List.forall_mem_cons.mpr ⟨?_, ih hrest⟩
        rw [kind_conform conformed, List.getD_eq_getElem?_getD, List.getElem?_eq_getElem inKinds,
          Option.getD_some]

theorem kinds_overwrite {kinds : List Kind} {targets : List (Nat × Cell)}
    (h : ∀ t ∈ targets, kinds.getD t.1 .text = t.2.kind) {row : Row} (hrow : Row.kinds row = kinds) :
    Row.kinds (overwrite targets row) = kinds := by
  induction targets generalizing row with
  | nil => exact hrow
  | cons t targets ih =>
    have step : overwrite (t :: targets) row = overwrite targets (row.set t.1 t.2) := rfl
    obtain ⟨first, later⟩ := List.forall_mem_cons.mp h
    rw [step]
    refine ih later ?_
    rw [Row.kinds_set (hrow ▸ first), hrow]

theorem Uniform.update (h : r.Uniform) (wellFormed : r.WellFormed) {predicate : String}
    {changes : Name.Map Cell} (updated : r.update predicate changes = .ok change) :
    change.relation.Uniform := by
  obtain ⟨kinds, h⟩ := h
  unfold Relation.update at updated
  split at updated
  · cases updated
  · next targets targeted =>
    split at updated
    · cases updated
    · obtain ⟨rows, matched, rfl⟩ := map_eq_ok.mp updated
      refine ⟨kinds, Rows.OfKinds.insertAll (fun row' hrow' => ?_) (h.filter _)⟩
      obtain ⟨row, hrow, rfl⟩ := List.mem_map.mp hrow'
      have member : row ∈ r.rows := mem_of_matching matched hrow
      have eq := columnKinds_eq_of_uniform wellFormed h (List.ne_nil_of_mem member)
      exact kinds_overwrite (kind_of_mem_targets eq targeted) (h row member)

end Relation

end RelationalAlgebra
