import Mathlib.Data.List.Forall2
import RelationalAlgebra.Proofs.Relation.Extent
import RelationalAlgebra.Proofs.Relation.Fitting
/-!
# Operators on relations and on their extents

Each operator on relations, where it applies, is the operator on their extents, as long as cells that
compare equal are the same.  Two relations with the same extent are equal.
-/

namespace RelationalAlgebra

open Predicate (Clause Formula cell?)

/-! ## Rows as assignments -/

theorem mem_assignments {names : List String} {rows : List Row} {w : Assignment} :
    w ∈ Rows.assignments names rows ↔ ∃ row ∈ rows, w = cell? names row := Iff.rfl

theorem assignments_congr {names : List String} {rows rows' : List Row}
    (h : ∀ row, row ∈ rows ↔ row ∈ rows') :
    Rows.assignments names rows = Rows.assignments names rows' := by
  ext w
  simp only [mem_assignments, h]

theorem covers_cell? {names : List String} (nodup : names.Nodup) {row : Row}
    (length : row.length = names.length) :
    Assignment.Covers {n | n ∈ names} (cell? names row) :=
  fun _ => isSome_cell?_iff nodup length

theorem cell?_mem_assignments {names : List String} (nodup : names.Nodup) {rows : List Row}
    (arity : ∀ row ∈ rows, row.length = names.length) {row : Row}
    (length : row.length = names.length) :
    cell? names row ∈ Rows.assignments names rows ↔ row ∈ rows := by
  constructor
  · rintro ⟨row', hrow', same⟩
    rwa [row_ext nodup length (arity row' hrow') same]
  · intro h
    exact ⟨row, h, rfl⟩

theorem Relation.nodup_names (r : Relation) : r.names.Nodup := r.header.nodup

theorem Relation.WellFormed.apart {r : Relation} (h : r.WellFormed) : Rows.Apart r.rows :=
  Rows.Ascending.apart h.ascending

theorem Relation.WellFormed.sound {r : Relation} (h : r.WellFormed) : r.Sound Set.univ :=
  ⟨h, fun _ _ c _ => Set.mem_univ c⟩

theorem Relation.Sound.arity {cells : Set Cell} {r : Relation} (sound : r.Sound cells) :
    ∀ row ∈ r.rows, row.length = r.names.length := sound.wellFormed.arity

theorem Relation.Sound.proper {cells : Set Cell} {r : Relation} (sound : r.Sound cells) :
    r.extent.Proper := by
  rintro w ⟨row, hrow, rfl⟩
  exact covers_cell? r.nodup_names (sound.arity row hrow)

theorem cell?_of_position? {h : Header} {name : String} {i : Nat} (hi : h.position? name = some i)
    {row : Row} (length : row.length = h.names.length) (default : Cell) :
    cell? h.names row name = some (row.getD i default) := by
  have place := Header.getElem?_of_position? hi
  obtain ⟨lt, -⟩ := List.getElem?_eq_some_iff.mp place
  have inRow : i < row.length := by omega
  refine (cell?_eq_some_iff h.nodup).mpr ⟨i, place, ?_⟩
  rw [List.getD_eq_getElem?_getD, List.getElem?_eq_getElem inRow, Option.getD_some]

theorem length_pick {h : Header} {names : List String} {ps : List Nat}
    (hps : h.positions names = .ok ps) (row : Row) : (row.pick ps).length = names.length := by
  rw [Row.pick, List.length_map, (Header.positions_eq_ok_iff.mp hps).length_eq]

theorem over_pick {cells : Set Cell} {h : Header} {names : List String} {ps : List Nat}
    (hps : h.positions names = .ok ps) {row : Row} (length : row.length = h.names.length)
    (inside : row.Over cells) : (row.pick ps).Over cells := by
  intro c hc
  obtain ⟨i, hi, rfl⟩ := List.mem_map.mp hc
  have pairs := Header.positions_eq_ok_iff.mp hps
  obtain ⟨k, hk, rfl⟩ := List.mem_iff_getElem.mp hi
  have hk' : k < names.length := pairs.length_eq ▸ hk
  have place := Header.getElem?_of_position? (pairs.get hk' hk)
  obtain ⟨lt, -⟩ := List.getElem?_eq_some_iff.mp place
  have inRow : ps[k] < row.length := length ▸ lt
  rw [List.getD_eq_getElem?_getD, List.getElem?_eq_getElem inRow, Option.getD_some]
  exact inside _ (List.getElem_mem inRow)

namespace Relation

variable {cells : Set Cell}

/-! ## Selection -/

theorem matching_eq_ok_iff {names : List String} {clause : Clause} {rows : List Row} {kept : Rows} :
    matching names clause rows = .ok kept ↔
      (∀ row ∈ rows, (clause.formula.truth? (cell? names row)).isSome = true) ∧
        kept = rows.filter fun row => clause.formula.holds (cell? names row) := by
  induction rows generalizing kept with
  | nil => exact ⟨fun h => ⟨by simp, (Except.ok.inj h).symm⟩, fun h => by rw [h.2]; rfl⟩
  | cons row rows ih =>
    rw [matching]
    split
    · next fault heq =>
      have none : clause.formula.truth? (cell? names row) = none := by
        cases h : clause.formula.truth? (cell? names row) with
        | none => rfl
        | some b =>
          rw [Predicate.test_eq_ok_iff.mpr h] at heq
          cases heq
      simp [none]
    · next heq =>
      have truth := Predicate.test_eq_ok_iff.mp heq
      rw [List.forall_mem_cons, truth, List.filter_cons, Predicate.holds_of_truth? _ truth, map_eq_ok]
      constructor
      · rintro ⟨kept, h, rfl⟩
        obtain ⟨all, rfl⟩ := ih.mp h
        exact ⟨⟨rfl, all⟩, rfl⟩
      · rintro ⟨⟨-, all⟩, rfl⟩
        exact ⟨_, ih.mpr ⟨all, rfl⟩, rfl⟩
    · next heq =>
      have truth := Predicate.test_eq_ok_iff.mp heq
      rw [List.forall_mem_cons, truth, List.filter_cons, Predicate.holds_of_truth? _ truth, ih]
      simp

theorem exists_filter_iff {r : Relation} {clause : Clause} :
    (∃ p, r.filter clause = .ok p) ↔
      ∀ w ∈ r.extent.rows, (clause.formula.truth? w).isSome = true := by
  rw [filter, exists_map_eq_ok]
  constructor
  · rintro ⟨kept, h⟩ w ⟨row, hrow, rfl⟩
    exact (matching_eq_ok_iff.mp h).1 row hrow
  · intro all
    exact ⟨_, matching_eq_ok_iff.mpr ⟨fun row hrow => all _ ⟨row, hrow, rfl⟩, rfl⟩⟩

theorem filter_eq_error {r : Relation} {clause : Clause} {failure : Failure}
    (h : r.filter clause = .error failure) :
    ∃ source row fault, failure = .evaluation source row fault := by
  have general (rows : List Row) (h : matching r.names clause rows = .error failure) :
      ∃ source row fault, failure = .evaluation source row fault := by
    induction rows with
    | nil => cases h
    | cons row rows ih =>
      rw [matching] at h
      split at h
      · exact ⟨_, _, _, (Except.error.inj h).symm⟩
      · exact ih (map_eq_error.mp h)
      · exact ih h
  exact general r.rows (map_eq_error.mp h)

theorem filter_spec {r p : Relation} {clause : Clause} (sound : r.Sound cells)
    (h : r.filter clause = .ok p) :
    p.Sound cells ∧ p.names = r.names ∧ p.extent = r.extent.select clause.formula := by
  obtain ⟨kept, hkept, rfl⟩ := map_eq_ok.mp h
  obtain ⟨-, rfl⟩ := matching_eq_ok_iff.mp hkept
  refine ⟨⟨⟨fun row hrow => ?_, ?_⟩, fun row hrow => ?_⟩, rfl, Extent.ext rfl ?_⟩
  · exact sound.arity row (List.mem_filter.mp hrow).1
  · exact Rows.ascending_filter sound.wellFormed.ascending _
  · exact sound.inside row (List.mem_filter.mp hrow).1
  · ext w
    constructor
    · rintro ⟨row, hrow, rfl⟩
      obtain ⟨hrow, holds⟩ := List.mem_filter.mp hrow
      exact ⟨⟨row, hrow, rfl⟩, holds⟩
    · rintro ⟨⟨row, hrow, rfl⟩, holds⟩
      exact ⟨row, List.mem_filter.mpr ⟨hrow, holds⟩, rfl⟩

/-! ## Projection and renaming -/

theorem over_picks {r : Relation} (sound : r.Sound cells) {names : List String} {ps : List Nat}
    (hps : r.header.positions names = .ok ps) : Rows.Over cells (r.rows.map (Row.pick ps)) := by
  intro row' hrow'
  obtain ⟨row, hrow, rfl⟩ := List.mem_map.mp hrow'
  exact over_pick hps (sound.arity row hrow) (sound.inside row hrow)

theorem apart_picks {r : Relation} (wellFormed : r.WellFormed) {names : List String} {ps : List Nat}
    (hps : r.header.positions names = .ok ps) (whole : ∀ n ∈ r.names, n ∈ names) :
    Rows.Apart (r.rows.map (Row.pick ps)) := by
  intro x' hx' y' hy' same
  obtain ⟨x, hx, rfl⟩ := List.mem_map.mp hx'
  obtain ⟨y, hy, rfl⟩ := List.mem_map.mp hy'
  have cells : ∀ i ∈ ps, Cell.compare (x.getD i (.text "")) (y.getD i (.text "")) = .eq := by
    rwa [Row.compare_eq_iff, Row.pick, Row.pick, List.forall₂_map_left_iff, List.forall₂_map_right_iff,
      List.forall₂_same] at same
  have lengthX : x.length = r.names.length := wellFormed.arity x hx
  have lengthY : y.length = r.names.length := wellFormed.arity y hy
  have equal : Row.compare x y = .eq := by
    refine Row.compare_eq_iff.mpr (List.forall₂_iff_get.mpr ⟨lengthX.trans lengthY.symm, ?_⟩)
    intro i hi hi'
    have hn : i < r.header.names.length := lengthX ▸ hi
    have picked : i ∈ ps := (Header.mem_positions hps (Header.position?_getElem hn)).mpr
      (whole _ (List.getElem_mem hn))
    simpa [List.getD_eq_getElem?_getD, hi, hi'] using cells i picked
  rw [wellFormed.apart x hx y hy equal]

theorem assignments_pick {r : Relation} (sound : r.Sound cells) {names : List String}
    (nodup : names.Nodup) {ps : List Nat} (hps : r.header.positions names = .ok ps)
    (apart : Rows.Apart (r.rows.map (Row.pick ps))) :
    Rows.assignments names (Rows.collect (r.rows.map (Row.pick ps))) =
      Assignment.restrict {n | n ∈ names} '' r.extent.rows := by
  have picked (row : Row) (hrow : row ∈ r.rows) : cell? names (row.pick ps) =
      Assignment.restrict {n | n ∈ names} (cell? r.names row) := by
    funext n
    have cell := cell?_pick hps nodup (sound.arity row hrow) n
    by_cases hn : n ∈ names
    · rw [cell, if_pos hn]
      exact (Assignment.restrict_of_mem hn).symm
    · rw [cell, if_neg hn]
      exact (Assignment.restrict_of_notMem hn).symm
  rw [assignments_congr fun row => Rows.mem_collect apart]
  ext w
  constructor
  · rintro ⟨row', hrow', rfl⟩
    obtain ⟨row, hrow, rfl⟩ := List.mem_map.mp hrow'
    exact ⟨_, ⟨row, hrow, rfl⟩, (picked row hrow).symm⟩
  · rintro ⟨_, ⟨row, hrow, rfl⟩, rfl⟩
    exact ⟨_, List.mem_map_of_mem hrow, (picked row hrow).symm⟩

theorem collect_sound {header : Header} {rows : List Row} (inside : Rows.Over cells rows)
    (arity : ∀ row ∈ rows, row.length = header.names.length) :
    Relation.Sound cells ⟨header, Rows.collect rows⟩ :=
  ⟨⟨fun row hrow => arity row (Rows.mem_of_mem_collect hrow), Rows.ascending_collect _⟩,
    fun row hrow => inside row (Rows.mem_of_mem_collect hrow)⟩

theorem arity_pick {r : Relation} {names : List String} {ps : List Nat}
    (hps : r.header.positions names = .ok ps) :
    ∀ row ∈ r.rows.map (Row.pick ps), row.length = names.length := by
  intro row' hrow'
  obtain ⟨row, -, rfl⟩ := List.mem_map.mp hrow'
  exact length_pick hps row

theorem projection_spec (separated : Cell.Separated cells) {r p : Relation} {names : List String}
    (sound : r.Sound cells) (h : r.projection names = .ok p) :
    p.Sound cells ∧ p.extent = r.extent.project {n | n ∈ names} := by
  obtain ⟨-, hnames, ps, hps, hrows⟩ := projection_eq_ok h
  have nodup := nodup_distinct names
  have inside := over_picks sound hps
  have assignments := assignments_pick sound nodup hps (inside.apart separated)
  have same : {n | n ∈ distinct names} = {n | n ∈ names} := Set.ext fun n => mem_distinct
  constructor
  · have arity := arity_pick hps
    rw [← hnames] at arity
    have result := @collect_sound cells p.header _ inside arity
    rwa [← hrows] at result
  · refine Extent.ext ?_ ?_
    · rw [extent, attributes, hnames]
      exact same
    · rw [extent, hnames, hrows, assignments, same]
      rfl

theorem rename_spec {r p : Relation} {map : Renaming} (sound : r.Sound cells)
    (h : r.rename map = .ok p) : p.Sound cells ∧ p.extent = r.extent.rename map.apply := by
  obtain ⟨hnames, hrows⟩ := rename_eq_ok h
  have nodup : (r.names.map map.apply).Nodup := hnames ▸ p.header.nodup
  have arity : ∀ row ∈ p.rows, row.length = p.names.length := by
    intro row hrow
    rw [hrows] at hrow
    rw [hnames, List.length_map, sound.arity row hrow]
  have attributes_eq : p.attributes = map.apply '' r.attributes := by
    ext n
    change n ∈ p.names ↔ _
    rw [hnames, List.mem_map]
    rfl
  refine ⟨⟨⟨arity, hrows ▸ sound.wellFormed.ascending⟩, hrows ▸ sound.inside⟩, ?_⟩
  refine Extent.ext attributes_eq ?_
  have lookup (row : Row) (hrow : row ∈ r.rows) :
      Assignment.restrict r.attributes (cell? p.names row ∘ map.apply) = cell? r.names row := by
    have covers := covers_cell? r.nodup_names (sound.arity row hrow)
    refine (Assignment.restrict_eq_iff covers).mpr fun n hn => ?_
    rw [Function.comp_apply, hnames, cell?_map_names r.nodup_names nodup (sound.arity row hrow) hn]
  have covers (row : Row) (hrow : row ∈ r.rows) :
      Assignment.Covers (map.apply '' r.attributes) (cell? p.names row) := by
    rw [← attributes_eq]
    exact covers_cell? p.nodup_names (arity row (hrows ▸ hrow))
  ext w
  constructor
  · rintro ⟨row, hrow, rfl⟩
    have hrow : row ∈ r.rows := hrows ▸ hrow
    exact ⟨covers row hrow, row, hrow, lookup row hrow⟩
  · rintro ⟨hw, row, hrow, same⟩
    refine ⟨row, hrows ▸ hrow, hw.ext (covers row hrow) ?_⟩
    rintro _ ⟨n, hn, rfl⟩
    have hn : n ∈ r.attributes := hn
    have both : Assignment.restrict r.attributes (w ∘ map.apply) n =
        Assignment.restrict r.attributes (cell? p.names row ∘ map.apply) n :=
      congrFun (same.trans (lookup row hrow).symm) n
    rwa [Assignment.restrict_of_mem hn, Assignment.restrict_of_mem hn] at both

/-! ## Set operators -/

/-- The rows of an operand with its columns in another order have the same extent. -/
theorem align_spec {a b : Relation} {operation : String} {rows : Rows} (sound : b.Sound cells)
    (h : a.align b operation = .ok rows) :
    Relation.Sound cells ⟨a.header, rows⟩ ∧ a.attributes = b.attributes ∧
      Rows.assignments a.names rows = b.extent.rows := by
  obtain ⟨same, h⟩ := align_eq_ok h
  have attributes_eq : a.attributes = b.attributes := Set.ext same
  rcases h with ⟨header, rfl⟩ | ⟨ps, hps, rfl⟩
  · refine ⟨?_, attributes_eq, ?_⟩
    · rw [header]
      exact sound
    · rw [names, header]
      rfl
  · have apart := apart_picks sound.wellFormed hps fun n hn => (same n).mpr hn
    have assignments := assignments_pick sound a.nodup_names hps apart
    refine ⟨collect_sound (over_picks sound hps) (arity_pick hps), attributes_eq, ?_⟩
    have whole : ∀ w ∈ b.extent.rows, Assignment.restrict {n | n ∈ a.names} w = w := by
      intro w hw
      have covers : w.Covers a.attributes := by
        rw [attributes_eq]
        exact sound.proper w hw
      exact covers.restrict_self
    rw [assignments, Set.image_congr whole, Set.image_id']

theorem rearrange_spec {r p : Relation} {header : Header} (sound : r.Sound cells)
    (h : r.rearrange header = .ok p) : p.Sound cells ∧ p.extent = r.extent := by
  obtain ⟨rows, hrows, rfl⟩ := map_eq_ok.mp h
  obtain ⟨soundRows, attributes_eq, assignments⟩ := align_spec sound hrows
  exact ⟨soundRows, Extent.ext attributes_eq assignments⟩

theorem union_spec (separated : Cell.Separated cells) {a b p : Relation} (ha : a.Sound cells)
    (hb : b.Sound cells) (h : a.union b = .ok p) :
    p.Sound cells ∧ p.extent = a.extent.union b.extent := by
  obtain ⟨rows, hrows, rfl⟩ := map_eq_ok.mp h
  obtain ⟨sound, -, assignments⟩ := align_spec hb hrows
  have mem (row : Row) : row ∈ Rows.union a.rows rows ↔ row ∈ a.rows ∨ row ∈ rows :=
    Rows.mem_union separated ha.inside sound.inside
  refine ⟨⟨⟨fun row hrow => ?_, Rows.ascending_ofInsertions _⟩, fun row hrow => ?_⟩,
    Extent.ext rfl ?_⟩
  · exact ((mem row).mp hrow).elim (ha.arity row) (sound.arity row)
  · exact ((mem row).mp hrow).elim (ha.inside row) (sound.inside row)
  · ext w
    rw [Extent.union, ← assignments]
    constructor
    · rintro ⟨row, hrow, rfl⟩
      exact ((mem row).mp hrow).imp (fun hrow => ⟨row, hrow, rfl⟩) (fun hrow => ⟨row, hrow, rfl⟩)
    · rintro (⟨row, hrow, rfl⟩ | ⟨row, hrow, rfl⟩)
      · exact ⟨row, (mem row).mpr (.inl hrow), rfl⟩
      · exact ⟨row, (mem row).mpr (.inr hrow), rfl⟩

theorem intersection_spec (separated : Cell.Separated cells) {a b p : Relation} (ha : a.Sound cells)
    (hb : b.Sound cells) (h : a.intersection b = .ok p) :
    p.Sound cells ∧ p.extent = a.extent.intersection b.extent := by
  obtain ⟨rows, hrows, rfl⟩ := map_eq_ok.mp h
  obtain ⟨sound, -, assignments⟩ := align_spec hb hrows
  have mem (row : Row) : row ∈ Rows.intersection a.rows rows ↔ row ∈ a.rows ∧ row ∈ rows :=
    Rows.mem_intersection separated ha.inside sound.inside
  refine ⟨⟨⟨fun row hrow => ha.arity row ((mem row).mp hrow).1, ?_⟩,
    fun row hrow => ha.inside row ((mem row).mp hrow).1⟩, Extent.ext rfl ?_⟩
  · exact Rows.ascending_intersection ha.wellFormed.ascending sound.wellFormed.ascending
  · ext w
    rw [Extent.intersection, ← assignments]
    constructor
    · rintro ⟨row, hrow, rfl⟩
      obtain ⟨left, right⟩ := (mem row).mp hrow
      exact ⟨⟨row, left, rfl⟩, row, right, rfl⟩
    · rintro ⟨⟨row, left, rfl⟩, right⟩
      have right := (cell?_mem_assignments a.nodup_names sound.arity (ha.arity row left)).mp right
      exact ⟨row, (mem row).mpr ⟨left, right⟩, rfl⟩

theorem difference_spec (separated : Cell.Separated cells) {a b p : Relation} (ha : a.Sound cells)
    (hb : b.Sound cells) (h : a.difference b = .ok p) :
    p.Sound cells ∧ p.extent = a.extent.difference b.extent := by
  obtain ⟨rows, hrows, rfl⟩ := map_eq_ok.mp h
  obtain ⟨sound, -, assignments⟩ := align_spec hb hrows
  have mem (row : Row) : row ∈ Rows.difference a.rows rows ↔ row ∈ a.rows ∧ row ∉ rows :=
    Rows.mem_difference separated ha.inside sound.inside
  refine ⟨⟨⟨fun row hrow => ha.arity row ((mem row).mp hrow).1, ?_⟩,
    fun row hrow => ha.inside row ((mem row).mp hrow).1⟩, Extent.ext rfl ?_⟩
  · exact Rows.ascending_filter ha.wellFormed.ascending _
  · ext w
    rw [Extent.difference, ← assignments]
    constructor
    · rintro ⟨row, hrow, rfl⟩
      obtain ⟨left, right⟩ := (mem row).mp hrow
      refine ⟨⟨row, left, rfl⟩, fun same => right ?_⟩
      exact (cell?_mem_assignments a.nodup_names sound.arity (ha.arity row left)).mp same
    · rintro ⟨⟨row, left, rfl⟩, right⟩
      exact ⟨row, (mem row).mpr ⟨left, fun hrow => right ⟨row, hrow, rfl⟩⟩, rfl⟩

/-! ## Products and joins -/

/-- A row that is put together has the cells of its two parts. -/
theorem appended_iff {as es : List String} (nodup : (as ++ es).Nodup) {left part : Row}
    (length : left.length = as.length) (length' : part.length = es.length) {w : Assignment} :
    w = cell? (as ++ es) (left ++ part) ↔ w.Covers {n | n ∈ as ++ es} ∧
      w.restrict {n | n ∈ as} = cell? as left ∧ ∀ n ∈ es, w n = cell? es part n := by
  have nodups := List.nodup_append.mp nodup
  have coversLeft := covers_cell? nodups.1 length
  have onLeft : ∀ n ∈ as, cell? (as ++ es) (left ++ part) n = cell? as left n := by
    intro n hn
    have some := (coversLeft n).mpr hn
    rw [cell?_append nodup length, Option.or_of_isSome some]
  have onRight : ∀ n ∈ es, cell? (as ++ es) (left ++ part) n = cell? es part n := by
    intro n hn
    have none : cell? as left n = none := by
      refine coversLeft.eq_none fun ha => ?_
      exact nodups.2.2 n ha n hn rfl
    rw [cell?_append nodup length, none, Option.none_or]
  have covers : Assignment.Covers {n | n ∈ as ++ es} (cell? (as ++ es) (left ++ part)) := by
    refine covers_cell? nodup ?_
    rw [List.length_append, List.length_append, length, length']
  rw [Assignment.restrict_eq_iff coversLeft]
  constructor
  · rintro rfl
    exact ⟨covers, onLeft, onRight⟩
  · rintro ⟨hw, left, right⟩
    refine hw.ext covers fun n hn => ?_
    rcases List.mem_append.mp hn with hn | hn
    · rw [left n hn, onLeft n hn]
    · rw [right n hn, onRight n hn]

/-- A row and those cells of another one that the first has no attribute for make a row of both. -/
theorem glued_iff {as bs es : List String} (nodup : (as ++ es).Nodup)
    (others : ∀ n, n ∈ es ↔ n ∈ bs ∧ n ∉ as) {left part right : Row} (nodup' : bs.Nodup)
    (length : left.length = as.length) (length' : right.length = bs.length)
    (cut : ∀ n ∈ es, cell? es part n = cell? bs right n) (partLength : part.length = es.length)
    (agree : ∀ n ∈ as, n ∈ bs → cell? as left n = cell? bs right n) {w : Assignment} :
    w = cell? (as ++ es) (left ++ part) ↔ w.Covers ({n | n ∈ as} ∪ {n | n ∈ bs}) ∧
      w.restrict {n | n ∈ as} = cell? as left ∧ w.restrict {n | n ∈ bs} = cell? bs right := by
  have both : {n | n ∈ as ++ es} = {n | n ∈ as} ∪ {n | n ∈ bs} := by
    ext n
    change n ∈ as ++ es ↔ n ∈ as ∨ n ∈ bs
    rw [List.mem_append, others]
    tauto
  rw [appended_iff nodup length partLength, both,
    Assignment.restrict_eq_iff (covers_cell? (List.nodup_append.mp nodup).1 length),
    Assignment.restrict_eq_iff (covers_cell? nodup' length')]
  refine and_congr_right fun _ => and_congr_right fun onLeft => ⟨fun h n hn => ?_, fun h n hn => ?_⟩
  · by_cases ha : n ∈ as
    · rw [onLeft n ha, agree n ha hn]
    · have he : n ∈ es := (others n).mpr ⟨hn, ha⟩
      rw [h n he, cut n he]
  · rw [cut n hn, h n ((others n).mp hn).1]

theorem product_spec {a b p : Relation} (ha : a.Sound cells) (hb : b.Sound cells)
    (h : a.product b = .ok p) :
    p.Sound cells ∧ p.extent = a.extent.join b.extent := by
  obtain ⟨disjoint, hnames, hrows⟩ := product_eq_ok h
  have nodup : (a.names ++ b.names).Nodup := hnames ▸ p.nodup_names
  have mem (row : Row) :
      row ∈ (a.rows.flatMap fun l => b.rows.map fun r => l ++ r) ↔
        ∃ l ∈ a.rows, ∃ r ∈ b.rows, row = l ++ r := by
    simp only [List.mem_flatMap, List.mem_map, eq_comm]
  have apart : Rows.Apart (a.rows.flatMap fun l => b.rows.map fun r => l ++ r) := by
    intro x hx y hy same
    obtain ⟨l, hl, r, hr, rfl⟩ := (mem x).mp hx
    obtain ⟨l', hl', r', hr', rfl⟩ := (mem y).mp hy
    have length : l.length = l'.length := (ha.arity l hl).trans (ha.arity l' hl').symm
    rw [Row.compare_append length, Ordering.then_eq_eq] at same
    rw [ha.wellFormed.apart l hl l' hl' same.1,
      hb.wellFormed.apart r hr r' hr' same.2]
  have mem' (row : Row) : row ∈ p.rows ↔ ∃ l ∈ a.rows, ∃ r ∈ b.rows, row = l ++ r := by
    rw [hrows, Rows.mem_ofInsertions apart, mem]
  refine ⟨⟨⟨fun row hrow => ?_, hrows ▸ Rows.ascending_ofInsertions _⟩, fun row hrow => ?_⟩,
    Extent.ext ?_ ?_⟩
  · obtain ⟨l, hl, r, hr, rfl⟩ := (mem' row).mp hrow
    change (l ++ r).length = p.names.length
    rw [hnames, List.length_append, List.length_append, ha.arity l hl, hb.arity r hr]
  · obtain ⟨l, hl, r, hr, rfl⟩ := (mem' row).mp hrow
    exact fun c hc => (List.mem_append.mp hc).elim (ha.inside l hl c) (hb.inside r hr c)
  · ext n
    change n ∈ p.names ↔ n ∈ a.names ∨ n ∈ b.names
    rw [hnames, List.mem_append]
  · have glued (l : Row) (hl : l ∈ a.rows) (r : Row) (hr : r ∈ b.rows) (w : Assignment) :=
      @glued_iff a.names b.names b.names nodup
        (fun n => ⟨fun hn => ⟨hn, fun h => disjoint n h hn⟩, fun hn => hn.1⟩) l r r b.nodup_names
        (ha.arity l hl) (hb.arity r hr) (fun _ _ => rfl) (hb.arity r hr)
        (fun n ha hb => absurd hb (disjoint n ha)) w
    ext w
    constructor
    · rintro ⟨row, hrow, rfl⟩
      obtain ⟨l, hl, r, hr, rfl⟩ := (mem' row).mp hrow
      rw [hnames]
      obtain ⟨covers, left, right⟩ := (glued l hl r hr _).mp rfl
      exact ⟨covers, ⟨l, hl, left⟩, r, hr, right⟩
    · rintro ⟨covers, ⟨l, hl, left⟩, r, hr, right⟩
      refine ⟨l ++ r, (mem' _).mpr ⟨l, hl, r, hr, rfl⟩, ?_⟩
      rw [hnames]
      exact (glued l hl r hr w).mpr ⟨covers, left, right⟩

end Relation

end RelationalAlgebra
