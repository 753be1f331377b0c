import Mathlib.Data.Set.Image
import RelationalAlgebra.Proofs.Relation.Joins
/-!
# Equal cells in place of each other

A recoding puts another cell in place of each cell and does not change how cells compare.  No operator asks
more of cells than how they compare, selections apart, so operators commute with recodings.  Of cells that
compare equal one can be chosen for all, and that choice is a recoding; after it rows that compare equal are
the same, and what is known of such relations carries over to all.
-/

namespace RelationalAlgebra

open Std (TransCmp)

/-! ## Recodings -/

/-- A change of cells that the order does not see.  Texts stay as they are, since missing cells are filled
with texts. -/
structure Cell.Recoding (f : Cell → Cell) : Prop where
  compare_eq (c d : Cell) : Cell.compare (f c) (f d) = Cell.compare c d
  text_eq (s : String) : f (.text s) = .text s

def Relation.recode (f : Cell → Cell) (r : Relation) : Relation := ⟨r.header, r.rows.map (List.map f)⟩

namespace Cell.Recoding

variable {f : Cell → Cell} (hf : Recoding f)

include hf

theorem row_compare_eq (a b : Row) : Row.compare (a.map f) (b.map f) = Row.compare a b := by
  induction a generalizing b with
  | nil => cases b <;> rfl
  | cons x xs ih =>
    cases b with
    | nil => rfl
    | cons y ys =>
      rw [List.map_cons, List.map_cons, Row.compare, Row.compare, hf.compare_eq, ih]

theorem same_eq (a b : Row) : Row.same (a.map f) (b.map f) = Row.same a b := by
  rw [Row.same, Row.same, hf.row_compare_eq]

/-! ## Sets of rows -/

theorem contains_map (rows : List Row) (row : Row) :
    Rows.contains (rows.map (List.map f)) (row.map f) = Rows.contains rows row := by
  rw [Rows.contains, Rows.contains, List.any_map]
  exact congrArg _ (funext fun r => hf.same_eq row r)

theorem keepFirst_map (row : Row) (rows : List Row) :
    Rows.keepFirst (row.map f) (rows.map (List.map f)) = (Rows.keepFirst row rows).map (List.map f) := by
  induction rows generalizing row with
  | nil => rfl
  | cons r rs ih =>
    rw [List.map_cons, Rows.keepFirst, Rows.keepFirst, hf.same_eq]
    split
    · exact ih row
    · rw [ih r, List.map_cons]

theorem keepLast_map (row : Row) (rows : List Row) :
    Rows.keepLast (row.map f) (rows.map (List.map f)) = (Rows.keepLast row rows).map (List.map f) := by
  induction rows generalizing row with
  | nil => rfl
  | cons r rs ih =>
    rw [List.map_cons, Rows.keepLast, Rows.keepLast, hf.same_eq]
    split
    · exact ih r
    · rw [ih r, List.map_cons]

theorem ascending_map (rows : List Row) :
    Rows.ascending (rows.map (List.map f)) = (Rows.ascending rows).map (List.map f) := by
  refine (List.map_mergeSort fun a _ b _ => ?_).symm
  rw [hf.row_compare_eq]

theorem ofInsertions_map (rows : List Row) :
    Rows.ofInsertions (rows.map (List.map f)) = (Rows.ofInsertions rows).map (List.map f) := by
  rw [Rows.ofInsertions, Rows.ofInsertions, hf.ascending_map]
  cases Rows.ascending rows with
  | nil => rfl
  | cons r rs => exact hf.keepFirst_map r rs

theorem collect_map (rows : List Row) :
    Rows.collect (rows.map (List.map f)) = (Rows.collect rows).map (List.map f) := by
  rw [Rows.collect, Rows.collect, hf.ascending_map]
  cases Rows.ascending rows with
  | nil => rfl
  | cons r rs => exact hf.keepLast_map r rs

theorem union_map (a b : Rows) : Rows.union (a.map (List.map f)) (b.map (List.map f)) =
    (Rows.union a b).map (List.map f) := by
  rw [Rows.union, Rows.union, ← List.map_append, hf.ofInsertions_map]

theorem begins_map (a b : Rows) :
    Rows.begins (a.map (List.map f)) (b.map (List.map f)) = Rows.begins a b := by
  rw [Rows.begins, Rows.begins, List.head?_map, List.getLast?_map]
  cases a.head? with
  | none => rfl
  | some first =>
    cases b.getLast? with
    | none => rfl
    | some last => exact hf.same_eq first last

theorem filter_contains_map (a b : Rows) :
    (a.map (List.map f)).filter (Rows.contains (b.map (List.map f))) =
      (a.filter b.contains).map (List.map f) := by
  rw [List.filter_map]
  exact congrArg _ (List.filter_congr fun row _ => hf.contains_map b row)

theorem intersection_map (a b : Rows) :
    Rows.intersection (a.map (List.map f)) (b.map (List.map f)) =
      (Rows.intersection a b).map (List.map f) := by
  rw [Rows.intersection, Rows.intersection, hf.begins_map, hf.begins_map, List.length_map,
    List.length_map, hf.filter_contains_map, hf.filter_contains_map]
  split
  · rfl
  · rfl

theorem difference_map (a b : Rows) :
    Rows.difference (a.map (List.map f)) (b.map (List.map f)) =
      (Rows.difference a b).map (List.map f) := by
  rw [Rows.difference, Rows.difference, List.filter_map]
  exact congrArg _ (List.filter_congr fun row _ => congrArg (!·) (hf.contains_map b row))

theorem equal_map (a b : Rows) :
    Rows.equal (a.map (List.map f)) (b.map (List.map f)) = Rows.equal a b := by
  induction a generalizing b with
  | nil => cases b <;> rfl
  | cons x xs ih =>
    cases b with
    | nil => rfl
    | cons y ys => rw [List.map_cons, List.map_cons, Rows.equal, Rows.equal, hf.same_eq, ih]

theorem getD_map (row : Row) (i : Nat) : (row.map f).getD i (.text "") = f (row.getD i (.text "")) := by
  rw [List.getD_eq_getElem?_getD, List.getD_eq_getElem?_getD, List.getElem?_map]
  cases row[i]? with
  | none => exact (hf.text_eq "").symm
  | some c => rfl

theorem pick_map (positions : List Nat) (row : Row) :
    Row.pick positions (row.map f) = (Row.pick positions row).map f := by
  rw [Row.pick, Row.pick, List.map_map]
  exact List.map_congr_left fun i _ => hf.getD_map row i

theorem map_pick_map (positions : List Nat) (rows : List Row) :
    (rows.map (List.map f)).map (Row.pick positions) =
      (rows.map (Row.pick positions)).map (List.map f) := by
  rw [List.map_map, List.map_map]
  exact List.map_congr_left fun row _ => hf.pick_map positions row

/-! ## Operators -/

section Operators

variable (a b r : Relation)

theorem align_recode (operation : String) : (a.recode f).align (b.recode f) operation =
    (a.align b operation).map (List.map (List.map f)) := by
  rw [Relation.align, Relation.align]
  change (if a.header.sameSet b.header then if a.header = b.header then _ else _ else _) = _
  by_cases alike : a.header.sameSet b.header = true
  · rw [if_pos alike, if_pos alike]
    by_cases same : a.header = b.header
    · rw [if_pos same, if_pos same]
      rfl
    · rw [if_neg same, if_neg same]
      change (b.header.positions a.names).map _ = _
      cases b.header.positions a.names with
      | error fault => rfl
      | ok positions =>
        refine congrArg Except.ok ?_
        change Rows.collect ((b.rows.map (List.map f)).map (Row.pick positions)) = _
        rw [hf.map_pick_map, hf.collect_map]
  · rw [if_neg alike, if_neg alike]
    rfl

theorem rearrange_recode (header : Header) :
    (r.recode f).rearrange header = (r.rearrange header).map (Relation.recode f) := by
  have aligned := hf.align_recode (.empty header) r "rearrange"
  rw [show (Relation.empty header).recode f = .empty header from rfl] at aligned
  rw [Relation.rearrange, Relation.rearrange, aligned]
  cases (Relation.empty header).align r "rearrange" <;> rfl

theorem equal_recode : (a.recode f).equal (b.recode f) = a.equal b := by
  rw [Relation.equal, Relation.equal, hf.align_recode]
  cases a.align b "comparison" with
  | error fault => rfl
  | ok rows => exact hf.equal_map rows a.rows

theorem projection_recode (names : List String) :
    (r.recode f).projection names = (r.projection names).map (Relation.recode f) := by
  rw [Relation.projection, Relation.projection]
  cases Relation.distinct names with
  | nil => rfl
  | cons n ns =>
    simp only [Relation.recode]
    cases r.header.positions (n :: ns) with
    | error fault => rfl
    | ok positions =>
      simp only [hf.map_pick_map, hf.collect_map]
      cases Header.ofNames? (n :: ns) <;> rfl

omit hf in
theorem rename_recode (map : Renaming) :
    (r.recode f).rename map = (r.rename map).map (Relation.recode f) := by
  rw [Relation.rename, Relation.rename, Relation.recode]
  cases r.header.rename map <;> rfl

theorem combined_recode {combine : Rows → Rows → Rows}
    (combine_map : ∀ a b, combine (a.map (List.map f)) (b.map (List.map f)) =
      (combine a b).map (List.map f)) (operation : String) :
    ((a.recode f).align (b.recode f) operation).map
        (fun rows => Relation.mk a.header (combine (a.recode f).rows rows)) =
      ((a.align b operation).map fun rows => Relation.mk a.header (combine a.rows rows)).map
        (Relation.recode f) := by
  rw [hf.align_recode]
  cases a.align b operation with
  | error fault => rfl
  | ok rows => exact congrArg (fun rows => Except.ok (Relation.mk a.header rows)) (combine_map a.rows rows)

theorem union_recode : (a.recode f).union (b.recode f) = (a.union b).map (Relation.recode f) :=
  hf.combined_recode a b hf.union_map "union"

theorem intersection_recode :
    (a.recode f).intersection (b.recode f) = (a.intersection b).map (Relation.recode f) :=
  hf.combined_recode a b hf.intersection_map "intersection"

theorem difference_recode :
    (a.recode f).difference (b.recode f) = (a.difference b).map (Relation.recode f) :=
  hf.combined_recode a b hf.difference_map "difference"

theorem product_recode :
    (a.recode f).product (b.recode f) = (a.product b).map (Relation.recode f) := by
  have rows : (a.rows.map (List.map f)).flatMap
      (fun l => (b.rows.map (List.map f)).map fun r => l ++ r) =
      (a.rows.flatMap fun l => b.rows.map fun r => l ++ r).map (List.map f) := by
    simp only [List.flatMap_map, List.map_flatMap, List.map_map]
    refine List.flatMap_congr fun l _ => List.map_congr_left fun r _ => ?_
    exact (List.map_append).symm
  simp only [Relation.product, Relation.recode, Relation.names]
  cases a.header.shared b.header with
  | nil =>
    simp only [rows, hf.ofInsertions_map]
    cases Header.ofNames? (a.header.names ++ b.header.names) <;> rfl
  | cons n ns => rfl

theorem agree_map (left right : Row) (is js : List Nat) :
    Relation.agree (left.map f) (right.map f) is js = Relation.agree left right is js := by
  induction is generalizing js with
  | nil => rfl
  | cons i is ih =>
    cases js with
    | nil => rfl
    | cons j js =>
      rw [Relation.agree, Relation.agree, hf.getD_map, hf.getD_map, hf.compare_eq, ih]

theorem joined_map (keep : Bool) (others : List Row) (is js rest : List Nat) (left : Row) :
    Relation.joined keep (others.map (List.map f)) is js rest (left.map f) =
      (Relation.joined keep others is js rest left).map (List.map f) := by
  have matched : (others.map (List.map f)).filter
      (fun right => Relation.agree (left.map f) right is js) =
      (others.filter fun right => Relation.agree left right is js).map (List.map f) := by
    rw [List.filter_map]
    exact congrArg _ (List.filter_congr fun right _ => hf.agree_map left right is js)
  have filled : (left.map f ++ rest.map fun _ => Relation.padding) =
      (left ++ rest.map fun _ => Relation.padding).map f := by
    rw [List.map_append, List.map_map]
    exact congrArg _ (List.map_congr_left fun _ _ => (hf.text_eq "---").symm)
  unfold Relation.joined
  simp only [matched, List.isEmpty_map, filled]
  split
  · rfl
  · rw [List.map_map, List.map_map]
    refine List.map_congr_left fun right _ => ?_
    rw [Function.comp_apply, Function.comp_apply, hf.pick_map, List.map_append]

theorem joinWith_recode (keep : Bool) : Relation.joinWith keep (a.recode f) (b.recode f) =
    (Relation.joinWith keep a b).map (Relation.recode f) := by
  have rows (is js rest : List Nat) : (a.rows.map (List.map f)).flatMap
      (Relation.joined keep (b.rows.map (List.map f)) is js rest) =
      (a.rows.flatMap (Relation.joined keep b.rows is js rest)).map (List.map f) := by
    rw [List.flatMap_map, List.map_flatMap]
    exact List.flatMap_congr fun left _ => hf.joined_map keep b.rows is js rest left
  unfold Relation.joinWith Relation.joinHeader
  simp only [Relation.recode, Relation.names, rows, hf.ofInsertions_map]
  cases a.header.positions (a.header.shared b.header) with
  | error fault => rfl
  | ok is =>
    cases b.header.positions (a.header.shared b.header) with
    | error fault => rfl
    | ok js => cases Header.ofNames? (a.header.names ++ a.header.extra b.header) <;> rfl

theorem rightJoin_recode :
    (a.recode f).rightJoin (b.recode f) = (a.rightJoin b).map (Relation.recode f) := by
  have mirrored := hf.joinWith_recode b a true
  have header : (a.recode f).joinHeader (b.recode f) = a.joinHeader b := rfl
  unfold Relation.rightJoin Relation.leftJoin
  rw [mirrored, header]
  cases Relation.joinWith true b a with
  | error fault => rfl
  | ok m =>
    cases a.joinHeader b with
    | error fault => rfl
    | ok header => exact hf.rearrange_recode m header

theorem fullJoin_recode :
    (a.recode f).fullJoin (b.recode f) = (a.fullJoin b).map (Relation.recode f) := by
  have left := hf.joinWith_recode a b true
  unfold Relation.fullJoin Relation.leftJoin
  rw [left, hf.rightJoin_recode]
  cases Relation.joinWith true a b with
  | error fault => rfl
  | ok l =>
    cases a.rightJoin b with
    | error fault => rfl
    | ok r => exact hf.union_recode l r

theorem division_recode :
    (a.recode f).division (b.recode f) = (a.division b).map (Relation.recode f) := by
  unfold Relation.division
  rw [show (a.recode f).header = a.header from rfl, show (b.recode f).header = b.header from rfl,
    show (a.recode f).names = a.names from rfl, show (b.recode f).names = b.names from rfl]
  cases b.names.find? fun n => !a.header.contains n with
  | some n => rfl
  | none =>
    cases a.names.filter fun n => !b.header.contains n with
    | nil => rfl
    | cons n ns =>
      simp only [hf.projection_recode]
      cases a.projection (n :: ns) with
      | error fault => rfl
      | ok candidates =>
        simp only [Except.map, bind, Except.bind, hf.product_recode]
        cases candidates.product b with
        | error fault => rfl
        | ok combined =>
          simp only [Except.map, hf.difference_recode]
          cases combined.difference a with
          | error fault => rfl
          | ok missing =>
            simp only [Except.map, hf.projection_recode]
            cases missing.projection (n :: ns) with
            | error fault => rfl
            | ok disqualified => exact hf.difference_recode candidates disqualified

theorem apply_recode (op : Query.Binary) :
    (a.recode f).apply op (b.recode f) = (a.apply op b).map (Relation.recode f) := by
  cases op with
  | product => exact hf.product_recode a b
  | difference => exact hf.difference_recode a b
  | union => exact hf.union_recode a b
  | intersection => exact hf.intersection_recode a b
  | division => exact hf.division_recode a b
  | join => exact hf.joinWith_recode a b false
  | leftJoin => exact hf.joinWith_recode a b true
  | rightJoin => exact hf.rightJoin_recode a b
  | fullJoin => exact hf.fullJoin_recode a b

end Operators

theorem wellFormed_recode_iff {r : Relation} : (r.recode f).WellFormed ↔ r.WellFormed := by
  have ascends : ((r.rows.map (List.map f)).Pairwise fun a b => Row.compare a b = .lt) ↔
      r.rows.Pairwise fun a b => Row.compare a b = .lt := by
    rw [List.pairwise_map]
    simp only [hf.row_compare_eq]
  have lengths : (∀ row ∈ r.rows.map (List.map f), row.length = r.header.size) ↔
      ∀ row ∈ r.rows, row.length = r.header.size := by
    simp only [List.forall_mem_map, List.length_map]
  exact ⟨fun h => ⟨lengths.mp h.arity, ascends.mp h.ascending⟩,
    fun h => ⟨lengths.mpr h.arity, ascends.mpr h.ascending⟩⟩

end Cell.Recoding

/-! ## Representatives -/

namespace Cell

def equals : Setoid Cell where
  r c d := Cell.compare c d = .eq
  iseqv := ⟨fun _ => Std.ReflCmp.compare_self, Std.OrientedCmp.eq_symm, TransCmp.eq_trans⟩

/-- The cell that stands for all cells equal to a cell. -/
noncomputable def representative (c : Cell) : Cell := (Quotient.mk equals c).out

theorem compare_representative (c : Cell) : Cell.compare c.representative c = .eq :=
  Quotient.mk_out (s := equals) c

theorem representative_eq {c d : Cell} (h : Cell.compare c d = .eq) :
    c.representative = d.representative :=
  congrArg Quotient.out (Quotient.sound (s := equals) h)

theorem recoding_representative : Recoding representative where
  compare_eq c d := by
    rw [TransCmp.congr_left (compare_representative c), TransCmp.congr_right (compare_representative d)]
  text_eq s := by
    have same : Cell.compare (text s) (text s).representative = .eq :=
      Std.OrientedCmp.eq_symm (compare_representative _)
    exact (eq_of_compare_text same).symm

theorem separated_representatives : Separated (Set.range representative) := by
  rintro _ ⟨c, rfl⟩ _ ⟨d, rfl⟩ h
  rw [recoding_representative.compare_eq] at h
  exact representative_eq h

theorem padding_mem_representatives : Relation.padding ∈ Set.range representative :=
  ⟨Relation.padding, recoding_representative.text_eq "---"⟩

end Cell

/-- Of rows that the order does not tell apart one is kept. -/
theorem Rows.exists_equal_of_mem {rows : List Row} {row : Row} (h : row ∈ rows) :
    ∃ kept ∈ collect rows, Row.compare row kept = .eq := by
  have inside : Over (Set.range Cell.representative) (rows.map (List.map Cell.representative)) := by
    intro image himage c hc
    obtain ⟨row, -, rfl⟩ := List.mem_map.mp himage
    obtain ⟨d, -, rfl⟩ := List.mem_map.mp hc
    exact ⟨d, rfl⟩
  have member := (mem_collect (inside.apart Cell.separated_representatives)).mpr (List.mem_map_of_mem h)
  rw [Cell.recoding_representative.collect_map] at member
  obtain ⟨kept, hkept, same⟩ := List.mem_map.mp member
  refine ⟨kept, hkept, ?_⟩
  rw [← Cell.recoding_representative.row_compare_eq, same]
  exact Row.compare_self _

namespace Relation

open Cell (representative recoding_representative separated_representatives padding_mem_representatives)

/-- The relation with one cell for all cells that are equal. -/
noncomputable def represented (r : Relation) : Relation := r.recode representative

theorem WellFormed.represented {r : Relation} (h : r.WellFormed) :
    r.represented.Sound (Set.range representative) := by
  refine ⟨recoding_representative.wellFormed_recode_iff.mpr h, fun row hrow c hc => ?_⟩
  obtain ⟨row, -, rfl⟩ := List.mem_map.mp hrow
  obtain ⟨d, -, rfl⟩ := List.mem_map.mp hc
  exact ⟨d, rfl⟩

theorem represented_apply {op : Query.Binary} {a b p : Relation} (ha : a.WellFormed) (hb : b.WellFormed)
    (h : a.apply op b = .ok p) :
    p.WellFormed ∧ p.represented.extent = a.represented.extent.apply op b.represented.extent := by
  have result : a.represented.apply op b.represented = .ok p.represented := by
    rw [represented, represented, recoding_representative.apply_recode, h]
    rfl
  obtain ⟨sound, extent⟩ := apply_spec separated_representatives padding_mem_representatives
    ha.represented hb.represented result
  exact ⟨recoding_representative.wellFormed_recode_iff.mp sound.wellFormed, extent⟩

theorem represented_projection {r p : Relation} {names : List String} (hr : r.WellFormed)
    (h : r.projection names = .ok p) :
    p.WellFormed ∧ p.represented.extent = r.represented.extent.project {n | n ∈ names} := by
  have result : r.represented.projection names = .ok p.represented := by
    rw [represented, recoding_representative.projection_recode, h]
    rfl
  obtain ⟨sound, extent⟩ := projection_spec separated_representatives hr.represented result
  exact ⟨recoding_representative.wellFormed_recode_iff.mp sound.wellFormed, extent⟩

theorem represented_rename {r p : Relation} {map : Renaming} (hr : r.WellFormed)
    (h : r.rename map = .ok p) :
    p.WellFormed ∧ p.represented.extent = r.represented.extent.rename map.apply := by
  have result : r.represented.rename map = .ok p.represented := by
    rw [represented, Cell.Recoding.rename_recode, h]
    rfl
  obtain ⟨sound, extent⟩ := rename_spec hr.represented result
  exact ⟨recoding_representative.wellFormed_recode_iff.mp sound.wellFormed, extent⟩

end Relation

end RelationalAlgebra
