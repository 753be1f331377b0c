import Mathlib.Data.List.Forall2
import Mathlib.Data.Set.Basic
import RelationalAlgebra.Proofs.Relation.Order
import RelationalAlgebra.Relation.Rows
/-!
# Members of sets of rows

Rows are apart when those of them that compare equal are the same; each operation on sets of rows then has
the members that its name says.  A set of cells is separated when cells of it that compare equal are the
same, and rows over separated cells are apart.
-/

namespace RelationalAlgebra

open Std (TransCmp OrientedCmp)

/-- Cells that compare equal are the same. -/
def Cell.Separated (cells : Set Cell) : Prop :=
  ∀ c ∈ cells, ∀ d ∈ cells, Cell.compare c d = .eq → c = d

def Row.Over (cells : Set Cell) (row : Row) : Prop := ∀ c ∈ row, c ∈ cells

namespace Rows

def Over (cells : Set Cell) (rows : List Row) : Prop := ∀ row ∈ rows, row.Over cells

def Apart (rows : List Row) : Prop := ∀ a ∈ rows, ∀ b ∈ rows, Row.compare a b = .eq → a = b

def Ascending (rows : List Row) : Prop := rows.Pairwise fun a b => Row.compare a b = .lt

end Rows

theorem Row.compare_self (a : Row) : Row.compare a a = .eq := Std.ReflCmp.compare_self

theorem Row.compare_swap (a b : Row) : Row.compare a b = (Row.compare b a).swap := OrientedCmp.eq_swap

namespace Rows

theorem Apart.of_subset {rows others : List Row} (h : Apart rows) (sub : ∀ x ∈ others, x ∈ rows) :
    Apart others :=
  fun a ha b hb => h a (sub a ha) b (sub b hb)

theorem mem_ascending {rows : List Row} {x : Row} : x ∈ ascending rows ↔ x ∈ rows :=
  (List.mergeSort_perm rows _).mem_iff

theorem Apart.sorted {rows : List Row} (h : Apart rows) : Apart (ascending rows) :=
  h.of_subset fun _ => mem_ascending.mp

/-! ## One of equal neighbours -/

/-- The second list is the first one without all but one of the rows of each stretch of equal ones. -/
inductive Condenses : List Row → Rows → Prop
  | nil : Condenses [] []
  | single (row : Row) : Condenses [row] [row]
  | first {row r : Row} {rows : List Row} {kept : Rows} (same : Row.same row r = true)
      (h : Condenses (row :: rows) kept) : Condenses (row :: r :: rows) kept
  | last {row r : Row} {rows : List Row} {kept : Rows} (same : Row.same row r = true)
      (h : Condenses (r :: rows) kept) : Condenses (row :: r :: rows) kept
  | both {row r : Row} {rows : List Row} {kept : Rows} (differ : ¬Row.same row r = true)
      (h : Condenses (r :: rows) kept) : Condenses (row :: r :: rows) (row :: kept)

theorem condenses_keepFirst (row : Row) (rows : List Row) :
    Condenses (row :: rows) (keepFirst row rows) := by
  induction rows generalizing row with
  | nil => exact .single row
  | cons r rs ih =>
    rw [keepFirst]
    split
    · next same => exact .first same (ih row)
    · next differ => exact .both differ (ih r)

theorem condenses_keepLast (row : Row) (rows : List Row) :
    Condenses (row :: rows) (keepLast row rows) := by
  induction rows generalizing row with
  | nil => exact .single row
  | cons r rs ih =>
    rw [keepLast]
    split
    · next same => exact .last same (ih r)
    · next differ => exact .both differ (ih r)

theorem condenses_ofInsertions (rows : List Row) : Condenses (ascending rows) (ofInsertions rows) := by
  rw [ofInsertions]
  split
  · next none =>
    rw [none]
    exact .nil
  · next r rs some =>
    rw [some]
    exact condenses_keepFirst r rs

theorem condenses_collect (rows : List Row) : Condenses (ascending rows) (collect rows) := by
  rw [collect]
  split
  · next none =>
    rw [none]
    exact .nil
  · next r rs some =>
    rw [some]
    exact condenses_keepLast r rs

namespace Condenses

variable {rows : List Row} {kept : Rows}

theorem sublist (h : Condenses rows kept) : kept.Sublist rows := by
  induction h with
  | nil => exact .slnil
  | single row => exact .refl _
  | first same h ih => exact ih.trans ((List.sublist_cons_self _ _).cons_cons _)
  | last same h ih => exact ih.cons _
  | both differ h ih => exact ih.cons_cons _

theorem mem_iff (h : Condenses rows kept) (apart : Apart rows) {x : Row} : x ∈ kept ↔ x ∈ rows := by
  induction h with
  | nil => exact Iff.rfl
  | single row => exact Iff.rfl
  | @first row r rows kept same h ih =>
    obtain rfl := apart row (by simp) r (by simp) (by simpa [Row.same] using same)
    rw [ih (apart.of_subset fun y hy => List.mem_cons_of_mem _ hy)]
    simp
  | @last row r rows kept same h ih =>
    obtain rfl := apart row (by simp) r (by simp) (by simpa [Row.same] using same)
    rw [ih (apart.of_subset fun y hy => List.mem_cons_of_mem _ hy)]
    simp
  | both differ h ih =>
    rw [List.mem_cons, ih (apart.of_subset fun y hy => List.mem_cons_of_mem _ hy), ← List.mem_cons]

end Condenses

theorem mem_ofInsertions {rows : List Row} (h : Apart rows) {x : Row} :
    x ∈ ofInsertions rows ↔ x ∈ rows :=
  ((condenses_ofInsertions rows).mem_iff h.sorted).trans mem_ascending

theorem mem_collect {rows : List Row} (h : Apart rows) {x : Row} : x ∈ collect rows ↔ x ∈ rows :=
  ((condenses_collect rows).mem_iff h.sorted).trans mem_ascending

theorem mem_of_mem_ofInsertions {rows : List Row} {row : Row} (h : row ∈ ofInsertions rows) :
    row ∈ rows :=
  mem_ascending.mp ((condenses_ofInsertions rows).sublist.mem h)

theorem mem_of_mem_collect {rows : List Row} {row : Row} (h : row ∈ collect rows) : row ∈ rows :=
  mem_ascending.mp ((condenses_collect rows).sublist.mem h)

end Rows

theorem Row.compare_eq_iff {a b : Row} :
    Row.compare a b = .eq ↔ List.Forall₂ (fun c d => Cell.compare c d = .eq) a b := by
  induction a generalizing b with
  | nil => cases b with
    | nil => exact ⟨fun _ => .nil, fun _ => rfl⟩
    | cons y ys => exact ⟨fun h => (nomatch h), fun h => (nomatch h)⟩
  | cons x xs ih =>
    cases b with
    | nil => exact ⟨fun h => (nomatch h), fun h => (nomatch h)⟩
    | cons y ys => rw [Row.compare, Ordering.then_eq_eq, ih, List.forall₂_cons]

theorem Row.compare_getElem? {a b : Row} (h : Row.compare a b = .eq) {i : Nat} {c d : Cell}
    (hc : a[i]? = some c) (hd : b[i]? = some d) : Cell.compare c d = .eq := by
  obtain ⟨ha, rfl⟩ := List.getElem?_eq_some_iff.mp hc
  obtain ⟨hb, rfl⟩ := List.getElem?_eq_some_iff.mp hd
  exact (List.forall₂_iff_get.mp (Row.compare_eq_iff.mp h)).2 i ha hb

theorem Row.compare_append {a a' b b' : Row} (length : a.length = a'.length) :
    Row.compare (a ++ b) (a' ++ b') = (Row.compare a a').then (Row.compare b b') := by
  induction a generalizing a' with
  | nil =>
    obtain rfl := List.eq_nil_of_length_eq_zero length.symm
    rfl
  | cons x xs ih =>
    cases a' with
    | nil => cases length
    | cons y ys =>
      rw [List.cons_append, List.cons_append, Row.compare, Row.compare, ih (Nat.succ.inj length),
        Ordering.then_assoc]

theorem Rows.intersection_cases (a b : Rows) :
    intersection a b = b.filter a.contains ∨ intersection a b = a.filter b.contains := by
  unfold intersection
  split
  · exact .inl rfl
  · exact .inr rfl

section Separated

variable {cells : Set Cell}

theorem Row.eq_of_compare (separated : Cell.Separated cells) {a b : Row} (ha : a.Over cells)
    (hb : b.Over cells) (h : Row.compare a b = .eq) : a = b := by
  induction a generalizing b with
  | nil => cases b with
    | nil => rfl
    | cons y ys => cases h
  | cons x xs ih =>
    cases b with
    | nil => cases h
    | cons y ys =>
      rw [Row.compare, Ordering.then_eq_eq] at h
      obtain rfl := separated x (ha x (by simp)) y (hb y (by simp)) h.1
      rw [ih (fun c hc => ha c (by simp [hc])) (fun c hc => hb c (by simp [hc])) h.2]

theorem Row.same_iff (separated : Cell.Separated cells) {a b : Row} (ha : a.Over cells)
    (hb : b.Over cells) : Row.same a b = true ↔ a = b := by
  rw [Row.same, decide_eq_true_eq]
  constructor
  · exact Row.eq_of_compare separated ha hb
  · rintro rfl
    exact Row.compare_self a

namespace Rows

theorem contains_iff (separated : Cell.Separated cells) {rows : List Row} (hrows : Over cells rows)
    {row : Row} (hrow : row.Over cells) : contains rows row = true ↔ row ∈ rows := by
  rw [contains, List.any_eq_true]
  constructor
  · rintro ⟨r, hr, same⟩
    rwa [(Row.same_iff separated hrow (hrows r hr)).mp same]
  · intro h
    exact ⟨row, h, (Row.same_iff separated hrow hrow).mpr rfl⟩

theorem Over.apart {rows : List Row} (h : Over cells rows) (separated : Cell.Separated cells) :
    Apart rows :=
  fun _ ha _ hb => Row.eq_of_compare separated (h _ ha) (h _ hb)

theorem eq_of_equal (separated : Cell.Separated cells) {a b : Rows} (ha : Over cells a)
    (hb : Over cells b) (h : equal a b = true) : a = b := by
  induction a generalizing b with
  | nil => cases b with
    | nil => rfl
    | cons y ys => cases h
  | cons x xs ih =>
    cases b with
    | nil => cases h
    | cons y ys =>
      rw [equal, Bool.and_eq_true, Row.same, decide_eq_true_eq] at h
      obtain rfl := Row.eq_of_compare separated (ha x (by simp)) (hb y (by simp)) h.1
      rw [ih (fun row hrow => ha row (by simp [hrow])) (fun row hrow => hb row (by simp [hrow])) h.2]

theorem mem_union (separated : Cell.Separated cells) {a b : List Row} (ha : Over cells a)
    (hb : Over cells b) {x : Row} : x ∈ union a b ↔ x ∈ a ∨ x ∈ b := by
  have inside : Over cells (a ++ b) := by
    intro row hrow
    rcases List.mem_append.mp hrow with h | h
    · exact ha row h
    · exact hb row h
  rw [union, mem_ofInsertions (inside.apart separated), List.mem_append]

theorem mem_intersection (separated : Cell.Separated cells) {a b : List Row} (ha : Over cells a)
    (hb : Over cells b) {x : Row} : x ∈ intersection a b ↔ x ∈ a ∧ x ∈ b := by
  rcases intersection_cases a b with same | same
  · rw [same, List.mem_filter, and_comm]
    exact and_congr_left fun hx => contains_iff separated ha (hb x hx)
  · rw [same, List.mem_filter]
    exact and_congr_right fun hx => contains_iff separated hb (ha x hx)

theorem mem_difference (separated : Cell.Separated cells) {a b : List Row} (ha : Over cells a)
    (hb : Over cells b) {x : Row} : x ∈ difference a b ↔ x ∈ a ∧ x ∉ b := by
  rw [difference, List.mem_filter]
  refine and_congr_right fun hx => ?_
  rw [Bool.not_eq_true', ← Bool.not_eq_true, contains_iff separated hb (ha x hx)]

end Rows

end Separated

namespace Rows

/-! ## Ascending rows -/

def Sorted (rows : List Row) : Prop := rows.Pairwise fun a b => Row.compare a b ≠ .gt

theorem isLE_iff {o : Ordering} : o.isLE = true ↔ o ≠ .gt := by
  cases o <;> decide

theorem sorted_ascending (rows : List Row) : Sorted (ascending rows) := by
  have trans (a b c : Row) (hab : decide (Row.compare a b ≠ .gt) = true)
      (hbc : decide (Row.compare b c ≠ .gt) = true) : decide (Row.compare a c ≠ .gt) = true := by
    rw [decide_eq_true_eq, ← isLE_iff] at hab hbc ⊢
    exact TransCmp.isLE_trans hab hbc
  have total (a b : Row) :
      (decide (Row.compare a b ≠ .gt) || decide (Row.compare b a ≠ .gt)) = true := by
    rw [Row.compare_swap b a]
    cases Row.compare a b <;> rfl
  have sorted := List.pairwise_mergeSort trans total rows
  simpa [Sorted, ascending] using sorted

theorem lt_of_le_of_ne {a b c : Row} (hab : Row.compare a b = .lt) (hbc : Row.compare b c ≠ .gt) :
    Row.compare a c = .lt :=
  TransCmp.lt_of_lt_of_isLE hab (isLE_iff.mpr hbc)

theorem lt_of_not_same {a b : Row} (le : Row.compare a b ≠ .gt) (differ : ¬Row.same a b = true) :
    Row.compare a b = .lt := by
  rw [Row.same, decide_eq_true_eq] at differ
  cases h : Row.compare a b with
  | lt => rfl
  | eq => exact absurd h differ
  | gt => exact absurd h le

theorem Condenses.ascending {rows : List Row} {kept : Rows} (h : Condenses rows kept)
    (sorted : Sorted rows) : Ascending kept := by
  induction h with
  | nil => exact List.Pairwise.nil
  | single row => exact List.pairwise_singleton _ _
  | first same h ih => exact ih (sorted.sublist ((List.sublist_cons_self _ _).cons_cons _))
  | last same h ih => exact ih (List.pairwise_cons.mp sorted).2
  | @both row r rows kept differ h ih =>
    obtain ⟨least, later⟩ := List.pairwise_cons.mp sorted
    have lt := lt_of_not_same (least r (List.mem_cons_self ..)) differ
    refine List.pairwise_cons.mpr ⟨fun x hx => ?_, ih later⟩
    rcases List.mem_cons.mp (h.sublist.mem hx) with rfl | hx
    · exact lt
    · exact lt_of_le_of_ne lt ((List.pairwise_cons.mp later).1 x hx)

theorem ascending_ofInsertions (rows : List Row) : Ascending (ofInsertions rows) :=
  (condenses_ofInsertions rows).ascending (sorted_ascending rows)

theorem ascending_collect (rows : List Row) : Ascending (collect rows) :=
  (condenses_collect rows).ascending (sorted_ascending rows)

theorem ascending_filter {rows : List Row} (h : Ascending rows) (p : Row → Bool) :
    Ascending (rows.filter p) := h.sublist List.filter_sublist

theorem ascending_intersection {a b : Rows} (ha : Ascending a) (hb : Ascending b) :
    Ascending (intersection a b) := by
  rcases intersection_cases a b with same | same
  · rw [same]
    exact ascending_filter hb _
  · rw [same]
    exact ascending_filter ha _

theorem Ascending.apart {rows : List Row} (h : Ascending rows) : Apart rows := by
  have rel : rows.Pairwise fun a b => Row.compare a b = .eq → a = b :=
    h.imp fun lt eq => by cases lt.symm.trans eq
  have flipped : rows.Pairwise (flip fun a b => Row.compare a b = .eq → a = b) := by
    refine h.imp fun {a b} lt eq => ?_
    rw [Row.compare_swap, lt] at eq
    cases eq
  intro a ha b hb
  exact List.Pairwise.forall_of_forall_of_flip (fun _ _ _ => rfl) rel flipped ha hb

theorem Ascending.nodup {rows : List Row} (h : Ascending rows) : rows.Nodup := by
  refine h.imp ?_
  rintro a b lt rfl
  rw [Row.compare_self] at lt
  cases lt

theorem eq_of_mem_iff {a b : List Row} (ha : Ascending a) (hb : Ascending b)
    (h : ∀ x, x ∈ a ↔ x ∈ b) : a = b := by
  refine List.Perm.eq_of_pairwise ?_ ha hb
    ((List.perm_ext_iff_of_nodup ha.nodup hb.nodup).mpr h)
  intro x y _ _ lt gt
  rw [Row.compare_swap, gt] at lt
  cases lt

theorem equal_self (rows : Rows) : equal rows rows = true := by
  induction rows with
  | nil => rfl
  | cons r rs ih =>
    rw [equal, ih, Row.same, Row.compare_self]
    rfl

end Rows

end RelationalAlgebra
