import RelationalAlgebra.Proofs.Predicate.Clauses
import RelationalAlgebra.Proofs.Predicate.Numbers
import RelationalAlgebra.Proofs.Relation.Contents
/-!
# Selections that match columns

A selection of a product can ask that two columns are equal, as a natural join does once they have one name.
Where both are columns of numbers the selection keeps all pairs of rows that the join matches, and those that it
takes for equal because an integer is rounded.
-/

namespace RelationalAlgebra

namespace Predicate

/-! ## Equations between attributes -/

def equation (x y : String) : Formula := .compare (.attribute x none) (.link .equal (.attribute y none) .nil)

theorem lexes_name {n : String} (valid : Name.isValid n = true) : Lexes n.toList [.name n] := by
  obtain ⟨c, w, heq, -, begins⟩ := begins_name valid
  have lexes := Lexes.of_begins (begins [] rfl) (.blanks (by simp))
  rwa [List.append_nil, ← heq] at lexes

theorem lexes_equal : Lexes "==".toList [.symbol .equal] := by
  obtain ⟨ts, scanned, rfl⟩ : ∃ ts, Lexeme.scan "==".toList = .ok ts ∧ ts = _ := ⟨_, rfl, rfl⟩
  exact lexes_of_scan scanned

theorem reads_equation {x y : String} (hx : Name.isValid x = true) (hy : Name.isValid y = true) :
    Reads (x ++ " == " ++ y) (equation x y) := by
  have operand (n : String) : Derives [.name n] (.formula .sum (.attribute n none)) :=
    .of_tighter (by decide) (.of_tighter (by decide) (.of_tighter (by decide) (.bare n)))
  have comparison : Derives [.name x, .symbol .equal, .name y] (.formula .comparison (equation x y)) :=
    .compared (operand x) (.link rfl (operand y) .done)
  have negation : Derives [.name x, .symbol .equal, .name y] (.formula .negation (equation x y)) :=
    .of_tighter (by decide) comparison
  refine reads_iff.mpr ⟨_, ?_, negation.conjunction_of_negation.disjunction_of_conjunction⟩
  have spelled : " == ".toList = ' ' :: ("==".toList ++ [' ']) := by decide
  rw [String.toList_append, String.toList_append, List.append_assoc, spelled]
  exact (lexes_name hx).append_space (lexes_equal.append_space (lexes_name hy))

theorem truth?_equation {look : String → Option Cell} {x y : String} {c d : Cell} (hc : look x = some c)
    (hd : look y = some d) :
    (equation x y).truth? look = (Comparison.equal.test (.ofCell c) (.ofCell d)).toOption := by
  rw [Formula.truth?, equation, value?_compare, value?_attribute, hc]
  simp only [Option.bind_some, value?_link, value?_attribute, hd]
  cases Comparison.equal.test (.ofCell c) (.ofCell d) with
  | error fault => rfl
  | ok b => cases b <;> rfl

end Predicate

namespace Relation

open Cell (Confused IsNumber)
open Predicate (cell? equation Reads Formula)

variable {a b p q j : Relation} {x y : String} {l r : Row} {c d : Cell}

def column (r : Relation) (name : String) : Set Cell := {c | ∃ row ∈ r.rows, cell? r.names row name = some c}

theorem covers_row (ha : a.WellFormed) (hl : l ∈ a.rows) : Assignment.Covers a.attributes (cell? a.names l) :=
  ha.sound.proper _ ⟨l, hl, rfl⟩

theorem exists_cell (ha : a.WellFormed) (hl : l ∈ a.rows) (hx : x ∈ a.names) :
    ∃ c ∈ a.column x, cell? a.names l x = some c := by
  obtain ⟨c, hc⟩ := Option.isSome_iff_exists.mp ((covers_row ha hl x).mpr hx)
  exact ⟨c, ⟨l, hl, hc⟩, hc⟩

/-! ## Pairs that a selection keeps -/

theorem mem_rows_product (ha : a.WellFormed) (hb : b.WellFormed) (hq : a.product b = .ok q) (hl : l ∈ a.rows)
    (hr : r ∈ b.rows) : l ++ r ∈ q.rows ∧
      Assignment.restrict a.attributes (cell? q.names (l ++ r)) = cell? a.names l ∧
      Assignment.restrict b.attributes (cell? q.names (l ++ r)) = cell? b.names r := by
  obtain ⟨sound, extent⟩ := product_spec ha.sound hb.sound hq
  obtain ⟨apart, names, -⟩ := product_eq_ok hq
  have length : (l ++ r).length = q.names.length := by
    rw [names, List.length_append, List.length_append, ha.sound.arity l hl, hb.sound.arity r hr]
  have cells : cell? q.names (l ++ r) = Assignment.merge (cell? a.names l) (cell? b.names r) := by
    rw [names]
    exact funext (cell?_append (names ▸ q.nodup_names) (ha.sound.arity l hl))
  have left : Assignment.restrict a.attributes (cell? q.names (l ++ r)) = cell? a.names l :=
    cells ▸ Assignment.restrict_merge_left (covers_row ha hl)
  have right : Assignment.restrict b.attributes (cell? q.names (l ++ r)) = cell? b.names r :=
    cells ▸ Assignment.restrict_merge_right (covers_row ha hl) (covers_row hb hr) apart
  have inside : cell? q.names (l ++ r) ∈ q.extent.rows := by
    rw [extent]
    exact ⟨cells ▸ (covers_row ha hl).merge (covers_row hb hr), ⟨l, hl, left⟩, r, hr, right⟩
  exact ⟨(cell?_mem_assignments q.nodup_names sound.arity length).mp inside, left, right⟩

theorem selection_of_reads {text : String} {f : Formula} (reads : Reads text f) (r : Relation) :
    r.selection text = r.filter ⟨Text.trimmed text, f⟩ := by
  have parsed : Formula.ofText? text.toList = .ok f := reads
  rw [selection, clause?, Predicate.Clause.ofText?, parsed]
  rfl

section Numbers

variable (ha : a.WellFormed) (hb : b.WellFormed) (hx : x ∈ a.names) (hy : y ∈ b.names)
  (numbersX : ∀ c ∈ a.column x, c.IsNumber) (numbersY : ∀ d ∈ b.column y, d.IsNumber)

include ha hb hx hy numbersX numbersY

/-- The selection keeps the pairs of rows whose numbers are equal or confused. -/
theorem exists_selection (hq : a.product b = .ok q) : ∃ p, q.selection (x ++ " == " ++ y) = .ok p ∧
    ∀ l ∈ a.rows, ∀ r ∈ b.rows, ∀ c d, cell? a.names l x = some c → cell? b.names r y = some d →
      (l ++ r ∈ p.rows ↔ c.compare d = .eq ∨ Confused c d) := by
  obtain ⟨-, extent⟩ := product_spec ha.sound hb.sound hq
  have answered {w : Assignment} {c d : Cell} (hc : c ∈ a.column x) (hd : d ∈ b.column y) (atX : w x = some c)
      (atY : w y = some d) :
      ∃ t, (equation x y).truth? w = some t ∧ (t = true ↔ c.compare d = .eq ∨ Confused c d) := by
    obtain ⟨t, test, truth⟩ := Cell.test_equal_iff (numbersX c hc) (numbersY d hd)
    refine ⟨t, ?_, truth⟩
    rw [Predicate.truth?_equation atX atY, test]
    rfl
  have reads := Predicate.reads_equation (a.header.valid x hx) (b.header.valid y hy)
  obtain ⟨p, hp⟩ : ∃ p, q.filter ⟨Text.trimmed (x ++ " == " ++ y), equation x y⟩ = .ok p := by
    refine exists_filter_iff.mpr fun w hw => ?_
    rw [extent] at hw
    obtain ⟨-, ⟨l, hl, left⟩, r, hr, right⟩ := hw
    obtain ⟨c, hc, atX⟩ := exists_cell ha hl hx
    obtain ⟨d, hd, atY⟩ := exists_cell hb hr hy
    rw [← left, Assignment.restrict_of_mem hx] at atX
    rw [← right, Assignment.restrict_of_mem hy] at atY
    obtain ⟨t, truth, -⟩ := answered hc hd atX atY
    rw [truth]
    rfl
  refine ⟨p, (selection_of_reads reads q).trans hp, fun l hl r hr c d atX atY => ?_⟩
  obtain ⟨kept, hkept, rfl⟩ := map_eq_ok.mp hp
  obtain ⟨-, rfl⟩ := matching_eq_ok_iff.mp hkept
  obtain ⟨inside, left, right⟩ := mem_rows_product ha hb hq hl hr
  have pairX : cell? q.names (l ++ r) x = some c := by
    rw [← atX, ← left, Assignment.restrict_of_mem hx]
  have pairY : cell? q.names (l ++ r) y = some d := by
    rw [← atY, ← right, Assignment.restrict_of_mem hy]
  obtain ⟨t, truth, kept⟩ := answered ⟨l, hl, atX⟩ ⟨r, hr, atY⟩ pairX pairY
  rw [← kept, ← Predicate.holds_of_truth? _ truth]
  exact List.mem_filter.trans (and_iff_right inside)

end Numbers

/-! ## Pairs that a join matches -/

/-- A row of a join of two relations is made of these rows of them. -/
def MadeOf (a b j : Relation) (left right : Row) : Prop :=
  ∃ w ∈ j.contents.rows, (w.restrict a.attributes).Same (cell? a.names left) ∧
    (w.restrict b.attributes).Same (cell? b.names right)

/-- The join matches two rows that have equal cells under all names they share. -/
theorem madeOf_iff (ha : a.WellFormed) (hb : b.WellFormed) (hj : a.join b = .ok j) (hl : l ∈ a.rows)
    (hr : r ∈ b.rows) : MadeOf a b j l r ↔ ∀ n ∈ a.names, n ∈ b.names →
      Assignment.represent (cell? a.names l) n = Assignment.represent (cell? b.names r) n := by
  have contents : j.contents = a.contents.join b.contents := (@contents_apply _ _ _ .join ha hb hj).2
  rw [MadeOf, contents]
  constructor
  · rintro ⟨w, -, left, right⟩ n inLeft inRight
    rw [← Assignment.represent_of_same left inLeft, ← Assignment.represent_of_same right inRight]
  · intro agree
    have coversLeft := covers_row ha hl
    have coversRight := covers_row hb hr
    let w := Assignment.merge (cell? a.names l) (cell? b.names r)
    have left : (w.restrict a.attributes).Same (cell? a.names l) := by
      rw [Assignment.restrict_merge_left coversLeft]
      exact Assignment.same_iff_represent.mpr rfl
    have right : (w.restrict b.attributes).Same (cell? b.names r) := by
      rw [Assignment.same_iff_represent, Assignment.represent_restrict, Assignment.represent_merge]
      refine (Assignment.restrict_eq_iff (Assignment.covers_represent.mpr coversRight)).mpr fun n inRight => ?_
      by_cases inLeft : n ∈ a.names
      · rw [← agree n inLeft inRight, Assignment.merge, agree n inLeft inRight, Option.or_self]
      · rw [Assignment.merge, (Assignment.covers_represent.mpr coversLeft).eq_none inLeft, Option.none_or]
    exact ⟨w, ⟨coversLeft.merge coversRight, ⟨_, ⟨l, hl, rfl⟩, left⟩, _, ⟨r, hr, rfl⟩, right⟩, left, right⟩

/-! ## Selections and joins -/

theorem apply_single (x y n : String) :
    Renaming.apply (Name.Map.empty.insert y x) n = if n = y then x else n := by
  rw [Renaming.apply, Name.Map.get?_insert]
  split <;> rfl

section Meeting

variable (ha : a.WellFormed) (hb : b.WellFormed) (disjoint : ∀ n ∈ a.names, n ∉ b.names)
  (hx : x ∈ a.names) (hy : y ∈ b.names)

include disjoint hx hy

theorem exists_rename_single : ∃ p, b.rename (Name.Map.empty.insert y x) = .ok p := by
  have fresh : x ∉ b.names := disjoint x hx
  refine exists_rename_iff.mpr ⟨fun n hn => ?_, ?_, fun n hn => ?_⟩
  · obtain rfl : n = y := by simpa [Name.Map.keys, Name.Map.insert, Name.Map.empty, Name.insertEntry] using hn
    exact hy
  · refine b.nodup_names.map_on fun m hm n hn same => ?_
    rw [apply_single, apply_single] at same
    split at same <;> split at same <;> simp_all
  · rw [apply_single]
    split
    · exact a.header.valid x hx
    · exact b.header.valid n hn

include ha hb

/-- With the second column called as the first one, the join matches the pairs of rows that have equal cells. -/
theorem madeOf_renamed_iff (hp : b.rename (Name.Map.empty.insert y x) = .ok p) (hj : a.join p = .ok j)
    (hl : l ∈ a.rows) (hr : r ∈ b.rows) (hc : cell? a.names l x = some c) (hd : cell? b.names r y = some d) :
    MadeOf a p j l r ↔ c.compare d = .eq := by
  obtain ⟨names, rows⟩ := rename_eq_ok hp
  have toX : Renaming.apply (Name.Map.empty.insert y x) y = x := (apply_single x y y).trans (if_pos rfl)
  have shared : x ∈ p.names := by
    rw [names]
    exact List.mem_map.mpr ⟨y, hy, toX⟩
  have only (n : String) (inLeft : n ∈ a.names) (inRight : n ∈ p.names) : n = x := by
    rw [names] at inRight
    obtain ⟨m, hm, rfl⟩ := List.mem_map.mp inRight
    rw [apply_single] at inLeft ⊢
    split at inLeft
    · exact if_pos ‹_›
    · exact absurd hm (disjoint _ inLeft)
  have renamed : cell? p.names r x = some d := by
    have cells := cell?_map_names b.nodup_names (names ▸ p.nodup_names) (hb.sound.arity r hr) hy
    rwa [toX, ← names, hd] at cells
  have atX : Assignment.represent (cell? a.names l) x = Assignment.represent (cell? p.names r) x ↔
      c.compare d = .eq := by
    rw [Assignment.represent, Assignment.represent, hc, renamed, Option.map_some, Option.map_some,
      Option.some_inj, Cell.representative_eq_iff]
  rw [madeOf_iff ha (represented_rename hb hp).1 hj hl (rows ▸ hr), ← atX]
  constructor
  · intro agree
    exact agree x hx shared
  · intro same n inLeft inRight
    rwa [only n inLeft inRight]

end Meeting

/-- Predicates compare numbers as the order of cells does, and selections of a product keep the pairs of rows
that a join matches, but where an integer is confused with a float that it is rounded to. -/
theorem numbers_meet_iff (hc : c.IsNumber) (hd : d.IsNumber) :
    ((∀ op : Predicate.Comparison, op.test (.ofCell c) (.ofCell d) = .ok (op.holds (c.compare d))) ↔
        ¬Confused c d) ∧
      (∀ m x, Confused (.int m) (.float x) → 2 ^ 53 < m.toInt.natAbs) ∧
      ∀ {a b : Relation} {x y : String}, a.WellFormed → b.WellFormed → (∀ n ∈ a.names, n ∉ b.names) →
        x ∈ a.names → y ∈ b.names → (∀ c ∈ a.column x, c.IsNumber) → (∀ d ∈ b.column y, d.IsNumber) →
        ∃ q s p j, a.product b = .ok q ∧ q.selection (x ++ " == " ++ y) = .ok s ∧
          b.rename (Name.Map.empty.insert y x) = .ok p ∧ a.join p = .ok j ∧
          ((∀ l ∈ a.rows, ∀ r ∈ b.rows, l ++ r ∈ s.rows ↔ MadeOf a p j l r) ↔
            ∀ c ∈ a.column x, ∀ d ∈ b.column y, ¬Confused c d) := by
  refine ⟨Cell.test_agrees_iff hc hd, fun m x => Binary64.lt_natAbs_of_blurs,
    fun {a b x y} ha hb disjoint hx hy numbersX numbersY => ?_⟩
  obtain ⟨q, hq⟩ := exists_product_iff.mpr disjoint
  obtain ⟨s, hs, kept⟩ := exists_selection ha hb hx hy numbersX numbersY hq
  obtain ⟨p, hp⟩ := exists_rename_single disjoint hx hy
  obtain ⟨j, hj⟩ := exists_joinWith false a p
  refine ⟨q, s, p, j, hq, hs, hp, hj, ?_⟩
  constructor
  · rintro meets c ⟨l, hl, hc⟩ d ⟨r, hr, hd⟩ confused
    have matched := (meets l hl r hr).mp ((kept l hl r hr c d hc hd).mpr (.inr confused))
    have apart := (Cell.compare?_ofCell (numbersX c ⟨l, hl, hc⟩) (numbersY d ⟨r, hr, hd⟩)).2 confused
    exact apart.2 ((madeOf_renamed_iff ha hb disjoint hx hy hp hj hl hr hc hd).mp matched)
  · intro clear l hl r hr
    obtain ⟨c, inX, hc⟩ := exists_cell ha hl hx
    obtain ⟨d, inY, hd⟩ := exists_cell hb hr hy
    rw [kept l hl r hr c d hc hd, madeOf_renamed_iff ha hb disjoint hx hy hp hj hl hr hc hd,
      or_iff_left (clear c inX d inY)]

def counted : Relation where
  header := ⟨["x"], by decide +kernel, by decide⟩
  rows := [[.int 1], [.int 9007199254740993]]

def measured : Relation where
  header := ⟨["y"], by decide +kernel, by decide⟩
  rows := [[.float ⟨0x3FF0000000000000⟩], [.float ⟨0x4340000000000000⟩]]

theorem numbers_meet_iff_counted :
    (∀ op : Predicate.Comparison, op.test (.ofCell (.int 1)) (.ofCell (.float ⟨0x3FF0000000000000⟩)) =
        .ok (op.holds ((Cell.int 1).compare (.float ⟨0x3FF0000000000000⟩)))) ∧
      2 ^ 53 < (9007199254740993 : Int64).toInt.natAbs ∧
      ∃ q s p j, counted.product measured = .ok q ∧ q.selection ("x" ++ " == " ++ "y") = .ok s ∧
        measured.rename (Name.Map.empty.insert "y" "x") = .ok p ∧ counted.join p = .ok j ∧
        ((∀ l ∈ counted.rows, ∀ r ∈ measured.rows, l ++ r ∈ s.rows ↔ MadeOf counted p j l r) ↔
          ∀ c ∈ counted.column "x", ∀ d ∈ measured.column "y", ¬Confused c d) := by
  have wellFormed : counted.WellFormed := ⟨by decide +kernel, by decide +kernel⟩
  have wellFormed' : measured.WellFormed := ⟨by decide +kernel, by decide +kernel⟩
  have ints : ∀ c ∈ counted.column "x", c.IsNumber := by
    intro c hc
    have cells : c = .int 1 ∨ c = .int 9007199254740993 := by
      simpa [column, counted, names, cell?, Predicate.lastPlace?, eq_comm] using hc
    rcases cells with rfl | rfl <;> trivial
  have floats : ∀ d ∈ measured.column "y", d.IsNumber := by
    intro d hd
    have cells : d = .float ⟨0x3FF0000000000000⟩ ∨ d = .float ⟨0x4340000000000000⟩ := by
      simpa [column, measured, names, cell?, Predicate.lastPlace?, eq_comm] using hd
    rcases cells with rfl | rfl <;> rfl
  have number : (Cell.float ⟨0x3FF0000000000000⟩).IsNumber := by rfl
  obtain ⟨agree, large, meets⟩ := @numbers_meet_iff (.int 1) _ trivial number
  have exact_one : ¬Confused (.int 1) (.float ⟨0x3FF0000000000000⟩) := by
    change ¬Binary64.Blurs _ _
    decide +kernel
  have rounded : Confused (.int 9007199254740993) (.float ⟨0x4340000000000000⟩) := by
    change Binary64.Blurs _ _
    decide +kernel
  exact ⟨agree.mpr exact_one, large _ _ rounded,
    meets wellFormed wellFormed' (by decide) (by decide) (by decide) ints floats⟩

/-- A selection takes the integer `2 ^ 53 + 1` for the float `2 ^ 53`, and the order of cells does not. -/
theorem rounded_integer_counts_as_equal :
    Predicate.Comparison.equal.test (.ofCell (.int 9007199254740993)) (.ofCell (.float ⟨0x4340000000000000⟩)) =
        .ok true ∧
      (Cell.int 9007199254740993).compare (.float ⟨0x4340000000000000⟩) = .gt := by
  decide +kernel

end Relation

end RelationalAlgebra
