import RelationalAlgebra.Proofs.Number.Layouts
import RelationalAlgebra.Proofs.Relation.Recoding
import RelationalAlgebra.Proofs.Storage.Rereading
/-!
# Columns of floats that are saved and read again

A finite float is written as a text that is read as a float, and as nothing else but a text.  A number that is
too large to be a float is read as infinity all the same, and what is written for infinity is read as a text
only.  So a column of floats is found again exactly if all of its numbers lie below what is rounded to
infinity; one number beyond it makes the column a column of texts.
-/

namespace RelationalAlgebra

open Binary64 (infinity overflow)

/-! ## Texts of floats -/

namespace Text

/-- The number of a text, if it has one, is below what is rounded to infinity. -/
def WithinFloats (raw : String) : Prop := ∀ d ∈ decimal? (sign (trim raw.toList)).2, d.value < overflow

theorem withinFloats_of_places {raw : String} {n places : Nat} {e : Int}
    (h : decimal? (sign (trim raw.toList)).2 = some ⟨n, e⟩) (le : n ≤ 10 ^ places)
    (few : e + places ≤ 308) : WithinFloats raw := by
  intro d hd
  obtain rfl : (⟨n, e⟩ : Decimal) = d := Option.some.inj (h.symm.trans hd)
  exact Decimal.value_lt_of_places le few

end Text

namespace Kind

/-- A finite float is written as a float that is no whole number. -/
theorem admitted_write_of_isFinite {x : Binary64} (finite : x.isFinite = true) :
    admitted (Cell.float x).write = [float, text] := by
  obtain ⟨d, written⟩ := @Layout.toList_write .cell x finite
  obtain ⟨e, read, -⟩ := Layout.decimal?_digits .cell d
  have decimal : (Text.decimal? (Layout.cell.digits d)).isSome = true := by rw [read, Option.isSome_some]
  have noBlanks : ∀ c ∈ (if x.negative then ['-'] else []) ++ Layout.cell.digits d,
      Text.isBlank c = false := by
    refine List.forall_mem_append.mpr ⟨?_, Text.isBlank_of_decimal? decimal⟩
    split <;> decide
  have whole := Text.int64?_eq_none_of_decimal? x.negative decimal (Layout.exists_mem_digits rfl d)
  have number := Text.isSome_float?_of_decimal? x.negative decimal
  rw [admitted, Cell.write, written, Text.trim_of_not_blank noBlanks]
  simp only [whole, number, Option.isSome_none, Bool.false_eq_true, if_false, if_true]

theorem admitted_write_infinity (neg : Bool) : admitted (Cell.float (infinity neg)).write = [text] := by
  cases neg <;> decide +kernel

end Kind

namespace Cell

variable {raw : String}

/-- A text that is read as a float is read as a finite one or as infinity. -/
theorem cast_float (h : Kind.float.admits raw = true) :
    ∃ x, cast .float raw = float x ∧ (x.isFinite = true ↔ Text.WithinFloats raw) ∧
      (x.isFinite = true ∨ ∃ neg, x = infinity neg) := by
  rw [Kind.admits, Kind.read?, Option.isSome_map, Text.float?, Option.isSome_map] at h
  obtain ⟨d, hd⟩ := Option.isSome_iff_exists.mp h
  refine ⟨Binary64.ofDecimal (Text.sign (Text.trim raw.toList)).1 d.significand d.exponent, ?_, ?_, ?_⟩
  · rw [cast, if_neg (by decide)]
    simp only [Kind.read?, Text.float?, hd, Option.map_some, Option.getD_some]
  · rw [Binary64.isFinite_ofDecimal_iff, Text.WithinFloats, hd]
    simp only [Option.mem_some_iff, forall_eq']
  · rcases lt_or_ge d.value overflow with below | beyond
    · exact .inl (Binary64.isFinite_ofDecimal_iff.mpr below)
    · exact .inr ⟨_, Binary64.ofDecimal_eq_infinity beyond⟩

def reprint (kind : Kind) (raw : String) : String := (cast kind raw).write

theorem admitted_reprint (h : Kind.float.admits raw = true) :
    (Text.WithinFloats raw → Kind.admitted (reprint .float raw) = [.float, .text]) ∧
      (¬Text.WithinFloats raw → Kind.admitted (reprint .float raw) = [.text]) := by
  obtain ⟨x, read, finite, or_infinite⟩ := cast_float h
  rw [reprint, read, ← finite]
  refine ⟨Kind.admitted_write_of_isFinite, fun infinite => ?_⟩
  obtain ⟨neg, rfl⟩ := or_infinite.resolve_left infinite
  exact Kind.admitted_write_infinity neg

end Cell

/-! ## Columns -/

namespace Kind

theorem ofColumn_congr_admitted {column column' : List String}
    (h : ∀ raw ∈ column, ∃ raw' ∈ column', admitted raw' = admitted raw)
    (h' : ∀ raw' ∈ column', ∃ raw ∈ column, admitted raw' = admitted raw) :
    ofColumn column = ofColumn column' := by
  have same (kind : Kind) :
      (∀ raw ∈ column, kind.admits raw = true) ↔ ∀ raw' ∈ column', kind.admits raw' = true := by
    simp only [← mem_admitted_iff]
    constructor
    · intro all raw' hraw'
      obtain ⟨raw, hraw, equal⟩ := h' raw' hraw'
      exact equal ▸ all raw hraw
    · intro all raw hraw
      obtain ⟨raw', hraw', equal⟩ := h raw hraw
      exact equal ▸ all raw' hraw'
  simp only [ofColumn_eq, same]

/-- A column of texts of which none is a whole number or a date is one of floats if all of them are floats,
and one of texts otherwise. -/
theorem ofColumn_of_admitted {column : List String} (ne : column ≠ [])
    (h : ∀ raw ∈ column, admitted raw = [float, text] ∨ admitted raw = [text]) :
    (ofColumn column = float ↔ ∀ raw ∈ column, admitted raw = [float, text]) ∧
      (ofColumn column = float ∨ ofColumn column = text) := by
  obtain ⟨first, rest, rfl⟩ := List.exists_cons_of_ne_nil ne
  have never {kind : Kind} (other : kind ∉ [float, text]) :
      ¬∀ raw ∈ first :: rest, kind.admits raw = true := by
    intro all
    have member := mem_admitted_iff.mpr (all first (List.mem_cons_self ..))
    rcases h first (List.mem_cons_self ..) with equal | equal <;> rw [equal] at member
    · exact other member
    · exact other (List.mem_cons_of_mem _ member)
  have floats : (∀ raw ∈ first :: rest, float.admits raw = true) ↔
      ∀ raw ∈ first :: rest, admitted raw = [float, text] := by
    refine forall₂_congr fun raw hraw => ?_
    rw [← mem_admitted_iff]
    rcases h raw hraw with equal | equal <;> rw [equal] <;> decide
  rw [ofColumn_eq, if_neg (never (by decide)), if_neg (never (by decide)), ← floats]
  split
  · next all => exact ⟨iff_of_true rfl all, .inl rfl⟩
  · next some => exact ⟨iff_of_false (by decide) some, .inr rfl⟩

/-- A column of floats is found again exactly if no number of it is too large, and is a column of texts
otherwise. -/
theorem ofColumn_reprint {column : List String} (h : ofColumn column = float) :
    (ofColumn (column.map (Cell.reprint .float)) = float ↔ ∀ raw ∈ column, Text.WithinFloats raw) ∧
      (ofColumn (column.map (Cell.reprint .float)) = float ∨
        ofColumn (column.map (Cell.reprint .float)) = text) := by
  have admits {raw : String} (hraw : raw ∈ column) : float.admits raw = true := h ▸ admits_ofColumn hraw
  have ne : column ≠ [] := by
    rintro rfl
    cases h
  have shapes : ∀ raw ∈ column.map (Cell.reprint .float),
      admitted raw = [float, text] ∨ admitted raw = [text] := by
    refine List.forall_mem_map.mpr fun raw hraw => ?_
    obtain ⟨within, beyond⟩ := Cell.admitted_reprint (admits hraw)
    exact (em _).imp within beyond
  obtain ⟨found, either⟩ := ofColumn_of_admitted (mt List.map_eq_nil_iff.mp ne) shapes
  refine ⟨found.trans ?_, either⟩
  rw [List.forall_mem_map]
  refine forall₂_congr fun raw hraw => ?_
  obtain ⟨within, beyond⟩ := Cell.admitted_reprint (admits hraw)
  refine ⟨fun equal => ?_, within⟩
  by_contra outside
  rw [beyond outside] at equal
  cases equal

end Kind

/-! ## Relations -/

theorem Kind.admitted_write_of_compare {x y : Binary64}
    (h : Cell.compare (.float x) (.float y) = .eq) :
    admitted (Cell.float x).write = admitted (Cell.float y).write := by
  have rank : x.rank = y.rank := Cell.eq_of_comparePlace h
  have finite : x.isFinite = true ↔ y.isFinite = true := by
    rw [Binary64.isFinite_iff_rank, rank, Binary64.isFinite_iff_rank]
  by_cases hx : x.isFinite = true
  · rw [admitted_write_of_isFinite hx, admitted_write_of_isFinite (finite.mp hx)]
  · rcases Binary64.eq_of_rank rank with rfl | zero
    · rfl
    · exact absurd (Binary64.isFinite_iff_rank.mpr (congrArg Prod.fst zero)) hx

namespace Relation

variable {header : Header} {rows : List (List String)} {r : Relation} {i : Nat}

def rawColumn (i : Nat) (rows : List (List String)) : List String := rows.map fun raw => raw.getD i ""

theorem getD_map_write {row : Row} {c : Cell} (h : row[i]? = some c) :
    (row.map Cell.write).getD i "" = c.write := by
  rw [List.getD_eq_getElem?_getD, List.getElem?_map, h]
  rfl

/-- The column of a saved relation has the kind of the texts that are written for the column it was read
from, although rows have been merged. -/
theorem ofColumn_printed (h : ofRaw? header rows = .ok r) (hi : i < header.size)
    (isFloat : Kind.ofColumn (rawColumn i rows) = .float) :
    Kind.ofColumn (rawColumn i r.printed) = Kind.ofColumn ((rawColumn i rows).map (Cell.reprint .float)) := by
  obtain ⟨u, checked, rfl⟩ := map_eq_ok.mp h
  have cell {raw : List String} (hraw : raw ∈ rows) :
      (castRow (rawKinds header.size rows) raw)[i]? = some (Cell.cast .float (raw.getD i "")) := by
    have length := checkArity_eq_ok checked _ (List.mem_map_of_mem hraw)
    rw [getElem?_castRow rows length hi, ← rawColumn, isFloat]
  have float {raw : List String} (hraw : raw ∈ rows) : Kind.float.admits (raw.getD i "") = true :=
    isFloat ▸ Kind.admits_ofColumn (List.mem_map_of_mem hraw)
  rw [rawColumn, printed, rawColumn, List.map_map, List.map_map]
  apply Kind.ofColumn_congr_admitted
  · refine List.forall_mem_map.mpr fun row hrow => ?_
    obtain ⟨raw, hraw, rfl⟩ := List.mem_map.mp (Rows.mem_of_mem_collect hrow)
    refine ⟨_, List.mem_map_of_mem hraw, ?_⟩
    rw [Function.comp_apply, Function.comp_apply, getD_map_write (cell hraw)]
    rfl
  · refine List.forall_mem_map.mpr fun raw hraw => ?_
    obtain ⟨kept, hkept, same⟩ := Rows.exists_equal_of_mem (List.mem_map_of_mem hraw)
    refine ⟨_, List.mem_map_of_mem hkept, ?_⟩
    obtain ⟨raw', hraw', rfl⟩ := List.mem_map.mp (Rows.mem_of_mem_collect hkept)
    have equal := Row.compare_getElem? same (cell hraw) (cell hraw')
    obtain ⟨x, hx, -⟩ := Cell.cast_float (float hraw)
    obtain ⟨y, hy, -⟩ := Cell.cast_float (float hraw')
    rw [Function.comp_apply, Function.comp_apply, getD_map_write (cell hraw'), Cell.reprint]
    rw [hx, hy] at equal ⊢
    exact Kind.admitted_write_of_compare equal

/-- What is written for a relation can be read again, and rows are read if there were any. -/
theorem exists_ofRaw_printed (h : ofRaw? header rows = .ok r) (ne : rows ≠ []) :
    ∃ s, ofRaw? header r.printed = .ok s ∧ s.rows ≠ [] := by
  have names : r.header = header := header_ofRaw h
  have arity : checkArity header (r.printed.map List.length) = .ok () :=
    checkArity_of_forall (List.forall_mem_map.mpr (names ▸ length_of_mem_printed (wellFormed_ofRaw h)))
  have kept {given : List Row} (some : given ≠ []) : Rows.collect given ≠ [] := by
    obtain ⟨row, hrow⟩ := List.exists_mem_of_ne_nil given some
    obtain ⟨row', hrow', -⟩ := Rows.exists_equal_of_mem hrow
    exact List.ne_nil_of_mem hrow'
  refine ⟨_, by rw [ofRaw?, arity]; rfl, kept ?_⟩
  obtain ⟨u, -, rfl⟩ := map_eq_ok.mp h
  rw [printed, Ne, List.map_eq_nil_iff, List.map_eq_nil_iff]
  exact kept (mt List.map_eq_nil_iff.mp ne)

theorem kind_of_ofRaw (h : ofRaw? header rows = .ok r) (hi : i < header.size) :
    ∀ row ∈ r.rows, row[i]?.map Cell.kind = some (Kind.ofColumn (rawColumn i rows)) := by
  intro row hrow
  have kinds : row.map Cell.kind = rawKinds header.size rows := kinds_ofRaw h row hrow
  rw [← List.getElem?_map, kinds, rawKinds, List.getElem?_map, List.getElem?_range hi]
  rfl

/-- A column that is read as floats is read as floats again exactly if none of its numbers is too large to be a
float; otherwise it is read as texts.  So it is in every relation with that column that is saved and loaded, if
the documents are decoded to what they were made of. -/
theorem float_columns_survive_iff {texts : List String} (h : Kind.ofColumn texts = .float) :
    (Kind.ofColumn (texts.map (Cell.reprint .float)) = .float ↔ ∀ raw ∈ texts, Text.WithinFloats raw) ∧
      (Kind.ofColumn (texts.map (Cell.reprint .float)) = .float ∨
        Kind.ofColumn (texts.map (Cell.reprint .float)) = .text) ∧
      ∀ {header rows r i}, ofRaw? header rows = .ok r → i < header.size → rawColumn i rows = texts →
        ∃ s, ofRaw? header r.printed = .ok s ∧ s.rows ≠ [] ∧
          (∀ row ∈ s.rows, row[i]?.map Cell.kind =
            some (Kind.ofColumn (texts.map (Cell.reprint .float)))) ∧
          (Csv.decode? r.toCsv.toUTF8.toList = some (r.names :: r.printed) →
            ofCsv? r.toCsv.toUTF8.toList = .ok s) ∧
          ((Json.ofText? r.toJson.toList).bind Json.table? = some (r.names, r.printed) →
            ofJson? r.toJson = .ok s) := by
  obtain ⟨found, either⟩ := Kind.ofColumn_reprint h
  refine ⟨found, either, fun {header rows r i} loaded hi eq => ?_⟩
  subst eq
  have ne : rows ≠ [] := by
    rintro rfl
    cases h
  obtain ⟨s, read, some⟩ := exists_ofRaw_printed loaded ne
  have kinds := kind_of_ofRaw read hi
  rw [ofColumn_printed loaded hi h] at kinds
  refine ⟨s, read, some, kinds, fun decoded => ?_, fun decoded => ?_⟩
  · obtain rfl : r.header = header := header_ofRaw loaded
    rw [ofCsv_of_decode decoded (length_of_mem_printed (wellFormed_ofRaw loaded)), read]
    rfl
  · obtain rfl : r.header = header := header_ofRaw loaded
    rw [ofJson_of_table decoded, read]
    rfl

def massHeader : Header := ⟨["mass"], by decide +kernel, by decide⟩

/-- A number that is not much less than the largest float, and that is not written as it is read. -/
theorem float_columns_survive_iff_mass : ∃ r s, ofRaw? massHeader [[" +100.0E306"]] = .ok r ∧
    r.printed = [["1e308"]] ∧ ofRaw? massHeader r.printed = .ok s ∧ s.rows ≠ [] ∧
      (∀ row ∈ s.rows, row[0]?.map Cell.kind = some .float) ∧
      ofCsv? r.toCsv.toUTF8.toList = .ok s ∧ ofJson? r.toJson = .ok s := by
  have loaded : ∃ r, ofRaw? massHeader [[" +100.0E306"]] = .ok r ∧ r.printed = [["1e308"]] ∧
      Csv.decode? r.toCsv.toUTF8.toList = some (r.names :: r.printed) ∧
      (Json.ofText? r.toJson.toList).bind Json.table? = some (r.names, r.printed) := by
    decide +kernel
  have within : Text.WithinFloats " +100.0E306" :=
    @Text.withinFloats_of_places _ 1000 3 305 (by decide) (by decide) (by decide)
  obtain ⟨r, h, printed, csv, json⟩ := loaded
  obtain ⟨found, -, reload⟩ := @float_columns_survive_iff [" +100.0E306"] (by decide +kernel)
  rw [found.mpr (List.forall_mem_singleton.mpr within)] at reload
  obtain ⟨s, read, some, kinds, ofCsv, ofJson⟩ := @reload massHeader _ r 0 h (by decide) rfl
  exact ⟨r, s, h, printed, read, some, kinds, ofCsv csv, ofJson json⟩

/-- A number beyond the floats is read as infinity, and what is written for that as a text. -/
theorem great_number_comes_back_as_text :
    Kind.ofColumn ["1e400"] = .float ∧ ["1e400"].map (Cell.reprint .float) = ["inf"] ∧
      Kind.ofColumn ["inf"] = .text ∧
      ∃ r s, ofCsv? "mass\n1e400\n".toUTF8.toList = .ok r ∧ r.rows = [[.float (infinity false)]] ∧
        r.toCsv = "mass\ninf\n" ∧ ofCsv? r.toCsv.toUTF8.toList = .ok s ∧ s.rows = [[.text "inf"]] := by
  refine ⟨by decide +kernel, by decide +kernel, by decide +kernel, ?_⟩
  exact ⟨⟨massHeader, [[.float (infinity false)]]⟩, ⟨massHeader, [[.text "inf"]]⟩, by decide +kernel⟩

end Relation

end RelationalAlgebra
