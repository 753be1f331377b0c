import Mathlib.Data.List.Forall2
import Mathlib.Data.List.Nodup
import RelationalAlgebra.Predicate.Evaluation
import RelationalAlgebra.Proofs.Outcome
import RelationalAlgebra.Relation.Header
import RelationalAlgebra.Relation.Rows
/-!
# Cells by their names

A row gives each name of a header a cell.  What stands under a name does not depend on where the name
stands, so rows that are put together, or whose columns are picked, are described by the cells under
their names.
-/

namespace RelationalAlgebra

open Predicate (cell? lastPlace?)

/-! ## Places -/

theorem lastPlace?_eq_none {name : String} {names : List String} (h : name ∉ names) :
    lastPlace? name names = none := by
  induction names with
  | nil => rfl
  | cons n ns ih =>
    obtain ⟨hn, hns⟩ : ¬name = n ∧ name ∉ ns := by simpa using h
    simp [lastPlace?, ih hns, Ne.symm hn]

theorem lastPlace?_of_nodup {name : String} {names : List String} (nodup : names.Nodup) {i : Nat}
    (h : names[i]? = some name) : lastPlace? name names = some i := by
  induction names generalizing i with
  | nil => simp at h
  | cons n ns ih =>
    obtain ⟨hn, hns⟩ := List.nodup_cons.mp nodup
    cases i with
    | zero =>
      obtain rfl : n = name := by simpa using h
      simp [lastPlace?, lastPlace?_eq_none hn]
    | succ i => simp [lastPlace?, ih hns (by simpa using h)]

theorem getElem?_of_lastPlace? {name : String} {names : List String} {i : Nat}
    (h : lastPlace? name names = some i) : names[i]? = some name := by
  induction names generalizing i with
  | nil => cases h
  | cons n ns ih =>
    rw [lastPlace?] at h
    cases hl : lastPlace? name ns with
    | some j =>
      rw [hl] at h
      obtain rfl := Option.some.inj h
      simpa using ih hl
    | none =>
      rw [hl] at h
      by_cases hn : n = name
      · simp only [hn, if_true] at h
        obtain rfl := Option.some.inj h
        simp [hn]
      · simp [hn] at h

theorem cell?_eq_some_iff {names : List String} (nodup : names.Nodup) {row : Row} {name : String}
    {c : Cell} :
    cell? names row name = some c ↔ ∃ i : Nat, names[i]? = some name ∧ row[i]? = some c := by
  constructor
  · intro h
    unfold cell? at h
    split at h
    · next i hi => exact ⟨i, getElem?_of_lastPlace? hi, h⟩
    · cases h
  · rintro ⟨i, hname, hcell⟩
    rw [cell?, lastPlace?_of_nodup nodup hname]
    exact hcell

theorem isSome_cell?_iff {names : List String} (nodup : names.Nodup) {row : Row}
    (length : row.length = names.length) {name : String} :
    (cell? names row name).isSome = true ↔ name ∈ names := by
  rw [Option.isSome_iff_exists]
  constructor
  · rintro ⟨c, hc⟩
    obtain ⟨i, hi, -⟩ := (cell?_eq_some_iff nodup).mp hc
    exact List.mem_of_getElem? hi
  · intro h
    obtain ⟨i, hi, rfl⟩ := List.mem_iff_getElem.mp h
    have hrow : i < row.length := by omega
    refine ⟨row[i], (cell?_eq_some_iff nodup).mpr ⟨i, ?_, ?_⟩⟩
    · exact List.getElem?_eq_getElem hi
    · exact List.getElem?_eq_getElem _

theorem row_ext {names : List String} (nodup : names.Nodup) {row row' : Row}
    (length : row.length = names.length) (length' : row'.length = names.length)
    (h : cell? names row = cell? names row') : row = row' := by
  apply List.ext_getElem (length.trans length'.symm)
  intro i hi hi'
  have hn : i < names.length := by omega
  have cell : cell? names row names[i] = some row[i] :=
    (cell?_eq_some_iff nodup).mpr
      ⟨i, List.getElem?_eq_getElem hn, List.getElem?_eq_getElem hi⟩
  rw [h] at cell
  obtain ⟨j, hj, hc⟩ := (cell?_eq_some_iff nodup).mp cell
  obtain ⟨hj', heq⟩ := List.getElem?_eq_some_iff.mp hj
  obtain rfl := (List.Nodup.getElem_inj_iff nodup).mp heq
  rw [List.getElem?_eq_getElem hi'] at hc
  exact (Option.some.inj hc).symm

theorem cell?_map_names {names : List String} {image : String → String} (nodup : names.Nodup)
    (nodup' : (names.map image).Nodup) {row : Row} (length : row.length = names.length) {n : String}
    (hn : n ∈ names) : cell? (names.map image) row (image n) = cell? names row n := by
  obtain ⟨i, hi, rfl⟩ := List.mem_iff_getElem.mp hn
  have cell : row[i]? = some row[i] := List.getElem?_eq_getElem (length ▸ hi)
  rw [(cell?_eq_some_iff nodup).mpr ⟨i, List.getElem?_eq_getElem hi, cell⟩]
  exact (cell?_eq_some_iff nodup').mpr ⟨i, by simp [hi], cell⟩

/-! ## Rows put together -/

theorem cell?_append {as bs : List String} (nodup : (as ++ bs).Nodup) {left right : Row}
    (hleft : left.length = as.length) (name : String) :
    cell? (as ++ bs) (left ++ right) name =
      (cell? as left name).or (cell? bs right name) := by
  have nodups := List.nodup_append.mp nodup
  apply Option.ext
  intro c
  rw [cell?_eq_some_iff nodup, Option.or_eq_some_iff]
  constructor
  · rintro ⟨i, hname, hcell⟩
    by_cases hi : i < as.length
    · rw [List.getElem?_append_left hi] at hname
      rw [List.getElem?_append_left (by omega)] at hcell
      exact .inl ((cell?_eq_some_iff nodups.1).mpr ⟨i, hname, hcell⟩)
    · rw [List.getElem?_append_right (by omega)] at hname
      rw [List.getElem?_append_right (by omega), hleft] at hcell
      refine .inr ⟨?_, (cell?_eq_some_iff nodups.2.1).mpr ⟨_, hname, hcell⟩⟩
      rw [cell?, lastPlace?_eq_none]
      intro hmem
      exact nodups.2.2 name hmem name (List.mem_of_getElem? hname) rfl
  · rintro (h | ⟨-, h⟩)
    · obtain ⟨i, hname, hcell⟩ := (cell?_eq_some_iff nodups.1).mp h
      obtain ⟨hi, -⟩ := List.getElem?_eq_some_iff.mp hname
      refine ⟨i, ?_, ?_⟩
      · rw [List.getElem?_append_left hi, hname]
      · rw [List.getElem?_append_left (by omega), hcell]
    · obtain ⟨i, hname, hcell⟩ := (cell?_eq_some_iff nodups.2.1).mp h
      refine ⟨as.length + i, ?_, ?_⟩
      · rw [List.getElem?_append_right (by omega), Nat.add_sub_cancel_left, hname]
      · rw [List.getElem?_append_right (by omega), hleft, Nat.add_sub_cancel_left, hcell]

/-! ## Picked columns -/

theorem Header.positions_eq_ok_iff {h : Header} {names : List String} {ps : List Nat} :
    h.positions names = .ok ps ↔
      List.Forall₂ (fun n i => h.position? n = some i) names ps := by
  induction names generalizing ps with
  | nil => simp [Header.positions, eq_comm]
  | cons n ns ih =>
    rw [Header.positions]
    cases hp : h.position? n with
    | none =>
      simp only [reduceCtorEq, false_iff]
      rintro (_ | ⟨hn, -⟩)
      rw [hp] at hn
      cases hn
    | some i =>
      rw [map_eq_ok]
      constructor
      · rintro ⟨qs, hqs, rfl⟩
        exact .cons hp (ih.mp hqs)
      · rintro (_ | ⟨hn, hps⟩)
        rw [hp] at hn
        obtain rfl := Option.some.inj hn
        exact ⟨_, ih.mpr hps, rfl⟩

theorem Header.exists_positions {h : Header} {names : List String} (sub : ∀ n ∈ names, n ∈ h.names) :
    ∃ ps, h.positions names = .ok ps := by
  induction names with
  | nil => exact ⟨[], rfl⟩
  | cons n ns ih =>
    obtain ⟨ps, hps⟩ := ih fun m hm => sub m (List.mem_cons_of_mem _ hm)
    have hn : (h.position? n).isSome = true := by
      rw [Header.position?, List.isSome_idxOf?]
      exact sub n (List.mem_cons_self ..)
    obtain ⟨i, hi⟩ := Option.isSome_iff_exists.mp hn
    exact ⟨i :: ps, by rw [Header.positions, hi, hps]; rfl⟩

theorem Header.mem_of_positions {h : Header} {names : List String} {ps : List Nat}
    (hps : h.positions names = .ok ps) : ∀ n ∈ names, n ∈ h.names := by
  have pairs := Header.positions_eq_ok_iff.mp hps
  intro n hn
  induction pairs with
  | nil => cases hn
  | @cons m i ns js hm _ ih =>
    rcases List.mem_cons.mp hn with rfl | hn
    · have : (h.position? n).isSome = true := by rw [hm]; rfl
      rwa [Header.position?, List.isSome_idxOf?] at this
    · exact ih (Header.positions_eq_ok_iff.mpr ‹_›) hn

theorem Header.getElem?_of_position? {h : Header} {name : String} {i : Nat}
    (hi : h.position? name = some i) : h.names[i]? = some name := by
  obtain ⟨lt, eq, -⟩ := List.idxOf?_eq_some_iff.mp hi
  rw [List.getElem?_eq_getElem lt, eq]

theorem Header.position?_inj {h : Header} {m n : String} {i : Nat} (hm : h.position? m = some i)
    (hn : h.position? n = some i) : m = n := by
  have left := Header.getElem?_of_position? hm
  have right := Header.getElem?_of_position? hn
  exact Option.some.inj (left.symm.trans right)

theorem Header.position?_getElem {h : Header} {i : Nat} (hi : i < h.names.length) :
    h.position? h.names[i] = some i := by
  refine List.idxOf?_eq_some_iff.mpr ⟨hi, rfl, fun j lt => ?_⟩
  intro same
  have := (List.Nodup.getElem_inj_iff h.nodup).mp same
  omega

theorem Header.positions_range (h : Header) :
    List.Forall₂ (fun n i => h.position? n = some i) h.names (List.range h.size) := by
  refine List.forall₂_iff_get.mpr ⟨by simp [Header.size], fun i hi hi' => ?_⟩
  have := Header.position?_getElem hi
  simpa using this

theorem Header.mem_positions {h : Header} {names : List String} {ps : List Nat}
    (hps : h.positions names = .ok ps) {n : String} {i : Nat} (hn : h.position? n = some i) :
    i ∈ ps ↔ n ∈ names := by
  have pairs := Header.positions_eq_ok_iff.mp hps
  induction pairs with
  | nil => simp
  | @cons m j ms js hm later ih =>
    have others : i ∈ js ↔ n ∈ ms := ih (Header.positions_eq_ok_iff.mpr later)
    rw [List.mem_cons, List.mem_cons, others]
    refine or_congr_left ⟨?_, ?_⟩
    · rintro rfl
      exact Header.position?_inj hn hm
    · rintro rfl
      exact Option.some.inj (hn.symm.trans hm)

theorem cell?_pick {h : Header} {names : List String} {ps : List Nat}
    (hps : h.positions names = .ok ps) (nodup : names.Nodup) {row : Row}
    (length : row.length = h.names.length) (name : String) :
    cell? names (row.pick ps) name = if name ∈ names then cell? h.names row name else none := by
  have pairs := Header.positions_eq_ok_iff.mp hps
  have at_place {i : Nat} (hi : names[i]? = some name) :
      (row.pick ps)[i]? = cell? h.names row name := by
    obtain ⟨lt, rfl⟩ := List.getElem?_eq_some_iff.mp hi
    have lt' : i < ps.length := pairs.length_eq ▸ lt
    have place := Header.getElem?_of_position? (pairs.get lt lt')
    obtain ⟨lt'', -⟩ := List.getElem?_eq_some_iff.mp place
    have inRow : ps[i] < row.length := length ▸ lt''
    have cell : cell? h.names row names[i] = some row[ps[i]] :=
      (cell?_eq_some_iff h.nodup).mpr ⟨ps[i], place, List.getElem?_eq_getElem inRow⟩
    rw [cell, Row.pick, List.getElem?_map, List.getElem?_eq_getElem lt', Option.map_some,
      List.getD_eq_getElem?_getD, List.getElem?_eq_getElem inRow, Option.getD_some]
  by_cases hn : name ∈ names
  · obtain ⟨i, hi, rfl⟩ := List.mem_iff_getElem.mp hn
    have hi' := List.getElem?_eq_getElem hi
    rw [if_pos hn, ← at_place hi', cell?, lastPlace?_of_nodup nodup hi']
  · rw [if_neg hn, cell?, lastPlace?_eq_none hn]

end RelationalAlgebra
