import Mathlib.Data.Set.Card
import RelationalAlgebra.Proofs.Relation.Contents
import RelationalAlgebra.Proofs.Relation.Laws
/-!
# Set operators

Union, intersection and difference apply to relations with the same attributes, whatever the order of their
columns, and are the operators on sets of assignments.  So they obey the laws of sets, and since no row occurs
twice, not even with an integer in place of an equal float, their rows can be counted.
-/

namespace RelationalAlgebra.Relation

open Predicate (cell?)

variable {a b c : Relation}

/-! ## What the operators compute -/

/-- An operator on relations with the same attributes is an operator on sets of assignments. -/
structure Computes (op : Relation → Relation → Except SchemaFault Relation)
    (combine : Set Assignment → Set Assignment → Set Assignment) (a b : Relation) : Prop where
  applies_iff : (∃ p, op a b = .ok p) ↔ a.attributes = b.attributes
  result {p : Relation} : op a b = .ok p →
    p.WellFormed ∧ p.header = a.header ∧ p.contents.rows = combine a.contents.rows b.contents.rows

theorem computes_of_rows {op : Query.Binary} {combine : Set Assignment → Set Assignment → Set Assignment}
    (setOperator : op.isSetOperator = true) (rows : ∀ e f : Extent, (e.apply op f).rows = combine e.rows f.rows)
    (ha : a.WellFormed) (hb : b.WellFormed) : Computes (fun a b => a.apply op b) combine a b where
  applies_iff := exists_apply_iff.trans ((fits_setOperator setOperator).trans Set.ext_iff.symm)
  result := by
    intro p h
    obtain ⟨wellFormed, contents⟩ := contents_apply ha hb h
    have names : p.names = a.names := by
      rw [apply_names h]
      cases op with
      | union | intersection | difference => rfl
      | product | division | join | leftJoin | rightJoin | fullJoin => cases setOperator
    exact ⟨wellFormed, Header.ext names, by rw [contents, rows]⟩

/-! ## Counting rows -/

theorem rows_represented (a : Relation) :
    a.represented.extent.rows = cell? a.names '' {row | row ∈ a.represented.rows} := by
  ext w
  exact exists_congr fun row => and_congr_right fun _ => eq_comm

/-- Of all rows with equal cells a relation has one. -/
theorem ncard_represented (h : a.WellFormed) : a.represented.extent.rows.ncard = a.size := by
  have sound := h.represented
  have injective : Set.InjOn (cell? a.names) {row | row ∈ a.represented.rows} := fun row hrow row' hrow' same =>
    row_ext a.nodup_names (sound.arity row hrow) (sound.arity row' hrow') same
  have nodup : a.represented.rows.Nodup := Rows.Ascending.nodup sound.wellFormed.ascending
  rw [rows_represented, injective.ncard_image, ← List.coe_toFinset, Set.ncard_coe_finset,
    List.toFinset_card_of_nodup nodup]
  exact List.length_map _

theorem finite_represented (a : Relation) : a.represented.extent.rows.Finite := by
  rw [rows_represented]
  exact (List.finite_toSet _).image _

theorem size_union_add_size_intersection {u i : Relation} (ha : a.WellFormed) (hb : b.WellFormed)
    (hu : a.union b = .ok u) (hi : a.intersection b = .ok i) : u.size + i.size = a.size + b.size := by
  obtain ⟨wellFormed, union⟩ := @represented_apply .union _ _ _ ha hb hu
  obtain ⟨wellFormed', intersection⟩ := @represented_apply .intersection _ _ _ ha hb hi
  have rows : u.represented.extent.rows = a.represented.extent.rows ∪ b.represented.extent.rows := by
    rw [union]
    rfl
  have rows' : i.represented.extent.rows = a.represented.extent.rows ∩ b.represented.extent.rows := by
    rw [intersection]
    rfl
  calc u.size + i.size = u.represented.extent.rows.ncard + i.represented.extent.rows.ncard := by
        rw [ncard_represented wellFormed, ncard_represented wellFormed']
    _ = a.represented.extent.rows.ncard + b.represented.extent.rows.ncard := by
        rw [rows, rows', Set.ncard_union_add_ncard_inter _ _ a.finite_represented b.finite_represented]
    _ = a.size + b.size := by rw [ncard_represented ha, ncard_represented hb]

/-! ## Laws -/

/-- The laws of sets, for relations. -/
structure SetLaws (a b c : Relation) : Prop where
  intersection_eq : Coincide (a.intersection b) (do a.difference (← a.difference b))
  union_parts : Coincide (do (← a.difference b).union (← a.intersection b)) (.ok a)
  union_comm : Coincide (a.union b) (b.union a)
  intersection_comm : Coincide (a.intersection b) (b.intersection a)
  union_assoc : Coincide (do (← a.union b).union c) (do a.union (← b.union c))
  intersection_assoc : Coincide (do (← a.intersection b).intersection c) (do a.intersection (← b.intersection c))
  union_self : Coincide (a.union a) (.ok a)
  intersection_self : Coincide (a.intersection a) (.ok a)
  union_intersection : Coincide (do a.union (← b.intersection c)) (do (← a.union b).intersection (← a.union c))
  intersection_union :
    Coincide (do a.intersection (← b.union c)) (do (← a.intersection b).union (← a.intersection c))
  sizes : ∃ u i, a.union b = .ok u ∧ a.intersection b = .ok i ∧ u.size + i.size = a.size + b.size

theorem setLaws (ha : a.WellFormed) (hb : b.WellFormed) (hc : c.WellFormed)
    (ab : a.attributes = b.attributes) (bc : b.attributes = c.attributes) : SetLaws a b c := by
  have ac := ab.trans bc
  have A := Gives.self ha
  have B := Gives.self hb
  have C := Gives.self hc
  have unionAB := A.apply .union B ab
  have unionAC := A.apply .union C ac
  have unionBC := B.apply .union C bc
  have intersectionAB := A.apply .intersection B ab
  have intersectionAC := A.apply .intersection C ac
  have intersectionBC := B.apply .intersection C bc
  have differenceAB := A.apply .difference B ab
  -- what is left of each law is one of sets
  exact {
    intersection_eq := intersectionAB.coincide (A.apply .difference differenceAB rfl)
      (Extent.ext rfl sdiff_sdiff_right_self.symm)
    union_parts := (differenceAB.apply .union intersectionAB rfl).coincide A
      (Extent.ext rfl (Set.sdiff_union_inter _ _))
    union_comm := unionAB.coincide (B.apply .union A ab.symm) (Extent.ext ab (Set.union_comm _ _))
    intersection_comm := intersectionAB.coincide (B.apply .intersection A ab.symm)
      (Extent.ext ab (Set.inter_comm _ _))
    union_assoc := (unionAB.apply .union C ac).coincide (A.apply .union unionBC ab)
      (Extent.ext rfl (Set.union_assoc _ _ _))
    intersection_assoc := (intersectionAB.apply .intersection C ac).coincide
      (A.apply .intersection intersectionBC ab) (Extent.ext rfl (Set.inter_assoc _ _ _))
    union_self := (A.apply .union A rfl).coincide A Extent.union_self
    intersection_self := (A.apply .intersection A rfl).coincide A Extent.intersection_self
    union_intersection := (A.apply .union intersectionBC ab).coincide
      (unionAB.apply .intersection unionAC rfl) (Extent.ext rfl (Set.union_inter_distrib_left _ _ _))
    intersection_union := (A.apply .intersection unionBC ab).coincide
      (intersectionAB.apply .union intersectionAC rfl)
      (Extent.ext rfl (Set.inter_union_distrib_left _ _ _))
    sizes := by
      obtain ⟨u, hu, -⟩ := unionAB
      obtain ⟨i, hi, -⟩ := intersectionAB
      exact ⟨u, i, hu, hi, size_union_add_size_intersection ha hb hu hi⟩ }

theorem set_operators_are_exact (ha : a.WellFormed) (hb : b.WellFormed) (hc : c.WellFormed) :
    Computes union (· ∪ ·) a b ∧ Computes intersection (· ∩ ·) a b ∧ Computes difference (· \ ·) a b ∧
      (a.attributes = b.attributes → b.attributes = c.attributes → SetLaws a b c) :=
  ⟨@computes_of_rows _ _ .union _ rfl (fun _ _ => rfl) ha hb,
    @computes_of_rows _ _ .intersection _ rfl (fun _ _ => rfl) ha hb,
    @computes_of_rows _ _ .difference _ rfl (fun _ _ => rfl) ha hb, setLaws ha hb hc⟩

def guests : Relation where
  header := ⟨persons.names.reverse, by decide +kernel, List.nodup_reverse.mpr persons.nodup_names⟩
  rows := [[.float ⟨0x403E000000000000⟩, .int 2], [.int 44, .int 3]]

theorem set_operators_are_exact_persons :
    Computes union (· ∪ ·) persons guests ∧ Computes intersection (· ∩ ·) persons guests ∧
      Computes difference (· \ ·) persons guests ∧ SetLaws persons guests persons := by
  have wellFormed : persons.WellFormed := ⟨by decide +kernel, by decide +kernel⟩
  have wellFormed' : guests.WellFormed := ⟨by decide +kernel, by decide +kernel⟩
  obtain ⟨union, intersection, difference, laws⟩ :=
    set_operators_are_exact wellFormed wellFormed' wellFormed
  have attributes : persons.attributes = guests.attributes := Set.ext fun n => by
    simp [Relation.attributes, names, persons, guests, or_comm]
  exact ⟨union, intersection, difference, laws attributes attributes.symm⟩

end RelationalAlgebra.Relation
