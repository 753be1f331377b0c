import RelationalAlgebra.Proofs.Relation.Recoding
/-!
# The order of columns

Equality of relations is an equivalence, and all operators but selections respect it: equal operands give
equal results, or none.  A predicate can tell equal cells apart, but not columns that were put in another
order, since rearranging keeps the extent itself.  So the order of columns never matters.
-/

namespace RelationalAlgebra.Relation

open Predicate (cell?)

variable {a b a' b' : Relation}

/-! ## Equality -/

theorem equal_iff_represented (ha : a.WellFormed) (hb : b.WellFormed) :
    a.equal b = true ↔ a.represented.extent = b.represented.extent := by
  rw [← Cell.recoding_representative.equal_recode a b]
  exact equal_iff_extent_eq Cell.separated_representatives ha.represented hb.represented

theorem equivalence_equal :
    Equivalence fun a b : {r : Relation // r.WellFormed} => a.val.equal b.val = true where
  refl a := (equal_iff_represented a.2 a.2).mpr rfl
  symm {a b} h := (equal_iff_represented b.2 a.2).mpr ((equal_iff_represented a.2 b.2).mp h).symm
  trans {a b c} hab hbc := (equal_iff_represented a.2 c.2).mpr
    (((equal_iff_represented a.2 b.2).mp hab).trans ((equal_iff_represented b.2 c.2).mp hbc))

theorem mem_names_of_equal (h : a.equal b = true) (n : String) : n ∈ a.names ↔ n ∈ b.names := by
  unfold equal at h
  split at h
  · next rows hrows => exact (align_eq_ok hrows).1 n
  · cases h

theorem names_perm (same : ∀ n, n ∈ a.names ↔ n ∈ b.names) : a.names.Perm b.names :=
  (List.perm_ext_iff_of_nodup a.nodup_names b.nodup_names).mpr same

/-! ## Outcomes that are alike -/

/-- Outcomes that are equal relations, or failures. -/
def Alike {ε : Type} : Except ε Relation → Except ε Relation → Prop
  | .ok p, .ok q => p.equal q = true
  | .error _, .error _ => True
  | _, _ => False

theorem alike_of {ε : Type} {x y : Except ε Relation} (both : (∃ p, x = .ok p) ↔ ∃ q, y = .ok q)
    (same : ∀ p q, x = .ok p → y = .ok q → p.equal q = true) : Alike x y := by
  cases x with
  | error e => cases y with
    | error f => exact trivial
    | ok q =>
      obtain ⟨p, hp⟩ := both.mpr ⟨q, rfl⟩
      cases hp
  | ok p => cases y with
    | error f =>
      obtain ⟨q, hq⟩ := both.mp ⟨p, rfl⟩
      cases hq
    | ok q => exact same p q rfl rfl

/-! ## Equal operands -/

section Equal

variable (ha : a.WellFormed) (ha' : a'.WellFormed) (left : a'.equal a = true)

include ha ha' left

theorem alike_projection (names : List String) : Alike (a'.projection names) (a.projection names) := by
  have same := mem_names_of_equal left
  refine alike_of ?_ fun p q hp hq => ?_
  · rw [exists_projection_iff, exists_projection_iff]
    simp only [same]
  · obtain ⟨wellFormed, extent⟩ := represented_projection ha' hp
    obtain ⟨wellFormed', extent'⟩ := represented_projection ha hq
    rw [equal_iff_represented wellFormed wellFormed', extent, extent',
      (equal_iff_represented ha' ha).mp left]

theorem alike_rename (map : Renaming) : Alike (a'.rename map) (a.rename map) := by
  have same := mem_names_of_equal left
  refine alike_of ?_ fun p q hp hq => ?_
  · rw [exists_rename_iff, exists_rename_iff, ((names_perm same).map map.apply).nodup_iff]
    simp only [same]
  · obtain ⟨wellFormed, extent⟩ := represented_rename ha' hp
    obtain ⟨wellFormed', extent'⟩ := represented_rename ha hq
    rw [equal_iff_represented wellFormed wellFormed', extent, extent',
      (equal_iff_represented ha' ha).mp left]

variable (hb : b.WellFormed) (hb' : b'.WellFormed) (right : b'.equal b = true)

include hb hb' right

theorem alike_apply (op : Query.Binary) : Alike (a'.apply op b') (a.apply op b) := by
  refine alike_of ?_ fun p q hp hq => ?_
  · rw [exists_apply_iff, exists_apply_iff]
    exact fits_congr (mem_names_of_equal left) (mem_names_of_equal right)
  · obtain ⟨wellFormed, extent⟩ := represented_apply ha' hb' hp
    obtain ⟨wellFormed', extent'⟩ := represented_apply ha hb hq
    rw [equal_iff_represented wellFormed wellFormed', extent, extent',
      (equal_iff_represented ha' ha).mp left, (equal_iff_represented hb' hb).mp right]

end Equal

/-! ## Operands with the same extent -/

section Extent

variable (ha : a.WellFormed) (ha' : a'.WellFormed) (left : a'.extent = a.extent)

include ha ha' left

theorem alike_selection (predicate : String) :
    Alike (a'.selection predicate) (a.selection predicate) := by
  rw [selection, selection]
  cases clause? predicate with
  | error failure => exact trivial
  | ok clause =>
    refine alike_of ?_ fun p q hp hq => ?_
    · rw [exists_filter_iff, exists_filter_iff, left]
    · obtain ⟨sound, -, extent⟩ := filter_spec ha'.sound hp
      obtain ⟨sound', -, extent'⟩ := filter_spec ha.sound hq
      exact equal_of_extent_eq sound sound' (by rw [extent, extent', left])

variable (hb : b.WellFormed) (hb' : b'.WellFormed) (right : b'.extent = b.extent)

include hb hb' right

theorem alike_thetaJoin (predicate : String) :
    Alike (a'.thetaJoin b' predicate) (a.thetaJoin b predicate) := by
  have fits := @fits_congr .product _ _ _ _
    (mem_names_of_equal (equal_of_extent_eq ha'.sound ha.sound left))
    (mem_names_of_equal (equal_of_extent_eq hb'.sound hb.sound right))
  have both : (∃ p, a'.product b' = .ok p) ↔ ∃ p, a.product b = .ok p := by
    rw [exists_product_iff, exists_product_iff]
    exact fits
  rw [thetaJoin, thetaJoin]
  cases hp : a'.product b' with
  | error fault => cases hq : a.product b with
    | error fault' => exact trivial
    | ok q =>
      obtain ⟨p, hp'⟩ := both.mpr ⟨q, hq⟩
      cases hp.symm.trans hp'
  | ok p => cases hq : a.product b with
    | error fault' =>
      obtain ⟨q, hq'⟩ := both.mp ⟨p, hp⟩
      cases hq.symm.trans hq'
    | ok q =>
      obtain ⟨sound, extent⟩ := product_spec ha'.sound hb'.sound hp
      obtain ⟨sound', extent'⟩ := product_spec ha.sound hb.sound hq
      exact alike_selection sound'.wellFormed sound.wellFormed (by rw [extent, extent', left, right])
        predicate

end Extent

/-! ## Columns in another order -/

/-- No operator tells the first two operands from the last two. -/
structure Interchangeable (a' b' a b : Relation) : Prop where
  selection (predicate : String) : Alike (a'.selection predicate) (a.selection predicate)
  projection (names : List String) : Alike (a'.projection names) (a.projection names)
  rename (map : Renaming) : Alike (a'.rename map) (a.rename map)
  apply (op : Query.Binary) : Alike (a'.apply op b') (a.apply op b)
  thetaJoin (predicate : String) : Alike (a'.thetaJoin b' predicate) (a.thetaJoin b predicate)

theorem interchangeable_of_extent_eq (ha : a.WellFormed) (ha' : a'.WellFormed) (hb : b.WellFormed)
    (hb' : b'.WellFormed) (left : a'.extent = a.extent) (right : b'.extent = b.extent) :
    Interchangeable a' b' a b := by
  have leftEqual := equal_of_extent_eq ha'.sound ha.sound left
  have rightEqual := equal_of_extent_eq hb'.sound hb.sound right
  exact {
    selection := alike_selection ha ha' left
    projection := alike_projection ha ha' leftEqual
    rename := alike_rename ha ha' leftEqual
    apply := alike_apply ha ha' leftEqual hb hb' rightEqual
    thetaJoin := alike_thetaJoin ha ha' left hb hb' right }

theorem column_order_is_immaterial :
    (Equivalence fun a b : {r : Relation // r.WellFormed} => a.val.equal b.val = true) ∧
      ∀ {a b : Relation} {header header' : Header}, a.WellFormed → b.WellFormed →
        header.names.Perm a.names → header'.names.Perm b.names →
        ∃ a' b', a.rearrange header = .ok a' ∧ b.rearrange header' = .ok b' ∧
          a'.header = header ∧ b'.header = header' ∧ a'.equal a = true ∧ b'.equal b = true ∧
            Interchangeable a' b' a b := by
  refine ⟨equivalence_equal, fun {a b header header'} ha hb permA permB => ?_⟩
  obtain ⟨a', rearrangedA⟩ := exists_rearrange_iff.mpr permA
  obtain ⟨b', rearrangedB⟩ := exists_rearrange_iff.mpr permB
  obtain ⟨soundA, left⟩ := rearrange_spec ha.sound rearrangedA
  obtain ⟨soundB, right⟩ := rearrange_spec hb.sound rearrangedB
  exact ⟨a', b', rearrangedA, rearrangedB, (rearrange_eq_ok rearrangedA).1,
    (rearrange_eq_ok rearrangedB).1, equal_of_extent_eq soundA ha.sound left,
    equal_of_extent_eq soundB hb.sound right,
    interchangeable_of_extent_eq ha soundA.wellFormed hb soundB.wellFormed left right⟩

def persons : Relation where
  header := ⟨["id", "age"], by decide +kernel, by decide⟩
  rows := [[.int 1, .int 31], [.int 2, .int 30]]

def pets : Relation where
  header := ⟨["id", "kind"], by decide +kernel, by decide⟩
  rows := [[.int 2, .text "cat"]]

theorem column_order_is_immaterial_persons :
    ∃ a' b', persons.rearrange ⟨["age", "id"], by decide +kernel, by decide⟩ = .ok a' ∧
      pets.rearrange ⟨["kind", "id"], by decide +kernel, by decide⟩ = .ok b' ∧
      a'.header = ⟨["age", "id"], by decide +kernel, by decide⟩ ∧
      b'.header = ⟨["kind", "id"], by decide +kernel, by decide⟩ ∧
      a'.equal persons = true ∧ b'.equal pets = true ∧ Interchangeable a' b' persons pets := by
  have wellFormed : persons.WellFormed := ⟨by decide +kernel, by decide +kernel⟩
  have wellFormed' : pets.WellFormed := ⟨by decide +kernel, by decide +kernel⟩
  exact column_order_is_immaterial.2 wellFormed wellFormed' (by decide +kernel) (by decide +kernel)

end RelationalAlgebra.Relation
