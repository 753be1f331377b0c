import RelationalAlgebra.Proofs.Relation.Contents
import RelationalAlgebra.Proofs.Relation.Laws
/-!
# Laws of joins

A natural join has the rows whose parts are rows of both operands; the outer joins add the rows of one operand,
or of each, that match no row of the other, filled up.  The natural join is commutative and associative, and it
lies between the product of relations that share no attribute and the intersection of relations that share all.
-/

namespace RelationalAlgebra

namespace Extent

variable {a b c : Extent}

/-! ## Joins of extents -/

theorem restrict_mem_join {w : Assignment} {names : Set String} (covers : w.Covers names)
    (sub : a.attributes ∪ b.attributes ⊆ names) :
    w.restrict (a.attributes ∪ b.attributes) ∈ (a.join b).rows ↔
      w.restrict a.attributes ∈ a.rows ∧ w.restrict b.attributes ∈ b.rows := by
  refine (and_iff_right (Assignment.covers_restrict covers sub)).trans ?_
  rw [Assignment.restrict_restrict Set.subset_union_left, Assignment.restrict_restrict Set.subset_union_right]

theorem join_assoc : (a.join b).join c = a.join (b.join c) := by
  refine Extent.ext (Set.union_assoc _ _ _) (Set.ext fun w => ?_)
  change w.Covers (a.attributes ∪ b.attributes ∪ c.attributes) ∧
      w.restrict (a.attributes ∪ b.attributes) ∈ (a.join b).rows ∧ w.restrict c.attributes ∈ c.rows ↔
    w.Covers (a.attributes ∪ (b.attributes ∪ c.attributes)) ∧ w.restrict a.attributes ∈ a.rows ∧
      w.restrict (b.attributes ∪ c.attributes) ∈ (b.join c).rows
  rw [← Set.union_assoc]
  refine and_congr_right fun covers => ?_
  have left : a.attributes ∪ b.attributes ⊆ a.attributes ∪ b.attributes ∪ c.attributes := Set.subset_union_left
  have right : b.attributes ∪ c.attributes ⊆ a.attributes ∪ b.attributes ∪ c.attributes :=
    Set.union_subset_union_left _ Set.subset_union_right
  rw [restrict_mem_join covers left, restrict_mem_join covers right, and_assoc]

theorem join_eq_intersection (ha : a.Proper) (same : a.attributes = b.attributes) :
    a.join b = a.intersection b := by
  have attributes : a.attributes ∪ b.attributes = a.attributes := by rw [← same, Set.union_self]
  refine Extent.ext attributes (Set.ext fun w => ?_)
  change w.Covers (a.attributes ∪ b.attributes) ∧ w.restrict a.attributes ∈ a.rows ∧
      w.restrict b.attributes ∈ b.rows ↔ w ∈ a.rows ∧ w ∈ b.rows
  rw [attributes, ← same]
  constructor
  · rintro ⟨covers, left, right⟩
    rw [covers.restrict_self] at left right
    exact ⟨left, right⟩
  · rintro ⟨left, right⟩
    have covers := ha w left
    rw [covers.restrict_self]
    exact ⟨covers, left, right⟩

/-- The matched rows that a full join has from both sides are the same. -/
theorem fullJoin_eq (a b : Extent) : a.fullJoin b =
    ⟨a.attributes ∪ b.attributes, (a.join b).rows ∪ a.unmatched b ∪ b.unmatched a⟩ := by
  refine Extent.ext rfl ?_
  change (a.join b).rows ∪ a.unmatched b ∪ ((b.join a).rows ∪ b.unmatched a) = _
  rw [join_comm (a := b), Set.union_union_union_comm, Set.union_self, Set.union_assoc]

end Extent

namespace Relation

variable {a b c : Relation}

/-! ## Joins of relations -/

/-- The joins of two relations. -/
structure JoinLaws (a b : Relation) : Prop where
  join : Gives (a.join b) (a.contents.join b.contents)
  leftJoin : Gives (a.leftJoin b) ⟨a.attributes ∪ b.attributes,
    (a.contents.join b.contents).rows ∪ a.contents.unmatched b.contents⟩
  rightJoin : Coincide (a.rightJoin b) (b.leftJoin a)
  fullJoin : Gives (a.fullJoin b) ⟨a.attributes ∪ b.attributes, (a.contents.join b.contents).rows ∪
    a.contents.unmatched b.contents ∪ b.contents.unmatched a.contents⟩
  fullJoin_eq_union : Coincide (a.fullJoin b) (do (← a.leftJoin b).union (← a.rightJoin b))
  join_comm : Coincide (a.join b) (b.join a)
  join_assoc (c : Relation) : c.WellFormed → Coincide (do (← a.join b).join c) (do a.join (← b.join c))
  join_eq_product : (∀ n ∈ a.names, n ∉ b.names) → Coincide (a.join b) (a.product b)
  join_eq_intersection : a.attributes = b.attributes → Coincide (a.join b) (a.intersection b)

theorem joins_are_textbook (ha : a.WellFormed) (hb : b.WellFormed) : JoinLaws a b := by
  have A := Gives.self ha
  have B := Gives.self hb
  have join := A.apply .join B trivial
  have left := A.apply .leftJoin B trivial
  have right := A.apply .rightJoin B trivial
  have full := A.apply .fullJoin B trivial
  exact {
    join := join
    leftJoin := left
    rightJoin := right.coincide (B.apply .leftJoin A trivial) (Extent.ext (Set.union_comm _ _) rfl)
    fullJoin := Extent.fullJoin_eq a.contents b.contents ▸ full
    fullJoin_eq_union := full.coincide (left.apply .union right rfl) rfl
    join_comm := join.coincide (B.apply .join A trivial) Extent.join_comm
    join_assoc := fun c hc => (join.apply .join (.self hc) trivial).coincide
      (A.apply .join (B.apply .join (.self hc) trivial) trivial) Extent.join_assoc
    join_eq_product := fun disjoint => join.coincide (A.apply .product B disjoint) rfl
    join_eq_intersection := fun same => join.coincide (A.apply .intersection B same)
      (Extent.join_eq_intersection (proper_contents ha) same) }

def ages : Relation where
  header := ⟨["age"], by decide +kernel, by decide⟩
  rows := [[.int 30], [.float ⟨0x403F000000000000⟩]]

theorem joins_are_textbook_persons :
    JoinLaws persons pets ∧
      Coincide (do (← persons.join pets).join ages) (do persons.join (← pets.join ages)) ∧
      Coincide (pets.join ages) (pets.product ages) ∧
      Coincide (persons.join persons) (persons.intersection persons) := by
  have wellFormed : persons.WellFormed := ⟨by decide +kernel, by decide +kernel⟩
  have wellFormed' : pets.WellFormed := ⟨by decide +kernel, by decide +kernel⟩
  have wellFormed'' : ages.WellFormed := ⟨by decide +kernel, by decide +kernel⟩
  have laws := joins_are_textbook wellFormed wellFormed'
  exact ⟨laws, laws.join_assoc ages wellFormed'',
    (joins_are_textbook wellFormed' wellFormed'').join_eq_product (by decide),
    (joins_are_textbook wellFormed wellFormed).join_eq_intersection rfl⟩

end Relation

end RelationalAlgebra
