import RelationalAlgebra.Proofs.Relation.Contents
/-!
# Division

The quotient of a relation and a divisor has the rows that, together with every row of the divisor, are rows of
the relation.  It is computed with two complements: of all candidates those are taken away that miss a row.
Division undoes a product with a divisor that has rows.
-/

namespace RelationalAlgebra

namespace Extent

variable {a b q : Extent} {t : Assignment}

/-! ## Division of extents -/

theorem Proper.project (ha : a.Proper) {names : Set String} (sub : names ⊆ a.attributes) :
    (a.project names).Proper := by
  rintro _ ⟨w, hw, rfl⟩
  exact Assignment.covers_restrict (ha w hw) sub

/-- A candidate is disqualified by a row of the divisor with which it is not in the dividend. -/
theorem mem_disqualified_iff {candidates : Extent} (proper : candidates.Proper) (hb : b.Proper)
    (disjoint : ∀ n ∈ candidates.attributes, n ∉ b.attributes) (ht : t ∈ candidates.rows) :
    t ∈ (((candidates.join b).difference a).project candidates.attributes).rows ↔
      ∃ s ∈ b.rows, t.merge s ∉ a.rows := by
  constructor
  · rintro ⟨w, ⟨⟨covers, -, right⟩, missing⟩, rfl⟩
    exact ⟨_, right, by rwa [Assignment.merge_restrict covers]⟩
  · -- together with that row of the divisor the candidate is a missing row
    rintro ⟨s, hs, missing⟩
    have left : (t.merge s).restrict candidates.attributes = t :=
      Assignment.restrict_merge_left (proper t ht)
    have right : (t.merge s).restrict b.attributes = s :=
      Assignment.restrict_merge_right (proper t ht) (hb s hs) disjoint
    exact ⟨t.merge s, ⟨⟨(proper t ht).merge (hb s hs), by rwa [left], by rwa [right]⟩, missing⟩, left⟩

theorem mem_division_iff (ha : a.Proper) (hb : b.Proper) : t ∈ (a.division b).rows ↔
    t ∈ (a.project (a.attributes \ b.attributes)).rows ∧ ∀ s ∈ b.rows, t.merge s ∈ a.rows := by
  refine and_congr_right fun ht => ?_
  have proper : (a.project (a.attributes \ b.attributes)).Proper := ha.project Set.sdiff_subset
  refine (not_congr (mem_disqualified_iff proper hb (fun n hn => hn.2) ht)).trans ?_
  push Not
  exact Iff.rfl

theorem join_division (hq : q.Proper) (hb : b.Proper) (disjoint : ∀ n ∈ q.attributes, n ∉ b.attributes)
    (nonempty : b.rows.Nonempty) : (q.join b).division b = q := by
  have attributes : (q.join b).attributes \ b.attributes = q.attributes :=
    Set.union_sdiff_right.trans (Set.disjoint_left.mpr fun n => disjoint n).sdiff_eq_left
  have proper : (q.join b).Proper := fun w hw => hw.1
  have merged {t s : Assignment} (ht : t ∈ q.rows) (hs : s ∈ b.rows) : t.merge s ∈ (q.join b).rows := by
    refine ⟨(hq t ht).merge (hb s hs), ?_, ?_⟩
    · rwa [Assignment.restrict_merge_left (hq t ht)]
    · rwa [Assignment.restrict_merge_right (hq t ht) (hb s hs) disjoint]
  refine Extent.ext attributes (Set.ext fun t => ?_)
  rw [mem_division_iff proper hb, attributes]
  constructor
  · rintro ⟨⟨w, hw, rfl⟩, -⟩
    exact hw.2.1
  · intro ht
    obtain ⟨s, hs⟩ := nonempty
    exact ⟨⟨t.merge s, merged ht hs, Assignment.restrict_merge_left (hq t ht)⟩, fun s hs => merged ht hs⟩

end Extent

namespace Relation

variable {a b q : Relation}

/-! ## Division of relations -/

theorem rows_contents_nonempty (h : b.rows ≠ []) : b.contents.rows.Nonempty := by
  obtain ⟨row, hrow⟩ := List.exists_mem_of_ne_nil _ h
  exact ⟨_, _, ⟨row, hrow, rfl⟩, Assignment.same_iff_represent.mpr rfl⟩

theorem rows_contents_empty (h : b.rows = []) : b.contents.rows = ∅ := by
  refine Set.eq_empty_of_forall_notMem ?_
  rintro w ⟨u, ⟨row, hrow, -⟩, -⟩
  rw [h] at hrow
  cases hrow

/-- The rows that are related to all rows of a divisor. -/
structure Divides (a b : Relation) : Prop where
  fails_iff : (∃ fault, a.division b = .error fault) ↔
    ¬b.attributes ⊆ a.attributes ∨ a.attributes ⊆ b.attributes
  result {p : Relation} : a.division b = .ok p → p.WellFormed ∧ p.names = a.unique b ∧
    p.contents.rows = {t ∈ (a.contents.project (a.attributes \ b.attributes)).rows |
      ∀ s ∈ b.contents.rows, t.merge s ∈ a.contents.rows}
  of_empty : b.attributes ⊆ a.attributes → ¬a.attributes ⊆ b.attributes → b.rows = [] →
    Coincide (a.division b) (a.projection (a.unique b))
  of_product {q : Relation} : q.WellFormed → q.names ≠ [] → (∀ n ∈ q.names, n ∉ b.names) → b.rows ≠ [] →
    Coincide (do (← q.product b).division b) (.ok q)

theorem fits_division_iff : a.contents.Fits .division b.contents ↔
    b.attributes ⊆ a.attributes ∧ ¬a.attributes ⊆ b.attributes :=
  and_congr_right fun _ => Set.sdiff_nonempty

theorem division_is_universal (ha : a.WellFormed) (hb : b.WellFormed) : Divides a b where
  fails_iff := by
    have applies : (∃ p, a.division b = .ok p) ↔ _ :=
      (@exists_apply_iff_fits a b .division).trans fits_division_iff
    rw [exists_error_iff, applies, not_and_or, not_not]
  result := by
    intro p h
    obtain ⟨wellFormed, contents⟩ := @contents_apply _ _ _ .division ha hb h
    refine ⟨wellFormed, @apply_names .division _ _ _ h, Set.ext fun t => ?_⟩
    rw [contents]
    exact Extent.mem_division_iff (proper_contents ha) (proper_contents hb)
  of_empty := by
    intro sub more empty
    have A := Gives.self ha
    have attributes : {n | n ∈ a.unique b} = a.attributes \ b.attributes := Set.ext fun n => mem_unique
    have ne : a.unique b ≠ [] := by
      obtain ⟨n, hn⟩ := Set.not_subset.mp more
      exact List.ne_nil_of_mem (mem_unique.mpr hn)
    refine (A.apply .division (.self hb) (fits_division_iff.mpr ⟨sub, more⟩)).coincide
      (A.projection ne (attributes ▸ Set.sdiff_subset)) (Extent.ext attributes.symm (Set.ext fun t => ?_))
    rw [attributes, Extent.apply, Extent.mem_division_iff (proper_contents ha) (proper_contents hb),
      rows_contents_empty empty]
    exact and_iff_left fun s hs => hs.elim
  of_product := by
    intro q hq named disjoint nonempty
    have Q := Gives.self hq
    have B := Gives.self hb
    obtain ⟨n, hn⟩ := List.exists_mem_of_ne_nil _ named
    have fits : (q.contents.join b.contents).Fits .division b.contents :=
      ⟨Set.subset_union_right, n, .inl hn, disjoint n hn⟩
    exact ((Q.apply .product B disjoint).apply .division B fits).coincide Q
      (Extent.join_division (proper_contents hq) (proper_contents hb) disjoint (rows_contents_nonempty nonempty))

def passed : Relation where
  header := ⟨["exam", "id"], by decide +kernel, by decide⟩
  rows := [[.int 1, .int 7], [.int 1, .int 8], [.float ⟨0x4000000000000000⟩, .int 7]]

def exams : Relation where
  header := ⟨["exam"], by decide +kernel, by decide⟩
  rows := [[.int 1], [.int 2]]

theorem division_is_universal_passed : Divides passed exams ∧
    Coincide (do (← pets.product exams).division exams) (.ok pets) := by
  have wellFormed : passed.WellFormed := ⟨by decide +kernel, by decide +kernel⟩
  have wellFormed' : exams.WellFormed := ⟨by decide +kernel, by decide +kernel⟩
  have wellFormed'' : pets.WellFormed := ⟨by decide +kernel, by decide +kernel⟩
  have laws := division_is_universal wellFormed wellFormed'
  exact ⟨laws, laws.of_product wellFormed'' (by decide) (by decide) (by decide)⟩

end Relation

end RelationalAlgebra
