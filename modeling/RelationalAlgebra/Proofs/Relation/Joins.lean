import RelationalAlgebra.Proofs.Relation.Operators
/-!
# Joins and division on extents

The rows of a join are put together from rows with equal cells under the shared names; an outer join has
the rows without a partner too, filled up.
-/

namespace RelationalAlgebra

open Predicate (cell?)

namespace Relation

/-- The positions that no shared name has are those of the names of the second relation alone. -/
theorem positions_extra {a b : Relation} {qs : List Nat}
    (hqs : b.header.positions (a.header.shared b.header) = .ok qs) :
    b.header.positions (a.header.extra b.header) =
      .ok ((List.range b.header.size).filter fun i => !qs.contains i) := by
  rw [Header.positions_eq_ok_iff]
  have paired : List.Forall₂ (fun n i => n ∈ b.header.names ∧ b.header.position? n = some i) b.header.names
      (List.range b.header.size) :=
    (List.forall₂_and_left _ _).mpr ⟨fun n hn => hn, b.header.positions_range⟩
  have kept := List.rel_filter (p := fun n => !a.header.contains n) (q := fun i => !qs.contains i)
    (fun n i h => by
      have mem := Header.mem_positions hqs h.2
      rw [Header.mem_shared, and_iff_left h.1] at mem
      simp [Header.contains, mem]) paired
  exact kept.imp fun _ _ h => h.2

variable {cells : Set Cell}

theorem agree_iff (separated : Cell.Separated cells) {a b : Relation} (ha : a.Sound cells)
    (hb : b.Sound cells) {names : List String} {ps qs : List Nat}
    (hps : a.header.positions names = .ok ps) (hqs : b.header.positions names = .ok qs)
    {l r : Row} (hl : l ∈ a.rows) (hr : r ∈ b.rows) :
    agree l r ps qs = true ↔ ∀ n ∈ names, cell? a.names l n = cell? b.names r n := by
  have left := Header.positions_eq_ok_iff.mp hps
  have right := Header.positions_eq_ok_iff.mp hqs
  induction left generalizing qs with
  | nil =>
    cases right
    simp [agree]
  | @cons n i ns ps hi later ih =>
    cases right with
    | @cons _ j _ qs hj right =>
    have cellLeft := cell?_of_position? hi (ha.arity l hl) (.text "")
    have cellRight := cell?_of_position? hj (hb.arity r hr) (.text "")
    have memLeft : l.getD i (.text "") ∈ cells := by
      obtain ⟨k, -, hk⟩ := (cell?_eq_some_iff a.header.nodup).mp cellLeft
      exact ha.inside l hl _ (List.mem_of_getElem? hk)
    have memRight : r.getD j (.text "") ∈ cells := by
      obtain ⟨k, -, hk⟩ := (cell?_eq_some_iff b.header.nodup).mp cellRight
      exact hb.inside r hr _ (List.mem_of_getElem? hk)
    have same : Cell.compare (l.getD i (.text "")) (r.getD j (.text "")) = .eq ↔
        cell? a.names l n = cell? b.names r n := by
      unfold Relation.names
      rw [cellLeft, cellRight, Option.some_inj]
      refine ⟨separated _ memLeft _ memRight, fun h => ?_⟩
      rw [h]
      exact Std.ReflCmp.compare_self
    have others : agree l r ps qs = true ↔ ∀ m ∈ ns, cell? a.names l m = cell? b.names r m :=
      ih (Header.positions_eq_ok_iff.mpr later) (Header.positions_eq_ok_iff.mpr right) right
    rw [agree, Bool.and_eq_true, decide_eq_true_eq, same, others, List.forall_mem_cons]

theorem mem_joined {keep : Bool} {others : List Row} {ps qs rest : List Nat} {left row : Row} :
    row ∈ joined keep others ps qs rest left ↔
      (∃ right ∈ others, agree left right ps qs = true ∧ row = left ++ right.pick rest) ∨
        keep = true ∧ (∀ right ∈ others, ¬agree left right ps qs = true) ∧
          row = left ++ rest.map fun _ => padding := by
  have matched : row ∈ (others.filter fun right => agree left right ps qs).map
      (fun right => left ++ right.pick rest) ↔
      ∃ right ∈ others, agree left right ps qs = true ∧ row = left ++ right.pick rest := by
    simp only [List.mem_map, List.mem_filter, and_assoc, eq_comm]
  unfold joined
  simp only
  split
  · next h =>
    obtain ⟨hkeep, empty⟩ := Bool.and_eq_true_iff.mp h
    have none : ∀ right ∈ others, ¬agree left right ps qs = true := by
      simpa [List.filter_eq_nil_iff] using empty
    rw [List.mem_singleton]
    constructor
    · exact fun h => .inr ⟨hkeep, none, h⟩
    · rintro (⟨right, hright, agree, -⟩ | ⟨-, -, h⟩)
      · exact absurd agree (none right hright)
      · exact h
  · next h =>
    rw [matched]
    refine ⟨.inl, ?_⟩
    rintro (h' | ⟨hkeep, none, -⟩)
    · exact h'
    · refine absurd ?_ h
      rw [hkeep, Bool.true_and, List.isEmpty_iff, List.filter_eq_nil_iff]
      exact none

/-! ## Joins -/

section Rows

variable {a b : Relation} {ps qs rest : List Nat} {w : Assignment}

theorem agree_shared_iff (separated : Cell.Separated cells) (ha : a.Sound cells) (hb : b.Sound cells)
    (hps : a.header.positions (a.header.shared b.header) = .ok ps)
    (hqs : b.header.positions (a.header.shared b.header) = .ok qs)
    {l r : Row} (hl : l ∈ a.rows) (hr : r ∈ b.rows) :
    agree l r ps qs = true ↔ ∀ n ∈ a.names, n ∈ b.names → cell? a.names l n = cell? b.names r n := by
  rw [agree_iff separated ha hb hps hqs hl hr]
  simp only [Header.mem_shared, and_imp]
  rfl

/-- The rows made of two rows that agree are those of the join of the extents. -/
theorem mem_join_iff (separated : Cell.Separated cells) (ha : a.Sound cells) (hb : b.Sound cells)
    (hps : a.header.positions (a.header.shared b.header) = .ok ps)
    (hqs : b.header.positions (a.header.shared b.header) = .ok qs)
    (hrest : b.header.positions (a.header.extra b.header) = .ok rest) :
    (∃ l ∈ a.rows, ∃ r ∈ b.rows, agree l r ps qs = true ∧
      w = cell? (a.names ++ a.header.extra b.header) (l ++ r.pick rest)) ↔
      w ∈ (a.extent.join b.extent).rows := by
  have nodup : (a.names ++ a.header.extra b.header).Nodup :=
    Header.nodup_append_extra a.header b.header
  have glued (l : Row) (hl : l ∈ a.rows) (r : Row) (hr : r ∈ b.rows)
      (h : ∀ n ∈ a.names, n ∈ b.names → cell? a.names l n = cell? b.names r n) :
      w = cell? (a.names ++ a.header.extra b.header) (l ++ r.pick rest) ↔
        w.Covers (a.attributes ∪ b.attributes) ∧ w.restrict a.attributes = cell? a.names l ∧
          w.restrict b.attributes = cell? b.names r := by
    refine glued_iff nodup (fun n => Header.mem_extra) b.nodup_names (ha.arity l hl)
      (hb.arity r hr) (fun n hn => ?_) (length_pick hrest r) h
    rw [cell?_pick hrest (b.nodup_names.filter _) (hb.arity r hr), if_pos hn]
  constructor
  · rintro ⟨l, hl, r, hr, hagree, hw⟩
    have shared := (agree_shared_iff separated ha hb hps hqs hl hr).mp hagree
    obtain ⟨covers, left, right⟩ := (glued l hl r hr shared).mp hw
    exact ⟨covers, ⟨l, hl, left⟩, r, hr, right⟩
  · rintro ⟨covers, ⟨l, hl, left⟩, r, hr, right⟩
    have shared : ∀ n ∈ a.names, n ∈ b.names → cell? a.names l n = cell? b.names r n := by
      intro n hna hnb
      have inLeft : w n = cell? a.names l n := by
        rw [← left]
        exact (Assignment.restrict_of_mem hna).symm
      have inRight : w n = cell? b.names r n := by
        rw [← right]
        exact (Assignment.restrict_of_mem hnb).symm
      rw [← inLeft, inRight]
    exact ⟨l, hl, r, hr, (agree_shared_iff separated ha hb hps hqs hl hr).mpr shared,
      (glued l hl r hr shared).mpr ⟨covers, left, right⟩⟩

/-- A row that is filled up has its own cells, and the padding under every other name. -/
theorem eq_padded_iff {l : Row} (arity : l.length = a.names.length)
    (length : rest.length = (a.header.extra b.header).length) :
    w = cell? (a.names ++ a.header.extra b.header) (l ++ rest.map fun _ => padding) ↔
      w.Covers (a.attributes ∪ b.attributes) ∧ w.restrict a.attributes = cell? a.names l ∧
        ∀ n ∈ a.header.extra b.header, w n = some padding := by
  have nodup : (a.names ++ a.header.extra b.header).Nodup :=
    Header.nodup_append_extra a.header b.header
  have filled (n : String) (hn : n ∈ a.header.extra b.header) :
      cell? (a.header.extra b.header) (rest.map fun _ => padding) n = some padding := by
    obtain ⟨i, hi, rfl⟩ := List.mem_iff_getElem.mp hn
    refine (cell?_eq_some_iff (b.nodup_names.filter _)).mpr ⟨i, List.getElem?_eq_getElem hi, ?_⟩
    have hi' : i < rest.length := by omega
    rw [List.getElem?_map, List.getElem?_eq_getElem hi', Option.map_some]
  have both : {n | n ∈ a.names ++ a.header.extra b.header} = a.attributes ∪ b.attributes :=
    Set.ext fun n => mem_join_names
  have length' : (rest.map fun _ => padding).length = (a.header.extra b.header).length := by
    rw [List.length_map, length]
  rw [appended_iff nodup arity length', both]
  refine and_congr_right fun _ => and_congr_right fun _ => forall₂_congr fun n hn => ?_
  rw [filled n hn]

/-- Two rows do not agree where they differ under a name that both headers have. -/
theorem not_agree_iff (separated : Cell.Separated cells) (ha : a.Sound cells) (hb : b.Sound cells)
    (hps : a.header.positions (a.header.shared b.header) = .ok ps)
    (hqs : b.header.positions (a.header.shared b.header) = .ok qs) {l r : Row} (hl : l ∈ a.rows)
    (hr : r ∈ b.rows) (same : w.restrict a.attributes = cell? a.names l) :
    ¬agree l r ps qs = true ↔ ∃ n ∈ a.attributes ∩ b.attributes, w n ≠ cell? b.names r n := by
  have inLeft (n : String) (hn : n ∈ a.names) : w n = cell? a.names l n := by
    rw [← same]
    exact (Assignment.restrict_of_mem hn).symm
  rw [agree_shared_iff separated ha hb hps hqs hl hr]
  constructor
  · intro h
    push Not at h
    obtain ⟨n, hna, hnb, ne⟩ := h
    exact ⟨n, ⟨hna, hnb⟩, by rwa [inLeft n hna]⟩
  · rintro ⟨n, ⟨hna, hnb⟩, ne⟩ h
    exact ne (by rw [inLeft n hna, h n hna hnb])

/-- The rows that are filled up are the rows of the extent without a match. -/
theorem mem_unmatched_iff (separated : Cell.Separated cells) (ha : a.Sound cells)
    (hb : b.Sound cells) (hps : a.header.positions (a.header.shared b.header) = .ok ps)
    (hqs : b.header.positions (a.header.shared b.header) = .ok qs)
    (hrest : b.header.positions (a.header.extra b.header) = .ok rest) :
    (∃ l ∈ a.rows, (∀ r ∈ b.rows, ¬agree l r ps qs = true) ∧
      w = cell? (a.names ++ a.header.extra b.header) (l ++ rest.map fun _ => padding)) ↔
      w ∈ a.extent.unmatched b.extent := by
  have length := (Header.positions_eq_ok_iff.mp hrest).length_eq.symm
  have unmatched (l : Row) (hl : l ∈ a.rows) (same : w.restrict a.attributes = cell? a.names l) :
      (∀ r ∈ b.rows, ¬agree l r ps qs = true) ↔
        ∀ u ∈ b.extent.rows, ∃ n ∈ a.attributes ∩ b.attributes, w n ≠ u n := by
    constructor
    · rintro h u ⟨r, hr, rfl⟩
      exact (not_agree_iff separated ha hb hps hqs hl hr same).mp (h r hr)
    · intro h r hr
      exact (not_agree_iff separated ha hb hps hqs hl hr same).mpr (h _ ⟨r, hr, rfl⟩)
  constructor
  · rintro ⟨l, hl, none, hw⟩
    obtain ⟨covers, left, right⟩ := (eq_padded_iff (ha.arity l hl) length).mp hw
    exact ⟨covers, ⟨l, hl, left⟩, (unmatched l hl left).mp none,
      fun n hn => right n (Header.mem_extra.mpr hn)⟩
  · rintro ⟨covers, ⟨l, hl, left⟩, none, right⟩
    exact ⟨l, hl, (unmatched l hl left).mpr none,
      (eq_padded_iff (ha.arity l hl) length).mpr
        ⟨covers, left, fun n hn => right n (Header.mem_extra.mp hn)⟩⟩

end Rows

/-- The rows of a join, each made of two rows or of one and its padding. -/
theorem joinWith_spec (separated : Cell.Separated cells) (pad : padding ∈ cells) {keep : Bool}
    {a b p : Relation} (ha : a.Sound cells) (hb : b.Sound cells) (h : joinWith keep a b = .ok p) :
    p.Sound cells ∧ p.attributes = a.attributes ∪ b.attributes ∧
      ∀ w, w ∈ p.extent.rows ↔ w ∈ (a.extent.join b.extent).rows ∨
        keep = true ∧ w ∈ a.extent.unmatched b.extent := by
  obtain ⟨hnames, ps, qs, hps, hqs, hrows⟩ := joinWith_eq_ok h
  have hrest := positions_extra hqs
  generalize (List.range b.header.size).filter (fun i => !qs.contains i) = rest at hrest hrows
  have inside : Rows.Over cells (a.rows.flatMap (joined keep b.rows ps qs rest)) := by
    intro row hrow c hc
    obtain ⟨l, hl, hrow⟩ := List.mem_flatMap.mp hrow
    rcases mem_joined.mp hrow with ⟨r, hr, -, rfl⟩ | ⟨-, -, rfl⟩
    · refine (List.mem_append.mp hc).elim (ha.inside l hl c) ?_
      exact over_pick hrest (hb.arity r hr) (hb.inside r hr) c
    · refine (List.mem_append.mp hc).elim (ha.inside l hl c) fun hc => ?_
      obtain ⟨_, -, rfl⟩ := List.mem_map.mp hc
      exact pad
  have mem (row : Row) : row ∈ p.rows ↔
      ∃ l ∈ a.rows, row ∈ joined keep b.rows ps qs rest l := by
    rw [hrows, Rows.mem_ofInsertions (inside.apart separated), List.mem_flatMap]
  refine ⟨⟨⟨fun row hrow => ?_, hrows ▸ Rows.ascending_ofInsertions _⟩, fun row hrow => ?_⟩,
    ?_, fun w => ?_⟩
  · change row.length = p.names.length
    have restLength := (Header.positions_eq_ok_iff.mp hrest).length_eq
    obtain ⟨l, hl, hrow⟩ := (mem row).mp hrow
    rw [hnames, List.length_append, ← ha.arity l hl, restLength]
    rcases mem_joined.mp hrow with ⟨r, hr, -, rfl⟩ | ⟨-, -, rfl⟩
    · rw [List.length_append, Row.pick, List.length_map]
    · rw [List.length_append, List.length_map]
  · rw [hrows, Rows.mem_ofInsertions (inside.apart separated)] at hrow
    exact inside row hrow
  · ext n
    change n ∈ p.names ↔ n ∈ a.names ∨ n ∈ b.names
    rw [hnames, mem_join_names]
  · rw [← mem_join_iff separated ha hb hps hqs hrest, ← mem_unmatched_iff separated ha hb hps hqs hrest,
      ← hnames]
    constructor
    · rintro ⟨row, hrow, rfl⟩
      obtain ⟨l, hl, hrow⟩ := (mem row).mp hrow
      rcases mem_joined.mp hrow with ⟨r, hr, hagree, rfl⟩ | ⟨hkeep, none, rfl⟩
      · exact .inl ⟨l, hl, r, hr, hagree, rfl⟩
      · exact .inr ⟨hkeep, l, hl, none, rfl⟩
    · rintro (⟨l, hl, r, hr, hagree, rfl⟩ | ⟨hkeep, l, hl, none, rfl⟩)
      · exact ⟨_, (mem _).mpr ⟨l, hl, mem_joined.mpr (.inl ⟨r, hr, hagree, rfl⟩)⟩, rfl⟩
      · exact ⟨_, (mem _).mpr ⟨l, hl, mem_joined.mpr (.inr ⟨hkeep, none, rfl⟩)⟩, rfl⟩

theorem join_spec (separated : Cell.Separated cells) (pad : padding ∈ cells) {a b p : Relation}
    (ha : a.Sound cells) (hb : b.Sound cells) (h : a.join b = .ok p) :
    p.Sound cells ∧ p.extent = a.extent.join b.extent := by
  obtain ⟨sound, attributes_eq, rows⟩ := joinWith_spec separated pad ha hb h
  refine ⟨sound, Extent.ext attributes_eq (Set.ext fun w => ?_)⟩
  rw [rows]
  simp

theorem leftJoin_spec (separated : Cell.Separated cells) (pad : padding ∈ cells) {a b p : Relation}
    (ha : a.Sound cells) (hb : b.Sound cells) (h : a.leftJoin b = .ok p) :
    p.Sound cells ∧ p.extent = a.extent.leftJoin b.extent := by
  obtain ⟨sound, attributes_eq, rows⟩ := joinWith_spec separated pad ha hb h
  refine ⟨sound, Extent.ext attributes_eq (Set.ext fun w => ?_)⟩
  rw [rows]
  exact or_congr_right (and_iff_right rfl)

theorem rightJoin_spec (separated : Cell.Separated cells) (pad : padding ∈ cells) {a b p : Relation}
    (ha : a.Sound cells) (hb : b.Sound cells) (h : a.rightJoin b = .ok p) :
    p.Sound cells ∧ p.extent = a.extent.rightJoin b.extent := by
  obtain ⟨hnames, m, hm, h⟩ := rightJoin_eq_ok h
  obtain ⟨soundMirrored, mirrored⟩ := leftJoin_spec separated pad hb ha hm
  obtain ⟨sound, rearranged⟩ := rearrange_spec soundMirrored h
  refine ⟨sound, Extent.ext ?_ ?_⟩
  · ext n
    change n ∈ p.names ↔ n ∈ a.names ∨ n ∈ b.names
    rw [hnames, mem_join_names]
  · rw [rearranged, mirrored]
    rfl

theorem fullJoin_spec (separated : Cell.Separated cells) (pad : padding ∈ cells) {a b p : Relation}
    (ha : a.Sound cells) (hb : b.Sound cells) (h : a.fullJoin b = .ok p) :
    p.Sound cells ∧ p.extent = a.extent.fullJoin b.extent := by
  obtain ⟨l, hl, h⟩ := bind_eq_ok.mp h
  obtain ⟨r, hr, h⟩ := bind_eq_ok.mp h
  obtain ⟨soundLeft, leftExtent⟩ := leftJoin_spec separated pad ha hb hl
  obtain ⟨soundRight, rightExtent⟩ := rightJoin_spec separated pad ha hb hr
  have result := union_spec separated soundLeft soundRight h
  rwa [leftExtent, rightExtent] at result

/-! ## Division -/

theorem division_spec (separated : Cell.Separated cells) {a b p : Relation} (ha : a.Sound cells)
    (hb : b.Sound cells) (h : a.division b = .ok p) :
    p.Sound cells ∧ p.extent = a.extent.division b.extent := by
  obtain ⟨-, -, candidates, combined, missing, disqualified, hc, hp, hm, hd, h⟩ := division_eq_ok h
  obtain ⟨soundCandidates, candidates_eq⟩ := projection_spec separated ha hc
  obtain ⟨soundCombined, combined_eq⟩ := product_spec soundCandidates hb hp
  obtain ⟨soundMissing, missing_eq⟩ := difference_spec separated soundCombined ha hm
  obtain ⟨soundDisqualified, disqualified_eq⟩ := projection_spec separated soundMissing hd
  obtain ⟨sound, extent_eq⟩ := difference_spec separated soundCandidates soundDisqualified h
  have only : {n | n ∈ a.unique b} = a.attributes \ b.attributes := Set.ext fun n => mem_unique
  refine ⟨sound, ?_⟩
  rw [extent_eq, disqualified_eq, missing_eq, combined_eq, candidates_eq, only]
  rfl

/-! ## All infix operators -/

theorem apply_spec (separated : Cell.Separated cells) (pad : padding ∈ cells) {op : Query.Binary}
    {a b p : Relation} (ha : a.Sound cells) (hb : b.Sound cells) (h : a.apply op b = .ok p) :
    p.Sound cells ∧ p.extent = a.extent.apply op b.extent := by
  cases op with
  | product => exact product_spec ha hb h
  | difference => exact difference_spec separated ha hb h
  | union => exact union_spec separated ha hb h
  | intersection => exact intersection_spec separated ha hb h
  | division => exact division_spec separated ha hb h
  | join => exact join_spec separated pad ha hb h
  | leftJoin => exact leftJoin_spec separated pad ha hb h
  | rightJoin => exact rightJoin_spec separated pad ha hb h
  | fullJoin => exact fullJoin_spec separated pad ha hb h

/-! ## Equality -/

theorem equal_of_extent_eq {a b : Relation} (ha : a.Sound cells) (hb : b.Sound cells)
    (h : a.extent = b.extent) : a.equal b = true := by
  have same (n : String) : n ∈ a.names ↔ n ∈ b.names := by
    have := congrArg (fun e : Extent => n ∈ e.attributes) h
    exact iff_of_eq this
  obtain ⟨rows, hrows⟩ := (@exists_align_iff a b "comparison").mpr same
  obtain ⟨sound, -, assignments⟩ := align_spec hb hrows
  rw [← h] at assignments
  have rows_eq : rows = a.rows := by
    refine Rows.eq_of_mem_iff sound.wellFormed.ascending ha.wellFormed.ascending fun row => ?_
    constructor
    · intro hrow
      have member := (cell?_mem_assignments a.nodup_names sound.arity (sound.arity row hrow)).mpr hrow
      rw [assignments] at member
      exact (cell?_mem_assignments a.nodup_names ha.arity (sound.arity row hrow)).mp member
    · intro hrow
      have member := (cell?_mem_assignments a.nodup_names ha.arity (ha.arity row hrow)).mpr hrow
      have : Rows.assignments a.names a.rows = a.extent.rows := rfl
      rw [this, ← assignments] at member
      exact (cell?_mem_assignments a.nodup_names sound.arity (ha.arity row hrow)).mp member
  rw [equal, hrows, rows_eq]
  exact Rows.equal_self _

theorem equal_iff_extent_eq (separated : Cell.Separated cells) {a b : Relation} (ha : a.Sound cells)
    (hb : b.Sound cells) : a.equal b = true ↔ a.extent = b.extent := by
  refine ⟨fun h => ?_, equal_of_extent_eq ha hb⟩
  unfold equal at h
  split at h
  · next rows hrows =>
    obtain ⟨sound, attributes_eq, assignments⟩ := align_spec hb hrows
    obtain rfl := Rows.eq_of_equal separated sound.inside ha.inside h
    exact Extent.ext attributes_eq assignments
  · cases h

end Relation

end RelationalAlgebra
