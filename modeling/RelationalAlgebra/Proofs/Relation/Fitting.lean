import Mathlib.Data.List.Perm.Subperm
import RelationalAlgebra.Proofs.Relation.Cells
import RelationalAlgebra.Query.Schema
import RelationalAlgebra.Relation.Algebra
/-!
# When operators apply

Whether an operator gives a relation depends on the names of its operands alone, and so do the names of
what it gives.
-/

namespace RelationalAlgebra

open Query (Binary)

/-! ## Headers -/

namespace Header

theorem fault?_eq_none {seen names : List String} (valid : ∀ n ∈ names, Name.isValid n = true)
    (nodup : names.Nodup) (unseen : ∀ n ∈ names, n ∉ seen) : fault? seen names = none := by
  induction names generalizing seen with
  | nil => rfl
  | cons n ns ih =>
    obtain ⟨hn, hns⟩ := List.nodup_cons.mp nodup
    have new : seen.contains n = false := by simpa using unseen n (List.mem_cons_self ..)
    rw [fault?, if_pos (valid n (List.mem_cons_self ..)), new]
    refine ih (fun m hm => valid m (List.mem_cons_of_mem _ hm)) hns fun m hm mem => ?_
    rcases List.mem_cons.mp mem with rfl | mem
    · exact hn hm
    · exact unseen m (List.mem_cons_of_mem _ hm) mem

theorem ofNames?_eq_ok {names : List String} (valid : ∀ n ∈ names, Name.isValid n = true)
    (nodup : names.Nodup) : ∃ h, ofNames? names = .ok h := by
  unfold ofNames?
  split
  · next fault heq =>
    rw [fault?_eq_none valid nodup (by simp)] at heq
    cases heq
  · exact ⟨_, rfl⟩

theorem sameSet_iff {a b : Header} : a.sameSet b = true ↔ ∀ n, n ∈ a.names ↔ n ∈ b.names := by
  rw [sameSet, Bool.and_eq_true, decide_eq_true_eq, List.all_eq_true]
  simp only [contains, List.contains_iff_mem]
  constructor
  · rintro ⟨length, sub⟩ n
    have perm := (List.Nodup.subperm a.nodup sub).perm_of_length_le (Nat.le_of_eq length.symm)
    exact perm.mem_iff
  · intro same
    have perm := (List.perm_ext_iff_of_nodup a.nodup b.nodup).mpr same
    exact ⟨perm.length_eq, fun n hn => (same n).mp hn⟩

theorem mem_shared {a b : Header} {n : String} :
    n ∈ a.shared b ↔ n ∈ a.names ∧ n ∈ b.names := by
  simp [shared, contains]

theorem mem_extra {a b : Header} {n : String} : n ∈ a.extra b ↔ n ∈ b.names ∧ n ∉ a.names := by
  simp [extra, contains]

theorem nodup_append_extra (a b : Header) : (a.names ++ a.extra b).Nodup := by
  refine List.nodup_append.mpr ⟨a.nodup, b.nodup.sublist List.filter_sublist, ?_⟩
  rintro n hn m hm rfl
  exact (mem_extra.mp hm).2 hn

theorem valid_append_extra (a b : Header) : ∀ n ∈ a.names ++ a.extra b, Name.isValid n = true := by
  intro n hn
  rcases List.mem_append.mp hn with hn | hn
  · exact a.valid n hn
  · exact b.valid n (mem_extra.mp hn).1

/-- The join of two headers always is one. -/
theorem joinHeader_eq_ok (a b : Relation) :
    ∃ h, a.joinHeader b = .ok h ∧ h.names = a.names ++ a.header.extra b.header := by
  obtain ⟨h, hh⟩ := ofNames?_eq_ok (valid_append_extra a.header b.header)
    (nodup_append_extra a.header b.header)
  exact ⟨h, hh, names_of_ofNames? hh⟩

end Header

/-! ## Distinct names -/

theorem mem_distinct {n : String} {names : List String} :
    n ∈ Relation.distinct names ↔ n ∈ names := by
  induction names with
  | nil => rfl
  | cons m ms ih =>
    by_cases h : n = m
    · simp [Relation.distinct, h]
    · simp [Relation.distinct, h, ih]

theorem nodup_distinct (names : List String) : (Relation.distinct names).Nodup := by
  induction names with
  | nil => exact List.nodup_nil
  | cons n ns ih =>
    refine List.nodup_cons.mpr ⟨?_, ih.filter _⟩
    simp

theorem distinct_of_nodup {names : List String} (nodup : names.Nodup) :
    Relation.distinct names = names := by
  induction names with
  | nil => rfl
  | cons n ns ih =>
    obtain ⟨hn, hns⟩ := List.nodup_cons.mp nodup
    rw [Relation.distinct, ih hns, List.filter_eq_self.mpr]
    rintro m hm
    simp only [ne_eq, decide_not, Bool.not_eq_true', decide_eq_false_iff_not]
    rintro rfl
    exact hn hm

namespace Relation

/-! ## Unary operators -/

theorem projection_eq_ok {r p : Relation} {names : List String} (h : r.projection names = .ok p) :
    names ≠ [] ∧ p.names = distinct names ∧ ∃ ps, r.header.positions (distinct names) = .ok ps ∧
      p.rows = Rows.collect (r.rows.map (Row.pick ps)) := by
  unfold projection at h
  split at h
  · cases h
  · next ns hne =>
    have ne : names ≠ [] := by
      rintro rfl
      exact hne rfl
    split at h
    · cases h
    · next ps hps =>
      obtain ⟨header, hheader, rfl⟩ := map_eq_ok.mp h
      exact ⟨ne, Header.names_of_ofNames? hheader, ps, hps, rfl⟩

theorem exists_projection_iff {r : Relation} {names : List String} :
    (∃ p, r.projection names = .ok p) ↔ names ≠ [] ∧ ∀ n ∈ names, n ∈ r.names := by
  constructor
  · rintro ⟨p, h⟩
    obtain ⟨ne, -, ps, hps, -⟩ := projection_eq_ok h
    exact ⟨ne, fun n hn => Header.mem_of_positions hps n (mem_distinct.mpr hn)⟩
  · rintro ⟨ne, sub⟩
    have ne' : distinct names ≠ [] := by
      cases names with
      | nil => exact absurd rfl ne
      | cons n ns => simp [distinct]
    have sub' : ∀ n ∈ distinct names, n ∈ r.header.names := fun n hn => sub n (mem_distinct.mp hn)
    obtain ⟨ps, hps⟩ := Header.exists_positions sub'
    obtain ⟨header, hheader⟩ := Header.ofNames?_eq_ok (fun n hn => r.header.valid n (sub' n hn))
      (nodup_distinct names)
    unfold projection
    split
    · next hnil => exact absurd hnil ne'
    · rw [hps, hheader]
      exact ⟨_, rfl⟩

theorem rename_eq_ok {r p : Relation} {map : Renaming} (h : r.rename map = .ok p) :
    p.names = r.names.map map.apply ∧ p.rows = r.rows := by
  obtain ⟨header, hheader, rfl⟩ := map_eq_ok.mp h
  unfold Header.rename at hheader
  split at hheader
  · cases hheader
  · exact ⟨Header.names_of_ofNames? hheader, rfl⟩

theorem exists_rename_iff {r : Relation} {map : Renaming} :
    (∃ p, r.rename map = .ok p) ↔ (∀ n ∈ map.keys, n ∈ r.names) ∧
      (r.names.map map.apply).Nodup ∧ ∀ n ∈ r.names, Name.isValid (map.apply n) = true := by
  have known : (map.keys.find? fun old => !r.header.contains old) = none ↔
      ∀ n ∈ map.keys, n ∈ r.names := by
    simp [List.find?_eq_none, Header.contains, Relation.names]
  constructor
  · rintro ⟨p, h⟩
    obtain ⟨header, hheader, rfl⟩ := map_eq_ok.mp h
    unfold Header.rename at hheader
    split at hheader
    · cases hheader
    · next hnone =>
      have names := Header.names_of_ofNames? hheader
      refine ⟨known.mp hnone, ?_, fun n hn => ?_⟩
      · rw [Relation.names, ← names]
        exact header.nodup
      · exact header.valid _ (names ▸ List.mem_map_of_mem hn)
  · rintro ⟨keys, nodup, valid⟩
    have valid' : ∀ n ∈ r.header.names.map map.apply, Name.isValid n = true := by
      intro n hn
      obtain ⟨m, hm, rfl⟩ := List.mem_map.mp hn
      exact valid m hm
    obtain ⟨header, hheader⟩ := Header.ofNames?_eq_ok valid' nodup
    refine ⟨⟨header, r.rows⟩, map_eq_ok.mpr ⟨header, ?_, rfl⟩⟩
    rw [Header.rename, known.mpr keys]
    exact hheader

/-! ## Set operators -/

theorem align_eq_ok {a b : Relation} {operation : String} {rows : Rows}
    (h : a.align b operation = .ok rows) :
    (∀ n, n ∈ a.names ↔ n ∈ b.names) ∧ (a.header = b.header ∧ rows = b.rows ∨
      ∃ ps, b.header.positions a.names = .ok ps ∧ rows = Rows.collect (b.rows.map (Row.pick ps))) := by
  unfold align at h
  split at h
  · next same =>
    refine ⟨Header.sameSet_iff.mp same, ?_⟩
    split at h
    · next heq => exact .inl ⟨heq, (Except.ok.inj h).symm⟩
    · obtain ⟨ps, hps, rfl⟩ := map_eq_ok.mp h
      exact .inr ⟨ps, hps, rfl⟩
  · cases h

theorem exists_align_iff {a b : Relation} {operation : String} :
    (∃ rows, a.align b operation = .ok rows) ↔ ∀ n, n ∈ a.names ↔ n ∈ b.names := by
  constructor
  · rintro ⟨rows, h⟩
    exact (align_eq_ok h).1
  · intro same
    unfold align
    rw [if_pos (Header.sameSet_iff.mpr same)]
    split
    · exact ⟨_, rfl⟩
    · obtain ⟨ps, hps⟩ := Header.exists_positions fun n hn => (same n).mp hn
      rw [hps]
      exact ⟨_, rfl⟩

theorem exists_rearrange_iff {r : Relation} {header : Header} :
    (∃ p, r.rearrange header = .ok p) ↔ header.names.Perm r.names := by
  rw [rearrange, exists_map_eq_ok, exists_align_iff]
  exact (List.perm_ext_iff_of_nodup header.nodup r.header.nodup).symm

theorem exists_union_iff {a b : Relation} :
    (∃ p, a.union b = .ok p) ↔ ∀ n, n ∈ a.names ↔ n ∈ b.names :=
  exists_map_eq_ok.trans exists_align_iff

theorem exists_intersection_iff {a b : Relation} :
    (∃ p, a.intersection b = .ok p) ↔ ∀ n, n ∈ a.names ↔ n ∈ b.names :=
  exists_map_eq_ok.trans exists_align_iff

theorem exists_difference_iff {a b : Relation} :
    (∃ p, a.difference b = .ok p) ↔ ∀ n, n ∈ a.names ↔ n ∈ b.names :=
  exists_map_eq_ok.trans exists_align_iff

theorem union_names {a b p : Relation} (h : a.union b = .ok p) : p.names = a.names := by
  obtain ⟨rows, -, rfl⟩ := map_eq_ok.mp h
  rfl

theorem intersection_names {a b p : Relation} (h : a.intersection b = .ok p) :
    p.names = a.names := by
  obtain ⟨rows, -, rfl⟩ := map_eq_ok.mp h
  rfl

theorem difference_names {a b p : Relation} (h : a.difference b = .ok p) : p.names = a.names := by
  obtain ⟨rows, -, rfl⟩ := map_eq_ok.mp h
  rfl

/-! ## Products and joins -/

theorem product_eq_ok {a b p : Relation} (h : a.product b = .ok p) :
    (∀ n ∈ a.names, n ∉ b.names) ∧ p.names = a.names ++ b.names ∧
      p.rows = Rows.ofInsertions (a.rows.flatMap fun l => b.rows.map fun r => l ++ r) := by
  unfold product at h
  split at h
  · next hnil =>
    obtain ⟨header, hheader, rfl⟩ := map_eq_ok.mp h
    refine ⟨fun n ha hb => ?_, Header.names_of_ofNames? hheader, rfl⟩
    have := Header.mem_shared.mpr ⟨ha, hb⟩
    rw [hnil] at this
    cases this
  · cases h

theorem exists_product_iff {a b : Relation} :
    (∃ p, a.product b = .ok p) ↔ ∀ n ∈ a.names, n ∉ b.names := by
  constructor
  · rintro ⟨p, h⟩
    exact (product_eq_ok h).1
  · intro disjoint
    have none : a.header.shared b.header = [] := by
      refine List.eq_nil_iff_forall_not_mem.mpr fun n hn => ?_
      obtain ⟨ha, hb⟩ := Header.mem_shared.mp hn
      exact disjoint n ha hb
    have valid : ∀ n ∈ a.names ++ b.names, Name.isValid n = true := by
      intro n hn
      rcases List.mem_append.mp hn with hn | hn
      · exact a.header.valid n hn
      · exact b.header.valid n hn
    have nodup : (a.names ++ b.names).Nodup := by
      refine List.nodup_append.mpr ⟨a.header.nodup, b.header.nodup, ?_⟩
      rintro n ha m hb rfl
      exact disjoint n ha hb
    obtain ⟨header, hheader⟩ := Header.ofNames?_eq_ok valid nodup
    unfold product
    rw [none, hheader]
    exact ⟨_, rfl⟩

theorem joinWith_eq_ok {keep : Bool} {a b p : Relation} (h : joinWith keep a b = .ok p) :
    p.names = a.names ++ a.header.extra b.header ∧ ∃ ps qs,
      a.header.positions (a.header.shared b.header) = .ok ps ∧
      b.header.positions (a.header.shared b.header) = .ok qs ∧
      p.rows = Rows.ofInsertions (a.rows.flatMap (joined keep b.rows ps qs
        ((List.range b.header.size).filter fun i => !qs.contains i))) := by
  unfold joinWith at h
  obtain ⟨ps, hps, h⟩ := bind_eq_ok.mp h
  obtain ⟨qs, hqs, h⟩ := bind_eq_ok.mp h
  obtain ⟨header, hheader, h⟩ := bind_eq_ok.mp h
  obtain rfl := Except.ok.inj h
  exact ⟨Header.names_of_ofNames? hheader, ps, qs, hps, hqs, rfl⟩

theorem exists_joinWith (keep : Bool) (a b : Relation) : ∃ p, joinWith keep a b = .ok p := by
  obtain ⟨ps, hps⟩ := @Header.exists_positions a.header (a.header.shared b.header) fun n hn =>
    (Header.mem_shared.mp hn).1
  obtain ⟨qs, hqs⟩ := @Header.exists_positions b.header (a.header.shared b.header) fun n hn =>
    (Header.mem_shared.mp hn).2
  obtain ⟨header, hheader, -⟩ := Header.joinHeader_eq_ok a b
  unfold joinWith
  simp only [hps, hqs, hheader]
  exact ⟨_, rfl⟩

theorem rearrange_eq_ok {r p : Relation} {header : Header} (h : r.rearrange header = .ok p) :
    p.header = header ∧ ∃ rows, (empty header).align r "rearrange" = .ok rows ∧ p.rows = rows := by
  obtain ⟨rows, hrows, rfl⟩ := map_eq_ok.mp h
  exact ⟨rfl, rows, hrows, rfl⟩

theorem rightJoin_eq_ok {a b p : Relation} (h : a.rightJoin b = .ok p) :
    p.names = a.names ++ a.header.extra b.header ∧
      ∃ m, b.leftJoin a = .ok m ∧ m.rearrange p.header = .ok p := by
  unfold rightJoin at h
  obtain ⟨m, hm, h⟩ := bind_eq_ok.mp h
  obtain ⟨header, hheader, h⟩ := bind_eq_ok.mp h
  obtain rfl := (rearrange_eq_ok h).1
  exact ⟨Header.names_of_ofNames? hheader, m, hm, h⟩

theorem mem_join_names {a b : Relation} {n : String} :
    n ∈ a.names ++ a.header.extra b.header ↔ n ∈ a.names ∨ n ∈ b.names := by
  rw [List.mem_append, Header.mem_extra]
  by_cases ha : n ∈ a.names
  · simp [ha]
  · exact or_congr_right ⟨fun h => h.1, fun h => ⟨h, ha⟩⟩

theorem exists_rightJoin (a b : Relation) : ∃ p, a.rightJoin b = .ok p := by
  obtain ⟨m, hm⟩ := exists_joinWith true b a
  obtain ⟨header, hheader, names⟩ := Header.joinHeader_eq_ok a b
  have same (n : String) : n ∈ (empty header).names ↔ n ∈ m.names := by
    rw [(joinWith_eq_ok hm).1, mem_join_names, Relation.names, empty, names, mem_join_names, or_comm]
  obtain ⟨rows, hrows⟩ := exists_align_iff.mpr same
  refine ⟨⟨header, rows⟩, bind_eq_ok.mpr ⟨m, hm, bind_eq_ok.mpr ⟨header, hheader, ?_⟩⟩⟩
  exact map_eq_ok.mpr ⟨rows, hrows, rfl⟩

theorem exists_fullJoin (a b : Relation) : ∃ p, a.fullJoin b = .ok p := by
  obtain ⟨l, hl⟩ := exists_joinWith true a b
  obtain ⟨r, hr⟩ := exists_rightJoin a b
  have same (n : String) : n ∈ l.names ↔ n ∈ r.names := by
    rw [(joinWith_eq_ok hl).1, (rightJoin_eq_ok hr).1]
  obtain ⟨p, hp⟩ := exists_union_iff.mpr same
  exact ⟨p, bind_eq_ok.mpr ⟨l, hl, bind_eq_ok.mpr ⟨r, hr, hp⟩⟩⟩

/-! ## Division -/

def unique (a b : Relation) : List String := a.names.filter fun n => !b.header.contains n

theorem mem_unique {a b : Relation} {n : String} : n ∈ a.unique b ↔ n ∈ a.names ∧ n ∉ b.names := by
  simp [unique, Header.contains, names]

theorem nodup_unique (a b : Relation) : (a.unique b).Nodup := a.header.nodup.filter _

theorem division_eq_ok {a b p : Relation} (h : a.division b = .ok p) :
    (∀ n ∈ b.names, n ∈ a.names) ∧ a.unique b ≠ [] ∧ ∃ candidates combined missing disqualified,
      a.projection (a.unique b) = .ok candidates ∧ candidates.product b = .ok combined ∧
      combined.difference a = .ok missing ∧ missing.projection (a.unique b) = .ok disqualified ∧
      candidates.difference disqualified = .ok p := by
  unfold division at h
  split at h
  · cases h
  · next known =>
    split at h
    · cases h
    · next ne =>
      obtain ⟨candidates, hc, h⟩ := bind_eq_ok.mp h
      obtain ⟨combined, hp, h⟩ := bind_eq_ok.mp h
      obtain ⟨missing, hm, h⟩ := bind_eq_ok.mp h
      obtain ⟨disqualified, hd, h⟩ := bind_eq_ok.mp h
      refine ⟨fun n hn => ?_, ne, candidates, combined, missing, disqualified, hc, hp, hm, hd, h⟩
      have := List.find?_eq_none.mp known n hn
      simpa [Header.contains, names] using this

theorem exists_division_iff {a b : Relation} :
    (∃ p, a.division b = .ok p) ↔ (∀ n ∈ b.names, n ∈ a.names) ∧ ∃ n ∈ a.names, n ∉ b.names := by
  constructor
  · rintro ⟨p, h⟩
    obtain ⟨known, ne, -⟩ := division_eq_ok h
    obtain ⟨n, hn⟩ := List.exists_mem_of_ne_nil _ ne
    exact ⟨known, n, mem_unique.mp hn⟩
  · rintro ⟨known, n, hn⟩
    have ne : a.unique b ≠ [] := List.ne_nil_of_mem (mem_unique.mpr hn)
    have find : (b.names.find? fun n => !a.header.contains n) = none := by
      refine List.find?_eq_none.mpr fun m hm => ?_
      simpa [Header.contains, names] using known m hm
    obtain ⟨candidates, hc⟩ := exists_projection_iff.mpr
      ⟨ne, fun m hm => (mem_unique.mp hm).1⟩
    have candidates_names : candidates.names = a.unique b := by
      rw [(projection_eq_ok hc).2.1, distinct_of_nodup (nodup_unique a b)]
    obtain ⟨combined, hp⟩ := (exists_product_iff (a := candidates) (b := b)).mpr fun m hm => by
      rw [candidates_names] at hm
      exact (mem_unique.mp hm).2
    have same (m : String) : m ∈ combined.names ↔ m ∈ a.names := by
      rw [(product_eq_ok hp).2.1, List.mem_append, candidates_names, mem_unique]
      have := known m
      tauto
    obtain ⟨missing, hm⟩ := exists_difference_iff.mpr same
    obtain ⟨disqualified, hd⟩ := (exists_projection_iff (r := missing)).mpr
      ⟨ne, fun m hmem => by
        rw [difference_names hm]
        exact (same m).mpr (mem_unique.mp hmem).1⟩
    have same' (m : String) : m ∈ candidates.names ↔ m ∈ disqualified.names := by
      rw [(projection_eq_ok hd).2.1, mem_distinct, candidates_names]
    obtain ⟨q, hq⟩ := exists_difference_iff.mpr same'
    unfold division
    rw [find]
    simp only
    split
    · next hnil => exact absurd hnil ne
    · exact ⟨q, bind_eq_ok.mpr ⟨_, hc, bind_eq_ok.mpr ⟨_, hp, bind_eq_ok.mpr ⟨_, hm,
        bind_eq_ok.mpr ⟨_, hd, hq⟩⟩⟩⟩⟩

/-! ## Infix operators -/

/-- Whether an operator applies to operands with these attributes. -/
def Fits (op : Binary) (left right : List String) : Prop :=
  match op with
  | .product => ∀ n ∈ left, n ∉ right
  | .union | .intersection | .difference => ∀ n, n ∈ left ↔ n ∈ right
  | .division => (∀ n ∈ right, n ∈ left) ∧ ∃ n ∈ left, n ∉ right
  | .join | .leftJoin | .rightJoin | .fullJoin => True

theorem fits_setOperator {op : Binary} (h : op.isSetOperator = true) {left right : List String} :
    Fits op left right ↔ ∀ n, n ∈ left ↔ n ∈ right := by
  cases op with
  | union | intersection | difference => exact Iff.rfl
  | product | division | join | leftJoin | rightJoin | fullJoin => cases h

theorem fits_congr {op : Binary} {left left' right right' : List String}
    (hl : ∀ n, n ∈ left' ↔ n ∈ left) (hr : ∀ n, n ∈ right' ↔ n ∈ right) :
    Fits op left' right' ↔ Fits op left right := by
  cases op with
  | join | leftJoin | rightJoin | fullJoin => exact Iff.rfl
  | product => simp only [Fits, hl, hr]
  | difference | union | intersection | division => simp only [Fits, hl, hr]

theorem exists_apply_iff {op : Binary} {a b : Relation} :
    (∃ p, a.apply op b = .ok p) ↔ Fits op a.names b.names := by
  cases op with
  | product => exact exists_product_iff
  | difference => exact exists_difference_iff
  | union => exact exists_union_iff
  | intersection => exact exists_intersection_iff
  | division => exact exists_division_iff
  | join => exact iff_of_true (exists_joinWith false a b) trivial
  | leftJoin => exact iff_of_true (exists_joinWith true a b) trivial
  | rightJoin => exact iff_of_true (exists_rightJoin a b) trivial
  | fullJoin => exact iff_of_true (exists_fullJoin a b) trivial

theorem apply_names {op : Binary} {a b p : Relation} (h : a.apply op b = .ok p) :
    p.names = Query.Tree.joinNames op a.names b.names := by
  cases op with
  | product => exact (product_eq_ok h).2.1
  | difference => exact difference_names h
  | union => exact union_names h
  | intersection => exact intersection_names h
  | division =>
    obtain ⟨-, -, candidates, combined, missing, disqualified, hc, -, -, -, h⟩ := division_eq_ok h
    rw [difference_names h, (projection_eq_ok hc).2.1, distinct_of_nodup (nodup_unique a b)]
    rfl
  | join => exact (joinWith_eq_ok h).1
  | leftJoin => exact (joinWith_eq_ok h).1
  | rightJoin => exact (rightJoin_eq_ok h).1
  | fullJoin =>
    obtain ⟨l, hl, h⟩ := bind_eq_ok.mp h
    obtain ⟨r, -, h⟩ := bind_eq_ok.mp h
    rw [union_names h, (joinWith_eq_ok hl).1]
    rfl

end Relation

end RelationalAlgebra
