import RelationalAlgebra.Proofs.Name.Entries
import RelationalAlgebra.Proofs.Predicate.Conjunctions
import RelationalAlgebra.Proofs.Relation.Kinds
import RelationalAlgebra.Proofs.Relation.Matching
import RelationalAlgebra.Proofs.Relation.SetOperators
/-!
# Changes as algebra

An update takes the selected rows out of a relation and puts them in again with other cells, a deletion takes
them out, an insertion adds a row.  Rows that become equal become one, so what a change leaves is a set; the
rows that a change does not touch stay as they were, cell by cell.
-/

namespace RelationalAlgebra

open Predicate (cell? lastPlace? answer)

/-! ## Rows inserted one after the other -/

namespace Rows

variable {row x : Row} {rows added : Rows}

theorem contains_eq_true_iff : contains rows row = true ↔ ∃ y ∈ rows, Row.compare row y = .eq := by
  simp only [contains, List.any_eq_true, Row.same, decide_eq_true_eq]

theorem mem_insert_iff (ascending : Ascending rows) :
    x ∈ insert row rows ↔ x ∈ rows ∨ x = row ∧ contains rows row = false := by
  induction rows with
  | nil => simp [insert, contains]
  | cons r rs ih =>
    obtain ⟨first, later⟩ := List.pairwise_cons.mp ascending
    rw [insert]
    split
    · next lt =>
      have new : contains (r :: rs) row = false := by
        rw [← Bool.not_eq_true, contains_eq_true_iff]
        rintro ⟨y, hy, same⟩
        have below : Row.compare row y = .lt := by
          rcases List.mem_cons.mp hy with rfl | hy
          · exact lt
          · exact Std.TransCmp.lt_trans lt (first y hy)
        rw [below] at same
        cases same
      rw [new, List.mem_cons]
      simp [or_comm]
    · next same =>
      have old : contains (r :: rs) row = true :=
        contains_eq_true_iff.mpr ⟨r, List.mem_cons_self .., same⟩
      simp [old]
    · next gt =>
      have other : contains (r :: rs) row = contains rs row := by
        simp [contains, Row.same, gt]
      rw [List.mem_cons, ih later, other, List.mem_cons, or_assoc]

theorem contains_insert (ascending : Ascending rows) : contains (insert row rows) row = true := by
  by_cases old : contains rows row = true
  · obtain ⟨y, hy, same⟩ := contains_eq_true_iff.mp old
    exact contains_eq_true_iff.mpr ⟨y, (mem_insert_iff ascending).mpr (.inl hy), same⟩
  · have mem := (mem_insert_iff ascending).mpr (.inr ⟨rfl, Bool.eq_false_of_not_eq_true old⟩)
    exact contains_eq_true_iff.mpr ⟨row, mem, Row.compare_self row⟩

/-- No row comes from elsewhere, none is lost, and each one that is added has an equal one. -/
theorem mem_insertAll (ascending : Ascending rows) :
    (∀ x ∈ added.foldl (fun rows row => insert row rows) rows, x ∈ rows ∨ x ∈ added) ∧
      (∀ x ∈ rows, x ∈ added.foldl (fun rows row => insert row rows) rows) ∧
      ∀ x ∈ added, contains (added.foldl (fun rows row => insert row rows) rows) x = true := by
  induction added generalizing rows with
  | nil => exact ⟨fun x hx => .inl hx, fun x hx => hx, fun x hx => (List.not_mem_nil hx).elim⟩
  | cons row added ih =>
    obtain ⟨origin, kept, covered⟩ := @ih (insert row rows) (ascending_insert ascending)
    refine ⟨fun x hx => ?_, fun x hx => kept x ((mem_insert_iff ascending).mpr (.inl hx)), ?_⟩
    · rcases origin x hx with hx | hx
      · rcases (mem_insert_iff ascending).mp hx with hx | ⟨rfl, -⟩
        · exact .inl hx
        · exact .inr (List.mem_cons_self ..)
      · exact .inr (List.mem_cons_of_mem _ hx)
    · intro x hx
      rcases List.mem_cons.mp hx with rfl | hx
      · have inserted : contains (insert x rows) x = true := contains_insert ascending
        obtain ⟨y, hy, same⟩ := contains_eq_true_iff.mp inserted
        exact contains_eq_true_iff.mpr ⟨y, kept y hy, same⟩
      · exact covered x hx

theorem contains_iff_mem {all : Rows} (apart : Apart all) (sub : ∀ y ∈ rows, y ∈ all) (hrow : row ∈ all) :
    contains rows row = true ↔ row ∈ rows := by
  rw [contains_eq_true_iff]
  constructor
  · rintro ⟨y, hy, same⟩
    rwa [apart row hrow y (sub y hy) same]
  · exact fun h => ⟨row, h, Row.compare_self row⟩

theorem mem_difference_iff (apart : Apart rows) (sub : ∀ y ∈ added, y ∈ rows) :
    row ∈ difference rows added ↔ row ∈ rows ∧ row ∉ added := by
  rw [difference, List.mem_filter]
  refine and_congr_right fun hrow => ?_
  rw [Bool.not_eq_true', ← Bool.not_eq_true, contains_iff_mem apart sub hrow]

end Rows

/-! ## Cells under names -/

theorem same_of_compare {a b : Row} (h : Row.compare a b = .eq) (names : List String) :
    Assignment.Same (cell? names a) (cell? names b) := by
  have cells := Row.compare_eq_iff.mp h
  intro n
  rw [cell?, cell?]
  cases lastPlace? n names with
  | none => exact .none
  | some i =>
    by_cases hi : i < a.length
    · have hi' : i < b.length := cells.length_eq ▸ hi
      simp only [List.getElem?_eq_getElem hi, List.getElem?_eq_getElem hi']
      exact .some (cells.get hi hi')
    · have hi' : ¬i < b.length := cells.length_eq ▸ hi
      simp only [List.getElem?_eq_none (Nat.le_of_not_lt hi), List.getElem?_eq_none (Nat.le_of_not_lt hi')]
      exact .none

theorem Assignment.Same.refl (w : Assignment) : w.Same w := Assignment.same_iff_represent.mpr rfl

theorem Assignment.Same.trans {w u v : Assignment} (h : w.Same u) (h' : u.Same v) : w.Same v :=
  Assignment.same_iff_represent.mpr
    ((Assignment.same_iff_represent.mp h).trans (Assignment.same_iff_represent.mp h'))

theorem Assignment.Same.merge_left {u v : Assignment} (h : u.Same v) (w : Assignment) :
    (w.merge u).Same (w.merge v) := by
  rw [Assignment.same_iff_represent, Assignment.represent_merge, Assignment.represent_merge,
    Assignment.same_iff_represent.mp h]

theorem cell?_set {h : Header} {name : String} {i : Nat} (hi : h.position? name = some i) {row : Row}
    (length : row.length = h.names.length) (c : Cell) :
    cell? h.names (row.set i c) = Function.update (cell? h.names row) name (some c) := by
  have place := Header.getElem?_of_position? hi
  obtain ⟨lt, -⟩ := List.getElem?_eq_some_iff.mp place
  funext n
  by_cases same : n = name
  · subst same
    rw [Function.update_self, cell?, lastPlace?_of_nodup h.nodup place]
    exact List.getElem?_set_self (length ▸ lt)
  · rw [Function.update_of_ne same, cell?, cell?]
    cases hj : lastPlace? n h.names with
    | none => rfl
    | some j =>
      have differ : i ≠ j := by
        rintro rfl
        have := getElem?_of_lastPlace? hj
        rw [place] at this
        exact same (Option.some.inj this).symm
      exact List.getElem?_set_ne differ

theorem Assignment.merge_update {w : Assignment} {name : String} (absent : w name = none) (u : Assignment)
    (c : Cell) :
    w.merge (Function.update u name (some c)) = Assignment.merge (Function.update w name (some c)) u := by
  funext n
  rw [merge, merge]
  by_cases same : n = name
  · subst same
    rw [Function.update_self, Function.update_self, absent, Option.none_or, Option.some_or]
  · rw [Function.update_of_ne same, Function.update_of_ne same]

def Extent.overwrite (stored : Assignment) (e : Extent) : Extent :=
  ⟨e.attributes, {w | ∃ u ∈ e.rows, w.Same (stored.merge u)}⟩

namespace Relation

variable {r s : Relation} {change : Change} {predicate : String}

theorem mem_contents {w : Assignment} :
    w ∈ r.contents.rows ↔ ∃ row ∈ r.rows, w.Same (cell? r.names row) := by
  constructor
  · rintro ⟨_, ⟨row, hrow, rfl⟩, same⟩
    exact ⟨row, hrow, same⟩
  · rintro ⟨row, hrow, same⟩
    exact ⟨_, ⟨row, hrow, rfl⟩, same⟩

/-! ## The cells that are stored -/

/-- Whether a column has cells, and all of them are of one kind. -/
def HasKind (r : Relation) (name : String) (kind : Kind) : Prop :=
  (r.column name).Nonempty ∧ ∀ c ∈ r.column name, c.kind = kind

/-- How a cell is stored in a column.  Where all cells of the column have another kind, its text is read as
that kind, which must not fail; anywhere else it is stored as it is. -/
inductive Stores (r : Relation) (name : String) (cell : Cell) : Cell → Prop
  | free (none : ∀ kind, ¬r.HasKind name kind) : Stores r name cell cell
  | same (has : r.HasKind name cell.kind) : Stores r name cell cell
  | cast {kind : Kind} (has : r.HasKind name kind) (other : cell.kind ≠ kind)
      (fits : (Cell.cast kind cell.write).kind = kind) : Stores r name cell (Cell.cast kind cell.write)

/-- How the given cells are stored, each in the column of its name. -/
def StoresAll (r : Relation) (given stored : Assignment) : Prop :=
  ∀ n, Option.Rel (r.Stores n) (given n) (stored n)

theorem kindOf_eq_some_iff {kind : Kind} {cells : List Cell} :
    kindOf cells = some kind ↔ cells ≠ [] ∧ ∀ c ∈ cells, c.kind = kind := by
  refine ⟨fun h => ?_, fun ⟨ne, all⟩ => kindOf_eq ne all⟩
  cases cells with
  | nil => cases h
  | cons c cs =>
    rw [kindOf] at h
    split at h
    · next others =>
      obtain rfl := Option.some.inj h
      refine ⟨List.cons_ne_nil _ _, List.forall_mem_cons.mpr ⟨rfl, fun d hd => ?_⟩⟩
      exact of_decide_eq_true (List.all_eq_true.mp others d hd)
    · cases h

theorem mem_column_iff (h : r.WellFormed) {name : String} {i : Nat}
    (hi : r.header.position? name = some i) {c : Cell} :
    c ∈ r.column name ↔ c ∈ r.rows.map fun row => row.getD i (.text "") := by
  rw [List.mem_map]
  refine exists_congr fun row => and_congr_right fun hrow => ?_
  rw [names, cell?_of_position? hi (h.arity row hrow) (.text ""), Option.some_inj]

theorem columnKinds_eq_some_iff (h : r.WellFormed) {name : String} {i : Nat}
    (hi : r.header.position? name = some i) {kind : Kind} :
    r.columnKinds.getD i none = some kind ↔ r.HasKind name kind := by
  obtain ⟨lt, -⟩ := List.getElem?_eq_some_iff.mp (Header.getElem?_of_position? hi)
  have inRange : (List.range r.header.size)[i]? = some i := List.getElem?_range lt
  have found : r.columnKinds.getD i none = kindOf (r.rows.map fun row => row.getD i (.text "")) := by
    rw [columnKinds, List.getD_eq_getElem?_getD, List.getElem?_map, inRange]
    rfl
  rw [found, kindOf_eq_some_iff, HasKind]
  refine and_congr ?_ (forall_congr' fun c => imp_congr_left (mem_column_iff h hi).symm)
  constructor
  · intro ne
    obtain ⟨c, hc⟩ := List.exists_mem_of_ne_nil _ ne
    exact ⟨c, (mem_column_iff h hi).mpr hc⟩
  · rintro ⟨c, hc⟩
    exact List.ne_nil_of_mem ((mem_column_iff h hi).mp hc)

theorem stores_of_conform (h : r.WellFormed) {name : String} {i : Nat}
    (hi : r.header.position? name = some i) {cell stored : Cell}
    (conformed : conform name (r.columnKinds.getD i none) cell = .ok stored) :
    r.Stores name cell stored := by
  cases found : r.columnKinds.getD i none with
  | none =>
    rw [found] at conformed
    obtain rfl := Except.ok.inj conformed
    refine .free fun kind has => ?_
    rw [← columnKinds_eq_some_iff h hi, found] at has
    cases has
  | some kind =>
    have has : r.HasKind name kind := (columnKinds_eq_some_iff h hi).mp found
    rw [found, conform] at conformed
    split at conformed
    · next same =>
      obtain rfl := Except.ok.inj conformed
      exact .same (same ▸ has)
    · next other =>
      simp only at conformed
      split at conformed
      · next fits =>
        obtain rfl := Except.ok.inj conformed
        exact .cast has other fits
      · cases conformed

/-! ## Updates -/

theorem StoresAll.update {given stored : Assignment} (all : r.StoresAll given stored) {name : String}
    {cell c : Cell} (one : r.Stores name cell c) :
    r.StoresAll (Function.update given name (some cell)) (Function.update stored name (some c)) := by
  intro n
  by_cases same : n = name
  · subst same
    rw [Function.update_self, Function.update_self]
    exact .some one
  · rw [Function.update_of_ne same, Function.update_of_ne same]
    exact all n

theorem StoresAll.eq_none {given stored : Assignment} (all : r.StoresAll given stored) {n : String}
    (absent : given n = none) : stored n = none := by
  have stores := all n
  rw [absent] at stores
  generalize stored n = c at stores
  cases stores
  rfl

/-- What the targets of an update store, by the names of the columns. -/
theorem exists_stored_of_targets (h : r.WellFormed) {entries : List (String × Cell)}
    {ts : List (Nat × Cell)} (ascending : Name.Ascending entries) (hts : r.targets entries = .ok ts) :
    ∃ stored : Assignment, r.StoresAll (fun n => Name.lookup n entries) stored ∧
      (∀ e ∈ entries, e.1 ∈ r.names) ∧
      ∀ row : Row, row.length = r.header.size →
        cell? r.names (overwrite ts row) = stored.merge (cell? r.names row) := by
  induction entries generalizing ts with
  | nil =>
    obtain rfl := Except.ok.inj hts
    exact ⟨fun _ => none, fun _ => .none, by simp, fun row _ => rfl⟩
  | cons entry entries ih =>
    obtain ⟨name, cell⟩ := entry
    obtain ⟨first, later⟩ := List.pairwise_cons.mp ascending
    rw [targets] at hts
    split at hts
    · cases hts
    · next i hi =>
      split at hts
      · cases hts
      · next c conformed =>
        obtain ⟨others, rest, rfl⟩ := map_eq_ok.mp hts
        obtain ⟨stored, stores, known, cells⟩ := ih later rest
        have absent : Name.lookup name entries = none := by
          refine Option.eq_none_iff_forall_not_mem.mpr fun d hd => ?_
          exact String.lt_irrefl name (first _ ((Name.lookup_eq_some_iff later).mp hd))
        have looked : (fun n => Name.lookup n ((name, cell) :: entries)) =
            Function.update (fun n => Name.lookup n entries) name (some cell) := by
          funext n
          by_cases same : n = name <;> simp [Name.lookup, same]
        refine ⟨Function.update stored name (some c), ?_, ?_, fun row length => ?_⟩
        · rw [looked]
          exact stores.update (stores_of_conform h hi conformed)
        · have mem := List.mem_of_getElem? (Header.getElem?_of_position? hi)
          exact List.forall_mem_cons.mpr ⟨mem, known⟩
        · have step : overwrite ((i, c) :: others) row = overwrite others (row.set i c) := rfl
          rw [step, cells _ (by rwa [List.length_set]), names, cell?_set hi length,
            Assignment.merge_update (stores.eq_none absent)]

/-- What an update leaves of a relation `r` with the selected rows `s`. -/
structure Updates (r s : Relation) (changes : Name.Map Cell) (stored : Assignment) (change : Change) :
    Prop where
  columns : ∀ n ∈ changes.keys, n ∈ r.names
  stores : r.StoresAll changes.get? stored
  count : change.count = s.size
  header : change.relation.header = r.header
  contents : change.relation.contents = (r.contents.difference s.contents).union (s.contents.overwrite stored)
  /-- Rows that are not selected stay as they are. -/
  kept : ∀ row ∈ r.rows, row ∉ s.rows → row ∈ change.relation.rows
  origin : ∀ row ∈ change.relation.rows, row ∈ r.rows ∧ row ∉ s.rows ∨
    ∃ old ∈ s.rows, cell? r.names row = stored.merge (cell? r.names old)

theorem selection_of_matching {clause : Predicate.Clause} {rows : Rows}
    (read : clause? predicate = .ok clause) (matched : matching r.names clause r.rows = .ok rows) :
    r.selection predicate = .ok ⟨r.header, rows⟩ := by
  rw [selection, read]
  simp only [filter, matched]
  rfl

theorem difference_eq_ok (r : Relation) (rows : Rows) :
    r.difference ⟨r.header, rows⟩ = .ok ⟨r.header, Rows.difference r.rows rows⟩ := by
  have same : r.header.sameSet r.header = true := Header.sameSet_iff.mpr fun _ => Iff.rfl
  rw [difference, align, if_pos same, if_pos rfl]
  rfl

theorem contents_foldl_insert {header : Header} {kept added : Rows} (ascending : Rows.Ascending kept)
    (w : Assignment) :
    w ∈ (contents ⟨header, added.foldl (fun rows row => Rows.insert row rows) kept⟩).rows ↔
      w ∈ (contents ⟨header, kept⟩).rows ∨ ∃ row ∈ added, w.Same (cell? header.names row) := by
  obtain ⟨origin, stays, covered⟩ := @Rows.mem_insertAll kept added ascending
  rw [mem_contents, mem_contents]
  constructor
  · rintro ⟨row, hrow, same⟩
    rcases origin row hrow with hrow | hrow
    · exact .inl ⟨row, hrow, same⟩
    · exact .inr ⟨row, hrow, same⟩
  · rintro (⟨row, hrow, same⟩ | ⟨row, hrow, same⟩)
    · exact ⟨row, stays row hrow, same⟩
    · obtain ⟨y, hy, equal⟩ := Rows.contains_eq_true_iff.mp (covered row hrow)
      exact ⟨y, hy, same.trans (same_of_compare equal header.names)⟩

/-- Overwritten rows are overwritten assignments. -/
theorem mem_overwrite_contents {header : Header} {ts : List (Nat × Cell)} {rows : Rows} {stored : Assignment}
    (cells : ∀ row ∈ rows, cell? header.names (overwrite ts row) = stored.merge (cell? header.names row))
    (w : Assignment) :
    (∃ row ∈ rows.map (overwrite ts), w.Same (cell? header.names row)) ↔
      w ∈ ((contents ⟨header, rows⟩).overwrite stored).rows := by
  constructor
  · rintro ⟨row, hrow, same⟩
    obtain ⟨old, hold, rfl⟩ := List.mem_map.mp hrow
    rw [cells old hold] at same
    exact ⟨_, mem_contents.mpr ⟨old, hold, Assignment.Same.refl _⟩, same⟩
  · rintro ⟨u, hu, same⟩
    obtain ⟨old, hold, equal⟩ := mem_contents.mp hu
    refine ⟨_, List.mem_map_of_mem hold, ?_⟩
    rw [cells old hold]
    exact same.trans (equal.merge_left stored)

theorem updates_of_update (h : r.WellFormed) {changes : Name.Map Cell}
    (updated : r.update predicate changes = .ok change) :
    ∃ s stored, r.selection predicate = .ok s ∧ Updates r s changes stored change := by
  unfold update at updated
  split at updated
  · cases updated
  · next ts hts =>
    split at updated
    · cases updated
    · next clause read =>
      obtain ⟨rows, matched, rfl⟩ := map_eq_ok.mp updated
      obtain ⟨stored, stores, known, cells⟩ := exists_stored_of_targets h changes.ascending hts
      have sub : ∀ row ∈ rows, row ∈ r.rows := fun row => mem_of_matching matched
      have overwritten : ∀ row ∈ rows,
          cell? r.names (overwrite ts row) = stored.merge (cell? r.names row) :=
        fun row hrow => cells row (h.arity row (sub row hrow))
      have rest := difference_eq_ok r rows
      have selected : WellFormed ⟨r.header, rows⟩ := by
        obtain ⟨-, rfl⟩ := matching_eq_ok_iff.mp matched
        exact ⟨fun row hrow => h.arity row (sub row hrow), Rows.ascending_filter h.ascending _⟩
      obtain ⟨wellFormed, contents⟩ : WellFormed _ ∧ Relation.contents _ = r.contents.apply .difference _ :=
        contents_apply h selected rest
      obtain ⟨origin, stays, -⟩ :=
        @Rows.mem_insertAll (Rows.difference r.rows rows) (rows.map (overwrite ts)) wellFormed.ascending
      refine ⟨⟨r.header, rows⟩, stored, selection_of_matching read matched, ?_, stores, rfl, rfl, ?_, ?_, ?_⟩
      · intro n hn
        obtain ⟨e, he, rfl⟩ := List.mem_map.mp hn
        exact known e he
      · refine Extent.ext rfl (Set.ext fun w => ?_)
        rw [contents_foldl_insert wellFormed.ascending, contents, mem_overwrite_contents overwritten]
        rfl
      · intro row hrow out
        exact stays row ((Rows.mem_difference_iff h.apart sub).mpr ⟨hrow, out⟩)
      · intro row hrow
        rcases origin row hrow with hrow | hrow
        · exact .inl ((Rows.mem_difference_iff h.apart sub).mp hrow)
        · obtain ⟨old, hold, rfl⟩ := List.mem_map.mp hrow
          exact .inr ⟨old, hold, overwritten old hold⟩

/-! ## Deletions -/

/-- What a deletion leaves of a relation `r` with the selected rows `s`. -/
structure Deletes (r s : Relation) (predicate : String) (change : Change) : Prop where
  selected : ∀ row, row ∈ s.rows ↔ row ∈ r.rows ∧ answer r.names row predicate = .ok true
  count : change.count = s.size
  sizes : r.size = change.relation.size + change.count
  rest : r.difference s = .ok change.relation
  rows : ∀ row, row ∈ change.relation.rows ↔ row ∈ r.rows ∧ answer r.names row predicate = .ok false
  again : change.relation.delete predicate = .ok ⟨change.relation, 0⟩

/-- Each row has an answer, and the rows with the answer `true` match. -/
theorem answer_of_matching {names : List String} {clause : Predicate.Clause} {rows : List Row} {kept : Rows}
    (read : clause? predicate = .ok clause) (matched : matching names clause rows = .ok kept) {row : Row}
    (hrow : row ∈ rows) :
    answer names row predicate = .ok (clause.formula.holds (cell? names row)) := by
  obtain ⟨f, parsed, rfl⟩ := map_eq_ok.mp (mapError_eq_ok.mp read)
  obtain ⟨b, truth⟩ := Option.isSome_iff_exists.mp ((matching_eq_ok_iff.mp matched).1 row hrow)
  rw [Predicate.answer_of_reads parsed, Predicate.test_eq_ok_iff, truth, Predicate.holds_of_truth? _ truth]

theorem deletes_of_delete (h : r.WellFormed) (deleted : r.delete predicate = .ok change) :
    ∃ s, r.selection predicate = .ok s ∧ Deletes r s predicate change := by
  unfold delete at deleted
  split at deleted
  · cases deleted
  · next clause read =>
    obtain ⟨rows, matched, rfl⟩ := map_eq_ok.mp deleted
    have answers {row : Row} (hrow : row ∈ r.rows) := answer_of_matching read matched hrow
    have sub : ∀ row ∈ rows, row ∈ r.rows := fun row => mem_of_matching matched
    obtain ⟨all, kept⟩ := matching_eq_ok_iff.mp matched
    have left : Rows.difference r.rows rows =
        r.rows.filter fun row => !clause.formula.holds (cell? r.names row) := by
      refine List.filter_congr fun row hrow => congrArg not (Bool.eq_iff_iff.mpr ?_)
      rw [Rows.contains_iff_mem h.apart sub hrow, kept, List.mem_filter, and_iff_right hrow]
    refine ⟨⟨r.header, rows⟩, selection_of_matching read matched, fun row => ?_, rfl, ?_,
      difference_eq_ok r rows, fun row => ?_, ?_⟩
    · rw [kept, List.mem_filter]
      refine and_congr_right fun hrow => ?_
      rw [answers hrow, Except.ok.injEq]
    · rw [size, size, left, kept, Nat.add_comm]
      exact List.length_eq_length_filter_add _
    · rw [left, List.mem_filter]
      refine and_congr_right fun hrow => ?_
      rw [answers hrow, Except.ok.injEq, Bool.not_eq_true']
    · -- on the rows that are left the predicate is false, so none of them matches
      have again : matching r.names clause (Rows.difference r.rows rows) = .ok [] := by
        refine matching_eq_ok_iff.mpr ⟨fun row hrow => all row (List.mem_filter.mp hrow).1, ?_⟩
        rw [left, List.filter_filter]
        simp
      have same (rows : Rows) : Rows.difference rows [] = rows := by simp [Rows.difference, Rows.contains]
      unfold delete
      rw [read]
      simp only [names] at again ⊢
      rw [again]
      simp only [Except.map, same, List.length_nil]

/-! ## Insertions -/

/-- What the insertion of a row, stored as `tuple`, leaves of a relation. -/
structure Inserts (r : Relation) (tuple : Row) (change : Change) : Prop where
  member : Rows.contains change.relation.rows tuple = true
  count : change.count = if Rows.contains r.rows tuple then 0 else 1
  header : change.relation.header = r.header
  rows : ∀ row, row ∈ change.relation.rows ↔
    row ∈ r.rows ∨ row = tuple ∧ Rows.contains r.rows tuple = false

theorem conform_of_conformRow {names : List String} {kinds : List (Option Kind)} {row tuple : Row}
    (length : kinds.length = names.length) (length' : row.length = names.length)
    (conformed : conformRow names kinds row = .ok tuple) {i : Nat} {name : String}
    (hi : names[i]? = some name) :
    ∃ cell stored, row[i]? = some cell ∧ tuple[i]? = some stored ∧
      conform name (kinds.getD i none) cell = .ok stored := by
  induction names generalizing kinds row tuple i with
  | nil => simp at hi
  | cons n names ih =>
    obtain ⟨kind, kinds, rfl⟩ := List.exists_cons_of_length_eq_add_one length
    obtain ⟨cell, cells, rfl⟩ := List.exists_cons_of_length_eq_add_one length'
    rw [conformRow] at conformed
    split at conformed
    · cases conformed
    · next stored first =>
      obtain ⟨rest, others, rfl⟩ := map_eq_ok.mp conformed
      cases i with
      | zero =>
        obtain rfl : n = name := by simpa using hi
        exact ⟨cell, stored, rfl, rfl, first⟩
      | succ i => exact ih (Nat.succ.inj length) (Nat.succ.inj length') others (by simpa using hi)

theorem storesAll_of_conformRow (h : r.WellFormed) {row tuple : Row} (length : row.length = r.names.length)
    (conformed : conformRow r.names r.columnKinds row = .ok tuple) :
    r.StoresAll (cell? r.names row) (cell? r.names tuple) := by
  intro n
  rw [cell?, cell?]
  cases place : lastPlace? n r.names with
  | none => exact .none
  | some i =>
    have hi := getElem?_of_lastPlace? place
    obtain ⟨lt, name⟩ := List.getElem?_eq_some_iff.mp hi
    have position : r.header.position? n = some i := name ▸ Header.position?_getElem lt
    obtain ⟨cell, stored, hcell, hstored, cast⟩ :=
      conform_of_conformRow (length_columnKinds r) length conformed hi
    simp only [hcell, hstored]
    exact .some (stores_of_conform h position cast)

theorem inserts_of_insert (h : r.WellFormed) {row : Row} (inserted : r.insert row = .ok change) :
    ∃ tuple, r.StoresAll (cell? r.names row) (cell? r.names tuple) ∧ tuple.length = r.header.size ∧
      Inserts r tuple change := by
  unfold insert at inserted
  split at inserted
  · cases inserted
  · next checked =>
    obtain ⟨tuple, conformed, rfl⟩ := map_eq_ok.mp inserted
    have length : row.length = r.header.size := checkArity_eq_ok checked _ (List.mem_singleton_self _)
    exact ⟨tuple, storesAll_of_conformRow h length conformed,
      length_conformRow (length_columnKinds r) length conformed, Rows.contains_insert h.ascending, rfl, rfl,
      fun _ => Rows.mem_insert_iff h.ascending⟩

/-- Changes that succeed do what their algebra says. -/
theorem changes_are_algebra (h : r.WellFormed) (predicate : String) (changes : Name.Map Cell) (row : Row) :
    (∀ change, r.update predicate changes = .ok change →
        ∃ s stored, r.selection predicate = .ok s ∧ Updates r s changes stored change) ∧
      (∀ change, r.delete predicate = .ok change →
        ∃ s, r.selection predicate = .ok s ∧ Deletes r s predicate change) ∧
      ∀ change, r.insert row = .ok change →
        ∃ tuple, r.StoresAll (cell? r.names row) (cell? r.names tuple) ∧ tuple.length = r.header.size ∧
          Inserts r tuple change :=
  ⟨fun _ => updates_of_update h, fun _ => deletes_of_delete h, fun _ => inserts_of_insert h⟩

/-- Two persons become one, one is taken out, one is inserted who is there already, and one who is new. -/
theorem changes_are_algebra_persons :
    (∃ change s stored,
        persons.update "age >= 30" (Name.Map.ofList [("id", .int 7), ("age", .text "30")]) = .ok change ∧
        change.count = 2 ∧ change.relation.rows = [[.int 7, .int 30]] ∧
        persons.selection "age >= 30" = .ok s ∧
        Updates persons s (Name.Map.ofList [("id", .int 7), ("age", .text "30")]) stored change) ∧
      (∃ change s, persons.delete "age > 30" = .ok change ∧ change.count = 1 ∧
        persons.selection "age > 30" = .ok s ∧ Deletes persons s "age > 30" change) ∧
      (∃ change tuple, persons.insert [.text "2", .int 30] = .ok change ∧ change.count = 0 ∧
        Inserts persons tuple change) ∧
      ∃ change tuple, persons.insert [.int 0, .text " 29"] = .ok change ∧ change.count = 1 ∧
        change.relation.rows = [.int 0, .int 29] :: persons.rows ∧ Inserts persons tuple change := by
  have wellFormed : persons.WellFormed := ⟨by decide +kernel, by decide +kernel⟩
  refine ⟨?_, ?_, ?_, ?_⟩
  · obtain ⟨change, updated, count, rows⟩ : ∃ change, persons.update "age >= 30"
        (Name.Map.ofList [("id", .int 7), ("age", .text "30")]) = .ok change ∧ change.count = 2 ∧
          change.relation.rows = [[.int 7, .int 30]] := by
      decide +kernel
    obtain ⟨s, stored, selected, updates⟩ := (changes_are_algebra wellFormed _ _ []).1 change updated
    exact ⟨change, s, stored, updated, count, rows, selected, updates⟩
  · obtain ⟨change, deleted, count⟩ : ∃ change, persons.delete "age > 30" = .ok change ∧
        change.count = 1 := by
      decide +kernel
    obtain ⟨s, selected, deletes⟩ := (changes_are_algebra wellFormed _ .empty []).2.1 change deleted
    exact ⟨change, s, deleted, count, selected, deletes⟩
  · obtain ⟨change, inserted, count⟩ : ∃ change,
        persons.insert [.text "2", .int 30] = .ok change ∧ change.count = 0 := by
      decide +kernel
    obtain ⟨tuple, -, -, inserts⟩ := (changes_are_algebra wellFormed "" .empty _).2.2 change inserted
    exact ⟨change, tuple, inserted, count, inserts⟩
  · obtain ⟨change, inserted, count, rows⟩ : ∃ change,
        persons.insert [.int 0, .text " 29"] = .ok change ∧ change.count = 1 ∧
          change.relation.rows = [.int 0, .int 29] :: persons.rows := by
      decide +kernel
    obtain ⟨tuple, -, -, inserts⟩ := (changes_are_algebra wellFormed "" .empty _).2.2 change inserted
    exact ⟨change, tuple, inserted, count, rows, inserts⟩

end Relation

end RelationalAlgebra
