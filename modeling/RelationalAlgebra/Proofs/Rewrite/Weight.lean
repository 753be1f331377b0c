import RelationalAlgebra.Proofs.Predicate.Words
import RelationalAlgebra.Proofs.Rewrite.Steps
import RelationalAlgebra.Rewrite.Optimizer
/-!
# The weight of queries

Every replacement makes a query lighter.  A selection weighs as much as its predicate is wide for every
node below, so that it gets lighter where it moves down, also where it moves to both operands; a
projection weighs as much as what is below, and a renaming as much as it has entries.  The weight of a
query is less than the passes that it is given.
-/

namespace RelationalAlgebra

/-! ## The entries of a renaming -/

theorem Text.length_pieces_le (sep : Char) (cs : List Char) :
    (pieces sep cs).length ≤ cs.length + 1 := by
  induction cs with
  | nil => exact Nat.le_refl _
  | cons c cs ih =>
    rw [pieces, List.length_cons]
    split
    · rw [List.length_cons]
      omega
    · split
      · simp
      · next piece rest heq =>
        rw [heq, List.length_cons] at ih
        rw [List.length_cons]
        omega

theorem Renaming.size_collect_le {r result : Renaming} {ps : List (List Char)}
    (h : collect r ps = .ok result) : result.size ≤ r.size + ps.length := by
  induction ps generalizing r with
  | nil =>
    obtain rfl := Except.ok.inj h
    exact Nat.le_refl _
  | cons part ps ih =>
    rw [collect] at h
    split at h
    · cases h
    · next old new _ =>
      simp only at h
      split at h
      · split at h
        · cases h
        · have first := Name.Map.size_insert_le r (String.ofList (Text.trim old))
            (String.ofList (Text.trim new))
          have later := ih h
          rw [List.length_cons]
          omega
      · cases h

namespace Rewrite

open Query (Tree Binary)
open Predicate (width conjoin negation)

/-- The number of entries of a renaming; a text that is none has no entries. -/
def entries (text : String) : Nat :=
  match Renaming.ofText? text with
  | .ok map => map.size
  | .error _ => 0

theorem entries_of_read {text : String} {map : Renaming} (h : Renaming.ofText? text = .ok map) :
    entries text = map.size := by
  rw [entries, h]

theorem entries_le_length (text : String) : entries text ≤ text.length + 1 := by
  unfold entries
  split
  · next map read =>
    have size := Renaming.size_collect_le read
    have pieces := Text.length_pieces_le ',' text.toList
    have length : (Query.parts text).length = (Text.pieces ',' text.toList).length := by
      rw [Query.parts, List.length_map]
    rw [String.length_toList] at pieces
    have empty : (Name.Map.empty : Renaming).size = 0 := rfl
    omega
  · exact Nat.zero_le _

theorem size_compose_le (outer inner : Renaming) :
    (compose outer inner).size ≤ outer.size + inner.size := by
  refine (Name.Map.size_filter_le _ _).trans ((Name.Map.size_ofList_le _).trans ?_)
  rw [List.length_append, List.length_map]
  have := List.length_filter_le (fun e : String × String => !inner.values.contains e.1) outer.entries
  unfold Name.Map.size
  omega

/-! ## Weights -/

def bulk : Tree → Nat
  | .relation _ => 1
  | .unary .selection _ a => bulk a
  | .unary .projection _ a | .unary .rename _ a => bulk a + 1
  | .binary _ a b => bulk a + bulk b + 1

def weight : Tree → Nat
  | .relation _ => 4
  | .unary .selection p a => weight a + 2 * (width p * bulk a) + 1
  | .unary .projection _ a => weight a + bulk a + 4
  | .unary .rename m a => weight a + entries m + 4
  | .binary _ a b => weight a + weight b + 4

@[simp] theorem bulk_selection (p : String) (a : Tree) : bulk (.selection p a) = bulk a := rfl

@[simp] theorem bulk_projection (l : String) (a : Tree) : bulk (.projection l a) = bulk a + 1 := rfl

@[simp] theorem bulk_rename (m : String) (a : Tree) : bulk (.rename m a) = bulk a + 1 := rfl

@[simp] theorem bulk_binary (op : Binary) (a b : Tree) :
    bulk (.binary op a b) = bulk a + bulk b + 1 := rfl

@[simp] theorem weight_selection (p : String) (a : Tree) :
    weight (.selection p a) = weight a + 2 * (width p * bulk a) + 1 := rfl

@[simp] theorem weight_projection (l : String) (a : Tree) :
    weight (.projection l a) = weight a + bulk a + 4 := rfl

@[simp] theorem weight_rename (m : String) (a : Tree) :
    weight (.rename m a) = weight a + entries m + 4 := rfl

@[simp] theorem weight_binary (op : Binary) (a b : Tree) :
    weight (.binary op a b) = weight a + weight b + 4 := rfl

theorem bulk_pos (t : Tree) : 0 < bulk t := by
  induction t with
  | relation name => exact Nat.one_pos
  | unary op parameter a ih => cases op <;> simp [ih]
  | binary op a b => simp

theorem bulk_le_weight (t : Tree) : 4 * bulk t ≤ weight t := by
  induction t with
  | relation name => exact Nat.le_refl _
  | unary op parameter a ih =>
    have pos := bulk_pos a
    cases op with
    | selection => rw [weight_selection, bulk_selection]; omega
    | projection => rw [weight_projection, bulk_projection]; omega
    | rename => rw [weight_rename, bulk_rename]; omega
  | binary op a b iha ihb => rw [weight_binary, bulk_binary]; omega

/-- A selection by a predicate of at most some width. -/
theorem weight_selection_le {p : String} {n : Nat} (h : width p ≤ n) (a : Tree) :
    weight (.selection p a) ≤ weight a + 2 * (n * bulk a) + 1 := by
  have := Nat.mul_le_mul_right (bulk a) h
  rw [weight_selection]
  omega

theorem width_conjoin_pair_le (p q : String) : width (conjoin [p, q]) ≤ width p + width q := by
  have sum := Predicate.width_conjoin_le (List.cons_ne_nil p [q])
  simpa using sum

theorem bulk_renamed_le (map : Renaming) (a : Tree) : bulk (renamed map a) ≤ bulk a + 1 := by
  unfold renamed
  split
  · exact Nat.le_succ _
  · exact Nat.le_refl _

theorem weight_renamed_le {map : Renaming} (valid : map.Valid) (a : Tree) :
    weight (renamed map a) ≤ weight a + map.size + 4 := by
  unfold renamed
  split
  · omega
  · next some =>
    rw [weight_rename, entries_of_read (Renaming.ofText?_write valid (by simpa using some))]

/-! ## Replacements make lighter -/

/-- The first query is lighter than the second by some amount, and has no more nodes but for
selections. -/
structure Lighter (n : Nat) (t' t : Tree) : Prop where
  bulk : bulk t' ≤ bulk t
  weight : weight t' + n ≤ weight t

namespace Lighter

variable {m n : Nat} {a a' b b' c : Tree}

theorem refl (a : Tree) : Lighter 0 a a := ⟨Nat.le_refl _, Nat.le_refl _⟩

theorem trans (h : Lighter m a b) (h' : Lighter n b c) : Lighter (m + n) a c := by
  have weightA := h.weight
  have weightB := h'.weight
  exact ⟨h.bulk.trans h'.bulk, by omega⟩

theorem unary (h : Lighter n a' a) (op : Query.Unary) (parameter : String) :
    Lighter n (.unary op parameter a') (.unary op parameter a) := by
  obtain ⟨bulk, weight⟩ := h
  cases op with
  | selection =>
    have spread := Nat.mul_le_mul_left (width parameter) bulk
    refine ⟨bulk, ?_⟩
    rw [weight_selection, weight_selection]
    omega
  | projection =>
    refine ⟨Nat.succ_le_succ bulk, ?_⟩
    rw [weight_projection, weight_projection]
    omega
  | rename =>
    refine ⟨Nat.succ_le_succ bulk, ?_⟩
    rw [weight_rename, weight_rename]
    omega

theorem binary (ha : Lighter m a' a) (hb : Lighter n b' b) (op : Binary) :
    Lighter (m + n) (.binary op a' b') (.binary op a b) := by
  obtain ⟨bulkA, weightA⟩ := ha
  obtain ⟨bulkB, weightB⟩ := hb
  refine ⟨?_, ?_⟩
  · rw [bulk_binary, bulk_binary]
    omega
  · rw [weight_binary, weight_binary]
    omega

end Lighter

theorem bulk_filtered (parts : List String) (a : Tree) : bulk (filtered parts a) = bulk a := by
  unfold filtered
  split
  · rfl
  · rfl

theorem sum_width_pos {parts : List String} (ne : parts ≠ []) : 0 < (parts.map width).sum := by
  obtain ⟨p, ps, rfl⟩ := List.exists_cons_of_ne_nil ne
  have := Predicate.width_pos p
  rw [List.map_cons, List.sum_cons]
  omega

theorem weight_filtered_le (parts : List String) (a : Tree) :
    weight (filtered parts a) ≤
      weight a + 2 * ((parts.map width).sum * bulk a) + min 1 (parts.map width).sum := by
  unfold filtered
  split
  · omega
  · next some =>
    have ne : parts ≠ [] := by simpa using some
    have pos := sum_width_pos ne
    have whole := weight_selection_le (Predicate.width_conjoin_le ne) a
    omega

variable {env : Environment} {rule : Rule} {t t' : Tree}

theorem width_combine?_le {op : Binary} {p q r : String} (h : combine? op p q = some r) :
    width r ≤ width p + width q + 1 := by
  cases op with
  | union =>
    obtain rfl := Option.some.inj h
    exact (Predicate.width_or_le p q).trans (Nat.le_succ _)
  | intersection =>
    obtain rfl := Option.some.inj h
    exact (width_conjoin_pair_le p q).trans (Nat.le_succ _)
  | difference =>
    obtain rfl := Option.some.inj h
    have both := width_conjoin_pair_le p (negation q)
    have negated := Predicate.width_negation_le q
    omega
  | product | division | join | leftJoin | rightJoin | fullJoin => cases h

/-- Conjuncts that move to an operand leave the other operand and the root. -/
theorem lighter_filtered {p : String} {op : Binary} {a b : Tree} {s : Sorted}
    (sum : (s.left.map width).sum + (s.right.map width).sum + (s.both.map width).sum ≤ width p)
    (moves : s.left ≠ [] ∨ s.right ≠ []) :
    Lighter 1 (filtered s.both (.binary op (filtered s.left a) (filtered s.right b)))
      (.selection p (.binary op a b)) := by
  have left := weight_filtered_le s.left a
  have right := weight_filtered_le s.right b
  have both := weight_filtered_le s.both (.binary op (filtered s.left a) (filtered s.right b))
  have moved : 0 < (s.left.map width).sum + (s.right.map width).sum := by
    rcases moves with ne | ne
    · exact Nat.add_pos_left (sum_width_pos ne) _
    · exact Nat.add_pos_right _ (sum_width_pos ne)
  have spread := Nat.mul_le_mul_right (bulk a + bulk b + 1) sum
  simp only [weight_binary, bulk_binary, bulk_filtered] at both
  refine ⟨?_, ?_⟩
  · simp only [bulk_filtered, bulk_binary, bulk_selection, Nat.le_refl]
  · simp only [Nat.add_mul, Nat.mul_add, Nat.mul_one] at spread both
    simp only [weight_selection, weight_binary, bulk_binary, Nat.mul_add, Nat.mul_one]
    omega

/-- The second query is the first with a selection of at least some width, or with none. -/
structure Sifts (n : Nat) (a b : Tree) : Prop where
  weight : weight a + 2 * (n * bulk a) ≤ weight b
  bulk : bulk b = bulk a

namespace Sifts

variable {m n : Nat} {a b c : Tree}

theorem refl (a : Tree) : Sifts 0 a a := by
  refine ⟨?_, rfl⟩
  rw [Nat.zero_mul, Nat.mul_zero, Nat.add_zero]

theorem selection (p : String) (a : Tree) : Sifts (width p) a (.selection p a) :=
  ⟨Nat.le_succ _, rfl⟩

/-- One selection weighs less than two operands that select from the same query: the second copy of
the query pays for the words that join the predicates. -/
theorem lighter (left : Sifts m a b) (right : Sifts n a c) {r : String} (op : Binary)
    (narrow : width r ≤ m + n + 2) : Lighter 1 (.selection r a) (.binary op b c) := by
  have heavy := bulk_le_weight a
  have whole := weight_selection_le narrow a
  have onLeft := left.weight
  have onRight := right.weight
  refine ⟨?_, ?_⟩
  · rw [bulk_selection, bulk_binary, left.bulk]
    omega
  · simp only [weight_binary, Nat.add_mul] at whole ⊢
    omega

end Sifts

/-! ## Rules that make lighter -/

section Rules

variable {p q r l m : String} {map : Renaming} {a b : Tree}

theorem lighter_merged (narrow : width r ≤ width p + width q) :
    Lighter 1 (.selection r a) (.selection p (.selection q a)) := by
  have narrower := weight_selection_le narrow a
  refine ⟨(bulk_selection _ a).le, ?_⟩
  simp only [weight_selection, bulk_selection, Nat.add_mul] at narrower ⊢
  omega

/-- A selection that moves to both operands no longer weighs on the root. -/
theorem lighter_distributed (op : Binary) :
    Lighter 1 (.binary op (.selection p a) (.selection p b)) (.selection p (.binary op a b)) := by
  have pos := Predicate.width_pos p
  refine ⟨Nat.le_refl _, ?_⟩
  simp only [weight_selection, weight_binary, bulk_binary, Nat.mul_add, Nat.mul_one]
  omega

theorem lighter_distributeFiltered :
    Lighter 1 (.binary .difference (.selection p a) (.selection q b))
      (.selection p (.binary .difference a (.selection q b))) := by
  have pos := Predicate.width_pos p
  refine ⟨Nat.le_refl _, ?_⟩
  simp only [weight_selection, weight_binary, bulk_binary, bulk_selection, Nat.mul_add, Nat.mul_one]
  omega

theorem lighter_mergeProjections :
    Lighter 1 (.projection l a) (.projection l (.projection m a)) := by
  refine ⟨Nat.le_succ _, ?_⟩
  simp only [weight_projection, bulk_projection]
  omega

theorem lighter_selectBeforeProjection :
    Lighter 1 (.projection l (.selection p a)) (.selection p (.projection l a)) := by
  have pos := Predicate.width_pos p
  refine ⟨Nat.le_refl _, ?_⟩
  simp only [weight_selection, weight_projection, bulk_projection, bulk_selection, Nat.mul_add,
    Nat.mul_one]
  omega

theorem lighter_mergeRenamings {n : String} {outer inner : Renaming}
    (readOuter : Renaming.ofText? m = .ok outer) (readInner : Renaming.ofText? n = .ok inner) :
    Lighter 1 (renamed (compose outer inner) a) (.rename m (.rename n a)) := by
  have valid := valid_compose (Renaming.valid_of_ofText? readOuter)
    (Renaming.valid_of_ofText? readInner)
  have size := size_compose_le outer inner
  have written := weight_renamed_le valid a
  refine ⟨(bulk_renamed_le _ _).trans (Nat.le_succ _), ?_⟩
  simp only [weight_rename, entries_of_read readOuter, entries_of_read readInner]
  omega

theorem lighter_dropIdleRenaming (read : Renaming.ofText? m = .ok map)
    (idle : (map.filter fun old new => old ≠ new).size ≠ map.size) :
    Lighter 1 (renamed (map.filter fun old new => old ≠ new) a) (.rename m a) := by
  have fewer := Name.Map.size_filter_le map fun old new => old ≠ new
  have written := weight_renamed_le
    (valid_filter (Renaming.valid_of_ofText? read) fun old new => old ≠ new) a
  refine ⟨bulk_renamed_le _ _, ?_⟩
  rw [weight_rename, entries_of_read read]
  omega

theorem lighter_selectBeforeRenaming (read : Renaming.ofText? m = .ok map)
    (before : Predicate.renameAttributes p map.inverse = .ok q) :
    Lighter 1 (.rename m (.selection q a)) (.selection p (.rename m a)) := by
  have valid := Renaming.valid_of_ofText? read
  have same : width q = width p :=
    Predicate.width_renameAttributes (fun n new hn => (valid new n (get?_inverse hn)).1) before
  have pos := Predicate.width_pos p
  refine ⟨Nat.le_refl _, ?_⟩
  simp only [weight_selection, weight_rename, bulk_rename, same, Nat.mul_add, Nat.mul_one]
  omega

theorem lighter_projectBeforeRenaming {names : List String} (read : Renaming.ofText? m = .ok map) :
    Lighter 1 (renamed (map.filter fun _ new => names.contains new)
        (.projection (Query.Projection.write (names.map map.inverse.apply)) a))
      (.projection l (.rename m a)) := by
  have fewer := Name.Map.size_filter_le map fun _ new => names.contains new
  have written := weight_renamed_le
    (valid_filter (Renaming.valid_of_ofText? read) fun _ new => names.contains new)
    (.projection (Query.Projection.write (names.map map.inverse.apply)) a)
  refine ⟨bulk_renamed_le _ _, ?_⟩
  simp only [weight_rename, weight_projection, bulk_rename, entries_of_read read] at written ⊢
  omega

/-- Where one operand stays, the other one and the operator go. -/
theorem lighter_operand (op : Binary) : Lighter 1 a (.binary op a b) ∧ Lighter 1 b (.binary op a b) := by
  refine ⟨⟨?_, ?_⟩, ?_, ?_⟩
  · rw [bulk_binary]
    omega
  · rw [weight_binary]
    omega
  · rw [bulk_binary]
    omega
  · rw [weight_binary]
    omega

theorem lighter_factorRenaming {n : String} (op : Binary) :
    Lighter 1 (.rename m (.binary op a b)) (.binary op (.rename m a) (.rename n b)) := by
  refine ⟨?_, ?_⟩
  · simp only [bulk_rename, bulk_binary]
    omega
  · simp only [weight_rename, weight_binary]
    omega

theorem lighter_factorProjection (op : Binary) :
    Lighter 1 (.projection l (.binary op a b)) (.binary op (.projection l a) (.projection m b)) := by
  refine ⟨?_, ?_⟩
  · simp only [bulk_projection, bulk_binary]
    omega
  · simp only [weight_projection, weight_binary, bulk_binary]
    omega

theorem lighter_factored (outer inner : Binary) (c : Tree) :
    Lighter 1 (.binary inner a (.binary outer b c)) (.binary outer (.binary inner a b) (.binary inner a c)) ∧
      Lighter 1 (.binary inner (.binary outer b c) a)
        (.binary outer (.binary inner b a) (.binary inner c a)) := by
  refine ⟨⟨?_, ?_⟩, ?_, ?_⟩
  · simp only [bulk_binary]
    omega
  · simp only [weight_binary]
    omega
  · simp only [bulk_binary]
    omega
  · simp only [weight_binary]
    omega

theorem lighter_distributeConjuncts {op : Binary} {left right parts : List String} {s : Sorted}
    (conjuncts : Predicate.conjuncts p = .ok parts) (sorted : sortConjuncts left right parts = .ok s)
    (moves : s.left ≠ [] ∨ s.right ≠ []) :
    Lighter 1 (filtered s.both (.binary op (filtered s.left a) (filtered s.right b)))
      (.selection p (.binary op a b)) := by
  have same := ((perm_of_sortConjuncts sorted).map width).sum_eq
  have fewer := Predicate.sum_width_conjuncts_le conjuncts
  rw [List.map_append, List.map_append, List.sum_append, List.sum_append] at same
  exact lighter_filtered (same.trans_le fewer) moves

theorem lighter_dropIdleProjection : Lighter 1 a (.projection l a) := by
  refine ⟨Nat.le_succ _, ?_⟩
  rw [weight_projection]
  omega

end Rules

theorem Replaces.lighter (h : Replaces env rule t t') : Lighter 1 t' t := by
  cases h with
  | mergeEqual => exact lighter_merged ((Predicate.width_trimmed_le _).trans (Nat.le_add_right _ _))
  | @mergeSelections p q a => exact lighter_merged (Nat.add_comm _ _ ▸ width_conjoin_pair_le q p)
  | @distributeSelection p op a b isSet => exact lighter_distributed op
  | distributeFiltered => exact lighter_distributeFiltered
  | mergeProjections => exact lighter_mergeProjections
  | selectBeforeProjection => exact lighter_selectBeforeProjection
  | mergeRenamings readOuter readInner => exact lighter_mergeRenamings readOuter readInner
  | dropIdleRenaming read idle => exact lighter_dropIdleRenaming read idle
  | selectBeforeRenaming read names seen before => exact lighter_selectBeforeRenaming read before
  | projectBeforeRenaming readNames read seen => exact lighter_projectBeforeRenaming read
  | sameOperands | unionRight | intersectionLeft => exact (lighter_operand _).1
  | unionLeft | intersectionRight => exact (lighter_operand _).2
  | @emptyDifference a => exact (Sifts.refl a).lighter (.refl a) _ (by decide)
  | @differenceLeft p a =>
    have narrow : width never ≤ 2 := by decide
    exact (Sifts.selection p a).lighter (.refl a) _ (by omega)
  | @differenceRight p a =>
    have wider := Predicate.width_negation_le p
    exact (Sifts.refl a).lighter (.selection p a) _ (by omega)
  | @combineSelections op p q r a combined =>
    have wider := width_combine?_le combined
    exact (Sifts.selection p a).lighter (.selection q a) op (by omega)
  | @factorRenaming op m n a b isSet same => exact lighter_factorRenaming op
  | @factorProductLeft a b c => exact (lighter_factored _ _ c).1
  | @factorProductRight a b c => exact (lighter_factored _ _ c).2
  | distributeConjuncts isJoin schemaLeft schemaRight conjuncts sorted moves =>
    exact lighter_distributeConjuncts conjuncts sorted moves
  | factorProjection => exact lighter_factorProjection _
  | dropIdleProjection => exact lighter_dropIdleProjection
  | @factorJoinLeft a b c same => exact (lighter_factored _ _ c).1
  | @factorJoinRight a b c same => exact (lighter_factored _ _ c).2

/-! ## The weight of a query and its size -/

theorem bulk_le_size (t : Tree) : bulk t ≤ size t := by
  induction t with
  | relation name => exact Nat.le_refl _
  | unary op parameter a ih =>
    rw [size]
    cases op with
    | selection => rw [bulk_selection]; omega
    | projection => rw [bulk_projection]; omega
    | rename => rw [bulk_rename]; omega
  | binary op a b iha ihb => rw [bulk_binary, size]; omega

theorem weight_le_size (t : Tree) : weight t ≤ 4 * (size t * size t) := by
  induction t with
  | relation name => exact Nat.le_refl _
  | unary op parameter a ih =>
    have small := bulk_le_size a
    have pos := bulk_pos a
    rw [size]
    generalize size a = n at *
    cases op with
    | selection =>
      have narrow := Predicate.width_le_length parameter
      have below : width parameter * bulk a ≤ (parameter.length + 1) * n := Nat.mul_le_mul narrow small
      rw [weight_selection]
      simp only [Nat.mul_add, Nat.add_mul, Nat.mul_one, Nat.one_mul] at below ⊢
      omega
    | projection =>
      rw [weight_projection]
      simp only [Nat.mul_add, Nat.add_mul, Nat.mul_one, Nat.one_mul]
      omega
    | rename =>
      have few := entries_le_length parameter
      rw [weight_rename]
      simp only [Nat.mul_add, Nat.add_mul, Nat.mul_one, Nat.one_mul]
      omega
  | binary op a b iha ihb =>
    rw [weight_binary, size]
    simp only [Nat.mul_add, Nat.add_mul, Nat.mul_one, Nat.one_mul]
    omega

theorem weight_lt_passLimit (t : Tree) : weight t < passLimit t := by
  have := weight_le_size t
  unfold passLimit
  omega

end Rewrite

end RelationalAlgebra
