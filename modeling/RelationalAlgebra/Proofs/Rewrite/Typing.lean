import RelationalAlgebra.Proofs.Relation.Laws
import RelationalAlgebra.Proofs.Rewrite.Steps
/-!
# Types under rewriting

A rewriting of a typed plan gives a typed plan with the same columns, in the same order but for the one
rule that drops a projection.  Four rules make a typed plan of one that is not typed: those that merge or
drop projections and renamings without a look at the columns below.  All others leave an untyped plan
untyped.
-/

namespace RelationalAlgebra

open Query (Tree Plan Binary)
open Query.Plan (Renames)

/-! ## Renamings of columns -/

namespace Query.Plan

variable {env : Environment} {map outer inner : Renaming} {columns : List String} {n : String}

theorem mem_inverse_keys : n ∈ map.inverse.keys ↔ n ∈ map.values := by
  rw [Renaming.inverse, Name.Map.mem_keys_ofList, List.map_map]
  rfl

theorem Renames.mem_image_of_value (h : Renames map columns) (hn : n ∈ map.values) :
    n ∈ map.apply '' {n | n ∈ columns} := by
  obtain ⟨old, hold⟩ := Name.Map.mem_values_iff.mp hn
  have key : old ∈ map.keys := Name.Map.mem_keys_iff.mpr ⟨n, hold⟩
  exact ⟨old, h.known old key, apply_of_get? hold⟩

/-- A name that a renaming does not hide belongs to the name before it. -/
theorem Renames.undoes (h : Renames map columns) (seen : Rewrite.hides map n = false) :
    Extent.Undoes map.apply {n | n ∈ columns} (map.inverse.apply n) n := by
  have notHidden (hv : n ∉ map.values) : n ∉ map.keys := by
    intro key
    have isKey : map.contains n = true := Name.Map.contains_iff.mpr key
    have notValue : map.inverse.contains n = false := by
      rw [← Bool.not_eq_true, Name.Map.contains_iff, mem_inverse_keys]
      exact hv
    rw [Rewrite.hides, isKey, notValue] at seen
    cases seen
  by_cases hv : n ∈ map.values
  · obtain ⟨old, hold⟩ := Name.Map.mem_keys_iff.mp (mem_inverse_keys.mpr hv)
    have forth := Rewrite.get?_inverse hold
    have key : old ∈ map.keys := Name.Map.mem_keys_iff.mpr ⟨n, forth⟩
    rw [apply_of_get? hold]
    exact ⟨fun _ => ⟨h.known old key, apply_of_get? forth⟩,
      fun outside => absurd (h.mem_image_of_value hv) outside⟩
  · have key := notHidden hv
    have noInverse : n ∉ map.inverse.keys := mt mem_inverse_keys.mp hv
    rw [apply_of_notMem noInverse]
    refine ⟨?_, fun outside inside => outside ⟨n, inside, apply_of_notMem key⟩⟩
    rintro ⟨m, hm, rfl⟩
    have notKey : m ∉ map.keys := by
      intro mem
      obtain ⟨new, hnew⟩ := Name.Map.mem_keys_iff.mp mem
      rw [apply_of_get? hnew] at hv
      exact hv (Name.Map.mem_values_iff.mpr ⟨m, hnew⟩)
    rw [apply_of_notMem notKey] at key ⊢
    exact ⟨hm, apply_of_notMem key⟩

/-- The entries that rename nothing do not matter. -/
theorem apply_filter_ne (n : String) :
    Renaming.apply (map.filter fun old new => old ≠ new) n = map.apply n := by
  rw [Renaming.apply, Renaming.apply, Name.Map.get?_filter]
  cases hn : map.get? n with
  | none => rfl
  | some new =>
    by_cases same : n = new
    · simp [same, Option.filter]
    · simp [same, Option.filter]

theorem keys_filter_sub {keep : String → String → Bool} (h : n ∈ (map.filter keep).keys) :
    n ∈ map.keys := by
  obtain ⟨new, hnew⟩ := Name.Map.mem_keys_iff.mp h
  rw [Name.Map.get?_filter, Option.filter_eq_some_iff] at hnew
  exact Name.Map.mem_keys_iff.mpr ⟨new, hnew.1⟩

theorem Renames.congr (h : Renames map columns) {others : List String}
    (same : ∀ n, n ∈ columns ↔ n ∈ others) : Renames map others :=
  ⟨fun n hn => (same n).mp (h.known n hn),
    h.injective.mono fun n hn => (same n).mpr hn, h.valid⟩

theorem Renames.filter_ne (h : Renames map columns) :
    Renames (map.filter fun old new => old ≠ new) columns := by
  refine ⟨fun n hn => h.known n (keys_filter_sub hn), ?_, Rewrite.valid_filter h.valid _⟩
  intro n hn m hm same
  rw [apply_filter_ne, apply_filter_ne] at same
  exact h.injective hn hm same

/-! ## Renamings one after the other -/

/-- The entries of two renamings put together have one for each name. -/
theorem get?_merged (kept : Rewrite.mentionsRemoved outer inner = false) {new : String} :
    (Name.Map.ofList ((inner.entries.map fun e => (e.1, outer.apply e.2)) ++
        outer.entries.filter fun e => !inner.values.contains e.1)).get? n = some new ↔
      (∃ middle, inner.get? n = some middle ∧ outer.apply middle = new) ∨
        outer.get? n = some new ∧ n ∉ inner.values := by
  have keysFirst : (inner.entries.map fun e => (e.1, outer.apply e.2)).map Prod.fst = inner.keys := by
    rw [List.map_map]
    rfl
  have nodup : (((inner.entries.map fun e => (e.1, outer.apply e.2)) ++
      outer.entries.filter fun e => !inner.values.contains e.1).map Prod.fst).Nodup := by
    rw [List.map_append, keysFirst]
    refine List.nodup_append.mpr ⟨inner.nodup_keys, ?_, ?_⟩
    · exact outer.nodup_keys.sublist (List.filter_sublist.map _)
    · rintro m hm m' hm' rfl
      obtain ⟨e, he, rfl⟩ := List.mem_map.mp hm'
      obtain ⟨entry, free⟩ := List.mem_filter.mp he
      rw [Rewrite.mentionsRemoved, List.any_eq_false] at kept
      refine kept e.1 (List.mem_map_of_mem entry) ?_
      rw [Name.Map.contains_iff.mpr hm, Bool.true_and]
      exact free
  rw [Name.Map.get?_ofList nodup, List.mem_append, List.mem_map, List.mem_filter]
  refine or_congr ?_ ?_
  · constructor
    · rintro ⟨⟨old, middle⟩, he, heq⟩
      obtain ⟨rfl, rfl⟩ := Prod.mk.inj heq
      exact ⟨middle, Name.Map.get?_eq_some_iff.mpr he, rfl⟩
    · rintro ⟨middle, hmiddle, rfl⟩
      exact ⟨(n, middle), Name.Map.get?_eq_some_iff.mp hmiddle, rfl⟩
  · rw [Name.Map.get?_eq_some_iff]
    simp

theorem Renames.apply_compose (h : Renames inner columns)
    (kept : Rewrite.mentionsRemoved outer inner = false) (hn : n ∈ columns) :
    (Rewrite.compose outer inner).apply n = outer.apply (inner.apply n) := by
  have composed : (Rewrite.compose outer inner).apply n = Renaming.apply
      (Name.Map.ofList ((inner.entries.map fun e => (e.1, outer.apply e.2)) ++
        outer.entries.filter fun e => !inner.values.contains e.1)) n := apply_filter_ne n
  rw [composed]
  by_cases key : n ∈ inner.keys
  · obtain ⟨middle, hmiddle⟩ := Name.Map.mem_keys_iff.mp key
    rw [apply_of_get? hmiddle]
    exact apply_of_get? ((get?_merged kept).mpr (.inl ⟨middle, hmiddle, rfl⟩))
  · rw [apply_of_notMem key]
    have free : n ∉ inner.values := by
      intro hv
      obtain ⟨old, hold⟩ := Name.Map.mem_values_iff.mp hv
      have oldKey : old ∈ inner.keys := Name.Map.mem_keys_iff.mpr ⟨n, hold⟩
      have same : inner.apply old = inner.apply n := by rw [apply_of_get? hold, apply_of_notMem key]
      have equal : old = n := h.injective (h.known old oldKey) hn same
      exact key (equal ▸ oldKey)
    cases hout : outer.get? n with
    | some new =>
      rw [apply_of_get? hout]
      exact apply_of_get? ((get?_merged kept).mpr (.inr ⟨hout, free⟩))
    | none =>
      have outside : n ∉ outer.keys := Name.Map.get?_eq_none_iff.mp hout
      rw [apply_of_notMem outside]
      refine apply_of_notMem fun mem => ?_
      obtain ⟨new, hnew⟩ := Name.Map.mem_keys_iff.mp mem
      rcases (get?_merged kept).mp hnew with ⟨middle, hmiddle, -⟩ | ⟨hnew, -⟩
      · exact key (Name.Map.mem_keys_iff.mpr ⟨middle, hmiddle⟩)
      · rw [hout] at hnew
        cases hnew

theorem Renames.compose (h : Renames inner columns) (h' : Renames outer (columns.map inner.apply))
    (kept : Rewrite.mentionsRemoved outer inner = false) :
    Renames (Rewrite.compose outer inner) columns := by
  refine ⟨fun n hn => ?_, ?_, Rewrite.valid_compose h'.valid h.valid⟩
  · obtain ⟨new, hnew⟩ := Name.Map.mem_keys_iff.mp (keys_filter_sub hn)
    rcases (get?_merged kept).mp hnew with ⟨middle, hmiddle, -⟩ | ⟨hout, free⟩
    · exact h.known n (Name.Map.mem_keys_iff.mpr ⟨middle, hmiddle⟩)
    · have known := h'.known n (Name.Map.mem_keys_iff.mpr ⟨new, hout⟩)
      obtain ⟨m, hm, rfl⟩ := List.mem_map.mp known
      have notKey : m ∉ inner.keys := by
        intro key
        obtain ⟨middle, hmiddle⟩ := Name.Map.mem_keys_iff.mp key
        rw [apply_of_get? hmiddle] at free
        exact free (Name.Map.mem_values_iff.mpr ⟨m, hmiddle⟩)
      rwa [apply_of_notMem notKey]
  · intro n hn m hm same
    rw [h.apply_compose kept hn, h.apply_compose kept hm] at same
    have middle := h'.injective (List.mem_map_of_mem hn) (List.mem_map_of_mem hm) same
    exact h.injective hn hm middle

/-! ## Projections before renamings -/

section Before

variable {names : List String}

theorem foldl_add_before (h : Renames map columns) (nodup : names.Nodup)
    (sub : ∀ n ∈ names, n ∈ columns.map map.apply) (seen : ∀ n ∈ names, Rewrite.hides map n = false) :
    (names.map map.inverse.apply).foldl Projection.add [] = names.map map.inverse.apply := by
  have injective : ∀ n ∈ names, ∀ m ∈ names, map.inverse.apply n = map.inverse.apply m → n = m := by
    intro n hn m hm same
    have left := ((h.undoes (seen n hn)).known (List.mem_map.mp (sub n hn))).2
    have right := ((h.undoes (seen m hm)).known (List.mem_map.mp (sub m hm))).2
    rw [← left, same, right]
  have result := @Projection.foldl_add_of_nodup [] _ (List.Nodup.map_on injective nodup)
  simpa using result

/-- The renaming that a projection still needs leads back to the names of the projection. -/
theorem apply_kept (h : Renames map columns) (sub : ∀ n ∈ names, n ∈ columns.map map.apply)
    (seen : ∀ n ∈ names, Rewrite.hides map n = false) (hn : n ∈ names) :
    Renaming.apply (map.filter fun _ new => names.contains new) (map.inverse.apply n) = n := by
  obtain ⟨-, forth⟩ := (h.undoes (seen n hn)).known (List.mem_map.mp (sub n hn))
  by_cases key : map.inverse.apply n ∈ map.keys
  · obtain ⟨new, hnew⟩ := Name.Map.mem_keys_iff.mp key
    obtain rfl : new = n := (apply_of_get? hnew).symm.trans forth
    refine apply_of_get? ?_
    rw [Name.Map.get?_filter, hnew]
    simp [Option.filter, hn]
  · rw [apply_of_notMem key] at forth
    rw [apply_of_notMem fun mem => key (keys_filter_sub mem), forth]

theorem Renames.kept (h : Renames map columns) (sub : ∀ n ∈ names, n ∈ columns.map map.apply)
    (seen : ∀ n ∈ names, Rewrite.hides map n = false) :
    Renames (map.filter fun _ new => names.contains new) (names.map map.inverse.apply) := by
  refine ⟨fun old hold => ?_, ?_, Rewrite.valid_filter h.valid _⟩
  · obtain ⟨new, hnew⟩ := Name.Map.mem_keys_iff.mp hold
    rw [Name.Map.get?_filter, Option.filter_eq_some_iff] at hnew
    have mem : new ∈ names := by simpa using hnew.2
    obtain ⟨known, forth⟩ := (h.undoes (seen new mem)).known (List.mem_map.mp (sub new mem))
    have oldKnown := h.known old (keys_filter_sub hold)
    have same : map.apply (map.inverse.apply new) = map.apply old := by
      rw [forth, apply_of_get? hnew.1]
    have equal : map.inverse.apply new = old := h.injective known oldKnown same
    exact List.mem_map.mpr ⟨new, mem, equal⟩
  · intro a ha b hb same
    obtain ⟨n, hn, rfl⟩ := List.mem_map.mp ha
    obtain ⟨m, hm, rfl⟩ := List.mem_map.mp hb
    rw [apply_kept h sub seen hn, apply_kept h sub seen hm] at same
    rw [same]

end Before

/-! ## Plans with a renaming -/

theorem apply_of_isEmpty (h : map.isEmpty = true) (n : String) : map.apply n = n := by
  rw [Renaming.apply, Name.Map.isEmpty_iff.mp h n]
  rfl

theorem columns_renamed (map : Renaming) (p : Plan) :
    (p.renamed map).columns env = (p.columns env).map map.apply := by
  unfold renamed
  by_cases empty : map.isEmpty = true
  · rw [if_pos empty, List.map_congr_left fun n _ => apply_of_isEmpty empty n, List.map_id']
  · rw [if_neg empty]
    rfl

theorem typed_renamed {p : Plan} (typed : p.Typed env) (h : Renames map (p.columns env)) :
    (p.renamed map).Typed env := by
  unfold renamed
  by_cases empty : map.isEmpty = true
  · rwa [if_pos empty]
  · rw [if_neg empty]
    exact ⟨typed, h⟩

end Query.Plan

/-! ## All rewritings -/

namespace Rewrite

variable {env : Environment} {rule : Rule} {p p' : Plan}

theorem Filters.columns_eq {fs : List Predicate.Formula} (h : Filters fs p p') :
    p'.columns env = p.columns env := by
  rcases h with ⟨-, rfl⟩ | ⟨clause, -, rfl⟩
  · rfl
  · rfl

theorem Filters.typed_iff {fs : List Predicate.Formula} (h : Filters fs p p') :
    p'.Typed env ↔ p.Typed env := by
  rcases h with ⟨-, rfl⟩ | ⟨clause, -, rfl⟩
  · exact Iff.rfl
  · exact Iff.rfl

/-- Names that a renaming makes of two lists of columns are the same only if the columns are. -/
theorem columns_of_renamed {map : Renaming} {left right : List String} (hl : Renames map left)
    (hr : Renames map right) (same : ∀ n, n ∈ left.map map.apply ↔ n ∈ right.map map.apply) :
    ∀ n, n ∈ left ↔ n ∈ right := by
  have half {left right : List String} (hl : Renames map left) (hr : Renames map right)
      (same : ∀ n, n ∈ left.map map.apply → n ∈ right.map map.apply) : ∀ n ∈ left, n ∈ right := by
    intro n hn
    by_cases key : n ∈ map.keys
    · exact hr.known n key
    · obtain ⟨m, hm, hmn⟩ := List.mem_map.mp (same _ (List.mem_map_of_mem hn))
      rw [Query.Plan.apply_of_notMem key] at hmn
      by_cases keyM : m ∈ map.keys
      · have both : map.apply m = map.apply n := by
          rw [hmn, Query.Plan.apply_of_notMem key]
        have equal : m = n := hl.injective (hl.known m keyM) hn both
        exact equal ▸ hm
      · rw [Query.Plan.apply_of_notMem keyM] at hmn
        exact hmn ▸ hm
  intro n
  exact ⟨half hl hr (fun n => (same n).mp) n, half hr hl (fun n => (same n).mpr) n⟩

theorem joinNames_setOperator {op : Binary} (h : op.isSetOperator = true) (left right : List String) :
    Query.Tree.joinNames op left right = left := by
  cases op with
  | union | intersection | difference => rfl
  | product | division | join | leftJoin | rightJoin | fullJoin => cases h

theorem mem_joinNames_congr (op : Binary) {left left' right right' : List String}
    (hl : ∀ n, n ∈ left' ↔ n ∈ left) (hr : ∀ n, n ∈ right' ↔ n ∈ right) (n : String) :
    n ∈ Query.Tree.joinNames op left' right' ↔ n ∈ Query.Tree.joinNames op left right := by
  cases op <;> simp [Query.Tree.joinNames, hl, hr]

/-- Columns that are the same beside shared ones, apart from them on both sides, are the same. -/
theorem mem_iff_of_apart {shared left right : List String} (apart : ∀ n ∈ shared, n ∉ left)
    (apart' : ∀ n ∈ shared, n ∉ right)
    (same : ∀ n, n ∈ shared ∨ n ∈ left ↔ n ∈ shared ∨ n ∈ right) (n : String) :
    n ∈ left ↔ n ∈ right := by
  constructor
  · intro hl
    exact ((same n).mp (.inr hl)).resolve_left fun hs => apart n hs hl
  · intro hr
    exact ((same n).mpr (.inr hr)).resolve_left fun hs => apart' n hs hr

/-- The second plan is typed if the first one is, and has its columns. -/
def Retypes (env : Environment) (p p' : Plan) : Prop :=
  p.Typed env → p'.Typed env ∧ p'.columns env = p.columns env

section Retypes

variable {map : Renaming} {a b c : Plan}

theorem retypes_mergeRenamings {outer inner : Renaming} (kept : mentionsRemoved outer inner = false) :
    Retypes env (.rename outer (.rename inner a)) (a.renamed (compose outer inner)) := by
  rintro ⟨⟨typed, renames⟩, renames'⟩
  refine ⟨Plan.typed_renamed typed (renames.compose renames' kept), ?_⟩
  have columns : (Plan.rename outer (.rename inner a)).columns env =
      (a.columns env).map (outer.apply ∘ inner.apply) := List.map_map
  rw [Plan.columns_renamed, columns]
  exact List.map_congr_left fun n hn => renames.apply_compose kept hn

theorem retypes_dropIdleRenaming :
    Retypes env (.rename map a) (a.renamed (map.filter fun old new => old ≠ new)) := by
  rintro ⟨typed, renames⟩
  refine ⟨Plan.typed_renamed typed renames.filter_ne, ?_⟩
  rw [Plan.columns_renamed]
  exact List.map_congr_left fun n _ => Plan.apply_filter_ne n

/-- The projection that stands before a renaming is typed, as the projection after it was. -/
theorem typed_before {l : List String} (typed : a.Typed env) (renames : Renames map (a.columns env))
    (ne : l ≠ []) (sub : ∀ n ∈ l, n ∈ (a.columns env).map map.apply)
    (seen : ∀ n ∈ l, hides map n = false) :
    (Plan.projection (l.map map.inverse.apply) a).Typed env := by
  refine ⟨typed, by simpa using ne, fun n hn => ?_⟩
  obtain ⟨m, hm, rfl⟩ := List.mem_map.mp hn
  exact ((renames.undoes (seen m hm)).known (List.mem_map.mp (sub m hm))).1

theorem retypes_projectBeforeRenaming {l : List String} (nodup : l.Nodup)
    (seen : ∀ n ∈ l, hides map n = false) :
    Retypes env (.projection l (.rename map a))
      (Plan.renamed (map.filter fun _ new => l.contains new)
        (.projection ((l.map map.inverse.apply).foldl Query.Projection.add []) a)) := by
  rintro ⟨⟨typed, renames⟩, ne, sub⟩
  have before := Plan.foldl_add_before renames nodup sub seen
  have columns : (Plan.projection (l.map map.inverse.apply) a).columns env =
      l.map map.inverse.apply := by
    refine distinct_of_nodup ?_
    rw [← before]
    exact Query.Projection.nodup_foldl_add List.nodup_nil _
  rw [before]
  refine ⟨Plan.typed_renamed (typed_before typed renames ne sub seen) ?_, ?_⟩
  · rw [columns]
    exact renames.kept sub seen
  · rw [Plan.columns_renamed, columns, List.map_map]
    have back : l.map (Renaming.apply (map.filter fun _ new => l.contains new) ∘
        map.inverse.apply) = l.map id :=
      List.map_congr_left fun n hn => Plan.apply_kept renames sub seen hn
    rw [back, List.map_id]
    exact (distinct_of_nodup nodup).symm

theorem retypes_factorRenaming {op : Binary} (isSet : op.isSetOperator = true) :
    Retypes env (.binary op (.rename map a) (.rename map b)) (.rename map (.binary op a b)) := by
  rintro ⟨⟨typedA, renamesA⟩, ⟨typedB, renamesB⟩, fits⟩
  have same := columns_of_renamed renamesA renamesB ((Relation.fits_setOperator isSet).mp fits)
  refine ⟨⟨⟨typedA, typedB, (Relation.fits_setOperator isSet).mpr same⟩, ?_⟩, ?_⟩
  · rw [Plan.columns, joinNames_setOperator isSet]
    exact renamesA
  · rw [Plan.columns, Plan.columns, Plan.columns, joinNames_setOperator isSet,
      joinNames_setOperator isSet]
    rfl

theorem retypes_factorProductLeft :
    Retypes env (.binary .union (.binary .product a b) (.binary .product a c))
      (.binary .product a (.binary .union b c)) := by
  rintro ⟨⟨typedA, typedB, disjointB⟩, ⟨-, typedC, disjointC⟩, fits⟩
  have same : ∀ n, n ∈ b.columns env ↔ n ∈ c.columns env := by
    refine mem_iff_of_apart disjointB disjointC fun n => ?_
    simpa only [Plan.columns, Query.Tree.joinNames, List.mem_append] using fits n
  exact ⟨⟨typedA, ⟨typedB, typedC, same⟩, disjointB⟩, rfl⟩

theorem retypes_factorProductRight :
    Retypes env (.binary .union (.binary .product b a) (.binary .product c a))
      (.binary .product (.binary .union b c) a) := by
  rintro ⟨⟨typedB, typedA, disjointB⟩, ⟨typedC, -, disjointC⟩, fits⟩
  have same : ∀ n, n ∈ b.columns env ↔ n ∈ c.columns env := by
    refine mem_iff_of_apart (fun n ha hb => disjointB n hb ha) (fun n ha hc => disjointC n hc ha)
      fun n => ?_
    have both := fits n
    simp only [Plan.columns, Query.Tree.joinNames, List.mem_append] at both
    rw [or_comm, both, or_comm]
  exact ⟨⟨⟨typedB, typedC, same⟩, typedA, disjointB⟩, rfl⟩

theorem retypes_distributeConjuncts {clause : Predicate.Clause} {op : Binary} {a' b' : Plan}
    {ls rs bs : List Predicate.Formula} (ha : Filters ls a a') (hb : Filters rs b b')
    (hc : Filters bs (.binary op a' b') c) : Retypes env (.selection clause (.binary op a b)) c := by
  rintro ⟨typedA, typedB, fits⟩
  refine ⟨hc.typed_iff.mpr ⟨ha.typed_iff.mpr typedA, hb.typed_iff.mpr typedB, ?_⟩, ?_⟩
  · rwa [ha.columns_eq, hb.columns_eq]
  · rw [hc.columns_eq]
    exact congrArg₂ (Query.Tree.joinNames op) ha.columns_eq hb.columns_eq

end Retypes

theorem retypes_of_rewrites (h : Rewrites env rule p p') (other : rule ≠ .dropIdleProjection) :
    Retypes env p p' := by
  intro typed
  cases h with
  | mergeEqual | mergeSelections | distributeSelection | distributeFiltered | selectBeforeProjection
  | selectBeforeRenaming => exact ⟨typed, rfl⟩
  | mergeProjections =>
    obtain ⟨⟨typedA, -, subM⟩, neL, subL⟩ := typed
    exact ⟨⟨typedA, neL, fun n hn => subM n (mem_distinct.mp (subL n hn))⟩, rfl⟩
  | mergeRenamings _ _ kept => exact retypes_mergeRenamings kept typed
  | dropIdleRenaming => exact retypes_dropIdleRenaming typed
  | projectBeforeRenaming nodup seen => exact retypes_projectBeforeRenaming nodup seen typed
  | sameOperands isSet =>
    refine ⟨typed.1, ?_⟩
    rcases isSet with rfl | rfl
    · rfl
    · rfl
  | emptyDifference | unionLeft | unionRight | intersectionLeft | intersectionRight | differenceLeft
  | differenceRight | combineUnion | combineIntersection | combineDifference => exact ⟨typed.1, rfl⟩
  | factorRenaming isSet => exact retypes_factorRenaming isSet typed
  | factorProductLeft => exact retypes_factorProductLeft typed
  | factorProductRight => exact retypes_factorProductRight typed
  | distributeConjuncts isJoin all left right ha hb hc =>
    exact retypes_distributeConjuncts ha hb hc typed
  | factorProjection same =>
    obtain ⟨⟨typedA, ne, sub⟩, ⟨typedB, -⟩, -⟩ := typed
    exact ⟨⟨⟨typedA, typedB, same⟩, ne, sub⟩, rfl⟩
  | dropIdleProjection => exact absurd rfl other
  | factorJoinLeft same =>
    obtain ⟨⟨typedA, typedB, -⟩, ⟨-, typedC, -⟩, -⟩ := typed
    exact ⟨⟨typedA, ⟨typedB, typedC, same⟩, trivial⟩, rfl⟩
  | factorJoinRight same =>
    obtain ⟨⟨typedB, typedA, -⟩, ⟨typedC, -, -⟩, -⟩ := typed
    exact ⟨⟨⟨typedB, typedC, same⟩, typedA, trivial⟩, rfl⟩

/-- A rewriting keeps a plan typed, and keeps its columns; only an idle projection that is dropped brings
them into another order. -/
theorem typed_of_rewrites (h : Rewrites env rule p p') (typed : p.Typed env) :
    p'.Typed env ∧ (p'.columns env).Perm (p.columns env) ∧
      (rule ≠ .dropIdleProjection → p'.columns env = p.columns env) := by
  by_cases dropped : rule = .dropIdleProjection
  · subst dropped
    cases h with
    | @dropIdleProjection l a ne same =>
      obtain ⟨typedA, -, -⟩ := typed
      refine ⟨typedA, ?_, fun other => absurd rfl other⟩
      refine (List.perm_ext_iff_of_nodup (Plan.columns_of_typed typedA).1 (nodup_distinct l)).mpr ?_
      intro n
      rw [mem_distinct, same]
  · obtain ⟨typed', columns⟩ := retypes_of_rewrites h dropped typed
    exact ⟨typed', .of_eq columns, fun _ => columns⟩

def Hides : Rule → Prop
  | .mergeProjections | .mergeRenamings | .dropIdleRenaming | .projectBeforeRenaming => True
  | _ => False

/-- A plan that becomes typed by a rule that hides nothing was typed. -/
theorem typed_of_rewritten (h : Rewrites env rule p p') (innocent : ¬Hides rule)
    (typed : p'.Typed env) : p.Typed env := by
  cases h with
  | mergeEqual | mergeSelections | distributeSelection | distributeFiltered | selectBeforeProjection
  | selectBeforeRenaming => exact typed
  | mergeProjections | mergeRenamings | dropIdleRenaming | projectBeforeRenaming =>
    exact absurd trivial innocent
  | sameOperands isSet =>
    refine ⟨typed, typed, ?_⟩
    rcases isSet with rfl | rfl
    · exact fun _ => Iff.rfl
    · exact fun _ => Iff.rfl
  | emptyDifference | unionLeft | unionRight | intersectionLeft | intersectionRight | differenceLeft
  | differenceRight | combineUnion | combineIntersection | combineDifference =>
    exact ⟨typed, typed, fun _ => Iff.rfl⟩
  | @factorRenaming op map a b isSet =>
    obtain ⟨⟨typedA, typedB, fits⟩, renames⟩ := typed
    rw [Plan.columns, joinNames_setOperator isSet] at renames
    have same := (Relation.fits_setOperator isSet).mp fits
    refine ⟨⟨typedA, renames⟩, ⟨typedB, renames.congr same⟩, ?_⟩
    refine (Relation.fits_setOperator isSet).mpr fun n => ?_
    simp only [Plan.columns, List.mem_map, same]
  | @factorProductLeft a b c =>
    obtain ⟨typedA, ⟨typedB, typedC, same⟩, disjoint⟩ := typed
    refine ⟨⟨typedA, typedB, disjoint⟩, ⟨typedA, typedC, fun n ha hc => ?_⟩, ?_⟩
    · exact disjoint n ha ((same n).mpr hc)
    · exact mem_joinNames_congr .product (fun _ => Iff.rfl) same
  | @factorProductRight a b c =>
    obtain ⟨⟨typedB, typedC, same⟩, typedA, disjoint⟩ := typed
    refine ⟨⟨typedB, typedA, disjoint⟩, ⟨typedC, typedA, fun n hc ha => ?_⟩, ?_⟩
    · exact disjoint n ((same n).mpr hc) ha
    · exact mem_joinNames_congr .product same fun _ => Iff.rfl
  | distributeConjuncts isJoin all left right ha hb hc =>
    obtain ⟨typedA, typedB, fits⟩ := hc.typed_iff.mp typed
    rw [ha.columns_eq, hb.columns_eq] at fits
    exact ⟨ha.typed_iff.mp typedA, hb.typed_iff.mp typedB, fits⟩
  | factorProjection same =>
    obtain ⟨⟨typedA, typedB, -⟩, ne, sub⟩ := typed
    exact ⟨⟨typedA, ne, sub⟩, ⟨typedB, ne, fun n hn => (same n).mp (sub n hn)⟩, fun _ => Iff.rfl⟩
  | dropIdleProjection ne same => exact ⟨typed, ne, fun n hn => (same n).mp hn⟩
  | factorJoinLeft =>
    obtain ⟨typedA, ⟨typedB, typedC, same⟩, -⟩ := typed
    exact ⟨⟨typedA, typedB, trivial⟩, ⟨typedA, typedC, trivial⟩,
      mem_joinNames_congr .join (fun _ => Iff.rfl) same⟩
  | factorJoinRight =>
    obtain ⟨⟨typedB, typedC, same⟩, typedA, -⟩ := typed
    exact ⟨⟨typedB, typedA, trivial⟩, ⟨typedC, typedA, trivial⟩,
      mem_joinNames_congr .join same fun _ => Iff.rfl⟩

end Rewrite

end RelationalAlgebra
