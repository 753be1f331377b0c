import RelationalAlgebra.Proofs.Rewrite.Steps
/-!
# What the rules do to plans

Each replacement of a query is one of the rewritings of plans: a rule that rewrites a query with a plan
gives a query with a plan, and the second plan takes the place of the first.
-/

namespace RelationalAlgebra.Rewrite

open Query (Tree Plan Binary)
open Predicate (Clause Formula Reads conjoin negation)

variable {env : Environment} {t t' : Tree} {p : Plan}

/-! ## Predicates -/

theorem reads_conjoin_pair {a b : String} {f g : Formula} (ha : Reads a f) (hb : Reads b g) :
    ∃ h, Reads (conjoin [a, b]) h ∧ h.conjuncts = f.conjuncts ++ g.conjuncts := by
  obtain ⟨h, reads, conjuncts⟩ := Predicate.reads_conjoin (.cons ha (.cons hb .nil)) (by simp)
  exact ⟨h, reads, by simpa using conjuncts⟩

/-- Predicates that differ in their outer blanks have one formula. -/
theorem formula_eq_of_trimmed {p q : String} {c d : Clause} (hc : Relation.clause? p = .ok c)
    (hd : Relation.clause? q = .ok d) (same : Text.trimmed p = Text.trimmed q) :
    c.formula = d.formula := by
  have reads := (clause?_eq_ok_iff.mp hc).1.trimmed
  rw [same] at reads
  exact reads.unique (clause?_eq_ok_iff.mp hd).1.trimmed

theorem rewrites_mergeEqual {x y : String} {a : Tree} (same : Text.trimmed x = Text.trimmed y)
    (hp : (Tree.selection x (.selection y a)).plan = .ok p) :
    ∃ p', (Tree.selection (Text.trimmed x) a).plan = .ok p' ∧ Rewrites env .mergeSelections p p' := by
  obtain ⟨input, c, hinput, hc, rfl⟩ := Tree.plan_selection_iff.mp hp
  obtain ⟨a', d, ha, hd, rfl⟩ := Tree.plan_selection_iff.mp hinput
  have equal := formula_eq_of_trimmed hc hd same
  obtain ⟨m, hm, formula⟩ := plan_of_reads (clause?_eq_ok_iff.mp hc).1.trimmed ha
  exact ⟨_, hm, .mergeEqual equal (formula.trans equal)⟩

theorem rewrites_mergeSelections {x y : String} {a : Tree}
    (hp : (Tree.selection x (.selection y a)).plan = .ok p) :
    ∃ p', (Tree.selection (conjoin [y, x]) a).plan = .ok p' ∧ Rewrites env .mergeSelections p p' := by
  obtain ⟨input, c, hinput, hc, rfl⟩ := Tree.plan_selection_iff.mp hp
  obtain ⟨a', d, ha, hd, rfl⟩ := Tree.plan_selection_iff.mp hinput
  obtain ⟨g, merged, conjuncts⟩ :=
    reads_conjoin_pair (clause?_eq_ok_iff.mp hd).1 (clause?_eq_ok_iff.mp hc).1
  obtain ⟨m, hm, formula⟩ := plan_of_reads merged ha
  exact ⟨_, hm, .mergeSelections (by rw [formula, conjuncts])⟩

theorem rewrites_distributeSelection {x : String} {op : Binary} {a b : Tree}
    (isSet : op.isSetOperator = true) (hp : (Tree.selection x (.binary op a b)).plan = .ok p) :
    ∃ p', (Tree.binary op (.selection x a) (.selection x b)).plan = .ok p' ∧
      Rewrites env .distributeSelection p p' := by
  obtain ⟨input, c, hinput, hc, rfl⟩ := Tree.plan_selection_iff.mp hp
  obtain ⟨a', b', ha, hb, rfl⟩ := Tree.plan_binary_iff.mp hinput
  have onLeft := Tree.plan_selection ha hc
  have onRight := Tree.plan_selection hb hc
  exact ⟨_, Tree.plan_binary op onLeft onRight, .distributeSelection isSet⟩

theorem rewrites_distributeFiltered {x y : String} {a b : Tree}
    (same : Text.trimmed y = Text.trimmed x)
    (hp : (Tree.selection x (.binary .difference a (.selection y b))).plan = .ok p) :
    ∃ p', (Tree.binary .difference (.selection x a) (.selection y b)).plan = .ok p' ∧
      Rewrites env .distributeSelection p p' := by
  obtain ⟨input, c, hinput, hc, rfl⟩ := Tree.plan_selection_iff.mp hp
  obtain ⟨a', right, ha, hright, rfl⟩ := Tree.plan_binary_iff.mp hinput
  obtain ⟨b', d, hb, hd, rfl⟩ := Tree.plan_selection_iff.mp hright
  have onLeft := Tree.plan_selection ha hc
  exact ⟨_, Tree.plan_binary _ onLeft hright, .distributeFiltered (formula_eq_of_trimmed hd hc same)⟩

theorem rewrites_selectBeforeProjection {x l : String} {a : Tree}
    (hp : (Tree.selection x (.projection l a)).plan = .ok p) :
    ∃ p', (Tree.projection l (.selection x a)).plan = .ok p' ∧
      Rewrites env .selectBeforeProjection p p' := by
  obtain ⟨input, c, hinput, hc, rfl⟩ := Tree.plan_selection_iff.mp hp
  obtain ⟨a', names, ha, hnames, rfl⟩ := Tree.plan_projection_iff.mp hinput
  exact ⟨_, Tree.plan_projection (Tree.plan_selection ha hc) hnames, .selectBeforeProjection⟩

theorem rewrites_combineSelections {op : Binary} {x y z : String} {a : Tree}
    (combined : combine? op x y = some z)
    (hp : (Tree.binary op (.selection x a) (.selection y a)).plan = .ok p) :
    ∃ p', (Tree.selection z a).plan = .ok p' ∧ Rewrites env .combineSelections p p' := by
  obtain ⟨left, right, hleft, hright, rfl⟩ := Tree.plan_binary_iff.mp hp
  obtain ⟨l, c, hl, hc, rfl⟩ := Tree.plan_selection_iff.mp hleft
  obtain ⟨r, d, hr, hd, rfl⟩ := Tree.plan_selection_iff.mp hright
  obtain rfl : l = r := Except.ok.inj (hl.symm.trans hr)
  have reads := (clause?_eq_ok_iff.mp hc).1
  have reads' := (clause?_eq_ok_iff.mp hd).1
  cases op with
  | union =>
    obtain rfl := Option.some.inj combined
    obtain ⟨g, combined, disjuncts⟩ := Predicate.reads_or reads reads'
    obtain ⟨m, hm, formula⟩ := plan_of_reads combined hl
    exact ⟨_, hm, .combineUnion (by rw [formula, disjuncts])⟩
  | intersection =>
    obtain rfl := Option.some.inj combined
    obtain ⟨g, combined, conjuncts⟩ := reads_conjoin_pair reads reads'
    obtain ⟨m, hm, formula⟩ := plan_of_reads combined hl
    exact ⟨_, hm, .combineIntersection (by rw [formula, conjuncts])⟩
  | difference =>
    obtain rfl := Option.some.inj combined
    obtain ⟨g, combined, conjuncts⟩ := reads_conjoin_pair reads (Predicate.reads_negation reads')
    obtain ⟨m, hm, formula⟩ := plan_of_reads combined hl
    exact ⟨_, hm, .combineDifference (by rw [formula, conjuncts]; rfl)⟩
  | product | division | join | leftJoin | rightJoin | fullJoin => cases combined

theorem rewrites_selectBeforeRenaming {x y m : String} {map : Renaming} {used : List String} {a : Tree}
    (read : Renaming.ofText? m = .ok map) (names : Predicate.attributeNames x = .ok used)
    (seen : ∀ n ∈ used, hides map n = false)
    (before : Predicate.renameAttributes x map.inverse = .ok y)
    (hp : (Tree.selection x (.rename m a)).plan = .ok p) :
    ∃ p', (Tree.rename m (.selection y a)).plan = .ok p' ∧
      Rewrites env .selectBeforeRenaming p p' := by
  obtain ⟨input, c, hinput, hc, rfl⟩ := Tree.plan_selection_iff.mp hp
  obtain ⟨a', map', ha, hmap, rfl⟩ := Tree.plan_rename_iff.mp hinput
  obtain rfl : map = map' := Except.ok.inj (read.symm.trans hmap)
  have reads := (clause?_eq_ok_iff.mp hc).1
  have valid := Renaming.valid_of_ofText? read
  have reads' : Reads y (c.formula.rename map.inverse.apply) :=
    Predicate.reads_renameAttributes reads (fun n new hn => (valid new n (get?_inverse hn)).1) before
  obtain ⟨q, hq, formula⟩ := plan_of_reads reads' ha
  refine ⟨_, Tree.plan_rename hq hmap, .selectBeforeRenaming (fun n hn => ?_) formula⟩
  exact seen n ((Predicate.mem_attributeNames reads names).mpr hn)

/-! ## Names -/

theorem rewrites_mergeProjections {l m : String} {a : Tree}
    (hp : (Tree.projection l (.projection m a)).plan = .ok p) :
    ∃ p', (Tree.projection l a).plan = .ok p' ∧ Rewrites env .mergeProjections p p' := by
  obtain ⟨input, names, hinput, hnames, rfl⟩ := Tree.plan_projection_iff.mp hp
  obtain ⟨a', names', ha, -, rfl⟩ := Tree.plan_projection_iff.mp hinput
  exact ⟨_, Tree.plan_projection ha hnames, .mergeProjections⟩

theorem rewrites_mergeRenamings {m n : String} {outer inner : Renaming} {a : Tree}
    (readOuter : Renaming.ofText? m = .ok outer) (readInner : Renaming.ofText? n = .ok inner)
    (kept : mentionsRemoved outer inner = false)
    (hp : (Tree.rename m (.rename n a)).plan = .ok p) :
    ∃ p', (renamed (compose outer inner) a).plan = .ok p' ∧ Rewrites env .mergeRenamings p p' := by
  obtain ⟨input, outer', hinput, houter, rfl⟩ := Tree.plan_rename_iff.mp hp
  obtain ⟨a', inner', ha, hinner, rfl⟩ := Tree.plan_rename_iff.mp hinput
  obtain rfl := Except.ok.inj (readOuter.symm.trans houter)
  obtain rfl := Except.ok.inj (readInner.symm.trans hinner)
  have validOuter := Renaming.valid_of_ofText? houter
  have validInner := Renaming.valid_of_ofText? hinner
  exact ⟨_, plan_renamed (valid_compose validOuter validInner) ha,
    .mergeRenamings validOuter validInner kept⟩

theorem rewrites_dropIdleRenaming {m : String} {map : Renaming} {a : Tree}
    (read : Renaming.ofText? m = .ok map) (hp : (Tree.rename m a).plan = .ok p) :
    ∃ p', (renamed (map.filter fun old new => old ≠ new) a).plan = .ok p' ∧
      Rewrites env .dropIdleRenaming p p' := by
  obtain ⟨a', map', ha, hmap, rfl⟩ := Tree.plan_rename_iff.mp hp
  obtain rfl := Except.ok.inj (read.symm.trans hmap)
  have valid := valid_filter (Renaming.valid_of_ofText? read) fun old new => old ≠ new
  exact ⟨_, plan_renamed valid ha, .dropIdleRenaming⟩

theorem rewrites_factorRenaming {m n : String} {op : Binary} {a b : Tree}
    (isSet : op.isSetOperator = true)
    (same : m = n ∨ ∃ map, Renaming.ofText? m = .ok map ∧ Renaming.ofText? n = .ok map)
    (hp : (Tree.binary op (.rename m a) (.rename n b)).plan = .ok p) :
    ∃ p', (Tree.rename m (.binary op a b)).plan = .ok p' ∧ Rewrites env .factorRenaming p p' := by
  obtain ⟨left, right, hleft, hright, rfl⟩ := Tree.plan_binary_iff.mp hp
  obtain ⟨l, map, hl, hm, rfl⟩ := Tree.plan_rename_iff.mp hleft
  obtain ⟨r, map', hr, hn, rfl⟩ := Tree.plan_rename_iff.mp hright
  have equal : map = map' := by
    rcases same with rfl | ⟨both, hboth, hboth'⟩
    · exact Except.ok.inj (hm.symm.trans hn)
    · exact Except.ok.inj ((hm.symm.trans hboth).trans (hboth'.symm.trans hn))
  subst equal
  exact ⟨_, Tree.plan_rename (Tree.plan_binary _ hl hr) hm, .factorRenaming isSet⟩

theorem rewrites_projectBeforeRenaming {l m : String} {names : List String} {map : Renaming} {a : Tree}
    (readNames : Query.Projection.ofText? l = .ok names) (read : Renaming.ofText? m = .ok map)
    (seen : ∀ n ∈ names, hides map n = false) (hp : (Tree.projection l (.rename m a)).plan = .ok p) :
    ∃ p', (renamed (map.filter fun _ new => names.contains new)
        (.projection (Query.Projection.write (names.map map.inverse.apply)) a)).plan = .ok p' ∧
      Rewrites env .projectBeforeRenaming p p' := by
  obtain ⟨input, names', hinput, hnames, rfl⟩ := Tree.plan_projection_iff.mp hp
  obtain ⟨a', map', ha, hmap, rfl⟩ := Tree.plan_rename_iff.mp hinput
  obtain rfl : names = names' := Except.ok.inj (readNames.symm.trans hnames)
  obtain rfl : map = map' := Except.ok.inj (read.symm.trans hmap)
  obtain ⟨ne, nodup, validNames⟩ := Query.Projection.ofText?_eq_ok readNames
  have valid := Renaming.valid_of_ofText? read
  have written : Query.Projection.ofText? (Query.Projection.write (names.map map.inverse.apply)) =
      .ok ((names.map map.inverse.apply).foldl Query.Projection.add []) := by
    refine Query.Projection.ofText?_write (by simpa using ne) fun n hn => ?_
    obtain ⟨m, hm, rfl⟩ := List.mem_map.mp hn
    exact isValid_inverse valid (validNames m hm)
  have projected := Tree.plan_projection ha written
  exact ⟨_, plan_renamed (valid_filter valid _) projected, .projectBeforeRenaming nodup seen⟩

theorem mem_iff_of_sameSet {xs ys : List String} (h : Name.sameSet xs ys = true) (n : String) :
    n ∈ xs ↔ n ∈ ys := by
  obtain ⟨forth, back⟩ := Bool.and_eq_true_iff.mp h
  simp only [Name.subset, List.all_eq_true, List.contains_iff_mem] at forth back
  exact ⟨forth n, back n⟩

theorem sameAttributes_eq_true {a b : Tree} {x y : Plan} (ha : a.plan = .ok x) (hb : b.plan = .ok y)
    (h : sameAttributes env a b = .ok true) : ∀ n, n ∈ x.columns env ↔ n ∈ y.columns env := by
  unfold sameAttributes at h
  split at h
  · cases h
  · next left hleft =>
    obtain ⟨right, hright, same⟩ := map_eq_ok.mp h
    rw [← Tree.columns_of_schema ha hleft, ← Tree.columns_of_schema hb hright]
    exact mem_iff_of_sameSet same

theorem rewrites_factorProjection {l m : String} {names : List String} {a b : Tree}
    (readLeft : Query.Projection.ofText? l = .ok names)
    (readRight : Query.Projection.ofText? m = .ok names) (same : sameAttributes env a b = .ok true)
    (hp : (Tree.binary .union (.projection l a) (.projection m b)).plan = .ok p) :
    ∃ p', (Tree.projection l (.binary .union a b)).plan = .ok p' ∧
      Rewrites env .factorProjection p p' := by
  obtain ⟨left, right, hleft, hright, rfl⟩ := Tree.plan_binary_iff.mp hp
  obtain ⟨a', names', ha, hl, rfl⟩ := Tree.plan_projection_iff.mp hleft
  obtain ⟨b', names'', hb, hm, rfl⟩ := Tree.plan_projection_iff.mp hright
  obtain rfl := Except.ok.inj (readLeft.symm.trans hl)
  obtain rfl := Except.ok.inj (readRight.symm.trans hm)
  have union := Tree.plan_binary .union ha hb
  exact ⟨_, Tree.plan_projection union hl, .factorProjection (sameAttributes_eq_true ha hb same)⟩

theorem rewrites_dropIdleProjection {l : String} {names all : List String} {a : Tree}
    (read : Query.Projection.ofText? l = .ok names) (schema : a.schema env = .ok all)
    (same : Name.sameSet names all = true) (hp : (Tree.projection l a).plan = .ok p) :
    ∃ p', a.plan = .ok p' ∧ Rewrites env .dropIdleProjection p p' := by
  obtain ⟨a', names', ha, hl, rfl⟩ := Tree.plan_projection_iff.mp hp
  obtain rfl := Except.ok.inj (read.symm.trans hl)
  refine ⟨a', ha, .dropIdleProjection (Query.Projection.ofText?_eq_ok hl).1 ?_⟩
  rw [← Tree.columns_of_schema ha schema]
  exact mem_iff_of_sameSet same

/-! ## Conjuncts -/

/-- Sorted conjuncts are all conjuncts, each beside an operand that has its attributes. -/
theorem reads_sortConjuncts {left right parts : List String} {s : Sorted}
    (h : sortConjuncts left right parts = .ok s) {fs : List Formula}
    (reads : List.Forall₂ Reads parts fs) :
    ∃ ls rs bs, List.Forall₂ Reads s.left ls ∧ List.Forall₂ Reads s.right rs ∧
      List.Forall₂ Reads s.both bs ∧ (ls ++ rs ++ bs).Perm fs ∧
      (∀ f ∈ ls, ∀ n ∈ f.mentioned, n ∈ left) ∧ ∀ f ∈ rs, ∀ n ∈ f.mentioned, n ∈ right := by
  induction reads generalizing s with
  | nil =>
    obtain rfl := Except.ok.inj h
    exact ⟨[], [], [], .nil, .nil, .nil, .nil, by simp, by simp⟩
  | @cons part f parts fs hf hfs ih =>
    rw [sortConjuncts] at h
    split at h
    · cases h
    · next used hused =>
      obtain ⟨s', hs', rfl⟩ := map_eq_ok.mp h
      obtain ⟨ls, rs, bs, readsLeft, readsRight, readsBoth, all, onLeft, onRight⟩ := ih hs'
      have inside {names : List String} (sub : Name.subset used names = true) :
          ∀ n ∈ f.mentioned, n ∈ names := by
        intro n hn
        have hused' := (Predicate.mem_attributeNames hf (inPredicate_eq_ok.mp hused)).mpr hn
        simp only [Name.subset, List.all_eq_true, List.contains_iff_mem] at sub
        exact sub n hused'
      split
      · next sub =>
        exact ⟨f :: ls, rs, bs, .cons hf readsLeft, readsRight, readsBoth, all.cons f,
          List.forall_mem_cons.mpr ⟨inside sub, onLeft⟩, onRight⟩
      · split
        · next sub =>
          refine ⟨ls, f :: rs, bs, readsLeft, .cons hf readsRight, readsBoth, ?_, onLeft,
            List.forall_mem_cons.mpr ⟨inside sub, onRight⟩⟩
          have moved : (ls ++ f :: rs ++ bs).Perm (f :: (ls ++ rs ++ bs)) := by
            rw [List.append_assoc, List.append_assoc]
            exact List.perm_middle
          exact moved.trans (all.cons f)
        · refine ⟨ls, rs, f :: bs, readsLeft, readsRight, .cons hf readsBoth, ?_, onLeft, onRight⟩
          exact List.perm_middle.trans (all.cons f)

theorem plan_filtered {parts : List String} {fs : List Formula} (reads : List.Forall₂ Reads parts fs)
    {t : Tree} {p : Plan} (hp : t.plan = .ok p) :
    ∃ p', (filtered parts t).plan = .ok p' ∧ Filters (fs.flatMap Formula.conjuncts) p p' := by
  unfold filtered
  by_cases empty : parts = []
  · subst empty
    cases reads
    exact ⟨p, hp, .inl ⟨rfl, rfl⟩⟩
  · rw [if_neg (by simpa using empty)]
    obtain ⟨g, conjoined, conjuncts⟩ := Predicate.reads_conjoin reads empty
    obtain ⟨clause, hclause, formula⟩ := plan_of_reads conjoined hp
    exact ⟨_, hclause, .inr ⟨clause, by rw [formula, conjuncts], rfl⟩⟩

theorem rewrites_distributeConjuncts {text : String} {op : Binary} {x y : Tree}
    {left right parts : List String} {s : Sorted} (isJoin : op = .product ∨ op = .join)
    (schemaLeft : x.schema env = .ok left) (schemaRight : y.schema env = .ok right)
    (conjuncts : Predicate.conjuncts text = .ok parts) (sorted : sortConjuncts left right parts = .ok s)
    (hp : (Tree.selection text (.binary op x y)).plan = .ok p) :
    ∃ p', (filtered s.both (.binary op (filtered s.left x) (filtered s.right y))).plan = .ok p' ∧
      Rewrites env .distributeConjuncts p p' := by
  obtain ⟨input, clause, hinput, hclause, rfl⟩ := Tree.plan_selection_iff.mp hp
  obtain ⟨a, b, ha, hb, rfl⟩ := Tree.plan_binary_iff.mp hinput
  obtain ⟨fs, readsParts, all⟩ :=
    Predicate.reads_conjuncts (clause?_eq_ok_iff.mp hclause).1 conjuncts
  obtain ⟨ls, rs, bs, readsLeft, readsRight, readsBoth, perm, onLeft, onRight⟩ :=
    reads_sortConjuncts sorted readsParts
  obtain ⟨a', ha', filtersLeft⟩ := plan_filtered readsLeft ha
  obtain ⟨b', hb', filtersRight⟩ := plan_filtered readsRight hb
  obtain ⟨c, hc, filtersBoth⟩ := plan_filtered readsBoth (Tree.plan_binary op ha' hb')
  rw [Tree.columns_of_schema ha schemaLeft] at onLeft
  rw [Tree.columns_of_schema hb schemaRight] at onRight
  have flat {gs : List Formula} {names : List String}
      (inside : ∀ f ∈ gs, ∀ n ∈ f.mentioned, n ∈ names) :
      ∀ f ∈ gs.flatMap Formula.conjuncts, ∀ n ∈ f.mentioned, n ∈ names := by
    intro f hf n hn
    obtain ⟨g, hg, hfg⟩ := List.mem_flatMap.mp hf
    refine inside g hg n ?_
    rw [Predicate.mentioned_conjuncts]
    exact List.mem_flatMap.mpr ⟨f, hfg, hn⟩
  refine ⟨c, hc, .distributeConjuncts isJoin ?_ (flat onLeft) (flat onRight) filtersLeft filtersRight
    filtersBoth⟩
  rw [all, ← List.flatMap_append, ← List.flatMap_append]
  exact perm.flatMap_right _

/-! ## Operands that are shared -/

theorem plan_factorLeft {inner : Binary} {a b c : Tree}
    (hp : (Tree.binary .union (.binary inner a b) (.binary inner a c)).plan = .ok p) :
    ∃ x y z, b.plan = .ok y ∧ c.plan = .ok z ∧
      p = .binary .union (.binary inner x y) (.binary inner x z) ∧
      (Tree.binary inner a (.binary .union b c)).plan = .ok (.binary inner x (.binary .union y z)) := by
  obtain ⟨left, right, hleft, hright, rfl⟩ := Tree.plan_binary_iff.mp hp
  obtain ⟨x, y, hx, hy, rfl⟩ := Tree.plan_binary_iff.mp hleft
  obtain ⟨x', z, hx', hz, rfl⟩ := Tree.plan_binary_iff.mp hright
  obtain rfl : x = x' := Except.ok.inj (hx.symm.trans hx')
  exact ⟨x, y, z, hy, hz, rfl, Tree.plan_binary inner hx (Tree.plan_binary .union hy hz)⟩

theorem plan_factorRight {inner : Binary} {a b c : Tree}
    (hp : (Tree.binary .union (.binary inner b a) (.binary inner c a)).plan = .ok p) :
    ∃ x y z, b.plan = .ok y ∧ c.plan = .ok z ∧
      p = .binary .union (.binary inner y x) (.binary inner z x) ∧
      (Tree.binary inner (.binary .union b c) a).plan = .ok (.binary inner (.binary .union y z) x) := by
  obtain ⟨left, right, hleft, hright, rfl⟩ := Tree.plan_binary_iff.mp hp
  obtain ⟨y, x, hy, hx, rfl⟩ := Tree.plan_binary_iff.mp hleft
  obtain ⟨z, x', hz, hx', rfl⟩ := Tree.plan_binary_iff.mp hright
  obtain rfl : x = x' := Except.ok.inj (hx.symm.trans hx')
  exact ⟨x, y, z, hy, hz, rfl, Tree.plan_binary inner (Tree.plan_binary .union hy hz) hx⟩

/-- A tree and a selection from it, as operands of one operator. -/
theorem plan_filterLeft {op : Binary} {text : String} {a : Tree}
    (hp : (Tree.binary op (.selection text a) a).plan = .ok p) :
    ∃ x c, a.plan = .ok x ∧ Relation.clause? text = .ok c ∧ p = .binary op (.selection c x) x := by
  obtain ⟨left, x, hleft, hx, rfl⟩ := Tree.plan_binary_iff.mp hp
  obtain ⟨x', c, hx', hc, rfl⟩ := Tree.plan_selection_iff.mp hleft
  obtain rfl : x = x' := Except.ok.inj (hx.symm.trans hx')
  exact ⟨x, c, hx, hc, rfl⟩

theorem plan_filterRight {op : Binary} {text : String} {a : Tree}
    (hp : (Tree.binary op a (.selection text a)).plan = .ok p) :
    ∃ x c, a.plan = .ok x ∧ Relation.clause? text = .ok c ∧ p = .binary op x (.selection c x) := by
  obtain ⟨x, right, hx, hright, rfl⟩ := Tree.plan_binary_iff.mp hp
  obtain ⟨x', c, hx', hc, rfl⟩ := Tree.plan_selection_iff.mp hright
  obtain rfl : x = x' := Except.ok.inj (hx.symm.trans hx')
  exact ⟨x, c, hx, hc, rfl⟩

theorem plan_sameOperands {op : Binary} {a : Tree} (hp : (Tree.binary op a a).plan = .ok p) :
    ∃ x, a.plan = .ok x ∧ p = .binary op x x := by
  obtain ⟨x, x', hx, hx', rfl⟩ := Tree.plan_binary_iff.mp hp
  obtain rfl : x = x' := Except.ok.inj (hx.symm.trans hx')
  exact ⟨x, hx, rfl⟩

theorem rewrites_dropIdleSetOperator (h : Replaces env .dropIdleSetOperator t t')
    (hp : t.plan = .ok p) :
    ∃ p', t'.plan = .ok p' ∧ Rewrites env .dropIdleSetOperator p p' := by
  cases h with
  | sameOperands h =>
    obtain ⟨x, hx, rfl⟩ := plan_sameOperands hp
    exact ⟨_, hx, .sameOperands h⟩
  | emptyDifference =>
    obtain ⟨x, hx, rfl⟩ := plan_sameOperands hp
    obtain ⟨n, hn, formula⟩ := plan_of_reads Predicate.reads_false hx
    exact ⟨_, hn, .emptyDifference formula⟩
  | unionLeft =>
    obtain ⟨x, c, hx, -, rfl⟩ := plan_filterLeft hp
    exact ⟨_, hx, .unionLeft⟩
  | unionRight =>
    obtain ⟨x, c, hx, -, rfl⟩ := plan_filterRight hp
    exact ⟨_, hx, .unionRight⟩
  | intersectionLeft =>
    obtain ⟨x, c, hx, hc, rfl⟩ := plan_filterLeft hp
    exact ⟨_, Tree.plan_selection hx hc, .intersectionLeft⟩
  | intersectionRight =>
    obtain ⟨x, c, hx, hc, rfl⟩ := plan_filterRight hp
    exact ⟨_, Tree.plan_selection hx hc, .intersectionRight⟩
  | differenceLeft =>
    obtain ⟨x, c, hx, -, rfl⟩ := plan_filterLeft hp
    obtain ⟨n, hn, formula⟩ := plan_of_reads Predicate.reads_false hx
    exact ⟨_, hn, .differenceLeft formula⟩
  | differenceRight =>
    obtain ⟨x, c, hx, hc, rfl⟩ := plan_filterRight hp
    have reads := Predicate.reads_negation (clause?_eq_ok_iff.mp hc).1
    obtain ⟨n, hn, formula⟩ := plan_of_reads reads hx
    exact ⟨_, hn, .differenceRight formula⟩

theorem rewrites_factorProduct (h : Replaces env .factorProduct t t') (hp : t.plan = .ok p) :
    ∃ p', t'.plan = .ok p' ∧ Rewrites env .factorProduct p p' := by
  cases h with
  | factorProductLeft =>
    obtain ⟨x, y, z, -, -, rfl, hplan⟩ := plan_factorLeft hp
    exact ⟨_, hplan, .factorProductLeft⟩
  | factorProductRight =>
    obtain ⟨x, y, z, -, -, rfl, hplan⟩ := plan_factorRight hp
    exact ⟨_, hplan, .factorProductRight⟩

theorem rewrites_factorJoin (h : Replaces env .factorJoin t t') (hp : t.plan = .ok p) :
    ∃ p', t'.plan = .ok p' ∧ Rewrites env .factorJoin p p' := by
  cases h with
  | factorJoinLeft same =>
    obtain ⟨x, y, z, hy, hz, rfl, hplan⟩ := plan_factorLeft hp
    exact ⟨_, hplan, .factorJoinLeft (sameAttributes_eq_true hy hz same)⟩
  | factorJoinRight same =>
    obtain ⟨x, y, z, hy, hz, rfl, hplan⟩ := plan_factorRight hp
    exact ⟨_, hplan, .factorJoinRight (sameAttributes_eq_true hy hz same)⟩

/-! ## All replacements -/

/-- What replaces a query with a plan has a plan that the rule puts in the place of the first. -/
theorem rewrites_of_replaces {rule : Rule} (h : Replaces env rule t t') (hp : t.plan = .ok p) :
    ∃ p', t'.plan = .ok p' ∧ Rewrites env rule p p' := by
  cases h with
  | mergeEqual same => exact rewrites_mergeEqual same hp
  | mergeSelections => exact rewrites_mergeSelections hp
  | distributeSelection isSet => exact rewrites_distributeSelection isSet hp
  | distributeFiltered same => exact rewrites_distributeFiltered same hp
  | mergeProjections => exact rewrites_mergeProjections hp
  | selectBeforeProjection => exact rewrites_selectBeforeProjection hp
  | mergeRenamings readOuter readInner kept => exact rewrites_mergeRenamings readOuter readInner kept hp
  | dropIdleRenaming read idle => exact rewrites_dropIdleRenaming read hp
  | selectBeforeRenaming read names seen before =>
    exact rewrites_selectBeforeRenaming read names seen before hp
  | projectBeforeRenaming readNames read seen =>
    exact rewrites_projectBeforeRenaming readNames read seen hp
  | sameOperands h => exact rewrites_dropIdleSetOperator (.sameOperands h) hp
  | emptyDifference => exact rewrites_dropIdleSetOperator .emptyDifference hp
  | unionLeft => exact rewrites_dropIdleSetOperator .unionLeft hp
  | unionRight => exact rewrites_dropIdleSetOperator .unionRight hp
  | intersectionLeft => exact rewrites_dropIdleSetOperator .intersectionLeft hp
  | intersectionRight => exact rewrites_dropIdleSetOperator .intersectionRight hp
  | differenceLeft => exact rewrites_dropIdleSetOperator .differenceLeft hp
  | differenceRight => exact rewrites_dropIdleSetOperator .differenceRight hp
  | combineSelections combined => exact rewrites_combineSelections combined hp
  | factorRenaming isSet same => exact rewrites_factorRenaming isSet same hp
  | factorProductLeft => exact rewrites_factorProduct .factorProductLeft hp
  | factorProductRight => exact rewrites_factorProduct .factorProductRight hp
  | distributeConjuncts isJoin schemaLeft schemaRight conjuncts sorted moves =>
    exact rewrites_distributeConjuncts isJoin schemaLeft schemaRight conjuncts sorted hp
  | factorProjection readLeft readRight same =>
    exact rewrites_factorProjection readLeft readRight same hp
  | dropIdleProjection read schema same => exact rewrites_dropIdleProjection read schema same hp
  | factorJoinLeft same => exact rewrites_factorJoin (.factorJoinLeft same) hp
  | factorJoinRight same => exact rewrites_factorJoin (.factorJoinRight same) hp

end RelationalAlgebra.Rewrite
