import RelationalAlgebra.Proofs.Environment
import RelationalAlgebra.Proofs.Query.Locality
import RelationalAlgebra.Proofs.Rewrite.Parameters
/-!
# What the optimizer sees of an environment

The rules bring no names into a query that it does not have, so that the schemas that they ask for, in any
pass, are schemas of queries over the names of the first one.  What is bound to other names makes no
difference to anything that the optimizer reports.
-/

namespace RelationalAlgebra.Rewrite

open Environment (Agree)
open Query (Tree)

variable {env env' : Environment} {rule : Rule} {rules : List Rule} {t t' : Tree}

/-! ## Names of rewritten queries -/

theorem closed_true : Closed fun _ _ => True where
  trimmed _ := trivial
  conjoin _ _ := trivial
  or _ _ := trivial
  negation _ := trivial
  never := trivial
  renamed _ _ _ := trivial
  conjuncts _ _ _ _ := trivial
  writtenProjection _ _ := trivial
  writtenRenaming _ _ := trivial

theorem every_true (t : Tree) : t.Every (fun _ => True) fun _ _ => True := by
  induction t with
  | relation name => trivial
  | unary op parameter operand ih => exact ⟨trivial, ih⟩
  | binary op left right ihl ihr => exact ⟨ihl, ihr⟩

theorem Rewriting.leaves_subset {n : Nat} (h : Rewriting env rules n t t') : t'.leaves ⊆ t.leaves := by
  have every : t.Every (· ∈ t.leaves) fun _ _ => True :=
    Tree.every_iff.mpr ⟨every_true t, fun _ hn => hn⟩
  exact fun n hn => (Tree.every_iff.mp (h.every closed_true every)).2 n hn

theorem relations_subset {names : List String} : names ⊆ t.relations ↔ names ⊆ t.leaves := by
  simp only [List.subset_def, Tree.relations, Name.mem_sorted]

/-! ## Rules -/

theorem sameAttributes_congr {a b : Tree} (ha : Agree a.leaves env env')
    (hb : Agree b.leaves env env') : sameAttributes env a b = sameAttributes env' a b := by
  rw [sameAttributes, sameAttributes, Tree.schema_congr ha, Tree.schema_congr hb]

theorem distributeConjuncts_congr (h : Agree t.leaves env env') :
    distributeConjuncts env t = distributeConjuncts env' t := by
  unfold distributeConjuncts
  split
  · next a b =>
    obtain ⟨onLeft, onRight⟩ := Agree.append_iff.mp h
    rw [Tree.schema_congr onLeft, Tree.schema_congr onRight]
  · rfl

theorem factorProjection_congr (h : Agree t.leaves env env') :
    factorProjection env t = factorProjection env' t := by
  unfold factorProjection
  split
  · next a _ b =>
    obtain ⟨onLeft, onRight⟩ : Agree a.leaves env env' ∧ Agree b.leaves env env' :=
      Agree.append_iff.mp h
    rw [sameAttributes_congr onLeft onRight]
  · rfl

theorem dropIdleProjection_congr (h : Agree t.leaves env env') :
    dropIdleProjection env t = dropIdleProjection env' t := by
  unfold dropIdleProjection
  split
  · next operand =>
    have below : Agree operand.leaves env env' := h
    rw [Tree.schema_congr below]
  · rfl

theorem factorJoin_congr (h : Agree t.leaves env env') : factorJoin env t = factorJoin env' t := by
  unfold factorJoin
  split
  · rfl
  · next s hs =>
    have within : s.first.leaves ⊆ t.leaves ∧ s.second.leaves ⊆ t.leaves := by
      rcases find?_eq_some hs with ⟨-, rfl⟩ | ⟨-, rfl⟩ <;>
        simp only [Tree.leaves, List.subset_def, List.mem_append] <;> tauto
    rw [sameAttributes_congr (h.mono within.1) (h.mono within.2)]

/-- A rule does the same to a query wherever the relations of the query are the same. -/
theorem rewrite_congr (h : Agree t.leaves env env') : rule.rewrite env t = rule.rewrite env' t := by
  cases rule with
  | distributeConjuncts => exact distributeConjuncts_congr h
  | factorProjection => exact factorProjection_congr h
  | dropIdleProjection => exact dropIdleProjection_congr h
  | factorJoin => exact factorJoin_congr h
  | _ => rfl

/-! ## Runs -/

theorem offer_congr (h : Agree t.leaves env env') (changes : Nat) :
    rule.offer env changes t = rule.offer env' changes t := by
  rw [Rule.offer, Rule.offer, rewrite_congr h]

theorem leaves_subset_of_walk {n : Nat} (h : rule.walk env t = .ok (t', n)) : t'.leaves ⊆ t.leaves :=
  (rewriting_of_walk (List.mem_singleton_self rule) h).leaves_subset

theorem walk_congr (h : Agree t.leaves env env') : rule.walk env t = rule.walk env' t := by
  induction t with
  | relation name => exact offer_congr h 0
  | unary op parameter operand ih =>
    rw [Rule.walk, Rule.walk, ← ih h]
    split
    · rfl
    · next new changes walked =>
      have sub : new.leaves ⊆ operand.leaves := leaves_subset_of_walk walked
      have below : Agree (Tree.unary op parameter new).leaves env env' := h.mono sub
      exact offer_congr below changes
  | binary op left right ihl ihr =>
    obtain ⟨onLeft, onRight⟩ := Agree.append_iff.mp h
    rw [Rule.walk, Rule.walk, ← ihl onLeft, ← ihr onRight]
    split
    · rfl
    · next newLeft m walkedLeft =>
      split
      · rfl
      · next newRight n walkedRight =>
        have belowLeft := onLeft.mono (leaves_subset_of_walk walkedLeft)
        have belowRight := onRight.mono (leaves_subset_of_walk walkedRight)
        have below : Agree (Tree.binary op newLeft newRight).leaves env env' :=
          Agree.append_iff.mpr ⟨belowLeft, belowRight⟩
        exact offer_congr below (m + n)

theorem pass_congr (h : Agree t.leaves env env') : pass env rules t = pass env' rules t := by
  induction rules generalizing t with
  | nil => rfl
  | cons rule rules ih =>
    rw [pass, pass, ← walk_congr h]
    split
    · rfl
    · next new changes walked =>
      rw [ih h, ih (h.mono (leaves_subset_of_walk walked))]

theorem passes_congr {limit : Nat} {o : Optimized} (h : Agree o.tree.leaves env env') :
    passes env rules limit o = passes env' rules limit o := by
  induction limit generalizing o with
  | zero => rfl
  | succ limit ih =>
    rw [passes, passes, ← pass_congr h]
    split
    · rfl
    · rfl
    · next new steps _ passed =>
      have later : new.leaves ⊆ o.tree.leaves := (rewriting_of_pass passed).2.leaves_subset
      exact ih (h.mono later)

theorem optimize_congr (settings : Settings) (h : Agree t.leaves env env') :
    optimize settings env t = optimize settings env' t := by
  rw [optimize, optimize, passes_congr h]

/-- What is bound to names that a query does not have makes no difference to its schema, to its result, or to
anything that the optimizer reports, failures included; and the optimizer brings no such name into it. -/
theorem other_relations_are_irrelevant {t : Tree}
    (agree : ∀ n ∈ t.relations, env.get? n = env'.get? n) :
    t.schema env = t.schema env' ∧ t.eval env = t.eval env' ∧
      ∀ settings, optimize settings env t = optimize settings env' t ∧
        ∀ o, optimize settings env t = .ok o → o.tree.relations ⊆ t.relations := by
  have h : Agree t.leaves env env' := fun n hn => agree n (Name.mem_sorted.mpr hn)
  refine ⟨Tree.schema_congr h, Tree.eval_congr h, fun settings => ⟨optimize_congr settings h, ?_⟩⟩
  intro o ho
  obtain ⟨steps, -, -, rewriting⟩ := rewriting_of_optimize ho
  exact relations_subset.mpr fun n hn => rewriting.leaves_subset (Name.mem_sorted.mp hn)

def shop (others : List (String × List String × List Row)) : Environment := .ofTables <|
  [("goods", ["id", "kind"], [[.int 1, .text "tea"]]),
    ("prices", ["id", "price"], [[.int 1, .int 4]])] ++ others

def openShop : Environment := shop [("notes", ["id"], [[.text "open"]])]

def movedShop : Environment := shop [("notes", ["id", "by"], []), ("zones", ["id"], [[.int 7]])]

def cheapTeas : Tree :=
  .selection "kind == 'tea' and price < 5" (.binary .join (.relation "goods") (.relation "prices"))

theorem notes_are_irrelevant_to_cheapTeas :
    (∀ n ∈ cheapTeas.relations, openShop.get? n = movedShop.get? n) ∧
      openShop.get? "notes" ≠ movedShop.get? "notes" ∧
      (∃ o, optimize {} openShop cheapTeas = .ok o ∧ o.changes = 1) ∧
      cheapTeas.schema openShop = cheapTeas.schema movedShop ∧
      cheapTeas.eval openShop = cheapTeas.eval movedShop ∧
      ∀ settings, optimize settings openShop cheapTeas = optimize settings movedShop cheapTeas ∧
        ∀ o, optimize settings openShop cheapTeas = .ok o → o.tree.relations ⊆ cheapTeas.relations := by
  have agree : ∀ n ∈ cheapTeas.relations, openShop.get? n = movedShop.get? n := by decide +kernel
  exact ⟨agree, by decide +kernel, by decide +kernel, other_relations_are_irrelevant agree⟩

end RelationalAlgebra.Rewrite
