import Mathlib.Tactic.Common
import RelationalAlgebra.Proofs.Outcome
import RelationalAlgebra.Proofs.Predicate.Failures
/-!
# The truth of formulas

A formula has a value, or none, where `look` gives the cells of the attributes.  `Formula.truth?` is its
truth, if it has a value, and `Formula.holds` counts a part without a value as false, so that it always
tells whether a formula holds; where there is a value, the two agree.
-/

namespace RelationalAlgebra.Predicate

/-! ## Values -/

def Formula.value? (look : String → Option Cell) (f : Formula) : Option Scalar :=
  (f.eval look).toOption

def Chain.value? (look : String → Option Cell) (chain : Chain) (left : Scalar) : Option Scalar :=
  (chain.eval look left).toOption

section Values

variable (look : String → Option Cell)

@[simp] theorem value?_literal (v : Scalar) : (Formula.literal v).value? look = some v := rfl

theorem value?_attribute (name : String) (field : Option String) :
    (Formula.attribute name field).value? look = (look name).bind fun cell =>
      match field with
      | none => some (.ofCell cell)
      | some field => ((Scalar.ofCell cell).field field).toOption := by
  cases h : look name with
  | none => simp [Formula.value?, Formula.eval, h, Except.toOption]
  | some cell => cases field <;> simp [Formula.value?, Formula.eval, h, Except.toOption]

theorem value?_not (f : Formula) :
    (Formula.not f).value? look = (f.value? look).map fun v => .bool (!v.truth) := by
  rw [Formula.value?, eval_not, toOption_map, Formula.value?]

theorem value?_neg (f : Formula) :
    (Formula.neg f).value? look = (f.value? look).bind fun v => v.neg.toOption := by
  rw [Formula.value?, eval_neg, toOption_bind, Formula.value?]

theorem value?_pos (f : Formula) :
    (Formula.pos f).value? look = (f.value? look).bind fun v => v.pos.toOption := by
  rw [Formula.value?, eval_pos, toOption_bind, Formula.value?]

theorem value?_and (l r : Formula) :
    (Formula.and l r).value? look = (l.value? look).bind fun v =>
      if v.truth then (r.value? look).map fun w => .bool w.truth else some (.bool false) := by
  rw [Formula.value?, eval_and, toOption_bind, Formula.value?]
  congr 1
  funext v
  split
  · exact toOption_map _ _
  · rfl

theorem value?_or (l r : Formula) :
    (Formula.or l r).value? look = (l.value? look).bind fun v =>
      if v.truth then some (.bool true) else (r.value? look).map fun w => .bool w.truth := by
  rw [Formula.value?, eval_or, toOption_bind, Formula.value?]
  congr 1
  funext v
  split
  · rfl
  · exact toOption_map _ _

theorem value?_compare (f : Formula) (chain : Chain) :
    (Formula.compare f chain).value? look = (f.value? look).bind (chain.value? look) := by
  rw [Formula.value?, eval_compare, toOption_bind, Formula.value?]
  rfl

theorem value?_arith (op : Arithmetic) (l r : Formula) :
    (Formula.arith op l r).value? look = (l.value? look).bind fun v =>
      (r.value? look).bind fun w => (op.apply v w).toOption := by
  rw [Formula.value?, eval_arith, toOption_bind, Formula.value?]
  congr 1
  funext v
  exact toOption_bind _ _

theorem value?_link (op : Comparison) (f : Formula) (rest : Chain) (left : Scalar) :
    (Chain.link op f rest).value? look left = (f.value? look).bind fun right =>
      (op.test left right).toOption.bind fun
        | true => rest.value? look right
        | false => some (.bool false) := by
  rw [Chain.value?, eval_link, toOption_bind, Formula.value?]
  congr 1
  funext right
  rw [toOption_bind]
  congr 1
  funext b
  cases b <;> rfl

end Values

/-! ## The cells that a value depends on -/

section Dependence

variable {look look' : String → Option Cell}

mutual

theorem Formula.value?_mono (f : Formula)
    (more : ∀ n ∈ f.mentioned, ∀ c, look n = some c → look' n = some c) {v : Scalar}
    (h : f.value? look = some v) : f.value? look' = some v := by
  match f with
  | .literal w => exact h
  | .attribute name field =>
    rw [value?_attribute] at h ⊢
    obtain ⟨cell, hcell, h⟩ := Option.bind_eq_some_iff.mp h
    rw [more name (by simp [Formula.mentioned]) cell hcell]
    exact h
  | .not f =>
    rw [value?_not] at h ⊢
    obtain ⟨w, hw, rfl⟩ := Option.map_eq_some_iff.mp h
    rw [f.value?_mono more hw]
    rfl
  | .neg f =>
    rw [value?_neg] at h ⊢
    obtain ⟨w, hw, h⟩ := Option.bind_eq_some_iff.mp h
    rw [f.value?_mono more hw]
    exact h
  | .pos f =>
    rw [value?_pos] at h ⊢
    obtain ⟨w, hw, h⟩ := Option.bind_eq_some_iff.mp h
    rw [f.value?_mono more hw]
    exact h
  | .and l r =>
    rw [value?_and] at h ⊢
    obtain ⟨w, hw, h⟩ := Option.bind_eq_some_iff.mp h
    rw [l.value?_mono (fun n hn => more n (by simp [Formula.mentioned, hn])) hw, Option.bind_some]
    by_cases ht : w.truth = true
    · rw [if_pos ht] at h ⊢
      obtain ⟨u, hu, rfl⟩ := Option.map_eq_some_iff.mp h
      rw [r.value?_mono (fun n hn => more n (by simp [Formula.mentioned, hn])) hu]
      rfl
    · rw [if_neg ht] at h ⊢
      exact h
  | .or l r =>
    rw [value?_or] at h ⊢
    obtain ⟨w, hw, h⟩ := Option.bind_eq_some_iff.mp h
    rw [l.value?_mono (fun n hn => more n (by simp [Formula.mentioned, hn])) hw, Option.bind_some]
    by_cases ht : w.truth = true
    · rw [if_pos ht] at h ⊢
      exact h
    · rw [if_neg ht] at h ⊢
      obtain ⟨u, hu, rfl⟩ := Option.map_eq_some_iff.mp h
      rw [r.value?_mono (fun n hn => more n (by simp [Formula.mentioned, hn])) hu]
      rfl
  | .compare f chain =>
    rw [value?_compare] at h ⊢
    obtain ⟨w, hw, h⟩ := Option.bind_eq_some_iff.mp h
    rw [f.value?_mono (fun n hn => more n (by simp [Formula.mentioned, hn])) hw, Option.bind_some]
    exact chain.value?_mono (fun n hn => more n (by simp [Formula.mentioned, hn])) h
  | .arith op l r =>
    rw [value?_arith] at h ⊢
    obtain ⟨w, hw, h⟩ := Option.bind_eq_some_iff.mp h
    obtain ⟨u, hu, h⟩ := Option.bind_eq_some_iff.mp h
    rw [l.value?_mono (fun n hn => more n (by simp [Formula.mentioned, hn])) hw, Option.bind_some,
      r.value?_mono (fun n hn => more n (by simp [Formula.mentioned, hn])) hu, Option.bind_some]
    exact h

theorem Chain.value?_mono (chain : Chain)
    (more : ∀ n ∈ chain.mentioned, ∀ c, look n = some c → look' n = some c) {left v : Scalar}
    (h : chain.value? look left = some v) : chain.value? look' left = some v := by
  match chain with
  | .nil => exact h
  | .link op f rest =>
    rw [value?_link] at h ⊢
    obtain ⟨w, hw, h⟩ := Option.bind_eq_some_iff.mp h
    obtain ⟨b, hb, h⟩ := Option.bind_eq_some_iff.mp h
    rw [f.value?_mono (fun n hn => more n (by simp [Chain.mentioned, hn])) hw, Option.bind_some, hb,
      Option.bind_some]
    cases b with
    | true => exact rest.value?_mono (fun n hn => more n (by simp [Chain.mentioned, hn])) h
    | false => exact h

end

theorem Formula.value?_congr (f : Formula) (same : ∀ n ∈ f.mentioned, look n = look' n) :
    f.value? look = f.value? look' := by
  apply Option.ext
  intro v
  constructor
  · exact f.value?_mono fun n hn c hc => by rw [← same n hn, hc]
  · exact f.value?_mono fun n hn c hc => by rw [same n hn, hc]

end Dependence

/-! ## Renaming -/

mutual

def Formula.rename (g : String → String) : Formula → Formula
  | .literal v => .literal v
  | .attribute name field => .attribute (g name) field
  | .not f => .not (f.rename g)
  | .neg f => .neg (f.rename g)
  | .pos f => .pos (f.rename g)
  | .and l r => .and (l.rename g) (r.rename g)
  | .or l r => .or (l.rename g) (r.rename g)
  | .compare f chain => .compare (f.rename g) (chain.rename g)
  | .arith op l r => .arith op (l.rename g) (r.rename g)

def Chain.rename (g : String → String) : Chain → Chain
  | .nil => .nil
  | .link op f rest => .link op (f.rename g) (rest.rename g)

end

section Renaming

variable (g : String → String)

mutual

theorem Formula.mentioned_rename (f : Formula) : (f.rename g).mentioned = f.mentioned.map g := by
  match f with
  | .literal v => rfl
  | .attribute name field => rfl
  | .not f | .neg f | .pos f => exact f.mentioned_rename
  | .and l r | .or l r | .arith op l r =>
    simp only [Formula.rename, Formula.mentioned, l.mentioned_rename, r.mentioned_rename,
      List.map_append]
  | .compare f chain =>
    simp only [Formula.rename, Formula.mentioned, f.mentioned_rename, chain.mentioned_rename,
      List.map_append]

theorem Chain.mentioned_rename (chain : Chain) :
    (chain.rename g).mentioned = chain.mentioned.map g := by
  match chain with
  | .nil => rfl
  | .link op f rest =>
    simp only [Chain.rename, Chain.mentioned, f.mentioned_rename, rest.mentioned_rename,
      List.map_append]

end

end Renaming

section Renamed

variable {g : String → String} {look look' : String → Option Cell}

mutual

/-- A renamed formula gives what the formula gives where each name has the cell of its new name. -/
theorem Formula.eval_rename (f : Formula) (same : ∀ n ∈ f.mentioned, look (g n) = look' n) :
    (f.rename g).eval look = (f.eval look').mapError (Fault.rename g) := by
  match f with
  | .literal v => rfl
  | .attribute name field =>
    rw [Formula.rename, eval_attribute, eval_attribute, same name (by simp [Formula.mentioned])]
    cases look' name with
    | none => rfl
    | some cell =>
      cases field with
      | none => rfl
      | some field => exact ((nameless_field _ field).mapError g).symm
  | .not f => rw [Formula.rename, eval_not, eval_not, f.eval_rename same, mapError_map]
  | .neg f =>
    rw [Formula.rename, eval_neg, eval_neg, f.eval_rename same, mapError_bind]
    simp only [(nameless_neg _).mapError]
  | .pos f =>
    rw [Formula.rename, eval_pos, eval_pos, f.eval_rename same, mapError_bind]
    simp only [(nameless_pos _).mapError]
  | .and l r =>
    rw [Formula.rename, eval_and, eval_and,
      l.eval_rename fun n hn => same n (by simp [Formula.mentioned, hn]),
      r.eval_rename fun n hn => same n (by simp [Formula.mentioned, hn]), mapError_bind]
    congr 1
    funext v
    split
    · exact (mapError_map g _ _).symm
    · rfl
  | .or l r =>
    rw [Formula.rename, eval_or, eval_or,
      l.eval_rename fun n hn => same n (by simp [Formula.mentioned, hn]),
      r.eval_rename fun n hn => same n (by simp [Formula.mentioned, hn]), mapError_bind]
    congr 1
    funext v
    split
    · rfl
    · exact (mapError_map g _ _).symm
  | .compare f chain =>
    rw [Formula.rename, eval_compare, eval_compare,
      f.eval_rename fun n hn => same n (by simp [Formula.mentioned, hn]), mapError_bind]
    congr 1
    funext v
    exact chain.eval_rename (fun n hn => same n (by simp [Formula.mentioned, hn])) v
  | .arith op l r =>
    rw [Formula.rename, eval_arith, eval_arith,
      l.eval_rename fun n hn => same n (by simp [Formula.mentioned, hn]),
      r.eval_rename fun n hn => same n (by simp [Formula.mentioned, hn]), mapError_bind]
    congr 1
    funext v
    rw [mapError_bind]
    congr 1
    funext w
    exact ((Arithmetic.nameless_apply op v w).mapError g).symm

theorem Chain.eval_rename (chain : Chain) (same : ∀ n ∈ chain.mentioned, look (g n) = look' n)
    (left : Scalar) :
    (chain.rename g).eval look left = (chain.eval look' left).mapError (Fault.rename g) := by
  match chain with
  | .nil => rfl
  | .link op f rest =>
    rw [Chain.rename, eval_link, eval_link,
      f.eval_rename fun n hn => same n (by simp [Chain.mentioned, hn]), mapError_bind]
    congr 1
    funext right
    rw [mapError_bind, (nameless_test op left right).mapError]
    congr 1
    funext holds
    split
    · exact rest.eval_rename (fun n hn => same n (by simp [Chain.mentioned, hn])) right
    · rfl

end

mutual

theorem Formula.rename_id (f : Formula) : f.rename id = f := by
  match f with
  | .literal v => rfl
  | .attribute name field => rfl
  | .not f | .neg f | .pos f => simp only [Formula.rename, f.rename_id]
  | .and l r | .or l r | .arith op l r => simp only [Formula.rename, l.rename_id, r.rename_id]
  | .compare f chain => simp only [Formula.rename, f.rename_id, chain.rename_id]

theorem Chain.rename_id (chain : Chain) : chain.rename id = chain := by
  match chain with
  | .nil => rfl
  | .link op f rest => simp only [Chain.rename, f.rename_id, rest.rename_id]

end

theorem Formula.eval_congr (f : Formula) (same : ∀ n ∈ f.mentioned, look n = look' n) :
    f.eval look = f.eval look' := by
  have renamed := f.eval_rename (g := id) same
  rwa [f.rename_id, mapError_rename_id] at renamed

variable (g look)

/-- A renamed formula finds its cells where the new names lead. -/
theorem Formula.value?_rename (f : Formula) :
    (f.rename g).value? look = f.value? (look ∘ g) := by
  have same : ∀ n ∈ f.mentioned, look (g n) = (look ∘ g) n := fun _ _ => rfl
  rw [Formula.value?, f.eval_rename same, toOption_mapError, Formula.value?]

end Renamed

/-! ## Truth -/

def Formula.truth? (look : String → Option Cell) (f : Formula) : Option Bool :=
  (f.value? look).map Scalar.truth

/-- Whether a formula holds, if parts without a value count as false. -/
def Formula.holds (look : String → Option Cell) : Formula → Bool
  | .and l r => l.holds look && r.holds look
  | .or l r => l.holds look || r.holds look
  | .not f => !f.holds look
  | f => (f.truth? look).getD false

section Truth

variable (look : String → Option Cell)

theorem test_eq_ok_iff {f : Formula} {names : List String} {row : Row} {b : Bool} :
    f.test names row = .ok b ↔ f.truth? (cell? names row) = some b := by
  rw [Formula.test, Formula.truth?, Formula.value?]
  cases f.eval (cell? names row) with
  | error fault => simp [Except.map, Except.toOption]
  | ok v => simp [Except.map, Except.toOption]

theorem truth?_not (f : Formula) : (Formula.not f).truth? look = (f.truth? look).map not := by
  rw [Formula.truth?, Formula.truth?, value?_not, Option.map_map, Option.map_map]
  rfl

theorem truth?_and (l r : Formula) : (Formula.and l r).truth? look =
    (l.truth? look).bind fun b => if b then r.truth? look else some false := by
  rw [Formula.truth?, value?_and, Formula.truth?, Formula.truth?]
  cases l.value? look with
  | none => rfl
  | some v =>
    simp only [Option.bind_some, Option.map_some]
    split
    · rw [Option.map_map]
      rfl
    · rfl

theorem truth?_or (l r : Formula) : (Formula.or l r).truth? look =
    (l.truth? look).bind fun b => if b then some true else r.truth? look := by
  rw [Formula.truth?, value?_or, Formula.truth?, Formula.truth?]
  cases l.value? look with
  | none => rfl
  | some v =>
    simp only [Option.bind_some, Option.map_some]
    split
    · rfl
    · rw [Option.map_map]
      rfl

/-- Where a formula has a value, it holds exactly when the value is true. -/
theorem holds_of_truth? {f : Formula} {b : Bool} (h : f.truth? look = some b) :
    f.holds look = b := by
  induction f using Formula.holds.induct generalizing b with
  | case1 l r ihl ihr =>
    rw [truth?_and] at h
    obtain ⟨a, ha, h⟩ := Option.bind_eq_some_iff.mp h
    rw [Formula.holds, ihl ha]
    cases a with
    | true => exact ihr h
    | false => simpa using h
  | case2 l r ihl ihr =>
    rw [truth?_or] at h
    obtain ⟨a, ha, h⟩ := Option.bind_eq_some_iff.mp h
    rw [Formula.holds, ihl ha]
    cases a with
    | true => simpa using h
    | false => exact ihr h
  | case3 f ih =>
    rw [truth?_not] at h
    obtain ⟨a, ha, rfl⟩ := Option.map_eq_some_iff.mp h
    rw [Formula.holds, ih ha]
  | case4 f hand hor hnot =>
    rw [Formula.holds, h]
    · rfl
    · exact hand
    · exact hor
    · exact hnot

theorem truth?_mono {look look' : String → Option Cell} {f : Formula}
    (more : ∀ n ∈ f.mentioned, ∀ c, look n = some c → look' n = some c) {b : Bool}
    (h : f.truth? look = some b) : f.truth? look' = some b := by
  obtain ⟨v, hv, rfl⟩ := Option.map_eq_some_iff.mp h
  rw [Formula.truth?, f.value?_mono more hv]
  rfl

theorem truth?_congr {look look' : String → Option Cell} {f : Formula}
    (same : ∀ n ∈ f.mentioned, look n = look' n) : f.truth? look = f.truth? look' := by
  rw [Formula.truth?, f.value?_congr same, Formula.truth?]

theorem truth?_rename (g : String → String) (f : Formula) :
    (f.rename g).truth? look = f.truth? (look ∘ g) := by
  rw [Formula.truth?, f.value?_rename, Formula.truth?]

theorem holds_congr {look look' : String → Option Cell} {f : Formula}
    (same : ∀ n ∈ f.mentioned, look n = look' n) : f.holds look = f.holds look' := by
  induction f using Formula.holds.induct with
  | case1 l r ihl ihr =>
    rw [Formula.holds, Formula.holds, ihl fun n hn => same n (by simp [Formula.mentioned, hn]),
      ihr fun n hn => same n (by simp [Formula.mentioned, hn])]
  | case2 l r ihl ihr =>
    rw [Formula.holds, Formula.holds, ihl fun n hn => same n (by simp [Formula.mentioned, hn]),
      ihr fun n hn => same n (by simp [Formula.mentioned, hn])]
  | case3 f ih => rw [Formula.holds, Formula.holds, ih same]
  | case4 f hand hor hnot =>
    rw [Formula.holds, Formula.holds, truth?_congr same] <;> assumption

theorem holds_rename (g : String → String) (f : Formula) :
    (f.rename g).holds look = f.holds (look ∘ g) := by
  induction f using Formula.holds.induct with
  | case1 l r ihl ihr => rw [Formula.rename, Formula.holds, Formula.holds, ihl, ihr]
  | case2 l r ihl ihr => rw [Formula.rename, Formula.holds, Formula.holds, ihl, ihr]
  | case3 f ih => rw [Formula.rename, Formula.holds, Formula.holds, ih]
  | case4 f hand hor hnot =>
    have atom := truth?_rename look g f
    cases f with
    | and l r => exact absurd rfl (hand l r)
    | or l r => exact absurd rfl (hor l r)
    | not f => exact absurd rfl (hnot f)
    | _ => exact congrArg (Option.getD · false) atom

end Truth

/-! ## Conjuncts and disjuncts -/

def Formula.conjuncts : Formula → List Formula
  | .and l r => l.conjuncts ++ r.conjuncts
  | f => [f]

def Formula.disjuncts : Formula → List Formula
  | .or l r => l.disjuncts ++ r.disjuncts
  | f => [f]

/-- The truth of a conjunction, of which no more formulas are looked at than is needed. -/
def allTruth? (look : String → Option Cell) : List Formula → Option Bool
  | [] => some true
  | f :: fs => (f.truth? look).bind fun b => if b then allTruth? look fs else some false

def anyTruth? (look : String → Option Cell) : List Formula → Option Bool
  | [] => some false
  | f :: fs => (f.truth? look).bind fun b => if b then some true else anyTruth? look fs

section Clauses

variable (look : String → Option Cell)

theorem allTruth?_append (fs gs : List Formula) : allTruth? look (fs ++ gs) =
    (allTruth? look fs).bind fun b => if b then allTruth? look gs else some false := by
  induction fs with
  | nil => rfl
  | cons f fs ih =>
    rw [List.cons_append, allTruth?, allTruth?, ih]
    cases f.truth? look with
    | none => rfl
    | some b => cases b <;> rfl

theorem anyTruth?_append (fs gs : List Formula) : anyTruth? look (fs ++ gs) =
    (anyTruth? look fs).bind fun b => if b then some true else anyTruth? look gs := by
  induction fs with
  | nil => rfl
  | cons f fs ih =>
    rw [List.cons_append, anyTruth?, anyTruth?, ih]
    cases f.truth? look with
    | none => rfl
    | some b => cases b <;> rfl

theorem allTruth?_singleton (f : Formula) : allTruth? look [f] = f.truth? look := by
  rw [allTruth?]
  cases f.truth? look with
  | none => rfl
  | some b => cases b <;> rfl

theorem anyTruth?_singleton (f : Formula) : anyTruth? look [f] = f.truth? look := by
  rw [anyTruth?]
  cases f.truth? look with
  | none => rfl
  | some b => cases b <;> rfl

theorem truth?_conjuncts (f : Formula) : f.truth? look = allTruth? look f.conjuncts := by
  induction f using Formula.conjuncts.induct with
  | case1 l r ihl ihr => rw [truth?_and, Formula.conjuncts, allTruth?_append, ← ihl, ← ihr]
  | case2 f h =>
    rw [Formula.conjuncts, allTruth?_singleton]
    exact h

theorem truth?_disjuncts (f : Formula) : f.truth? look = anyTruth? look f.disjuncts := by
  induction f using Formula.disjuncts.induct with
  | case1 l r ihl ihr => rw [truth?_or, Formula.disjuncts, anyTruth?_append, ← ihl, ← ihr]
  | case2 f h =>
    rw [Formula.disjuncts, anyTruth?_singleton]
    exact h

theorem holds_conjuncts (f : Formula) : f.holds look = f.conjuncts.all (·.holds look) := by
  induction f using Formula.conjuncts.induct with
  | case1 l r ihl ihr => rw [Formula.holds, Formula.conjuncts, List.all_append, ← ihl, ← ihr]
  | case2 f h =>
    rw [Formula.conjuncts]
    · simp
    · exact h

theorem holds_disjuncts (f : Formula) : f.holds look = f.disjuncts.any (·.holds look) := by
  induction f using Formula.disjuncts.induct with
  | case1 l r ihl ihr => rw [Formula.holds, Formula.disjuncts, List.any_append, ← ihl, ← ihr]
  | case2 f h =>
    rw [Formula.disjuncts]
    · simp
    · exact h

theorem mentioned_conjuncts (f : Formula) :
    f.mentioned = f.conjuncts.flatMap Formula.mentioned := by
  induction f using Formula.conjuncts.induct with
  | case1 l r ihl ihr =>
    rw [Formula.mentioned, Formula.conjuncts, List.flatMap_append, ← ihl, ← ihr]
  | case2 f h =>
    rw [Formula.conjuncts]
    · simp
    · exact h

theorem mentioned_disjuncts (f : Formula) :
    f.mentioned = f.disjuncts.flatMap Formula.mentioned := by
  induction f using Formula.disjuncts.induct with
  | case1 l r ihl ihr =>
    rw [Formula.mentioned, Formula.disjuncts, List.flatMap_append, ← ihl, ← ihr]
  | case2 f h =>
    rw [Formula.disjuncts]
    · simp
    · exact h

end Clauses

end RelationalAlgebra.Predicate
