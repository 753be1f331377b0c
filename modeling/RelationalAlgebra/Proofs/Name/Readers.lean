import RelationalAlgebra.Proofs.Predicate.Clauses
import RelationalAlgebra.Proofs.Predicate.Spelling
import RelationalAlgebra.Proofs.Query.Printing
import RelationalAlgebra.Proofs.Relation.Fitting
import RelationalAlgebra.Proofs.Storage.Directory
import RelationalAlgebra.Proofs.Workspace.Effects
/-!
# Readers of names

A name is checked when a header is made and when a relation is bound, and it is read in predicates, in
queries and in the parameters of operators.  All of these take the same texts for names, so whatever has a
name can be called by it.
-/

namespace RelationalAlgebra

open Predicate (Begins Derives Formula Keyword Lexeme Lexes Reads cell?)
open Query

/-! ## Names in predicates -/

namespace Name

theorem free_of_ofWord? {name : String} (h : Keyword.ofWord? name = none) :
    reserved.contains name = false := by
  have words : ∀ w ∈ reserved, Keyword.ofWord? w ≠ none := by decide
  by_contra isReserved
  have mem : name ∈ reserved := by simpa using isReserved
  exact words name mem h

theorem isValid_of_word {c : Char} {w : List Char} {name : String} (start : isStart c = true)
    (parts : ∀ x ∈ w, isPart x = true) (h : Lexeme.word (c :: w) = .name name) :
    isValid name = true := by
  unfold Lexeme.word at h
  simp only at h
  split at h
  · cases h
  · next noKeyword =>
    obtain rfl := Predicate.Token.name.inj h
    have all : w.all isPart = true := List.all_eq_true.mpr parts
    rw [isValid, String.toList_ofList]
    simp only [start, all, free_of_ofWord? noKeyword]
    rfl

theorem isValid_of_begins {c : Char} {w rest : List Char} {name : String}
    (h : Begins c w (.name name) rest) : isValid name = true := by
  have spelled := h.spelled
  generalize hbody : c :: w = body at spelled
  generalize htoken : Predicate.Token.name name = token at spelled
  cases spelled with
  | word start parts ends => exact isValid_of_word start parts htoken.symm
  | number isNumber =>
    subst htoken
    cases isNumber
  | literal => cases htoken
  | symbol => cases htoken

theorem lexes_of_isValid {name : String} (h : isValid name = true) : Lexes name.toList [.name name] := by
  obtain ⟨c, w, heq, -, begins⟩ := Predicate.begins_name h
  have lexes := Lexes.of_begins (begins [] rfl) (.blanks (by simp))
  rwa [List.append_nil, ← heq] at lexes

theorem isValid_iff_lexes {name : String} :
    isValid name = true ↔ Lexes name.toList [.name name] := by
  refine ⟨lexes_of_isValid, ?_⟩
  rintro ⟨tiles, tiling, tokens⟩
  generalize name.toList = text at tiling
  cases tiling with
  | blanks => cases tokens
  | tile blank begins rest =>
    obtain ⟨rfl, -⟩ := List.cons.inj tokens
    exact isValid_of_begins begins

theorem isValid_iff_scan {name : String} : isValid name = true ↔
    (Lexeme.scan name.toList).map (List.map Lexeme.token) = .ok [.name name] := by
  rw [isValid_iff_lexes, map_eq_ok]
  refine ⟨Lexes.scan, ?_⟩
  rintro ⟨ts, scanned, tokens⟩
  rw [← tokens]
  exact Predicate.lexes_of_scan scanned

theorem reads_of_isValid {name : String} (h : isValid name = true) :
    Reads name (.attribute name none) :=
  Predicate.reads_iff.mpr ⟨_, lexes_of_isValid h,
    (Derives.bare name).negation_of_atom.conjunction_of_negation.disjunction_of_conjunction⟩

/-! ## Names in queries and parameters -/

theorem isValid_iff_tree {name : String} :
    isValid name = true ↔ Tree.ofText? name = .ok (.relation name) := by
  constructor
  · intro h
    have printable : (Tree.relation name).Printable := h
    exact Tree.ofText?_write printable
  · intro h
    have printable : (Tree.relation name).Printable := Query.printable_of_ofText? h
    exact printable

theorem isValid_iff_projection {name : String} :
    isValid name = true ↔ Projection.ofText? name = .ok [name] := by
  constructor
  · intro h
    have read := Projection.ofText?_write (List.cons_ne_nil name []) (by simpa using h)
    simpa [Projection.write, Projection.add] using read
  · intro h
    exact (Projection.ofText?_eq_ok h).2.2 name (List.mem_singleton_self name)

end Name

/-! ## Attributes -/

/-- Whether predicates and lists can speak of the attributes of a relation. -/
structure Relation.Addressed (r : Relation) : Prop where
  read : ∀ n ∈ r.names, Reads n (.attribute n none)
  value : ∀ (n : String) (i : Nat) (row : Row) (c : Cell), r.names[i]? = some n → row[i]? = some c →
    (Formula.attribute n none).eval (cell? r.names row) = .ok (.ofCell c)
  list : ∀ names : List String, names ≠ [] → names.Nodup → (∀ n ∈ names, n ∈ r.names) →
    Projection.ofText? (Projection.write names) = .ok names ∧ ∃ p, r.projection names = .ok p

theorem Relation.addressed (r : Relation) : r.Addressed where
  read n hn := Name.reads_of_isValid (r.header.valid n hn)
  value n i row c hname hcell := by
    have cell := (cell?_eq_some_iff r.header.nodup).mpr ⟨i, hname, hcell⟩
    have cell : cell? r.names row n = some c := cell
    rw [Formula.eval, cell]
  list names ne nodup sub := by
    have valid : ∀ n ∈ names, Name.isValid n = true := fun n hn => r.header.valid n (sub n hn)
    refine ⟨?_, Relation.exists_projection_iff.mpr ⟨ne, sub⟩⟩
    rw [Projection.ofText?_write ne valid, Projection.foldl_add_of_nodup (by simpa using nodup)]
    rfl

/-! ## Bound names -/

namespace Loaded

variable {σ : Type} [FileSystem (StateM σ)]

theorem files_look (path : String) (files : List (String × Format)) (s : σ) :
    (((files.mapM fun (file, format) => do
        pure (file, format, ← FileSystem.look (Path.inside path file)) :
          StateM σ (List (String × Format × Found))).run s).1.map fun entry => (entry.1, entry.2.1)) =
      files := by
  induction files generalizing s with
  | nil => rfl
  | cons file files ih =>
    rw [List.mapM_cons]
    exact congrArg (file :: ·) (ih _)

theorem isValid_of_candidates {files : List String} {file : String} {format : Format}
    (h : (file, format) ∈ candidates files) : Name.isValid (Path.stem file) = true := by
  obtain ⟨file', -, h⟩ := List.mem_filterMap.mp h
  split at h
  · split at h
    · next valid =>
      obtain ⟨rfl, -⟩ := Prod.mk.inj (Option.some.inj h)
      exact valid
    · cases h
  · cases h

theorem isValid_of_visit {path : String} {s : σ} {found : List (String × Format × Found)}
    (h : ((visit path : StateM σ _).run s).1 = some found) :
    ∀ entry ∈ found, Name.isValid (Path.stem entry.1) = true := by
  unfold visit at h
  rw [StateT.run_bind] at h
  generalize (FileSystem.list path : StateM σ _).run s = listed at h
  obtain ⟨files?, s'⟩ := listed
  cases files? with
  | none => cases h
  | some files =>
    have looked : (found.map fun entry => (entry.1, entry.2.1)) = candidates files := by
      obtain rfl := Option.some.inj h
      exact files_look path (candidates files) s'
    intro entry mem
    have candidate := List.mem_map_of_mem (f := fun entry => (entry.1, entry.2.1)) mem
    rw [looked] at candidate
    exact isValid_of_candidates candidate

theorem mem_ofFound {found : List (String × Format × Found)} {name : String} {r : Relation}
    (h : (name, r) ∈ (ofFound found).relations) : ∃ entry ∈ found, name = Path.stem entry.1 := by
  fun_induction ofFound found with
  | case1 => cases h
  | case2 => cases h
  | case3 file format found rest isFile r' read others ih =>
    rcases List.mem_cons.mp h with h | h
    · exact ⟨_, List.mem_cons_self .., (Prod.mk.inj h).1⟩
    · obtain ⟨entry, mem, eq⟩ := ih h
      exact ⟨entry, List.mem_cons_of_mem _ mem, eq⟩
  | case4 file format found rest noFile ih =>
    obtain ⟨entry, mem, eq⟩ := ih h
    exact ⟨entry, List.mem_cons_of_mem _ mem, eq⟩

end Loaded

namespace Environment

/-- The environments that come about from the empty one: relations are bound under a name, loaded from a
file or from a directory, changed where they are bound, and removed. -/
inductive Made : Environment → Prop
  | empty : Made ∅
  | bind {env env' : Environment} {name : String} {r : Relation} (made : Made env)
      (bound : env.bind name r = .ok env') : Made env'
  | load {σ : Type} [FileSystem (StateM σ)] {env env' : Environment} {name path : String} {s : σ}
      (made : Made env) (loaded : ((env.load name path : StateM σ _).run s).1 = .ok env') : Made env'
  | loadDirectory {σ : Type} [FileSystem (StateM σ)] {env : Environment} {path : String} {s : σ}
      (made : Made env) : Made ((env.loadDirectory path : StateM σ _).run s).1.1
  | change {env : Environment} {name : String} {r s : Relation} (made : Made env)
      (bound : env.get? name = some s) : Made (env.insert name r)
  | remove {env : Environment} {name : String} (made : Made env) : Made (env.erase name)

def Named (env : Environment) : Prop := ∀ name r, env.get? name = some r → Name.isValid name = true

variable {env : Environment}

theorem Named.insert (h : env.Named) {name : String} (valid : Name.isValid name = true) (r : Relation) :
    Named (env.insert name r) := by
  intro other s bound
  rw [Name.Map.get?_insert] at bound
  by_cases same : other = name
  · rw [same]
    exact valid
  · rw [if_neg same] at bound
    exact h other s bound

theorem isValid_of_bind {env' : Environment} {name : String} {r : Relation}
    (h : env.bind name r = .ok env') : Name.isValid name = true ∧ env' = env.insert name r := by
  obtain ⟨u, checked, rfl⟩ := map_eq_ok.mp h
  unfold checkName at checked
  split at checked
  · next valid => exact ⟨valid, rfl⟩
  · cases checked

theorem Named.bind (h : env.Named) {env' : Environment} {name : String} {r : Relation}
    (bound : env.bind name r = .ok env') : env'.Named := by
  obtain ⟨valid, rfl⟩ := isValid_of_bind bound
  exact h.insert valid r

theorem Named.bindAll (h : env.Named) {loaded : Loaded}
    (valid : ∀ e ∈ loaded.relations, Name.isValid e.1 = true) : (loaded.bindAll env).Named := by
  intro name r bound
  rcases Name.Map.get?_foldl_insert bound with mem | bound
  · exact valid (name, r) mem
  · exact h name r bound

theorem Made.named (h : env.Made) : env.Named := by
  induction h with
  | empty =>
    intro name r bound
    cases bound
  | bind made bound ih => exact ih.bind bound
  | load made loaded ih =>
    obtain ⟨r, -, bound⟩ := bind_eq_ok.mp loaded
    exact ih.bind bound
  | @loadDirectory σ _ env path s made ih =>
    rw [loadDirectory_eq, StateT.run_map]
    refine ih.bindAll fun e mem => ?_
    cases found? : ((Loaded.visit path : StateM σ _).run s).1 with
    | none =>
      rw [found?] at mem
      cases mem
    | some found =>
      rw [found?] at mem
      obtain ⟨entry, looked, name⟩ := Loaded.mem_ofFound mem
      rw [name]
      exact Loaded.isValid_of_visit found? entry looked
  | change made bound ih => exact ih.insert (ih _ _ bound) _
  | @remove env name made ih =>
    intro other r bound
    rw [Name.Map.get?_erase] at bound
    split at bound
    · cases bound
    · exact ih other r bound

/-- A name that is bound is a query, and gives what it is bound to. -/
structure Called (env : Environment) (name : String) (r : Relation) : Prop where
  read : Tree.ofText? name = .ok (.relation name)
  value : (Tree.relation name).eval env = .ok r

theorem Made.called (h : env.Made) {name : String} {r : Relation} (bound : env.get? name = some r) :
    env.Called name r where
  read := Name.isValid_iff_tree.mp (h.named name r bound)
  value := Plan.find_eq_ok_iff.mpr bound

end Environment

namespace Workspace

open Environment (Made)

variable {env : Environment}

theorem made_bind? (h : env.Made) {name : String} {result : Relation × Option String} {e : Effect}
    (effect : Effect.bind? name result = .ok e) : (e.apply env).Made := by
  obtain ⟨u, checked, rfl⟩ := map_eq_ok.mp effect
  have bound : env.bind name result.1 = .ok (env.insert name result.1) := by
    rw [Environment.bind, checked]
    rfl
  exact h.bind bound

/-- The relations that are bound after an action are those of an environment that comes about. -/
theorem made_effect (h : env.Made) {action : Action} {e : Effect} (effect : action.effect env = .ok e) :
    (e.apply env).Made := by
  have sound := Action.sound_effect effect
  cases action with
  | construct name construction =>
    obtain ⟨r, -, effect⟩ := bind_eq_ok.mp effect
    exact made_bind? h effect
  | compute name source derived =>
    obtain ⟨result, -, effect⟩ := bind_eq_ok.mp effect
    exact made_bind? h effect
  | execute name plan =>
    obtain ⟨r, -, effect⟩ := bind_eq_ok.mp effect
    exact made_bind? h effect
  | change name c =>
    obtain ⟨r, -, effect⟩ := bind_eq_ok.mp effect
    obtain ⟨⟨changed, touches⟩, -, effect⟩ := bind_eq_ok.mp effect
    obtain rfl := Except.ok.inj effect
    cases touches with
    | false => exact h
    | true =>
      obtain ⟨s, bound, -⟩ := sound
      exact h.change bound
  | remove name =>
    obtain rfl := Except.ok.inj effect
    exact h.remove

theorem made_perform {ws : Workspace} (h : ws.environment.Made) (action : Action) :
    (ws.perform action).environment.Made := by
  unfold perform
  rw [attempt_eq]
  cases effect : action.effect ws.environment with
  | error failure => exact h
  | ok e =>
    show (ws.enact e).environment.Made
    rw [environment_enact]
    exact made_effect h effect

theorem made_run (actions : List Action) : ((∅ : Workspace).run actions).environment.Made := by
  suffices general : ∀ ws : Workspace, ws.environment.Made → (ws.run actions).environment.Made by
    exact general ∅ .empty
  intro ws h
  unfold run
  induction actions generalizing ws with
  | nil => exact h
  | cons action actions ih => exact ih (ws.perform action) (made_perform h action)

end Workspace

/-! ## One notion of names -/

/-- A text is a valid name exactly if it is one name for predicates, one relation for queries and one
attribute for projections.  So everything that has a name can be called by it: the attributes of each
relation in predicates and lists, and each relation that is bound in queries, also in a workspace. -/
theorem name_readers_agree :
    (∀ s : String,
      (Name.isValid s = true ↔
        (Lexeme.scan s.toList).map (List.map Lexeme.token) = .ok [.name s]) ∧
      (Name.isValid s = true ↔ Tree.ofText? s = .ok (.relation s)) ∧
      (Name.isValid s = true ↔ Projection.ofText? s = .ok [s])) ∧
    (∀ r : Relation, r.Addressed) ∧
    (∀ env : Environment, env.Made → ∀ name r, env.get? name = some r → env.Called name r) ∧
    ∀ (actions : List Workspace.Action) (name : String) (r : Relation),
      ((∅ : Workspace).run actions).environment.get? name = some r →
        ((∅ : Workspace).run actions).environment.Called name r :=
  ⟨fun _ => ⟨Name.isValid_iff_scan, Name.isValid_iff_tree, Name.isValid_iff_projection⟩,
    Relation.addressed, fun _ made _ _ bound => made.called bound,
    fun actions _ _ bound => (Workspace.made_run actions).called bound⟩

end RelationalAlgebra
