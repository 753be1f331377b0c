import RelationalAlgebra.Proofs.Workspace.Store
/-!
# Rows in common

Workspaces say by marks which bindings have their rows in common, stores by addresses.  After the same
actions, a store and a workspace bind the same relations, and the same names have rows in common, although
the store writes in place what the workspace replaces.  So no binding sees a change of another one, names
that share rows do have the same rows, and a changed binding shares its rows with none.
-/

namespace RelationalAlgebra

open Function (update)

namespace Name

/-! ## Names with the same key -/

def Together (key : String → Option Nat) (m n : String) : Prop := ∃ k, key m = some k ∧ key n = some k

/-- How names are together once a name has been taken from all others. -/
def Single (name : String) (together : String → String → Prop) (m n : String) : Prop :=
  m = name ∧ n = name ∨ m ≠ name ∧ n ≠ name ∧ together m n

theorem single_congr {name m n : String} {f g : String → String → Prop} (h : f m n ↔ g m n) :
    Single name f m n ↔ Single name g m n := by
  rw [Single, h, Single]

variable {key : String → Option Nat}

theorem together_update_fresh {k : Nat} (fresh : ∀ n, key n ≠ some k) (name m n : String) :
    Together (update key name (some k)) m n ↔ Single name (Together key) m n := by
  unfold Together Single
  by_cases hm : m = name <;> by_cases hn : n = name <;> simp [hm, hn, fresh]

theorem together_update_none (name m n : String) :
    Together (update key name none) m n ↔ m ≠ name ∧ n ≠ name ∧ Together key m n := by
  unfold Together
  by_cases hm : m = name <;> by_cases hn : n = name <;> simp [hm, hn]

/-- A name that gets the key of another one is together with what that is together with. -/
theorem together_update_key (name origin m n : String) :
    Together (update key name (key origin)) m n ↔
      Together key (if m = name then origin else m) (if n = name then origin else n) := by
  unfold Together
  by_cases hm : m = name <;> by_cases hn : n = name <;> simp [hm, hn]

/-- A name with a key that no other name has is taken from all others as it is. -/
theorem together_of_alone {name : String} {k : Nat} (bound : key name = some k)
    (alone : ∀ n, key n = some k → n = name) (m n : String) :
    Together key m n ↔ Single name (Together key) m n := by
  constructor
  · rintro ⟨l, hm, hn⟩
    by_cases first : m = name
    · subst first
      obtain rfl : k = l := Option.some.inj (bound.symm.trans hm)
      exact .inl ⟨rfl, alone n hn⟩
    · refine .inr ⟨first, ?_, l, hm, hn⟩
      rintro rfl
      obtain rfl : k = l := Option.some.inj (bound.symm.trans hn)
      exact first (alone m hm)
  · rintro (⟨rfl, rfl⟩ | ⟨-, -, together⟩)
    · exact ⟨k, bound, bound⟩
    · exact together

end Name

/-! ## Marks -/

namespace Workspace

variable {ws : Workspace}

theorem mark?_insert (ws : Workspace) (name : String) (b : Binding) (next : Nat) :
    mark? ⟨ws.bindings.insert name b, next⟩ = update ws.mark? name (some b.mark) := by
  funext other
  rw [mark?, Name.Map.get?_insert, Function.update_apply]
  split <;> rfl

theorem mark?_remove (ws : Workspace) (name : String) :
    (ws.remove name).mark? = update ws.mark? name none := by
  funext other
  rw [mark?, remove, Name.Map.get?_erase, Function.update_apply]
  split <;> rfl

theorem exists_mark {name : String} {r : Relation} (h : ws.environment.get? name = some r) :
    ∃ mark, ws.mark? name = some mark := by
  rw [get?_environment, Option.map_eq_some_iff] at h
  obtain ⟨b, hb, -⟩ := h
  exact ⟨b.mark, by rw [mark?, hb]; rfl⟩

def Marked (ws : Workspace) : Prop := ∀ name mark, ws.mark? name = some mark → mark < ws.next

theorem Marked.bindOwn (h : ws.Marked) (name : String) (r : Relation) : (ws.bindOwn name r).Marked := by
  intro other mark hmark
  rw [Workspace.bindOwn, mark?_insert, Function.update_apply] at hmark
  split at hmark
  · obtain rfl := Option.some.inj hmark
    exact Nat.lt_succ_self _
  · exact Nat.lt_succ_of_lt (h other mark hmark)

theorem Marked.enact (h : ws.Marked) (e : Effect) : (ws.enact e).Marked := by
  cases e with
  | keep => exact h
  | bind name r origin? =>
    rw [Workspace.enact]
    cases origin : origin?.bind ws.mark? with
    | none => exact h.bindOwn name r
    | some mark =>
      obtain ⟨o, -, ho⟩ := Option.bind_eq_some_iff.mp origin
      intro other mark' hmark
      rw [bindMarked, mark?_insert, Function.update_apply] at hmark
      split at hmark
      · obtain rfl := Option.some.inj hmark
        exact h o mark ho
      · exact h other mark' hmark
  | write name r => exact h.bindOwn name r
  | remove name =>
    intro other mark hmark
    rw [Workspace.enact, mark?_remove, Function.update_apply] at hmark
    split at hmark
    · cases hmark
    · exact h other mark hmark

theorem together_bindOwn (h : ws.Marked) (name : String) (r : Relation) (m n : String) :
    Name.Together (ws.bindOwn name r).mark? m n ↔ Name.Single name (Name.Together ws.mark?) m n := by
  rw [bindOwn, mark?_insert]
  exact Name.together_update_fresh (fun other hmark => (h other _ hmark).false) name m n

theorem isShared_iff {name : String} :
    ws.isShared name = true ↔ ∃ other ≠ name, Name.Together ws.mark? name other := by
  unfold isShared Name.Together mark?
  cases bound : ws.bindings.get? name with
  | none => simp
  | some b =>
    simp only [List.any_eq_true, Bool.and_eq_true, decide_eq_true_eq, Option.map_some,
      Option.some.injEq, Option.map_eq_some_iff]
    constructor
    · rintro ⟨⟨other, b'⟩, entry, ne, mark⟩
      exact ⟨other, ne, b.mark, rfl, b', Name.Map.get?_eq_some_iff.mpr entry, mark⟩
    · rintro ⟨other, ne, mark, rfl, b', hb', same⟩
      exact ⟨⟨other, b'⟩, Name.Map.get?_eq_some_iff.mp hb', ne, same⟩

end Workspace

/-! ## Addresses -/

namespace Store

variable {s : Store}

theorem exists_address {name : String} {r : Relation} (h : s.environment.get? name = some r) :
    ∃ a, s.address? name = some a := by
  rw [get?_environment, Option.map_eq_some_iff] at h
  obtain ⟨handle, hh, -⟩ := h
  exact ⟨handle.address, by rw [address?, hh]; rfl⟩

theorem Counted.together_own (counted : s.Counted) (name : String) (r : Relation) (m n : String) :
    Name.Together (s.own name r).address? m n ↔ Name.Single name (Name.Together s.address?) m n := by
  rw [address?_own]
  exact Name.together_update_fresh (fun other ha => (counted.below ha).false) name m n

/-- A binding whose rows are written has them alone, whether they are written in place or copied. -/
theorem Counted.together_write (counted : s.Counted) {name : String} {a : Nat}
    (bound : s.address? name = some a) (r : Relation) (m n : String) :
    Name.Together (s.write name r).address? m n ↔ Name.Single name (Name.Together s.address?) m n := by
  rw [Store.write, bound]
  simp only
  split
  · next one =>
    exact Name.together_of_alone bound (fun other ha => counted.eq_of_owners_eq_one one bound ha) m n
  · exact counted.together_own name r m n

theorem rows_of_together {m n : String} (h : Name.Together s.address? m n) :
    ∃ r q, s.environment.get? m = some r ∧ s.environment.get? n = some q ∧ q.rows = r.rows := by
  obtain ⟨a, hm, hn⟩ := h
  obtain ⟨handle, hh, rfl⟩ := Option.map_eq_some_iff.mp hm
  obtain ⟨handle', hh', same⟩ := Option.map_eq_some_iff.mp hn
  refine ⟨s.relation handle, s.relation handle', ?_, ?_, ?_⟩
  · rw [get?_environment, hh, Option.map_some]
  · rw [get?_environment, hh', Option.map_some]
  · rw [relation, relation, same]

end Store

/-! ## Stores and workspaces -/

/-- A store and a workspace bind the same relations, and the same names have rows in common. -/
structure Store.Simulates (s : Store) (ws : Workspace) : Prop where
  counted : s.Counted
  marked : ws.Marked
  environment : s.environment = ws.environment
  together (m n : String) : Name.Together s.address? m n ↔ Name.Together ws.mark? m n

namespace Store.Simulates

open Workspace (Action Effect)

variable {s : Store} {ws : Workspace}

theorem start : Simulates ∅ ∅ where
  counted := counted_empty
  marked _ _ h := nomatch h
  environment := rfl
  together _ _ := ⟨fun ⟨_, h, _⟩ => (nomatch h), fun ⟨_, h, _⟩ => (nomatch h)⟩

theorem enact (h : s.Simulates ws) {e : Effect} (sound : e.Sound s.environment) :
    (s.enact e).Simulates (ws.enact e) where
  counted := h.counted.enact e
  marked := h.marked.enact e
  environment := by
    rw [h.counted.environment_enact sound, Workspace.environment_enact, h.environment]
  together m n := by
    cases e with
    | keep => exact h.together m n
    | bind name r origin? =>
      cases origin? with
      | none =>
        rw [Store.enact, Workspace.enact]
        exact (h.counted.together_own name r m n).trans
          ((Name.single_congr (h.together m n)).trans (Workspace.together_bindOwn h.marked name r m n).symm)
      | some origin =>
        obtain ⟨t, bound, -⟩ := sound origin rfl
        obtain ⟨a, ha⟩ := exists_address bound
        obtain ⟨mark, hmark⟩ := Workspace.exists_mark (h.environment ▸ bound)
        rw [Store.enact, Workspace.enact, Option.bind_some, Option.bind_some, ha, hmark, Store.bind,
          address?_point, Workspace.bindMarked, Workspace.mark?_insert]
        simp only
        rw [← ha, ← hmark, Name.together_update_key, Name.together_update_key, h.together]
    | write name r =>
      obtain ⟨t, bound, -⟩ := sound
      obtain ⟨a, ha⟩ := exists_address bound
      rw [Store.enact, Workspace.enact]
      exact (h.counted.together_write ha r m n).trans
        ((Name.single_congr (h.together m n)).trans (Workspace.together_bindOwn h.marked name r m n).symm)
    | remove name =>
      show Name.Together (s.remove name).address? m n ↔ Name.Together (ws.remove name).mark? m n
      rw [address?_remove, Workspace.mark?_remove, Name.together_update_none, Name.together_update_none,
        h.together]

theorem attempt (h : s.Simulates ws) {action : Action} {ws' : Workspace}
    (done : ws.attempt action = .ok ws') : ∃ s', s.attempt action = .ok s' ∧ s'.Simulates ws' := by
  rw [Workspace.attempt_eq] at done
  obtain ⟨e, effect, rfl⟩ := map_eq_ok.mp done
  rw [← h.environment] at effect
  refine ⟨s.enact e, ?_, h.enact (Action.sound_effect effect)⟩
  rw [Store.attempt, effect]
  rfl

theorem perform (h : s.Simulates ws) (action : Action) : (s.perform action).Simulates (ws.perform action) := by
  unfold Store.perform Workspace.perform
  rw [Workspace.attempt_eq, ← h.environment, Store.attempt]
  cases effect : action.effect s.environment with
  | error failure => exact h
  | ok e => exact h.enact (Action.sound_effect effect)

theorem run (h : s.Simulates ws) (actions : List Action) : (s.run actions).Simulates (ws.run actions) := by
  induction actions generalizing s ws with
  | nil => exact h
  | cons action actions ih => exact ih (h.perform action)

theorem isShared_eq (h : s.Simulates ws) (name : String) : s.isShared name = ws.isShared name := by
  rw [Bool.eq_iff_iff, h.counted.isShared_iff, Workspace.isShared_iff]
  exact exists_congr fun other => and_congr_right fun _ => h.together name other

end Store.Simulates

/-! ## Changes -/

namespace Workspace

variable {ws ws' : Workspace}

theorem Change.touches_eq_true {c : Change} {r : Relation} {changed : Relation.Change} {touches : Bool}
    (h : c.apply r = .ok (changed, touches)) (found : (∃ row, c = .insert row) ∨ 0 < changed.count) :
    touches = true := by
  cases c with
  | insert row =>
    obtain ⟨inserted, -, h⟩ := bind_eq_ok.mp h
    exact (Prod.mk.inj (Except.ok.inj h)).2.symm
  | update predicate cells | delete predicate =>
    obtain ⟨done, -, h⟩ := bind_eq_ok.mp h
    obtain ⟨rfl, rfl⟩ := Prod.mk.inj (Except.ok.inj h)
    obtain ⟨row, eq⟩ | positive := found
    · cases eq
    · exact decide_eq_true (Nat.ne_of_gt positive)

theorem find_bindOwn {name other : String} (ne : other ≠ name) (r : Relation) :
    (ws.bindOwn name r).find other = ws.find other := by
  rw [← find_environment, ← find_environment, bindOwn, environment_insert, Environment.find,
    Name.Map.get?_insert, if_neg ne, Environment.find]

theorem find_change {name other : String} {c : Change} {count : Nat}
    (changed : ws.change name c = .ok (ws', count)) (ne : other ≠ name) : ws'.find other = ws.find other := by
  rw [change_eq] at changed
  obtain ⟨r, -, changed⟩ := bind_eq_ok.mp changed
  obtain ⟨⟨result, touches⟩, -, changed⟩ := bind_eq_ok.mp changed
  obtain ⟨rfl, -⟩ := Prod.mk.inj (Except.ok.inj changed)
  cases touches with
  | false => rfl
  | true => exact find_bindOwn ne result.relation

theorem isShared_change (marked : ws.Marked) {name : String} {c : Change} {count : Nat}
    (changed : ws.change name c = .ok (ws', count)) (found : (∃ row, c = .insert row) ∨ 0 < count) :
    ws'.isShared name = false := by
  rw [change_eq] at changed
  obtain ⟨r, -, changed⟩ := bind_eq_ok.mp changed
  obtain ⟨⟨result, touches⟩, applied, changed⟩ := bind_eq_ok.mp changed
  obtain ⟨rfl, rfl⟩ := Prod.mk.inj (Except.ok.inj changed)
  obtain rfl := Change.touches_eq_true applied found
  rw [if_pos rfl, ← Bool.not_eq_true, isShared_iff]
  rintro ⟨other, ne, together⟩
  rcases (together_bindOwn marked name result.relation name other).mp together with ⟨-, eq⟩ | ⟨ne', -⟩
  · exact ne eq
  · exact ne' rfl

/-- After any actions, a workspace and a store have the same relations and the same sharing; names that are
shared have the rows of another name; a change leaves all other names as they are, in both; and a change that
stores or finds a row leaves its name unshared. -/
theorem changes_stay_private (actions : List Action) :
    (Store.run ∅ actions).environment = (run ∅ actions).environment ∧
      (∀ name, (Store.run ∅ actions).isShared name = (run ∅ actions).isShared name) ∧
      (∀ name, (run ∅ actions).isShared name = true → ∃ other ≠ name, ∃ r q,
        (run ∅ actions).find name = .ok r ∧ (run ∅ actions).find other = .ok q ∧ q.rows = r.rows) ∧
      ∀ name change ws' count, (run ∅ actions).change name change = .ok (ws', count) →
        (∀ other ≠ name, ws'.find other = (run ∅ actions).find other) ∧
        (∃ s', (Store.run ∅ actions).attempt (.change name change) = .ok s' ∧
          s'.environment = ws'.environment ∧ ∀ n, s'.isShared n = ws'.isShared n) ∧
        ((∃ row, change = .insert row) ∨ 0 < count → ws'.isShared name = false) := by
  have simulates := Store.Simulates.start.run actions
  refine ⟨simulates.environment, simulates.isShared_eq, fun name shared => ?_, ?_⟩
  · obtain ⟨other, ne, together⟩ := isShared_iff.mp shared
    obtain ⟨r, q, hr, hq, rows⟩ := Store.rows_of_together ((simulates.together name other).mpr together)
    rw [simulates.environment] at hr hq
    refine ⟨other, ne, r, q, ?_, ?_, rows⟩
    · rw [← find_environment, Query.Plan.find_eq_ok_iff, hr]
    · rw [← find_environment, Query.Plan.find_eq_ok_iff, hq]
  · intro name change ws' count changed
    have attempted : (run ∅ actions).attempt (.change name change) = .ok ws' := by
      rw [attempt, changed]
      rfl
    refine ⟨fun other => find_change changed, ?_, isShared_change simulates.marked changed⟩
    obtain ⟨s', done, simulates'⟩ := simulates.attempt attempted
    exact ⟨s', done, simulates'.environment, simulates'.isShared_eq⟩

/-- A run after which three names share one row; its deletion finds no row. -/
def lending : List Action :=
  [.construct "stock" (.raw stockHeader [["nut", "3"]]), .execute "lent" (.scan "stock"),
    .compute "goods" (.rename "stock" (Name.Map.ofList [("item", "thing")])) trivial,
    .change "goods" (.delete "count > 5")]

/-- The insertion of a row that is there already gives the changed name rows of its own. -/
theorem changes_stay_private_lending :
    (run ∅ lending).isShared "stock" = true ∧
      (∃ other ≠ "stock", ∃ r q, (run ∅ lending).find "stock" = .ok r ∧
        (run ∅ lending).find other = .ok q ∧ q.rows = r.rows) ∧
      ∃ ws', (run ∅ lending).change "goods" (.insert [.text "nut", .int 3]) = .ok (ws', 0) ∧
        (∀ other ≠ "goods", ws'.find other = (run ∅ lending).find other) ∧
        (∃ s', (Store.run ∅ lending).attempt (.change "goods" (.insert [.text "nut", .int 3])) = .ok s' ∧
          s'.environment = ws'.environment ∧ ∀ n, s'.isShared n = ws'.isShared n) ∧
        ws'.isShared "goods" = false := by
  have shared : (run ∅ lending).isShared "stock" = true := by decide +kernel
  have inserted : ∃ p, (run ∅ lending).change "goods" (.insert [.text "nut", .int 3]) = .ok p ∧
      p.2 = 0 := by
    decide +kernel
  obtain ⟨⟨ws', count⟩, changed, rfl⟩ := inserted
  obtain ⟨-, -, rows, change⟩ := changes_stay_private lending
  obtain ⟨others, stored, alone⟩ := change _ _ _ _ changed
  exact ⟨shared, rows "stock" shared, ws', changed, others, stored, alone (.inl ⟨_, rfl⟩)⟩

end Workspace

end RelationalAlgebra
