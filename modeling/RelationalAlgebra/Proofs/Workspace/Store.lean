import Mathlib.Data.Finset.Card
import RelationalAlgebra.Proofs.Workspace.Effects
/-!
# Stores of rows

In a store, each binding has the address of its rows, and each address has a count of its owners.  A binding
that uses the rows of another one becomes one more owner of them.  Rows with a single owner are changed in
place; of rows with several owners, a changed copy is made for the binding that is changed.  The counts of a
store are right after each effect, so no binding sees that rows of another one were changed.
-/

namespace RelationalAlgebra

open Function (update)

structure Handle where
  header : Header
  address : Nat

structure Store where
  handles : Name.Map Handle
  rows : Nat → Rows
  /-- The number of bindings that have the rows of an address. -/
  owners : Nat → Nat
  /-- All addresses in use are smaller. -/
  next : Nat

namespace Store

open Workspace (Action Effect)

/-! ## Effects -/

def empty : Store := ⟨∅, fun _ => [], fun _ => 0, 0⟩

instance : EmptyCollection Store := ⟨empty⟩

def address? (s : Store) (name : String) : Option Nat := (s.handles.get? name).map Handle.address

def relation (s : Store) (h : Handle) : Relation := ⟨h.header, s.rows h.address⟩

def environment (s : Store) : Environment := s.handles.map s.relation

def isShared (s : Store) (name : String) : Bool :=
  match s.address? name with
  | none => false
  | some a => 1 < s.owners a

def retain (owners : Nat → Nat) (a : Nat) : Nat → Nat := update owners a (owners a + 1)

def release (owners : Nat → Nat) : Option Nat → Nat → Nat
  | none => owners
  | some a => update owners a (owners a - 1)

/-- Binds a name to rows of the store; what the name was bound to is released last. -/
def point (s : Store) (name : String) (h : Handle) : Store :=
  { s with
    handles := s.handles.insert name h
    owners := release (retain s.owners h.address) (s.address? name) }

def put (s : Store) (a : Nat) (rows : Rows) : Store := { s with rows := update s.rows a rows }

def own (s : Store) (name : String) (r : Relation) : Store :=
  point { s.put s.next r.rows with next := s.next + 1 } name ⟨r.header, s.next⟩

/-- Binds a name to a relation that uses the rows of an address, if one is given. -/
def bind (s : Store) (name : String) (r : Relation) : Option Nat → Store
  | none => s.own name r
  | some a => s.point name ⟨r.header, a⟩

/-- Gives the binding of a name other rows, in place if they have no other owner. -/
def write (s : Store) (name : String) (r : Relation) : Store :=
  match s.address? name with
  | none => s
  | some a => if s.owners a = 1 then s.put a r.rows else s.own name r

def remove (s : Store) (name : String) : Store :=
  { s with handles := s.handles.erase name, owners := release s.owners (s.address? name) }

def enact (s : Store) : Effect → Store
  | .keep => s
  | .bind name r origin? => s.bind name r (origin?.bind s.address?)
  | .write name r => s.write name r
  | .remove name => s.remove name

def attempt (s : Store) (action : Action) : Except Failure Store :=
  (action.effect s.environment).map s.enact

def perform (s : Store) (action : Action) : Store :=
  match s.attempt action with
  | .ok s' => s'
  | .error _ => s

def run (s : Store) (actions : List Action) : Store := actions.foldl perform s

/-! ## Addresses -/

variable {s : Store}

theorem address?_point (s : Store) (name : String) (h : Handle) :
    (s.point name h).address? = update s.address? name (some h.address) := by
  funext other
  rw [address?, point, Name.Map.get?_insert, Function.update_apply]
  split <;> rfl

theorem address?_own (s : Store) (name : String) (r : Relation) :
    (s.own name r).address? = update s.address? name (some s.next) := address?_point ..

theorem address?_remove (s : Store) (name : String) :
    (s.remove name).address? = update s.address? name none := by
  funext other
  rw [address?, remove, Name.Map.get?_erase, Function.update_apply]
  split <;> rfl

/-! ## Counts -/

def sharers (s : Store) (a : Nat) : Finset String :=
  s.handles.keys.toFinset.filter fun name => s.address? name = some a

theorem mem_sharers {name : String} {a : Nat} : name ∈ s.sharers a ↔ s.address? name = some a := by
  rw [sharers, Finset.mem_filter, List.mem_toFinset, Name.Map.mem_keys_iff, and_iff_right_iff_imp]
  intro h
  obtain ⟨handle, bound, -⟩ := Option.map_eq_some_iff.mp h
  exact ⟨handle, bound⟩

/-- Each address has as many owners as there are names that have its rows. -/
structure Counted (s : Store) : Prop where
  owners (a : Nat) : s.owners a = (s.sharers a).card
  below {name : String} {a : Nat} : s.address? name = some a → a < s.next

theorem retain_apply (owners : Nat → Nat) (b a : Nat) :
    retain owners b a = owners a + if a = b then 1 else 0 := by
  rw [retain, Function.update_apply]
  split
  · next same => rw [same]
  · rfl

theorem release_apply (owners : Nat → Nat) (address? : Option Nat) (a : Nat) :
    release owners address? a = owners a - if address? = some a then 1 else 0 := by
  cases address? with
  | none => rfl
  | some b =>
    rw [release, Function.update_apply]
    by_cases same : a = b
    · rw [if_pos same, if_pos (congrArg some same.symm), same]
    · rw [if_neg same, if_neg fun eq => same (Option.some.inj eq).symm]
      rfl

theorem counted_empty : Counted ∅ where
  owners _ := rfl
  below h := nomatch h

theorem Counted.card_erase (counted : s.Counted) (name : String) (a : Nat) :
    ((s.sharers a).erase name).card = s.owners a - if s.address? name = some a then 1 else 0 := by
  rw [counted.owners]
  by_cases bound : s.address? name = some a
  · rw [if_pos bound, Finset.card_erase_of_mem (mem_sharers.mpr bound)]
  · rw [if_neg bound, Finset.erase_eq_of_notMem (fun mem => bound (mem_sharers.mp mem)), Nat.sub_zero]

theorem Counted.point (counted : s.Counted) (name : String) {h : Handle} (lt : h.address < s.next) :
    (s.point name h).Counted where
  owners a := by
    show release (retain s.owners h.address) (s.address? name) a = _
    rw [release_apply, retain_apply]
    by_cases same : a = h.address
    · have sharers : (s.point name h).sharers a = insert name ((s.sharers a).erase name) := by
        ext other
        rw [mem_sharers, address?_point, Function.update_apply, Finset.mem_insert, Finset.mem_erase,
          mem_sharers, same]
        by_cases eq : other = name <;> simp [eq]
      have first : s.address? name = some a → 0 < s.owners a := by
        intro bound
        rw [counted.owners]
        exact Finset.card_pos.mpr ⟨name, mem_sharers.mpr bound⟩
      rw [sharers, Finset.card_insert_of_notMem (Finset.notMem_erase name _), counted.card_erase, if_pos same]
      split
      · next bound =>
        have := first bound
        omega
      · rfl
    · have sharers : (s.point name h).sharers a = (s.sharers a).erase name := by
        ext other
        rw [mem_sharers, address?_point, Function.update_apply, Finset.mem_erase, mem_sharers]
        by_cases eq : other = name <;> simp [eq, Ne.symm same]
      rw [sharers, counted.card_erase, if_neg same, Nat.add_zero]
  below {other a} ha := by
    rw [address?_point, Function.update_apply] at ha
    split at ha
    · obtain rfl := Option.some.inj ha
      exact lt
    · exact counted.below ha

theorem Counted.own (counted : s.Counted) (name : String) (r : Relation) : (s.own name r).Counted := by
  have more : Counted { s.put s.next r.rows with next := s.next + 1 } :=
    ⟨counted.owners, fun h => Nat.lt_succ_of_lt (counted.below h)⟩
  exact more.point name (Nat.lt_succ_self _)

theorem Counted.remove (counted : s.Counted) (name : String) : (s.remove name).Counted where
  owners a := by
    have sharers : (s.remove name).sharers a = (s.sharers a).erase name := by
      ext other
      rw [mem_sharers, address?_remove, Function.update_apply, Finset.mem_erase, mem_sharers]
      by_cases eq : other = name <;> simp [eq]
    show release s.owners (s.address? name) a = _
    rw [sharers, counted.card_erase, release_apply]
  below {other a} ha := by
    rw [address?_remove, Function.update_apply] at ha
    split at ha
    · cases ha
    · exact counted.below ha

theorem Counted.write (counted : s.Counted) (name : String) (r : Relation) :
    (s.write name r).Counted := by
  unfold Store.write
  split
  · exact counted
  · split
    · exact ⟨counted.owners, counted.below⟩
    · exact counted.own name r

theorem Counted.bind (counted : s.Counted) (name : String) (r : Relation) {address? : Option Nat}
    (below : ∀ a ∈ address?, a < s.next) : (s.bind name r address?).Counted := by
  cases address? with
  | none => exact counted.own name r
  | some a => exact counted.point name (below a rfl)

theorem Counted.enact (counted : s.Counted) (e : Effect) : (s.enact e).Counted := by
  cases e with
  | keep => exact counted
  | bind name r origin? =>
    refine counted.bind name r fun a ha => ?_
    obtain ⟨origin, -, ha⟩ := Option.bind_eq_some_iff.mp ha
    exact counted.below ha
  | write name r => exact counted.write name r
  | remove name => exact counted.remove name

theorem Counted.perform (counted : s.Counted) (action : Action) : (s.perform action).Counted := by
  unfold Store.perform
  split
  · next done =>
    obtain ⟨e, -, rfl⟩ := map_eq_ok.mp done
    exact counted.enact e
  · exact counted

theorem Counted.run (counted : s.Counted) (actions : List Action) : (s.run actions).Counted := by
  induction actions generalizing s with
  | nil => exact counted
  | cons action actions ih => exact ih (counted.perform action)

/-! ## Sharing -/

/-- A count above one is another name with the same address. -/
theorem Counted.isShared_iff (counted : s.Counted) {name : String} :
    s.isShared name = true ↔
      ∃ other ≠ name, ∃ a, s.address? name = some a ∧ s.address? other = some a := by
  unfold isShared
  cases bound : s.address? name with
  | none => simp
  | some a =>
    rw [decide_eq_true_eq, counted.owners]
    constructor
    · intro several
      obtain ⟨other, hother, ne⟩ := Finset.exists_mem_ne several name
      exact ⟨other, ne, a, rfl, mem_sharers.mp hother⟩
    · rintro ⟨other, ne, a', eq, ho⟩
      obtain rfl := Option.some.inj eq
      exact Finset.one_lt_card.mpr ⟨name, mem_sharers.mpr bound, other, mem_sharers.mpr ho, ne.symm⟩

/-- A single owner has its rows alone. -/
theorem Counted.eq_of_owners_eq_one (counted : s.Counted) {name other : String} {a : Nat}
    (one : s.owners a = 1) (hn : s.address? name = some a) (ho : s.address? other = some a) :
    other = name := by
  rw [counted.owners] at one
  exact Finset.card_le_one.mp one.le other (mem_sharers.mpr ho) name (mem_sharers.mpr hn)

/-! ## Relations -/

theorem get?_environment (s : Store) (name : String) :
    s.environment.get? name = (s.handles.get? name).map s.relation := Name.Map.get?_map ..

theorem environment_point (s : Store) (name : String) (h : Handle) :
    (s.point name h).environment = s.environment.insert name (s.relation h) := by
  refine Name.Map.eq_of_get? fun other => ?_
  have same : (s.point name h).relation = s.relation := rfl
  rw [get?_environment, point, Name.Map.get?_insert, Name.Map.get?_insert, get?_environment, ← point, same]
  split <;> rfl

theorem rows_put (s : Store) (a : Nat) (rows : Rows) (b : Nat) :
    (s.put a rows).rows b = if b = a then rows else s.rows b := Function.update_apply ..

/-- Rows at an address are seen by the bindings that have this address, and by no other. -/
theorem get?_environment_put (s : Store) (a : Nat) (rows : Rows) (name : String) :
    (s.put a rows).environment.get? name =
      if s.address? name = some a then (s.environment.get? name).map fun r => ⟨r.header, rows⟩
      else s.environment.get? name := by
  have same : (s.put a rows).handles = s.handles := rfl
  rw [get?_environment, get?_environment, same, address?]
  cases s.handles.get? name with
  | none => rfl
  | some h =>
    have seen : (s.put a rows).relation h =
        if h.address = a then ⟨h.header, rows⟩ else s.relation h := by
      rw [relation, rows_put]
      split <;> rfl
    rw [Option.map_some, seen]
    by_cases here : h.address = a <;> simp [here, relation]

theorem Counted.environment_own (counted : s.Counted) (name : String) (r : Relation) :
    (s.own name r).environment = s.environment.insert name r := by
  have unseen : (s.put s.next r.rows).environment = s.environment := by
    refine Name.Map.eq_of_get? fun other => ?_
    rw [get?_environment_put, if_neg fun ha => (counted.below ha).false]
  have new : relation { s.put s.next r.rows with next := s.next + 1 } ⟨r.header, s.next⟩ = r := by
    show (⟨r.header, (s.put s.next r.rows).rows s.next⟩ : Relation) = r
    rw [rows_put, if_pos rfl]
  rw [Store.own, environment_point, new, ← unseen]
  rfl

theorem Counted.environment_write (counted : s.Counted) {name : String} {r t : Relation}
    (bound : s.environment.get? name = some t) (header : t.header = r.header) :
    (s.write name r).environment = s.environment.insert name r := by
  unfold Store.write
  split
  · next free =>
    rw [get?_environment, Option.map_eq_some_iff] at bound
    obtain ⟨h, hh, -⟩ := bound
    rw [address?, hh] at free
    cases free
  · next a ha =>
    split
    · next one =>
      -- the only binding that sees the change is the one that is changed
      refine Name.Map.eq_of_get? fun other => ?_
      rw [get?_environment_put, Name.Map.get?_insert]
      by_cases here : s.address? other = some a
      · obtain rfl := counted.eq_of_owners_eq_one one ha here
        rw [if_pos here, if_pos rfl, bound, Option.map_some, header]
      · have ne : other ≠ name := fun eq => here (eq ▸ ha)
        rw [if_neg here, if_neg ne]
    · exact counted.environment_own name r

/-- Effects do to the relations of a store what they do to relations. -/
theorem Counted.environment_enact (counted : s.Counted) {e : Effect} (sound : e.Sound s.environment) :
    (s.enact e).environment = e.apply s.environment := by
  cases e with
  | keep => rfl
  | bind name r origin? =>
    rw [Store.enact, Effect.apply]
    cases origin : origin?.bind s.address? with
    | none => exact counted.environment_own name r
    | some a =>
      obtain ⟨o, ho, ha⟩ := Option.bind_eq_some_iff.mp origin
      obtain ⟨t, ht, rows⟩ := sound o ho
      obtain ⟨h, hh, rfl⟩ := Option.map_eq_some_iff.mp ha
      have found : s.relation h = t := by
        rw [get?_environment, hh] at ht
        exact Option.some.inj ht
      have same : s.relation ⟨r.header, h.address⟩ = r := by
        have seen : s.rows h.address = r.rows := by rw [← rows, ← found, relation]
        rw [relation, seen]
      rw [Store.bind, environment_point, same]
  | write name r =>
    obtain ⟨t, bound, header⟩ := sound
    exact counted.environment_write bound header
  | remove name =>
    refine Name.Map.eq_of_get? fun other => ?_
    have same : (s.remove name).relation = s.relation := rfl
    rw [Effect.apply, Name.Map.get?_erase, get?_environment, get?_environment, Store.enact, same, Store.remove,
      Name.Map.get?_erase]
    split <;> rfl

end Store

end RelationalAlgebra
