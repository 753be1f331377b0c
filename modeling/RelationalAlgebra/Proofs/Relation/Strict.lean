import RelationalAlgebra.Proofs.Relation.Changes
import RelationalAlgebra.Proofs.Relation.Recoding
/-!
# Operators that stop outside rows

The operators read rows by position, and where a row has no such position they read a default.  The strict
operators read the same positions and stop there instead.  On well-formed relations they never do: each
strict operator gives what the operator gives.  Products, selections and deletions read no positions; a
predicate looks its cells up by name.
-/

namespace RelationalAlgebra

/-- How a strict operator stops: outside a row, or where the operator itself fails. -/
inductive Stop (ε : Type) where
  | outside
  | failure (fault : ε)

namespace Stop

variable {ε ε' α β : Type}

def map (f : ε → ε') : Stop ε → Stop ε'
  | outside => outside
  | failure fault => failure (f fault)

def lift (x : Except ε α) : Except (Stop ε) α := x.mapError failure

theorem lift_map (x : Except ε α) (f : α → β) : lift (x.map f) = (lift x).map f := by
  cases x <;> rfl

/-- A strict step after a strict step. -/
theorem bind_eq_lift {x : Except ε α} {y : Except (Stop ε) α} {f : α → Except ε β}
    {g : α → Except (Stop ε) β} (first : y = lift x) (next : ∀ a, x = .ok a → g a = lift (f a)) :
    (y >>= g) = lift (x >>= f) := by
  cases x with
  | error e =>
    rw [first]
    rfl
  | ok a =>
    rw [first]
    exact next a rfl

theorem lift_mapError (x : Except ε α) (f : ε → ε') :
    (lift x).mapError (map f) = lift (x.mapError f) := by
  cases x <;> rfl

end Stop

theorem mapM_eq_ok {ε α β : Type} {f : α → Except ε β} {g : α → β} {items : List α}
    (h : ∀ a ∈ items, f a = .ok (g a)) : items.mapM f = .ok (items.map g) := by
  induction items with
  | nil => rfl
  | cons a items ih =>
    rw [List.mapM_cons, h a (List.mem_cons_self ..), ih fun b hb => h b (List.mem_cons_of_mem _ hb)]
    rfl

namespace Relation.Strict

open Stop (lift lift_map lift_mapError)

variable {ε : Type}

/-! ## Reading rows -/

def read {α : Type} (items : List α) (i : Nat) : Except (Stop ε) α :=
  match items[i]? with
  | some item => .ok item
  | none => .error .outside

def pick (positions : List Nat) (row : Row) : Except (Stop ε) Row := positions.mapM (read row)

def agree (left right : Row) : List Nat → List Nat → Except (Stop ε) Bool
  | i :: is, j :: js => do
    let l ← read left i
    let r ← read right j
    if l.compare r = .eq then agree left right is js else .ok false
  | _, _ => .ok true

def partners (left : Row) (leftKeys rightKeys : List Nat) : List Row → Except (Stop ε) (List Row)
  | [] => .ok []
  | right :: others => do
    let agrees ← agree left right leftKeys rightKeys
    let rest ← partners left leftKeys rightKeys others
    .ok (if agrees then right :: rest else rest)

def joined (keep : Bool) (others : List Row) (leftKeys rightKeys rest : List Nat) (left : Row) :
    Except (Stop ε) (List Row) := do
  let matched ← partners left leftKeys rightKeys others
  if keep && matched.isEmpty then .ok [left ++ rest.map fun _ => padding]
  else matched.mapM fun right => (pick rest right).map (left ++ ·)

theorem read_eq {row : Row} {i : Nat} (h : i < row.length) :
    read row i = (.ok (row.getD i (.text "")) : Except (Stop ε) Cell) := by
  rw [read, List.getD_eq_getElem?_getD, List.getElem?_eq_getElem h]
  rfl

theorem pick_eq {positions : List Nat} {row : Row} (h : ∀ i ∈ positions, i < row.length) :
    pick positions row = (.ok (row.pick positions) : Except (Stop ε) Row) :=
  mapM_eq_ok fun i hi => read_eq (h i hi)

section Joined

variable {leftKeys rightKeys rest : List Nat} {left : Row}

theorem agree_eq {right : Row} (hl : ∀ i ∈ leftKeys, i < left.length)
    (hr : ∀ j ∈ rightKeys, j < right.length) : agree left right leftKeys rightKeys =
      (.ok (Relation.agree left right leftKeys rightKeys) : Except (Stop ε) Bool) := by
  induction leftKeys generalizing rightKeys with
  | nil => rfl
  | cons i is ih =>
    cases rightKeys with
    | nil => rfl
    | cons j js =>
      obtain ⟨hi, his⟩ := List.forall_mem_cons.mp hl
      obtain ⟨hj, hjs⟩ := List.forall_mem_cons.mp hr
      rw [agree, read_eq hi, read_eq hj, Relation.agree]
      simp only [bind, Except.bind]
      split
      · next same => rw [ih his hjs, decide_eq_true same, Bool.true_and]
      · next differ => rw [decide_eq_false differ, Bool.false_and]

theorem partners_eq {others : List Row} (hl : ∀ i ∈ leftKeys, i < left.length)
    (hr : ∀ right ∈ others, ∀ j ∈ rightKeys, j < right.length) :
    partners left leftKeys rightKeys others = (.ok (others.filter fun right =>
      Relation.agree left right leftKeys rightKeys) : Except (Stop ε) (List Row)) := by
  induction others with
  | nil => rfl
  | cons right others ih =>
    obtain ⟨hright, hothers⟩ := List.forall_mem_cons.mp hr
    rw [partners, agree_eq hl hright, ih hothers, List.filter_cons]
    rfl

theorem joined_eq {keep : Bool} {others : List Row} (hl : ∀ i ∈ leftKeys, i < left.length)
    (hr : ∀ right ∈ others, ∀ j ∈ rightKeys, j < right.length)
    (hrest : ∀ right ∈ others, ∀ j ∈ rest, j < right.length) :
    joined keep others leftKeys rightKeys rest left =
      (.ok (Relation.joined keep others leftKeys rightKeys rest left) : Except (Stop ε) (List Row)) := by
  rw [joined, partners_eq hl hr, Relation.joined]
  simp only [bind, Except.bind]
  split
  · rfl
  · refine mapM_eq_ok fun right hright => ?_
    rw [pick_eq (hrest right (List.mem_filter.mp hright).1)]
    rfl

end Joined

/-! ## Operators -/

def align (r other : Relation) (operation : String) : Except (Stop SchemaFault) Rows :=
  if r.header.sameSet other.header then
    if r.header = other.header then .ok other.rows
    else do
      let positions ← lift (other.header.positions r.names)
      let rows ← other.rows.mapM (pick positions)
      .ok (Rows.collect rows)
  else .error (.failure (.unalike operation r.names other.names))

def rearrange (r : Relation) (header : Header) : Except (Stop SchemaFault) Relation :=
  (align (empty header) r "rearrange").map fun rows => ⟨header, rows⟩

def equal (a b : Relation) : Except (Stop SchemaFault) Bool :=
  match align a b "comparison" with
  | .ok rows => .ok (Rows.equal rows a.rows)
  | .error .outside => .error .outside
  | .error (.failure _) => .ok false

def projection (r : Relation) (names : List String) : Except (Stop SchemaFault) Relation :=
  match distinct names with
  | [] => .error (.failure .emptyProjection)
  | names => do
    let positions ← lift (r.header.positions names)
    let header ← lift (Header.ofNames? names)
    let rows ← r.rows.mapM (pick positions)
    .ok ⟨header, Rows.collect rows⟩

/-- The set operators: the rows of the first operand and those of the second are combined. -/
def combined (combine : Rows → Rows → Rows) (operation : String) (a b : Relation) :
    Except (Stop SchemaFault) Relation :=
  (align a b operation).map fun rows => ⟨a.header, combine a.rows rows⟩

def joinWith (keep : Bool) (a b : Relation) : Except (Stop SchemaFault) Relation := do
  let shared := a.header.shared b.header
  let leftKeys ← lift (a.header.positions shared)
  let rightKeys ← lift (b.header.positions shared)
  let rest := (List.range b.header.size).filter fun i => !rightKeys.contains i
  let header ← lift (a.joinHeader b)
  let rows ← a.rows.mapM (joined keep b.rows leftKeys rightKeys rest)
  .ok ⟨header, Rows.ofInsertions rows.flatten⟩

def rightJoin (a b : Relation) : Except (Stop SchemaFault) Relation := do
  let mirrored ← joinWith true b a
  let header ← lift (a.joinHeader b)
  rearrange mirrored header

def fullJoin (a b : Relation) : Except (Stop SchemaFault) Relation := do
  let left ← joinWith true a b
  let right ← rightJoin a b
  combined Rows.union "union" left right

def division (a b : Relation) : Except (Stop SchemaFault) Relation :=
  match b.names.find? fun n => !a.header.contains n with
  | some n => .error (.failure (.strangeDivisor n a.names))
  | none =>
    match a.names.filter fun n => !b.header.contains n with
    | [] => .error (.failure .noQuotient)
    | unique => do
      let candidates ← projection a unique
      let product ← lift (candidates.product b)
      let missing ← combined Rows.difference "difference" product a
      let disqualified ← projection missing unique
      combined Rows.difference "difference" candidates disqualified

def apply (op : Query.Binary) (a b : Relation) : Except (Stop SchemaFault) Relation :=
  match op with
  | .product => lift (a.product b)
  | .difference => combined Rows.difference "difference" a b
  | .union => combined Rows.union "union" a b
  | .intersection => combined Rows.intersection "intersection" a b
  | .division => division a b
  | .join => joinWith false a b
  | .leftJoin => joinWith true a b
  | .rightJoin => rightJoin a b
  | .fullJoin => fullJoin a b

theorem lt_size_of_mem_positions {header : Header} {names : List String} {positions : List Nat}
    (h : header.positions names = .ok positions) : ∀ i ∈ positions, i < header.size := by
  intro i hi
  have pairs := Header.positions_eq_ok_iff.mp h
  obtain ⟨k, hk, rfl⟩ := List.mem_iff_getElem.mp hi
  have hk' : k < names.length := pairs.length_eq ▸ hk
  obtain ⟨lt, -⟩ := List.getElem?_eq_some_iff.mp (Header.getElem?_of_position? (pairs.get hk' hk))
  exact lt

theorem WellFormed.inside {r : Relation} (wellFormed : r.WellFormed) {names : List String}
    {positions : List Nat} (h : r.header.positions names = .ok positions) :
    ∀ row ∈ r.rows, ∀ i ∈ positions, i < row.length := by
  intro row hrow i hi
  rw [wellFormed.arity row hrow]
  exact lt_size_of_mem_positions h i hi

section Operators

variable {a b r : Relation}

theorem align_eq (hr : r.WellFormed) (other : Relation) (operation : String) :
    align other r operation = lift (other.align r operation) := by
  rw [align, Relation.align]
  split
  · split
    · rfl
    · cases h : r.header.positions other.names with
      | error fault => rfl
      | ok positions =>
        have rows := @mapM_eq_ok (Stop SchemaFault) _ _ (pick positions) (Row.pick positions) r.rows
          fun row hrow => pick_eq (WellFormed.inside hr h row hrow)
        simp only [lift, Except.mapError, bind, Except.bind, rows]
        rfl
  · rfl

theorem rearrange_eq (hr : r.WellFormed) (header : Header) :
    rearrange r header = lift (r.rearrange header) := by
  rw [rearrange, align_eq hr, Relation.rearrange, lift_map]

theorem equal_eq (hb : b.WellFormed) (a : Relation) : equal a b = .ok (a.equal b) := by
  rw [equal, align_eq hb, Relation.equal]
  cases a.align b "comparison" <;> rfl

theorem projection_eq (hr : r.WellFormed) (names : List String) :
    projection r names = lift (r.projection names) := by
  rw [projection, Relation.projection]
  cases distinct names with
  | nil => rfl
  | cons n ns =>
    cases h : r.header.positions (n :: ns) with
    | error fault =>
      simp only [h]
      rfl
    | ok positions =>
      have rows := @mapM_eq_ok (Stop SchemaFault) _ _ (pick positions) (Row.pick positions) r.rows
        fun row hrow => pick_eq (WellFormed.inside hr h row hrow)
      simp only [h, lift, Except.mapError, bind, Except.bind, rows]
      cases Header.ofNames? (n :: ns) <;> rfl

theorem combined_eq (hb : b.WellFormed) (combine : Rows → Rows → Rows) (operation : String) :
    combined combine operation a b =
      lift ((a.align b operation).map fun rows => ⟨a.header, combine a.rows rows⟩) := by
  rw [combined, align_eq hb, lift_map]

theorem joinWith_eq (ha : a.WellFormed) (hb : b.WellFormed) (keep : Bool) :
    joinWith keep a b = lift (Relation.joinWith keep a b) := by
  refine Stop.bind_eq_lift rfl fun leftKeys hl => Stop.bind_eq_lift rfl fun rightKeys hr =>
    Stop.bind_eq_lift rfl fun header _ => ?_
  have rest : ∀ row ∈ b.rows,
      ∀ i ∈ (List.range b.header.size).filter fun i => !rightKeys.contains i, i < row.length := by
    intro row hrow i hi
    rw [hb.arity row hrow]
    exact List.mem_range.mp (List.mem_filter.mp hi).1
  have rows := @mapM_eq_ok (Stop SchemaFault) _ _ _ _ a.rows fun left hleft =>
    @joined_eq _ _ _ _ left keep b.rows (WellFormed.inside ha hl left hleft)
      (WellFormed.inside hb hr) rest
  rw [rows]
  rfl

theorem rightJoin_eq (ha : a.WellFormed) (hb : b.WellFormed) :
    rightJoin a b = lift (a.rightJoin b) :=
  Stop.bind_eq_lift (joinWith_eq hb ha true) fun _ mirrored => Stop.bind_eq_lift rfl fun header _ =>
    rearrange_eq (@represented_apply .leftJoin _ _ _ hb ha mirrored).1 header

theorem fullJoin_eq (ha : a.WellFormed) (hb : b.WellFormed) : fullJoin a b = lift (a.fullJoin b) :=
  Stop.bind_eq_lift (joinWith_eq ha hb true) fun _ _ => Stop.bind_eq_lift (rightJoin_eq ha hb) fun _ right =>
    combined_eq (@represented_apply .rightJoin _ _ _ ha hb right).1 Rows.union "union"

theorem division_eq (ha : a.WellFormed) (hb : b.WellFormed) : division a b = lift (a.division b) := by
  rw [division, Relation.division]
  cases b.names.find? fun n => !a.header.contains n with
  | some n => rfl
  | none =>
    cases a.names.filter fun n => !b.header.contains n with
    | nil => rfl
    | cons n ns =>
      refine Stop.bind_eq_lift (projection_eq ha (n :: ns)) fun candidates hc => ?_
      have wellFormed := (represented_projection ha hc).1
      refine Stop.bind_eq_lift rfl fun product hp => Stop.bind_eq_lift
        (combined_eq ha Rows.difference "difference") fun missing hm => ?_
      have wellFormed' := (@represented_apply .product _ _ _ wellFormed hb hp).1
      have wellFormed'' := (@represented_apply .difference _ _ _ wellFormed' ha hm).1
      refine Stop.bind_eq_lift (projection_eq wellFormed'' (n :: ns)) fun disqualified hd => ?_
      exact combined_eq (represented_projection wellFormed'' hd).1 Rows.difference "difference"

theorem apply_eq (ha : a.WellFormed) (hb : b.WellFormed) (op : Query.Binary) :
    apply op a b = lift (a.apply op b) := by
  cases op with
  | product => rfl
  | difference => exact combined_eq hb Rows.difference "difference"
  | union => exact combined_eq hb Rows.union "union"
  | intersection => exact combined_eq hb Rows.intersection "intersection"
  | division => exact division_eq ha hb
  | join => exact joinWith_eq ha hb false
  | leftJoin => exact joinWith_eq ha hb true
  | rightJoin => exact rightJoin_eq ha hb
  | fullJoin => exact fullJoin_eq ha hb

end Operators

/-! ## Changes -/

/-- The kind of each column; each cell must stand in one. -/
def columnKinds (r : Relation) : Except (Stop ε) (List (Option Kind)) :=
  if r.rows.all fun row => row.length ≤ r.header.size then
    (List.range r.header.size).mapM fun i => (r.rows.mapM fun row => read row i).map kindOf
  else .error .outside

def conformRow : List String → List (Option Kind) → Row → Except (Stop SchemaFault) Row
  | _, _, [] => .ok []
  | name :: names, kind :: kinds, cell :: cells => do
    let cell ← lift (conform name kind cell)
    let cells ← conformRow names kinds cells
    .ok (cell :: cells)
  | _, _, _ :: _ => .error .outside

def insert (r : Relation) (row : Row) : Except (Stop SchemaFault) Change := do
  lift (checkArity r.header [row.length])
  let kinds ← columnKinds r
  let row ← conformRow r.names kinds row
  .ok ⟨⟨r.header, Rows.insert row r.rows⟩, if Rows.contains r.rows row then 0 else 1⟩

def targets (r : Relation) (kinds : List (Option Kind)) :
    List (String × Cell) → Except (Stop SchemaFault) (List (Nat × Cell))
  | [] => .ok []
  | (name, cell) :: rest =>
    match r.header.position? name with
    | none => .error (.failure (.cannotUpdate name r.names))
    | some i => do
      let kind ← read kinds i
      let cell ← lift (conform name kind cell)
      let rest ← targets r kinds rest
      .ok ((i, cell) :: rest)

def overwrite (targets : List (Nat × Cell)) (row : Row) : Except (Stop ε) Row :=
  targets.foldlM (fun row t => if t.1 < row.length then .ok (row.set t.1 t.2) else .error .outside) row

def update (r : Relation) (predicate : String) (changes : Name.Map Cell) :
    Except (Stop Failure) Change := do
  let kinds ← columnKinds r
  let targets ← (targets r kinds changes.entries).mapError (Stop.map .schema)
  let clause ← lift (clause? predicate)
  let rows ← lift (matching r.names clause r.rows)
  let changed ← rows.mapM (overwrite targets)
  let kept := Rows.difference r.rows rows
  .ok ⟨⟨r.header, changed.foldl (fun rows row => Rows.insert row rows) kept⟩, rows.length⟩

section Changes

variable {r : Relation}

theorem columnKinds_eq (hr : r.WellFormed) :
    columnKinds r = (.ok r.columnKinds : Except (Stop ε) (List (Option Kind))) := by
  have fits : (r.rows.all fun row => row.length ≤ r.header.size) = true := by
    simp only [List.all_eq_true, decide_eq_true_eq]
    exact fun row hrow => (hr.arity row hrow).le
  rw [columnKinds, if_pos fits]
  refine mapM_eq_ok fun i hi => ?_
  rw [mapM_eq_ok fun row hrow => read_eq (hr.arity row hrow ▸ List.mem_range.mp hi)]
  rfl

theorem conformRow_eq {names : List String} {kinds : List (Option Kind)} {row : Row}
    (length : kinds.length = names.length) (length' : row.length = names.length) :
    conformRow names kinds row = lift (Relation.conformRow names kinds row) := by
  induction names generalizing kinds row with
  | nil =>
    obtain rfl := List.eq_nil_of_length_eq_zero length'
    rfl
  | cons name names ih =>
    obtain ⟨kind, kinds, rfl⟩ := List.exists_cons_of_length_eq_add_one length
    obtain ⟨cell, cells, rfl⟩ := List.exists_cons_of_length_eq_add_one length'
    rw [conformRow, Relation.conformRow, ih (Nat.succ.inj length) (Nat.succ.inj length')]
    cases conform name kind cell with
    | error fault => rfl
    | ok cell => cases Relation.conformRow names kinds cells <;> rfl

theorem insert_eq (hr : r.WellFormed) (row : Row) : insert r row = lift (r.insert row) := by
  rw [insert, Relation.insert]
  cases h : checkArity r.header [row.length] with
  | error fault => rfl
  | ok u =>
    have length : row.length = r.header.size := checkArity_eq_ok h _ (List.mem_singleton_self _)
    rw [columnKinds_eq hr]
    simp only [lift, Except.mapError, bind, Except.bind,
      conformRow_eq (length_columnKinds r) length]
    cases Relation.conformRow r.names r.columnKinds row <;> rfl

theorem targets_eq (changes : List (String × Cell)) :
    targets r r.columnKinds changes = lift (r.targets changes) := by
  induction changes with
  | nil => rfl
  | cons change rest ih =>
    obtain ⟨name, cell⟩ := change
    rw [targets, Relation.targets]
    cases h : r.header.position? name with
    | none => rfl
    | some i =>
      obtain ⟨lt, -⟩ := List.getElem?_eq_some_iff.mp (Header.getElem?_of_position? h)
      have inKinds : i < r.columnKinds.length := by rwa [length_columnKinds]
      have kind : read r.columnKinds i =
          (.ok (r.columnKinds.getD i none) : Except (Stop SchemaFault) (Option Kind)) := by
        rw [read, List.getD_eq_getElem?_getD, List.getElem?_eq_getElem inKinds]
        rfl
      simp only [kind, ih, bind, Except.bind]
      cases conform name (r.columnKinds.getD i none) cell with
      | error fault => rfl
      | ok cell => cases r.targets rest <;> rfl

theorem lt_of_mem_targets {changes : List (String × Cell)} {ts : List (Nat × Cell)}
    (h : r.targets changes = .ok ts) : ∀ t ∈ ts, t.1 < r.header.size := by
  induction changes generalizing ts with
  | nil =>
    obtain rfl := Except.ok.inj h
    exact fun _ ht => (List.not_mem_nil ht).elim
  | cons change rest ih =>
    obtain ⟨name, cell⟩ := change
    rw [Relation.targets] at h
    split at h
    · cases h
    · next i hi =>
      split at h
      · cases h
      · obtain ⟨others, hothers, rfl⟩ := map_eq_ok.mp h
        obtain ⟨lt, -⟩ := List.getElem?_eq_some_iff.mp (Header.getElem?_of_position? hi)
        exact List.forall_mem_cons.mpr ⟨lt, ih hothers⟩

theorem overwrite_eq {ts : List (Nat × Cell)} {row : Row} (h : ∀ t ∈ ts, t.1 < row.length) :
    overwrite ts row = (.ok (Relation.overwrite ts row) : Except (Stop ε) Row) := by
  induction ts generalizing row with
  | nil => rfl
  | cons t ts ih =>
    obtain ⟨first, later⟩ := List.forall_mem_cons.mp h
    have rest := @ih (row.set t.1 t.2) fun u hu => by
      rw [List.length_set]
      exact later u hu
    rw [overwrite, List.foldlM_cons, if_pos first]
    exact rest

theorem update_eq (hr : r.WellFormed) (predicate : String) (changes : Name.Map Cell) :
    update r predicate changes = lift (r.update predicate changes) := by
  rw [update, Relation.update, columnKinds_eq hr]
  simp only [bind, Except.bind, targets_eq, lift_mapError]
  cases ht : r.targets changes.entries with
  | error fault => rfl
  | ok ts =>
    cases clause? predicate with
    | error failure => rfl
    | ok clause =>
      cases hm : matching r.names clause r.rows with
      | error failure =>
        simp only [lift, Except.mapError, hm]
        rfl
      | ok rows =>
        have changed : rows.mapM (overwrite ts) =
            (.ok (rows.map (Relation.overwrite ts)) : Except (Stop Failure) (List Row)) := by
          refine mapM_eq_ok fun row hrow => overwrite_eq fun t h => ?_
          rw [hr.arity row (mem_of_matching hm hrow)]
          exact lt_of_mem_targets ht t h
        simp only [lift, Except.mapError, hm, changed]
        rfl

end Changes

end Relation.Strict

end RelationalAlgebra
