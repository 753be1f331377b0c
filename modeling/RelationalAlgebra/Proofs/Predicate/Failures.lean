import RelationalAlgebra.Predicate.Evaluation
/-!
# Evaluation and its faults

Evaluation as a sequence of steps, each of which may fail, and the names of attributes in the faults:
no operation on scalars blames an attribute.
-/

namespace RelationalAlgebra.Predicate

/-! ## Evaluation as a sequence of steps -/

section Steps

variable (look : String → Option Cell)

/-- A formula is evaluated in steps, the first of which that fails is the fault of the whole. -/
theorem eval_eq_steps (f : Formula) : f.eval look =
    match f with
    | .literal v => .ok v
    | .attribute name field =>
      match look name with
      | none => .error (.unknownAttribute name)
      | some cell =>
        match field with
        | none => .ok (.ofCell cell)
        | some field => (Scalar.ofCell cell).field field
    | .not f => (f.eval look).map fun v => .bool (!v.truth)
    | .neg f => (f.eval look).bind Scalar.neg
    | .pos f => (f.eval look).bind Scalar.pos
    | .and l r => (l.eval look).bind fun v =>
        if v.truth then (r.eval look).map fun w => .bool w.truth else .ok (.bool false)
    | .or l r => (l.eval look).bind fun v =>
        if v.truth then .ok (.bool true) else (r.eval look).map fun w => .bool w.truth
    | .compare f chain => (f.eval look).bind (chain.eval look)
    | .arith op l r => (l.eval look).bind fun v => (r.eval look).bind fun w => op.apply v w := by
  cases f with
  | literal v => rw [Formula.eval]
  | «attribute» name field =>
    cases found : look name with
    | none => simp only [Formula.eval, found]
    | some cell => cases field <;> simp only [Formula.eval, found]
  | not f | neg f | pos f | compare f chain =>
    rw [Formula.eval]
    dsimp only
    cases f.eval look <;> rfl
  | and l r | or l r | arith op l r =>
    rw [Formula.eval]
    dsimp only
    cases l.eval look with
    | error fault => rfl
    | ok v => cases r.eval look <;> rfl

theorem eval_attribute (name : String) (field : Option String) :
    (Formula.attribute name field).eval look =
      match look name with
      | none => .error (.unknownAttribute name)
      | some cell =>
        match field with
        | none => .ok (.ofCell cell)
        | some field => (Scalar.ofCell cell).field field := eval_eq_steps look _

theorem eval_not (f : Formula) :
    (Formula.not f).eval look = (f.eval look).map fun v => .bool (!v.truth) := eval_eq_steps look _

theorem eval_neg (f : Formula) : (Formula.neg f).eval look = (f.eval look).bind Scalar.neg :=
  eval_eq_steps look _

theorem eval_pos (f : Formula) : (Formula.pos f).eval look = (f.eval look).bind Scalar.pos :=
  eval_eq_steps look _

theorem eval_and (l r : Formula) :
    (Formula.and l r).eval look = (l.eval look).bind fun v =>
      if v.truth then (r.eval look).map fun w => .bool w.truth else .ok (.bool false) :=
  eval_eq_steps look _

theorem eval_or (l r : Formula) :
    (Formula.or l r).eval look = (l.eval look).bind fun v =>
      if v.truth then .ok (.bool true) else (r.eval look).map fun w => .bool w.truth :=
  eval_eq_steps look _

theorem eval_compare (f : Formula) (chain : Chain) :
    (Formula.compare f chain).eval look = (f.eval look).bind (chain.eval look) := eval_eq_steps look _

theorem eval_arith (op : Arithmetic) (l r : Formula) :
    (Formula.arith op l r).eval look = (l.eval look).bind fun v =>
      (r.eval look).bind fun w => op.apply v w := eval_eq_steps look _

theorem eval_link (op : Comparison) (f : Formula) (rest : Chain) (left : Scalar) :
    (Chain.link op f rest).eval look left = (f.eval look).bind fun right =>
      (op.test left right).bind fun holds =>
        if holds then rest.eval look right else .ok (.bool false) := by
  rw [Chain.eval]
  cases f.eval look with
  | error fault => rfl
  | ok right =>
    simp only [Except.bind]
    cases op.test left right with
    | error fault => rfl
    | ok b => cases b <;> rfl

end Steps

/-! ## The names in faults -/

def Fault.rename (g : String → String) : Fault → Fault
  | .unknownAttribute name => .unknownAttribute (g name)
  | fault => fault

@[simp] theorem Fault.kind_rename (g : String → String) (fault : Fault) :
    (fault.rename g).kind = fault.kind := by
  cases fault <;> rfl

theorem Fault.rename_id (fault : Fault) : fault.rename id = fault := by
  cases fault <;> rfl

section Results

variable {α β : Type} (g : String → String)

theorem mapError_map (x : Except Fault α) (f : α → β) :
    (x.map f).mapError (Fault.rename g) = (x.mapError (Fault.rename g)).map f := by
  cases x <;> rfl

theorem mapError_bind (x : Except Fault α) (f : α → Except Fault β) :
    (x.bind f).mapError (Fault.rename g) =
      (x.mapError (Fault.rename g)).bind fun a => (f a).mapError (Fault.rename g) := by
  cases x <;> rfl

theorem mapError_rename_id (x : Except Fault α) : x.mapError (Fault.rename id) = x := by
  cases x with
  | error fault => exact congrArg Except.error fault.rename_id
  | ok a => rfl

def Nameless (x : Except Fault α) : Prop := ∀ name, x ≠ .error (.unknownAttribute name)

theorem Nameless.mapError {x : Except Fault α} (h : Nameless x) :
    x.mapError (Fault.rename g) = x := by
  cases x with
  | ok a => rfl
  | error fault =>
    cases fault with
    | unknownAttribute name => exact absurd rfl (h name)
    | _ => rfl

end Results

/-! ### Operations on scalars blame no attribute -/

theorem nameless_field (s : Scalar) (field : String) : Nameless (s.field field) := by
  intro name h
  unfold Scalar.field at h
  split at h <;> cases h

theorem nameless_neg (s : Scalar) : Nameless s.neg := by
  intro name h
  unfold Scalar.neg at h
  split at h
  · cases h
  · split at h <;> cases h
  · cases h

theorem nameless_pos (s : Scalar) : Nameless s.pos := by
  intro name h
  unfold Scalar.pos at h
  split at h <;> cases h

theorem nameless_test (op : Comparison) (a b : Scalar) : Nameless (op.test a b) := by
  intro name h
  unfold Comparison.test at h
  split at h
  · cases h
  · cases op <;> cases h

namespace Arithmetic

variable (op : Arithmetic)

theorem nameless_fit (n : Int) : Nameless (op.fit n) := by
  intro name h
  unfold fit at h
  split at h <;> cases h

theorem nameless_shift (d : Date) (days : Int) : Nameless (op.shift d days) := by
  intro name h
  unfold shift at h
  split at h <;> cases h

theorem nameless_onWhole (a b : Int64) : Nameless (op.onWhole a b) := by
  intro name h
  cases op with
  | add | sub | mul => exact nameless_fit _ _ name h
  | div =>
    simp only [onWhole] at h
    split at h <;> cases h
  | floorDiv =>
    simp only [onWhole] at h
    split at h
    · cases h
    · exact nameless_fit _ _ name h
  | rem =>
    simp only [onWhole] at h
    split at h
    · cases h
    · split at h
      · exact nameless_fit _ _ name h
      · cases h

theorem nameless_onFloat (a b : Binary64) : Nameless (op.onFloat a b) := by
  intro name h
  cases op with
  | add | sub | mul => cases h
  | div | floorDiv | rem =>
    simp only [onFloat] at h
    split at h <;> cases h

theorem nameless_onNumbers (a b : Scalar) : Nameless (op.onNumbers a b) := by
  intro name h
  unfold onNumbers at h
  split at h
  · exact nameless_onWhole op _ _ name h
  · exact nameless_onFloat op _ _ name h
  · cases h

theorem nameless_onDate (d : Date) (a b days : Scalar) (sign : Int) :
    Nameless (op.onDate d a b days sign) := by
  intro name h
  unfold onDate at h
  split at h
  · exact nameless_shift op _ _ name h
  · cases h

theorem nameless_apply (a b : Scalar) : Nameless (op.apply a b) := by
  intro name h
  unfold apply at h
  split at h
  · cases h
  · cases h
  · exact nameless_onDate _ _ _ _ _ _ name h
  · exact nameless_onDate _ _ _ _ _ _ name h
  · exact nameless_onDate _ _ _ _ _ _ name h
  · exact nameless_onNumbers _ _ _ name h

end Arithmetic

end RelationalAlgebra.Predicate
