import RelationalAlgebra.Query.Lexer
import RelationalAlgebra.Query.Parameter
import RelationalAlgebra.Query.Tree
/-!
# Reading queries

The last infix operator of a list of tokens is its outermost one, so the tokens before it are its left
operand and those after it its right operand.  An operand is the name of a relation, a group, or an
operator with its parameter before one of these.
-/

namespace RelationalAlgebra.Query

inductive ReadFault where
  | lex (fault : LexFault)
  | parse (fault : ParseFault)
deriving DecidableEq

/-- What stands before the last element that satisfies a test, what it passes on, and what stands
after it. -/
def splitLast {α β : Type} (p : α → Option β) : List α → Option (List α × β × List α)
  | [] => none
  | a :: as =>
    match splitLast p as with
    | some (before, b, after) => some (a :: before, b, after)
    | none => (p a).map fun b => ([], b, as)

theorem eq_append_of_splitLast {α β : Type} {p : α → Option β} {as before after : List α} {b : β}
    (h : splitLast p as = some (before, b, after)) :
    ∃ a, as = before ++ a :: after ∧ p a = some b := by
  induction as generalizing before with
  | nil => simp [splitLast] at h
  | cons a as ih =>
    simp only [splitLast] at h
    split at h
    · next hs =>
      obtain ⟨rfl, rfl, rfl⟩ : _ ∧ _ ∧ _ := by simpa using h
      obtain ⟨x, hx, hp⟩ := ih hs
      exact ⟨x, by simp [hx], hp⟩
    · obtain ⟨b', hb, he⟩ := Option.map_eq_some_iff.mp h
      obtain ⟨rfl, rfl, rfl⟩ : _ ∧ _ ∧ _ := by simpa using he
      exact ⟨a, rfl, hb⟩

namespace Tree

theorem sizeOf_append_cons (before after : List Token) (t : Token) :
    sizeOf before < sizeOf (before ++ t :: after) ∧
      sizeOf after < sizeOf (before ++ t :: after) := by
  have positive : 0 < sizeOf t := by
    cases t <;>
      simp only [Token.relation.sizeOf_spec, Token.binary.sizeOf_spec, Token.unary.sizeOf_spec,
        Token.parameter.sizeOf_spec, Token.unknown.sizeOf_spec, Token.group.sizeOf_spec] <;>
      omega
  induction before with
  | nil => simp; omega
  | cons b before ih => simp at ih ⊢; omega

/-- A selection takes any predicate but the empty one; the other parameters have to be well formed. -/
def checkParameter (op : Unary) (parameter : String) : Except ParseFault Unit :=
  match op with
  | .selection => if parameter = "" then .error .emptyPredicate else .ok ()
  | .projection => (Projection.ofText? parameter).map fun _ => ()
  | .rename => (Renaming.ofText? parameter).map fun _ => ()

def ofTokens? (ts : List Token) : Except ParseFault Tree :=
  match ts.findSome? Token.unknown? with
  | some text => .error (.unknownSymbol text)
  | none =>
    match ts with
    | [] => .error .noTokens
    | [.group inner] => if inner.isEmpty then .error .emptyGroup else ofTokens? inner
    | [.relation name] =>
      if Name.isValid name then .ok (.relation name) else .error (.badRelationName name)
    | ts =>
      match _h : splitLast Token.binary? ts with
      | some (before, op, after) =>
        if before.isEmpty then .error (.missingLeft op)
        else if after.isEmpty then .error (.missingRight op)
        else
          match ofTokens? before with
          | .error fault => .error fault
          | .ok left => (ofTokens? after).map (.binary op left)
      | none =>
        match _h : splitLast Token.unary? ts with
        | some (before, op, after) =>
          if before.isEmpty then
            match after with
            | .parameter parameter :: [] => .error (.missingOperand op parameter)
            | .parameter parameter :: [operand] =>
              match checkParameter op parameter with
              | .error fault => .error fault
              | .ok () => (ofTokens? [operand]).map (.unary op parameter)
            | .parameter parameter :: _ :: rest =>
              .error (.surplus op parameter (Token.writeAll rest))
            | _ => .error (.missingParameter op)
          else .error (.unexpectedBefore (Token.writeAll before) op)
        | none => .error (.unparsable (Token.writeAll ts))
termination_by sizeOf ts
decreasing_by
  · simp; omega
  · obtain ⟨t, rfl, _⟩ := eq_append_of_splitLast _h
    exact (sizeOf_append_cons _ _ t).1
  · obtain ⟨t, rfl, _⟩ := eq_append_of_splitLast _h
    exact (sizeOf_append_cons _ _ t).2
  · obtain ⟨t, rfl, _⟩ := eq_append_of_splitLast _h
    have := (sizeOf_append_cons before [Token.parameter parameter, operand] t).2
    simp at this ⊢
    omega

def ofText? (text : String) : Except ReadFault Tree :=
  match Token.ofText? text with
  | .error fault => .error (.lex fault)
  | .ok ts =>
    if ts.isEmpty then .error (.parse .emptyText)
    else (ofTokens? ts).mapError .parse

end Tree

end RelationalAlgebra.Query
