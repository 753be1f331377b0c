import RelationalAlgebra.Name.Map
import RelationalAlgebra.Predicate.Formula.Reading
/-!
# Clauses of predicates

Work on the text of predicates that keeps what the author wrote: the names in it, their renaming, the
parts that a conjunction has, and the text of a conjunction and of a negation.
-/

namespace RelationalAlgebra.Predicate

structure Clause where
  source : String
  formula : Formula
deriving DecidableEq

def Clause.ofText? (text : String) : Except Fault Clause :=
  (Formula.ofText? text.toList).map fun f => ⟨Text.trimmed text, f⟩

namespace Lexeme

/-- The lexemes that are names of attributes: the names that follow no point. -/
def attributesFrom (afterDot : Bool) : List Lexeme → List (String × Lexeme)
  | [] => []
  | t :: ts =>
    let rest := attributesFrom (t.isSymbol .dot) ts
    match t.token with
    | .name n => if afterDot then rest else (n, t) :: rest
    | _ => rest

/-- The text with the names replaced that `image` maps; `offset` is where the text starts. -/
def splice (image : String → Option String) (offset : Nat) (text : List Char) :
    List (String × Lexeme) → List Char
  | [] => text
  | (name, t) :: rest =>
    match image name with
    | some new =>
      Text.takeBytes (t.start - offset) text ++ new.toList ++
        splice image t.stop (Text.dropBytes (t.stop - offset) text) rest
    | none => splice image offset text rest

def depthAfter (depth : Nat) (t : Lexeme) : Nat :=
  if t.isSymbol .openParen then depth + 1
  else if t.isSymbol .closeParen then depth - 1
  else depth

def hasTop (k : Keyword) (depth : Nat) : List Lexeme → Bool
  | [] => false
  | t :: ts =>
    let depth := depthAfter depth t
    (depth = 0 && t.isKeyword k) || hasTop k depth ts

/-- The stretches between the occurrences of a keyword outside of all parentheses. -/
def splitTop (k : Keyword) (depth : Nat) : List Lexeme → List (List Lexeme)
  | [] => [[]]
  | t :: ts =>
    let depth := depthAfter depth t
    let parts := splitTop k depth ts
    if depth = 0 && t.isKeyword k then [] :: parts
    else
      match parts with
      | [] => [[t]]
      | part :: parts => (t :: part) :: parts

def closesAtEnd (depth : Nat) : List Lexeme → Bool
  | [] => false
  | t :: ts =>
    let depth := depthAfter depth t
    if depth = 0 then ts.isEmpty else closesAtEnd depth ts

def enclosed : List Lexeme → Bool
  | [] => false
  | t :: ts => t.isSymbol .openParen && closesAtEnd 1 ts

theorem ne_nil_of_enclosed {ts : List Lexeme} (h : enclosed ts = true) : ts ≠ [] := by
  rintro rfl
  simp [enclosed] at h

def dropParens (ts : List Lexeme) : List Lexeme :=
  if enclosed ts then dropParens ts.tail.dropLast else ts
termination_by ts.length
decreasing_by
  next h =>
    have := List.length_pos_iff.mpr (ne_nil_of_enclosed h)
    simp only [List.length_dropLast, List.length_tail]
    omega

theorem length_dropParens_le (ts : List Lexeme) : (dropParens ts).length ≤ ts.length := by
  fun_induction dropParens ts with
  | case1 ts h ih => simp only [List.length_dropLast, List.length_tail] at ih; omega
  | case2 ts h => exact Nat.le_refl _

theorem splitTop_ne_nil (k : Keyword) (depth : Nat) (ts : List Lexeme) :
    splitTop k depth ts ≠ [] := by
  cases ts with
  | nil => simp [splitTop]
  | cons t ts =>
    simp only [splitTop]
    split
    · simp
    · split <;> simp

theorem length_splitTop (k : Keyword) (depth : Nat) (ts : List Lexeme) :
    (splitTop k depth ts).flatten.length + (splitTop k depth ts).length = ts.length + 1 := by
  induction ts generalizing depth with
  | nil => simp [splitTop]
  | cons t ts ih =>
    have := ih (depthAfter depth t)
    simp only [splitTop]
    split
    · simp only [List.flatten_cons, List.length_append, List.length_nil, List.length_cons]
      omega
    · split
      · next h => exact absurd h (splitTop_ne_nil _ _ _)
      · next h =>
        simp only [h, List.flatten_cons, List.length_append, List.length_cons] at this ⊢
        omega

theorem length_le_of_mem_flatten {part : List Lexeme} {parts : List (List Lexeme)} (h : part ∈ parts) :
    part.length ≤ parts.flatten.length := by
  induction parts with
  | nil => simp at h
  | cons p ps ih =>
    simp only [List.flatten_cons, List.length_append]
    rcases List.mem_cons.mp h with rfl | h
    · omega
    · have := ih h
      omega

theorem length_lt_of_mem_splitTop {k : Keyword} {depth : Nat} {ts part : List Lexeme}
    (several : 1 < (splitTop k depth ts).length) (h : part ∈ splitTop k depth ts) :
    part.length < ts.length := by
  have total := length_splitTop k depth ts
  have := length_le_of_mem_flatten h
  omega

def cover (text : List Char) (ts : List Lexeme) : List Char :=
  match ts, ts.getLast? with
  | t :: _, some last => Text.slice t.start last.stop text
  | _, _ => []

/-- The texts of the conjuncts of a stretch of lexemes.  Enclosing parentheses are dropped and nested
conjunctions are taken apart; a disjunction is one conjunct. -/
def conjuncts (text : List Char) (ts : List Lexeme) : List String :=
  let inner := dropParens ts
  if inner.isEmpty then []
  else if hasTop .or 0 inner || (splitTop .and 0 inner).length ≤ 1 then
    [String.ofList (cover text inner)]
  else (splitTop .and 0 inner).attach.flatMap fun part => conjuncts text part.1
termination_by ts.length
decreasing_by
  next h =>
    simp only [Bool.or_eq_true, decide_eq_true_eq, not_or, Nat.not_le] at h
    exact Nat.lt_of_lt_of_le (length_lt_of_mem_splitTop h.2 part.2) (length_dropParens_le ts)

end Lexeme

/-- The names of the attributes in a text, sorted, each once. -/
def attributeNames (text : String) : Except Fault (List String) :=
  (Lexeme.scan text.toList).map fun ts =>
    Name.sorted ((Lexeme.attributesFrom false ts).map Prod.fst)

def renameAttributes (text : String) (names : Renaming) : Except Fault String :=
  (Lexeme.scan text.toList).map fun ts =>
    String.ofList (Lexeme.splice names.get? 0 text.toList (Lexeme.attributesFrom false ts))

def conjuncts (text : String) : Except Fault (List String) :=
  match Formula.ofText? text.toList with
  | .error fault => .error fault
  | .ok _ => (Lexeme.scan text.toList).map (Lexeme.conjuncts text.toList)

/-- Whether a text has an `or` outside of all parentheses, or is no list of lexemes at all. -/
def hasTopOr (text : String) : Bool :=
  match Lexeme.scan text.toList with
  | .ok ts => Lexeme.hasTop .or 0 ts
  | .error _ => true

/-- A conjunct among others: in parentheses where it needs them. -/
def guarded (text : String) : String :=
  let part := Text.trimmed text
  if hasTopOr part then "(" ++ part ++ ")" else part

def conjoin : List String → String
  | [single] => Text.trimmed single
  | parts => String.intercalate " and " (parts.map guarded)

def negation (text : String) : String := "not (" ++ Text.trimmed text ++ ")"

end RelationalAlgebra.Predicate
