import RelationalAlgebra.Name
import RelationalAlgebra.Query.Fault
import RelationalAlgebra.Query.Token
import RelationalAlgebra.Text.Blank
import RelationalAlgebra.Text.Offset
/-!
# Splitting queries into tokens

The parameter of an operator is free text, so its end has to be found: it ends before the first
parenthesis that opens where the parameter is complete, and a parameter is not complete at its start,
after a comma, after an operator of predicates and after `and`, `or` and `not`.  Parentheses inside
quotes do not count.
-/

namespace RelationalAlgebra.Query

/-- Where a character of a text stands with respect to quotes. -/
inductive Quotation where
  | outside
  | inside (quote : Char)
  | escaped (quote : Char)
deriving DecidableEq

def Quotation.next (q : Quotation) (c : Char) : Quotation :=
  match q with
  | outside => if c = '\'' || c = '"' then inside c else outside
  | inside quote => if c = '\\' then escaped quote else if c = quote then outside else inside quote
  | escaped quote => inside quote

namespace Token

/-- What stands before and after the parenthesis that closes the one open before the text; `depth`
more are open. -/
def closing? (q : Quotation) (depth : Nat) : List Char → Option (List Char × List Char)
  | [] => none
  | c :: cs =>
    let more (depth : Nat) :=
      (closing? (q.next c) depth cs).map fun (inner, rest) => (c :: inner, rest)
    if q = .outside then
      if c = '(' then more (depth + 1)
      else if c = ')' then
        match depth with
        | 0 => some ([], cs)
        | depth + 1 => more depth
      else more depth
    else more depth

def continuing : List Char := ['=', '!', '<', '>', '+', '-', '*', '/', '%', ',']

/-- Whether a parameter may end after the characters `seen`, the last of which comes first. -/
def isComplete (seen : List Char) : Bool :=
  match seen.dropWhile Text.isBlank with
  | [] => false
  | c :: cs =>
    let word := String.ofList ((c :: cs).takeWhile Name.isPart).reverse
    !continuing.contains c && !(["and", "or", "not"].contains word)

/-- The parameter at the start of a text, and the text after it.  The characters in `seen` belong to it
already, the last of them first; `depth` parentheses of it are open, the outermost at `opened`. -/
def parameter? (offset : Nat) (q : Quotation) (depth opened : Nat) (seen : List Char) :
    List Char → Except LexFault (List Char × List Char)
  | [] => if depth = 0 then .ok (seen.reverse, []) else .error (.unmatchedOpen opened)
  | c :: cs =>
    let more (depth opened : Nat) :=
      parameter? (offset + c.utf8Size) (q.next c) depth opened (c :: seen) cs
    if q = .outside then
      if c = '(' then
        if depth = 0 then
          if isComplete seen then .ok (seen.reverse, c :: cs) else more 1 offset
        else more (depth + 1) opened
      else if c = ')' then
        match depth with
        | 0 => .error (.unmatchedClose offset)
        | depth + 1 => more depth opened
      else more depth opened
    else more depth opened

theorem length_closing? {q : Quotation} {depth : Nat} {cs inner rest : List Char}
    (h : closing? q depth cs = some (inner, rest)) :
    inner.length + rest.length + 1 = cs.length := by
  induction cs generalizing q depth inner rest with
  | nil => simp [closing?] at h
  | cons c cs ih =>
    have step {q : Quotation} {depth : Nat}
        (h : (closing? q depth cs).map (fun (inner, rest) => (c :: inner, rest)) =
          some (inner, rest)) : inner.length + rest.length + 1 = (c :: cs).length := by
      obtain ⟨⟨i, r⟩, hi, he⟩ := Option.map_eq_some_iff.mp h
      obtain ⟨rfl, rfl⟩ := Prod.mk.inj he
      have := ih hi
      simp only [List.length_cons]
      omega
    simp only [closing?] at h
    split at h
    · split at h
      · exact step h
      · split at h
        · split at h
          · obtain ⟨rfl, rfl⟩ := Prod.mk.inj (Option.some.inj h)
            simp
          · exact step h
        · exact step h
    · exact step h

theorem length_parameter? {offset : Nat} {q : Quotation} {depth opened : Nat}
    {seen cs text rest : List Char}
    (h : parameter? offset q depth opened seen cs = .ok (text, rest)) :
    rest.length ≤ cs.length := by
  induction cs generalizing offset q depth opened seen with
  | nil =>
    simp only [parameter?] at h
    split at h
    · obtain ⟨rfl, rfl⟩ := Prod.mk.inj (Except.ok.inj h)
      exact Nat.le_refl _
    · cases h
  | cons c cs ih =>
    have step {offset : Nat} {q : Quotation} {depth opened : Nat} {seen : List Char}
        (h : parameter? offset q depth opened seen cs = .ok (text, rest)) :
        rest.length ≤ (c :: cs).length := Nat.le_succ_of_le (ih h)
    simp only [parameter?] at h
    split at h
    · split at h
      · split at h
        · split at h
          · obtain ⟨rfl, rfl⟩ := Prod.mk.inj (Except.ok.inj h)
            exact Nat.le_refl _
          · exact step h
        · exact step h
      · split at h
        · split at h
          · cases h
          · exact step h
        · exact step h
    · exact step h

def isUnknown (c : Char) : Bool :=
  !Text.isBlank c && c ≠ '(' && c ≠ ')' && !(Name.isPart c && c ≠ '_')

/-- The name, the operator or the unknown text that starts with `c`, and the number of its characters
after `c`. -/
def simple (c : Char) (cs : List Char) : Token × Nat :=
  match Binary.atStart? (c :: cs) with
  | some (op, n) => (.binary op, n - 1)
  | none =>
    if Name.isStart c then
      let tail := cs.takeWhile Name.isPart
      (.relation (String.ofList (c :: tail)), tail.length)
    else
      let tail := if isUnknown c then cs.takeWhile isUnknown else []
      (.unknown (String.ofList (c :: tail)), tail.length)

/-- The tokens of a text that starts at `offset`.  The text of a group has offsets of its own. -/
def scan (offset : Nat) (cs : List Char) : Except LexFault (List Token) :=
  match cs with
  | [] => .ok []
  | c :: cs =>
    let next := offset + c.utf8Size
    if Text.isBlank c then scan next cs
    else if c = '(' then
      match _h : closing? .outside 0 cs with
      | none => .error (.unmatchedOpen offset)
      | some (inner, rest) =>
        match scan 0 inner with
        | .error fault => .error fault
        | .ok ts => (scan (next + Text.byteSize inner + 1) rest).map (group ts :: ·)
    else if c = ')' then .error (.unmatchedClose offset)
    else
      match Unary.ofSymbol? c with
      | some op =>
        match _h : parameter? next .outside 0 0 [] cs with
        | .error fault => .error fault
        | .ok (text, rest) =>
          (scan (next + Text.byteSize text) rest).map fun ts =>
            unary op :: parameter (String.ofList (Text.trim text)) :: ts
      | none =>
        let (token, n) := simple c cs
        (scan (next + Text.byteSize (cs.take n)) (cs.drop n)).map (token :: ·)
termination_by cs.length
decreasing_by
  · simp
  · have := length_closing? _h
    simp only [List.length_cons]
    omega
  · have := length_closing? _h
    simp only [List.length_cons]
    omega
  · have := length_parameter? _h
    simp only [List.length_cons]
    omega
  · simp only [List.length_drop, List.length_cons]
    omega

def ofText? (text : String) : Except LexFault (List Token) := scan 0 text.toList

end Token

end RelationalAlgebra.Query
