import Mathlib.Data.List.Chain
import RelationalAlgebra.Proofs.Predicate.Clauses
import RelationalAlgebra.Proofs.Predicate.Spelling
import RelationalAlgebra.Proofs.Query.Brackets
/-!
# Where predicates end

The scanner that looks for the end of a parameter knows nothing of predicates.  On a text that is a list of
lexemes it does what could be done with their tokens: it asks whether the token before a parenthesis is one
after which a predicate goes on.  It errs in one case alone, that of a number with `and`, `or` or `not` right
behind it, which it takes for one word.  Of any other predicate that can be read nothing is cut off.
-/

namespace RelationalAlgebra.Predicate

open Query (Quotation)
open Query.Token (skim isComplete Whole)

/-! ## Tokens and what follows them -/

def Token.isConnective : Token → Bool
  | .keyword .and | .keyword .or | .keyword .not => true
  | _ => false

def Token.goesOn : Token → Bool
  | .symbol .openParen | .symbol .closeParen | .symbol .dot => false
  | .symbol _ => true
  | t => t.isConnective

/-- The parentheses that are open after a token.  None is closed that is not open, and where the text
before is complete none is opened outside of others. -/
def Token.depthAfter (complete : Bool) (depth : Nat) (t : Token) : Option Nat :=
  if t = .symbol .openParen then if depth = 0 ∧ complete = true then none else some (depth + 1)
  else if t = .symbol .closeParen then if depth = 0 then none else some (depth - 1)
  else some depth

/-- Whether a text is complete after some tokens, and the parentheses that are open there. -/
def Token.follow (complete : Bool) (depth : Nat) : List Token → Option (Bool × Nat)
  | [] => some (complete, depth)
  | t :: ts => (t.depthAfter complete depth).bind fun depth => follow (!t.goesOn) depth ts

theorem follow_append (b : Bool) (d : Nat) (ts us : List Token) :
    Token.follow b d (ts ++ us) = (Token.follow b d ts).bind fun r => Token.follow r.1 r.2 us := by
  induction ts generalizing b d with
  | nil => rfl
  | cons t ts ih => simp only [List.cons_append, Token.follow, ih, Option.bind_assoc]

theorem follow_cons {t : Token} (h : t ≠ .symbol .openParen ∧ t ≠ .symbol .closeParen) (b : Bool)
    (d : Nat) (ts : List Token) : Token.follow b d (t :: ts) = Token.follow (!t.goesOn) d ts := by
  rw [Token.follow, Token.depthAfter, if_neg h.1, if_neg h.2]
  rfl

/-! ## Predicates that can be read -/

/-- Where a phrase can stand: a formula where the text is not complete, or inside of parentheses, and the
rest of a comparison where it is. -/
def Phrase.Ready (complete : Bool) (depth : Nat) : Phrase → Prop
  | .formula _ _ => complete = false ∨ 0 < depth
  | .chain _ => complete = true

theorem goesOn_of_modify? {level : Level} {t : Token} {modify : Formula → Formula}
    (h : level.modify? t = some modify) : t.goesOn = true := by
  unfold Level.modify? at h
  split at h <;> first | rfl | cases h

theorem goesOn_of_join? {level : Level} {t : Token} {join : Formula → Formula → Formula}
    (h : level.join? t = some join) : t.goesOn = true := by
  unfold Level.join? at h
  split at h <;> first | rfl | cases h

theorem goesOn_of_comparison {t : Token} {op : Comparison} (h : Comparison.ofToken? t = some op) :
    t.goesOn = true := by
  unfold Comparison.ofToken? at h
  split at h <;> first | rfl | cases h

theorem not_paren_of_goesOn {t : Token} (h : t.goesOn = true) :
    t ≠ .symbol .openParen ∧ t ≠ .symbol .closeParen := by
  refine ⟨?_, ?_⟩
  all_goals
    rintro rfl
    cases h

theorem constant_not_goesOn {t : Token} {v : Scalar} (h : Scalar.ofToken? t = some v) :
    t.goesOn = false ∧ t ≠ .symbol .openParen ∧ t ≠ .symbol .closeParen := by
  cases t with
  | keyword k =>
    cases k with
    | «true» | «false» => exact ⟨rfl, by simp, by simp⟩
    | and | or | not => cases h
  | name n => cases h
  | symbol s => cases h
  | int | float | text => exact ⟨rfl, by simp, by simp⟩

/-- A phrase is complete at its end and opens no parenthesis where it is complete before. -/
theorem follow_of_derives {ts : List Token} {p : Phrase} (h : Derives ts p) {b : Bool} {d : Nat}
    (ready : p.Ready b d) : Token.follow b d ts = some (true, d) := by
  induction h generalizing b d with
  | literal constant =>
    obtain ⟨ends, paren⟩ := constant_not_goesOn constant
    rw [follow_cons paren, ends]
    rfl
  | bare name => rfl
  | field name field => rfl
  | @parens ts f inner ih =>
    have opens : (Token.symbol .openParen).depthAfter b d = some (d + 1) := by
      rw [Token.depthAfter, if_pos rfl, if_neg]
      rintro ⟨rfl, rfl⟩
      exact ready.elim Bool.noConfusion (Nat.lt_irrefl 0)
    have inside : (Phrase.formula .disjunction f).Ready true (d + 1) := .inr (Nat.succ_pos d)
    rw [List.cons_append, Token.follow, opens, Option.bind_some, follow_append]
    rw [show (!(Token.symbol .openParen).goesOn) = true from rfl, ih inside]
    rfl
  | loosen _ _ _ ih => exact ih ready
  | modified modifier _ ih =>
    have goesOn := goesOn_of_modify? modifier
    rw [follow_cons (not_paren_of_goesOn goesOn), goesOn]
    exact ih (.inl rfl)
  | joined operator _ _ ihl ihr =>
    have goesOn := goesOn_of_join? operator
    rw [follow_append, ihl ready, Option.bind_some, follow_cons (not_paren_of_goesOn goesOn), goesOn]
    exact ihr (.inl rfl)
  | compared _ _ ihf ihc =>
    rw [follow_append, ihf ready, Option.bind_some]
    exact ihc rfl
  | done =>
    rw [show b = true from ready]
    rfl
  | link operator _ _ ihf ihc =>
    have goesOn := goesOn_of_comparison operator
    rw [List.cons_append, follow_cons (not_paren_of_goesOn goesOn), goesOn, Bool.not_true,
      follow_append, ihf (.inl rfl), Option.bind_some]
    exact ihc rfl

/-! ## Quotes in lexemes -/

/-- A quotation ends with a text and not before. -/
structure Closes (q : Quotation) (w : List Char) : Prop where
  closed : w.foldl Quotation.next q = .outside
  before : ∀ u v, w = u ++ v → v ≠ [] → u.foldl Quotation.next q ≠ .outside

theorem Closes.cons {q : Quotation} {c : Char} {w : List Char} (quoted : q ≠ .outside)
    (h : Closes (q.next c) w) : Closes q (c :: w) := by
  refine ⟨h.closed, fun u v split ne => ?_⟩
  cases u with
  | nil => exact quoted
  | cons x u =>
    obtain ⟨rfl, rest⟩ := List.cons.inj split
    exact h.before u v rest ne

theorem Closes.last {q : Quotation} {c : Char} (quoted : q ≠ .outside) (ends : q.next c = .outside) :
    Closes q [c] := .cons quoted ⟨ends, fun u v split ne => by simp_all⟩

theorem closes_literal {quote : Char} {w content : List Char}
    (h : Lexeme.literal? quote w = some (content, w.length)) : Closes (.inside quote) w := by
  generalize hr : (content, w.length) = r at h
  fun_induction Lexeme.literal? quote w generalizing content r with
  | case1 => cases h
  | case2 c cs ih =>
    obtain ⟨⟨text, n⟩, later, rfl⟩ := Option.map_eq_some_iff.mp h
    obtain ⟨-, length⟩ := Prod.mk.inj hr
    obtain rfl : cs.length = n := by simpa using length
    have escaped : Quotation.next (.inside quote) '\\' = .escaped quote := rfl
    refine .cons (by simp) ?_
    rw [escaped]
    exact .cons (by simp) (ih _ rfl later)
  | case3 => cases h
  | case4 cs _ notEscape =>
    obtain rfl := Option.some.inj h
    obtain ⟨-, length⟩ := Prod.mk.inj hr
    obtain rfl : cs = [] := by simpa using length
    exact .last (by simp) (by simp [Quotation.next, notEscape])
  | case5 c cs _ notEscape notQuote ih =>
    obtain ⟨⟨text, n⟩, later, rfl⟩ := Option.map_eq_some_iff.mp h
    obtain ⟨-, length⟩ := Prod.mk.inj hr
    obtain rfl : cs.length = n := by simpa using length
    have inside : Quotation.next (.inside quote) c = .inside quote := by
      simp [Quotation.next, notEscape, notQuote]
    refine .cons (by simp) ?_
    rw [inside]
    exact ih _ rfl later

/-- Inside of quotes parentheses do not count. -/
theorem skim_quoted {q : Quotation} {w : List Char} (h : Closes q w) (d : Nat) (seen : List Char) :
    skim q d seen w = some (.outside, d) := by
  induction w generalizing q seen with
  | nil =>
    rw [show q = .outside from h.closed]
    rfl
  | cons c w ih =>
    have quoted : q ≠ .outside := h.before [] (c :: w) rfl (by simp)
    rw [Query.Token.skim_cons (fun ends => quoted ends.1), Query.Token.depthAfter_quoted quoted]
    exact ih ⟨h.closed, fun u v split ne => h.before (c :: u) v (congrArg (c :: ·) split) ne⟩ _

theorem word_not_paren (w : List Char) :
    Lexeme.word w ≠ .symbol .openParen ∧ Lexeme.word w ≠ .symbol .closeParen := by
  unfold Lexeme.word
  dsimp only
  split <;> simp

theorem depthAfter_of_not_paren {t : Token} (h : t ≠ .symbol .openParen ∧ t ≠ .symbol .closeParen)
    (b : Bool) (d : Nat) : t.depthAfter b d = some d := by
  rw [Token.depthAfter, if_neg h.1, if_neg h.2]

/-- The scanner follows a lexeme as its token says. -/
theorem skim_spelled {token : Token} {body rest : List Char} (h : Spelled token body rest) (d : Nat)
    (seen : List Char) : skim .outside d seen body =
      (token.depthAfter (isComplete seen) d).map fun d => (.outside, d) := by
  cases h with
  | @word c w _ start parts ends =>
    have plain : ∀ x ∈ c :: w, x ≠ '(' ∧ x ≠ ')' ∧ x ≠ '\'' ∧ x ≠ '"' :=
      List.forall_mem_cons.mpr
        ⟨Name.plain_of_isPart (Name.isPart_of_isStart start), fun x hx => Name.plain_of_isPart (parts x hx)⟩
    rw [Query.Token.skim_of_plain plain, depthAfter_of_not_paren (word_not_paren _)]
    rfl
  | number isNumber digits last =>
    have plain : ∀ x ∈ body, x ≠ '(' ∧ x ≠ ')' ∧ x ≠ '\'' ∧ x ≠ '"' := by
      intro x hx
      rcases digits x hx with digit | rfl
      · exact Name.plain_of_isPart (Name.isPart_of_isDigit digit)
      · decide
    have notParen : token ≠ .symbol .openParen ∧ token ≠ .symbol .closeParen := by
      refine ⟨?_, ?_⟩
      all_goals
        rintro rfl
        cases isNumber
    rw [Query.Token.skim_of_plain plain, depthAfter_of_not_paren notParen]
    rfl
  | @literal quote w content _ isQuote closes =>
    have inside : Quotation.next .outside quote = .inside quote := by
      rcases isQuote with rfl | rfl <;> rfl
    have notParen : quote ≠ '(' ∧ quote ≠ ')' := by
      rcases isQuote with rfl | rfl <;> decide
    rw [Query.Token.skim_cons fun ends => notParen.1 ends.2.1, Query.Token.depthAfter_other notParen,
      Option.bind_some, inside, skim_quoted (closes_literal closes), depthAfter_of_not_paren (by simp)]
    rfl
  | @symbol s _ _ spelling =>
    by_cases isOpen : s = .openParen
    · subst isOpen
      obtain rfl : body = ['('] := by simpa [Symbol.spellings] using spelling
      by_cases ends : d = 0 ∧ isComplete seen = true
      · have stops : Query.Token.Ends .outside d seen '(' := ⟨rfl, rfl, ends⟩
        rw [skim, if_pos stops]
        simp [Token.depthAfter, ends]
      · have goes : ¬Query.Token.Ends .outside d seen '(' := fun stops => ends stops.2.2
        simp [skim, goes, Token.depthAfter, ends, Query.Token.depthAfter_open, Quotation.next]
    · by_cases isClose : s = .closeParen
      · subst isClose
        obtain rfl : body = [')'] := by simpa [Symbol.spellings] using spelling
        have goes : ¬Query.Token.Ends .outside d seen ')' := fun stops => by cases stops.2.1
        cases d with
        | zero => simp [skim, goes, Token.depthAfter, Query.Token.depthAfter]
        | succ d => simp [skim, goes, Token.depthAfter, Query.Token.depthAfter, Quotation.next]
      · have plain : ∀ x ∈ body, x ≠ '(' ∧ x ≠ ')' ∧ x ≠ '\'' ∧ x ≠ '"' := by
          have all : ∀ s : Symbol, s ≠ .openParen → s ≠ .closeParen → ∀ body ∈ s.spellings, ∀ x ∈ body,
              x ≠ '(' ∧ x ≠ ')' ∧ x ≠ '\'' ∧ x ≠ '"' := by
            intro s
            cases s <;> decide
          exact all s isOpen isClose body spelling
        rw [Query.Token.skim_of_plain plain, depthAfter_of_not_paren (by simp [isOpen, isClose])]
        rfl

/-! ## Complete texts -/

theorem goesOn_word (w : List Char) :
    (Lexeme.word w).goesOn = ["and", "or", "not"].contains (String.ofList w) := by
  unfold Lexeme.word
  dsimp only
  generalize String.ofList w = word
  by_cases connective : word = "and" ∨ word = "or" ∨ word = "not"
  · rcases connective with rfl | rfl | rfl <;> rfl
  · have other : ["and", "or", "not"].contains word = false := by simpa using connective
    rw [other]
    simp only [not_or] at connective
    unfold Keyword.ofWord?
    split
    · next k h =>
      split at h
      · exact absurd rfl connective.1
      · exact absurd rfl connective.2.1
      · exact absurd rfl connective.2.2
      · obtain rfl := Option.some.inj h
        rfl
      · obtain rfl := Option.some.inj h
        rfl
      · cases h
    · rfl

theorem isComplete_word {w before : List Char} (ne : w ≠ []) (parts : ∀ x ∈ w, Name.isPart x = true) :
    isComplete (w.reverse ++ before) = !(["and", "or", "not"].contains
      (String.ofList (w.reverse ++ before.takeWhile Name.isPart).reverse)) := by
  have reversed : ∀ x ∈ w.reverse, Name.isPart x = true := fun x hx => parts x (List.mem_reverse.mp hx)
  have word : (w.reverse ++ before).takeWhile Name.isPart = w.reverse ++ before.takeWhile Name.isPart :=
    List.takeWhile_append_of_pos reversed
  obtain ⟨c, r, heq⟩ := List.exists_cons_of_ne_nil (List.reverse_ne_nil_iff.mpr ne)
  rw [heq] at reversed word ⊢
  have part := reversed c (List.mem_cons_self ..)
  have notBlank : Text.isBlank c = false := Name.isBlank_of_isPart part
  have notContinuing : Query.Token.continuing.contains c = false := by
    by_contra continuing
    have none : ∀ x ∈ Query.Token.continuing, Name.isPart x = false := by decide
    rw [none c (by simpa using continuing)] at part
    cases part
  rw [List.cons_append] at word ⊢
  rw [isComplete, List.dropWhile_cons_of_neg (by simp [notBlank])]
  simp only [notContinuing, word, Bool.not_false, Bool.true_and]

/-- A word with a digit in it is no connective. -/
theorem not_connective_of_digit {w : List Char} {x : Char} (mem : x ∈ w)
    (digit : Text.isDigit x = true) : ["and", "or", "not"].contains (String.ofList w) = false := by
  by_contra connective
  rw [Bool.not_eq_false, List.contains_iff_mem] at connective
  have letters : ∀ word ∈ ["and", "or", "not"], ∀ c ∈ word.toList, Text.isDigit c = false := by decide
  have none := letters _ connective x (by rwa [String.toList_ofList])
  rw [digit] at none
  cases none

theorem isComplete_of_not_part {c : Char} (blank : Text.isBlank c = false)
    (part : Name.isPart c = false) (before : List Char) :
    isComplete (c :: before) = !Query.Token.continuing.contains c := by
  rw [isComplete, List.dropWhile_cons_of_neg (by simp [blank])]
  simp [part]

theorem goesOn_of_isNumber {t : Token} (h : t.isNumber = true) : t.goesOn = false := by
  cases t <;> first | rfl | cases h

theorem isConnective_word (w : List Char) :
    (Lexeme.word w).isConnective = (Lexeme.word w).goesOn := by
  unfold Lexeme.word
  dsimp only
  split <;> rfl

/-- What a lexeme can stand right behind: a word stands behind no other one, but it can behind a number. -/
def Meets (before body : List Char) : Prop :=
  ∀ x ∈ before.head?, Name.isPart x = true → body.head?.any Name.isStart = true → Text.isDigit x = true

/-- A text is complete after a lexeme as its token says, unless that is a connective behind a digit, which is
taken for the end of a word. -/
theorem isComplete_spelled {token : Token} {body rest before : List Char} (h : Spelled token body rest)
    (meets : Meets before body) : isComplete (body.reverse ++ before) =
      (before.head?.any Text.isDigit && token.isConnective || !token.goesOn) := by
  cases h with
  | @word c w _ start parts ends =>
    have all : ∀ x ∈ c :: w, Name.isPart x = true :=
      List.forall_mem_cons.mpr ⟨Name.isPart_of_isStart start, parts⟩
    rw [isComplete_word (List.cons_ne_nil c w) all, isConnective_word]
    cases before with
    | nil =>
      rw [goesOn_word, List.takeWhile_nil, List.append_nil, List.reverse_reverse]
      rfl
    | cons x before =>
      rw [List.head?_cons, Option.any_some]
      by_cases part : Name.isPart x = true
      · have digit := meets x rfl part start
        rw [not_connective_of_digit (x := x) (by simp [part]) digit, digit]
        simp
      · have noDigit : Text.isDigit x = false := by
          by_contra digit
          exact part (Name.isPart_of_isDigit (by simpa using digit))
        rw [List.takeWhile_cons_of_neg part, List.append_nil, List.reverse_reverse, goesOn_word, noDigit]
        rfl
  | number isNumber digits last =>
    obtain ⟨d, hd, digit⟩ := last
    obtain ⟨front, rfl⟩ := List.getLast?_eq_some_iff.mp (Option.mem_def.mp hd)
    have part : ∀ x ∈ [d], Name.isPart x = true := by simpa using Name.isPart_of_isDigit digit
    have word := @isComplete_word [d] (front.reverse ++ before) (List.cons_ne_nil d []) part
    rw [not_connective_of_digit (x := d) (by simp) digit] at word
    rw [goesOn_of_isNumber isNumber, List.reverse_append, List.append_assoc, Bool.not_false, Bool.or_true]
    exact word
  | @literal quote w content _ isQuote closes =>
    have last := Lexeme.getLast?_literal? closes
    rw [List.take_length] at last
    obtain ⟨front, rfl⟩ := List.getLast?_eq_some_iff.mp last
    have ends : Text.isBlank quote = false ∧ Name.isPart quote = false ∧
        Query.Token.continuing.contains quote = false := by
      rcases isQuote with rfl | rfl <;> decide
    rw [← List.cons_append, List.reverse_append, List.append_assoc, List.reverse_singleton,
      List.singleton_append, isComplete_of_not_part ends.1 ends.2.1, ends.2.2]
    exact (Bool.or_true _).symm
  | @symbol s _ _ spelling =>
    have last : ∃ c ∈ body.getLast?, Text.isBlank c = false ∧ Name.isPart c = false ∧
        Query.Token.continuing.contains c = (Token.symbol s).goesOn := by
      have all : ∀ s : Symbol, ∀ body ∈ s.spellings, ∃ c ∈ body.getLast?, Text.isBlank c = false ∧
          Name.isPart c = false ∧ Query.Token.continuing.contains c = (Token.symbol s).goesOn := by
        intro s
        cases s <;> simp [Symbol.spellings] <;> decide
      exact all s body spelling
    obtain ⟨c, hc, blank, part, goesOn⟩ := last
    obtain ⟨front, rfl⟩ := List.getLast?_eq_some_iff.mp (Option.mem_def.mp hc)
    rw [List.reverse_append, List.append_assoc, List.reverse_singleton, List.singleton_append,
      isComplete_of_not_part blank part, goesOn, show (Token.symbol s).isConnective = false from rfl,
      Bool.and_false, Bool.false_or]

/-! ## Texts of lexemes -/

def Tile.Apart (s t : Tile) : Prop :=
  s.token.isNumber = true → t.token.isConnective = true → t.gap ≠ []

def Tile.isGlued (number : Bool) (t : Tile) : Bool := number && t.gap.isEmpty && t.token.isConnective

theorem Tile.isGlued_eq_false_iff {s t : Tile} : t.isGlued s.token.isNumber = false ↔ s.Apart t := by
  rw [isGlued, Apart]
  cases s.token.isNumber <;> cases t.token.isConnective <;> simp

/-- Whether a text is complete after some tiles, and the parentheses that are open there, as the scanner has
it: behind a connective that touches a number it takes the text for complete. -/
def Tile.follow (number complete : Bool) (depth : Nat) : List Tile → Option (Bool × Nat)
  | [] => some (complete, depth)
  | t :: ts => (t.token.depthAfter complete depth).bind fun depth =>
      follow t.token.isNumber (t.isGlued number || !t.token.goesOn) depth ts

/-- How a tile can stand behind a text, and whether it is glued to it. -/
structure Tile.Behind (number : Bool) (seen : List Char) (t : Tile) : Prop where
  meets : Meets (t.gap.reverse ++ seen) t.body
  glued : ((t.gap.reverse ++ seen).head?.any Text.isDigit && t.token.isConnective) = t.isGlued number

theorem Tile.behind_gap {t : Tile} (ne : t.gap ≠ []) (blank : ∀ c ∈ t.gap, Text.isBlank c = true)
    (number : Bool) (seen : List Char) : t.Behind number seen := by
  obtain ⟨g, r, heq⟩ := List.exists_cons_of_ne_nil (List.reverse_ne_nil_iff.mpr ne)
  have mem : g ∈ t.gap := List.mem_reverse.mp (heq ▸ List.mem_cons_self ..)
  have noPart : Name.isPart g = false := Name.isPart_of_isBlank (blank g mem)
  have noDigit : Text.isDigit g = false := by
    by_contra digit
    rw [Name.isPart_of_isDigit (by simpa using digit)] at noPart
    cases noPart
  have some : t.gap.isEmpty = false := by simpa using ne
  refine ⟨fun x hx part => ?_, ?_⟩
  · rw [heq] at hx
    obtain rfl := Option.some.inj hx
    rw [noPart] at part
    cases part
  · rw [heq, isGlued, some]
    simp [noDigit]

/-- The first tile of a text is glued to nothing. -/
theorem Tile.behind_nil {t : Tile} (blank : ∀ c ∈ t.gap, Text.isBlank c = true) : t.Behind false [] := by
  by_cases none : t.gap = []
  · refine ⟨fun x hx => ?_, ?_⟩
    · rw [none] at hx
      cases hx
    · rw [none]
      rfl
  · exact behind_gap none blank false []

/-- Only numbers and words end as a word could go on, and behind a word there is no other. -/
theorem spelled_last {token : Token} {body rest : List Char} (h : Spelled token body rest) {x : Char}
    (last : body.getLast? = some x) (part : Name.isPart x = true) :
    (token.isNumber = true ∧ Text.isDigit x = true) ∨ rest.head?.any Name.isPart = false := by
  have absurdly {y : Char} (hy : body.getLast? = some y) (h : Name.isPart y = false) : False := by
    rw [last] at hy
    rw [← Option.some.inj hy, part] at h
    cases h
  cases h with
  | word start parts ends => exact .inr ends
  | number isNumber digits ends =>
    obtain ⟨d, hd, digit⟩ := ends
    rw [Option.mem_def.mp hd] at last
    rw [← Option.some.inj last]
    exact .inl ⟨isNumber, digit⟩
  | @literal quote w content _ isQuote closes =>
    have ends := Lexeme.getLast?_literal? closes
    rw [List.take_length] at ends
    refine (absurdly (y := quote) ?_ ?_).elim
    · rw [List.getLast?_cons, ends]
      rfl
    · rcases isQuote with rfl | rfl <;> decide
  | @symbol s _ _ spelling =>
    have all : ∀ s : Symbol, ∀ body ∈ s.spellings, ∀ c ∈ body, Name.isPart c = false := by
      intro s
      cases s <;> decide
    exact (absurdly last (all s body spelling x (List.mem_of_getLast? last))).elim

theorem isDigit_of_isNumber {token : Token} {body rest : List Char} (h : Spelled token body rest)
    (isNumber : token.isNumber = true) : ∃ x, body.getLast? = some x ∧ Text.isDigit x = true := by
  cases h with
  | word start parts ends =>
    unfold Lexeme.word at isNumber
    dsimp only at isNumber
    split at isNumber <;> cases isNumber
  | number isNumber digits last =>
    obtain ⟨x, hx, digit⟩ := last
    exact ⟨x, hx, digit⟩
  | literal => cases isNumber
  | symbol => cases isNumber

theorem isStart_of_isConnective {token : Token} {body rest : List Char} (h : Spelled token body rest)
    (connective : token.isConnective = true) : body.head?.any Name.isStart = true := by
  cases h with
  | word start parts ends => exact start
  | number isNumber => cases token <;> first | cases connective | cases isNumber
  | literal => cases connective
  | symbol => cases connective

theorem Tile.behind_next {s t : Tile} {rest : List Char} {tiles : List Tile}
    (spelled : Spelled s.token s.body rest) (ne : s.body ≠ []) (tiling : Tiling rest (t :: tiles))
    (before : List Char) : t.Behind s.token.isNumber (s.body.reverse ++ before) := by
  cases tiling with
  | @tile gap v rest' b token _ blank begins later =>
    by_cases none : gap = []
    · subst none
      obtain ⟨x, last⟩ : ∃ x, s.body.getLast? = some x := ⟨_, List.getLast?_eq_some_getLast ne⟩
      have head : ([].reverse ++ (s.body.reverse ++ before)).head? = some x := by
        rw [List.reverse_nil, List.nil_append, List.head?_append_of_ne_nil _ (by simpa using ne),
          ← List.getLast?_eq_head?_reverse, last]
      have goes (start : Name.isStart b = true) (part : Name.isPart x = true) :
          s.token.isNumber = true ∧ Text.isDigit x = true := by
        refine (spelled_last spelled last part).resolve_right fun ends => ?_
        rw [List.nil_append, List.cons_append, List.head?_cons, Option.any_some,
          Name.isPart_of_isStart start] at ends
        cases ends
      refine ⟨fun y hy part start => ?_, ?_⟩
      · rw [head] at hy
        obtain rfl := Option.some.inj hy
        exact (goes start part).2
      · rw [head, Tile.isGlued, Option.any_some]
        cases connective : token.isConnective with
        | false => simp
        | true =>
          have start : Name.isStart b = true := isStart_of_isConnective begins.spelled connective
          have same : Text.isDigit x = s.token.isNumber := by
            rw [Bool.eq_iff_iff]
            constructor
            · exact fun digit => (goes start (Name.isPart_of_isDigit digit)).1
            · intro isNumber
              obtain ⟨y, hy, digit⟩ := isDigit_of_isNumber spelled isNumber
              rwa [Option.some.inj (last.symm.trans hy)]
          simp [same]
    · exact Tile.behind_gap none blank _ _

/-- The scanner follows the tiles of a text. -/
theorem skim_tiling {text : List Char} {tiles : List Tile} (h : Tiling text tiles) {number : Bool}
    {seen : List Char} (d : Nat) (behind : ∀ t ∈ tiles.head?, t.Behind number seen) :
    skim .outside d seen text =
        (Tile.follow number (isComplete seen) d tiles).map (fun r => (.outside, r.2)) ∧
      ∀ r, Tile.follow number (isComplete seen) d tiles = some r →
        isComplete (text.reverse ++ seen) = r.1 := by
  induction h generalizing number seen d with
  | @blanks cs blank =>
    refine ⟨Query.Token.skim_of_plain (fun c hc => Query.Token.plain_of_isBlank (blank c hc)) d seen, ?_⟩
    rintro r h
    rw [← Option.some.inj h]
    exact Query.Token.isComplete_blanks (fun c hc => blank c (List.mem_reverse.mp hc)) seen
  | @tile gap w rest c token tiles blank begins tiling ih =>
    have spelled := begins.spelled
    obtain ⟨meets, glued⟩ := behind _ rfl
    have blanks : ∀ c ∈ gap.reverse, Text.isBlank c = true := fun c hc => blank c (List.mem_reverse.mp hc)
    have complete := isComplete_spelled spelled meets
    have next : ∀ t ∈ tiles.head?,
        t.Behind token.isNumber ((c :: w).reverse ++ (gap.reverse ++ seen)) := by
      intro t ht
      obtain ⟨tiles', rfl⟩ := List.head?_eq_some_iff.mp (Option.mem_def.mp ht)
      exact Tile.behind_next (s := ⟨gap, c :: w, token⟩) spelled (List.cons_ne_nil c w) tiling _
    have through : skim .outside d seen gap = some (.outside, d) :=
      Query.Token.skim_of_plain (fun c hc => Query.Token.plain_of_isBlank (blank c hc)) d seen
    have same := Query.Token.isComplete_blanks blanks seen
    have step := skim_spelled spelled d (gap.reverse ++ seen)
    rw [same] at step
    have split : skim .outside d seen (gap ++ (c :: w ++ rest)) =
        ((token.depthAfter (isComplete seen) d).map fun d => (Quotation.outside, d)).bind fun r =>
          skim r.1 r.2 ((c :: w).reverse ++ (gap.reverse ++ seen)) rest := by
      rw [Query.Token.skim_append, through, Option.bind_some, Query.Token.skim_append, step]
    rw [split, Tile.follow]
    cases token.depthAfter (isComplete seen) d with
    | none => exact ⟨rfl, fun r h => by cases h⟩
    | some k =>
      obtain ⟨others, ends⟩ := ih k next
      rw [complete, glued] at others ends
      refine ⟨others, fun r h => ?_⟩
      rw [← ends r h]
      simp only [List.reverse_append, List.append_assoc]

/-- A text of lexemes is a whole parameter if its tiles say so. -/
theorem whole_iff_follow_tiles {text : List Char} {tiles : List Tile} (h : Tiling text tiles) :
    Whole text ↔ Tile.follow false false 0 tiles = some (true, 0) := by
  have behind : ∀ t ∈ tiles.head?, t.Behind false [] := by
    intro t ht
    cases h with
    | blanks => cases ht
    | tile blank begins tiling =>
      obtain rfl := Option.some.inj ht
      exact Tile.behind_nil blank
  obtain ⟨through, complete⟩ := skim_tiling h 0 behind
  rw [List.append_nil] at complete
  constructor
  · intro whole
    rw [whole.through] at through
    obtain ⟨⟨b, d⟩, followed, heq⟩ := Option.map_eq_some_iff.mp through.symm
    have ends := complete _ followed
    rw [whole.complete] at ends
    obtain rfl : d = 0 := (Prod.mk.inj heq).2
    exact followed.trans (by rw [ends])
  · intro followed
    rw [show isComplete [] = false from rfl, followed] at through
    exact ⟨through, complete _ followed⟩

theorem follow_of_apart {tiles : List Tile} (apart : tiles.IsChain Tile.Apart) {number : Bool}
    (first : ∀ t ∈ tiles.head?, t.isGlued number = false) (complete : Bool) (depth : Nat) :
    Tile.follow number complete depth tiles = Token.follow complete depth (tiles.map Tile.token) := by
  induction tiles generalizing number complete depth with
  | nil => rfl
  | cons t ts ih =>
    obtain ⟨next, later⟩ := List.isChain_cons.mp apart
    rw [Tile.follow, List.map_cons, Token.follow, first t rfl, Bool.false_or]
    refine Option.bind_congr fun d _ => ih later (fun u hu => ?_) _ d
    exact Tile.isGlued_eq_false_iff.mpr (next u hu)

/-- A text of lexemes is a whole parameter if its tokens say so, as long as no connective touches a number. -/
theorem whole_iff_follow {text : List Char} {tiles : List Tile} (h : Tiling text tiles)
    (apart : tiles.IsChain Tile.Apart) :
    Whole text ↔ Token.follow false 0 (tiles.map Tile.token) = some (true, 0) := by
  rw [whole_iff_follow_tiles h, follow_of_apart apart fun t _ => rfl]

end RelationalAlgebra.Predicate
