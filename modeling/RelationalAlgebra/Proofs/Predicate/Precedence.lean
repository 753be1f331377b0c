import RelationalAlgebra.Proofs.Predicate.Grammar
/-!
# The levels of precedence

The grammar of predicates with its eight levels written out, from the loosest operator to the tightest,
without the tables of the reader.  `or`, `and`, `+`, `-`, `*`, `/`, `//` and `%` associate to the left,
`not` and the signs stand before their operand, and comparisons form chains.  It derives what the
reader's own grammar derives, so it is what the reader accepts, and it is not ambiguous.
-/

namespace RelationalAlgebra.Predicate

def Comparison.sign : Comparison → Symbol
  | equal => .equal
  | notEqual => .notEqual
  | less => .less
  | lessEqual => .lessEqual
  | greater => .greater
  | greaterEqual => .greaterEqual

mutual

/-- `or` between formulas. -/
inductive IsDisjunction : List Token → Formula → Prop
  | conjunction {ts : List Token} {f : Formula} (h : IsConjunction ts f) : IsDisjunction ts f
  | or {ls rs : List Token} {l r : Formula} (left : IsDisjunction ls l) (right : IsConjunction rs r) :
      IsDisjunction (ls ++ .keyword .or :: rs) (.or l r)

inductive IsConjunction : List Token → Formula → Prop
  | negation {ts : List Token} {f : Formula} (h : IsNegation ts f) : IsConjunction ts f
  | and {ls rs : List Token} {l r : Formula} (left : IsConjunction ls l) (right : IsNegation rs r) :
      IsConjunction (ls ++ .keyword .and :: rs) (.and l r)

inductive IsNegation : List Token → Formula → Prop
  | comparison {ts : List Token} {f : Formula} (h : IsComparison ts f) : IsNegation ts f
  | not {ts : List Token} {f : Formula} (h : IsNegation ts f) :
      IsNegation (.keyword .not :: ts) (.not f)

/-- A sum, or a chain of comparisons between sums. -/
inductive IsComparison : List Token → Formula → Prop
  | sum {ts : List Token} {f : Formula} (h : IsSum ts f) : IsComparison ts f
  | chain {ts cs : List Token} {f : Formula} {c : Chain} (first : IsSum ts f) (others : IsChain cs c) :
      IsComparison (ts ++ cs) (.compare f c)

/-- One or more comparisons, each with its right operand. -/
inductive IsChain : List Token → Chain → Prop
  | last {ts : List Token} {f : Formula} (op : Comparison) (operand : IsSum ts f) :
      IsChain (.symbol op.sign :: ts) (.link op f .nil)
  | link {ts cs : List Token} {f : Formula} {c : Chain} (op : Comparison) (operand : IsSum ts f)
      (others : IsChain cs c) : IsChain (.symbol op.sign :: ts ++ cs) (.link op f c)

inductive IsSum : List Token → Formula → Prop
  | product {ts : List Token} {f : Formula} (h : IsProduct ts f) : IsSum ts f
  | add {ls rs : List Token} {l r : Formula} (left : IsSum ls l) (right : IsProduct rs r) :
      IsSum (ls ++ .symbol .plus :: rs) (.arith .add l r)
  | sub {ls rs : List Token} {l r : Formula} (left : IsSum ls l) (right : IsProduct rs r) :
      IsSum (ls ++ .symbol .minus :: rs) (.arith .sub l r)

inductive IsProduct : List Token → Formula → Prop
  | signed {ts : List Token} {f : Formula} (h : IsSigned ts f) : IsProduct ts f
  | mul {ls rs : List Token} {l r : Formula} (left : IsProduct ls l) (right : IsSigned rs r) :
      IsProduct (ls ++ .symbol .star :: rs) (.arith .mul l r)
  | div {ls rs : List Token} {l r : Formula} (left : IsProduct ls l) (right : IsSigned rs r) :
      IsProduct (ls ++ .symbol .slash :: rs) (.arith .div l r)
  | floorDiv {ls rs : List Token} {l r : Formula} (left : IsProduct ls l) (right : IsSigned rs r) :
      IsProduct (ls ++ .symbol .doubleSlash :: rs) (.arith .floorDiv l r)
  | rem {ls rs : List Token} {l r : Formula} (left : IsProduct ls l) (right : IsSigned rs r) :
      IsProduct (ls ++ .symbol .percent :: rs) (.arith .rem l r)

inductive IsSigned : List Token → Formula → Prop
  | atom {ts : List Token} {f : Formula} (h : IsAtom ts f) : IsSigned ts f
  | neg {ts : List Token} {f : Formula} (h : IsSigned ts f) : IsSigned (.symbol .minus :: ts) (.neg f)
  | pos {ts : List Token} {f : Formula} (h : IsSigned ts f) : IsSigned (.symbol .plus :: ts) (.pos f)

/-- A literal, an attribute, which may have a field, or a formula in parentheses. -/
inductive IsAtom : List Token → Formula → Prop
  | int (v : Int64) : IsAtom [.int v] (.literal (.int v))
  | float (v : Binary64) : IsAtom [.float v] (.literal (.float v))
  | text (s : String) : IsAtom [.text s] (.literal (.text s))
  | true : IsAtom [.keyword .true] (.literal (.bool true))
  | false : IsAtom [.keyword .false] (.literal (.bool false))
  | attribute (name : String) : IsAtom [.name name] (.attribute name none)
  | field (name field : String) :
      IsAtom [.name name, .symbol .dot, .name field] (.attribute name (some field))
  | parens {ts : List Token} {f : Formula} (h : IsDisjunction ts f) :
      IsAtom (.symbol .openParen :: ts ++ [.symbol .closeParen]) f

end

/-! ## The same derivations -/

theorem IsChain.chained_eq {ts : List Token} {c : Chain} (h : IsChain ts c) (f : Formula) :
    Formula.chained f c = .compare f c := by
  cases h <;> rfl

theorem Comparison.ofToken?_sign (op : Comparison) : ofToken? (.symbol op.sign) = some op := by
  cases op <;> rfl

theorem Comparison.eq_of_ofToken? {t : Token} {op : Comparison} (h : ofToken? t = some op) :
    t = .symbol op.sign := by
  unfold ofToken? at h
  split at h <;> cases h <;> rfl

mutual

theorem IsDisjunction.derives {ts : List Token} {f : Formula} :
    IsDisjunction ts f → Derives ts (.formula .disjunction f)
  | .conjunction h => .loosen (by decide) (by decide) h.derives
  | .or left right => @Derives.joined .disjunction _ _ _ _ _ _ rfl left.derives right.derives

theorem IsConjunction.derives {ts : List Token} {f : Formula} :
    IsConjunction ts f → Derives ts (.formula .conjunction f)
  | .negation h => .loosen (by decide) (by decide) h.derives
  | .and left right => @Derives.joined .conjunction _ _ _ _ _ _ rfl left.derives right.derives

theorem IsNegation.derives {ts : List Token} {f : Formula} :
    IsNegation ts f → Derives ts (.formula .negation f)
  | .comparison h => .loosen (by decide) (by decide) h.derives
  | .not h => @Derives.modified .negation _ _ _ _ rfl h.derives

theorem IsComparison.derives {ts : List Token} {f : Formula} :
    IsComparison ts f → Derives ts (.formula .comparison f)
  | .sum h => by simpa [Formula.chained] using Derives.compared h.derives .done
  | .chain first others => by
    have whole := Derives.compared first.derives others.derives
    rwa [others.chained_eq] at whole

theorem IsChain.derives {ts : List Token} {c : Chain} : IsChain ts c → Derives ts (.chain c)
  | .last op operand => by
    simpa using Derives.link op.ofToken?_sign operand.derives .done
  | .link op operand others => .link op.ofToken?_sign operand.derives others.derives

theorem IsSum.derives {ts : List Token} {f : Formula} : IsSum ts f → Derives ts (.formula .sum f)
  | .product h => .loosen (by decide) (by decide) h.derives
  | .add left right | .sub left right =>
    @Derives.joined .sum _ _ _ _ _ _ rfl left.derives right.derives

theorem IsProduct.derives {ts : List Token} {f : Formula} :
    IsProduct ts f → Derives ts (.formula .product f)
  | .signed h => .loosen (by decide) (by decide) h.derives
  | .mul left right | .div left right | .floorDiv left right | .rem left right =>
    @Derives.joined .product _ _ _ _ _ _ rfl left.derives right.derives

theorem IsSigned.derives {ts : List Token} {f : Formula} :
    IsSigned ts f → Derives ts (.formula .sign f)
  | .atom h => .loosen (by decide) (by decide) h.derives
  | .neg h | .pos h => @Derives.modified .sign _ _ _ _ rfl h.derives

theorem IsAtom.derives {ts : List Token} {f : Formula} : IsAtom ts f → Derives ts (.formula .atom f)
  | .int _ | .float _ | .text _ | .true | .false => .literal rfl
  | .attribute name => .bare name
  | .field name field => .field name field
  | .parens h => .parens h.derives

end

/-- The tokens and the formula or the chain that a level derives. -/
def Stratified (ts : List Token) : Phrase → Prop
  | .formula .disjunction f => IsDisjunction ts f
  | .formula .conjunction f => IsConjunction ts f
  | .formula .negation f => IsNegation ts f
  | .formula .comparison f => IsComparison ts f
  | .formula .sum f => IsSum ts f
  | .formula .product f => IsProduct ts f
  | .formula .sign f => IsSigned ts f
  | .formula .atom f => IsAtom ts f
  | .chain c => ts = [] ∧ c = .nil ∨ IsChain ts c

section Levels

variable {level : Level} {t : Token} {ts ls rs : List Token} {f l r : Formula}

theorem isAtom_of_constant {v : Scalar} (h : Scalar.ofToken? t = some v) : IsAtom [t] (.literal v) := by
  cases t with
  | int n =>
    obtain rfl := Option.some.inj h
    exact .int n
  | float x =>
    obtain rfl := Option.some.inj h
    exact .float x
  | text s =>
    obtain rfl := Option.some.inj h
    exact .text s
  | keyword k =>
    cases k with
    | «true» =>
      obtain rfl := Option.some.inj h
      exact .true
    | «false» =>
      obtain rfl := Option.some.inj h
      exact .false
    | and | or | not => cases h
  | name n => cases h
  | symbol s => cases h

theorem Stratified.loosen (inner : level ≠ .atom) (other : level ≠ .comparison)
    (h : Stratified ts (.formula level.tighter f)) : Stratified ts (.formula level f) := by
  cases level with
  | disjunction => exact .conjunction h
  | conjunction => exact .negation h
  | negation => exact .comparison h
  | comparison => exact absurd rfl other
  | sum => exact .product h
  | product => exact .signed h
  | sign => exact .atom h
  | atom => exact absurd rfl inner

theorem Stratified.modified {modify : Formula → Formula} (modifier : level.modify? t = some modify)
    (h : Stratified ts (.formula level f)) : Stratified (t :: ts) (.formula level (modify f)) := by
  unfold Level.modify? at modifier
  split at modifier <;> cases modifier
  · exact .not h
  · exact .neg h
  · exact .pos h

theorem Stratified.joined {join : Formula → Formula → Formula} (operator : level.join? t = some join)
    (left : Stratified ls (.formula level l)) (right : Stratified rs (.formula level.tighter r)) :
    Stratified (ls ++ t :: rs) (.formula level (join l r)) := by
  unfold Level.join? at operator
  split at operator <;> cases operator
  · exact .or left right
  · exact .and left right
  · exact .add left right
  · exact .sub left right
  · exact .mul left right
  · exact .floorDiv left right
  · exact .div left right
  · exact .rem left right

end Levels

theorem stratified_of_derives {ts : List Token} {p : Phrase} (h : Derives ts p) : Stratified ts p := by
  induction h with
  | literal constant => exact isAtom_of_constant constant
  | bare name => exact .attribute name
  | field name field => exact .field name field
  | parens inner ih => exact .parens ih
  | loosen inner other tight ih => exact ih.loosen inner other
  | modified modifier operand ih => exact ih.modified modifier
  | joined operator left right ihl ihr => exact ihl.joined operator ihr
  | compared first others ihf iho =>
    rcases iho with ⟨rfl, rfl⟩ | chain
    · rw [List.append_nil]
      exact IsComparison.sum ihf
    · rw [chain.chained_eq]
      exact .chain ihf chain
  | done => exact .inl ⟨rfl, rfl⟩
  | link operator operand others iho ihc =>
    obtain rfl := Comparison.eq_of_ofToken? operator
    rcases ihc with ⟨rfl, rfl⟩ | chain
    · rw [List.append_nil]
      exact .inr (.last _ iho)
    · exact .inr (.link _ iho chain)

theorem derives_iff_isDisjunction {ts : List Token} {f : Formula} :
    Derives ts (.formula .disjunction f) ↔ IsDisjunction ts f :=
  ⟨stratified_of_derives, IsDisjunction.derives⟩

/-- The grammar is not ambiguous. -/
theorem IsDisjunction.unique {ts : List Token} {f g : Formula} (hf : IsDisjunction ts f)
    (hg : IsDisjunction ts g) : f = g := by
  -- the reader gives one formula, and the places of the lexemes do not matter to it
  let placed : List Lexeme := ts.map fun t => ⟨t, 0, 0⟩
  have tokens : placed.map Lexeme.token = ts := by simp [placed, Function.comp_def]
  have read {h : Formula} (derived : IsDisjunction ts h) : Formula.ofLexemes? placed = .ok h := by
    rw [ofLexemes?_eq_ok_iff, tokens]
    exact derived.derives
  exact Except.ok.inj ((read hf).symm.trans (read hg))

/-- A text is read as a formula exactly when it has lexemes whose tokens derive that formula, and no list
of tokens derives two formulas. -/
theorem formulas_are_read_by_grammar (text : List Char) (f : Formula) :
    (Formula.ofText? text = .ok f ↔
        ∃ ls, Lexeme.scan text = .ok ls ∧ IsDisjunction (ls.map Lexeme.token) f) ∧
      ∀ ts g h, IsDisjunction ts g → IsDisjunction ts h → g = h := by
  refine ⟨?_, fun ts g h hg hh => hg.unique hh⟩
  have read : Formula.ofText? text = (Lexeme.scan text).bind Formula.ofLexemes? := by
    unfold Formula.ofText?
    cases Lexeme.scan text <;> rfl
  rw [read, bind_eq_ok]
  exact exists_congr fun ls => and_congr_right fun _ =>
    ofLexemes?_eq_ok_iff.trans derives_iff_isDisjunction

def layered : List Char := "not -a.b // 2 < x + 1 <= 3 or p and (q or r)".toList

def layeredFormula : Formula :=
  .or
    (.not (.compare (.arith .floorDiv (.neg (.attribute "a" (some "b"))) (.literal (.int 2)))
      (.link .less (.arith .add (.attribute "x" none) (.literal (.int 1)))
        (.link .lessEqual (.literal (.int 3)) .nil))))
    (.and (.attribute "p" none) (.or (.attribute "q" none) (.attribute "r" none)))

theorem layered_is_derived_once : ∃ ls, Lexeme.scan layered = .ok ls ∧
    ∀ g, IsDisjunction (ls.map Lexeme.token) g ↔ g = layeredFormula := by
  have read : Formula.ofText? layered = .ok layeredFormula := by decide +kernel
  obtain ⟨whole, unique⟩ := formulas_are_read_by_grammar layered layeredFormula
  obtain ⟨ls, lexes, derived⟩ := whole.mp read
  refine ⟨ls, lexes, fun g => ⟨fun other => unique _ g _ other derived, ?_⟩⟩
  rintro rfl
  exact derived

end RelationalAlgebra.Predicate
