import Mathlib.Tactic.Common
import RelationalAlgebra.Predicate.Formula.Reading
import RelationalAlgebra.Proofs.Outcome
/-!
# The grammar of predicates

The grammar as a relation between tokens and formulas, and the reader measured against it.  The reader
is sound and complete: it accepts a list of lexemes exactly when the grammar derives a formula from
their tokens, and it gives that formula.
-/

namespace RelationalAlgebra.Predicate

/-! ## Derivations -/

inductive Phrase where
  | formula (level : Level) (value : Formula)
  | chain (value : Chain)

inductive Derives : List Token → Phrase → Prop
  | literal {t : Token} {v : Scalar} (constant : Scalar.ofToken? t = some v) :
      Derives [t] (.formula .atom (.literal v))
  | bare (name : String) : Derives [.name name] (.formula .atom (.attribute name none))
  | field (name field : String) :
      Derives [.name name, .symbol .dot, .name field] (.formula .atom (.attribute name (some field)))
  | parens {ts : List Token} {f : Formula} (inner : Derives ts (.formula .disjunction f)) :
      Derives (.symbol .openParen :: ts ++ [.symbol .closeParen]) (.formula .atom f)
  | loosen {level : Level} {ts : List Token} {f : Formula} (inner : level ≠ .atom)
      (other : level ≠ .comparison) (tight : Derives ts (.formula level.tighter f)) :
      Derives ts (.formula level f)
  | modified {level : Level} {t : Token} {ts : List Token} {f : Formula}
      {modify : Formula → Formula} (modifier : level.modify? t = some modify)
      (operand : Derives ts (.formula level f)) : Derives (t :: ts) (.formula level (modify f))
  | joined {level : Level} {t : Token} {ls rs : List Token} {l r : Formula}
      {join : Formula → Formula → Formula} (operator : level.join? t = some join)
      (left : Derives ls (.formula level l)) (right : Derives rs (.formula level.tighter r)) :
      Derives (ls ++ t :: rs) (.formula level (join l r))
  | compared {ts cs : List Token} {f : Formula} {c : Chain}
      (first : Derives ts (.formula .sum f)) (others : Derives cs (.chain c)) :
      Derives (ts ++ cs) (.formula .comparison (Formula.chained f c))
  | done : Derives [] (.chain .nil)
  | link {t : Token} {op : Comparison} {ts cs : List Token} {f : Formula} {c : Chain}
      (operator : Comparison.ofToken? t = some op) (operand : Derives ts (.formula .sum f))
      (others : Derives cs (.chain c)) : Derives (t :: ts ++ cs) (.chain (.link op f c))

/-! ## The reader without its bounds -/

namespace Reading

def outcome {α : Type} {n : Nat} (r : Except Fault (Reading α n)) : Except Fault (α × List Lexeme) :=
  r.map fun r => (r.value, r.rest)

variable {α β : Type} {n m : Nat}

@[simp] theorem outcome_ok (value : α) (rest : List Lexeme) (h : rest.length < n) :
    outcome (.ok ⟨value, rest, h⟩ : Except Fault (Reading α n)) = .ok (value, rest) := rfl

@[simp] theorem outcome_error (fault : Fault) :
    outcome (.error fault : Except Fault (Reading α n)) = .error fault := rfl

@[simp] theorem outcome_widen (r : Except Fault (Reading α n)) (h : n ≤ m) :
    outcome (r.map (·.widen h)) = outcome r := by
  cases r <;> rfl

@[simp] theorem outcome_map_widen (f : α → β) (r : Except Fault (Reading α n)) (h : n ≤ m) :
    outcome (r.map fun r => (r.map f).widen h) = (outcome r).map fun p => (f p.1, p.2) := by
  cases r <;> rfl

theorem outcome_eq_ok {r : Except Fault (Reading α n)} {value : α} {rest : List Lexeme}
    (h : outcome r = .ok (value, rest)) : ∃ shorter, r = .ok ⟨value, rest, shorter⟩ := by
  cases r with
  | error fault => cases h
  | ok r =>
    obtain ⟨v, ts, shorter⟩ := r
    obtain ⟨rfl, rfl⟩ := Prod.mk.inj (Except.ok.inj h)
    exact ⟨shorter, rfl⟩

end Reading

open Reading (outcome)

namespace Formula

def parse (level : Level) (ts : List Lexeme) : Except Fault (Formula × List Lexeme) :=
  outcome (read level ts)

def parseOperands (level : Level) (h : level ≠ .atom) (left : Formula) (ts : List Lexeme) :
    Except Fault (Formula × List Lexeme) :=
  outcome (readOperands level h left ts)

def parseChain (ts : List Lexeme) : Except Fault (Chain × List Lexeme) := outcome (readChain ts)

end Formula

def Level.isModified : Level → Bool
  | negation | sign => true
  | _ => false

def Level.isJoined : Level → Bool
  | disjunction | conjunction | sum | product => true
  | _ => false

theorem Level.ne_atom_of_isJoined {level : Level} (h : level.isJoined = true) : level ≠ .atom := by
  rintro rfl
  cases h

namespace Formula

theorem parse_joined {level : Level} (h : level.isJoined = true) (ts : List Lexeme) :
    parse level ts = (parse level.tighter ts).bind fun p =>
      parseOperands level (Level.ne_atom_of_isJoined h) p.1 p.2 := by
  have unfolded : read level ts = readJoined level (Level.ne_atom_of_isJoined h) ts := by
    cases level <;> first | exact absurd h (by decide) | rw [read]
  rw [parse, unfolded, readJoined, parse]
  cases read level.tighter ts with
  | error fault => rfl
  | ok r => exact Reading.outcome_widen _ _

theorem parse_modified_nil {level : Level} (h : level.isModified = true) :
    parse level [] = parse level.tighter [] := by
  cases level <;> first | exact absurd h (by decide) | rw [parse, parse, read, readModified]

theorem parse_modified_cons {level : Level} (h : level.isModified = true) (t : Lexeme)
    (ts : List Lexeme) :
    parse level (t :: ts) =
      match level.modify? t.token with
      | some modify => (parse level ts).map fun p => (modify p.1, p.2)
      | none => parse level.tighter (t :: ts) := by
  have unfolded (ts : List Lexeme) :
      read level ts = readModified level (by rintro rfl; cases h) ts := by
    cases level <;> first | exact absurd h (by decide) | rw [read]
  rw [parse, unfolded, readModified]
  cases h : level.modify? t.token with
  | none => rfl
  | some modify => rw [Reading.outcome_map_widen, parse, unfolded]

theorem parse_comparison (ts : List Lexeme) :
    parse .comparison ts = (parse .sum ts).bind fun p =>
      (parseChain p.2).map fun q => (chained p.1 q.1, q.2) := by
  rw [parse, read, parse]
  cases read .sum ts with
  | error fault => rfl
  | ok r => exact Reading.outcome_map_widen _ _ _

theorem parseOperands_nil (level : Level) (h : level ≠ .atom) (left : Formula) :
    parseOperands level h left [] = .ok (left, []) := by
  rw [parseOperands, readOperands]
  rfl

theorem parseOperands_cons (level : Level) (h : level ≠ .atom) (left : Formula) (t : Lexeme)
    (ts : List Lexeme) :
    parseOperands level h left (t :: ts) =
      match level.join? t.token with
      | none => .ok (left, t :: ts)
      | some join => (parse level.tighter ts).bind fun p =>
          parseOperands level h (join left p.1) p.2 := by
  rw [parseOperands, readOperands]
  cases level.join? t.token with
  | none => rfl
  | some join =>
    rw [parse]
    cases read level.tighter ts with
    | error fault => rfl
    | ok r => exact Reading.outcome_widen _ _

theorem parseChain_nil : parseChain [] = .ok (.nil, []) := by
  rw [parseChain, readChain]
  rfl

theorem parseChain_cons (t : Lexeme) (ts : List Lexeme) :
    parseChain (t :: ts) =
      match Comparison.ofToken? t.token with
      | none => .ok (.nil, t :: ts)
      | some op => (parse .sum ts).bind fun p =>
          (parseChain p.2).map fun q => (.link op p.1 q.1, q.2) := by
  rw [parseChain, readChain]
  cases Comparison.ofToken? t.token with
  | none => rfl
  | some op =>
    rw [parse]
    cases read .sum ts with
    | error fault => rfl
    | ok r => exact Reading.outcome_map_widen _ _ _

theorem parse_literal {t : Lexeme} {v : Scalar} (h : Scalar.ofToken? t.token = some v)
    (ts : List Lexeme) : parse .atom (t :: ts) = .ok (.literal v, ts) := by
  rw [parse, read]
  simp only [h]
  rfl

theorem parse_name {t : Lexeme} {name : String} (h : t.token = .name name) (ts : List Lexeme) :
    parse .atom (t :: ts) = outcome (readField name ts) := by
  have notConstant : Scalar.ofToken? (.name name) = none := rfl
  rw [parse, read]
  simp only [h, notConstant]
  exact Reading.outcome_widen _ _

theorem parse_open {t : Lexeme} (h : t.token = .symbol .openParen) (ts : List Lexeme) :
    parse .atom (t :: ts) = (parse .disjunction ts).bind fun p =>
      match p.2 with
      | [] => .error (.unexpectedEnd .closeParen)
      | c :: after =>
        if c.isSymbol .closeParen then .ok (p.1, after)
        else .error (.unexpected c.token c.start .closeParen) := by
  have notConstant : Scalar.ofToken? (.symbol .openParen) = none := rfl
  rw [parse, read, parse]
  simp only [h, notConstant]
  cases read .disjunction ts with
  | error fault => rfl
  | ok r =>
    obtain ⟨f, after, shorter⟩ := r
    cases after with
    | nil => rfl
    | cons c after =>
      simp only [Reading.outcome_ok, Except.bind]
      split <;> rfl

end Formula

/-! ## Soundness -/

open Formula (parse parseOperands parseChain)

/-- The lexemes read, which stand before those left, derive the formula. -/
def SoundAt (level : Level) (ts : List Lexeme) : Prop :=
  ∀ f rest, parse level ts = .ok (f, rest) →
    ∃ used, ts = used ++ rest ∧ Derives (used.map Lexeme.token) (.formula level f)

def SoundOperands (level : Level) (h : level ≠ .atom) (left : Formula) (ts : List Lexeme) : Prop :=
  ∀ f rest, parseOperands level h left ts = .ok (f, rest) →
    ∀ before, Derives before (.formula level left) →
      ∃ used, ts = used ++ rest ∧ Derives (before ++ used.map Lexeme.token) (.formula level f)

def SoundChain (ts : List Lexeme) : Prop :=
  ∀ c rest, parseChain ts = .ok (c, rest) →
    ∃ used, ts = used ++ rest ∧ Derives (used.map Lexeme.token) (.chain c)

theorem soundAt_of_error {level : Level} {ts : List Lexeme} {fault : Fault}
    (h : parse level ts = .error fault) : SoundAt level ts := by
  intro f rest hp
  rw [h] at hp
  cases hp

theorem soundAt_parens {t c : Lexeme} {ts after : List Lexeme} {f : Formula}
    (ht : t.token = .symbol .openParen) (hc : c.isSymbol .closeParen = true)
    (hts : parse .disjunction ts = .ok (f, c :: after)) (ih : SoundAt .disjunction ts) :
    SoundAt .atom (t :: ts) := by
  intro g rest hp
  rw [Formula.parse_open ht, hts] at hp
  simp only [Except.bind, hc, if_true] at hp
  obtain ⟨rfl, rfl⟩ := Prod.mk.inj (Except.ok.inj hp)
  obtain ⟨used, rfl, derives⟩ := ih _ _ hts
  have hc : c.token = .symbol .closeParen := by simpa [Lexeme.isSymbol] using hc
  refine ⟨t :: used ++ [c], by simp, ?_⟩
  have := Derives.parens derives
  simpa [ht, hc] using this

theorem soundAt_name {t : Lexeme} {ts : List Lexeme} {name : String} (ht : t.token = .name name) :
    SoundAt .atom (t :: ts) := by
  intro f rest hp
  rw [Formula.parse_name ht] at hp
  unfold Formula.readField at hp
  split at hp
  · obtain ⟨rfl, rfl⟩ := Prod.mk.inj (Except.ok.inj hp)
    refine ⟨[t, _, _], rfl, ?_⟩
    simp only [List.map_cons, ht]
    exact .field _ _
  · cases hp
  · cases hp
  · obtain ⟨rfl, rfl⟩ := Prod.mk.inj (Except.ok.inj hp)
    refine ⟨[t], rfl, ?_⟩
    simp only [List.map_cons, List.map_nil, ht]
    exact .bare _

theorem soundAt_joined {level : Level} (hlevel : level.isJoined = true) {ts : List Lexeme}
    (tight : SoundAt level.tighter ts)
    (operands : ∀ f after, parse level.tighter ts = .ok (f, after) →
      SoundOperands level (Level.ne_atom_of_isJoined hlevel) f after) : SoundAt level ts := by
  intro f rest hp
  rw [Formula.parse_joined hlevel] at hp
  obtain ⟨⟨left, after⟩, hleft, hops⟩ := bind_eq_ok.mp hp
  obtain ⟨used, rfl, derives⟩ := tight _ _ hleft
  have loose := Derives.loosen (Level.ne_atom_of_isJoined hlevel) (by rintro rfl; cases hlevel) derives
  obtain ⟨more, rfl, derives⟩ := operands _ _ hleft _ _ hops _ loose
  exact ⟨used ++ more, by simp, by simpa using derives⟩

theorem soundOperands_join {level : Level} {h : level ≠ .atom} {left : Formula} {t : Lexeme}
    {ts : List Lexeme} {join : Formula → Formula → Formula}
    (operator : level.join? t.token = some join) (tight : SoundAt level.tighter ts)
    (operands : ∀ right after, parse level.tighter ts = .ok (right, after) →
      SoundOperands level h (join left right) after) : SoundOperands level h left (t :: ts) := by
  intro f rest hp before hbefore
  simp only [Formula.parseOperands_cons, operator] at hp
  obtain ⟨⟨right, after⟩, hright, hops⟩ := bind_eq_ok.mp hp
  obtain ⟨used, rfl, derives⟩ := tight _ _ hright
  obtain ⟨more, rfl, derives⟩ :=
    operands _ _ hright _ _ hops _ (Derives.joined operator hbefore derives)
  exact ⟨t :: used ++ more, by simp, by simpa using derives⟩

theorem soundOperands_stop {level : Level} {h : level ≠ .atom} {left : Formula} {ts : List Lexeme}
    (hp : parseOperands level h left ts = .ok (left, ts)) : SoundOperands level h left ts := by
  intro f rest hp' before derives
  rw [hp] at hp'
  obtain ⟨rfl, rfl⟩ := Prod.mk.inj (Except.ok.inj hp')
  exact ⟨[], rfl, by simpa using derives⟩

theorem soundChain_stop {ts : List Lexeme} (hp : parseChain ts = .ok (.nil, ts)) :
    SoundChain ts := by
  intro c rest hp'
  rw [hp] at hp'
  obtain ⟨rfl, rfl⟩ := Prod.mk.inj (Except.ok.inj hp')
  exact ⟨[], rfl, .done⟩

theorem soundChain_link {t : Lexeme} {ts : List Lexeme} {op : Comparison}
    (operator : Comparison.ofToken? t.token = some op) (sum : SoundAt .sum ts)
    (others : ∀ f after, parse .sum ts = .ok (f, after) → SoundChain after) :
    SoundChain (t :: ts) := by
  intro c rest hp
  simp only [Formula.parseChain_cons, operator] at hp
  obtain ⟨⟨f, after⟩, hf, hlinks⟩ := bind_eq_ok.mp hp
  obtain ⟨⟨chain, rest'⟩, hchain, heq⟩ := map_eq_ok.mp hlinks
  obtain ⟨rfl, rfl⟩ := Prod.mk.inj heq
  obtain ⟨used, rfl, derives⟩ := sum _ _ hf
  obtain ⟨more, rfl, derives'⟩ := others _ _ hf _ _ hchain
  exact ⟨t :: used ++ more, by simp, by simpa using Derives.link operator derives derives'⟩

theorem soundAt_comparison {ts : List Lexeme} (sum : SoundAt .sum ts)
    (others : ∀ f after, parse .sum ts = .ok (f, after) → SoundChain after) :
    SoundAt .comparison ts := by
  intro g rest hp
  rw [Formula.parse_comparison] at hp
  obtain ⟨⟨f, after⟩, hf, hlinks⟩ := bind_eq_ok.mp hp
  obtain ⟨⟨chain, rest'⟩, hchain, heq⟩ := map_eq_ok.mp hlinks
  obtain ⟨rfl, rfl⟩ := Prod.mk.inj heq
  obtain ⟨used, rfl, derives⟩ := sum _ _ hf
  obtain ⟨more, rfl, derives'⟩ := others _ _ hf _ _ hchain
  exact ⟨used ++ more, by simp, by simpa using Derives.compared derives derives'⟩

theorem soundAt_modified {level : Level} (hlevel : level.isModified = true) {t : Lexeme}
    {ts : List Lexeme} {modify : Formula → Formula} (modifier : level.modify? t.token = some modify)
    (ih : SoundAt level ts) : SoundAt level (t :: ts) := by
  intro g rest hp
  simp only [Formula.parse_modified_cons hlevel, modifier] at hp
  obtain ⟨⟨f, rest'⟩, hf, heq⟩ := map_eq_ok.mp hp
  obtain ⟨rfl, rfl⟩ := Prod.mk.inj heq
  obtain ⟨used, rfl, derives⟩ := ih _ _ hf
  exact ⟨t :: used, rfl, Derives.modified modifier derives⟩

theorem soundAt_loosen {level : Level} (hlevel : level.isModified = true) {ts : List Lexeme}
    (same : parse level ts = parse level.tighter ts) (ih : SoundAt level.tighter ts) :
    SoundAt level ts := by
  intro g rest hp
  rw [same] at hp
  obtain ⟨used, rfl, derives⟩ := ih _ _ hp
  exact ⟨used, rfl, .loosen (by rintro rfl; cases hlevel) (by rintro rfl; cases hlevel) derives⟩

theorem parse_eq_ok_of_read {level : Level} {ts after : List Lexeme} {f : Formula} {shorter}
    (h : Formula.read level ts = .ok ⟨f, after, shorter⟩) : parse level ts = .ok (f, after) := by
  rw [parse, h, Reading.outcome_ok]

theorem parse_eq_error_of_read {level : Level} {ts : List Lexeme} {fault : Fault}
    (h : Formula.read level ts = .error fault) : parse level ts = .error fault := by
  rw [parse, h, Reading.outcome_error]

/-- A statement about every result of a reading holds where the reading gives none, and where it
holds of the one that it gives. -/
theorem forall_of_read_error {level : Level} {ts : List Lexeme} {fault : Fault}
    {p : Formula → List Lexeme → Prop} (h : Formula.read level ts = .error fault) (f : Formula)
    (after : List Lexeme) (hp : parse level ts = .ok (f, after)) : p f after := by
  rw [parse_eq_error_of_read h] at hp
  cases hp

theorem forall_of_read_ok {level : Level} {ts after : List Lexeme} {f : Formula} {shorter}
    {p : Formula → List Lexeme → Prop} (h : Formula.read level ts = .ok ⟨f, after, shorter⟩)
    (hf : p f after) (g : Formula) (rest : List Lexeme) (hp : parse level ts = .ok (g, rest)) :
    p g rest := by
  rw [parse_eq_ok_of_read h] at hp
  obtain ⟨rfl, rfl⟩ := Prod.mk.inj (Except.ok.inj hp)
  exact hf

theorem soundAt_unclosed {t : Lexeme} {ts : List Lexeme} (ht : t.token = .symbol .openParen)
    (h : ∀ f after, parse .disjunction ts = .ok (f, after) →
      ∀ c ∈ after.head?, c.isSymbol .closeParen = false) : SoundAt .atom (t :: ts) := by
  intro f rest hp
  rw [Formula.parse_open ht] at hp
  obtain ⟨⟨g, after⟩, hg, hp⟩ := bind_eq_ok.mp hp
  cases after with
  | nil => cases hp
  | cons c after => simp [h _ _ hg c rfl] at hp

theorem soundAt_literal {t : Lexeme} {v : Scalar} (h : Scalar.ofToken? t.token = some v)
    (ts : List Lexeme) : SoundAt .atom (t :: ts) := by
  intro f rest hp
  rw [Formula.parse_literal h] at hp
  obtain ⟨rfl, rfl⟩ := Prod.mk.inj (Except.ok.inj hp)
  exact ⟨[t], rfl, .literal h⟩

/-- The reader is sound: what it reads derives the formula that it gives. -/
theorem sound (level : Level) (ts : List Lexeme) : SoundAt level ts := by
  have all := Formula.read.mutual_induct SoundAt
    (fun level h ts => level.isJoined = true → SoundAt level ts)
    (fun level h left ts => level.isJoined = true → SoundOperands level h left ts)
    SoundChain
    (fun level _ ts => level.isModified = true → SoundAt level ts)
  refine (all ?_ ?_ ?_ ?_ ?_ ?_ ?_ ?_ ?_ ?_ ?_ ?_ ?_ ?_ ?_ ?_ ?_ ?_ ?_ ?_ ?_ ?_ ?_ ?_ ?_ ?_ ?_ ?_
    ?_).1 level ts
  -- literals, attributes and parentheses
  · exact soundAt_of_error (by rw [parse, Formula.read]; rfl)
  · intro t rest v h
    exact soundAt_literal h rest
  · intro t rest _ name h
    exact soundAt_name h
  · intro t rest _ ht fault h _
    exact soundAt_unclosed ht (forall_of_read_error h)
  · intro t rest _ ht f _ shorter h _
    exact soundAt_unclosed ht (forall_of_read_ok h (by simp))
  · intro t rest _ ht f c after _ hc shorter h ih
    exact soundAt_parens ht hc (parse_eq_ok_of_read h) ih
  · intro t rest _ ht f c after _ hc shorter h _
    exact soundAt_unclosed ht (forall_of_read_ok h (by simpa using hc))
  · intro t rest hv hname hopen f after hp
    rw [parse, Formula.read] at hp
    simp only [hv] at hp
    cases hp
  -- the levels with modifiers, the comparisons, and the levels with operators
  · intro ts ih
    exact ih rfl
  · intro ts ih
    exact ih rfl
  · intro ts fault h ih
    exact soundAt_comparison ih (forall_of_read_error h)
  · intro ts f after shorter h ih others
    exact soundAt_comparison ih (forall_of_read_ok h others)
  · intro ts ih
    exact ih rfl
  · intro ts ih
    exact ih rfl
  · intro ts ih
    exact ih rfl
  · intro ts ih
    exact ih rfl
  · intro level h ts fault hread ih hlevel
    exact soundAt_joined hlevel ih (forall_of_read_error hread)
  · intro level h ts f after shorter hread ih operands hlevel
    exact soundAt_joined hlevel ih (forall_of_read_ok hread (operands hlevel))
  -- operators and their operands
  · intro level h left _
    exact soundOperands_stop (Formula.parseOperands_nil level h left)
  · intro level h left t rest operator _
    exact soundOperands_stop (by rw [Formula.parseOperands_cons, operator])
  · intro level h left t rest join operator fault hread ih hlevel
    exact soundOperands_join operator ih (forall_of_read_error hread)
  · intro level h left t rest join operator f after shorter hread ih operands hlevel
    exact soundOperands_join operator ih (forall_of_read_ok hread (operands hlevel))
  -- comparisons
  · exact soundChain_stop Formula.parseChain_nil
  · intro t rest operator
    exact soundChain_stop (by rw [Formula.parseChain_cons, operator])
  · intro t rest op operator fault hread ih
    exact soundChain_link operator ih (forall_of_read_error hread)
  · intro t rest op operator f after shorter hread ih others
    exact soundChain_link operator ih (forall_of_read_ok hread others)
  -- modifiers
  · intro level h ih hlevel
    exact soundAt_loosen hlevel (Formula.parse_modified_nil hlevel) ih
  · intro level h t rest modify modifier ih hlevel
    exact soundAt_modified hlevel modifier (ih hlevel)
  · intro level h t rest modifier ih hlevel
    exact soundAt_loosen hlevel (by rw [Formula.parse_modified_cons hlevel, modifier]) ih

/-! ## Completeness -/

/-- Induction on the phrase that lexemes derive, which comes apart into its lexemes: the statement may
be about the places of the lexemes in a text, which their tokens have lost. -/
@[elab_as_elim]
theorem Derives.lexemes_induction
    {motive : (ts : List Lexeme) → (p : Phrase) → Derives (ts.map Lexeme.token) p → Prop}
    (literal : ∀ (t : Lexeme) (v : Scalar) (constant : Scalar.ofToken? t.token = some v),
      motive [t] (.formula .atom (.literal v)) (.literal constant))
    (bare : ∀ (t : Lexeme) (name : String), t.token = .name name → ∀ whole,
      motive [t] (.formula .atom (.attribute name none)) whole)
    (field : ∀ (t d u : Lexeme) (name field : String), t.token = .name name →
      d.token = .symbol .dot → u.token = .name field → ∀ whole,
      motive [t, d, u] (.formula .atom (.attribute name (some field))) whole)
    (parens : ∀ (o c : Lexeme) (ts : List Lexeme) (f : Formula), o.token = .symbol .openParen →
      c.token = .symbol .closeParen → ∀ inner : Derives (ts.map Lexeme.token) (.formula .disjunction f),
      motive ts _ inner → ∀ whole, motive (o :: (ts ++ [c])) (.formula .atom f) whole)
    (loosen : ∀ (level : Level) (ts : List Lexeme) (f : Formula) (inner : level ≠ .atom)
      (other : level ≠ .comparison) (tight : Derives (ts.map Lexeme.token) (.formula level.tighter f)),
      motive ts _ tight → motive ts (.formula level f) (.loosen inner other tight))
    (modified : ∀ (level : Level) (t : Lexeme) (ts : List Lexeme) (f : Formula)
      (modify : Formula → Formula) (modifier : level.modify? t.token = some modify)
      (operand : Derives (ts.map Lexeme.token) (.formula level f)), motive ts _ operand →
      motive (t :: ts) (.formula level (modify f)) (.modified modifier operand))
    (joined : ∀ (level : Level) (t : Lexeme) (ls rs : List Lexeme) (l r : Formula)
      (join : Formula → Formula → Formula), level.join? t.token = some join →
      ∀ (left : Derives (ls.map Lexeme.token) (.formula level l))
        (right : Derives (rs.map Lexeme.token) (.formula level.tighter r)),
      motive ls _ left → motive rs _ right →
      ∀ whole, motive (ls ++ t :: rs) (.formula level (join l r)) whole)
    (compared : ∀ (ts cs : List Lexeme) (f : Formula) (c : Chain)
      (first : Derives (ts.map Lexeme.token) (.formula .sum f))
      (others : Derives (cs.map Lexeme.token) (.chain c)), motive ts _ first → motive cs _ others →
      ∀ whole, motive (ts ++ cs) (.formula .comparison (Formula.chained f c)) whole)
    (done : motive [] (.chain .nil) .done)
    (link : ∀ (t : Lexeme) (op : Comparison) (ts cs : List Lexeme) (f : Formula) (c : Chain),
      Comparison.ofToken? t.token = some op →
      ∀ (operand : Derives (ts.map Lexeme.token) (.formula .sum f))
        (others : Derives (cs.map Lexeme.token) (.chain c)), motive ts _ operand → motive cs _ others →
      ∀ whole, motive (t :: (ts ++ cs)) (.chain (.link op f c)) whole)
    {ts : List Lexeme} {p : Phrase} (h : Derives (ts.map Lexeme.token) p) : motive ts p h := by
  suffices all : ∀ (tokens : List Token) (p : Phrase) (h : Derives tokens p) (ts : List Lexeme)
      (hts : ts.map Lexeme.token = tokens), motive ts p (hts ▸ h) from all _ p h ts rfl
  intro tokens p h
  induction h with
  | literal constant =>
    intro ts hts
    obtain ⟨t, rfl, rfl⟩ := List.map_eq_singleton_iff.mp hts
    exact literal t _ constant
  | bare name =>
    intro ts hts
    obtain ⟨t, rfl, ht⟩ := List.map_eq_singleton_iff.mp hts
    exact bare t name ht _
  | field name field' =>
    intro ts hts
    obtain ⟨t, us, rfl, ht, hus⟩ := List.map_eq_cons_iff.mp hts
    obtain ⟨d, vs, rfl, hd, hvs⟩ := List.map_eq_cons_iff.mp hus
    obtain ⟨u, rfl, hu⟩ := List.map_eq_singleton_iff.mp hvs
    exact field t d u name field' ht hd hu _
  | parens inner ih =>
    intro ts hts
    obtain ⟨o, vs, rfl, ho, hvs⟩ := List.map_eq_cons_iff.mp hts
    obtain ⟨us, ws, rfl, rfl, hws⟩ := List.map_eq_append_iff.mp hvs
    obtain ⟨c, rfl, hc⟩ := List.map_eq_singleton_iff.mp hws
    exact parens o c us _ ho hc inner (ih us rfl) _
  | loosen inner other tight ih =>
    rintro ts rfl
    exact loosen _ ts _ inner other tight (ih ts rfl)
  | modified modifier operand ih =>
    intro ts hts
    obtain ⟨t, us, rfl, rfl, rfl⟩ := List.map_eq_cons_iff.mp hts
    exact modified _ t us _ _ modifier operand (ih us rfl)
  | joined operator left right ihl ihr =>
    intro ts hts
    obtain ⟨us, ws, rfl, rfl, hws⟩ := List.map_eq_append_iff.mp hts
    obtain ⟨t, vs, rfl, rfl, rfl⟩ := List.map_eq_cons_iff.mp hws
    exact joined _ t us vs _ _ _ operator left right (ihl us rfl) (ihr vs rfl) _
  | compared first others ihf iho =>
    intro ts hts
    obtain ⟨us, vs, rfl, rfl, rfl⟩ := List.map_eq_append_iff.mp hts
    exact compared us vs _ _ first others (ihf us rfl) (iho vs rfl) _
  | done =>
    intro ts hts
    obtain rfl := List.map_eq_nil_iff.mp hts
    exact done
  | link operator operand others iho ihc =>
    intro ts hts
    obtain ⟨t, ws, rfl, rfl, hws⟩ := List.map_eq_cons_iff.mp hts
    obtain ⟨us, vs, rfl, rfl, rfl⟩ := List.map_eq_append_iff.mp hws
    exact link t _ us vs _ _ operator operand others (iho us rfl) (ihc vs rfl) _

/-- How loosely an operator binds that follows a formula; what ends any formula binds loosest. -/
def Token.height : Token → Nat
  | .symbol .dot => 0
  | .symbol .star | .symbol .slash | .symbol .doubleSlash | .symbol .percent => 2
  | .symbol .plus | .symbol .minus => 3
  | .symbol .equal | .symbol .notEqual | .symbol .less | .symbol .lessEqual | .symbol .greater
  | .symbol .greaterEqual => 4
  | .keyword .and => 6
  | .keyword .or => 7
  | _ => 8

/-- Whether no lexeme at the start of `rest` continues a formula of a level. -/
def Stops (level : Level) (rest : List Lexeme) : Prop :=
  ∀ t ∈ rest.head?, level.height < t.token.height

theorem stops_nil (level : Level) : Stops level [] := by
  intro t ht
  cases ht

theorem stops_cons {level : Level} {t : Lexeme} {ts : List Lexeme} :
    Stops level (t :: ts) ↔ level.height < t.token.height := by
  simp [Stops]

theorem Stops.tighter {level : Level} {rest : List Lexeme} (h : Stops level rest) :
    Stops level.tighter rest := by
  intro t ht
  have := h t ht
  have lower : level.tighter.height ≤ level.height := by cases level <;> decide
  omega

theorem height_of_join? {level : Level} {t : Token} {join : Formula → Formula → Formula}
    (h : level.join? t = some join) : level.isJoined = true ∧ t.height = level.height := by
  unfold Level.join? at h
  split at h <;> first | exact ⟨rfl, rfl⟩ | cases h

theorem join?_conjunction {t : Token} {join : Formula → Formula → Formula}
    (h : Level.conjunction.join? t = some join) : t = .keyword .and ∧ join = .and := by
  unfold Level.join? at h
  split at h <;> first | exact ⟨rfl, (Option.some.inj h).symm⟩ | simp_all

theorem join?_disjunction {t : Token} {join : Formula → Formula → Formula}
    (h : Level.disjunction.join? t = some join) : t = .keyword .or ∧ join = .or := by
  unfold Level.join? at h
  split at h <;> first | exact ⟨rfl, (Option.some.inj h).symm⟩ | simp_all

theorem isModified_of_modify? {level : Level} {t : Token} {modify : Formula → Formula}
    (h : level.modify? t = some modify) : level.isModified = true := by
  unfold Level.modify? at h
  split at h <;> first | rfl | cases h

theorem height_of_comparison {t : Token} {op : Comparison} (h : Comparison.ofToken? t = some op) :
    t.height = 4 := by
  unfold Comparison.ofToken? at h
  split at h <;> first | rfl | cases h

theorem join?_eq_none {level : Level} {t : Token} (h : level.height < t.height) :
    level.join? t = none := by
  cases hj : level.join? t with
  | none => rfl
  | some join =>
    have := (height_of_join? hj).2
    omega

theorem parseOperands_of_stops {level : Level} (h : level ≠ .atom) (left : Formula)
    {rest : List Lexeme} (stops : Stops level rest) :
    parseOperands level h left rest = .ok (left, rest) := by
  cases rest with
  | nil => exact Formula.parseOperands_nil level h left
  | cons t ts => rw [Formula.parseOperands_cons, join?_eq_none (stops_cons.mp stops)]

theorem parseChain_of_stops {rest : List Lexeme} (stops : Stops .comparison rest) :
    parseChain rest = .ok (.nil, rest) := by
  cases rest with
  | nil => exact Formula.parseChain_nil
  | cons t ts =>
    have := stops_cons.mp stops
    cases h : Comparison.ofToken? t.token with
    | none => rw [Formula.parseChain_cons, h]
    | some op =>
      rw [height_of_comparison h] at this
      exact absurd this (by decide)

/-- What is read from the lexemes of a phrase, whatever follows them that does not continue it.  At
the levels with operators between formulas, what follows may do so. -/
def Phrase.Complete (used : List Lexeme) : Phrase → Prop
  | .formula level f =>
    (∀ hlevel : level.isJoined = true, ∀ rest, Stops level.tighter rest →
      parse level (used ++ rest) =
        parseOperands level (Level.ne_atom_of_isJoined hlevel) f rest) ∧
    ∀ rest, Stops level rest → parse level (used ++ rest) = .ok (f, rest)
  | .chain c => ∀ rest, Stops .comparison rest → parseChain (used ++ rest) = .ok (c, rest)

theorem complete_of_joined {level : Level} (hlevel : level.isJoined = true) {used : List Lexeme}
    {f : Formula} (h : ∀ rest, Stops level.tighter rest → parse level (used ++ rest) =
      parseOperands level (Level.ne_atom_of_isJoined hlevel) f rest) :
    (Phrase.formula level f).Complete used := by
  refine ⟨fun _ => h, fun rest stops => ?_⟩
  rw [h rest stops.tighter, parseOperands_of_stops _ _ stops]

theorem complete_of_not_joined {level : Level} (hlevel : level.isJoined = false)
    {used : List Lexeme} {f : Formula}
    (h : ∀ rest, Stops level rest → parse level (used ++ rest) = .ok (f, rest)) :
    (Phrase.formula level f).Complete used := by
  refine ⟨fun hjoined => ?_, h⟩
  rw [hlevel] at hjoined
  cases hjoined

theorem readField_of_stops (name : String) {rest : List Lexeme} (stops : Stops .atom rest) :
    outcome (Formula.readField name rest) = .ok (.attribute name none, rest) := by
  have free (start stop : Nat) (ts : List Lexeme)
      (h : Stops .atom (⟨.symbol .dot, start, stop⟩ :: ts)) : False :=
    absurd (stops_cons.mp h) (Nat.lt_irrefl 0)
  unfold Formula.readField
  split
  · exact (free _ _ _ stops).elim
  · exact (free _ _ _ stops).elim
  · exact (free _ _ _ stops).elim
  · rfl

theorem modify?_of_constant {t : Token} {v : Scalar} (h : Scalar.ofToken? t = some v)
    (level : Level) : level.modify? t = none := by
  cases t with
  | int v | float v | text s => cases level <;> rfl
  | keyword k =>
    cases k with
    | true | false => cases level <;> rfl
    | and | or | not => cases h
  | name n | symbol s => cases h

theorem modify?_unique {level looser : Level} {t : Token} {modify : Formula → Formula}
    (h : level.modify? t = some modify) (lt : level.height < looser.height) :
    looser.modify? t = none := by
  unfold Level.modify? at h
  split at h
  all_goals first
    | (cases looser <;> first | rfl | exact absurd lt (by decide))
    | cases h

/-- The first token of a formula changes no formula of a looser level. -/
theorem head_of_derives {ts : List Token} {level : Level} {f : Formula}
    (h : Derives ts (.formula level f)) :
    ∃ t us, ts = t :: us ∧
      ∀ looser : Level, level.height < looser.height → looser.modify? t = none := by
  generalize hp : Phrase.formula level f = p at h
  induction h generalizing level f with
  | literal constant => exact ⟨_, [], rfl, fun looser _ => modify?_of_constant constant looser⟩
  | bare name => exact ⟨_, [], rfl, fun looser _ => by cases looser <;> rfl⟩
  | field name field => exact ⟨_, _, rfl, fun looser _ => by cases looser <;> rfl⟩
  | parens inner ih => exact ⟨_, _, rfl, fun looser _ => by cases looser <;> rfl⟩
  | @loosen level' ts f' inner other tight ih =>
    obtain ⟨rfl, rfl⟩ := Phrase.formula.inj hp
    obtain ⟨t, us, rfl, free⟩ := ih rfl
    exact ⟨t, us, rfl, fun looser lt =>
      free looser (Nat.lt_trans (Level.height_tighter_lt inner) lt)⟩
  | modified modifier operand ih =>
    obtain ⟨rfl, rfl⟩ := Phrase.formula.inj hp
    exact ⟨_, _, rfl, fun looser lt => modify?_unique modifier lt⟩
  | joined operator left right ihl ihr =>
    obtain ⟨rfl, rfl⟩ := Phrase.formula.inj hp
    obtain ⟨t, us, rfl, free⟩ := ihl rfl
    exact ⟨t, _, rfl, free⟩
  | compared first others ihf iho =>
    obtain ⟨rfl, rfl⟩ := Phrase.formula.inj hp
    obtain ⟨t, us, rfl, free⟩ := ihf rfl
    exact ⟨t, _, rfl, fun looser lt => free looser (Nat.lt_trans (by decide) lt)⟩
  | done => cases hp
  | link operator operand others iho ihc => cases hp

theorem stops_of_chain {cs : List Lexeme} {c : Chain} (h : Derives (cs.map Lexeme.token) (.chain c))
    {rest : List Lexeme} (stops : Stops .comparison rest) : Stops .sum (cs ++ rest) := by
  cases cs with
  | nil =>
    intro t ht
    exact Nat.lt_trans (by decide) (stops t ht)
  | cons t cs =>
    generalize hts : (t :: cs).map Lexeme.token = ts at h
    cases h with
    | done => cases hts
    | link operator operand others =>
      obtain ⟨rfl, -⟩ := List.cons.inj hts
      rw [List.cons_append, stops_cons, height_of_comparison operator]
      decide

/-- A phrase of a tighter level is read at the looser one: no operator stands before it. -/
theorem complete_loosen {level : Level} {used : List Lexeme} {f : Formula} (inner : level ≠ .atom)
    (other : level ≠ .comparison)
    (tight : Derives (used.map Lexeme.token) (.formula level.tighter f))
    (ih : (Phrase.formula level.tighter f).Complete used) :
    (Phrase.formula level f).Complete used := by
  by_cases hjoined : level.isJoined = true
  · refine complete_of_joined hjoined fun rest stops => ?_
    rw [Formula.parse_joined hjoined, ih.2 rest stops]
    rfl
  · have hmodified : level.isModified = true := by cases level <;> first | rfl | contradiction
    refine complete_of_not_joined (by simpa using hjoined) fun rest stops => ?_
    obtain ⟨t, us, hused, free⟩ := head_of_derives tight
    obtain ⟨l, ls, rfl, rfl, hls⟩ := List.map_eq_cons_iff.mp hused
    rw [List.cons_append, Formula.parse_modified_cons hmodified,
      free level (Level.height_tighter_lt inner)]
    exact ih.2 rest stops.tighter

/-- The reader is complete: it reads the lexemes of every phrase. -/
theorem complete {used : List Lexeme} {p : Phrase} (h : Derives (used.map Lexeme.token) p) :
    p.Complete used := by
  induction h using Derives.lexemes_induction with
  | literal t v constant =>
    exact complete_of_not_joined rfl fun rest _ => Formula.parse_literal constant rest
  | bare t name ht =>
    refine complete_of_not_joined rfl fun rest stops => ?_
    rw [List.cons_append, List.nil_append, Formula.parse_name ht]
    exact readField_of_stops name stops
  | field t d u name field ht hd hu =>
    refine complete_of_not_joined rfl fun rest stops => ?_
    obtain ⟨_, _, _⟩ := d
    obtain ⟨_, _, _⟩ := u
    obtain rfl := hd
    obtain rfl := hu
    rw [List.cons_append, Formula.parse_name ht]
    rfl
  | parens o c ts f ho hc inner ih =>
    refine complete_of_not_joined rfl fun rest _ => ?_
    have inside := ih.2 (c :: rest) (stops_cons.mpr (by rw [hc]; decide))
    rw [List.cons_append, Formula.parse_open ho, List.append_assoc, List.singleton_append, inside]
    simp [Except.bind, Lexeme.isSymbol, hc]
  | loosen level ts f inner other tight ih => exact complete_loosen inner other tight ih
  | modified level t ts f modify modifier operand ih =>
    have hmodified := isModified_of_modify? modifier
    refine complete_of_not_joined (by cases level <;> first | rfl | cases hmodified) fun rest stops => ?_
    rw [List.cons_append, Formula.parse_modified_cons hmodified, modifier]
    simp only [ih.2 rest stops]
    rfl
  | joined level o ls rs l r join operator left right ihl ihr =>
    obtain ⟨hjoined, height⟩ := height_of_join? operator
    have lower := Level.height_tighter_lt (Level.ne_atom_of_isJoined hjoined)
    refine complete_of_joined hjoined fun rest stops => ?_
    have stopsLeft : Stops level.tighter (o :: (rs ++ rest)) := stops_cons.mpr (by omega)
    rw [List.append_assoc, List.cons_append, ihl.1 hjoined _ stopsLeft,
      Formula.parseOperands_cons, operator]
    simp only [ihr.2 rest stops]
    rfl
  | compared ts cs f c first others ihf iho =>
    refine complete_of_not_joined rfl fun rest stops => ?_
    have chain : parseChain (cs ++ rest) = .ok (c, rest) := iho rest stops
    rw [List.append_assoc, Formula.parse_comparison, ihf.2 _ (stops_of_chain others stops)]
    simp only [Except.bind, chain]
    rfl
  | done => exact fun rest stops => parseChain_of_stops stops
  | link t op ts cs f c operator operand others iho ihc =>
    intro rest stops
    have chain : parseChain (cs ++ rest) = .ok (c, rest) := ihc rest stops
    rw [List.cons_append, List.append_assoc, Formula.parseChain_cons, operator]
    simp only [iho.2 _ (stops_of_chain others stops), Except.bind, chain]
    rfl

/-- Lexemes are read as a formula exactly when their tokens derive it. -/
theorem ofLexemes?_eq_ok_iff {ts : List Lexeme} {f : Formula} :
    Formula.ofLexemes? ts = .ok f ↔ Derives (ts.map Lexeme.token) (.formula .disjunction f) := by
  constructor
  · intro h
    unfold Formula.ofLexemes? at h
    split at h
    · cases h
    · split at h
      · cases h
      · next r hr =>
        split at h
        · next hrest =>
          obtain rfl := Except.ok.inj h
          obtain ⟨value, rest, shorter⟩ := r
          obtain rfl : rest = [] := hrest
          obtain ⟨used, rfl, derives⟩ := sound _ _ _ _ (parse_eq_ok_of_read hr)
          simpa using derives
        · cases h
  · intro h
    have nonempty : ts ≠ [] := by
      obtain ⟨t, us, hts, -⟩ := head_of_derives h
      rintro rfl
      cases hts
    have hp := (complete h).2 [] (stops_nil _)
    rw [List.append_nil] at hp
    obtain ⟨shorter, hread⟩ := Reading.outcome_eq_ok hp
    rw [Formula.ofLexemes?, if_neg nonempty, hread]

end RelationalAlgebra.Predicate
