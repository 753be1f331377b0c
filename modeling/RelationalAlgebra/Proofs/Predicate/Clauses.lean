import RelationalAlgebra.Proofs.Predicate.Parentheses
import RelationalAlgebra.Proofs.Predicate.Splicing
/-!
# Clauses as formulas

What the work on the texts of predicates does to their formulas.  A text that is put together reads as
a formula with the conjuncts, or the disjuncts, of its parts; a text that is taken apart reads as the
parts that its formula has; a text with other names reads as the renamed formula.
-/

namespace RelationalAlgebra.Predicate

/-- Whether a text is a predicate, and this is its formula. -/
def Reads (text : String) (f : Formula) : Prop := Formula.ofText? text.toList = .ok f

theorem reads_iff_scan {text : String} {f : Formula} :
    Reads text f ↔ ∃ ts, Lexeme.scan text.toList = .ok ts ∧
      Derives (ts.map Lexeme.token) (.formula .disjunction f) := by
  unfold Reads Formula.ofText?
  cases Lexeme.scan text.toList with
  | error fault => simp
  | ok ts => simp [ofLexemes?_eq_ok_iff]

theorem reads_iff {text : String} {f : Formula} :
    Reads text f ↔ ∃ ts, Lexes text.toList ts ∧ Derives ts (.formula .disjunction f) := by
  rw [reads_iff_scan]
  constructor
  · rintro ⟨ts, scanned, derives⟩
    exact ⟨_, lexes_of_scan scanned, derives⟩
  · rintro ⟨tokens, lexes, derives⟩
    obtain ⟨ts, scanned, rfl⟩ := lexes.scan
    exact ⟨ts, scanned, derives⟩

theorem Reads.unique {text : String} {f g : Formula} (hf : Reads text f) (hg : Reads text g) :
    f = g := Except.ok.inj (hf.symm.trans hg)

theorem Reads.trimmed {text : String} {f : Formula} (h : Reads text f) :
    Reads (Text.trimmed text) f := by
  obtain ⟨ts, lexes, derives⟩ := reads_iff.mp h
  refine reads_iff.mpr ⟨ts, ?_, derives⟩
  rw [Text.trimmed, String.toList_ofList]
  exact lexes.trim

/-! ## Looser levels -/

theorem Derives.of_tighter {level : Level} {ts : List Token} {f : Formula} (h : level ≠ .atom)
    (tight : Derives ts (.formula level.tighter f)) : Derives ts (.formula level f) := by
  by_cases hc : level = .comparison
  · subst hc
    have := Derives.compared tight .done
    rwa [List.append_nil] at this
  · exact .loosen h hc tight

theorem Derives.conjunction_of_negation {ts : List Token} {f : Formula}
    (h : Derives ts (.formula .negation f)) : Derives ts (.formula .conjunction f) :=
  .of_tighter (by decide) h

theorem Derives.disjunction_of_conjunction {ts : List Token} {f : Formula}
    (h : Derives ts (.formula .conjunction f)) : Derives ts (.formula .disjunction f) :=
  .of_tighter (by decide) h

theorem Derives.negation_of_atom {ts : List Token} {f : Formula}
    (h : Derives ts (.formula .atom f)) : Derives ts (.formula .negation f) := by
  have sign : Derives ts (.formula .sign f) := .of_tighter (by decide) h
  have product : Derives ts (.formula .product f) := .of_tighter (by decide) sign
  have sum : Derives ts (.formula .sum f) := .of_tighter (by decide) product
  have comparison : Derives ts (.formula .comparison f) := .of_tighter (by decide) sum
  exact .of_tighter (by decide) comparison

/-! ## Conjunctions -/

/-- Two formulas of a level with its operator between them: the operators of the right one associate
to the left again, and the parts of the two are those of the whole. -/
theorem derives_join {level : Level} {t : Token} {join : Formula → Formula → Formula}
    (operator : level.join? t = some join)
    (only : ∀ t' join', level.join? t' = some join' → t' = t ∧ join' = join)
    {parts : Formula → List Formula} (parts_join : ∀ l r, parts (join l r) = parts l ++ parts r)
    {xs ys : List Token} {f g : Formula} (hx : Derives xs (.formula level f))
    (hy : Derives ys (.formula level g)) :
    ∃ h, Derives (xs ++ t :: ys) (.formula level h) ∧ parts h = parts f ++ parts g := by
  have joined := (height_of_join? operator).1
  generalize hp : Phrase.formula level g = p at hy
  induction hy generalizing g with
  | loosen inner other tight =>
    obtain ⟨rfl, rfl⟩ := Phrase.formula.inj hp
    exact ⟨join f g, .joined operator hx tight, parts_join f g⟩
  | @joined level' t' ls rs l r join' operator' left right ihl =>
    obtain ⟨rfl, rfl⟩ := Phrase.formula.inj hp
    obtain ⟨rfl, rfl⟩ := only _ _ operator'
    obtain ⟨h, derives, hparts⟩ := ihl rfl
    refine ⟨join' h r, ?_, ?_⟩
    · have := Derives.joined operator' derives right
      simpa using this
    · rw [parts_join, parts_join, hparts, List.append_assoc]
  | modified modifier operand =>
    obtain ⟨rfl, rfl⟩ := Phrase.formula.inj hp
    have modified := isModified_of_modify? modifier
    cases level <;> first | exact absurd joined (by decide) | exact absurd modified (by decide)
  | compared first others =>
    obtain ⟨rfl, rfl⟩ := Phrase.formula.inj hp
    cases joined
  | done => cases hp
  | link operator operand others => cases hp
  | _ =>
    obtain ⟨rfl, rfl⟩ := Phrase.formula.inj hp
    cases joined

theorem derives_and {xs ys : List Token} {f g : Formula}
    (hx : Derives xs (.formula .conjunction f)) (hy : Derives ys (.formula .conjunction g)) :
    ∃ h, Derives (xs ++ .keyword .and :: ys) (.formula .conjunction h) ∧
      h.conjuncts = f.conjuncts ++ g.conjuncts :=
  derives_join rfl (fun _ _ => join?_conjunction) (fun _ _ => rfl) hx hy

theorem derives_or {xs ys : List Token} {f g : Formula}
    (hx : Derives xs (.formula .disjunction f)) (hy : Derives ys (.formula .disjunction g)) :
    ∃ h, Derives (xs ++ .keyword .or :: ys) (.formula .disjunction h) ∧
      h.disjuncts = f.disjuncts ++ g.disjuncts :=
  derives_join rfl (fun _ _ => join?_disjunction) (fun _ _ => rfl) hx hy

theorem lexes_guarded {text : String} {f : Formula} (h : Reads text f) :
    ∃ ts, Lexes (guarded text).toList ts ∧ Derives ts (.formula .conjunction f) := by
  obtain ⟨ts, scanned, derives⟩ := reads_iff_scan.mp h.trimmed
  have lexes := lexes_of_scan scanned
  unfold guarded
  by_cases top : hasTopOr (Text.trimmed text) = true
  · rw [if_pos top, String.toList_append, String.toList_append]
    exact ⟨_, lexes.parens, (Derives.parens derives).negation_of_atom.conjunction_of_negation⟩
  · rw [if_neg top]
    rw [hasTopOr, scanned] at top
    exact ⟨_, lexes, derives_conjunction derives (by simpa using top)⟩

theorem lexes_and : Lexes "and".toList [.keyword .and] := by
  obtain ⟨ts, scanned, rfl⟩ : ∃ ts, Lexeme.scan "and".toList = .ok ts ∧ ts = _ := ⟨_, rfl, rfl⟩
  exact lexes_of_scan scanned

theorem lexes_intercalate {parts : List String} {fs : List Formula}
    (h : List.Forall₂ Reads parts fs) (ne : parts ≠ []) :
    ∃ ts g, Lexes (String.intercalate " and " (parts.map guarded)).toList ts ∧
      Derives ts (.formula .conjunction g) ∧ g.conjuncts = fs.flatMap Formula.conjuncts := by
  induction h with
  | nil => exact absurd rfl ne
  | @cons p f ps fs hp hps ih =>
    obtain ⟨ts, lexes, derives⟩ := lexes_guarded hp
    cases hps with
    | nil =>
      refine ⟨ts, f, ?_, derives, by simp⟩
      simpa using lexes
    | @cons q g qs gs hq hqs =>
      obtain ⟨us, g', lexes', derives', conjuncts⟩ := ih (by simp)
      obtain ⟨h, hderives, hconjuncts⟩ := derives_and derives derives'
      refine ⟨_, h, ?_, hderives, ?_⟩
      · have := lexes.append_space (lexes_and.append_space lexes')
        rw [List.map_cons, List.map_cons, String.intercalate_cons_cons, String.toList_append,
          String.toList_append, List.append_assoc]
        exact this
      · rw [hconjuncts, conjuncts]
        simp

theorem reads_conjoin {parts : List String} {fs : List Formula}
    (h : List.Forall₂ Reads parts fs) (ne : parts ≠ []) :
    ∃ g, Reads (conjoin parts) g ∧ g.conjuncts = fs.flatMap Formula.conjuncts := by
  unfold conjoin
  split
  · next single =>
    cases h with
    | cons hp hps =>
      cases hps with
      | nil => exact ⟨_, hp.trimmed, by simp⟩
  · obtain ⟨ts, g, lexes, derives, conjuncts⟩ := lexes_intercalate h ne
    exact ⟨g, reads_iff.mpr ⟨ts, lexes, derives.disjunction_of_conjunction⟩, conjuncts⟩

/-! ## Disjunctions and negations -/

theorem lexes_or : Lexes "or".toList [.keyword .or] := by
  obtain ⟨ts, scanned, rfl⟩ : ∃ ts, Lexeme.scan "or".toList = .ok ts ∧ ts = _ := ⟨_, rfl, rfl⟩
  exact lexes_of_scan scanned

theorem lexes_not : Lexes "not".toList [.keyword .not] := by
  obtain ⟨ts, scanned, rfl⟩ : ∃ ts, Lexeme.scan "not".toList = .ok ts ∧ ts = _ := ⟨_, rfl, rfl⟩
  exact lexes_of_scan scanned

theorem reads_or {p q : String} {f g : Formula} (hp : Reads p f) (hq : Reads q g) :
    ∃ h, Reads (Text.trimmed p ++ " or " ++ Text.trimmed q) h ∧
      h.disjuncts = f.disjuncts ++ g.disjuncts := by
  obtain ⟨ts, lexes, derives⟩ := reads_iff.mp hp.trimmed
  obtain ⟨us, lexes', derives'⟩ := reads_iff.mp hq.trimmed
  obtain ⟨h, joined, disjuncts⟩ := derives_or derives derives'
  refine ⟨h, reads_iff.mpr ⟨_, ?_, joined⟩, disjuncts⟩
  have spelled : " or ".toList = ' ' :: ("or".toList ++ [' ']) := by decide
  rw [String.toList_append, String.toList_append, List.append_assoc, spelled]
  exact lexes.append_space (lexes_or.append_space lexes')

theorem reads_negation {p : String} {f : Formula} (h : Reads p f) :
    Reads (negation p) (.not f) := by
  obtain ⟨ts, lexes, derives⟩ := reads_iff.mp h.trimmed
  have inner := (Derives.parens derives).negation_of_atom
  have derived : Derives (.keyword .not :: (.symbol .openParen :: ts ++ [.symbol .closeParen]))
      (.formula .negation (.not f)) := .modified rfl inner
  refine reads_iff.mpr ⟨_, ?_, derived.conjunction_of_negation.disjunction_of_conjunction⟩
  have spelled : (negation p).toList =
      "not".toList ++ ' ' :: ('(' :: (Text.trimmed p).toList ++ [')']) := by
    simp [negation, String.toList_append]
  rw [spelled]
  exact lexes_not.append_space lexes.parens

theorem reads_false : Reads "False" (.literal (.bool false)) := by
  obtain ⟨ts, scanned, htokens⟩ : ∃ ts, Lexeme.scan "False".toList = .ok ts ∧
      ts.map Lexeme.token = [.keyword .false] := ⟨_, rfl, rfl⟩
  have atom : Derives [.keyword .false] (.formula .atom (.literal (.bool false))) := .literal rfl
  refine reads_iff_scan.mpr ⟨ts, scanned, ?_⟩
  rw [htokens]
  exact atom.negation_of_atom.conjunction_of_negation.disjunction_of_conjunction

/-! ## Taking a predicate apart -/

theorem reads_lexeme_conjuncts {text : List Char} {all ts : List Lexeme} {f : Formula}
    (scanned : Lexeme.scan text = .ok all) (part : ts <:+: all)
    (h : Derives (ts.map Lexeme.token) (.formula .disjunction f)) :
    ∃ fs, List.Forall₂ Reads (Lexeme.conjuncts text ts) fs ∧
      f.conjuncts = fs.flatMap Formula.conjuncts := by
  induction hn : ts.length using Nat.strong_induction_on generalizing ts f with
  | _ n ih =>
    have inside := derives_dropParens h
    have nonempty : (Lexeme.dropParens ts).isEmpty = false := by
      simpa using ne_nil_of_derives inside
    have part' := (infix_dropParens ts).trans part
    rw [Lexeme.conjuncts, if_neg (by simp [nonempty])]
    split
    · refine ⟨[f], .cons ?_ .nil, by simp⟩
      have lexes := lexes_cover scanned part' (ne_nil_of_derives inside)
      exact reads_iff.mpr ⟨_, by rwa [String.toList_ofList], inside⟩
    · next several =>
      simp only [Bool.or_eq_true, decide_eq_true_eq, not_or, Nat.not_le, Bool.not_eq_true] at several
      obtain ⟨gs, hgs, conjuncts⟩ := conjuncts_of_splitTop (derives_conjunction inside several.1)
      have each (ps : List (List Lexeme)) (gs : List Formula)
          (sub : ∀ p ∈ ps, p ∈ Lexeme.splitTop .and 0 (Lexeme.dropParens ts))
          (hgs : List.Forall₂
            (fun part g => Derives (part.map Lexeme.token) (.formula .negation g)) ps gs) :
          ∃ fs, List.Forall₂ Reads (ps.flatMap (Lexeme.conjuncts text)) fs ∧
            gs.flatMap Formula.conjuncts = fs.flatMap Formula.conjuncts := by
        induction hgs with
        | nil => exact ⟨[], .nil, rfl⟩
        | @cons p g ps gs hp _ ihs =>
          have mem := sub p (List.mem_cons_self ..)
          have shorter : p.length < n := by
            have := Lexeme.length_lt_of_mem_splitTop several.2 mem
            have := Lexeme.length_dropParens_le ts
            omega
          obtain ⟨fs, hfs, heq⟩ := ih p.length shorter ((infix_of_mem_splitTop mem).trans part')
            hp.conjunction_of_negation.disjunction_of_conjunction rfl
          obtain ⟨fs', hfs', heq'⟩ := ihs fun q hq => sub q (List.mem_cons_of_mem _ hq)
          exact ⟨fs ++ fs', List.rel_append hfs hfs', by simp [heq, heq']⟩
      obtain ⟨fs, hfs, heq⟩ := each _ gs (fun _ hp => hp) hgs
      refine ⟨fs, ?_, conjuncts.trans heq⟩
      rw [← List.attach_map_subtype_val (Lexeme.splitTop .and 0 (Lexeme.dropParens ts)),
        List.flatMap_map] at hfs
      exact hfs

theorem reads_conjuncts {p : String} {f : Formula} {parts : List String} (h : Reads p f)
    (hparts : conjuncts p = .ok parts) :
    ∃ fs, List.Forall₂ Reads parts fs ∧ f.conjuncts = fs.flatMap Formula.conjuncts := by
  obtain ⟨ts, scanned, derives⟩ := reads_iff_scan.mp h
  have hf : Formula.ofText? p.toList = .ok f := h
  rw [conjuncts, hf, scanned] at hparts
  obtain rfl := Except.ok.inj hparts
  exact reads_lexeme_conjuncts scanned List.infix_rfl derives

theorem conjuncts_eq_ok_iff {p : String} {parts : List String} : conjuncts p = .ok parts ↔
    ∃ f ts, Reads p f ∧ Lexeme.scan p.toList = .ok ts ∧ parts = Lexeme.conjuncts p.toList ts := by
  constructor
  · intro h
    unfold conjuncts at h
    split at h
    · cases h
    · next f reads =>
      obtain ⟨ts, scanned, rfl⟩ := map_eq_ok.mp h
      exact ⟨f, ts, reads, scanned, rfl⟩
  · rintro ⟨f, ts, reads, scanned, rfl⟩
    have read : Formula.ofText? p.toList = .ok f := reads
    rw [conjuncts, read, scanned]
    rfl

theorem reads_of_mem_conjuncts {p : String} {parts : List String} (h : conjuncts p = .ok parts) :
    ∀ part ∈ parts, ∃ f, Reads part f := by
  obtain ⟨f, ts, reads, -, -⟩ := conjuncts_eq_ok_iff.mp h
  obtain ⟨fs, all, -⟩ := reads_conjuncts reads h
  intro part mem
  obtain ⟨i, hi, rfl⟩ := List.getElem_of_mem mem
  exact ⟨_, all.get hi (all.length_eq ▸ hi)⟩

/-! ## The names in a predicate -/

def Token.attributes (afterDot : Bool) : List Token → List String
  | [] => []
  | .name n :: ts => if afterDot then attributes false ts else n :: attributes false ts
  | t :: ts => attributes (t = .symbol .dot) ts

theorem map_fst_attributesFrom (afterDot : Bool) (ts : List Lexeme) :
    (Lexeme.attributesFrom afterDot ts).map Prod.fst =
      Token.attributes afterDot (ts.map Lexeme.token) := by
  induction ts generalizing afterDot with
  | nil => rfl
  | cons t ts ih =>
    obtain ⟨token, start, stop⟩ := t
    cases token with
    | name n =>
      cases afterDot with
      | true => exact ih _
      | false => exact congrArg (n :: ·) (ih _)
    | _ => exact ih _

/-- A token that is no name, and after which a name is that of an attribute. -/
def Token.IsPlain (t : Token) : Prop := (∀ n, t ≠ .name n) ∧ t ≠ .symbol .dot

theorem renamed_of_isPlain {t : Token} (h : t.IsPlain) (image : String → Option String)
    (ts : List Token) :
    Token.renamed image false (t :: ts) = t :: Token.renamed image false ts := by
  rw [Token.renamed_cons h.1, decide_eq_false h.2]

theorem attributes_of_isPlain {t : Token} (h : t.IsPlain) (ts : List Token) :
    Token.attributes false (t :: ts) = Token.attributes false ts := by
  have hdot := h.2
  cases t with
  | name n => exact absurd rfl (h.1 n)
  | symbol s =>
    rw [Token.attributes, decide_eq_false hdot]
    simp
  | _ => rfl

theorem isPlain_of_constant {t : Token} {v : Scalar} (h : Scalar.ofToken? t = some v) :
    t.IsPlain := by
  refine ⟨?_, ?_⟩
  · rintro n rfl
    cases h
  · rintro rfl
    cases h

theorem isPlain_of_modify? {level : Level} {t : Token} {modify : Formula → Formula}
    (h : level.modify? t = some modify) : t.IsPlain := by
  refine ⟨?_, ?_⟩
  · rintro n rfl
    cases level <;> cases h
  · rintro rfl
    cases level <;> cases h

theorem isPlain_of_join? {level : Level} {t : Token} {join : Formula → Formula → Formula}
    (h : level.join? t = some join) : t.IsPlain := by
  refine ⟨?_, ?_⟩
  · rintro n rfl
    cases level <;> cases h
  · rintro rfl
    cases level <;> cases h

theorem isPlain_of_comparison {t : Token} {op : Comparison}
    (h : Comparison.ofToken? t = some op) : t.IsPlain := by
  refine ⟨?_, ?_⟩
  · rintro n rfl
    cases h
  · rintro rfl
    cases h

theorem rename_modify? {level : Level} {t : Token} {modify : Formula → Formula}
    (h : level.modify? t = some modify) (f : Formula) :
    (modify f).mentioned = f.mentioned ∧ ∀ g, (modify f).rename g = modify (f.rename g) := by
  unfold Level.modify? at h
  split at h <;> first | cases h; exact ⟨rfl, fun _ => rfl⟩ | cases h

theorem rename_join? {level : Level} {t : Token} {join : Formula → Formula → Formula}
    (h : level.join? t = some join) (l r : Formula) :
    (join l r).mentioned = l.mentioned ++ r.mentioned ∧
      ∀ g, (join l r).rename g = join (l.rename g) (r.rename g) := by
  unfold Level.join? at h
  split at h <;> first | cases h; exact ⟨rfl, fun _ => rfl⟩ | cases h

theorem rename_chained (f : Formula) (c : Chain) :
    (Formula.chained f c).mentioned = f.mentioned ++ c.mentioned ∧
      ∀ g, (Formula.chained f c).rename g = Formula.chained (f.rename g) (c.rename g) := by
  cases c with
  | nil => exact ⟨by simp [Formula.chained, Chain.mentioned], fun _ => rfl⟩
  | link op f' rest => exact ⟨rfl, fun _ => rfl⟩

def Phrase.mentioned : Phrase → List String
  | .formula _ f => f.mentioned
  | .chain c => c.mentioned

def Phrase.rename (g : String → String) : Phrase → Phrase
  | .formula level f => .formula level (f.rename g)
  | .chain c => .chain (c.rename g)

/-- Tokens whose names are told apart from those of what follows them: they do not end in a dot, after
which a name is a field. -/
structure Sealed (image : String → Option String) (ts : List Token) : Prop where
  attributes_append : ∀ rest, Token.attributes false (ts ++ rest) =
    Token.attributes false ts ++ Token.attributes false rest
  renamed_append : ∀ rest, Token.renamed image false (ts ++ rest) =
    Token.renamed image false ts ++ Token.renamed image false rest

section Sealed

variable {image : String → Option String} {t : Token} {ts us : List Token}

theorem sealed_nil : Sealed image [] := ⟨fun _ => rfl, fun _ => rfl⟩

theorem sealed_cons (plain : t.IsPlain) (h : Sealed image ts) : Sealed image (t :: ts) where
  attributes_append rest := by
    rw [List.cons_append, attributes_of_isPlain plain, attributes_of_isPlain plain,
      h.attributes_append]
  renamed_append rest := by
    rw [List.cons_append, renamed_of_isPlain plain, renamed_of_isPlain plain, h.renamed_append,
      List.cons_append]

theorem sealed_append (h : Sealed image ts) (h' : Sealed image us) : Sealed image (ts ++ us) where
  attributes_append rest := by
    rw [List.append_assoc, h.attributes_append, h.attributes_append, h'.attributes_append,
      List.append_assoc]
  renamed_append rest := by
    rw [List.append_assoc, h.renamed_append, h.renamed_append, h'.renamed_append,
      List.append_assoc]

theorem isPlain_openParen : (Token.symbol .openParen).IsPlain := ⟨by simp, by simp⟩

theorem isPlain_closeParen : (Token.symbol .closeParen).IsPlain := ⟨by simp, by simp⟩

theorem sealed_of_derives (image : String → Option String) {p : Phrase} (h : Derives ts p) :
    Sealed image ts := by
  induction h with
  | literal constant => exact sealed_cons (isPlain_of_constant constant) sealed_nil
  | bare name => exact ⟨fun _ => rfl, fun _ => rfl⟩
  | field name field => exact ⟨fun _ => rfl, fun _ => rfl⟩
  | parens inner ih =>
    exact sealed_cons isPlain_openParen (sealed_append ih (sealed_cons isPlain_closeParen sealed_nil))
  | loosen inner other tight ih => exact ih
  | modified modifier operand ih => exact sealed_cons (isPlain_of_modify? modifier) ih
  | joined operator left right ihl ihr =>
    exact sealed_append ihl (sealed_cons (isPlain_of_join? operator) ihr)
  | compared first others ihf iho => exact sealed_append ihf iho
  | done => exact sealed_nil
  | link operator operand others iho ihc =>
    exact sealed_cons (isPlain_of_comparison operator) (sealed_append iho ihc)

/-- The names among the tokens of a phrase are those that it mentions. -/
theorem attributes_of_derives {p : Phrase} (h : Derives ts p) :
    Token.attributes false ts = p.mentioned := by
  have apart {ts : List Token} {p : Phrase} (h : Derives ts p) :=
    (sealed_of_derives (fun _ => none) h).attributes_append
  induction h with
  | literal constant =>
    rw [attributes_of_isPlain (isPlain_of_constant constant)]
    rfl
  | bare name => rfl
  | field name field => rfl
  | parens inner ih =>
    rw [List.cons_append, attributes_of_isPlain isPlain_openParen, apart inner, ih,
      attributes_of_isPlain isPlain_closeParen]
    exact List.append_nil _
  | loosen inner other tight ih => exact ih
  | modified modifier operand ih =>
    rw [attributes_of_isPlain (isPlain_of_modify? modifier), ih]
    exact (rename_modify? modifier _).1.symm
  | joined operator left right ihl ihr =>
    rw [apart left, attributes_of_isPlain (isPlain_of_join? operator), ihl, ihr]
    exact (rename_join? operator _ _).1.symm
  | compared first others ihf iho =>
    rw [apart first, ihf, iho]
    exact (rename_chained _ _).1.symm
  | done => rfl
  | link operator operand others iho ihc =>
    rw [List.cons_append, attributes_of_isPlain (isPlain_of_comparison operator), apart operand,
      iho, ihc]
    rfl

/-- With other names the tokens of a phrase are those of the renamed phrase. -/
theorem derives_renamed {p : Phrase} (h : Derives ts p) :
    Derives (Token.renamed image false ts) (p.rename fun n => (image n).getD n) := by
  have apart {ts : List Token} {p : Phrase} (h : Derives ts p) :=
    (sealed_of_derives image h).renamed_append
  induction h with
  | literal constant =>
    rw [renamed_of_isPlain (isPlain_of_constant constant)]
    exact .literal constant
  | bare name => exact .bare _
  | field name field => exact .field _ _
  | parens inner ih =>
    rw [List.cons_append, renamed_of_isPlain isPlain_openParen, apart inner,
      renamed_of_isPlain isPlain_closeParen]
    exact .parens ih
  | loosen inner other tight ih => exact .loosen inner other ih
  | modified modifier operand ih =>
    rw [renamed_of_isPlain (isPlain_of_modify? modifier), Phrase.rename,
      (rename_modify? modifier _).2]
    exact .modified modifier ih
  | joined operator left right ihl ihr =>
    rw [apart left, renamed_of_isPlain (isPlain_of_join? operator), Phrase.rename,
      (rename_join? operator _ _).2]
    exact .joined operator ihl ihr
  | compared first others ihf iho =>
    rw [apart first, Phrase.rename, (rename_chained _ _).2]
    exact .compared ihf iho
  | done => exact .done
  | link operator operand others iho ihc =>
    rw [List.cons_append, renamed_of_isPlain (isPlain_of_comparison operator), apart operand]
    exact .link operator iho ihc

end Sealed

theorem attributeNames_of_reads {p : String} {f : Formula} (h : Reads p f) :
    attributeNames p = .ok f.attributes := by
  obtain ⟨ts, scanned, derives⟩ := reads_iff_scan.mp h
  rw [attributeNames, scanned, Except.map, map_fst_attributesFrom, attributes_of_derives derives]
  rfl

theorem mem_attributeNames {p : String} {f : Formula} {names : List String} (h : Reads p f)
    (hnames : attributeNames p = .ok names) {n : String} : n ∈ names ↔ n ∈ f.mentioned := by
  obtain rfl := Except.ok.inj (hnames.symm.trans (attributeNames_of_reads h))
  exact Name.mem_sorted

theorem reads_renameAttributes {p q : String} {f : Formula} {names : Renaming} (h : Reads p f)
    (valid : ∀ n new, names.get? n = some new → Name.isValid new = true)
    (hq : renameAttributes p names = .ok q) : Reads q (f.rename names.apply) := by
  obtain ⟨ts, scanned, derives⟩ := reads_iff_scan.mp h
  rw [renameAttributes, scanned] at hq
  obtain rfl := Except.ok.inj hq
  refine reads_iff.mpr ⟨_, ?_, derives_renamed derives⟩
  rw [String.toList_ofList]
  exact lexes_splice valid scanned

end RelationalAlgebra.Predicate
