import RelationalAlgebra.Proofs.Predicate.Places
/-!
# Conjunctions taken apart and put together

A predicate is cut into its conjuncts by counting parentheses, and conjuncts are put together as text.
Neither changes what is answered on a row, an answer being a truth or a fault: the parts are asked from
left to right, until one is false.  What was put together is taken apart into the same parts.
-/

namespace RelationalAlgebra.Predicate

/-! ## Answers -/

def Accepted (text : String) : Prop := ∃ f, Reads text f

instance decidableAccepted (text : String) : Decidable (Accepted text) :=
  match h : Formula.ofText? text.toList with
  | .ok f => .isTrue ⟨f, h⟩
  | .error _ => .isFalse fun ⟨_, reads⟩ => nomatch h.symm.trans reads

/-- What a text gives on a row: a truth, or a fault of the text or of its evaluation. -/
def answer (header : List String) (row : Row) (text : String) : Except Fault Bool :=
  (Formula.ofText? text.toList).bind fun f => f.test header row

theorem answer_of_reads {text : String} {f : Formula} (h : Reads text f) (header : List String)
    (row : Row) : answer header row text = f.test header row := by
  have read : Formula.ofText? text.toList = .ok f := h
  rw [answer, read]
  rfl

section Asking

variable {α β : Type}

/-- The questions asked from left to right, until the answer to one is false or there is none. -/
def askAll (ask : α → Except Fault Bool) : List α → Except Fault Bool
  | [] => .ok true
  | a :: as => (ask a).bind fun b => if b then askAll ask as else .ok false

theorem askAll_append (ask : α → Except Fault Bool) (as bs : List α) : askAll ask (as ++ bs) =
    (askAll ask as).bind fun b => if b then askAll ask bs else .ok false := by
  induction as with
  | nil => rfl
  | cons a as ih =>
    rw [List.cons_append, askAll, askAll, ih]
    cases ask a with
    | error fault => rfl
    | ok b => cases b <;> rfl

theorem askAll_singleton (ask : α → Except Fault Bool) (a : α) : askAll ask [a] = ask a := by
  rw [askAll]
  cases ask a with
  | error fault => rfl
  | ok b => cases b <;> rfl

theorem askAll_congr {ask : α → Except Fault Bool} {ask' : β → Except Fault Bool} {as : List α}
    {bs : List β} (h : List.Forall₂ (fun a b => ask a = ask' b) as bs) :
    askAll ask as = askAll ask' bs := by
  induction h with
  | nil => rfl
  | cons same _ ih => rw [askAll, askAll, same, ih]

end Asking

section Tests

variable (header : List String) (row : Row)

theorem test_not (f : Formula) :
    (Formula.not f).test header row = (f.test header row).map not := by
  rw [Formula.test, Formula.test, eval_not]
  cases f.eval (cell? header row) <;> rfl

theorem test_and (l r : Formula) : (Formula.and l r).test header row =
    (l.test header row).bind fun b => if b then r.test header row else .ok false := by
  rw [Formula.test, Formula.test, Formula.test, eval_and]
  cases l.eval (cell? header row) with
  | error fault => rfl
  | ok v =>
    have truth (b : Bool) : (Scalar.bool b).truth = b := rfl
    by_cases hv : v.truth = true
    · cases r.eval (cell? header row) <;> simp [Except.bind, Except.map, hv, truth]
    · simp [Except.bind, Except.map, hv, truth]

theorem test_conjuncts (f : Formula) :
    f.test header row = askAll (·.test header row) f.conjuncts := by
  induction f using Formula.conjuncts.induct with
  | case1 l r ihl ihr => rw [test_and, Formula.conjuncts, askAll_append, ← ihl, ← ihr]
  | case2 f h =>
    rw [Formula.conjuncts, askAll_singleton]
    exact h

theorem askAll_conjuncts (fs : List Formula) :
    askAll (·.test header row) (fs.flatMap Formula.conjuncts) = askAll (·.test header row) fs := by
  induction fs with
  | nil => rfl
  | cons f fs ih => rw [List.flatMap_cons, askAll_append, ← test_conjuncts, ih, askAll]

/-- A predicate whose formula has the conjuncts of some parts is answered as the parts are. -/
theorem answer_eq_askAll {p : String} {f : Formula} {parts : List String} {fs : List Formula}
    (h : Reads p f) (hparts : List.Forall₂ Reads parts fs)
    (conjuncts : f.conjuncts = fs.flatMap Formula.conjuncts) :
    answer header row p = askAll (answer header row) parts := by
  rw [answer_of_reads h, test_conjuncts, conjuncts, askAll_conjuncts]
  exact (askAll_congr (hparts.imp fun _ _ reads => answer_of_reads reads header row)).symm

end Tests

theorem Formula.conjuncts_ne_nil (f : Formula) : f.conjuncts ≠ [] := by
  induction f using Formula.conjuncts.induct with
  | case1 l r ihl ihr => simp [Formula.conjuncts, ihl]
  | case2 f h => simp [Formula.conjuncts]

/-! ## The conjuncts of a text -/

namespace Lexeme

theorem conjuncts_parens {o c : Lexeme} {ts : List Lexeme} (opens : o.token = .symbol .openParen)
    (closes : c.token = .symbol .closeParen) (inside : Balanced ts) (text : List Char) :
    conjuncts text (o :: (ts ++ [c])) = conjuncts text ts := by
  have closed : enclosed (o :: (ts ++ [c])) = true := by
    simp [enclosed, isSymbol, opens, inside.closesAtEnd_succ, closesAtEnd,
      depthAfter_of_close closes]
  rw [conjuncts_eq, conjuncts_eq, dropParens_of_enclosed closed, List.tail_cons, List.dropLast_concat]

/-- The conjuncts of a conjunction are those of the parts between the `and`s at the top. -/
theorem conjuncts_of_conjunction {ts : List Lexeme} {f : Formula}
    (h : Derives (ts.map token) (.formula .conjunction f)) (text : List Char) :
    conjuncts text ts = (splitTop .and 0 ts).flatMap (conjuncts text) := by
  have hor : Keyword.or.level? = some .disjunction := rfl
  have hand : Keyword.and.level? = some .conjunction := rfl
  have noOr : hasTop .or 0 ts = false := hasTop_of_tight hor h (Nat.lt_succ_self 6)
  generalize hts : ts.map token = tokens at h
  -- enclosing parentheses are dropped by the left side only, but then there is no `and` at the top
  cases h with
  | loosen inner other tight =>
    subst hts
    have single := (balanced_of_derives tight).splitTop_eq_singleton .and
      (hasTop_of_tight hand tight (Nat.lt_succ_self 5))
    rw [single, List.flatMap_singleton]
  | modified modifier operand => cases modifier
  | @joined _ t ls rs l r join operator left right =>
    obtain ⟨us, ws, rfl, rfl, hws⟩ := List.map_eq_append_iff.mp hts
    obtain ⟨o, vs, rfl, rfl, rfl⟩ := List.map_eq_cons_iff.mp hws
    have ho : o.token = .keyword .and := (join?_conjunction operator).1
    have balanced := balanced_of_derives left
    have bare : enclosed (us ++ o :: vs) = false :=
      enclosed_append_eq_false balanced (ne_nil_of_derives left) (List.cons_ne_nil _ _)
    have several : ¬(splitTop .and 0 (us ++ o :: vs)).length ≤ 1 := by
      have hl := List.length_pos_iff.mpr (splitTop_ne_nil .and 0 us)
      have hr := List.length_pos_iff.mpr (splitTop_ne_nil .and 0 vs)
      rw [balanced.splitTop_append .and ho, List.length_append]
      omega
    rw [conjuncts_eq, dropParens_of_not_enclosed bare, noOr]
    simp [several]

end Lexeme

/-- Whether a text is a conjunction, or binds tighter, and has these conjuncts. -/
def Conjoins (text : List Char) (parts : List String) : Prop :=
  ∃ ts f, Lexeme.scan text = .ok ts ∧ Derives (ts.map Lexeme.token) (.formula .conjunction f) ∧
    Lexeme.conjuncts text ts = parts

theorem Conjoins.conjuncts_eq {text : String} {parts : List String} (h : Conjoins text.toList parts) :
    conjuncts text = .ok parts := by
  obtain ⟨ts, f, scanned, derives, rfl⟩ := h
  have reads : Reads text f := reads_iff_scan.mpr ⟨ts, scanned, derives.disjunction_of_conjunction⟩
  exact conjuncts_eq_ok_iff.mpr ⟨f, ts, reads, scanned, rfl⟩

theorem Conjoins.and {as bs : List Char} {ps qs : List String} (ha : Conjoins as ps)
    (hb : Conjoins bs qs) : Conjoins (as ++ (" and ".toList ++ bs)) (ps ++ qs) := by
  obtain ⟨ts, f, hts, derives, rfl⟩ := ha
  obtain ⟨us, g, hus, derives', rfl⟩ := hb
  obtain ⟨t, ht, scanned⟩ := Lexeme.scan_and hts hus
  have moved := Lexeme.map_token_moved (Text.byteSize (as ++ " and ".toList)) us
  obtain ⟨h, joined, -⟩ := derives_and derives derives'
  have whole : Derives ((ts ++ t :: us.map (Lexeme.moved (Text.byteSize (as ++ " and ".toList)))).map
      Lexeme.token) (.formula .conjunction h) := by
    rwa [List.map_append, List.map_cons, moved, ht]
  have left (part : List Lexeme) (mem : part ∈ Lexeme.splitTop .and 0 ts) :
      Lexeme.conjuncts (as ++ (" and ".toList ++ bs)) part = Lexeme.conjuncts as part := by
    have := Lexeme.conjuncts_moved hts (infix_of_mem_splitTop mem) [] (" and ".toList ++ bs)
    rwa [Text.byteSize, Lexeme.map_moved_zero, List.nil_append] at this
  have right (part : List Lexeme) (mem : part ∈ Lexeme.splitTop .and 0 us) :
      Lexeme.conjuncts (as ++ (" and ".toList ++ bs))
          (part.map (Lexeme.moved (Text.byteSize (as ++ " and ".toList)))) =
        Lexeme.conjuncts bs part := by
    have := Lexeme.conjuncts_moved hus (infix_of_mem_splitTop mem) (as ++ " and ".toList) []
    rwa [List.append_nil, List.append_assoc] at this
  refine ⟨_, h, scanned, whole, ?_⟩
  rw [Lexeme.conjuncts_of_conjunction whole, Lexeme.conjuncts_of_conjunction derives,
    Lexeme.conjuncts_of_conjunction derives', (balanced_of_derives derives).splitTop_append .and ht,
    List.flatMap_append, Lexeme.splitTop_moved, List.flatMap_map, List.flatMap_congr left,
    List.flatMap_congr right]

theorem conjuncts_trimmed {p : String} {parts : List String} (h : conjuncts p = .ok parts) :
    conjuncts (Text.trimmed p) = .ok parts := by
  obtain ⟨f, ts, reads, scanned, rfl⟩ := conjuncts_eq_ok_iff.mp h
  obtain ⟨front, back, us, split, scanned', rfl⟩ := Lexeme.scan_trim scanned
  refine conjuncts_eq_ok_iff.mpr ⟨f, us, reads.trimmed, ?_, ?_⟩
  · rwa [Text.trimmed, String.toList_ofList]
  · rw [Text.trimmed, String.toList_ofList]
    conv => lhs; rw [split]
    exact Lexeme.conjuncts_moved scanned' List.infix_rfl front back

theorem conjoins_guarded {p : String} {parts : List String} (h : conjuncts p = .ok parts) :
    Conjoins (guarded p).toList parts := by
  obtain ⟨f, ts, reads, scanned, rfl⟩ := conjuncts_eq_ok_iff.mp (conjuncts_trimmed h)
  obtain ⟨ts', scanned', derives⟩ := reads_iff_scan.mp reads
  obtain rfl := Except.ok.inj (scanned.symm.trans scanned')
  unfold guarded
  by_cases top : hasTopOr (Text.trimmed p) = true
  · obtain ⟨o, c, ho, hc, scanned⟩ := Lexeme.scan_parens scanned
    have inside := (Derives.parens derives).negation_of_atom.conjunction_of_negation
    have balanced : Balanced (ts.map (Lexeme.moved 1)) :=
      balanced_of_derives (Lexeme.map_token_moved 1 ts ▸ derives)
    rw [if_pos top, String.toList_append, String.toList_append, List.append_assoc]
    refine ⟨_, f, scanned, ?_, ?_⟩
    · rwa [List.map_cons, List.map_append, Lexeme.map_token_moved, ho, List.map_singleton, hc]
    · rw [Lexeme.conjuncts_parens ho hc balanced]
      exact Lexeme.conjuncts_moved scanned' List.infix_rfl "(".toList ")".toList
  · rw [if_neg top]
    rw [hasTopOr, scanned] at top
    exact ⟨ts, f, scanned, derives_conjunction derives (by simpa using top), rfl⟩

theorem conjoins_intercalate {ps : List String} {partss : List (List String)}
    (h : List.Forall₂ (fun p parts => conjuncts p = .ok parts) ps partss) (ne : ps ≠ []) :
    Conjoins (String.intercalate " and " (ps.map guarded)).toList partss.flatten := by
  induction h with
  | nil => exact absurd rfl ne
  | @cons p parts ps partss first others ih =>
    have guarded := conjoins_guarded first
    cases others with
    | nil => simpa using guarded
    | cons second others =>
      rw [List.map_cons, List.map_cons, String.intercalate_cons_cons, String.toList_append,
        String.toList_append, List.append_assoc, List.flatten_cons]
      exact guarded.and (ih (by simp))

/-- What a conjunction is taken apart into is what its parts are taken apart into. -/
theorem conjuncts_conjoin {ps : List String} {partss : List (List String)}
    (h : List.Forall₂ (fun p parts => conjuncts p = .ok parts) ps partss) (ne : ps ≠ []) :
    conjuncts (conjoin ps) = .ok partss.flatten := by
  unfold conjoin
  split
  · next single =>
    cases h with
    | cons first others =>
      cases others with
      | nil => simpa using conjuncts_trimmed first
  · exact (conjoins_intercalate h ne).conjuncts_eq

/-! ## Predicates, their parts and their negations -/

theorem Accepted.conjuncts {p : String} (h : Accepted p) : ∃ parts, conjuncts p = .ok parts := by
  obtain ⟨f, reads⟩ := h
  obtain ⟨ts, scanned, -⟩ := reads_iff_scan.mp reads
  exact ⟨_, conjuncts_eq_ok_iff.mpr ⟨f, ts, reads, scanned, rfl⟩⟩

/-- A predicate is taken apart into predicates, at least one, and is answered as they are one after the
other, and as their conjunction is. -/
structure Splits (p : String) (parts : List String) : Prop where
  conjuncts : conjuncts p = .ok parts
  some : parts ≠ []
  accepted : ∀ part ∈ parts, Accepted part
  answers : ∀ header row, answer header row p = askAll (answer header row) parts
  conjoin_answers : ∀ header row,
    answer header row (conjoin parts) = askAll (answer header row) parts

theorem splits_of_accepted {p : String} (h : Accepted p) : ∃ parts, Splits p parts := by
  obtain ⟨f, reads⟩ := h
  obtain ⟨parts, hparts⟩ := Accepted.conjuncts ⟨f, reads⟩
  obtain ⟨fs, all, conjuncts⟩ := reads_conjuncts reads hparts
  have some : parts ≠ [] := by
    rintro rfl
    cases all
    exact f.conjuncts_ne_nil conjuncts
  obtain ⟨g, joined, conjuncts'⟩ := reads_conjoin all some
  exact ⟨parts, hparts, some, reads_of_mem_conjuncts hparts,
    fun header row => answer_eq_askAll header row reads all conjuncts,
    fun header row => answer_eq_askAll header row joined all conjuncts'⟩

/-- The conjunction of some predicates is a predicate, and is taken apart into the parts of each of
them. -/
structure Joins (ps : List String) : Prop where
  accepted : Accepted (conjoin ps)
  conjuncts : ∃ partss, List.Forall₂ (fun p parts => conjuncts p = .ok parts) ps partss ∧
    Predicate.conjuncts (conjoin ps) = .ok partss.flatten

theorem exists_forall₂_conjuncts {ps : List String} (h : ∀ p ∈ ps, Accepted p) :
    ∃ partss, List.Forall₂ (fun p parts => conjuncts p = .ok parts) ps partss := by
  induction ps with
  | nil => exact ⟨[], .nil⟩
  | cons p ps ih =>
    obtain ⟨parts, first⟩ := (h p (List.mem_cons_self ..)).conjuncts
    obtain ⟨partss, others⟩ := ih fun q hq => h q (List.mem_cons_of_mem _ hq)
    exact ⟨parts :: partss, .cons first others⟩

theorem joins_of_accepted {ps : List String} (h : ∀ p ∈ ps, Accepted p) (ne : ps ≠ []) :
    Joins ps := by
  obtain ⟨partss, each⟩ := exists_forall₂_conjuncts h
  have joined := conjuncts_conjoin each ne
  obtain ⟨f, ts, reads, -, -⟩ := conjuncts_eq_ok_iff.mp joined
  exact ⟨⟨f, reads⟩, partss, each, joined⟩

/-- The negation of a predicate is a predicate and has the opposite answers, and the same faults. -/
structure Negates (p : String) : Prop where
  accepted : Accepted (negation p)
  answers : ∀ header row, answer header row (negation p) = (answer header row p).map not

theorem negates_of_accepted {p : String} (h : Accepted p) : Negates p := by
  obtain ⟨f, reads⟩ := h
  have negated := reads_negation reads
  refine ⟨⟨_, negated⟩, fun header row => ?_⟩
  rw [answer_of_reads negated, answer_of_reads reads, test_not]

/-- Taking a predicate apart, joining predicates and negating one keep what is meant. -/
theorem splitting_and_joining_keep_meaning {p : String} {ps : List String} (accepted : Accepted p)
    (all : ∀ q ∈ ps, Accepted q) (ne : ps ≠ []) :
    (∃ parts, Splits p parts) ∧ Joins ps ∧ Negates p :=
  ⟨splits_of_accepted accepted, joins_of_accepted all ne, negates_of_accepted accepted⟩

/-- A conjunction in parentheses beside a negation, and a disjunction to be joined. -/
theorem splitting_and_joining_keep_meaning_nested :
    Splits "(a and (b or c)) and not d" ["a", "b or c", "not d"] ∧
      Joins ["a or b", " c and d "] ∧ Negates "(a and (b or c)) and not d" := by
  have accepted : Accepted "(a and (b or c)) and not d" := by decide +kernel
  have all : ∀ q ∈ ["a or b", " c and d "], Accepted q := by decide +kernel
  obtain ⟨⟨parts, splits⟩, joins, negates⟩ :=
    splitting_and_joining_keep_meaning accepted all (by simp)
  have computed : conjuncts "(a and (b or c)) and not d" = .ok ["a", "b or c", "not d"] := by
    decide +kernel
  obtain rfl := Except.ok.inj (splits.conjuncts.symm.trans computed)
  exact ⟨splits, joins, negates⟩

end RelationalAlgebra.Predicate
