import RelationalAlgebra.Proofs.Program.Factoring
import RelationalAlgebra.Proofs.Query.Printing
/-!
# Programs that are printed and read

A printed program has one step a line as long as no parameter has a line break.  Each line is then read as
the assignment that it was printed from, and the last one is the query.  Where a parameter has a line break,
its first line is an operator that has no operand, which is no query.
-/

namespace RelationalAlgebra

namespace Program

open Query (Unary Binary Tree)

/-! ## Lines -/

theorem scriptLines_eq (text : String) : scriptLines text =
    ((Text.pieces '\n' text.toList).map fun line => String.ofList (Text.trim line)).filter (· ≠ "") := by
  obtain ⟨init, last, parts⟩ : ∃ init last, Text.pieces '\n' text.toList = init ++ [last] :=
    ⟨_, _, (List.dropLast_append_getLast (Text.pieces_ne_nil '\n' text.toList)).symm⟩
  rw [scriptLines, Text.lines, parts]
  by_cases empty : last = []
  · subst empty
    have nothing : Text.trim [] = [] := rfl
    simp [Text.trim_dropReturn, nothing, Function.comp_def]
  · simp [empty, Text.trim_dropReturn, Function.comp_def]

theorem scriptLines_append (a b : String) :
    scriptLines (a ++ "\n" ++ b) = scriptLines a ++ scriptLines b := by
  have newline : (a ++ "\n" ++ b).toList = a.toList ++ '\n' :: b.toList := by simp
  rw [scriptLines_eq, scriptLines_eq, scriptLines_eq, newline, Text.pieces_append, List.map_append,
    List.filter_append]

theorem scriptLines_ne_nil {text : String} {c : Char} (hc : c ∈ text.toList)
    (h : Text.isBlank c = false) : scriptLines text ≠ [] := by
  have ne : c ≠ '\n' := by
    rintro rfl
    cases h
  obtain ⟨piece, hpiece, hc⟩ := Text.exists_mem_pieces hc ne
  have inside : c ∈ (String.ofList (Text.trim piece)).toList := by
    rw [String.toList_ofList]
    exact Text.mem_trim hc h
  rw [scriptLines_eq]
  refine List.ne_nil_of_mem (List.mem_filter.mpr ⟨List.mem_map_of_mem hpiece, ?_⟩)
  rw [decide_eq_true_iff]
  intro empty
  rw [empty] at inside
  cases inside

theorem scriptLines_of_notMem {text : String} (free : '\n' ∉ text.toList) {c : Char}
    (hc : c ∈ text.toList) (h : Text.isBlank c = false) : scriptLines text = [Text.trimmed text] := by
  have some := scriptLines_ne_nil hc h
  rw [scriptLines_eq, Text.pieces_of_notMem free] at some ⊢
  exact List.filter_eq_self.mpr (by simpa using some)

theorem scriptLines_write (steps : List Step) :
    scriptLines (write steps) = steps.flatMap fun s => scriptLines s.write := by
  induction steps with
  | nil => rfl
  | cons s steps ih =>
    cases steps with
    | nil => simp [write]
    | cons s' steps =>
      rw [write, List.map_cons, List.map_cons, String.intercalate_cons_cons, scriptLines_append,
        List.flatMap_cons, ← ih]
      rfl

/-! ## Assignments -/

theorem assignment?_eq {name query : String} (valid : Name.isValid name = true)
    (trimmed : Text.Trimmed query.toList) :
    assignment? (name ++ " = " ++ query) = some (name, query) := by
  have parts : (name ++ " = " ++ query).toList = name.toList ++ [' '] ++ '=' :: ' ' :: query.toList := by
    simp
  have free : '=' ∉ name.toList ++ [' '] := by
    simpa using Name.notMem_of_isValid valid (by decide)
  have name_eq : Text.trimmed (String.ofList (name.toList ++ [' '])) = name := by
    rw [Text.trimmed, String.toList_ofList, Text.trim_append_blanks _ (by decide),
      Name.trim_of_isValid valid, String.ofList_toList]
  have query_eq : Text.trimmed (String.ofList (' ' :: query.toList)) = query := by
    have := Text.trim_append trimmed (by decide : ∀ c ∈ [' '], Text.isBlank c = true) (List.forall_mem_nil _)
    rw [Text.trimmed, String.toList_ofList, ← List.singleton_append, ← List.append_nil query.toList, this,
      String.ofList_toList]
  rw [assignment?, parts, Text.cutAt_append free]
  have head : (' ' :: query.toList).head? ≠ some '=' := by simp
  simp only [name_eq, query_eq, if_pos (And.intro head valid)]

end Program

/-! ## Printed steps -/

namespace Query

/-- No parameter of a query has a line break. -/
def Tree.OneLine (t : Tree) : Prop := t.Every (fun _ => True) fun _ text => '\n' ∉ text.toList

instance (t : Tree) : Decidable t.OneLine :=
  inferInstanceAs (Decidable (t.Every (fun _ => True) fun _ text => '\n' ∉ text.toList))

namespace Tree

theorem trimmed_write {t : Tree} (h : t.Printable) :
    t.write.toList ≠ [] ∧ Text.Trimmed t.write.toList := by
  induction t with
  | relation name =>
    obtain ⟨c, cs, heq, -⟩ := Name.exists_cons_of_isValid h
    refine ⟨by simp [write, heq], Text.trimmed_of_not_blank fun c hc => ?_⟩
    exact Name.isBlank_of_isPart (Name.isPart_of_isValid h c hc)
  | unary op p a ih =>
    rw [toList_write_unary]
    refine ⟨by simp, fun c hc => ?_, ?_⟩
    · obtain rfl : op.symbol = c := by simpa using hc
      exact op.isBlank_symbol
    · have tight := Text.Tight.concat (by decide : Text.isBlank ')' = false)
        (op.symbol :: ' ' :: (p.toList ++ ' ' :: '(' :: a.write.toList))
      simpa using tight
  | binary op a b iha ihb =>
    obtain ⟨ne, trimmed⟩ := iha h.1
    rw [toList_write_binary]
    refine ⟨by simp, trimmed.append ne ?_⟩
    rw [← List.singleton_append]
    have tight : Text.Tight (if b.isBinary then '(' :: (b.write.toList ++ [')']) else b.write.toList) := by
      split
      · exact Text.Tight.concat (by decide) ('(' :: b.write.toList)
      · exact (ihb h.2).2.last
    refine tight.append_left ?_ _
    split
    · simp
    · exact (ihb h.2).1

theorem newline_notMem_write_iff {t : Tree} (h : t.Printable) : '\n' ∉ t.write.toList ↔ t.OneLine := by
  induction t with
  | relation name =>
    have free : '\n' ∉ name.toList := Name.notMem_of_isValid h (by decide)
    exact iff_of_true free trivial
  | unary op p a ih =>
    have symbol : '\n' ≠ op.symbol := by cases op <;> decide
    have operand := ih h.2
    rw [toList_write_unary, OneLine, Every, ← OneLine, ← operand]
    simp [symbol]
  | binary op a b iha ihb =>
    have symbol : '\n' ≠ op.symbol := by cases op <;> decide
    rw [toList_write_binary, OneLine, Every, ← OneLine, ← OneLine, ← iha h.1, ← ihb h.2]
    split <;> simp [symbol]

/-- An operator is no query if its parameter stops before its end. -/
theorem ofText?_unfinished {op : Unary} {p : String} (h : Query.Printable op p) (start rest : List Char)
    (split : ' ' :: p.toList = start ++ rest) :
    ∃ fault, ofText? (String.ofList (op.symbol :: start)) = .error fault := by
  -- the whole parameter does not end before an opening parenthesis, so no start of it does
  have through : Token.skim .outside 0 [] (start ++ rest) = some (.outside, 0) := by
    have space : Token.skim .outside 0 [] [' '] = some (.outside, 0) := Token.skim_of_plain (by decide) 0 []
    rw [← split, ← List.singleton_append, Token.skim_append, space, Option.bind_some,
      Token.skim_fresh (Token.fresh_blanks (by decide))]
    exact h.whole.through
  rw [Token.skim_append] at through
  obtain ⟨⟨q, d⟩, started, -⟩ := Option.bind_eq_some_iff.mp through
  obtain ⟨offset, opened, read⟩ := @Token.parameter?_append .outside q 0 d [] start
    (0 + op.symbol.utf8Size) 0 started []
  rw [List.append_nil, Token.parameter?] at read
  rw [ofText?, Token.ofText?, String.toList_ofList, Token.scan_unary, read]
  split
  · exact ⟨_, rfl⟩
  · next ts scanned =>
    split at scanned
    · obtain ⟨us, nothing, rfl⟩ := map_eq_ok.mp scanned
      rw [Token.scan] at nothing
      obtain rfl := Except.ok.inj nothing
      have unread (text : String) :
          ofTokens? [.unary op, .parameter text] = .error (.missingOperand op text) := by
        rw [ofTokens?]
        all_goals simp [List.findSome?, Token.unknown?, splitLast, Token.binary?, Token.unary?]
      exact ⟨_, by rw [unread]; rfl⟩
    · cases scanned

end Tree

end Query

namespace Program

open Query (Unary Binary Tree)

/-- A step that is read as itself when it is printed on a line. -/
structure Step.Printable (s : Step) : Prop where
  named : Name.isValid s.name = true
  expression : s.expression.Printable

theorem scriptLines_assignment {name query : String} (valid : Name.isValid name = true) {c : Char}
    {cs : List Char} (query_eq : query.toList = c :: cs) (h : Text.isBlank c = false)
    (free : '\n' ∉ query.toList) :
    scriptLines (name ++ " = " ++ query) = [name ++ " = " ++ Text.trimmed query] := by
  obtain ⟨n, ns, name_eq, start, -⟩ := Name.exists_cons_of_isValid valid
  have notBlank := Name.isBlank_of_isPart (Name.isPart_of_isStart start)
  have mem : c ∈ query.toList := query_eq ▸ List.mem_cons_self
  have whole : (name ++ " = " ++ query).toList = n :: (ns ++ " = ".toList ++ query.toList) := by
    simp [name_eq]
  have line : '\n' ∉ (name ++ " = " ++ query).toList := by
    have named : '\n' ∉ name.toList := Name.notMem_of_isValid valid (by decide)
    simp [named, free]
  have trimmed : Text.trimmed (name ++ " = " ++ query) = name ++ " = " ++ Text.trimmed query := by
    apply String.toList_injective
    rw [Text.trimmed, whole, Text.trim_cons notBlank, Text.dropTrailingBlanks_append _ mem h, Text.trimmed,
      query_eq, Text.trim_cons h, Text.dropTrailingBlanks_cons h]
    simp [name_eq]
  rw [scriptLines_of_notMem line (c := n) (whole ▸ List.mem_cons_self) notBlank, trimmed]

namespace Step

variable {s : Step}

theorem toList_write (s : Step) :
    s.write.toList = s.name.toList ++ ' ' :: '=' :: ' ' :: s.expression.write.toList := by
  simp [write]

theorem scriptLines_ne_nil (s : Step) : scriptLines s.write ≠ [] := by
  refine Program.scriptLines_ne_nil (c := '=') ?_ (by decide)
  rw [toList_write]
  simp

theorem scriptLines_write (h : s.Printable) (line : s.expression.OneLine) :
    scriptLines s.write = [s.write] := by
  obtain ⟨ne, trimmed⟩ := Tree.trimmed_write h.expression
  obtain ⟨c, cs, heq⟩ := List.exists_cons_of_ne_nil ne
  have notBlank : Text.isBlank c = false := trimmed.head c (by rw [heq]; rfl)
  have free := (Tree.newline_notMem_write_iff h.expression).mpr line
  rw [write, scriptLines_assignment h.named heq notBlank free, Text.trimmed, Text.trim_of_trimmed trimmed,
    String.ofList_toList]

theorem assignment?_write (h : s.Printable) :
    assignment? s.write = some (s.name, s.expression.write) :=
  assignment?_eq h.named (Tree.trimmed_write h.expression).2

/-- Where a parameter has a line break, the first line of the step ends too early. -/
theorem scriptLines_broken (h : s.Printable) {op : Unary} {p : String} {operand : Tree}
    (expression : s.expression = .unary op p operand) (newline : '\n' ∈ p.toList) :
    ∃ first rest query fault, rest ≠ [] ∧ scriptLines s.write = first :: rest ∧
      assignment? first = some (s.name, query) ∧ Tree.ofText? query = .error fault := by
  obtain ⟨printable, -⟩ : (Tree.unary op p operand).Printable := expression ▸ h.expression
  obtain ⟨before, after, split, free⟩ := List.eq_append_cons_of_mem newline
  -- the query up to the line break, and the text after it
  let started := String.ofList (op.symbol :: ' ' :: before)
  let remaining := String.ofList (after ++ ' ' :: '(' :: (operand.write.toList ++ [')']))
  have written : s.write = s.name ++ " = " ++ started ++ "\n" ++ remaining := by
    apply String.toList_injective
    rw [toList_write, expression, Tree.toList_write_unary, split]
    simp [started, remaining]
  have started_eq : started.toList = op.symbol :: ' ' :: before := String.toList_ofList
  have line : '\n' ∉ started.toList := by
    have symbol : '\n' ≠ op.symbol := by cases op <;> decide
    simp [started_eq, symbol, free]
  have more : scriptLines remaining ≠ [] :=
    Program.scriptLines_ne_nil (c := ')') (by simp [remaining]) (by decide)
  have trimmed : Text.Trimmed (Text.trimmed started).toList := by
    rw [Text.trimmed, String.toList_ofList]
    exact Text.trimmed_trim _
  -- blanks at its end apart, that query is a start of the operator and its parameter
  obtain ⟨back, -, cut⟩ := Text.dropTrailingBlanks_split (' ' :: before)
  obtain ⟨fault, unread⟩ := Tree.ofText?_unfinished printable _ (back ++ '\n' :: after)
    (by rw [split, ← List.append_assoc, ← cut, List.cons_append])
  rw [← Text.trim_cons op.isBlank_symbol, ← started_eq] at unread
  refine ⟨_, _, Text.trimmed started, fault, more, ?_, assignment?_eq h.named trimmed, unread⟩
  rw [written, scriptLines_append, scriptLines_assignment h.named started_eq op.isBlank_symbol line,
    List.singleton_append]

end Step

/-! ## Programs -/

theorem resolve_cons (defs : Name.Map Tree) {line name query : String} {lines : List String}
    (ne : lines ≠ []) (h : assignment? line = some (name, query)) : resolve defs (line :: lines) =
      (readLine defs query).bind fun t => resolve (defs.insert name t) lines := by
  obtain ⟨next, lines, rfl⟩ := List.exists_cons_of_ne_nil ne
  rw [resolve, h]
  · dsimp only
    cases readLine defs query <;> rfl
  · simp

theorem readLine_write (defs : Name.Map Tree) {t : Tree} (h : t.Printable) :
    readLine defs t.write = .ok (inline defs t) := by
  rw [readLine, Tree.ofText?_write h]
  rfl

variable {steps : List Step} {defs : Name.Map Tree}

theorem flatMap_scriptLines_ne_nil (ne : steps ≠ []) :
    (steps.flatMap fun s => scriptLines s.write) ≠ [] := by
  obtain ⟨s, steps, rfl⟩ := List.exists_cons_of_ne_nil ne
  rw [List.flatMap_cons]
  exact List.append_ne_nil_of_left_ne_nil s.scriptLines_ne_nil _

/-- The lines of printed steps are read as the steps. -/
theorem resolve_of_oneLine (printable : ∀ s ∈ steps, s.Printable)
    (line : ∀ s ∈ steps, s.expression.OneLine) {t : Tree} (h : expand defs steps = some t) :
    resolve defs (steps.flatMap fun s => scriptLines s.write) = .ok t := by
  induction steps generalizing defs with
  | nil => cases h
  | cons s steps ih =>
    obtain ⟨first, later⟩ := List.forall_mem_cons.mp printable
    obtain ⟨firstLine, laterLines⟩ := List.forall_mem_cons.mp line
    rw [List.flatMap_cons, Step.scriptLines_write first firstLine, List.singleton_append]
    cases steps with
    | nil =>
      rw [List.flatMap_nil, resolve, Step.assignment?_write first]
      exact (readLine_write defs first.expression).trans (congrArg Except.ok (Option.some.inj h))
    | cons s' steps =>
      have ne : (s' :: steps) ≠ [] := by simp
      rw [resolve_cons defs (flatMap_scriptLines_ne_nil ne) (Step.assignment?_write first),
        readLine_write defs first.expression]
      dsimp only [Except.bind]
      exact ih later laterLines h

/-- At the first step with a line break, reading fails. -/
theorem resolve_of_not_oneLine (printable : ∀ s ∈ steps, s.Printable)
    (operator : ∀ s ∈ steps, s.expression.OneLine ∨ ∃ op p operand,
      s.expression = .unary op p operand ∧ '\n' ∈ p.toList)
    (broken : ∃ s ∈ steps, ¬s.expression.OneLine) :
    ∃ failure, resolve defs (steps.flatMap fun s => scriptLines s.write) = .error failure := by
  induction steps generalizing defs with
  | nil =>
    obtain ⟨s, hs, -⟩ := broken
    cases hs
  | cons s steps ih =>
    obtain ⟨first, later⟩ := List.forall_mem_cons.mp printable
    obtain ⟨firstOperator, laterOperators⟩ := List.forall_mem_cons.mp operator
    rw [List.flatMap_cons]
    -- the steps before the first that breaks are read as they are
    by_cases line : s.expression.OneLine
    · have broken' : ∃ s ∈ steps, ¬s.expression.OneLine := by
        obtain ⟨s', hs', breaks⟩ := broken
        refine ⟨s', (List.mem_cons.mp hs').resolve_left ?_, breaks⟩
        rintro rfl
        exact breaks line
      have ne : steps ≠ [] := by
        obtain ⟨s', hs', -⟩ := broken'
        exact List.ne_nil_of_mem hs'
      rw [Step.scriptLines_write first line, List.singleton_append,
        resolve_cons defs (flatMap_scriptLines_ne_nil ne) (Step.assignment?_write first),
        readLine_write defs first.expression]
      exact ih later laterOperators broken'
    · obtain ⟨op, p, operand, expression, newline⟩ := firstOperator.resolve_left line
      obtain ⟨text, rest, query, fault, ne, lines, assigned, unread⟩ :=
        Step.scriptLines_broken first expression newline
      refine ⟨Failure.ofReadFault fault, ?_⟩
      rw [lines, List.cons_append, resolve_cons defs (List.append_ne_nil_of_left_ne_nil ne _) assigned,
        readLine, unread]
      rfl

/-! ## Programs of queries -/

/-- A step that is added has its expression, also when there is one that has it already. -/
theorem Draft.every_name (avoid : List String) (d : Draft) (e : Tree) {parameter : Unary → String → Prop} :
    (∀ s ∈ (d.name avoid e).2.steps, s.expression.Every (fun _ => True) parameter) ↔
      (∀ s ∈ d.steps, s.expression.Every (fun _ => True) parameter) ∧
        e.Every (fun _ => True) parameter := by
  rw [name]
  split
  · next s found =>
    obtain rfl : s.expression = e := by simpa using List.find?_some found
    exact ⟨fun h => ⟨h, h s (List.mem_of_find?_eq_some found)⟩, And.left⟩
  · rw [List.forall_mem_append, List.forall_mem_singleton]

/-- The steps that are added for a query have its parameters, and the leaf for it has none. -/
theorem Draft.every_visit (avoid : List String) (d : Draft) (t : Tree)
    {parameter : Unary → String → Prop} : (d.visit avoid t).1.Every (fun _ => True) parameter ∧
      ((∀ s ∈ (d.visit avoid t).2.steps, s.expression.Every (fun _ => True) parameter) ↔
        (∀ s ∈ d.steps, s.expression.Every (fun _ => True) parameter) ∧
          t.Every (fun _ => True) parameter) := by
  induction t generalizing d with
  | relation name => exact ⟨trivial, (and_iff_left trivial).symm⟩
  | unary op text operand ih =>
    obtain ⟨leaf, added⟩ := ih d
    refine ⟨trivial, ?_⟩
    rw [visit, every_name, added]
    simp only [Tree.Every, leaf]
    tauto
  | binary op left right ihl ihr =>
    obtain ⟨leftLeaf, addedLeft⟩ := ihl d
    obtain ⟨rightLeaf, addedRight⟩ := ihr (d.visit avoid left).2
    refine ⟨trivial, ?_⟩
    rw [visit, every_name, addedRight, addedLeft]
    simp only [Tree.Every, leftLeaf, rightLeaf]
    tauto

theorem every_ofTree (env : Environment) (t : Tree) {parameter : Unary → String → Prop} :
    (∀ s ∈ ofTree env t, s.expression.Every (fun _ => True) parameter) ↔
      t.Every (fun _ => True) parameter := by
  have start : ∀ s ∈ (⟨[], 0⟩ : Draft).steps, s.expression.Every (fun _ => True) parameter :=
    fun _ hs => nomatch hs
  cases t with
  | relation name => exact (Draft.every_name _ _ _).trans (and_iff_right start)
  | unary op text operand => exact (Draft.every_visit _ _ _).2.trans (and_iff_right start)
  | binary op left right => exact (Draft.every_visit _ _ _).2.trans (and_iff_right start)

theorem oneOperator_of_mem_ofTree {env : Environment} {t : Tree} {s : Step} (hs : s ∈ ofTree env t) :
    OneOperator (Known t.leaves (ofTree env t)) s.expression ∨
      s.expression = t ∧ ∃ n, t = .relation n := by
  by_cases leaf : ∃ n, t = .relation n
  · obtain ⟨n, rfl⟩ := leaf
    obtain rfl := List.mem_singleton.mp hs
    exact .inr ⟨rfl, n, rfl⟩
  · obtain ⟨d, e, steps, -, adds⟩ := exists_draft env fun n same => leaf ⟨n, same⟩
    rw [steps] at hs ⊢
    exact .inl (adds.sound.ordered.get?_definitions hs).1

theorem printable_of_mem_ofTree {env : Environment} {t : Tree} (h : t.Printable) {s : Step}
    (hs : s ∈ ofTree env t) : s.Printable := by
  obtain ⟨parameters, leaves⟩ := Tree.every_iff.mp h
  refine ⟨isValid_of_mem_ofTree hs, Tree.every_iff.mpr ⟨(every_ofTree env t).mpr parameters s hs, ?_⟩⟩
  intro n hn
  rcases oneOperator_of_mem_ofTree hs with one | ⟨same, -⟩
  · rcases one.known_of_mem_leaves hn with leaf | named
    · exact leaves n leaf
    · obtain ⟨s', hs', rfl⟩ := List.mem_map.mp named
      exact isValid_of_mem_ofTree hs'
  · exact leaves n (same ▸ hn)

theorem ofScript?_write (env : Environment) (t : Tree) : ofScript? (write (ofTree env t)) =
    resolve .empty ((ofTree env t).flatMap fun s => scriptLines s.write) := by
  rw [ofScript?, scriptLines_write]

theorem ofScript?_of_oneLine {t : Tree} (h : t.Printable) (line : t.OneLine) (env : Environment) :
    ofScript? (write (ofTree env t)) = .ok t := by
  rw [ofScript?_write]
  exact resolve_of_oneLine (fun s hs => printable_of_mem_ofTree h hs) ((every_ofTree env t).mpr line)
    (expand_ofTree env t)

theorem ofScript?_of_not_oneLine {t : Tree} (h : t.Printable) (breaks : ¬t.OneLine) (env : Environment) :
    ∃ failure, ofScript? (write (ofTree env t)) = .error failure := by
  rw [ofScript?_write]
  refine resolve_of_not_oneLine (fun s hs => printable_of_mem_ofTree h hs) (fun s hs => ?_) ?_
  · rcases oneOperator_of_mem_ofTree hs with one | ⟨same, n, rfl⟩
    · generalize s.expression = e at one
      cases one with
      | unary op p known =>
        by_cases newline : '\n' ∈ p.toList
        · exact .inr ⟨op, p, _, rfl, newline⟩
        · exact .inl ⟨newline, trivial⟩
      | binary op left right => exact .inl ⟨trivial, trivial⟩
    · exact .inl (same ▸ trivial)
  · by_contra none
    refine breaks ((every_ofTree env t).mp fun s hs => ?_)
    by_contra broken
    exact none ⟨s, hs, broken⟩

/-- A program that is printed is read as the query that it was made of, unless a parameter has a line
break; it is never read as another one. -/
theorem printed_program_is_read_back_iff {text : String} {t : Tree} (h : Tree.ofText? text = .ok t)
    (env : Environment) : (ofScript? (write (ofTree env t)) = .ok t ↔ t.OneLine) ∧
      ∀ u, ofScript? (write (ofTree env t)) = .ok u → u = t := by
  have printable := Query.printable_of_ofText? h
  by_cases line : t.OneLine
  · have read := ofScript?_of_oneLine printable line env
    exact ⟨iff_of_true read line, fun u hu => Except.ok.inj (hu.symm.trans read)⟩
  · obtain ⟨failure, unread⟩ := ofScript?_of_not_oneLine printable line env
    rw [unread]
    exact ⟨iff_of_false (nomatch ·) line, fun u hu => nomatch hu⟩

def shared : String := "π a (σ a == 'x = y' (r ⋈ s)) ∪ π a (σ b >= 1 (r ⋈ s))"

theorem shared_program_is_read_back :
    ∃ t, Tree.ofText? shared = .ok t ∧ ofScript? (write (ofTree .empty t)) = .ok t := by
  have read : Tree.ofText? shared = .ok (.binary .union
      (.projection "a" (.selection "a == 'x = y'" (.binary .join (.relation "r") (.relation "s"))))
      (.projection "a" (.selection "b >= 1" (.binary .join (.relation "r") (.relation "s"))))) := by
    decide +kernel
  exact ⟨_, read, (printed_program_is_read_back_iff read .empty).1.mpr (by decide +kernel)⟩

/-- A line break inside of quotes ends the step too early. -/
theorem line_break_ends_step : ∃ t, Tree.ofText? "σ a == 'x\ny' (r)" = .ok t ∧
    write (ofTree .empty t) = "optm_a = σ a == 'x\ny' (r)" ∧
      ofScript? (write (ofTree .empty t)) = .error (.parse (.missingOperand .selection "a == 'x")) :=
  ⟨.selection "a == 'x\ny'" (.relation "r"), by decide +kernel, by decide +kernel, by decide +kernel⟩

end Program

end RelationalAlgebra
