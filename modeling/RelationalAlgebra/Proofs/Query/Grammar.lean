import Mathlib.Data.List.Chain
import RelationalAlgebra.Proofs.Query.Printing
/-!
# The grammar of queries

A query is an operand, or a query, an infix operator and an operand.  An operand is a term, which is the
name of a relation or a group that is a query, or an operator with its parameter and one term.  The
reader looks for the last infix operator instead; what it accepts are the lists of tokens that this
grammar derives, and it reads each as the tree of its derivation.
-/

namespace RelationalAlgebra.Query

def Unary.Accepts : Unary → String → Prop
  | selection, p => p ≠ ""
  | projection, p => ∃ names, Projection.ofText? p = .ok names
  | rename, p => ∃ r, Renaming.ofText? p = .ok r

theorem Tree.checkParameter_eq_ok_iff {op : Unary} {p : String} :
    checkParameter op p = .ok () ↔ op.Accepts p := by
  cases op with
  | selection =>
    rw [checkParameter, Unary.Accepts]
    split
    · next empty => simp [empty]
    · next some => simp [some]
  | projection => simp [checkParameter, Unary.Accepts, map_eq_ok]
  | rename => simp [checkParameter, Unary.Accepts, map_eq_ok]

mutual

/-- The lists of tokens that derive a query.  The operators associate to the left: an infix operator has
a query before it and a single operand after it. -/
inductive IsQuery : List Token → Tree → Prop
  | operand {ts : List Token} {t : Tree} (h : IsOperand ts t) : IsQuery ts t
  | binary {before after : List Token} {a b : Tree} (op : Binary) (left : IsQuery before a)
      (right : IsOperand after b) : IsQuery (before ++ .binary op :: after) (.binary op a b)

inductive IsOperand : List Token → Tree → Prop
  | term {x : Token} {t : Tree} (h : IsTerm x t) : IsOperand [x] t
  | unary {op : Unary} {p : String} {x : Token} {t : Tree} (accepted : op.Accepts p)
      (h : IsTerm x t) : IsOperand [.unary op, .parameter p, x] (.unary op p t)

inductive IsTerm : Token → Tree → Prop
  | relation {name : String} (valid : Name.isValid name = true) :
      IsTerm (.relation name) (.relation name)
  | group {ts : List Token} {t : Tree} (h : IsQuery ts t) : IsTerm (.group ts) t

end

/-! ## The tokens of a derivation -/

def Token.isTerm : Token → Bool
  | relation _ | group _ => true
  | _ => false

def Token.opens : Token → Bool
  | relation _ | group _ | unary _ => true
  | _ => false

def Token.precedes : Token → Token → Bool
  | relation _, binary _ | group _, binary _ => true
  | binary _, y => y.opens
  | unary _, parameter _ => true
  | parameter _, y => y.isTerm
  | _, _ => false

variable {x y : Token} {ts before after : List Token} {t a b : Tree}

theorem IsTerm.isTerm (h : IsTerm x t) : x.isTerm = true := by
  cases h <;> rfl

theorem Token.opens_of_isTerm (h : x.isTerm = true) : x.opens = true := by
  cases x <;> first | rfl | cases h

/-- A list that starts with an operand, ends with a term, and has tokens side by side that may stand so. -/
structure Proper (ts : List Token) : Prop where
  starts : ts.head?.any Token.opens = true
  ends : ts.getLast?.any Token.isTerm = true
  chain : ts.IsChain fun x y => x.precedes y = true

theorem Proper.ne_nil (h : Proper ts) : ts ≠ [] := by
  rintro rfl
  cases h.starts

theorem IsOperand.proper (h : IsOperand ts t) : Proper ts := by
  cases h with
  | term h => exact ⟨Token.opens_of_isTerm h.isTerm, h.isTerm, .singleton _⟩
  | unary accepted h => exact ⟨rfl, h.isTerm, .cons_cons rfl (.cons_cons h.isTerm (.singleton _))⟩

theorem Proper.binary (left : Proper before) (op : Binary) (right : Proper after) :
    Proper (before ++ .binary op :: after) := by
  obtain ⟨before, x, rfl⟩ := List.eq_nil_or_concat before |>.resolve_left left.ne_nil
  obtain ⟨y, after, rfl⟩ := List.exists_cons_of_ne_nil right.ne_nil
  have last : x.isTerm = true := by simpa using left.ends
  refine ⟨?_, ?_, ?_⟩
  · simpa [List.head?_append] using left.starts
  · rw [List.getLast?_append_cons, List.getLast?_cons_cons]
    exact right.ends
  · refine List.IsChain.append left.chain (.cons_cons right.starts right.chain) ?_
    intro z hz w hw
    obtain rfl : x = z := by simpa using hz
    obtain rfl : Token.binary op = w := by simpa using hw
    cases x <;> first | rfl | cases last

theorem IsQuery.proper {ts : List Token} {t : Tree} : IsQuery ts t → Proper ts
  | .operand h => h.proper
  | .binary op left right => left.proper.binary op right.proper

/-- A token of such a list has neighbours that it may stand beside, or is at an end where it may be. -/
theorem Proper.neighbours (h : Proper (before ++ x :: after)) :
    before.getLast?.elim x.opens (·.precedes x) = true ∧
      after.head?.elim x.isTerm (x.precedes ·) = true := by
  obtain ⟨-, rest, adjacent⟩ := List.isChain_append.mp h.chain
  constructor
  · cases hlast : before.getLast? with
    | none =>
      obtain rfl := List.getLast?_eq_none_iff.mp hlast
      simpa using h.starts
    | some y => exact adjacent y hlast x rfl
  · cases after with
    | nil => simpa using h.ends
    | cons y after => exact (List.isChain_cons_cons.mp rest).1

/-- A query is an operand unless there is an infix operator in it. -/
theorem IsQuery.isOperand (h : IsQuery ts t) (none : ∀ x ∈ ts, x.binary? = .none) : IsOperand ts t := by
  cases h with
  | operand h => exact h
  | binary op left right => cases none (.binary op) (by simp)

theorem IsQuery.isTerm (h : IsQuery [x] t) : IsTerm x t := by
  have single := h.proper.ends
  have noOperator : ∀ y ∈ [x], y.binary? = none := by
    cases x with
    | binary op => cases single
    | _ => simp [Token.binary?]
  cases h.isOperand noOperator with
  | term h => exact h

/-! ## Reading what the grammar derives -/

theorem Token.none_of_isTerm (h : x.isTerm = true) :
    x.unknown? = none ∧ x.binary? = none ∧ x.unary? = none := by
  cases x <;> first | exact ⟨rfl, rfl, rfl⟩ | cases h

theorem Proper.unknown? (h : Proper ts) : ts.findSome? Token.unknown? = none := by
  refine List.findSome?_eq_none_iff.mpr fun x hx => ?_
  obtain ⟨before, after, rfl⟩ := List.append_of_mem hx
  cases x with
  | unknown text =>
    -- nothing precedes an unknown text, and it opens no list
    have left := h.neighbours.1
    cases hlast : before.getLast? with
    | none =>
      rw [hlast] at left
      cases left
    | some y =>
      rw [hlast] at left
      cases y <;> cases left
  | _ => rfl

theorem IsOperand.binary? (h : IsOperand ts t) : ∀ x ∈ ts, x.binary? = none := by
  cases h with
  | term h => simpa using (Token.none_of_isTerm h.isTerm).2.1
  | unary accepted h => simpa [Token.binary?] using (Token.none_of_isTerm h.isTerm).2.1

mutual

theorem IsQuery.ofTokens? {ts : List Token} {t : Tree} : IsQuery ts t → Tree.ofTokens? ts = .ok t
  | .operand h => h.ofTokens?
  | .binary op left right => by
    have known := (IsQuery.binary op left right).proper.unknown?
    rw [Tree.ofTokens?_binary left.proper.ne_nil right.proper.ne_nil right.binary? known,
      left.ofTokens?, right.ofTokens?]
    rfl

theorem IsOperand.ofTokens? {ts : List Token} {t : Tree} : IsOperand ts t → Tree.ofTokens? ts = .ok t
  | .term h => h.ofTokens?
  | .unary accepted h => by
    obtain ⟨known, noBinary, noUnary⟩ := Token.none_of_isTerm h.isTerm
    rw [Tree.ofTokens?_unary_token known noBinary noUnary (Tree.checkParameter_eq_ok_iff.mpr accepted),
      h.ofTokens?]
    rfl

theorem IsTerm.ofTokens? {x : Token} {t : Tree} : IsTerm x t → Tree.ofTokens? [x] = .ok t
  | .relation valid => by
    rw [Tree.ofTokens?]
    simp [Token.unknown?, valid]
  | .group h => by rw [Tree.ofTokens?_group h.proper.ne_nil, h.ofTokens?]

end

/-! ## Deriving what is read -/

theorem binary?_of_splitLast {op : Binary} (h : splitLast Token.binary? ts = some (before, op, after)) :
    ts = before ++ .binary op :: after := by
  obtain ⟨x, rfl, isOperator⟩ := eq_append_of_splitLast h
  cases x <;> cases isOperator
  rfl

theorem unary?_of_splitLast {op : Unary} (h : splitLast Token.unary? ts = some (before, op, after)) :
    ts = before ++ .unary op :: after := by
  obtain ⟨x, rfl, isOperator⟩ := eq_append_of_splitLast h
  cases x <;> cases isOperator
  rfl

theorem isQuery_of_ofTokens? (h : Tree.ofTokens? ts = .ok t) : IsQuery ts t := by
  fun_induction Tree.ofTokens? ts generalizing t with
  | case4 inner known some ih => exact .operand (.term (.group (ih h)))
  | case5 name valid known =>
    obtain rfl := Except.ok.inj h
    exact .operand (.term (.relation valid))
  | case10 ts _ _ _ before op after cut _ _ left hleft known ihl ihr =>
    obtain ⟨right, hright, rfl⟩ := map_eq_ok.mp h
    obtain rfl := binary?_of_splitLast cut
    exact .binary op (ihl hleft) ((ihr hright).isOperand (Tree.forall_of_splitLast cut))
  | case13 ts _ _ _ _ before op empty p operand cut checked known _ ih =>
    obtain ⟨a, ha, rfl⟩ := map_eq_ok.mp h
    obtain rfl := unary?_of_splitLast cut
    obtain rfl : before = [] := by simpa using empty
    exact .operand (.unary (Tree.checkParameter_eq_ok_iff.mp checked) (ih ha).isTerm)
  | _ => cases h

theorem ofTokens?_eq_ok_iff : Tree.ofTokens? ts = .ok t ↔ IsQuery ts t :=
  ⟨isQuery_of_ofTokens?, IsQuery.ofTokens?⟩

/-! ## Lists that derive no query -/

/-- What makes a list of tokens no query, whatever else is in it and however deep it stands. -/
inductive Flawed : List Token → Prop
  | empty : Flawed []
  | unknown {before after : List Token} (text : String) : Flawed (before ++ .unknown text :: after)
  | strayParameter {before after : List Token} {p : String}
      (stray : ∀ op, before.getLast? ≠ some (.unary op)) : Flawed (before ++ .parameter p :: after)
  | missingParameter {before after : List Token} {op : Unary}
      (missing : ∀ p, after.head? ≠ some (.parameter p)) : Flawed (before ++ .unary op :: after)
  | missingOperand {before after : List Token} {p : String}
      (missing : after.head?.any Token.isTerm = false) : Flawed (before ++ .parameter p :: after)
  | missingLeft {before after : List Token} {op : Binary}
      (missing : before.getLast?.any Token.isTerm = false) : Flawed (before ++ .binary op :: after)
  | missingRight {before after : List Token} {op : Binary}
      (missing : after.head?.any Token.opens = false) : Flawed (before ++ .binary op :: after)
  | surplus {before after : List Token} {x y : Token} (term : x.isTerm = true) (more : y.opens = true) :
      Flawed (before ++ x :: y :: after)
  | inside {before after inner : List Token} (h : Flawed inner) :
      Flawed (before ++ .group inner :: after)

/-- What a group in a query contains is a query. -/
theorem IsTerm.group_iff {inner : List Token} : IsTerm (.group inner) t ↔ IsQuery inner t :=
  ⟨fun | .group h => h, .group⟩

theorem IsQuery.of_group_mem {inner : List Token} {ts : List Token} {t : Tree} :
    IsQuery ts t → .group inner ∈ ts → ∃ t, IsQuery inner t
  | .operand (.term h), mem => by
    obtain rfl := List.mem_singleton.mp mem
    exact ⟨_, IsTerm.group_iff.mp h⟩
  | .operand (.unary accepted h), mem => by
    obtain rfl : Token.group inner = _ := by simpa using mem
    exact ⟨_, IsTerm.group_iff.mp h⟩
  | .binary op left right, mem => by
    rcases List.mem_append.mp mem with mem | mem
    · exact left.of_group_mem mem
    · exact (IsQuery.operand right).of_group_mem (by simpa using mem)

theorem Token.eq_of_precedes_parameter {p : String} (h : x.precedes (.parameter p) = true) :
    ∃ op, x = .unary op := by
  cases x <;> first | exact ⟨_, rfl⟩ | cases h

theorem Token.eq_of_unary_precedes {op : Unary} (h : (Token.unary op).precedes x = true) :
    ∃ p, x = .parameter p := by
  cases x <;> first | exact ⟨_, rfl⟩ | cases h

theorem Token.isTerm_of_precedes_binary {op : Binary} (h : x.precedes (.binary op) = true) :
    x.isTerm = true := by
  cases x <;> first | rfl | cases h

theorem Token.not_precedes_of_isTerm (term : x.isTerm = true) (more : y.opens = true) :
    x.precedes y = false := by
  cases y with
  | relation _ | group _ | unary _ =>
    cases x <;> first | rfl | cases term
  | _ => cases more

theorem Flawed.not_isQuery (h : Flawed ts) (t : Tree) : ¬IsQuery ts t := by
  intro query
  have proper := query.proper
  induction h generalizing t with
  | empty => exact proper.ne_nil rfl
  | unknown text => cases List.findSome?_eq_none_iff.mp proper.unknown? (.unknown text) (by simp)
  | @strayParameter before _ p stray =>
    have left := proper.neighbours.1
    cases hlast : before.getLast? with
    | none => simp [hlast, Token.opens] at left
    | some y =>
      rw [hlast] at left
      obtain ⟨op, rfl⟩ := Token.eq_of_precedes_parameter left
      exact stray op hlast
  | @missingParameter _ after op missing =>
    have right := proper.neighbours.2
    cases hfirst : after.head? with
    | none => simp [hfirst, Token.isTerm] at right
    | some y =>
      rw [hfirst] at right
      obtain ⟨p, rfl⟩ := Token.eq_of_unary_precedes right
      exact missing p hfirst
  | @missingOperand _ after p missing =>
    have right := proper.neighbours.2
    cases hfirst : after.head? with
    | none => simp [hfirst, Token.isTerm] at right
    | some y => simp_all [Token.precedes]
  | @missingLeft before _ op missing =>
    have left := proper.neighbours.1
    cases hlast : before.getLast? with
    | none => simp [hlast, Token.opens] at left
    | some y =>
      rw [hlast] at left missing
      exact Bool.false_ne_true (missing.symm.trans (Token.isTerm_of_precedes_binary left))
  | @missingRight _ after op missing =>
    have right := proper.neighbours.2
    cases hfirst : after.head? with
    | none => simp [hfirst, Token.isTerm] at right
    | some y => simp_all [Token.precedes]
  | surplus term more =>
    have right := proper.neighbours.2
    rw [List.head?_cons, Option.elim_some, Token.not_precedes_of_isTerm term more] at right
    cases right
  | @inside before after inner _ ih =>
    have mem : .group inner ∈ before ++ .group inner :: after := by simp
    obtain ⟨t, inside⟩ := query.of_group_mem mem
    exact ih t inside inside.proper

/-- The reader accepts the lists of tokens that derive a query, each as the query it derives; all others
are faults, and so is each list with a flaw at any depth. -/
theorem tokens_are_read_by_grammar (ts : List Token) :
    (∀ t, Tree.ofTokens? ts = .ok t ↔ IsQuery ts t) ∧
      ((∃ fault, Tree.ofTokens? ts = .error fault) ↔ ∀ t, ¬IsQuery ts t) ∧
      (Flawed ts → ∃ fault, Tree.ofTokens? ts = .error fault) := by
  have faults : (∃ fault, Tree.ofTokens? ts = .error fault) ↔ ∀ t, ¬IsQuery ts t := by
    rw [exists_error_iff, not_exists]
    exact forall_congr' fun t => not_congr ofTokens?_eq_ok_iff
  exact ⟨fun t => ofTokens?_eq_ok_iff, faults, fun flawed => faults.mpr flawed.not_isQuery⟩

def emptyInside : List Token :=
  [.relation "a", .binary .union, .group [.unary .selection, .parameter "x > 1", .group []]]

theorem empty_group_inside_is_a_fault : ∃ fault, Tree.ofTokens? emptyInside = .error fault := by
  have group : Flawed [.unary .selection, .parameter "x > 1", .group []] :=
    @Flawed.inside [.unary .selection, .parameter "x > 1"] [] [] .empty
  have flawed : Flawed emptyInside := @Flawed.inside [.relation "a", .binary .union] [] _ group
  exact (tokens_are_read_by_grammar emptyInside).2.2 flawed

end RelationalAlgebra.Query
