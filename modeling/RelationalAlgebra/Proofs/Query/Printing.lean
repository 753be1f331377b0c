import RelationalAlgebra.Proofs.Query.Brackets
import RelationalAlgebra.Proofs.Query.Parameters
/-!
# Queries that are printed and read

A query that has been read is printed as a text that is read as that query again.  What reading needs is
that every parameter ends where it is printed to end, and what reading gives has such parameters.
-/

namespace RelationalAlgebra.Query

open Token (Whole)

/-! ## Queries that can be printed -/

/-- A parameter that ends where it is printed to end, and that its operator takes. -/
structure Printable (op : Unary) (text : String) : Prop where
  whole : Whole text.toList
  trimmed : Text.Trimmed text.toList
  checked : Tree.checkParameter op text = .ok ()

def Tree.Printable (t : Tree) : Prop := t.Every (fun n => Name.isValid n = true) Query.Printable

def Tree.tokens : Tree → List Token
  | relation name => [.relation name]
  | unary op parameter operand => [.unary op, .parameter parameter, .group operand.tokens]
  | binary op left right =>
    left.tokens ++ .binary op :: (if right.isBinary then [.group right.tokens] else right.tokens)

/-! ## Scanning printed queries -/

/-- A text has these tokens, wherever it stands. -/
def Scans (cs : List Char) (ts : List Token) : Prop := ∀ offset, Token.scan offset cs = .ok ts

theorem Binary.atStart?_eq_none {c : Char} (h : Name.isPart c = true) (cs : List Char) :
    Binary.atStart? (c :: cs) = none := by
  have heads : ∀ op ∈ Binary.all, ∀ s ∈ op.spellings, s.head?.any (!Name.isPart ·) = true := by decide
  rw [Binary.atStart?, List.findSome?_eq_none_iff]
  intro op hop
  rw [Option.map_eq_none_iff, List.find?_eq_none]
  intro s hs fits
  obtain ⟨rest, heq⟩ := List.isPrefixOf_iff_prefix.mp fits
  have other := heads op hop s hs
  cases s with
  | nil => cases other
  | cons d r =>
    obtain rfl := (List.cons.inj heq).1
    simp [h] at other

theorem Unary.ofSymbol?_eq_none {c : Char} (h : Name.isPart c = true) : Unary.ofSymbol? c = none := by
  rw [Unary.ofSymbol?, List.find?_eq_none]
  intro op _ same
  have other : Name.isPart op.symbol = false := by cases op <;> decide
  rw [of_decide_eq_true same, h] at other
  cases other

theorem Unary.isBlank_symbol (op : Unary) : Text.isBlank op.symbol = false := by cases op <;> decide

/-- At an operator the parameter is read, and then what follows it. -/
theorem Token.scan_unary (op : Unary) (offset : Nat) (cs : List Char) :
    scan offset (op.symbol :: cs) =
      (parameter? (offset + op.symbol.utf8Size) .outside 0 0 [] cs).bind fun (text, rest) =>
        (scan (offset + op.symbol.utf8Size + Text.byteSize text) rest).map fun ts =>
          .unary op :: .parameter (String.ofList (Text.trim text)) :: ts := by
  have paren : op.symbol ≠ '(' ∧ op.symbol ≠ ')' := by cases op <;> decide
  rw [scan]
  simp only [op.isBlank_symbol, if_neg paren.1, if_neg paren.2, Bool.false_eq_true, if_false]
  split
  · next op' isUnary =>
    rw [Unary.ofSymbol?_symbol] at isUnary
    obtain rfl := Option.some.inj isUnary
    split
    · next read =>
      rw [read]
      rfl
    · next read =>
      rw [read]
      rfl
  · next noUnary =>
    rw [Unary.ofSymbol?_symbol] at noUnary
    cases noUnary

namespace Scans

variable {op : Unary} {rest : List Char} {ts us : List Token}

theorem nil : Scans [] [] := fun offset => by rw [Token.scan]

/-- A name, an operator or an unknown text that no parenthesis and no blank starts. -/
theorem simple {c : Char} {w : List Char} {t : Token} (blank : Text.isBlank c = false)
    (paren : c ≠ '(' ∧ c ≠ ')') (noUnary : Unary.ofSymbol? c = none)
    (token : Token.simple c (w ++ rest) = (t, w.length)) (h : Scans rest ts) :
    Scans (c :: w ++ rest) (t :: ts) := by
  intro offset
  have later := h (offset + c.utf8Size + Text.byteSize w)
  rw [List.cons_append, Token.scan]
  simp only [blank, if_neg paren.1, if_neg paren.2, Bool.false_eq_true, if_false]
  split
  · next op isUnary =>
    rw [noUnary] at isUnary
    cases isUnary
  · rw [token]
    simp only [List.take_left, List.drop_left, later]
    rfl

theorem blank {c : Char} (blank : Text.isBlank c = true) (h : Scans rest ts) : Scans (c :: rest) ts := by
  intro offset
  rw [Token.scan]
  simp only [blank, if_true]
  exact h _

theorem group {inner : List Char} (level : Token.level .outside 0 inner = some (.outside, 0))
    (hinner : Scans inner us) (h : Scans rest ts) :
    Scans ('(' :: (inner ++ ')' :: rest)) (.group us :: ts) := by
  intro offset
  have notBlank : Text.isBlank '(' = false := by decide
  rw [Token.scan]
  simp only [notBlank, Bool.false_eq_true, if_false, if_true]
  split
  · next unmatched =>
    rw [Token.closing?_group level] at unmatched
    cases unmatched
  · next inner' rest' closed =>
    rw [Token.closing?_group level] at closed
    obtain ⟨rfl, rfl⟩ := Prod.mk.inj (Option.some.inj closed)
    rw [hinner 0, h]
    rfl

theorem unary {p : String} (printable : Printable op p) (h : Scans ('(' :: rest) ts) :
    Scans (op.symbol :: ' ' :: (p.toList ++ ' ' :: '(' :: rest)) (.unary op :: .parameter p :: ts) := by
  intro offset
  have trim : Text.trim (' ' :: (p.toList ++ [' '])) = p.toList := by
    rw [← List.singleton_append]
    exact Text.trim_append printable.trimmed (by decide) (by decide)
  rw [Token.scan_unary, Token.parameter?_of_whole printable.whole]
  simp only [Except.bind, h _, trim, String.ofList_toList, Except.map]

theorem binary (op : Binary) (h : Scans rest ts) : Scans (op.symbol :: rest) (.binary op :: ts) := by
  have blank : Text.isBlank op.symbol = false := by cases op <;> decide
  have paren : op.symbol ≠ '(' ∧ op.symbol ≠ ')' := by cases op <;> decide
  have noUnary : Unary.ofSymbol? op.symbol = none := by cases op <;> decide
  have token : Token.simple op.symbol ([] ++ rest) = (.binary op, 0) := by
    cases op <;>
      simp [Token.simple, Binary.atStart?, Binary.all, Binary.spellings, Binary.symbol]
  exact simple blank paren noUnary token h

theorem relation {name : String} (valid : Name.isValid name = true)
    (ends : rest.head?.any Name.isPart = false) (h : Scans rest ts) :
    Scans (name.toList ++ rest) (.relation name :: ts) := by
  obtain ⟨c, w, heq, start, parts⟩ := Name.exists_cons_of_isValid valid
  have part : Name.isPart c = true := by simp [Name.isPart, start]
  have paren : c ≠ '(' ∧ c ≠ ')' := by
    refine ⟨?_, ?_⟩
    all_goals
      rintro rfl
      cases part
  have token : Token.simple c (w ++ rest) = (.relation name, w.length) := by
    have tail := Predicate.Lexeme.takeWhile_append_of_head parts ends
    rw [Token.simple, Binary.atStart?_eq_none part]
    simp only [start, if_true, tail, ← heq, String.ofList_toList]
  rw [heq]
  exact simple (Name.isBlank_of_isPart part) paren (Unary.ofSymbol?_eq_none part) token h

end Scans

/-! ## Printed queries as texts -/

namespace Tree

theorem toList_write_unary (op : Unary) (p : String) (a : Tree) :
    (unary op p a).write.toList =
      op.symbol :: ' ' :: (p.toList ++ ' ' :: '(' :: (a.write.toList ++ [')'])) := by
  simp [write, String.toList_append]

theorem toList_write_binary (op : Binary) (a b : Tree) :
    (binary op a b).write.toList = a.write.toList ++ op.symbol ::
      (if b.isBinary then '(' :: (b.write.toList ++ [')']) else b.write.toList) := by
  by_cases isBinary : b.isBinary = true
  · simp [write, String.toList_append, isBinary]
  · simp [write, String.toList_append, isBinary]

theorem level_group {cs : List Char} (h : Token.level .outside 0 cs = some (.outside, 0)) :
    Token.level .outside 0 ('(' :: (cs ++ [')'])) = some (.outside, 0) := by
  have inside := Token.level_add h 1
  rw [Token.level_cons, Token.depthAfter_open, Option.bind_some, Token.level_append]
  rw [show Quotation.next .outside '(' = .outside from rfl, inside]
  rfl

theorem level_write {t : Tree} (h : t.Printable) :
    Token.level .outside 0 t.write.toList = some (.outside, 0) := by
  induction t with
  | relation name =>
    refine Token.level_of_plain (fun c hc => ?_) 0
    have part := Name.isPart_of_isValid h c hc
    refine ⟨?_, ?_, ?_, ?_⟩
    all_goals
      rintro rfl
      cases part
  | unary op p a ih =>
    have symbol : Token.level .outside 0 [op.symbol, ' '] = some (.outside, 0) := by
      cases op <;> rfl
    have space : Token.level .outside 0 [' '] = some (.outside, 0) := rfl
    have group := level_group (ih h.2)
    rw [toList_write_unary, show op.symbol :: ' ' :: (p.toList ++ ' ' :: '(' :: (a.write.toList ++ [')'])) =
      [op.symbol, ' '] ++ (p.toList ++ ([' '] ++ ('(' :: (a.write.toList ++ [')'])))) from rfl]
    rw [Token.level_append, symbol, Option.bind_some, Token.level_append, h.1.whole.level,
      Option.bind_some, Token.level_append, space, Option.bind_some, group]
  | binary op a b iha ihb =>
    have symbol : Token.level .outside 0 [op.symbol] = some (.outside, 0) := by
      cases op <;> rfl
    have right : Token.level .outside 0
        (if b.isBinary then '(' :: (b.write.toList ++ [')']) else b.write.toList) =
          some (.outside, 0) := by
      split
      · exact level_group (ihb h.2)
      · exact ihb h.2
    rw [toList_write_binary, Token.level_append, iha h.1, Option.bind_some, ← List.singleton_append,
      Token.level_append, symbol, Option.bind_some, right]

/-- A printed query has its tokens, also where another text follows that does not go on with a name. -/
theorem scans_write {t : Tree} (h : t.Printable) {rest : List Char} {ts : List Token}
    (ends : rest.head?.any Name.isPart = false) (hrest : Scans rest ts) :
    Scans (t.write.toList ++ rest) (t.tokens ++ ts) := by
  induction t generalizing rest ts with
  | relation name => exact .relation h ends hrest
  | unary op p a ih =>
    have operand : Scans a.write.toList a.tokens := by
      simpa using @ih h.2 [] [] rfl Scans.nil
    have group := Scans.group (level_write h.2) operand hrest
    have whole := Scans.unary h.1 group
    rw [toList_write_unary]
    simpa [tokens] using whole
  | binary op a b iha ihb =>
    have right : Scans
        ((if b.isBinary then '(' :: (b.write.toList ++ [')']) else b.write.toList) ++ rest)
        ((if b.isBinary then [.group b.tokens] else b.tokens) ++ ts) := by
      split
      · have operand : Scans b.write.toList b.tokens := by
          simpa using @ihb h.2 [] [] rfl Scans.nil
        simpa using Scans.group (level_write h.2) operand hrest
      · exact ihb h.2 ends hrest
    have symbol : (op.symbol :: (if b.isBinary then '(' :: (b.write.toList ++ [')'])
        else b.write.toList) ++ rest).head?.any Name.isPart = false := by
      cases op <;> rfl
    have left := iha h.1 symbol (Scans.binary op right)
    rw [toList_write_binary]
    simpa [tokens] using left

/-! ## Reading the tokens of a query -/

theorem tokens_ne_nil (t : Tree) : t.tokens ≠ [] := by
  cases t <;> simp [tokens]

theorem unknown?_tokens (t : Tree) : t.tokens.findSome? Token.unknown? = none := by
  induction t with
  | relation name => rfl
  | unary op p a => rfl
  | binary op a b iha ihb =>
    rw [tokens, List.findSome?_append, iha]
    cases h : b.isBinary with
    | true => simp [Token.unknown?]
    | false =>
      rw [if_neg (by simp), List.findSome?_cons, ihb]
      rfl

section Splitting

variable {α β : Type} {p : α → Option β} {a : α} {b : β} {as before after : List α}

theorem splitLast_eq_none_iff : splitLast p as = none ↔ ∀ x ∈ as, p x = none := by
  induction as with
  | nil => simp [splitLast]
  | cons x xs ih =>
    rw [splitLast, List.forall_mem_cons]
    split
    · next cut => simp [← ih, cut]
    · next later => simp [← ih, later]

theorem forall_of_splitLast (h : splitLast p as = some (before, b, after)) : ∀ x ∈ after, p x = none := by
  induction as generalizing before with
  | nil => simp [splitLast] at h
  | cons x xs ih =>
    rw [splitLast] at h
    split at h
    · next cut =>
      obtain ⟨-, rfl, rfl⟩ : _ ∧ _ ∧ _ := by simpa using h
      exact ih cut
    · next later =>
      obtain ⟨-, -, -, rfl⟩ : p x = some b ∧ [] = before ∧ b = b ∧ xs = after := by simpa using h
      exact splitLast_eq_none_iff.mp later

theorem splitLast_append (ha : p a = some b) (hafter : ∀ x ∈ after, p x = none) (before : List α) :
    splitLast p (before ++ a :: after) = some (before, b, after) := by
  induction before with
  | nil => simp [splitLast, splitLast_eq_none_iff.mpr hafter, ha]
  | cons x before ih => simp [splitLast, ih]

end Splitting

/-- A query that is no infix operator has none outside of parentheses. -/
theorem binary?_tokens {t : Tree} (h : t.isBinary = false) : ∀ x ∈ t.tokens, Token.binary? x = none := by
  cases t with
  | relation name => simp [tokens, Token.binary?]
  | unary op p a => simp [tokens, Token.binary?]
  | binary op a b => cases h

theorem ofTokens?_group {ts : List Token} (ne : ts ≠ []) : ofTokens? [.group ts] = ofTokens? ts := by
  have nonempty : ts.isEmpty = false := by simpa using ne
  rw [ofTokens?]
  simp [Token.unknown?, nonempty]

theorem ofTokens?_binary {op : Binary} {before after : List Token} (left : before ≠ [])
    (right : after ≠ []) (last : ∀ x ∈ after, Token.binary? x = none)
    (known : (before ++ .binary op :: after).findSome? Token.unknown? = none) :
    ofTokens? (before ++ .binary op :: after) =
      match ofTokens? before with
      | .error fault => .error fault
      | .ok a => (ofTokens? after).map (.binary op a) := by
  have isOperator : Token.binary? (.binary op) = some op := rfl
  have cut := splitLast_append isOperator last before
  obtain ⟨x, before, rfl⟩ := List.exists_cons_of_ne_nil left
  obtain ⟨y, after, rfl⟩ := List.exists_cons_of_ne_nil right
  rw [ofTokens?, known]
  · dsimp only
    split
    · next before' op' after' cut' =>
      rw [cut] at cut'
      obtain ⟨rfl, rfl, rfl⟩ : x :: before = before' ∧ op = op' ∧ y :: after = after' := by
        simpa using cut'
      rfl
    · next none =>
      rw [cut] at none
      cases none
  all_goals simp

/-- An operator with its parameter, before a token that is an operand by itself. -/
theorem ofTokens?_unary_token {op : Unary} {p : String} {x : Token} (known : x.unknown? = none)
    (noBinary : x.binary? = none) (noUnary : x.unary? = none) (checked : checkParameter op p = .ok ()) :
    ofTokens? [.unary op, .parameter p, x] = (ofTokens? [x]).map (.unary op p) := by
  have all : [.unary op, .parameter p, x].findSome? Token.unknown? = none :=
    List.findSome?_eq_none_iff.mpr (by simpa [Token.unknown?] using known)
  have noOperator : splitLast Token.binary? [.unary op, .parameter p, x] = none :=
    splitLast_eq_none_iff.mpr (by simpa [Token.binary?] using noBinary)
  have operator : splitLast Token.unary? [.unary op, .parameter p, x] =
      some ([], op, [.parameter p, x]) :=
    splitLast_append (p := Token.unary?) (a := .unary op) rfl (by simpa [Token.unary?] using noUnary) []
  rw [ofTokens?, all]
  · dsimp only
    split
    · next cut =>
      rw [noOperator] at cut
      cases cut
    · split
      · next before op' after cut =>
        rw [operator] at cut
        obtain ⟨rfl, rfl, rfl⟩ : [] = before ∧ op = op' ∧ [.parameter p, x] = after := by simpa using cut
        simp only [List.isEmpty_nil, if_true, checked]
      · next none =>
        rw [operator] at none
        cases none
  all_goals simp

theorem ofTokens?_unary {op : Unary} {p : String} {ts : List Token} (ne : ts ≠ [])
    (checked : checkParameter op p = .ok ()) :
    ofTokens? [.unary op, .parameter p, .group ts] = (ofTokens? ts).map (.unary op p) := by
  rw [ofTokens?_unary_token rfl rfl rfl checked, ofTokens?_group ne]

theorem ofTokens?_tokens {t : Tree} (h : t.Printable) : ofTokens? t.tokens = .ok t := by
  induction t with
  | relation name =>
    have valid : Name.isValid name = true := h
    rw [tokens, ofTokens?]
    simp [Token.unknown?, valid]
  | unary op p a ih =>
    rw [tokens, ofTokens?_unary a.tokens_ne_nil h.1.checked, ih h.2]
    rfl
  | binary op a b iha ihb =>
    have known := (binary op a b).unknown?_tokens
    rw [tokens] at known ⊢
    by_cases isBinary : b.isBinary = true
    · rw [if_pos isBinary] at known ⊢
      rw [ofTokens?_binary a.tokens_ne_nil (by simp) (by simp [Token.binary?]) known, iha h.1,
        ofTokens?_group b.tokens_ne_nil, ihb h.2]
      rfl
    · rw [if_neg isBinary] at known ⊢
      rw [ofTokens?_binary a.tokens_ne_nil b.tokens_ne_nil (binary?_tokens (by simpa using isBinary))
        known, iha h.1, ihb h.2]
      rfl

theorem ofText?_write {t : Tree} (h : t.Printable) : ofText? t.write = .ok t := by
  have scanned : Token.scan 0 t.write.toList = .ok t.tokens := by
    simpa using @scans_write t h [] [] rfl Scans.nil 0
  have some : t.tokens.isEmpty = false := by simpa using t.tokens_ne_nil
  rw [ofText?, Token.ofText?, scanned]
  simp only [some, Bool.false_eq_true, if_false, ofTokens?_tokens h]
  rfl

end Tree

/-! ## Queries that have been read -/

/-- The tokens of a text: each operator has its parameter, which is whole and without outer blanks if
anything follows it. -/
inductive Scanned : List Token → Prop
  | nil : Scanned []
  | relation {name : String} {ts : List Token} (rest : Scanned ts) : Scanned (.relation name :: ts)
  | binary {op : Binary} {ts : List Token} (rest : Scanned ts) : Scanned (.binary op :: ts)
  | unknown {text : String} {ts : List Token} (rest : Scanned ts) : Scanned (.unknown text :: ts)
  | group {inner ts : List Token} (inside : Scanned inner) (rest : Scanned ts) :
      Scanned (.group inner :: ts)
  | unary {op : Unary} {p : String} {ts : List Token}
      (whole : ts ≠ [] → Whole p.toList ∧ Text.Trimmed p.toList) (rest : Scanned ts) :
      Scanned (.unary op :: .parameter p :: ts)

theorem scanned_simple {c : Char} {cs : List Char} {ts : List Token} (h : Scanned ts) :
    Scanned ((Token.simple c cs).1 :: ts) := by
  unfold Token.simple
  split
  · exact .binary h
  · split
    · exact .relation h
    · exact .unknown h

theorem scanned_of_scan {offset : Nat} {cs : List Char} {ts : List Token}
    (h : Token.scan offset cs = .ok ts) : Scanned ts := by
  induction hn : cs.length using Nat.strong_induction_on generalizing offset cs ts with
  | _ n ih =>
    subst hn
    cases cs with
    | nil =>
      rw [Token.scan] at h
      obtain rfl := Except.ok.inj h
      exact .nil
    | cons c cs =>
      rw [Token.scan] at h
      simp only at h
      split at h
      · exact ih cs.length (Nat.lt_succ_self _) h rfl
      · split at h
        · split at h
          · cases h
          · next inner rest closed =>
            have shorter := Token.length_closing? closed
            split at h
            · cases h
            · next us scanned =>
              obtain ⟨vs, later, rfl⟩ := map_eq_ok.mp h
              refine .group (ih inner.length ?_ scanned rfl) (ih rest.length ?_ later rfl)
              · rw [List.length_cons]
                omega
              · rw [List.length_cons]
                omega
        · split at h
          · cases h
          · split at h
            · next op _ =>
              split at h
              · cases h
              · next text rest read =>
                have shorter := Token.length_parameter? read
                obtain ⟨us, later, rfl⟩ := map_eq_ok.mp h
                have scanned := ih rest.length (Nat.lt_succ_of_le shorter) later rfl
                refine .unary (fun ne => ?_) scanned
                have operand : rest ≠ [] := by
                  rintro rfl
                  rw [Token.scan] at later
                  exact ne (Except.ok.inj later).symm
                obtain ⟨p, back, htext, -, -, through, complete⟩ := Token.parameter?_eq_ok read operand
                rw [List.reverse_nil, List.nil_append] at htext
                subst htext
                rw [String.toList_ofList]
                exact ⟨Token.whole_trim through complete, Text.trimmed_trim text⟩
            · obtain ⟨us, later, rfl⟩ := map_eq_ok.mp h
              refine scanned_simple (ih _ ?_ later rfl)
              rw [List.length_drop, List.length_cons]
              omega

/-- The tokens on both sides of an infix operator are such tokens as well. -/
theorem scanned_append {op : Binary} {before after : List Token}
    (h : Scanned (before ++ .binary op :: after)) : Scanned before ∧ Scanned after := by
  -- a parameter is never the last token on the left, since it stands behind its operator
  generalize hts : before ++ .binary op :: after = ts at h
  induction h generalizing before with
  | nil => simp at hts
  | binary rest ih =>
    cases before with
    | nil =>
      obtain ⟨-, rfl⟩ := List.cons.inj hts
      exact ⟨.nil, rest⟩
    | cons x before =>
      obtain ⟨rfl, hrest⟩ := List.cons.inj hts
      exact ⟨.binary (ih hrest).1, (ih hrest).2⟩
  | relation rest ih =>
    cases before with
    | nil => cases (List.cons.inj hts).1
    | cons x before =>
      obtain ⟨rfl, hrest⟩ := List.cons.inj hts
      exact ⟨.relation (ih hrest).1, (ih hrest).2⟩
  | unknown rest ih =>
    cases before with
    | nil => cases (List.cons.inj hts).1
    | cons x before =>
      obtain ⟨rfl, hrest⟩ := List.cons.inj hts
      exact ⟨.unknown (ih hrest).1, (ih hrest).2⟩
  | group inside rest _ ih =>
    cases before with
    | nil => cases (List.cons.inj hts).1
    | cons x before =>
      obtain ⟨rfl, hrest⟩ := List.cons.inj hts
      exact ⟨.group inside (ih hrest).1, (ih hrest).2⟩
  | unary whole rest ih =>
    cases before with
    | nil => cases (List.cons.inj hts).1
    | cons x before =>
      obtain ⟨rfl, hparameter⟩ := List.cons.inj hts
      cases before with
      | nil => cases (List.cons.inj hparameter).1
      | cons y before =>
        obtain ⟨rfl, hrest⟩ := List.cons.inj hparameter
        refine ⟨.unary (fun _ => whole ?_) (ih hrest).1, (ih hrest).2⟩
        rw [← hrest]
        simp

/-- What is read can be printed. -/
theorem printable_of_ofTokens? {ts : List Token} {t : Tree} (scanned : Scanned ts)
    (h : Tree.ofTokens? ts = .ok t) : t.Printable := by
  fun_induction Tree.ofTokens? ts generalizing t with
  | case4 inner known some ih =>
    cases scanned with
    | group inside rest => exact ih inside h
  | case5 name valid known =>
    obtain rfl := Except.ok.inj h
    exact valid
  | case10 ts _ _ _ before op after cut _ _ left hleft known ihl ihr =>
    obtain ⟨right, hright, rfl⟩ := map_eq_ok.mp h
    obtain ⟨x, rfl, isOperator⟩ := eq_append_of_splitLast cut
    obtain rfl : x = .binary op := by
      cases x with
      | binary op' =>
        obtain rfl := Option.some.inj isOperator
        rfl
      | _ => cases isOperator
    obtain ⟨scannedLeft, scannedRight⟩ := scanned_append scanned
    exact ⟨ihl scannedLeft hleft, ihr scannedRight hright⟩
  | case13 ts _ _ _ _ before op empty p operand cut checked known _ ih =>
    obtain ⟨a, ha, rfl⟩ := map_eq_ok.mp h
    obtain ⟨x, rfl, isOperator⟩ := eq_append_of_splitLast cut
    obtain rfl : x = .unary op := by
      cases x with
      | unary op' =>
        obtain rfl := Option.some.inj isOperator
        rfl
      | _ => cases isOperator
    obtain rfl : before = [] := by simpa using empty
    cases scanned with
    | unary whole rest =>
      obtain ⟨whole, trimmed⟩ := whole (by simp)
      exact ⟨⟨whole, trimmed, checked⟩, ih rest ha⟩
  | _ => cases h

theorem printable_of_ofText? {text : String} {t : Tree} (h : Tree.ofText? text = .ok t) :
    t.Printable := by
  unfold Tree.ofText? at h
  split at h
  · cases h
  · next ts scanned =>
    split at h
    · cases h
    · exact printable_of_ofTokens? (scanned_of_scan scanned) (mapError_eq_ok.mp h)

/-- A query that has been read is printed as a text that is read as the same query. -/
theorem printed_query_is_read_back {text : String} {t : Tree} (h : Tree.ofText? text = .ok t) :
    Tree.ofText? t.write = .ok t := Tree.ofText?_write (printable_of_ofText? h)

/-- A query with parentheses in and around its parameters, in older spellings. -/
def nested : String := "σ (a > 1) and b == ')\\'(' ( ρ a➡b (r ᐅLEFTᐊ s))ᑌ (π x ( t ) ᑎ (u)) "

theorem nested_is_read_back : ∃ t, Tree.ofText? nested = .ok t ∧ Tree.ofText? t.write = .ok t := by
  have read : Tree.ofText? nested = .ok (.binary .union
      (.selection "(a > 1) and b == ')\\'('"
        (.rename "a➡b" (.binary .leftJoin (.relation "r") (.relation "s"))))
      (.binary .intersection (.projection "x" (.relation "t")) (.relation "u"))) := by decide +kernel
  exact ⟨_, read, printed_query_is_read_back read⟩

end RelationalAlgebra.Query
