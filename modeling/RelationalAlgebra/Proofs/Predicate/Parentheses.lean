import Mathlib.Data.List.Forall2
import RelationalAlgebra.Predicate.Clause
import RelationalAlgebra.Proofs.Predicate.Grammar
import RelationalAlgebra.Proofs.Predicate.Truth
/-!
# Parentheses and top level operators

The parentheses of a derived phrase are balanced.  What the parts of a predicate are, found by counting
parentheses, therefore follows its derivation: an operator outside of all parentheses is one that
joins, and a pair of parentheses around everything is one that the grammar put there.
-/

namespace RelationalAlgebra.Predicate

open Lexeme (depthAfter hasTop splitTop closesAtEnd enclosed)

/-! ## Balanced lexemes -/

def Lexeme.isParen (t : Lexeme) : Bool := t.isSymbol .openParen || t.isSymbol .closeParen

inductive Balanced : List Lexeme → Prop
  | nil : Balanced []
  | flat {t : Lexeme} {ts : List Lexeme} (other : t.isParen = false) (rest : Balanced ts) :
      Balanced (t :: ts)
  | group {o c : Lexeme} {ts us : List Lexeme} (opens : o.token = .symbol .openParen)
      (inside : Balanced ts) (closes : c.token = .symbol .closeParen) (rest : Balanced us) :
      Balanced (o :: (ts ++ c :: us))

theorem Balanced.append {ts us : List Lexeme} (hts : Balanced ts) (hus : Balanced us) :
    Balanced (ts ++ us) := by
  induction hts with
  | nil => exact hus
  | flat other rest ih => exact .flat other ih
  | group opens inside closes rest _ ih =>
    rw [List.cons_append, List.append_assoc, List.cons_append]
    exact .group opens inside closes ih

theorem Balanced.singleton {t : Lexeme} (other : t.isParen = false) : Balanced [t] := .flat other .nil

theorem isParen_eq_false {t : Lexeme} (ho : t.token ≠ .symbol .openParen)
    (hc : t.token ≠ .symbol .closeParen) : t.isParen = false := by
  simp [Lexeme.isParen, Lexeme.isSymbol, ho, hc]

theorem isParen_of_height {t : Lexeme} (h : t.token.height < 8) : t.isParen = false := by
  apply isParen_eq_false
  · intro ht
    rw [ht] at h
    exact absurd h (by decide)
  · intro ht
    rw [ht] at h
    exact absurd h (by decide)

theorem isParen_of_modify? {level : Level} {t : Lexeme} {modify : Formula → Formula}
    (h : level.modify? t.token = some modify) : t.isParen = false := by
  apply isParen_eq_false <;> · intro ht; rw [ht] at h; cases level <;> cases h

theorem isParen_of_constant {t : Lexeme} {v : Scalar} (h : Scalar.ofToken? t.token = some v) :
    t.isParen = false := by
  apply isParen_eq_false <;> · intro ht; rw [ht] at h; cases h

theorem isParen_of_name {t : Lexeme} {name : String} (h : t.token = .name name) :
    t.isParen = false := isParen_eq_false (by simp [h]) (by simp [h])

theorem isParen_of_dot {t : Lexeme} (h : t.token = .symbol .dot) : t.isParen = false :=
  isParen_eq_false (by simp [h]) (by simp [h])

theorem isParen_of_join? {level : Level} {t : Lexeme} {join : Formula → Formula → Formula}
    (h : level.join? t.token = some join) : t.isParen = false := by
  have height := (height_of_join? h).2
  have high := Level.height_le level
  exact isParen_of_height (by omega)

theorem isParen_of_comparison {t : Lexeme} {op : Comparison}
    (h : Comparison.ofToken? t.token = some op) : t.isParen = false := by
  have height := height_of_comparison h
  exact isParen_of_height (by omega)

theorem balanced_of_derives {used : List Lexeme} {p : Phrase}
    (h : Derives (used.map Lexeme.token) p) : Balanced used := by
  induction h using Derives.lexemes_induction with
  | literal t v constant => exact .singleton (isParen_of_constant constant)
  | bare t name ht => exact .singleton (isParen_of_name ht)
  | field t d u name field ht hd hu =>
    exact .flat (isParen_of_name ht) (.flat (isParen_of_dot hd) (.singleton (isParen_of_name hu)))
  | parens o c ts f ho hc inner ih => exact .group ho ih hc .nil
  | loosen level ts f inner other tight ih => exact ih
  | modified level t ts f modify modifier operand ih => exact .flat (isParen_of_modify? modifier) ih
  | joined level t ls rs l r join operator left right ihl ihr =>
    exact ihl.append (.flat (isParen_of_join? operator) ihr)
  | compared ts cs f c first others ihf iho => exact ihf.append iho
  | done => exact .nil
  | link t op ts cs f c operator operand others iho ihc =>
    exact .flat (isParen_of_comparison operator) (iho.append ihc)

/-! ## Depth -/

theorem depthAfter_of_open {t : Lexeme} (h : t.token = .symbol .openParen) (d : Nat) :
    depthAfter d t = d + 1 := by
  simp [depthAfter, Lexeme.isSymbol, h]

theorem depthAfter_of_close {t : Lexeme} (h : t.token = .symbol .closeParen) (d : Nat) :
    depthAfter (d + 1) t = d := by
  simp [depthAfter, Lexeme.isSymbol, h]

theorem depthAfter_of_flat {t : Lexeme} (h : t.isParen = false) (d : Nat) : depthAfter d t = d := by
  obtain ⟨ho, hc⟩ : t.isSymbol .openParen = false ∧ t.isSymbol .closeParen = false := by
    simpa [Lexeme.isParen] using h
  simp [depthAfter, ho, hc]

theorem isKeyword_of_symbol {t : Lexeme} {s : Symbol} (h : t.token = .symbol s) (k : Keyword) :
    t.isKeyword k = false := by
  simp [Lexeme.isKeyword, h]

namespace Balanced

variable {ts : List Lexeme} (k : Keyword)

theorem hasTop_succ (h : Balanced ts) (d : Nat) (rest : List Lexeme) :
    hasTop k (d + 1) (ts ++ rest) = hasTop k (d + 1) rest := by
  induction h generalizing d rest with
  | nil => rfl
  | flat other _ ih => simp [hasTop, depthAfter_of_flat other, ih]
  | group opens _ closes _ ihi ihr =>
    simp [hasTop, depthAfter_of_open opens, depthAfter_of_close closes, ihi, ihr]

theorem hasTop_append (h : Balanced ts) (rest : List Lexeme) :
    hasTop k 0 (ts ++ rest) = (hasTop k 0 ts || hasTop k 0 rest) := by
  induction h generalizing rest with
  | nil => rfl
  | flat other _ ih => simp [hasTop, depthAfter_of_flat other, ih, Bool.or_assoc]
  | group opens inside closes _ _ ihr =>
    simp [hasTop, depthAfter_of_open opens, depthAfter_of_close closes, inside.hasTop_succ, ihr,
      isKeyword_of_symbol closes]

/-- Parentheses that are open before stay open. -/
theorem closesAtEnd_succ (h : Balanced ts) (d : Nat) (rest : List Lexeme) :
    closesAtEnd (d + 1) (ts ++ rest) = closesAtEnd (d + 1) rest := by
  induction h generalizing d rest with
  | nil => rfl
  | flat other _ ih => simp [closesAtEnd, depthAfter_of_flat other, ih]
  | group opens _ closes _ ihi ihr =>
    simp [closesAtEnd, depthAfter_of_open opens, depthAfter_of_close closes, ihi, ihr]

end Balanced

def prepend (ts : List Lexeme) : List (List Lexeme) → List (List Lexeme)
  | [] => [ts]
  | part :: parts => (ts ++ part) :: parts

theorem prepend_append {ts : List Lexeme} {ps : List (List Lexeme)} (ne : ps ≠ [])
    (qs : List (List Lexeme)) : prepend ts (ps ++ qs) = prepend ts ps ++ qs := by
  cases ps with
  | nil => exact absurd rfl ne
  | cons p ps => rfl

theorem prepend_prepend (ts us : List Lexeme) (ps : List (List Lexeme)) :
    prepend ts (prepend us ps) = prepend (ts ++ us) ps := by
  cases ps <;> simp [prepend]

theorem splitTop_cons (k : Keyword) (d : Nat) (t : Lexeme) (ts : List Lexeme) :
    splitTop k d (t :: ts) =
      if depthAfter d t = 0 ∧ t.isKeyword k = true then [] :: splitTop k (depthAfter d t) ts
      else prepend [t] (splitTop k (depthAfter d t) ts) := by
  rw [splitTop]
  by_cases h : depthAfter d t = 0 ∧ t.isKeyword k = true
  · simp [h]
  · rw [if_neg (by simpa using h), if_neg h]
    cases splitTop k (depthAfter d t) ts <;> rfl

namespace Balanced

variable {ts : List Lexeme} (k : Keyword)

theorem splitTop_succ (h : Balanced ts) (d : Nat) (rest : List Lexeme) :
    splitTop k (d + 1) (ts ++ rest) = prepend ts (splitTop k (d + 1) rest) := by
  induction h generalizing d rest with
  | nil => cases hs : splitTop k (d + 1) rest with
    | nil => exact absurd hs (Lexeme.splitTop_ne_nil _ _ _)
    | cons p ps => simp [prepend, hs]
  | flat other _ ih =>
    rw [List.cons_append, splitTop_cons, depthAfter_of_flat other, if_neg (by simp), ih,
      prepend_prepend]
    rfl
  | group opens _ closes _ ihi ihr =>
    rw [List.cons_append, splitTop_cons, depthAfter_of_open opens, if_neg (by simp),
      List.append_assoc, ihi, List.cons_append, splitTop_cons, depthAfter_of_close closes,
      if_neg (by simp), ihr]
    simp [prepend_prepend]

/-- A keyword outside of all parentheses parts the lexemes. -/
theorem splitTop_append (h : Balanced ts) {t : Lexeme} (ht : t.token = .keyword k)
    (rest : List Lexeme) :
    splitTop k 0 (ts ++ t :: rest) = splitTop k 0 ts ++ splitTop k 0 rest := by
  induction h generalizing rest with
  | nil =>
    have flat : t.isParen = false := isParen_eq_false (by simp [ht]) (by simp [ht])
    rw [List.nil_append, splitTop_cons, depthAfter_of_flat flat,
      if_pos ⟨rfl, by simp [Lexeme.isKeyword, ht]⟩]
    rfl
  | @flat u us other _ ih =>
    rw [List.cons_append, splitTop_cons, splitTop_cons, depthAfter_of_flat other, ih]
    split
    · rfl
    · exact prepend_append (Lexeme.splitTop_ne_nil _ _ _) _
  | @group o c us vs opens inside closes _ _ ihr =>
    have key (rest : List Lexeme) : splitTop k 0 (o :: (us ++ c :: rest)) =
        prepend (o :: us ++ [c]) (splitTop k 0 rest) := by
      rw [splitTop_cons, depthAfter_of_open opens, if_neg (by simp), inside.splitTop_succ,
        splitTop_cons, depthAfter_of_close closes,
        if_neg (by simp [isKeyword_of_symbol closes]), prepend_prepend, prepend_prepend]
      simp
    rw [List.cons_append, List.append_assoc, List.cons_append, key, key, ihr]
    exact prepend_append (Lexeme.splitTop_ne_nil _ _ _) _

theorem splitTop_eq_singleton (h : Balanced ts) (none : hasTop k 0 ts = false) :
    splitTop k 0 ts = [ts] := by
  induction h with
  | nil => rfl
  | flat other _ ih =>
    simp only [hasTop, depthAfter_of_flat other, Bool.or_eq_false_iff] at none
    rw [splitTop_cons, depthAfter_of_flat other, ih none.2, if_neg (by simpa using none.1)]
    rfl
  | @group o c us vs opens inside closes _ _ ihr =>
    simp only [hasTop, depthAfter_of_open opens, inside.hasTop_succ, depthAfter_of_close closes,
      Bool.or_eq_false_iff] at none
    rw [splitTop_cons, depthAfter_of_open opens, if_neg (by simp), inside.splitTop_succ,
      splitTop_cons, depthAfter_of_close closes, if_neg (by simp [isKeyword_of_symbol closes]),
      ihr none.2.2]
    simp [prepend]

end Balanced

/-! ## Operators at the top -/

def Keyword.level? : Keyword → Option Level
  | .and => some .conjunction
  | .or => some .disjunction
  | _ => none

theorem hasTop_flat {k : Keyword} {t : Lexeme} (flat : t.isParen = false) (ts : List Lexeme) :
    hasTop k 0 (t :: ts) = (t.isKeyword k || hasTop k 0 ts) := by
  simp [hasTop, depthAfter_of_flat flat]

/-- A phrase that binds tighter than a keyword has it only inside of parentheses. -/
def Phrase.Tight (level : Level) : Phrase → Prop
  | .formula inner _ => inner.height < level.height
  | .chain _ => Level.comparison.height < level.height

theorem isKeyword_of_constant {t : Lexeme} {v : Scalar} (h : Scalar.ofToken? t.token = some v)
    {k : Keyword} {level : Level} (hk : k.level? = some level) : t.isKeyword k = false := by
  rw [Lexeme.isKeyword, decide_eq_false_iff_not]
  intro ht
  rw [ht] at h
  cases k <;> (try cases hk) <;> cases h

theorem isKeyword_of_modify? {level : Level} {t : Lexeme} {modify : Formula → Formula}
    (h : level.modify? t.token = some modify) {k : Keyword} {other : Level}
    (hk : k.level? = some other) : t.isKeyword k = false := by
  rw [Lexeme.isKeyword, decide_eq_false_iff_not]
  intro ht
  rw [ht] at h
  cases k <;> (try cases hk) <;> cases level <;> cases h

theorem height_keyword {k : Keyword} {level : Level} (hk : k.level? = some level) :
    (Token.keyword k).height = level.height := by
  cases k <;> cases hk <;> rfl

theorem isKeyword_of_height {t : Lexeme} {k : Keyword} {level : Level} (hk : k.level? = some level)
    (h : t.token.height < level.height) : t.isKeyword k = false := by
  rw [Lexeme.isKeyword, decide_eq_false_iff_not]
  intro ht
  rw [ht, height_keyword hk] at h
  exact absurd h (Nat.lt_irrefl _)

theorem isKeyword_of_name {t : Lexeme} {name : String} (h : t.token = .name name) (k : Keyword) :
    t.isKeyword k = false := by
  simp [Lexeme.isKeyword, h]

theorem hasTop_of_tight {k : Keyword} {level : Level} (hk : k.level? = some level)
    {used : List Lexeme} {p : Phrase} (h : Derives (used.map Lexeme.token) p)
    (tight : p.Tight level) : hasTop k 0 used = false := by
  induction h using Derives.lexemes_induction with
  | literal t v constant =>
    rw [hasTop_flat (isParen_of_constant constant), isKeyword_of_constant constant hk]
    rfl
  | bare t name ht =>
    rw [hasTop_flat (isParen_of_name ht), isKeyword_of_name ht]
    rfl
  | field t d u name field ht hd hu =>
    rw [hasTop_flat (isParen_of_name ht), hasTop_flat (isParen_of_dot hd),
      hasTop_flat (isParen_of_name hu), isKeyword_of_name ht, isKeyword_of_symbol hd,
      isKeyword_of_name hu]
    rfl
  | parens o c ts f ho hc inner ih =>
    rw [hasTop, depthAfter_of_open ho, (balanced_of_derives inner).hasTop_succ, hasTop,
      depthAfter_of_close hc, isKeyword_of_symbol hc]
    rfl
  | loosen level' ts f inner other tight' ih =>
    exact ih (Nat.lt_trans (Level.height_tighter_lt inner) tight)
  | modified level' t ts f modify modifier operand ih =>
    rw [hasTop_flat (isParen_of_modify? modifier), isKeyword_of_modify? modifier hk, ih tight]
    rfl
  | joined inner t ls rs l r join operator left right ihl ihr =>
    obtain ⟨hjoined, height⟩ := height_of_join? operator
    have lower := Level.height_tighter_lt (Level.ne_atom_of_isJoined hjoined)
    have tight : inner.height < level.height := tight
    rw [(balanced_of_derives left).hasTop_append, hasTop_flat (isParen_of_join? operator),
      ihl tight, ihr (Nat.lt_trans lower tight), isKeyword_of_height hk (by omega)]
    rfl
  | compared ts cs f c first others ihf iho =>
    have sum : Level.sum.height < level.height := Nat.lt_trans (by decide) tight
    rw [(balanced_of_derives first).hasTop_append, ihf sum, iho tight]
    rfl
  | done => rfl
  | link t op ts cs f c operator operand others iho ihc =>
    have sum : Level.sum.height < level.height := Nat.lt_trans (by decide) tight
    have low : t.token.height < level.height := height_of_comparison operator ▸ tight
    rw [hasTop_flat (isParen_of_comparison operator), (balanced_of_derives operand).hasTop_append,
      iho sum, ihc tight, isKeyword_of_height hk low]
    rfl

/-- Without an `or` at the top, a predicate is a conjunction. -/
theorem derives_conjunction {ts : List Lexeme} {f : Formula}
    (h : Derives (ts.map Lexeme.token) (.formula .disjunction f))
    (none : hasTop .or 0 ts = false) :
    Derives (ts.map Lexeme.token) (.formula .conjunction f) := by
  generalize hts : ts.map Lexeme.token = tokens at h
  cases h with
  | loosen inner other tight => exact tight
  | modified modifier operand => cases modifier
  | @joined _ t ls rs l r join operator left right =>
    obtain ⟨us, ws, rfl, rfl, hws⟩ := List.map_eq_append_iff.mp hts
    obtain ⟨o, vs, rfl, rfl, rfl⟩ := List.map_eq_cons_iff.mp hws
    have ho : o.token = .keyword .or := (join?_disjunction operator).1
    rw [(balanced_of_derives left).hasTop_append, hasTop_flat (isParen_of_join? operator)] at none
    simp [Lexeme.isKeyword, ho] at none

/-- The parts between the `and`s at the top are the operands of the conjunction. -/
theorem conjuncts_of_splitTop {ts : List Lexeme} {f : Formula}
    (h : Derives (ts.map Lexeme.token) (.formula .conjunction f)) :
    ∃ gs, List.Forall₂ (fun part g => Derives (part.map Lexeme.token) (.formula .negation g))
      (splitTop .and 0 ts) gs ∧ f.conjuncts = gs.flatMap Formula.conjuncts := by
  generalize hp : Phrase.formula .conjunction f = p at h
  have hand : Keyword.and.level? = some .conjunction := rfl
  induction h using Derives.lexemes_induction generalizing f with
  | loosen level ts g inner other tight ih =>
    obtain ⟨rfl, rfl⟩ := Phrase.formula.inj hp
    have single := (balanced_of_derives tight).splitTop_eq_singleton .and
      (hasTop_of_tight hand tight (Nat.lt_succ_self 5))
    rw [single]
    exact ⟨[f], .cons tight .nil, by simp⟩
  | joined level t ls rs l r join operator left right ihl =>
    obtain ⟨rfl, rfl⟩ := Phrase.formula.inj hp
    obtain ⟨ht, rfl⟩ := join?_conjunction operator
    obtain ⟨gs, hgs, hl⟩ := ihl rfl
    have single := (balanced_of_derives right).splitTop_eq_singleton .and
      (hasTop_of_tight hand right (Nat.lt_succ_self 5))
    rw [(balanced_of_derives left).splitTop_append .and ht, single]
    refine ⟨gs ++ [r], List.rel_append hgs (.cons right .nil), ?_⟩
    simp [Formula.conjuncts, hl]
  | modified level t ts g modify modifier operand =>
    obtain ⟨rfl, rfl⟩ := Phrase.formula.inj hp
    cases modifier
  | _ => cases hp

/-! ## Enclosing parentheses -/

theorem enclosed_cons_of_flat {t : Lexeme} (h : t.isParen = false) (ts : List Lexeme) :
    enclosed (t :: ts) = false := by
  obtain ⟨ho, -⟩ : t.isSymbol .openParen = false ∧ t.isSymbol .closeParen = false := by
    simpa [Lexeme.isParen] using h
  simp [enclosed, ho]

theorem enclosed_append_eq_false {ls us : List Lexeme} (h : Balanced ls) (hl : ls ≠ [])
    (hu : us ≠ []) : enclosed (ls ++ us) = false := by
  cases h with
  | nil => exact absurd rfl hl
  | flat other rest => exact enclosed_cons_of_flat other _
  | @group o c ts vs opens inside closes rest =>
    rw [List.cons_append, enclosed, List.append_assoc, inside.closesAtEnd_succ, List.cons_append,
      closesAtEnd, depthAfter_of_close closes]
    simp [hu]

theorem ne_nil_of_derives {ts : List Lexeme} {level : Level} {f : Formula}
    (h : Derives (ts.map Lexeme.token) (.formula level f)) : ts ≠ [] := by
  obtain ⟨t, us, hts, -⟩ := head_of_derives h
  rintro rfl
  cases hts

/-- What parentheses enclose is a predicate of its own. -/
theorem derives_of_enclosed {ts : List Lexeme} {level : Level} {f : Formula}
    (h : Derives (ts.map Lexeme.token) (.formula level f)) (closed : enclosed ts = true) :
    Derives (ts.tail.dropLast.map Lexeme.token) (.formula .disjunction f) := by
  generalize hp : Phrase.formula level f = p at h
  induction h using Derives.lexemes_induction generalizing level f with
  | literal t v constant =>
    cases (enclosed_cons_of_flat (isParen_of_constant constant) []).symm.trans closed
  | bare t name ht => cases (enclosed_cons_of_flat (isParen_of_name ht) []).symm.trans closed
  | field t d u name field ht =>
    cases (enclosed_cons_of_flat (isParen_of_name ht) [d, u]).symm.trans closed
  | parens o c ts g ho hc inner =>
    obtain ⟨rfl, rfl⟩ := Phrase.formula.inj hp
    rwa [List.tail_cons, List.dropLast_concat]
  | loosen level' ts g inner other tight ih =>
    obtain ⟨rfl, rfl⟩ := Phrase.formula.inj hp
    exact ih closed rfl
  | modified level' t ts g modify modifier =>
    cases (enclosed_cons_of_flat (isParen_of_modify? modifier) ts).symm.trans closed
  | joined level' t ls rs l r join operator left =>
    cases (enclosed_append_eq_false (balanced_of_derives left) (ne_nil_of_derives left)
      (List.cons_ne_nil t rs)).symm.trans closed
  | compared ts cs g c first others ihf =>
    obtain ⟨rfl, rfl⟩ := Phrase.formula.inj hp
    by_cases hcs : cs = []
    · subst hcs
      rw [List.append_nil] at closed ⊢
      generalize hnil : [].map Lexeme.token = nothing at others
      cases others with
      | done => exact ihf closed rfl
      | link operator operand others => cases hnil
    · cases (enclosed_append_eq_false (balanced_of_derives first) (ne_nil_of_derives first)
        hcs).symm.trans closed
  | done => cases hp
  | link => cases hp

theorem dropParens_of_enclosed {ts : List Lexeme} (h : enclosed ts = true) :
    Lexeme.dropParens ts = Lexeme.dropParens ts.tail.dropLast := by
  conv => lhs; rw [Lexeme.dropParens, if_pos h]

theorem dropParens_of_not_enclosed {ts : List Lexeme} (h : enclosed ts = false) :
    Lexeme.dropParens ts = ts := by
  rw [Lexeme.dropParens, if_neg (by simp [h])]

theorem derives_dropParens {ts : List Lexeme} {f : Formula}
    (h : Derives (ts.map Lexeme.token) (.formula .disjunction f)) :
    Derives ((Lexeme.dropParens ts).map Lexeme.token) (.formula .disjunction f) := by
  fun_induction Lexeme.dropParens ts with
  | case1 ts closed ih => exact ih (derives_of_enclosed h closed)
  | case2 ts closed => exact h

theorem infix_dropParens (ts : List Lexeme) : Lexeme.dropParens ts <:+: ts := by
  fun_induction Lexeme.dropParens ts with
  | case1 ts closed ih =>
    have tail : ts.tail.dropLast <:+: ts :=
      (List.dropLast_prefix _).isInfix.trans (List.tail_suffix ts).isInfix
    exact ih.trans tail
  | case2 ts closed => exact List.infix_rfl

theorem infix_splitTop (k : Keyword) (d : Nat) (ts : List Lexeme) :
    ∃ p ps, splitTop k d ts = p :: ps ∧ p <+: ts ∧ ∀ q ∈ ps, q <:+: ts := by
  induction ts generalizing d with
  | nil => exact ⟨[], [], rfl, List.prefix_rfl, by simp⟩
  | cons t ts ih =>
    obtain ⟨p, ps, hps, first, others⟩ := ih (depthAfter d t)
    have later (q : List Lexeme) (hq : q <:+: ts) : q <:+: t :: ts :=
      hq.trans (List.suffix_cons t ts).isInfix
    rw [splitTop_cons, hps]
    split
    · refine ⟨[], p :: ps, rfl, List.nil_prefix, fun q hq => later q ?_⟩
      rcases List.mem_cons.mp hq with rfl | hq
      · exact first.isInfix
      · exact others q hq
    · exact ⟨t :: p, ps, rfl, List.cons_prefix_cons.mpr ⟨rfl, first⟩, fun q hq => later q (others q hq)⟩

theorem infix_of_mem_splitTop {k : Keyword} {d : Nat} {ts part : List Lexeme}
    (h : part ∈ splitTop k d ts) : part <:+: ts := by
  obtain ⟨p, ps, hps, first, others⟩ := infix_splitTop k d ts
  rw [hps] at h
  rcases List.mem_cons.mp h with rfl | h
  · exact first.isInfix
  · exact others part h

end RelationalAlgebra.Predicate
