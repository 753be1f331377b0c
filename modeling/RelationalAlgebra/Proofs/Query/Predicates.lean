import RelationalAlgebra.Proofs.Query.Separation
/-!
# Predicates as parameters

A predicate that ends where it is printed to end, without outer blanks and with no number that touches a
connective: conjunctions, disjunctions and negations of such predicates are such predicates again, and so is
one with other names in it.  A conjunct of such a predicate need not be one by its place in the text alone,
since parentheses around it are dropped; it is one because it can be read.
-/

namespace RelationalAlgebra.Predicate

open Query (Quotation)
open Query.Token (skim level isComplete Whole Fresh)

/-! ## Whole texts -/

theorem whole_join {as s bs : List Char} (ha : Whole as) (hb : Whole bs)
    (plain : ∀ c ∈ s, c ≠ '(' ∧ c ≠ ')' ∧ c ≠ '\'' ∧ c ≠ '"')
    (fresh : ∀ before, Fresh (s.reverse ++ before)) : Whole (as ++ (s ++ bs)) := by
  refine ⟨?_, ?_⟩
  · rw [Query.Token.skim_append, ha.through, Option.bind_some, Query.Token.skim_append,
      Query.Token.skim_of_plain plain, Option.bind_some, Query.Token.skim_fresh (fresh _)]
    exact hb.through
  · rw [List.reverse_append, List.reverse_append, List.append_assoc,
      Query.Token.isComplete_append (fresh _)]
    exact hb.complete

theorem whole_group {front cs : List Char} (h : Whole cs)
    (plain : ∀ c ∈ front, c ≠ '(' ∧ c ≠ ')' ∧ c ≠ '\'' ∧ c ≠ '"')
    (incomplete : isComplete front.reverse = false) : Whole (front ++ '(' :: (cs ++ [')'])) := by
  refine ⟨?_, ?_⟩
  · have opens : ¬Query.Token.Ends .outside 0 (front.reverse ++ []) '(' := by
      rintro ⟨-, -, -, complete⟩
      rw [List.append_nil, incomplete] at complete
      cases complete
    rw [Query.Token.skim_append, Query.Token.skim_of_plain plain, Option.bind_some,
      Query.Token.skim_cons opens, Query.Token.depthAfter_open, Option.bind_some,
      Query.Token.skim_append, show Quotation.next .outside '(' = .outside from rfl,
      Query.Token.skim_of_level h.level]
    rfl
  · have close : Text.isBlank ')' = false ∧ Name.isPart ')' = false := by decide
    rw [List.reverse_append, List.reverse_cons, List.reverse_append, List.reverse_singleton,
      List.singleton_append, List.cons_append, List.cons_append,
      isComplete_of_not_part close.1 close.2]
    rfl

theorem fresh_connective {word : List Char} (h : word = ['a', 'n', 'd'] ∨ word = ['o', 'r'])
    (before : List Char) : Fresh ((' ' :: (word ++ [' '])).reverse ++ before) := by
  refine ⟨?_, ?_⟩
  · rcases h with rfl | rfl <;> rfl
  · rcases h with rfl | rfl <;> rfl

/-! ## Predicates that can be printed -/

/-- A predicate that ends where it is printed to end. -/
structure Solid (cs : List Char) : Prop where
  whole : Whole cs
  trimmed : Text.Trimmed cs
  separated : Separated cs

namespace Solid

variable {as bs cs : List Char} {p q : String}

theorem ne_nil (h : Solid cs) : cs ≠ [] := by
  rintro rfl
  cases h.whole.complete

theorem closed (h : Solid cs) : cs.foldl Quotation.next .outside = .outside :=
  (Query.Token.eq_foldl_next_of_level h.whole.level).symm

theorem tight (h : Solid cs) : Text.Tight cs := h.trimmed.last

theorem group (h : Solid cs) : Solid ('(' :: (cs ++ [')'])) where
  whole := @whole_group [] cs h.whole (by simp) rfl
  trimmed := by
    refine ⟨fun c hc => ?_, .concat (by decide) ('(' :: cs)⟩
    obtain rfl := Option.some.inj hc
    decide
  separated := h.separated.group h.closed h.tight

theorem not (h : Solid cs) : Solid (['n', 'o', 't'] ++ ' ' :: '(' :: (cs ++ [')'])) where
  whole := @whole_group ['n', 'o', 't', ' '] cs h.whole (by decide) rfl
  trimmed := by
    refine ⟨fun c hc => ?_, .append_left (.append_left h.group.tight (by simp) [' ']) (by simp) _⟩
    obtain rfl := Option.some.inj hc
    decide
  separated := by
    have word : Separated ['n', 'o', 't'] := .of_single (t := ⟨.keyword .not, 0, 3⟩) rfl
    exact word.append_space h.group.separated rfl (by decide)

theorem join {word : List Char} (h : word = ['a', 'n', 'd'] ∨ word = ['o', 'r']) (ha : Solid as)
    (hb : Solid bs) : Solid (as ++ ' ' :: (word ++ ' ' :: bs)) where
  whole := by
    have plain : ∀ c ∈ ' ' :: (word ++ [' ']), c ≠ '(' ∧ c ≠ ')' ∧ c ≠ '\'' ∧ c ≠ '"' := by
      rcases h with rfl | rfl <;> decide
    simpa using whole_join ha.whole hb.whole plain (fresh_connective h)
  trimmed := by
    refine ha.trimmed.append ha.ne_nil ?_
    exact hb.tight.append_left hb.ne_nil [' '] |>.append_left (by simp) word |>.append_left (by simp) [' ']
  separated := by
    obtain ⟨closed, tight, single⟩ : word.foldl Quotation.next .outside = .outside ∧ Text.Tight word ∧
        ∃ t, Lexeme.scan word = .ok [t] := by
      rcases h with rfl | rfl
      · exact ⟨rfl, by decide, ⟨.keyword .and, 0, 3⟩, rfl⟩
      · exact ⟨rfl, by decide, ⟨.keyword .or, 0, 2⟩, rfl⟩
    obtain ⟨t, scanned⟩ := single
    have later := (Separated.of_single scanned).append_space hb.separated closed tight
    exact ha.separated.append_space later ha.closed ha.tight

/-! ## Predicates that the optimizer makes -/

theorem trimmed_eq (h : Solid p.toList) : Text.trimmed p = p := by
  rw [Text.trimmed, Text.trim_of_trimmed h.trimmed, String.ofList_toList]

theorem guarded (h : Solid p.toList) : Solid (guarded p).toList := by
  unfold Predicate.guarded
  rw [h.trimmed_eq]
  dsimp only
  split
  · simpa [String.toList_append] using h.group
  · exact h

theorem intercalate {parts : List String} (ne : parts ≠ []) (h : ∀ p ∈ parts, Solid p.toList) :
    Solid (String.intercalate " and " (parts.map Predicate.guarded)).toList := by
  induction parts with
  | nil => exact absurd rfl ne
  | cons p ps ih =>
    obtain ⟨first, later⟩ := List.forall_mem_cons.mp h
    cases ps with
    | nil => simpa using first.guarded
    | cons q qs =>
      have others := ih (by simp) later
      rw [List.map_cons] at others
      have both := join (.inl rfl) first.guarded others
      rw [List.map_cons, List.map_cons, String.intercalate_cons_cons]
      simpa [String.toList_append] using both

theorem conjoin {parts : List String} (ne : parts ≠ []) (h : ∀ p ∈ parts, Solid p.toList) :
    Solid (conjoin parts).toList := by
  unfold Predicate.conjoin
  split
  · next single =>
    have solid := h single (List.mem_singleton_self single)
    rwa [solid.trimmed_eq]
  · exact intercalate ne h

theorem or (hp : Solid p.toList) (hq : Solid q.toList) :
    Solid (Text.trimmed p ++ " or " ++ Text.trimmed q).toList := by
  have both := join (.inr rfl) hp hq
  rw [hp.trimmed_eq, hq.trimmed_eq]
  simpa [String.toList_append] using both

theorem negation (h : Solid p.toList) : Solid (negation p).toList := by
  rw [Predicate.negation, h.trimmed_eq]
  simpa [String.toList_append] using h.not

theorem never : Solid "False".toList where
  whole := ⟨rfl, rfl⟩
  trimmed := ⟨by decide, by decide⟩
  separated := .of_single (t := ⟨.keyword .false, 0, 5⟩) rfl

end Solid

/-! ## Other names -/

theorem follow_renamed (image : String → Option String) (afterDot complete : Bool) (depth : Nat)
    (ts : List Token) : Token.follow complete depth (Token.renamed image afterDot ts) =
      Token.follow complete depth ts := by
  induction ts generalizing afterDot complete depth with
  | nil => rfl
  | cons t ts ih =>
    cases t with
    | name n =>
      have notParen (m : String) :
          Token.name m ≠ .symbol .openParen ∧ Token.name m ≠ .symbol .closeParen := by simp
      rw [Token.renamed, follow_cons (notParen _), follow_cons (notParen n), ih]
      rfl
    | _ => simp only [Token.renamed, Token.follow, ih]

theorem Solid.renamed {p q : String} {names : Renaming} (h : Solid p.toList)
    (valid : ∀ old new, names.get? old = some new → Name.isValid new = true)
    (renamed : renameAttributes p names = .ok q) : Solid q.toList := by
  obtain ⟨ts, scanned, rfl⟩ := map_eq_ok.mp renamed
  obtain ⟨tiles, tiling, rfl⟩ := Lexeme.scan_eq_ok_iff.mp scanned
  rw [String.toList_ofList]
  obtain ⟨new, tight⟩ := tiling_splice valid tiling
  have kinds := map_kind_renamed names.get? false tiles
  have apart := (separated_iff tiling).mp h.separated
  have apart' := isChain_of_map_kind kinds apart
  have follow := (whole_iff_follow tiling apart).mp h.whole
  refine ⟨(whole_iff_follow new apart').mpr ?_, ⟨?_, tight h.tight⟩, (separated_iff new).mpr apart'⟩
  · rwa [Tile.map_token_renamed, follow_renamed]
  · cases tiles with
    | nil => cases follow
    | cons t tiles =>
      have noGap := tiling.gap_eq_nil_iff.mpr h.trimmed.head
      obtain ⟨t', tiles', heq, kind, -⟩ := List.map_eq_cons_iff.mp kinds
      rw [heq] at new
      exact new.gap_eq_nil_iff.mp ((congrArg Prod.fst kind).trans noGap)

/-! ## Conjuncts -/

theorem exists_cover_of_mem_conjuncts {text : List Char} {ts : List Lexeme} {part : String}
    (h : part ∈ Lexeme.conjuncts text ts) :
    ∃ sub, sub <:+: ts ∧ sub ≠ [] ∧ part = String.ofList (Lexeme.cover text sub) := by
  fun_induction Lexeme.conjuncts text ts with
  | case1 => cases h
  | case2 ts inner some single =>
    exact ⟨_, infix_dropParens ts, by simpa using some, List.mem_singleton.mp h⟩
  | case3 ts inner some several ih =>
    obtain ⟨⟨sub, mem⟩, -, hpart⟩ := List.mem_flatMap.mp h
    obtain ⟨sub', within, ne, rfl⟩ := ih ⟨sub, mem⟩ hpart
    exact ⟨sub', within.trans ((infix_of_mem_splitTop mem).trans (infix_dropParens ts)), ne, rfl⟩

theorem Solid.of_reads {p : String} {f : Formula} (h : Reads p f) (trimmed : Text.Trimmed p.toList)
    (separated : Separated p.toList) : Solid p.toList := by
  obtain ⟨ts, scanned, derives⟩ := reads_iff_scan.mp h
  obtain ⟨tiles, tiling, rfl⟩ := Lexeme.scan_eq_ok_iff.mp scanned
  have apart := (separated_iff tiling).mp separated
  rw [map_token_locate] at derives
  exact ⟨(whole_iff_follow tiling apart).mpr (follow_of_derives derives (.inl rfl)), trimmed, separated⟩

/-- The conjuncts of a predicate that can be printed can be printed. -/
theorem Solid.conjuncts {p : String} {parts : List String} (h : Solid p.toList)
    (hparts : conjuncts p = .ok parts) : ∀ part ∈ parts, Solid part.toList := by
  intro part mem
  obtain ⟨g, reads⟩ := reads_of_mem_conjuncts hparts part mem
  obtain ⟨f, ts, -, scanned, rfl⟩ := conjuncts_eq_ok_iff.mp hparts
  obtain ⟨sub, within, ne, rfl⟩ := exists_cover_of_mem_conjuncts mem
  obtain ⟨separated, trimmed⟩ := separated_cover scanned h.separated within ne
  rw [← String.toList_ofList (l := Lexeme.cover p.toList sub)] at separated trimmed
  exact .of_reads reads trimmed separated

end RelationalAlgebra.Predicate
