import RelationalAlgebra.Proofs.Outcome
import RelationalAlgebra.Proofs.Predicate.Tiling
import RelationalAlgebra.Proofs.Text.Trimming
import RelationalAlgebra.Query.Tree.Reading
/-!
# Parentheses in queries

Two scanners look for a parenthesis: that which closes a group, and that which opens the operand of an
operator.  Both follow the quotes and count the parentheses that are open; the second also asks, wherever none
is open, whether the parameter may end.  `level` and `skim` follow a stretch of text as the one and the other
do while they do not stop, so that what they do with a text is put together from what they do with its parts.
-/

namespace RelationalAlgebra.Query

def Quotation.Proper : Quotation → Prop
  | .outside => True
  | .inside quote | .escaped quote => quote = '\'' ∨ quote = '"'

namespace Token

/-! ## Following a text -/

def depthAfter (q : Quotation) (depth : Nat) (c : Char) : Option Nat :=
  if q = .outside ∧ c = '(' then some (depth + 1)
  else if q = .outside ∧ c = ')' then if depth = 0 then none else some (depth - 1)
  else some depth

/-- How a text goes on after some characters: the place with respect to quotes, and the parentheses that
are open. -/
def level (q : Quotation) (depth : Nat) : List Char → Option (Quotation × Nat)
  | [] => some (q, depth)
  | c :: cs => (depthAfter q depth c).bind fun depth => level (q.next c) depth cs

def Ends (q : Quotation) (depth : Nat) (seen : List Char) (c : Char) : Prop :=
  q = .outside ∧ c = '(' ∧ depth = 0 ∧ isComplete seen = true

instance (q : Quotation) (depth : Nat) (seen : List Char) (c : Char) : Decidable (Ends q depth seen c) :=
  inferInstanceAs (Decidable (_ ∧ _))

/-- How a parameter goes on after some characters that follow those in `seen`, the last of which comes
first.  There is no such place if the parameter ends among them. -/
def skim (q : Quotation) (depth : Nat) (seen : List Char) : List Char → Option (Quotation × Nat)
  | [] => some (q, depth)
  | c :: cs =>
    if Ends q depth seen c then none
    else (depthAfter q depth c).bind fun depth => skim (q.next c) depth (c :: seen) cs

variable {q q' : Quotation} {d d' : Nat} {seen cs : List Char} {c : Char}

theorem depthAfter_open (d : Nat) : depthAfter .outside d '(' = some (d + 1) := rfl

theorem depthAfter_other (h : c ≠ '(' ∧ c ≠ ')') (q : Quotation) (d : Nat) :
    depthAfter q d c = some d := by
  rw [depthAfter, if_neg (fun opens => h.1 opens.2), if_neg fun closes => h.2 closes.2]

theorem depthAfter_quoted (h : q ≠ .outside) (d : Nat) (c : Char) : depthAfter q d c = some d := by
  rw [depthAfter, if_neg (fun opens => h opens.1), if_neg fun closes => h closes.1]

theorem depthAfter_add (h : depthAfter q d c = some d') (n : Nat) :
    depthAfter q (d + n) c = some (d' + n) := by
  unfold depthAfter at h ⊢
  split at h
  · next opens =>
    rw [if_pos opens, ← Option.some.inj h, Nat.add_right_comm]
  · next notOpens =>
    rw [if_neg notOpens]
    split at h
    · next closes =>
      rw [if_pos closes]
      split at h
      · cases h
      · next some =>
        rw [if_neg (by omega), ← Option.some.inj h]
        exact congrArg _ (by omega)
    · next notCloses =>
      rw [if_neg notCloses, ← Option.some.inj h]

theorem level_cons : level q d (c :: cs) = (depthAfter q d c).bind fun d => level (q.next c) d cs := rfl

theorem skim_cons (h : ¬Ends q d seen c) : skim q d seen (c :: cs) =
    (depthAfter q d c).bind fun d => skim (q.next c) d (c :: seen) cs := by
  rw [skim, if_neg h]

theorem level_append (q : Quotation) (d : Nat) (as bs : List Char) :
    level q d (as ++ bs) = (level q d as).bind fun r => level r.1 r.2 bs := by
  induction as generalizing q d with
  | nil => rfl
  | cons c as ih => simp only [List.cons_append, level, ih, Option.bind_assoc]

theorem skim_append (q : Quotation) (d : Nat) (seen as bs : List Char) :
    skim q d seen (as ++ bs) =
      (skim q d seen as).bind fun r => skim r.1 r.2 (as.reverse ++ seen) bs := by
  induction as generalizing q d seen with
  | nil => rfl
  | cons c as ih =>
    simp only [List.cons_append, skim]
    split
    · rfl
    · simp only [ih, Option.bind_assoc, List.reverse_cons, List.append_assoc, List.cons_append,
        List.nil_append]

/-- Further parentheses outside change nothing. -/
theorem level_add (h : level q d cs = some (q', d')) (n : Nat) :
    level q (d + n) cs = some (q', d' + n) := by
  induction cs generalizing q d with
  | nil =>
    obtain ⟨rfl, rfl⟩ := Prod.mk.inj (Option.some.inj h)
    rfl
  | cons c cs ih =>
    obtain ⟨k, depth, later⟩ := Option.bind_eq_some_iff.mp h
    rw [level_cons, depthAfter_add depth]
    exact ih later

theorem level_of_skim (h : skim q d seen cs = some (q', d')) : level q d cs = some (q', d') := by
  induction cs generalizing q d seen with
  | nil => exact h
  | cons c cs ih =>
    rw [skim] at h
    split at h
    · cases h
    · obtain ⟨k, depth, later⟩ := Option.bind_eq_some_iff.mp h
      rw [level_cons, depth]
      exact ih later

theorem eq_foldl_next_of_level (h : level q d cs = some (q', d')) :
    q' = cs.foldl Quotation.next q := by
  induction cs generalizing q d with
  | nil => exact (Prod.mk.inj (Option.some.inj h)).1.symm
  | cons c cs ih =>
    obtain ⟨k, -, later⟩ := Option.bind_eq_some_iff.mp h
    exact ih later

/-- Inside of parentheses a parameter does not end. -/
theorem skim_of_level (h : level q d cs = some (q', d')) (seen : List Char) :
    skim q (d + 1) seen cs = some (q', d' + 1) := by
  induction cs generalizing q d seen with
  | nil =>
    obtain ⟨rfl, rfl⟩ := Prod.mk.inj (Option.some.inj h)
    rfl
  | cons c cs ih =>
    obtain ⟨k, depth, later⟩ := Option.bind_eq_some_iff.mp h
    rw [skim_cons (fun ends => Nat.add_one_ne_zero d ends.2.2.1), depthAfter_add depth]
    exact ih later _

/-! ## Complete parameters -/

/-- Characters after which a parameter goes on as if they were not there: it is not complete, and no word
goes on. -/
structure Fresh (seen : List Char) : Prop where
  incomplete : isComplete seen = false
  noWord : seen.head?.any Name.isPart = false

theorem isComplete_blanks {gap : List Char} (blank : ∀ c ∈ gap, Text.isBlank c = true)
    (seen : List Char) : isComplete (gap ++ seen) = isComplete seen := by
  rw [isComplete, isComplete, List.dropWhile_append_of_pos blank]

theorem takeWhile_append_of_head {p : Char → Bool} {ys : List Char} (h : ys.head?.any p = false)
    (xs : List Char) : (xs ++ ys).takeWhile p = xs.takeWhile p := by
  induction xs with
  | nil =>
    cases ys with
    | nil => rfl
    | cons y ys =>
      have head : p y = false := h
      simp [head]
  | cons x xs ih => simp only [List.cons_append, List.takeWhile_cons, ih]

theorem isComplete_append (fresh : Fresh seen) (s : List Char) :
    isComplete (s ++ seen) = isComplete s := by
  by_cases blank : ∀ c ∈ s, Text.isBlank c = true
  · have nothing : isComplete s = false := by
      rw [← List.append_nil s, isComplete_blanks blank]
      rfl
    rw [isComplete_blanks blank, fresh.incomplete, nothing]
  · obtain ⟨c, cs, heq⟩ : ∃ c cs, s.dropWhile Text.isBlank = c :: cs := by
      refine List.exists_cons_of_ne_nil fun none => blank ?_
      exact List.dropWhile_eq_nil_iff.mp none
    have both : (s ++ seen).dropWhile Text.isBlank = c :: (cs ++ seen) := by
      rw [List.dropWhile_append, heq]
      rfl
    have word := takeWhile_append_of_head fresh.noWord (c :: cs)
    rw [List.cons_append] at word
    rw [isComplete, isComplete, both, heq]
    simp only [word]

theorem ends_append_iff (fresh : Fresh seen) (s : List Char) :
    Ends q d (s ++ seen) c ↔ Ends q d s c := by
  rw [Ends, Ends, isComplete_append fresh]

theorem skim_append_seen (fresh : Fresh seen) (q : Quotation) (d : Nat) (s cs : List Char) :
    skim q d (s ++ seen) cs = skim q d s cs := by
  induction cs generalizing q d s with
  | nil => rfl
  | cons c cs ih =>
    simp only [skim, ends_append_iff fresh, ← List.cons_append, ih]

theorem skim_fresh (fresh : Fresh seen) (q : Quotation) (d : Nat) (cs : List Char) :
    skim q d seen cs = skim q d [] cs := skim_append_seen fresh q d [] cs

theorem fresh_blanks {gap : List Char} (blank : ∀ c ∈ gap, Text.isBlank c = true) : Fresh gap := by
  refine ⟨?_, ?_⟩
  · rw [← List.append_nil gap, isComplete_blanks blank]
    rfl
  · cases gap with
    | nil => rfl
    | cons c gap =>
      have outside := Name.isPart_of_isBlank (blank c (List.mem_cons_self ..))
      simpa using outside

/-- A text that a parameter can be: its quotes and parentheses are closed, it does not end before an
opening parenthesis in it, and it ends at its end. -/
structure Whole (p : List Char) : Prop where
  through : skim .outside 0 [] p = some (.outside, 0)
  complete : isComplete p.reverse = true

theorem Whole.level {p : List Char} (h : Whole p) : level .outside 0 p = some (.outside, 0) :=
  level_of_skim h.through

/-- Characters that are no parentheses and no quotes leave a text where it is. -/
theorem level_of_plain (h : ∀ c ∈ cs, c ≠ '(' ∧ c ≠ ')' ∧ c ≠ '\'' ∧ c ≠ '"') (d : Nat) :
    Token.level .outside d cs = some (.outside, d) := by
  induction cs with
  | nil => rfl
  | cons c cs ih =>
    obtain ⟨⟨notOpen, notClose, notQuote, notQuotes⟩, later⟩ := List.forall_mem_cons.mp h
    have next : Quotation.next .outside c = .outside := by simp [Quotation.next, notQuote, notQuotes]
    rw [level_cons, depthAfter_other ⟨notOpen, notClose⟩, next]
    exact ih later

theorem skim_of_plain (h : ∀ c ∈ cs, c ≠ '(' ∧ c ≠ ')' ∧ c ≠ '\'' ∧ c ≠ '"') (d : Nat)
    (seen : List Char) : skim .outside d seen cs = some (.outside, d) := by
  induction cs generalizing seen with
  | nil => rfl
  | cons c cs ih =>
    obtain ⟨⟨notOpen, notClose, notQuote, notQuotes⟩, later⟩ := List.forall_mem_cons.mp h
    have next : Quotation.next .outside c = .outside := by simp [Quotation.next, notQuote, notQuotes]
    rw [skim_cons fun ends => notOpen ends.2.1, depthAfter_other ⟨notOpen, notClose⟩, next]
    exact ih later _

/-! ## The scanners -/

theorem closing?_cons (h : depthAfter q d c = some d') (cs : List Char) :
    closing? q d (c :: cs) =
      (closing? (q.next c) d' cs).map fun (inner, rest) => (c :: inner, rest) := by
  simp only [closing?]
  unfold depthAfter at h
  split at h
  · next opens =>
    rw [if_pos opens.1, if_pos opens.2, Option.some.inj h]
  · next notOpens =>
    split at h
    · next closes =>
      split at h
      · cases h
      · next some =>
        obtain ⟨k, rfl⟩ := Nat.exists_eq_succ_of_ne_zero some
        obtain rfl := Option.some.inj h
        rw [if_pos closes.1, if_neg fun opens => notOpens ⟨closes.1, opens⟩, if_pos closes.2]
        rfl
    · next notCloses =>
      obtain rfl := Option.some.inj h
      split
      · next outside =>
        rw [if_neg fun opens => notOpens ⟨outside, opens⟩,
          if_neg fun closes => notCloses ⟨outside, closes⟩]
      · rfl

theorem closing?_append (h : Token.level q d cs = some (q', d')) (rest : List Char) :
    closing? q d (cs ++ rest) =
      (closing? q' d' rest).map fun (inner, rest) => (cs ++ inner, rest) := by
  induction cs generalizing q d with
  | nil =>
    obtain ⟨rfl, rfl⟩ := Prod.mk.inj (Option.some.inj h)
    simp
  | cons c cs ih =>
    obtain ⟨k, depth, later⟩ := Option.bind_eq_some_iff.mp h
    rw [List.cons_append, closing?_cons depth, ih later, Option.map_map]
    rfl

theorem closing?_group (h : Token.level .outside 0 cs = some (.outside, 0)) (rest : List Char) :
    closing? .outside 0 (cs ++ ')' :: rest) = some (cs, rest) := by
  rw [closing?_append h]
  simp [closing?]

variable {offset opened : Nat} {text rest : List Char}

theorem parameter?_cons (notEnds : ¬Ends q d seen c) (h : depthAfter q d c = some d') (cs : List Char) :
    ∃ opened', parameter? offset q d opened seen (c :: cs) =
      parameter? (offset + c.utf8Size) (q.next c) d' opened' (c :: seen) cs := by
  simp only [parameter?]
  unfold depthAfter at h
  split at h
  · next opens =>
    rw [if_pos opens.1, if_pos opens.2]
    obtain rfl := Option.some.inj h
    split
    · next none =>
      rw [if_neg fun complete => notEnds ⟨opens.1, opens.2, none, complete⟩, none]
      exact ⟨_, rfl⟩
    · exact ⟨_, rfl⟩
  · next notOpens =>
    split at h
    · next closes =>
      split at h
      · cases h
      · next some =>
        obtain ⟨k, rfl⟩ := Nat.exists_eq_succ_of_ne_zero some
        obtain rfl := Option.some.inj h
        rw [if_pos closes.1, if_neg fun opens => notOpens ⟨closes.1, opens⟩, if_pos closes.2]
        exact ⟨_, rfl⟩
    · next notCloses =>
      obtain rfl := Option.some.inj h
      split
      · next outside =>
        rw [if_neg fun opens => notOpens ⟨outside, opens⟩,
          if_neg fun closes => notCloses ⟨outside, closes⟩]
        exact ⟨_, rfl⟩
      · exact ⟨_, rfl⟩

theorem parameter?_append (h : skim q d seen cs = some (q', d')) (rest : List Char) :
    ∃ offset' opened', parameter? offset q d opened seen (cs ++ rest) =
      parameter? offset' q' d' opened' (cs.reverse ++ seen) rest := by
  induction cs generalizing offset opened q d seen with
  | nil =>
    obtain ⟨rfl, rfl⟩ := Prod.mk.inj (Option.some.inj h)
    exact ⟨offset, opened, rfl⟩
  | cons c cs ih =>
    rw [skim] at h
    split at h
    · cases h
    · next notEnds =>
      obtain ⟨k, depth, later⟩ := Option.bind_eq_some_iff.mp h
      obtain ⟨opened', first⟩ := parameter?_cons notEnds depth (cs ++ rest)
      obtain ⟨offset'', opened'', others⟩ := ih later
      refine ⟨offset'', opened'', first.trans (others.trans ?_)⟩
      rw [List.reverse_cons, List.append_assoc]
      rfl

theorem parameter?_of_ends (h : Ends q d seen c) (cs : List Char) :
    parameter? offset q d opened seen (c :: cs) = .ok (seen.reverse, c :: cs) := by
  obtain ⟨rfl, rfl, rfl, complete⟩ := h
  simp [parameter?, complete]

theorem parameter?_of_unmatched (h : depthAfter q d c = none) (cs : List Char) :
    parameter? offset q d opened seen (c :: cs) = .error (.unmatchedClose offset) := by
  unfold depthAfter at h
  split at h
  · cases h
  · split at h
    · next closes =>
      split at h
      · next none =>
        obtain ⟨rfl, rfl⟩ := closes
        subst none
        simp [parameter?]
      · cases h
    · cases h

/-- A parameter that has an end ends before an opening parenthesis where it is complete, and at none
before. -/
theorem parameter?_eq_ok (h : parameter? offset q d opened seen cs = .ok (text, rest))
    (operand : rest ≠ []) :
    ∃ p back, text = seen.reverse ++ p ∧ rest = '(' :: back ∧ cs = p ++ rest ∧
      skim q d seen p = some (.outside, 0) ∧ isComplete text.reverse = true := by
  induction cs generalizing offset opened q d seen with
  | nil =>
    rw [parameter?] at h
    split at h
    · obtain ⟨-, rfl⟩ := Prod.mk.inj (Except.ok.inj h)
      exact absurd rfl operand
    · cases h
  | cons c cs ih =>
    by_cases ends : Ends q d seen c
    · rw [parameter?_of_ends ends] at h
      obtain ⟨rfl, rfl⟩ := Prod.mk.inj (Except.ok.inj h)
      obtain ⟨rfl, rfl, rfl, complete⟩ := ends
      exact ⟨[], cs, by simp, rfl, rfl, rfl, by simpa using complete⟩
    · cases depth : depthAfter q d c with
      | none =>
        rw [parameter?_of_unmatched depth] at h
        cases h
      | some k =>
        obtain ⟨opened', first⟩ := @parameter?_cons q d k seen c offset opened ends depth cs
        rw [first] at h
        obtain ⟨p, back, htext, hrest, rfl, through, complete⟩ := ih h
        refine ⟨c :: p, back, ?_, hrest, rfl, ?_, complete⟩
        · rw [htext, List.reverse_cons, List.append_assoc]
          rfl
        · rw [skim_cons ends, depth]
          exact through

/-! ## Outer blanks of parameters -/

theorem plain_of_isBlank (h : Text.isBlank c = true) : c ≠ '(' ∧ c ≠ ')' ∧ c ≠ '\'' ∧ c ≠ '"' := by
  refine ⟨?_, ?_, ?_, ?_⟩
  all_goals
    rintro rfl
    revert h
    decide

theorem proper_next (proper : q.Proper) (c : Char) : (q.next c).Proper := by
  cases q with
  | outside =>
    rw [Quotation.next]
    split
    · next quote => simpa [Quotation.Proper] using quote
    · trivial
  | inside quote =>
    rw [Quotation.next]
    split
    · exact proper
    · split
      · trivial
      · exact proper
  | escaped quote => exact proper

theorem proper_of_level (proper : q.Proper) (h : Token.level q d cs = some (q', d')) : q'.Proper := by
  induction cs generalizing q d with
  | nil =>
    obtain ⟨rfl, -⟩ := Prod.mk.inj (Option.some.inj h)
    exact proper
  | cons c cs ih =>
    obtain ⟨k, -, later⟩ := Option.bind_eq_some_iff.mp h
    exact ih (proper_next proper c) later

theorem level_blanks_inside {quote : Char} (proper : Quotation.Proper (.inside quote)) {gap : List Char}
    (blank : ∀ c ∈ gap, Text.isBlank c = true) (d : Nat) :
    Token.level (.inside quote) d gap = some (.inside quote, d) := by
  induction gap with
  | nil => rfl
  | cons c gap ih =>
    obtain ⟨first, later⟩ := List.forall_mem_cons.mp blank
    have notQuote : c ≠ quote := by
      rintro rfl
      obtain ⟨-, -, single, double⟩ := plain_of_isBlank first
      exact proper.elim single double
    have notEscape : c ≠ '\\' := by
      rintro rfl
      revert first
      decide
    have next : Quotation.next (.inside quote) c = .inside quote := by
      simp [Quotation.next, notQuote, notEscape]
    rw [level_cons, depthAfter_quoted (by simp), next]
    exact ih later

theorem eq_of_level_blanks (proper : q.Proper) {gap : List Char}
    (blank : ∀ c ∈ gap, Text.isBlank c = true) (h : Token.level q d gap = some (.outside, d')) :
    q = .outside ∧ d = d' := by
  cases q with
  | outside =>
    rw [level_of_plain (fun c hc => plain_of_isBlank (blank c hc))] at h
    exact ⟨rfl, (Prod.mk.inj (Option.some.inj h)).2⟩
  | inside quote =>
    rw [level_blanks_inside proper blank] at h
    cases (Prod.mk.inj (Option.some.inj h)).1
  | escaped quote =>
    cases gap with
    | nil => cases (Prod.mk.inj (Option.some.inj h)).1
    | cons c gap =>
      rw [level_cons, depthAfter_quoted (by simp)] at h
      have inside : Token.level (.inside quote) d gap = some (.outside, d') := h
      rw [level_blanks_inside proper fun x hx => blank x (List.mem_cons_of_mem _ hx)] at inside
      cases (Prod.mk.inj (Option.some.inj inside)).1

theorem whole_trim (through : skim .outside 0 [] cs = some (.outside, 0))
    (complete : isComplete cs.reverse = true) : Whole (Text.trim cs) := by
  obtain ⟨front, back, hfront, hback, split⟩ := Text.trim_split cs
  have fresh : Fresh front.reverse := fresh_blanks fun c hc => hfront c (List.mem_reverse.mp hc)
  have blanks : ∀ c ∈ back.reverse, Text.isBlank c = true := fun c hc => hback c (List.mem_reverse.mp hc)
  refine ⟨?_, ?_⟩
  · rw [split, skim_append, skim_of_plain fun c hc => plain_of_isBlank (hfront c hc)] at through
    rw [Option.bind_some, List.append_nil, skim_fresh fresh, skim_append] at through
    obtain ⟨⟨q, d⟩, inner, trailing⟩ := Option.bind_eq_some_iff.mp through
    have outside : Quotation.outside.Proper := trivial
    have proper := proper_of_level outside (level_of_skim inner)
    obtain ⟨rfl, rfl⟩ := eq_of_level_blanks proper hback (level_of_skim trailing)
    exact inner
  · rw [split, List.reverse_append, List.reverse_append, List.append_assoc, isComplete_blanks blanks,
      isComplete_append fresh] at complete
    exact complete

/-- A whole parameter between spaces is read up to the parenthesis that follows. -/
theorem parameter?_of_whole {p : List Char} (h : Whole p) (offset : Nat) (rest : List Char) :
    parameter? offset .outside 0 0 [] (' ' :: (p ++ ' ' :: '(' :: rest)) =
      .ok (' ' :: (p ++ [' ']), '(' :: rest) := by
  have fresh : Fresh [' '] := fresh_blanks (by decide)
  have through : skim .outside 0 [] (' ' :: (p ++ [' '])) = some (.outside, 0) := by
    have space (seen : List Char) : skim .outside 0 seen [' '] = some (.outside, 0) :=
      skim_of_plain (by decide) 0 seen
    rw [← List.singleton_append, skim_append, space, Option.bind_some, List.reverse_singleton,
      List.append_nil, skim_fresh fresh, skim_append, h.through]
    exact space _
  have complete : isComplete (' ' :: (p ++ [' '])).reverse = true := by
    rw [List.reverse_cons, List.reverse_append, List.append_assoc,
      isComplete_blanks (by decide), isComplete_append fresh]
    exact h.complete
  obtain ⟨offset', opened', read⟩ := @parameter?_append .outside .outside 0 0 [] _ offset 0 through
    ('(' :: rest)
  rw [show ' ' :: (p ++ ' ' :: '(' :: rest) = ' ' :: (p ++ [' ']) ++ '(' :: rest by simp, read,
    List.append_nil, parameter?_of_ends ⟨rfl, rfl, rfl, complete⟩, List.reverse_reverse]

end Token

end RelationalAlgebra.Query
