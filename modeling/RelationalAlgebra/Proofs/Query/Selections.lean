import RelationalAlgebra.Proofs.Query.Predicates
import RelationalAlgebra.Proofs.Query.Printing
/-!
# Selections that are printed and read

A selection prints its predicate as it is, and the scanner finds the end of it.  It takes a connective that
touches a number for the end of a word, so the predicate breaks off if a parenthesis opens right behind,
outside of all others.  Every other predicate that can be read, however it is written, can be written in
a selection.
-/

namespace RelationalAlgebra.Predicate

open Query.Token (Whole)

/-! ## Where a predicate breaks off -/

def Token.depth (t : Token) (depth : Nat) : Nat :=
  if t = .symbol .openParen then depth + 1
  else if t = .symbol .closeParen then depth - 1
  else depth

/-- Whether there is, where no parenthesis is open, a number with a connective that touches it and an
opening parenthesis behind that.  Before the lexemes `depth` parentheses are open. -/
def Lexeme.breaksOff (depth : Nat) : List Lexeme → Bool
  | s :: t :: ls =>
    (depth = 0 && !decide (s.Apart t) && ls.head?.any (·.isSymbol .openParen)) ||
      breaksOff (s.token.depth depth) (t :: ls)
  | _ => false

/-- A text that breaks off. -/
def BreaksOff (cs : List Char) : Prop :=
  ∃ ls, Lexeme.scan cs = .ok ls ∧ Lexeme.breaksOff 0 ls = true

instance (cs : List Char) : Decidable (BreaksOff cs) :=
  decidableExistsOk (Lexeme.scan cs) fun ls => Lexeme.breaksOff 0 ls = true

def Tile.breaksOff (number : Bool) (depth : Nat) : List Tile → Bool
  | [] => false
  | t :: ts =>
    (depth = 0 && t.isGlued number && ts.head?.any (·.token = .symbol .openParen)) ||
      breaksOff t.token.isNumber (t.token.depth depth) ts

theorem Token.depth_of_isNumber {t : Token} (h : t.isNumber = true) (depth : Nat) :
    t.depth depth = depth := by
  cases t <;> first | rfl | cases h

theorem Token.depth_of_isConnective {t : Token} (h : t.isConnective = true) (depth : Nat) :
    t.depth depth = depth := by
  cases t <;> first | rfl | cases h

theorem Tile.isNumber_of_isGlued {number : Bool} {t : Tile} (h : t.isGlued number = true) :
    number = true ∧ t.token.isConnective = true := by
  simp only [isGlued, Bool.and_eq_true] at h
  exact ⟨h.1.1, h.2⟩

theorem not_apart_eq_isGlued {s t : Tile} {start stop stop' : Nat} :
    (!decide (Lexeme.Apart ⟨s.token, start, stop⟩ ⟨t.token, stop + Text.byteSize t.gap, stop'⟩)) =
      t.isGlued s.token.isNumber := by
  by_cases apart : s.Apart t
  · rw [Tile.isGlued_eq_false_iff.mpr apart, decide_eq_true (apart_iff.mpr apart)]
    rfl
  · have glued : t.isGlued s.token.isNumber = true := by
      by_contra other
      exact apart (Tile.isGlued_eq_false_iff.mp (by simpa using other))
    rw [glued, decide_eq_false (mt apart_iff.mp apart)]
    rfl

theorem breaksOff_locate (offset depth : Nat) (s : Tile) (ts : List Tile) :
    Lexeme.breaksOff depth (Tile.locate offset (s :: ts)) =
      Tile.breaksOff s.token.isNumber (s.token.depth depth) ts := by
  induction ts generalizing offset depth s with
  | nil => rfl
  | cons t ts ih =>
    have later := ih (offset + Text.byteSize s.gap + Text.byteSize s.body) (s.token.depth depth) t
    rw [Tile.locate] at later
    -- behind a number the parentheses are those before it
    have outside : (decide (depth = 0) && t.isGlued s.token.isNumber) =
        (decide (s.token.depth depth = 0) && t.isGlued s.token.isNumber) := by
      cases glued : t.isGlued s.token.isNumber with
      | false => rw [Bool.and_false, Bool.and_false]
      | true => rw [Token.depth_of_isNumber (Tile.isNumber_of_isGlued glued).1]
    have head (offset : Nat) : (Tile.locate offset ts).head?.any (·.isSymbol .openParen) =
        ts.head?.any (·.token = .symbol .openParen) := by
      cases ts <;> rfl
    rw [Tile.locate, Tile.locate, Lexeme.breaksOff, later, Tile.breaksOff, head, not_apart_eq_isGlued,
      outside]

theorem Token.depthAfter_eq {t : Token} {b c : Bool} {d k : Nat} (h : t.depthAfter b d = some k)
    (complete : c = b ∨ c = true ∧ ¬(d = 0 ∧ t = .symbol .openParen)) :
    t.depthAfter c d = some k ∧ t.depth d = k := by
  unfold depthAfter at h
  unfold depthAfter depth
  split at h
  · next opens =>
    split at h
    · cases h
    · next stays =>
      rw [if_pos opens, if_pos opens, if_neg fun ends => ?_]
      · exact ⟨h, Option.some.inj h⟩
      · rcases complete with rfl | ⟨-, other⟩
        · exact stays ends
        · exact other ⟨ends.1, opens⟩
  · next noOpen =>
    rw [if_neg noOpen, if_neg noOpen]
    refine ⟨h, ?_⟩
    split at h
    · next closes =>
      rw [if_pos closes]
      split at h
      · cases h
      · exact Option.some.inj h
    · next noClose =>
      rw [if_neg noClose]
      exact Option.some.inj h

/-- A list of tiles whose tokens are complete at their end is followed to that end, or it breaks off.  The
scanner may have taken the text before it for complete, but not right before a parenthesis. -/
theorem follow_eq_of_complete {tiles : List Tile} {number b c : Bool} {d e : Nat}
    (followed : Token.follow b d (tiles.map Tile.token) = some (true, e))
    (complete : c = b ∨ c = true ∧ ¬(d = 0 ∧ tiles.head?.any (·.token = .symbol .openParen) = true)) :
    Tile.follow number c d tiles = if Tile.breaksOff number d tiles then none else some (true, e) := by
  induction tiles generalizing number b c d with
  | nil =>
    obtain ⟨rfl, rfl⟩ := Prod.mk.inj (Option.some.inj followed)
    obtain rfl : c = true := complete.elim id And.left
    rfl
  | cons t ts ih =>
    obtain ⟨k, depth, later⟩ := Option.bind_eq_some_iff.mp followed
    obtain ⟨same, within⟩ := Token.depthAfter_eq depth (by simpa using complete)
    rw [Tile.follow, same, Option.bind_some, Tile.breaksOff, within]
    by_cases breaks : d = 0 ∧ t.isGlued number = true ∧
        ts.head?.any (·.token = .symbol .openParen) = true
    · obtain ⟨rfl, glued, opens⟩ := breaks
      obtain ⟨u, us, rfl⟩ : ∃ u us, ts = u :: us := by
        cases ts with
        | nil => cases opens
        | cons u us => exact ⟨u, us, rfl⟩
      have connective := (Tile.isNumber_of_isGlued glued).2
      obtain rfl : 0 = k := (Token.depth_of_isConnective connective 0).symm.trans within
      have ends : u.token.depthAfter true 0 = none := by
        have symbol : u.token = .symbol .openParen := by simpa using opens
        rw [symbol]
        rfl
      rw [glued, opens, Tile.follow, Bool.true_or, ends]
      rfl
    · have goes : (decide (d = 0) && t.isGlued number &&
          ts.head?.any (·.token = .symbol .openParen)) = false := by
        by_contra other
        exact breaks (by simpa [and_assoc] using other)
      rw [goes, Bool.false_or]
      refine ih later ?_
      cases glued : t.isGlued number with
      | false => exact .inl (Bool.false_or _)
      | true =>
        have connective := (Tile.isNumber_of_isGlued glued).2
        obtain rfl : d = k := (Token.depth_of_isConnective connective d).symm.trans within
        exact .inr ⟨Bool.true_or _, fun opens => breaks ⟨opens.1, glued, opens.2⟩⟩

/-- A predicate that can be read is a whole parameter exactly if it does not break off. -/
theorem whole_iff_not_breaksOff {p : String} {f : Formula} (h : Reads p f) :
    Whole p.toList ↔ ¬BreaksOff p.toList := by
  obtain ⟨ls, scanned, derives⟩ := reads_iff_scan.mp h
  have breaks : BreaksOff p.toList ↔ Lexeme.breaksOff 0 ls = true := by
    simp [BreaksOff, scanned]
  obtain ⟨tiles, tiling, rfl⟩ := Lexeme.scan_eq_ok_iff.mp scanned
  rw [map_token_locate] at derives
  have same : Lexeme.breaksOff 0 (Tile.locate 0 tiles) = Tile.breaksOff false 0 tiles := by
    cases tiles with
    | nil => rfl
    | cons t ts =>
      rw [breaksOff_locate, Tile.breaksOff]
      simp [Tile.isGlued]
  rw [whole_iff_follow_tiles tiling, breaks, same,
    follow_eq_of_complete (follow_of_derives derives (.inl rfl)) (.inl rfl)]
  cases Tile.breaksOff false 0 tiles <;> simp

end RelationalAlgebra.Predicate

namespace RelationalAlgebra.Query

open Predicate (Reads BreaksOff)

/-- A predicate that can be read, without outer blanks, can be printed in a selection exactly if it does not
break off. -/
theorem printable_selection_iff {p : String} {f : Predicate.Formula} {c : Tree} (reads : Reads p f)
    (trimmed : Text.Trimmed p.toList) (operand : c.Printable) :
    (Tree.selection p c).Printable ↔ ¬BreaksOff p.toList := by
  rw [← Predicate.whole_iff_not_breaksOff reads]
  constructor
  · exact fun printable => printable.1.whole
  · intro whole
    have some : p ≠ "" := by
      rintro rfl
      cases whole.complete
    exact ⟨⟨whole, trimmed, if_neg some⟩, operand⟩

/-- A selection by a predicate that can be read, over a query that has been read, is read back exactly if the
predicate does not break off. -/
theorem selection_is_read_back_iff {p text : String} {f : Predicate.Formula} {c : Tree}
    (reads : Predicate.Formula.ofText? p.toList = .ok f) (trimmed : Text.Trimmed p.toList)
    (operand : Tree.ofText? text = .ok c) :
    Tree.ofText? (Tree.selection p c).write = .ok (Tree.selection p c) ↔ ¬BreaksOff p.toList := by
  rw [← printable_selection_iff reads trimmed (printable_of_ofText? operand)]
  exact ⟨printable_of_ofText?, Tree.ofText?_write⟩

def sheltered : String := "(x == 1or(y)) and z"

theorem sheltered_selection_is_read_back : ∃ f c, Predicate.Formula.ofText? sheltered.toList = .ok f ∧
    Tree.ofText? "r ∪ s" = .ok c ∧
    Tree.ofText? (Tree.selection sheltered c).write = .ok (Tree.selection sheltered c) := by
  have reads : ∃ f, Predicate.Formula.ofText? sheltered.toList = .ok f ∧ True := by decide +kernel
  have operand : Tree.ofText? "r ∪ s" = .ok (.binary .union (.relation "r") (.relation "s")) := by
    decide +kernel
  have trimmed : Text.Trimmed sheltered.toList := ⟨by decide, by decide⟩
  have whole : ¬BreaksOff sheltered.toList := by decide +kernel
  obtain ⟨f, reads, -⟩ := reads
  exact ⟨f, _, reads, operand, (selection_is_read_back_iff reads trimmed operand).mpr whole⟩

def touching : String := "1and (x)"

theorem touching_number_breaks_selection_off :
    Predicate.Formula.ofText? touching.toList =
        .ok (.and (.literal (.int 1)) (.attribute "x" none)) ∧
      Text.Trimmed touching.toList ∧ Tree.ofText? "r" = .ok (.relation "r") ∧
      Tree.ofText? (Tree.selection touching (.relation "r")).write =
        .error (.parse (.surplus .selection "1and" "(r)")) :=
  ⟨by decide +kernel, ⟨by decide, by decide⟩, by decide +kernel, by decide +kernel⟩

end RelationalAlgebra.Query
