import RelationalAlgebra.Proofs.Query.Continuation
/-!
# Numbers before connectives

Whether a number touches an `and`, `or` or `not` behind it is seen in the lexemes of a text.  Where a text is
put together at blanks and parentheses, its lexemes are those of its parts, as soon as the quotes of the parts
are closed; that the whole has lexemes is all that is asked.
-/

namespace RelationalAlgebra.Predicate

open Query (Quotation)
open Query.Token (level skim)

/-- A connective does not start where a number stops. -/
def Lexeme.Apart (s t : Lexeme) : Prop :=
  s.token.isNumber = true → t.token.isConnective = true → s.stop ≠ t.start

instance (s t : Lexeme) : Decidable (s.Apart t) :=
  inferInstanceAs (Decidable (_ → _ → _))

/-- No number in a text touches an `and`, `or` or `not` behind it.  Nothing is said of a text that is no
list of lexemes. -/
def Separated (cs : List Char) : Prop :=
  ∀ ts, Lexeme.scan cs = .ok ts → ts.IsChain Lexeme.Apart

instance (cs : List Char) : Decidable (Separated cs) :=
  decidableForallOk (Lexeme.scan cs) fun ts => ts.IsChain Lexeme.Apart

theorem byteSize_eq_zero_iff {cs : List Char} : Text.byteSize cs = 0 ↔ cs = [] := by
  cases cs with
  | nil => simp [Text.byteSize]
  | cons c cs =>
    have := c.utf8Size_pos
    simp only [Text.byteSize, reduceCtorEq, iff_false]
    omega

theorem apart_iff {s t : Tile} {start stop stop' : Nat} :
    Lexeme.Apart ⟨s.token, start, stop⟩ ⟨t.token, stop + Text.byteSize t.gap, stop'⟩ ↔ s.Apart t := by
  simp only [Lexeme.Apart, Tile.Apart, Ne, ← byteSize_eq_zero_iff]
  refine imp_congr Iff.rfl (imp_congr Iff.rfl ?_)
  omega

theorem isChain_locate_iff (offset : Nat) {tiles : List Tile} :
    (Tile.locate offset tiles).IsChain Lexeme.Apart ↔ tiles.IsChain Tile.Apart := by
  induction tiles generalizing offset with
  | nil => simp [Tile.locate]
  | cons t ts ih =>
    cases ts with
    | nil => simp [Tile.locate]
    | cons u us =>
      rw [List.isChain_cons_cons, ← ih (offset + Text.byteSize t.gap + Text.byteSize t.body)]
      simp only [Tile.locate, List.isChain_cons_cons, apart_iff]

theorem separated_iff {cs : List Char} {tiles : List Tile} (h : Tiling cs tiles) :
    Separated cs ↔ tiles.IsChain Tile.Apart := by
  have scanned := Lexeme.scan_eq_ok_iff.mpr ⟨tiles, h, rfl⟩
  constructor
  · intro separated
    exact (isChain_locate_iff 0).mp (separated _ scanned)
  · intro apart ts other
    obtain rfl := Except.ok.inj (scanned.symm.trans other)
    exact (isChain_locate_iff 0).mpr apart

theorem separated_of_tilings {cs : List Char}
    (h : ∀ tiles, Tiling cs tiles → tiles.IsChain Tile.Apart) : Separated cs := by
  intro ts scanned
  obtain ⟨tiles, tiling, rfl⟩ := Lexeme.scan_eq_ok_iff.mp scanned
  exact (isChain_locate_iff 0).mpr (h tiles tiling)

theorem isChain_setGap {t : Tile} {ts : List Tile} (h : (t :: ts).IsChain Tile.Apart)
    (gap : List Char) : (⟨gap, t.body, t.token⟩ :: ts).IsChain Tile.Apart := by
  obtain ⟨next, later⟩ := List.isChain_cons.mp h
  exact List.isChain_cons.mpr ⟨next, later⟩

/-! ## Texts cut at blanks and parentheses -/

def IsCut (c : Char) : Prop := Text.isBlank c = true ∨ c = '(' ∨ c = ')'

theorem not_isPart_of_isCut {c : Char} (h : IsCut c) : Name.isPart c = false := by
  rcases h with blank | rfl | rfl
  · exact Name.isPart_of_isBlank blank
  · decide
  · decide

theorem Spelled.closed {token : Token} {body rest : List Char} (h : Spelled token body rest) :
    body.foldl Quotation.next .outside = .outside := by
  -- inside of parentheses a lexeme that is one does not end the text
  have through := skim_spelled h 1 []
  obtain ⟨d, depth⟩ : ∃ d, token.depthAfter (Query.Token.isComplete []) 1 = some d := by
    unfold Token.depthAfter
    split
    · exact ⟨2, if_neg fun none => by cases none.1⟩
    · split
      · exact ⟨0, if_neg Nat.one_ne_zero⟩
      · exact ⟨1, rfl⟩
  rw [depth] at through
  exact (Query.Token.eq_foldl_next_of_level (Query.Token.level_of_skim through)).symm

/-- A text is not cut in a lexeme, unless in quotes. -/
theorem Spelled.not_isCut {token : Token} {body rest as bs : List Char} (h : Spelled token body rest)
    (split : body = as ++ bs) (ne : as ≠ []) (closed : as.foldl Quotation.next .outside = .outside) :
    ∀ c ∈ bs.head?, ¬IsCut c := by
  intro x hx cut
  obtain ⟨bs, rfl⟩ := List.head?_eq_some_iff.mp (Option.mem_def.mp hx)
  obtain ⟨a, as, rfl⟩ := List.exists_cons_of_ne_nil ne
  have mem : x ∈ as ++ x :: bs := by simp
  have notPart := not_isPart_of_isCut cut
  cases h with
  | word start parts ends =>
    obtain ⟨-, rfl⟩ := List.cons.inj split
    rw [parts x mem] at notPart
    cases notPart
  | number isNumber digits last =>
    rcases digits x (split ▸ List.mem_cons_of_mem a mem) with digit | rfl
    · rw [Name.isPart_of_isDigit digit] at notPart
      cases notPart
    · revert cut
      unfold IsCut
      decide
  | @literal quote w _ _ isQuote closes =>
    obtain ⟨rfl, rfl⟩ := List.cons.inj split
    have inside : Quotation.next .outside quote = .inside quote := by
      rcases isQuote with rfl | rfl <;> rfl
    rw [List.foldl_cons, inside] at closed
    exact (closes_literal closes).before as (x :: bs) rfl (List.cons_ne_nil x bs) closed
  | @symbol s _ _ spelling =>
    have second : ∀ s : Symbol, ∀ body ∈ s.spellings, ∀ y ∈ body.tail, y = '=' ∨ y = '/' := by
      intro s
      cases s <;> decide
    have tail : x ∈ body.tail := by rw [split]; exact mem
    revert cut
    unfold IsCut
    rcases second s body spelling x tail with rfl | rfl <;> decide

namespace Tiling

/-- The tiles of a text that is cut, where no quote is open, before a blank or a parenthesis are those of the
parts. -/
theorem cut {as bs : List Char} {tiles : List Tile} (h : Tiling (as ++ bs) tiles)
    (closed : as.foldl Quotation.next .outside = .outside) (tight : Text.Tight as)
    (head : ∀ c ∈ bs.head?, IsCut c) :
    ∃ ts us, tiles = ts ++ us ∧ Tiling as ts ∧ Tiling bs us := by
  generalize hall : as ++ bs = all at h
  induction h generalizing as with
  | @blanks cs blank =>
    subst hall
    obtain ⟨first, second⟩ := List.forall_mem_append.mp blank
    exact ⟨[], [], rfl, .blanks first, .blanks second⟩
  | @tile gap w rest c token tiles blank begins tiling ih =>
    by_cases none : as = []
    · subst none
      rw [List.nil_append] at hall
      subst hall
      exact ⟨[], _, rfl, .blanks (by simp), .tile blank begins tiling⟩
    -- the first part does not end in the blanks, and not in the lexeme
    obtain ⟨m, rfl, ne, hm⟩ : ∃ m, as = gap ++ m ∧ m ≠ [] ∧ m ++ bs = c :: w ++ rest := by
      rcases List.append_eq_append_iff.mp hall with ⟨k, rfl, hbs⟩ | ⟨m, rfl, hrest⟩
      · exact absurd (tight _ (List.getLast?_eq_some_getLast none)) (by
          simp [blank _ (List.mem_append_left k (List.getLast_mem none))])
      · by_cases empty : m = []
        · subst empty
          rw [List.append_nil] at none tight
          exact absurd (tight _ (List.getLast?_eq_some_getLast none)) (by
            simp [blank _ (List.getLast_mem none)])
        · exact ⟨m, rfl, empty, hrest.symm⟩
    have plain : gap.foldl Quotation.next .outside = .outside :=
      (Query.Token.eq_foldl_next_of_level (Query.Token.level_of_plain
        (fun x hx => Query.Token.plain_of_isBlank (blank x hx)) 0)).symm
    rw [List.foldl_append, plain] at closed
    have spelled := begins.spelled
    rcases List.append_eq_append_iff.mp hm with ⟨k, hk, rfl⟩ | ⟨k, rfl, rfl⟩
    · cases k with
      | nil =>
        rw [List.append_nil] at hk
        subst hk
        exact ⟨[⟨gap, c :: w, token⟩], tiles, rfl,
          by simpa using Tiling.tile blank (begins.milder (.nil rest)) (.blanks (by simp)), tiling⟩
      | cons x k => exact absurd (head x rfl) (spelled.not_isCut hk ne closed x rfl)
    · rw [List.foldl_append, spelled.closed] at closed
      obtain ⟨ts, us, rfl, first, second⟩ := ih closed tight.of_append.of_append rfl
      exact ⟨⟨gap, c :: w, token⟩ :: ts, us, rfl,
        .tile blank (begins.milder (.append_right k bs)) first, second⟩

end Tiling

/-- A connective does not stand at the very start of a text that begins with a blank or a parenthesis. -/
theorem gap_ne_nil_of_isCut {cs : List Char} {t : Tile} {ts : List Tile} (h : Tiling cs (t :: ts))
    (head : ∀ c ∈ cs.head?, IsCut c) (connective : t.token.isConnective = true) : t.gap ≠ [] := by
  cases h with
  | @tile gap w rest c token _ blank begins tiling =>
    rintro rfl
    have notPart := not_isPart_of_isCut (head c rfl)
    have start : Name.isStart c = true := isStart_of_isConnective begins.spelled connective
    rw [Name.isPart_of_isStart start] at notPart
    cases notPart

namespace Separated

theorem append {as bs : List Char} (ha : Separated as) (hb : Separated bs)
    (closed : as.foldl Quotation.next .outside = .outside) (tight : Text.Tight as)
    (head : ∀ c ∈ bs.head?, IsCut c) : Separated (as ++ bs) := by
  refine separated_of_tilings fun tiles tiling => ?_
  obtain ⟨ts, us, rfl, first, second⟩ := tiling.cut closed tight head
  refine ((separated_iff first).mp ha).append ((separated_iff second).mp hb) ?_
  intro s hs t ht isNumber connective
  obtain ⟨us, rfl⟩ := List.head?_eq_some_iff.mp (Option.mem_def.mp ht)
  exact gap_ne_nil_of_isCut second head connective

theorem cons_blank {c : Char} {cs : List Char} (blank : Text.isBlank c = true) (h : Separated cs) :
    Separated (c :: cs) := by
  refine separated_of_tilings fun tiles tiling => ?_
  generalize hall : c :: cs = all at tiling
  cases tiling with
  | blanks => exact .nil
  | @tile gap w rest d token tiles blanks begins tiling =>
    cases gap with
    | nil =>
      obtain ⟨rfl, -⟩ := List.cons.inj hall
      rw [begins.1] at blank
      cases blank
    | cons g gap =>
      obtain ⟨-, rfl⟩ := List.cons.inj hall
      have shorter : Tiling _ (⟨gap, d :: w, token⟩ :: tiles) :=
        .tile (fun x hx => blanks x (List.mem_cons_of_mem g hx)) begins tiling
      exact isChain_setGap ((separated_iff shorter).mp h) (g :: gap)

theorem cons_open {cs : List Char} (h : Separated cs) : Separated ('(' :: cs) := by
  refine separated_of_tilings fun tiles tiling => ?_
  generalize hall : '(' :: cs = all at tiling
  cases tiling with
  | blanks => exact .nil
  | @tile gap w rest c token tiles blanks begins tiling =>
    cases gap with
    | cons g gap =>
      obtain ⟨rfl, -⟩ := List.cons.inj hall
      exact absurd (blanks '(' (List.mem_cons_self ..)) (by decide)
    | nil =>
      obtain ⟨rfl, rfl⟩ := List.cons.inj hall
      have first : Lexeme.first 0 '(' (w ++ rest) = .ok (.symbol .openParen, 0) := rfl
      obtain ⟨rfl, length⟩ := Prod.mk.inj (Except.ok.inj (first.symm.trans begins.2))
      obtain rfl := List.length_eq_zero_iff.mp length.symm
      refine List.isChain_cons.mpr ⟨fun t _ isNumber => ?_, (separated_iff tiling).mp h⟩
      cases isNumber

theorem of_single {cs : List Char} {t : Lexeme} (h : Lexeme.scan cs = .ok [t]) : Separated cs := by
  intro ts scanned
  obtain rfl := Except.ok.inj (h.symm.trans scanned)
  exact .singleton t

theorem group {cs : List Char} (h : Separated cs) (closed : cs.foldl Quotation.next .outside = .outside)
    (tight : Text.Tight cs) : Separated ('(' :: (cs ++ [')'])) := by
  have close : Separated [')'] := of_single (t := ⟨.symbol .closeParen, 0, 1⟩) rfl
  refine cons_open (h.append close closed tight fun c hc => ?_)
  obtain rfl := Option.some.inj hc
  exact .inr (.inr rfl)

theorem append_space {as bs : List Char} (ha : Separated as) (hb : Separated bs)
    (closed : as.foldl Quotation.next .outside = .outside) (tight : Text.Tight as) :
    Separated (as ++ ' ' :: bs) := by
  have space : Text.isBlank ' ' = true := by decide
  refine ha.append (hb.cons_blank space) closed tight fun c hc => ?_
  obtain rfl := Option.some.inj hc
  exact .inl space

end Separated

/-! ## Stretches and renamed texts -/

theorem separated_cover {text : List Char} {ts part : List Lexeme} (h : Lexeme.scan text = .ok ts)
    (separated : Separated text) (sub : part <:+: ts) (ne : part ≠ []) :
    Separated (Lexeme.cover text part) ∧ Text.Trimmed (Lexeme.cover text part) := by
  obtain ⟨tiles, tiling, rfl⟩ := Lexeme.scan_eq_ok_iff.mp h
  obtain ⟨pre, mid, post, rfl, rfl⟩ := Tile.of_infix_locate sub
  cases mid with
  | nil => exact absurd rfl ne
  | cons t mid =>
    obtain ⟨covered, trimmed⟩ := tiling_cover tiling
    refine ⟨(separated_iff covered).mpr ?_, trimmed⟩
    exact isChain_setGap ((separated_iff tiling).mp separated).right_of_append.left_of_append []

/-- What matters for numbers and connectives in a tile. -/
def Tile.kind (t : Tile) : List Char × Bool × Bool := (t.gap, t.token.isNumber, t.token.isConnective)

def KindsApart (a b : List Char × Bool × Bool) : Prop := a.2.1 = true → b.2.2 = true → b.1 ≠ []

theorem map_kind_renamed (image : String → Option String) (afterDot : Bool) (tiles : List Tile) :
    (Tile.renamed image afterDot tiles).map Tile.kind = tiles.map Tile.kind := by
  induction tiles generalizing afterDot with
  | nil => rfl
  | cons t ts ih =>
    obtain ⟨gap, body, token⟩ := t
    cases token with
    | name n =>
      unfold Tile.renamed
      split <;> exact congrArg (_ :: ·) (ih false)
    | _ => exact congrArg (_ :: ·) (ih _)

theorem isChain_of_map_kind {ts us : List Tile} (same : us.map Tile.kind = ts.map Tile.kind)
    (h : ts.IsChain Tile.Apart) : us.IsChain Tile.Apart := by
  have kinds : (ts.map Tile.kind).IsChain KindsApart := (List.isChain_map Tile.kind).mpr h
  rw [← same] at kinds
  exact (List.isChain_map Tile.kind).mp kinds

end RelationalAlgebra.Predicate
