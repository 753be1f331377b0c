import Mathlib.Algebra.Order.BigOperators.Group.List
import Mathlib.Algebra.Order.Ring.Nat
import Mathlib.Data.List.Infix
import RelationalAlgebra.Proofs.Predicate.Clauses
import RelationalAlgebra.Proofs.Predicate.Spelling
/-!
# Words of predicates

The words of a text are counted without a look at quotes, so that every text has a number of them, also one
that is no predicate.  Putting texts together adds the words of the parts, other names in place of those
in a predicate change nothing, and a predicate has no more conjuncts than words and one.
-/

namespace RelationalAlgebra.Predicate

/-! ## Counting -/

/-- Whether a character belongs to a word, inside of one or outside.  A digit starts no word. -/
def inWord (inside : Bool) (c : Char) : Bool := Name.isPart c && (inside || Name.isStart c)

def words (inside : Bool) : List Char → Nat
  | [] => 0
  | c :: cs => (if inWord inside c && !inside then 1 else 0) + words (inWord inside c) cs

/-- A text has no more conjuncts than this. -/
def width (text : String) : Nat := words false text.toList + 1

theorem inWord_of_not_part {c : Char} (h : Name.isPart c = false) (inside : Bool) :
    inWord inside c = false := by
  simp [inWord, h]

theorem inWord_of_start {c : Char} (h : Name.isStart c = true) (inside : Bool) :
    inWord inside c = true := by
  simp [inWord, h, Name.isPart_of_isStart h]

theorem words_append (inside : Bool) (xs ys : List Char) :
    words inside (xs ++ ys) = words inside xs + words (xs.foldl inWord inside) ys := by
  induction xs generalizing inside with
  | nil => simp [words]
  | cons x xs ih =>
    simp only [List.cons_append, words, List.foldl_cons, ih]
    omega

theorem words_le_outside (inside : Bool) (cs : List Char) : words inside cs ≤ words false cs := by
  induction cs generalizing inside with
  | nil => exact Nat.le_refl _
  | cons c cs ih =>
    cases inside with
    | false => exact Nat.le_refl _
    | true =>
      have later := ih true
      by_cases start : Name.isStart c = true
      · simp [words, inWord_of_start start]
      · cases part : Name.isPart c
        · simp [words, inWord_of_not_part part]
        · simpa [words, inWord, part, start] using later

theorem words_append_le (xs ys : List Char) :
    words false (xs ++ ys) ≤ words false xs + words false ys := by
  have := words_le_outside (xs.foldl inWord false) ys
  rw [words_append]
  omega

theorem words_le_length (inside : Bool) (cs : List Char) : words inside cs ≤ cs.length := by
  induction cs generalizing inside with
  | nil => exact Nat.le_refl _
  | cons c cs ih =>
    have := ih (inWord inside c)
    simp only [words, List.length_cons]
    split <;> omega

theorem foldl_inWord_of_not_part {cs : List Char} (h : ∀ c ∈ cs, Name.isPart c = false) :
    cs.foldl inWord false = false := by
  induction cs with
  | nil => rfl
  | cons c cs ih =>
    rw [List.foldl_cons, inWord_of_not_part (h c (List.mem_cons_self ..))]
    exact ih fun x hx => h x (List.mem_cons_of_mem _ hx)

theorem words_of_not_part {cs : List Char} (h : ∀ c ∈ cs, Name.isPart c = false) (inside : Bool) :
    words inside cs = 0 := by
  induction cs generalizing inside with
  | nil => rfl
  | cons c cs ih =>
    have later := ih (fun x hx => h x (List.mem_cons_of_mem _ hx)) false
    simp [words, inWord_of_not_part (h c (List.mem_cons_self ..)), later]

theorem words_blanks_append {gap : List Char} (blank : ∀ c ∈ gap, Text.isBlank c = true)
    (cs : List Char) : words false (gap ++ cs) = words false cs := by
  have outside (c : Char) (hc : c ∈ gap) : Name.isPart c = false := Name.isPart_of_isBlank (blank c hc)
  rw [words_append, words_of_not_part outside, foldl_inWord_of_not_part outside, Nat.zero_add]

theorem words_trim_le (cs : List Char) : words false (Text.trim cs) ≤ words false cs := by
  obtain ⟨front, back, blank, -, split⟩ := Text.trim_split cs
  conv => rhs; rw [split, words_blanks_append blank, words_append]
  exact Nat.le_add_right _ _

/-! ## Texts put together -/

theorem width_pos (text : String) : 0 < width text := Nat.succ_pos _

theorem width_le_length (text : String) : width text ≤ text.length + 1 := by
  have := words_le_length false text.toList
  rw [String.length_toList] at this
  exact Nat.succ_le_succ this

theorem width_trimmed_le (text : String) : width (Text.trimmed text) ≤ width text := by
  rw [width, width, Text.trimmed, String.toList_ofList]
  exact Nat.succ_le_succ (words_trim_le _)

theorem width_append_le (a b : String) : width (a ++ b) + 1 ≤ width a + width b := by
  have := words_append_le a.toList b.toList
  simp only [width, String.toList_append]
  omega

theorem width_guarded_le (text : String) : width (guarded text) ≤ width text := by
  have trimmed := width_trimmed_le text
  unfold guarded
  simp only
  split
  · have front := width_append_le "(" (Text.trimmed text)
    have back := width_append_le ("(" ++ Text.trimmed text) ")"
    have openParen : width "(" = 1 := by decide
    have closeParen : width ")" = 1 := by decide
    omega
  · exact trimmed

theorem width_negation_le (text : String) : width (negation text) ≤ width text + 1 := by
  have trimmed := width_trimmed_le text
  have front := width_append_le "not (" (Text.trimmed text)
  have back := width_append_le ("not (" ++ Text.trimmed text) ")"
  have notOpen : width "not (" = 2 := by decide
  have closeParen : width ")" = 1 := by decide
  rw [negation]
  omega

theorem width_or_le (p q : String) :
    width (Text.trimmed p ++ " or " ++ Text.trimmed q) ≤ width p + width q := by
  have front := width_append_le (Text.trimmed p) " or "
  have back := width_append_le (Text.trimmed p ++ " or ") (Text.trimmed q)
  have or : width " or " = 2 := by decide
  have left := width_trimmed_le p
  have right := width_trimmed_le q
  omega

theorem width_intercalate_le {parts : List String} (ne : parts ≠ []) :
    width (String.intercalate " and " (parts.map guarded)) ≤ (parts.map width).sum := by
  induction parts with
  | nil => exact absurd rfl ne
  | cons p ps ih =>
    have first := width_guarded_le p
    cases ps with
    | nil => simpa using first
    | cons q qs =>
      have later := ih (by simp)
      have and : width " and " = 2 := by decide
      have front := width_append_le (guarded p) " and "
      have back := width_append_le (guarded p ++ " and ")
        (String.intercalate " and " ((q :: qs).map guarded))
      rw [List.map_cons, List.map_cons, String.intercalate_cons_cons, List.map_cons, List.sum_cons]
      rw [List.map_cons] at later back
      omega

theorem width_conjoin_le {parts : List String} (ne : parts ≠ []) :
    width (conjoin parts) ≤ (parts.map width).sum := by
  unfold conjoin
  split
  · next single => simpa using width_trimmed_le single
  · exact width_intercalate_le ne

/-! ## Words and lexemes -/

theorem words_of_head {rest : List Char} (h : rest.head?.any Name.isPart = false) (inside : Bool) :
    words inside rest = words false rest := by
  cases rest with
  | nil => rfl
  | cons c rest =>
    have part : Name.isPart c = false := h
    simp [words, inWord_of_not_part part]

theorem foldl_inWord_of_not_start {cs : List Char} (h : ∀ c ∈ cs, Name.isStart c = false) :
    cs.foldl inWord false = false := by
  induction cs with
  | nil => rfl
  | cons c cs ih =>
    have first : inWord false c = false := by simp [inWord, h c (List.mem_cons_self ..)]
    rw [List.foldl_cons, first]
    exact ih fun x hx => h x (List.mem_cons_of_mem _ hx)

theorem foldl_inWord_of_getLast? {cs : List Char} {c : Char} (last : cs.getLast? = some c)
    (h : Name.isPart c = false) (inside : Bool) : cs.foldl inWord inside = false := by
  obtain ⟨front, rfl⟩ := List.getLast?_eq_some_iff.mp last
  rw [List.foldl_append]
  exact inWord_of_not_part h _

theorem isStart_of_digit {c : Char} (h : Text.isDigit c = true ∨ c = '.') : Name.isStart c = false := by
  rcases h with h | rfl
  · by_contra start
    rw [Name.isDigit_of_isStart (by simpa using start)] at h
    cases h
  · decide

/-- After the characters of a lexeme no word goes on. -/
theorem words_of_begins {c : Char} {w rest : List Char} {token : Token} (h : Begins c w token rest) :
    words false (c :: w ++ rest) = words false (c :: w) + words false rest := by
  have spelled := h.spelled
  rw [words_append]
  generalize c :: w = body at spelled ⊢
  cases spelled with
  | word start parts ends => rw [words_of_head ends]
  | number isNumber digits last =>
    rw [foldl_inWord_of_not_start fun x hx => isStart_of_digit (digits x hx)]
  | @literal quote w content _ isQuote closes =>
    have last := Lexeme.getLast?_literal? closes
    rw [List.take_length] at last
    have ends : (quote :: w).getLast? = some quote := by rw [List.getLast?_cons, last]; rfl
    have outside : Name.isPart quote = false := by rcases isQuote with rfl | rfl <;> decide
    rw [foldl_inWord_of_getLast? ends outside]
  | @symbol s body _ spelling =>
    have outside : ∀ x ∈ body, Name.isPart x = false := by
      have all : ∀ body ∈ s.spellings, ∀ x ∈ body, Name.isPart x = false := by cases s <;> decide
      exact all body spelling
    rw [foldl_inWord_of_not_part outside]

/-- The words of a text are those of its lexemes. -/
theorem words_of_tiling {text : List Char} {tiles : List Tile} (h : Tiling text tiles) :
    words false text = (tiles.map fun t => words false t.body).sum := by
  induction h with
  | blanks blank => exact words_of_not_part (fun c hc => Name.isPart_of_isBlank (blank c hc)) false
  | tile blank begins tiling ih =>
    rw [words_blanks_append blank, words_of_begins begins, ih]
    rfl

theorem words_word {c : Char} {w : List Char} (start : Name.isStart c = true)
    (parts : ∀ x ∈ w, Name.isPart x = true) : words false (c :: w) = 1 := by
  have later : words true w = 0 := by
    induction w with
    | nil => rfl
    | cons x xs ih =>
      have part : inWord true x = true := by simp [inWord, parts x (List.mem_cons_self ..)]
      simpa [words, part] using ih fun y hy => parts y (List.mem_cons_of_mem _ hy)
  simp [words, inWord_of_start start, later]

theorem words_of_isValid {n : String} (valid : Name.isValid n = true) : words false n.toList = 1 := by
  obtain ⟨c, w, heq, start, parts⟩ := Name.exists_cons_of_isValid valid
  rw [heq]
  exact words_word start parts

theorem words_of_isWord {c : Char} {w rest : List Char} {token : Token} (h : Begins c w token rest)
    (isWord : (∃ n, token = .name n) ∨ ∃ k, token = .keyword k) : words false (c :: w) = 1 := by
  have spelled := h.spelled
  generalize hbody : c :: w = body at spelled ⊢
  cases spelled with
  | word start parts ends => exact words_word start parts
  | number isNumber => rcases isWord with ⟨n, rfl⟩ | ⟨k, rfl⟩ <;> cases isNumber
  | literal => rcases isWord with ⟨n, h⟩ | ⟨k, h⟩ <;> cases h
  | symbol => rcases isWord with ⟨n, h⟩ | ⟨k, h⟩ <;> cases h

/-! ## Renamed predicates -/

theorem words_renamed {image : String → Option String}
    (valid : ∀ n new, image n = some new → Name.isValid new = true) {text : List Char}
    {tiles : List Tile} (h : Tiling text tiles) (afterDot : Bool) :
    ((Tile.renamed image afterDot tiles).map fun t => words false t.body).sum =
      (tiles.map fun t => words false t.body).sum := by
  induction h generalizing afterDot with
  | blanks => rfl
  | @tile gap w rest c token tiles blank begins tiling ih =>
    by_cases isName : ∃ n, token = .name n
    · obtain ⟨n, rfl⟩ := isName
      have one := words_of_isWord begins (.inl ⟨n, rfl⟩)
      unfold Tile.renamed
      split
      · next m himage =>
        have new : words false m.toList = 1 := by
          refine words_of_isValid (valid n m ?_)
          split at himage
          · cases himage
          · exact himage
        simp [new, one, ih]
      · simp [ih]
    · rw [Tile.renamed_cons fun n hn => isName ⟨n, hn⟩]
      simp [ih]

theorem width_renameAttributes {p q : String} {names : Renaming}
    (valid : ∀ n new, names.get? n = some new → Name.isValid new = true)
    (h : renameAttributes p names = .ok q) : width q = width p := by
  obtain ⟨ts, scanned, rfl⟩ := map_eq_ok.mp h
  obtain ⟨tiles, tiling, rfl⟩ := Lexeme.scan_eq_ok_iff.mp scanned
  rw [width, width, String.toList_ofList, words_of_tiling (tiling_splice valid tiling).1,
    words_renamed valid tiling, words_of_tiling tiling]

/-! ## Conjuncts -/

namespace Lexeme

def wordsIn (text : List Char) (t : Lexeme) : Nat := words false (cover text [t])

theorem sum_wordsIn_locate {text : List Char} {pre mid post : List Tile}
    (h : Tiling text (pre ++ (mid ++ post))) :
    ((Tile.locate (Tile.total pre) mid).map (wordsIn text)).sum =
      (mid.map fun t => words false t.body).sum := by
  induction mid generalizing pre with
  | nil => rfl
  | cons t mid ih =>
    have first : wordsIn text ⟨t.token, Tile.total pre + Text.byteSize t.gap,
        Tile.total pre + Text.byteSize t.gap + Text.byteSize t.body⟩ = words false t.body := by
      have words := words_of_tiling (@tiling_cover text pre [] (mid ++ post) t h).1
      rwa [List.map_singleton, List.sum_singleton] at words
    have next : Tile.total (pre ++ [t]) =
        Tile.total pre + Text.byteSize t.gap + Text.byteSize t.body := by
      rw [Tile.total_append, Tile.total, Tile.total]
      omega
    have later := @ih (pre ++ [t]) (by simpa using h)
    rw [next] at later
    simp only [Tile.locate, List.map_cons, List.sum_cons, first, later]

theorem words_of_scan {text : List Char} {ts : List Lexeme} (h : scan text = .ok ts) :
    words false text = (ts.map (wordsIn text)).sum := by
  obtain ⟨tiles, tiling, rfl⟩ := scan_eq_ok_iff.mp h
  have sum := @sum_wordsIn_locate text [] tiles [] (by simpa using tiling)
  rw [words_of_tiling tiling]
  exact sum.symm

theorem words_cover {text : List Char} {all part : List Lexeme} (scanned : scan text = .ok all)
    (sub : part <:+: all) (ne : part ≠ []) :
    words false (cover text part) = (part.map (wordsIn text)).sum := by
  obtain ⟨tiles, tiling, rfl⟩ := scan_eq_ok_iff.mp scanned
  obtain ⟨pre, mid, post, rfl, rfl⟩ := Tile.of_infix_locate sub
  cases mid with
  | nil => exact absurd rfl ne
  | cons t mid =>
    rw [sum_wordsIn_locate tiling, words_of_tiling (tiling_cover tiling).1]
    rfl

theorem wordsIn_keyword {text : List Char} {all : List Lexeme} (scanned : scan text = .ok all)
    {t : Lexeme} (mem : t ∈ all) {k : Keyword} (h : t.isKeyword k = true) : wordsIn text t = 1 := by
  obtain ⟨tiles, tiling, rfl⟩ := scan_eq_ok_iff.mp scanned
  obtain ⟨pre, mid, post, rfl, heq⟩ := Tile.of_infix_locate ((List.singleton_infix_iff _ _).mpr mem)
  have sum := sum_wordsIn_locate tiling
  rw [← heq] at sum
  obtain ⟨m, rfl⟩ : ∃ m, mid = [m] := by
    have length := congrArg List.length heq
    rw [Tile.length_locate] at length
    exact List.length_eq_one_iff.mp length.symm
  obtain ⟨front, back, -, -, -, -, rest⟩ := tiling.of_append
  have isKeyword : m.token = .keyword k := by
    have tokens := congrArg (List.map Lexeme.token) heq
    rw [map_token_locate] at tokens
    have token : m.token = t.token := by simpa using tokens.symm
    rw [token]
    simpa [Lexeme.isKeyword] using h
  have one : words false m.body = 1 := by
    cases rest with
    | tile blank begins =>
      exact words_of_isWord begins (.inr ⟨k, isKeyword⟩)
  simpa [one] using sum

theorem sum_splitTop_le {k : Keyword} {count : Lexeme → Nat} {ts : List Lexeme}
    (counted : ∀ t ∈ ts, t.isKeyword k = true → 1 ≤ count t) (depth : Nat) :
    ((splitTop k depth ts).map fun part => (part.map count).sum + 1).sum ≤
      (ts.map count).sum + 1 := by
  induction ts generalizing depth with
  | nil => simp [splitTop]
  | cons t ts ih =>
    have later := ih (fun u hu => counted u (List.mem_cons_of_mem _ hu)) (depthAfter depth t)
    rw [splitTop_cons]
    split
    · next isTop =>
      have := counted t (List.mem_cons_self ..) isTop.2
      simp only [List.map_cons, List.sum_cons, List.map_nil, List.sum_nil]
      omega
    · cases parts : splitTop k (depthAfter depth t) ts with
      | nil => exact absurd parts (splitTop_ne_nil _ _ _)
      | cons part parts' =>
        rw [parts] at later
        simp only [prepend, List.singleton_append, List.map_cons, List.sum_cons] at later ⊢
        omega

theorem sum_conjuncts_le {text : List Char} {all ts : List Lexeme} (scanned : scan text = .ok all)
    (sub : ts <:+: all) :
    ((conjuncts text ts).map width).sum ≤ (ts.map (wordsIn text)).sum + 1 := by
  induction hn : ts.length using Nat.strong_induction_on generalizing ts with
  | _ n ih =>
    have inner := (infix_dropParens ts).trans sub
    have fewer : ((dropParens ts).map (wordsIn text)).sum ≤ (ts.map (wordsIn text)).sum :=
      ((infix_dropParens ts).sublist.map _).sum_le_sum fun _ _ => Nat.zero_le _
    rw [conjuncts]
    split
    · simp
    · next nonempty =>
      split
      · have words := words_cover scanned inner (by simpa using nonempty)
        simp only [List.map_cons, List.map_nil, List.sum_cons, List.sum_nil, width,
          String.toList_ofList, words]
        omega
      · next several =>
        simp only [Bool.or_eq_true, decide_eq_true_eq, not_or, Nat.not_le] at several
        have each (parts : List (List Lexeme))
            (split : ∀ p ∈ parts, p ∈ splitTop .and 0 (dropParens ts)) :
            ((parts.flatMap (conjuncts text)).map width).sum ≤
              (parts.map fun part => (part.map (wordsIn text)).sum + 1).sum := by
          induction parts with
          | nil => simp
          | cons p ps ihs =>
            have mem := split p (List.mem_cons_self ..)
            have shorter : p.length < n := by
              have := length_lt_of_mem_splitTop several.2 mem
              have := length_dropParens_le ts
              omega
            have first := ih p.length shorter ((infix_of_mem_splitTop mem).trans inner) rfl
            have others := ihs fun q hq => split q (List.mem_cons_of_mem _ hq)
            simp only [List.flatMap_cons, List.map_append, List.sum_append, List.map_cons,
              List.sum_cons]
            omega
        have parts := each _ fun _ h => h
        rw [← List.attach_map_subtype_val (splitTop .and 0 (dropParens ts)),
          List.flatMap_map] at parts
        rw [List.attach_map_subtype_val] at parts
        have counted : ∀ t ∈ dropParens ts, t.isKeyword .and = true → 1 ≤ wordsIn text t :=
          fun t ht isAnd => (wordsIn_keyword scanned (inner.subset ht) isAnd).ge
        have whole := sum_splitTop_le counted 0
        omega

end Lexeme

/-- The conjuncts of a predicate are no wider together than the predicate. -/
theorem sum_width_conjuncts_le {p : String} {parts : List String} (h : conjuncts p = .ok parts) :
    (parts.map width).sum ≤ width p := by
  obtain ⟨f, ts, -, scanned, rfl⟩ := conjuncts_eq_ok_iff.mp h
  have parts := Lexeme.sum_conjuncts_le scanned List.infix_rfl
  rw [← Lexeme.words_of_scan scanned] at parts
  exact parts

end RelationalAlgebra.Predicate
