import RelationalAlgebra.Proofs.Predicate.Splicing
/-!
# The spelling of lexemes

What the characters of a lexeme are: a word, digits with a point among them, a literal between quotes, or
one of the spellings of a symbol.
-/

namespace RelationalAlgebra.Predicate

def Symbol.spellings : Symbol → List (List Char)
  | equal => [['=', '='], ['=']]
  | notEqual => [['!', '=']]
  | less => [['<']]
  | lessEqual => [['<', '=']]
  | greater => [['>']]
  | greaterEqual => [['>', '=']]
  | plus => [['+']]
  | minus => [['-']]
  | star => [['*']]
  | slash => [['/']]
  | doubleSlash => [['/', '/']]
  | percent => [['%']]
  | openParen => [['(']]
  | closeParen => [[')']]
  | dot => [['.']]

def Token.isNumber : Token → Bool
  | int _ | float _ => true
  | _ => false

/-- A token, its characters and the text that follows them. -/
inductive Spelled : Token → List Char → List Char → Prop
  | word {c : Char} {w rest : List Char} (start : Name.isStart c = true)
      (parts : ∀ x ∈ w, Name.isPart x = true) (ends : rest.head?.any Name.isPart = false) :
      Spelled (Lexeme.word (c :: w)) (c :: w) rest
  | number {token : Token} {body rest : List Char} (isNumber : token.isNumber = true)
      (digits : ∀ x ∈ body, Text.isDigit x = true ∨ x = '.')
      (last : ∃ d ∈ body.getLast?, Text.isDigit d = true) : Spelled token body rest
  | literal {quote : Char} {w content rest : List Char} (isQuote : quote = '\'' ∨ quote = '"')
      (closes : Lexeme.literal? quote w = some (content, w.length)) :
      Spelled (.text (String.ofList content)) (quote :: w) rest
  | symbol {s : Symbol} {body rest : List Char} (spelling : body ∈ s.spellings) :
      Spelled (.symbol s) body rest

theorem isNumber_of_number {c : Char} {cs : List Char} {token : Token} {n : Nat}
    (h : Lexeme.number c cs = .ok (token, n)) : token.isNumber = true := by
  simp only [Lexeme.number] at h
  split at h
  · split at h
    · obtain ⟨rfl, -⟩ := Prod.mk.inj (Except.ok.inj h)
      rfl
    · cases h
  · obtain ⟨rfl, -⟩ := Prod.mk.inj (Except.ok.inj h)
    rfl

theorem spelled_number {c : Char} {w rest : List Char} {token : Token} (digit : Text.isDigit c = true)
    (h : Lexeme.number c (w ++ rest) = .ok (token, w.length)) : Spelled token (c :: w) rest := by
  have isNumber := isNumber_of_number h
  obtain ⟨-, ⟨digits, -⟩ | ⟨ds, fs, rfl, ne, before, after⟩⟩ := Lexeme.number_shape h
  · have all : ∀ x ∈ c :: w, Text.isDigit x = true := by simpa [digit] using digits
    refine .number isNumber (fun x hx => .inl (all x hx)) ?_
    exact ⟨_, List.getLast?_eq_some_getLast (List.cons_ne_nil c w), all _ (List.getLast_mem _)⟩
  · refine .number isNumber (fun x hx => ?_) ?_
    · simp only [List.mem_cons, List.mem_append] at hx
      rcases hx with rfl | hx | rfl | hx
      · exact .inl digit
      · exact .inl (before x hx)
      · exact .inr rfl
      · exact .inl (after x hx)
    · refine ⟨fs.getLast ne, ?_, after _ (List.getLast_mem ne)⟩
      rw [← List.cons_append, List.getLast?_append, List.getLast?_cons,
        List.getLast?_eq_some_getLast ne]
      rfl

theorem spelled_symbol {c : Char} {w rest : List Char} {s : Symbol}
    (h : Lexeme.symbol? c (w ++ rest).head? = some (s, w.length)) :
    Spelled (.symbol s) (c :: w) rest := by
  refine .symbol ?_
  unfold Lexeme.symbol? at h
  split at h <;> first
    | cases h
    | (obtain ⟨rfl, hlen⟩ := Prod.mk.inj (Option.some.inj h)
       first
        | (obtain rfl := List.length_eq_zero_iff.mp hlen.symm
           simp [Symbol.spellings])
        | (obtain ⟨d, rfl⟩ := List.length_eq_one_iff.mp hlen.symm
           simp_all [Symbol.spellings]))

theorem Begins.spelled {c : Char} {w rest : List Char} {token : Token} (h : Begins c w token rest) :
    Spelled token (c :: w) rest := by
  obtain ⟨-, h⟩ := h
  unfold Lexeme.first at h
  split at h
  · next start =>
    obtain ⟨htoken, hlen⟩ := Prod.mk.inj (Except.ok.inj h)
    obtain ⟨parts, ends⟩ := Lexeme.of_length_takeWhile_append hlen
    rw [Lexeme.takeWhile_append_of_head parts ends] at htoken
    rw [← htoken]
    exact .word start parts ends
  · split at h
    · next digit => exact spelled_number digit h
    · split at h
      · next isQuote =>
        split at h
        · next text n closes =>
          obtain ⟨rfl, rfl⟩ := Prod.mk.inj (Except.ok.inj h)
          have closed := Lexeme.literal?_take_append closes []
          rw [List.append_nil, List.take_left] at closed
          exact .literal isQuote closed
        · cases h
      · split at h
        · next s n isSymbol =>
          obtain ⟨rfl, rfl⟩ := Prod.mk.inj (Except.ok.inj h)
          exact spelled_symbol isSymbol
        · cases h

end RelationalAlgebra.Predicate
