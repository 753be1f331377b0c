import RelationalAlgebra.Proofs.Name.Entries
import RelationalAlgebra.Proofs.Predicate.Clauses
/-!
# Attributes of predicates

The names found among the tokens of a predicate are those that its formula mentions, and what it gives on
a row, a fault included, is decided by the cells under them.

New names are spliced into a text at the places where the old ones stood, and nothing is printed anew.
The tokens are then the old ones with other names.  Whether a list of tokens is a predicate depends on
their shapes, so the renamed text is a predicate exactly when the text is.
-/

namespace RelationalAlgebra.Predicate

/-! ## The attributes that a predicate sees -/

/-- What a predicate gives on a row, a value or a fault, is decided by the cells under the names that
its text mentions. -/
theorem attributeNames_decide_eval {p : String} {f : Formula} (h : Reads p f) :
    attributeNames p = .ok f.attributes ∧
      ∀ (header header' : List String) (row row' : Row),
        (∀ n ∈ f.attributes, cell? header row n = cell? header' row' n) →
          f.eval (cell? header row) = f.eval (cell? header' row') ∧
            f.test header row = f.test header' row' := by
  refine ⟨attributeNames_of_reads h, fun header header' row row' same => ?_⟩
  have value : f.eval (cell? header row) = f.eval (cell? header' row') :=
    f.eval_congr fun n hn => same n (Name.mem_sorted.mpr hn)
  exact ⟨value, by rw [Formula.test, Formula.test, value]⟩

def underage : Formula :=
  .or (.compare (.attribute "age" none) (.link .less (.literal (.int 18)) .nil))
    (.attribute "name" (some "year"))

theorem attributeNames_decide_eval_underage :
    Reads "age < 18 or name.year" underage ∧
      attributeNames "age < 18 or name.year" = .ok ["age", "name"] ∧
      underage.test ["name", "age"] [.text "Ann", .int 20] =
        underage.test ["age", "town", "name"] [.int 20, .text "Rome", .text "Ann"] := by
  have reads : Reads "age < 18 or name.year" underage := by
    unfold Reads
    decide +kernel
  obtain ⟨names, same⟩ := attributeNames_decide_eval reads
  have agree : ∀ n ∈ underage.attributes, cell? ["name", "age"] [.text "Ann", .int 20] n =
      cell? ["age", "town", "name"] [.int 20, .text "Rome", .text "Ann"] n := by
    decide +kernel
  exact ⟨reads, names, (same _ _ _ _ agree).2⟩

/-! ## The shape of tokens -/

def Token.shape : Token → Token
  | .name _ => .name ""
  | t => t

theorem Token.eq_or_names_of_shape {t u : Token} (h : t.shape = u.shape) :
    t = u ∨ ∃ n m, t = .name n ∧ u = .name m := by
  cases t with
  | name n =>
    cases u with
    | name m => exact .inr ⟨n, m, rfl, rfl⟩
    | _ => cases h
  | _ => cases u <;> first | exact .inl h | cases h

theorem Token.eq_of_shape {t u : Token} (h : t.shape = u.shape) (plain : ∀ n, u ≠ .name n) :
    t = u := by
  rcases eq_or_names_of_shape h with h | ⟨n, m, -, rfl⟩
  · exact h
  · exact absurd rfl (plain m)

theorem Token.exists_name_of_shape {t : Token} {m : String} (h : t.shape = (Token.name m).shape) :
    ∃ n, t = .name n := by
  rcases eq_or_names_of_shape h with rfl | ⟨n, -, rfl, -⟩
  · exact ⟨m, rfl⟩
  · exact ⟨n, rfl⟩

theorem Token.map_shape_renamed (image : String → Option String) (afterDot : Bool)
    (ts : List Token) : (Token.renamed image afterDot ts).map Token.shape = ts.map Token.shape := by
  induction ts generalizing afterDot with
  | nil => rfl
  | cons t ts ih =>
    cases t with
    | name n => exact congrArg (Token.name "" :: ·) (ih false)
    | _ => exact congrArg (_ :: ·) (ih _)

/-- Tokens that derive a phrase of the same kind: a formula of the same level, or a chain. -/
def Phrase.Reshaped (ts : List Token) : Phrase → Prop
  | .formula level _ => ∃ f, Derives ts (.formula level f)
  | .chain _ => ∃ c, Derives ts (.chain c)

theorem derives_of_shape {us : List Token} {p : Phrase} (h : Derives us p) {ts : List Token}
    (same : ts.map Token.shape = us.map Token.shape) : p.Reshaped ts := by
  induction h generalizing ts with
  | literal constant =>
    obtain ⟨t, rfl, ht⟩ := List.map_eq_singleton_iff.mp same
    obtain rfl := Token.eq_of_shape ht (isPlain_of_constant constant).1
    exact ⟨_, .literal constant⟩
  | bare name =>
    obtain ⟨t, rfl, ht⟩ := List.map_eq_singleton_iff.mp same
    obtain ⟨n, rfl⟩ := Token.exists_name_of_shape ht
    exact ⟨_, .bare n⟩
  | field name field =>
    obtain ⟨t, rest, rfl, ht, hrest⟩ := List.map_eq_cons_iff.mp same
    obtain ⟨d, rest, rfl, hd, hrest⟩ := List.map_eq_cons_iff.mp hrest
    obtain ⟨f, rfl, hf⟩ := List.map_eq_singleton_iff.mp hrest
    obtain ⟨n, rfl⟩ := Token.exists_name_of_shape ht
    obtain ⟨m, rfl⟩ := Token.exists_name_of_shape hf
    obtain rfl := Token.eq_of_shape hd (by simp)
    exact ⟨_, .field n m⟩
  | parens inner ih =>
    rw [List.map_append] at same
    obtain ⟨before, after, rfl, hbefore, hafter⟩ := List.map_eq_append_iff.mp same
    obtain ⟨o, ts, rfl, ho, hts⟩ := List.map_eq_cons_iff.mp hbefore
    obtain ⟨c, rfl, hc⟩ := List.map_eq_singleton_iff.mp hafter
    obtain rfl := Token.eq_of_shape ho (by simp)
    obtain rfl := Token.eq_of_shape hc (by simp)
    obtain ⟨f, derives⟩ := ih hts
    exact ⟨f, .parens derives⟩
  | loosen inner other tight ih =>
    obtain ⟨f, derives⟩ := ih same
    exact ⟨f, .loosen inner other derives⟩
  | modified modifier operand ih =>
    obtain ⟨t, ts, rfl, ht, hts⟩ := List.map_eq_cons_iff.mp same
    obtain rfl := Token.eq_of_shape ht (isPlain_of_modify? modifier).1
    obtain ⟨f, derives⟩ := ih hts
    exact ⟨_, .modified modifier derives⟩
  | joined operator left right ihl ihr =>
    rw [List.map_append] at same
    obtain ⟨ls, rest, rfl, hls, hrest⟩ := List.map_eq_append_iff.mp same
    obtain ⟨t, rs, rfl, ht, hrs⟩ := List.map_eq_cons_iff.mp hrest
    obtain rfl := Token.eq_of_shape ht (isPlain_of_join? operator).1
    obtain ⟨l, derives⟩ := ihl hls
    obtain ⟨r, derives'⟩ := ihr hrs
    exact ⟨_, .joined operator derives derives'⟩
  | compared first others ihf iho =>
    rw [List.map_append] at same
    obtain ⟨ts, cs, rfl, hts, hcs⟩ := List.map_eq_append_iff.mp same
    obtain ⟨f, derives⟩ := ihf hts
    obtain ⟨c, derives'⟩ := iho hcs
    exact ⟨_, .compared derives derives'⟩
  | done =>
    obtain rfl := List.map_eq_nil_iff.mp same
    exact ⟨_, .done⟩
  | link operator operand others iho ihc =>
    rw [List.map_append] at same
    obtain ⟨before, cs, rfl, hbefore, hcs⟩ := List.map_eq_append_iff.mp same
    obtain ⟨t, ts, rfl, ht, hts⟩ := List.map_eq_cons_iff.mp hbefore
    obtain rfl := Token.eq_of_shape ht (isPlain_of_comparison operator).1
    obtain ⟨f, derives⟩ := iho hts
    obtain ⟨c, derives'⟩ := ihc hcs
    exact ⟨_, .link operator derives derives'⟩

theorem exists_reads_of_shape {p q : String} {ts us : List Lexeme}
    (hp : Lexeme.scan p.toList = .ok ts) (hq : Lexeme.scan q.toList = .ok us)
    (same : (ts.map Lexeme.token).map Token.shape = (us.map Lexeme.token).map Token.shape)
    (h : ∃ g, Reads q g) : ∃ f, Reads p f := by
  obtain ⟨g, hg⟩ := h
  obtain ⟨us', scanned, derives⟩ := reads_iff_scan.mp hg
  obtain rfl := Except.ok.inj (hq.symm.trans scanned)
  obtain ⟨f, derives'⟩ := derives_of_shape derives same
  exact ⟨f, reads_iff_scan.mpr ⟨ts, hp, derives'⟩⟩

/-! ## Substitution -/

theorem cell?_eq_of_lastPlace? {header header' : List String} {n n' : String}
    (h : lastPlace? n header = lastPlace? n' header') (row : Row) :
    cell? header row n = cell? header' row n' := by
  rw [cell?, cell?, h]

/-- Whether the text `q` is the text `p` with other names for the attributes: in its tokens, in its
formula and in what it gives on the rows of a table. -/
structure Substitutes (names : Renaming) (p q : String) : Prop where
  tokens : ∃ ts us, Lexeme.scan p.toList = .ok ts ∧ Lexeme.scan q.toList = .ok us ∧
    us.map Lexeme.token = Token.renamed names.get? false (ts.map Lexeme.token)
  accepted : (∃ g, Reads q g) ↔ ∃ f, Reads p f
  formula : ∀ f, Reads p f → Reads q (f.rename names.apply)
  /-- Each name has its cell under one header where the new name has it under the other.  The value is
  the same then, and a fault differs by the name in it at most. -/
  outcome : ∀ f g, Reads p f → Reads q g → ∀ (header header' : List String) (row : Row),
    (∀ n ∈ f.mentioned, lastPlace? n header' = lastPlace? (names.apply n) header) →
      g.eval (cell? header row) =
          (f.eval (cell? header' row)).mapError (Fault.rename names.apply) ∧
        (g.eval (cell? header row)).mapError Fault.kind =
          (f.eval (cell? header' row)).mapError Fault.kind

theorem mapError_kind_rename {α : Type} (g : String → String) (x : Except Fault α) :
    (x.mapError (Fault.rename g)).mapError Fault.kind = x.mapError Fault.kind := by
  cases x with
  | error fault => exact congrArg Except.error (fault.kind_rename g)
  | ok a => rfl

/-- Splicing new names into a text that has tokens substitutes them. -/
theorem renameAttributes_substitutes {p : String} {ts : List Lexeme} {names : Renaming}
    (scanned : Lexeme.scan p.toList = .ok ts)
    (valid : ∀ n new, names.get? n = some new → Name.isValid new = true) :
    ∃ q, renameAttributes p names = .ok q ∧ Substitutes names p q := by
  obtain ⟨q, hq⟩ : ∃ q, renameAttributes p names = .ok q := by
    rw [renameAttributes, scanned]
    exact ⟨_, rfl⟩
  obtain ⟨us, scanned', tokens⟩ : ∃ us, Lexeme.scan q.toList = .ok us ∧
      us.map Lexeme.token = Token.renamed names.get? false (ts.map Lexeme.token) := by
    rw [renameAttributes, scanned] at hq
    obtain rfl := Except.ok.inj hq
    rw [String.toList_ofList]
    exact (lexes_splice valid scanned).scan
  have formula (f : Formula) (hf : Reads p f) : Reads q (f.rename names.apply) :=
    reads_renameAttributes hf valid hq
  refine ⟨q, hq, ⟨ts, us, scanned, scanned', tokens⟩, ⟨?_, ?_⟩, formula, ?_⟩
  · refine exists_reads_of_shape scanned scanned' ?_
    rw [tokens, Token.map_shape_renamed]
  · rintro ⟨f, hf⟩
    exact ⟨_, formula f hf⟩
  · intro f g hf hg header header' row places
    obtain rfl := hg.unique (formula f hf)
    have outcome : (f.rename names.apply).eval (cell? header row) =
        (f.eval (cell? header' row)).mapError (Fault.rename names.apply) :=
      f.eval_rename fun n hn => (cell?_eq_of_lastPlace? (places n hn) row).symm
    exact ⟨outcome, by rw [outcome, mapError_kind_rename]⟩

/-- Names of two tokens that stand without a blank, a field of that name and a text with a letter of
two bytes. -/
theorem renameAttributes_substitutes_age :
    ∃ q, renameAttributes "age<18or 'âge'==age.age" (Name.Map.ofList [("age", "years")]) = .ok q ∧
      q = "years<18or 'âge'==years.age" ∧
      Substitutes (Name.Map.ofList [("age", "years")]) "age<18or 'âge'==age.age" q := by
  obtain ⟨ts, scanned⟩ : ∃ ts, Lexeme.scan "age<18or 'âge'==age.age".toList = .ok ts := ⟨_, rfl⟩
  have valid : ∀ n new, (Name.Map.ofList [("age", "years")]).get? n = some new →
      Name.isValid new = true := by
    intro n new h
    obtain ⟨-, rfl⟩ : n = "age" ∧ new = "years" := by simpa using Name.Map.get?_ofList_eq_some h
    decide
  obtain ⟨q, renamed, substitutes⟩ := renameAttributes_substitutes scanned valid
  refine ⟨q, renamed, ?_, substitutes⟩
  have computed : renameAttributes "age<18or 'âge'==age.age" (Name.Map.ofList [("age", "years")]) =
      .ok "years<18or 'âge'==years.age" := by
    decide +kernel
  exact Except.ok.inj (renamed.symm.trans computed)

end RelationalAlgebra.Predicate
