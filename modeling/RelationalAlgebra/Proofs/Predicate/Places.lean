import RelationalAlgebra.Proofs.Predicate.Clauses
/-!
# Places of lexemes

Where a text stands inside of another, its lexemes are there with other places.  What is cut out of a
text by counting parentheses does not depend on the places, and the text that a lexeme covers is the
same; so the conjuncts of a part of a predicate are found in the part alone.
-/

namespace RelationalAlgebra.Predicate

namespace Lexeme

/-! ## Moved lexemes -/

/-- The lexeme in a text that starts `n` bytes earlier. -/
def moved (n : Nat) (t : Lexeme) : Lexeme := ⟨t.token, n + t.start, n + t.stop⟩

@[simp] theorem token_moved (n : Nat) (t : Lexeme) : (t.moved n).token = t.token := rfl

theorem map_token_moved (n : Nat) (ts : List Lexeme) :
    (ts.map (moved n)).map token = ts.map token := by
  rw [List.map_map]
  rfl

theorem map_moved_moved (n m : Nat) (ts : List Lexeme) :
    (ts.map (moved m)).map (moved n) = ts.map (moved (n + m)) := by
  rw [List.map_map]
  apply List.map_congr_left
  intro t _
  simp [moved, Nat.add_assoc]

theorem map_moved_zero (ts : List Lexeme) : ts.map (moved 0) = ts := by
  have same : moved 0 = id := funext fun t => by simp [moved]
  rw [same, List.map_id]

section Cutting

variable (n : Nat)

theorem hasTop_moved (k : Keyword) (d : Nat) (ts : List Lexeme) :
    hasTop k d (ts.map (moved n)) = hasTop k d ts := by
  induction ts generalizing d with
  | nil => rfl
  | cons t ts ih => exact congrArg (_ || ·) (ih _)

theorem closesAtEnd_moved (d : Nat) (ts : List Lexeme) :
    closesAtEnd d (ts.map (moved n)) = closesAtEnd d ts := by
  induction ts generalizing d with
  | nil => rfl
  | cons t ts ih =>
    have depth : depthAfter d (t.moved n) = depthAfter d t := rfl
    simp only [List.map_cons, closesAtEnd, depth, ih, List.isEmpty_map]

theorem enclosed_moved (ts : List Lexeme) : enclosed (ts.map (moved n)) = enclosed ts := by
  cases ts with
  | nil => rfl
  | cons t ts => exact congrArg (_ && ·) (closesAtEnd_moved n 1 ts)

theorem dropParens_moved (ts : List Lexeme) :
    dropParens (ts.map (moved n)) = (dropParens ts).map (moved n) := by
  fun_induction dropParens ts with
  | case1 ts closed ih =>
    rw [dropParens_of_enclosed (by rwa [enclosed_moved]), ← List.map_tail, ← List.map_dropLast, ih]
  | case2 ts bare =>
    exact dropParens_of_not_enclosed (by simpa [enclosed_moved] using bare)

theorem map_prepend (ts : List Lexeme) (parts : List (List Lexeme)) :
    (prepend ts parts).map (List.map (moved n)) =
      prepend (ts.map (moved n)) (parts.map (List.map (moved n))) := by
  cases parts <;> simp [prepend]

theorem splitTop_moved (k : Keyword) (d : Nat) (ts : List Lexeme) :
    splitTop k d (ts.map (moved n)) = (splitTop k d ts).map (List.map (moved n)) := by
  induction ts generalizing d with
  | nil => rfl
  | cons t ts ih =>
    have depth : depthAfter d (t.moved n) = depthAfter d t := rfl
    have keyword : (t.moved n).isKeyword k = t.isKeyword k := rfl
    rw [List.map_cons, splitTop_cons, splitTop_cons, depth, keyword, ih]
    split
    · rfl
    · rw [map_prepend, List.map_singleton]

end Cutting

/-! ## The text that lexemes cover -/

/-- A stretch of lexemes starts and stops at places between characters. -/
theorem exists_split_of_infix {text : List Char} {ts part : List Lexeme}
    (scanned : scan text = .ok ts) (inside : part <:+: ts) (ne : part ≠ []) :
    ∃ front mid back t rest last, text = front ++ (mid ++ back) ∧ part = t :: rest ∧
      part.getLast? = some last ∧ t.start = Text.byteSize front ∧
      last.stop = Text.byteSize front + Text.byteSize mid := by
  obtain ⟨tiles, tiling, rfl⟩ := scan_eq_ok_iff.mp scanned
  obtain ⟨pre, mid, post, rfl, rfl⟩ := Tile.of_infix_locate inside
  cases mid with
  | nil => exact absurd rfl ne
  | cons t mid =>
    obtain ⟨front, body, back, rfl, hstart, hstop, -, -⟩ := tiling.exists_cut
    obtain ⟨last, hlast, hstop'⟩ := Tile.getLast?_locate (Tile.total pre) t mid
    exact ⟨front, body, back, _, _, last, rfl, rfl, hlast, hstart.symm, hstop'.trans hstop.symm⟩

theorem cover_moved {text : List Char} {ts part : List Lexeme} (scanned : scan text = .ok ts)
    (inside : part <:+: ts) (front back : List Char) :
    cover (front ++ (text ++ back)) (part.map (moved (Text.byteSize front))) = cover text part := by
  by_cases ne : part = []
  · subst ne
    rfl
  · obtain ⟨before, mid, after, t, rest, last, rfl, rfl, hlast, hstart, hstop⟩ :=
      exists_split_of_infix scanned inside ne
    have hlast' : ((t :: rest).map (moved (Text.byteSize front))).getLast? =
        some (last.moved (Text.byteSize front)) := by
      rw [List.getLast?_map, hlast]
      rfl
    rw [cover_cons _ hlast, hstart, hstop, Text.slice_append]
    rw [List.map_cons] at hlast' ⊢
    have outer := Text.slice_append (front ++ before) mid (after ++ back)
    rw [Text.byteSize_append] at outer
    rw [cover_cons _ hlast', moved, moved, hstart, hstop, ← Nat.add_assoc]
    simpa using outer

theorem conjuncts_eq (text : List Char) (ts : List Lexeme) :
    conjuncts text ts =
      if (dropParens ts).isEmpty then []
      else if hasTop .or 0 (dropParens ts) || (splitTop .and 0 (dropParens ts)).length ≤ 1 then
        [String.ofList (cover text (dropParens ts))]
      else (splitTop .and 0 (dropParens ts)).flatMap (conjuncts text) := by
  have attached (parts : List (List Lexeme)) :
      (parts.attach.flatMap fun part => conjuncts text part.1) =
        parts.flatMap (conjuncts text) := by
    conv => rhs; rw [← List.attach_map_subtype_val parts, List.flatMap_map]
  rw [conjuncts, attached]

/-- The conjuncts of a text that stands inside of another are the same there. -/
theorem conjuncts_moved {text : List Char} {ts part : List Lexeme} (scanned : scan text = .ok ts)
    (inside : part <:+: ts) (front back : List Char) :
    conjuncts (front ++ (text ++ back)) (part.map (moved (Text.byteSize front))) =
      conjuncts text part := by
  induction hn : part.length using Nat.strong_induction_on generalizing part with
  | _ n ih =>
    have inside' := (infix_dropParens part).trans inside
    rw [conjuncts_eq, conjuncts_eq, dropParens_moved, hasTop_moved, splitTop_moved,
      cover_moved scanned inside', List.length_map, List.isEmpty_map, List.flatMap_map]
    split
    · rfl
    · split
      · rfl
      · next several =>
        simp only [Bool.or_eq_true, decide_eq_true_eq, not_or, Nat.not_le] at several
        apply List.flatMap_congr
        intro piece mem
        have shorter := length_lt_of_mem_splitTop several.2 mem
        have := length_dropParens_le part
        exact ih piece.length (by omega) ((infix_of_mem_splitTop mem).trans inside') rfl

end Lexeme

/-! ## Texts put together, with their places -/

theorem Tile.locate_moved (n offset : Nat) (tiles : List Tile) :
    Tile.locate (n + offset) tiles = (Tile.locate offset tiles).map (Lexeme.moved n) := by
  induction tiles generalizing offset with
  | nil => rfl
  | cons t ts ih => simp only [Tile.locate, List.map_cons, Lexeme.moved, ← ih, Nat.add_assoc]

namespace Lexeme

theorem scan_blanks_append {gap text : List Char} {ts : List Lexeme}
    (blank : ∀ c ∈ gap, Text.isBlank c = true) (h : scan text = .ok ts) :
    scan (gap ++ text) = .ok (ts.map (moved (Text.byteSize gap))) := by
  obtain ⟨tiles, tiling, rfl⟩ := scan_eq_ok_iff.mp h
  obtain ⟨all, tiling', located⟩ := tiling.blanks_append blank
  refine scan_eq_ok_iff.mpr ⟨all, tiling', ?_⟩
  rw [located, Nat.add_comm, Tile.locate_moved]

theorem scan_append {as bs : List Char} {ts us : List Lexeme} (ha : scan as = .ok ts)
    (hb : scan bs = .ok us) (detached : Detached bs) :
    scan (as ++ bs) = .ok (ts ++ us.map (moved (Text.byteSize as))) := by
  obtain ⟨tiles, tiling, rfl⟩ := scan_eq_ok_iff.mp ha
  obtain ⟨tiles', tiling', rfl⟩ := scan_eq_ok_iff.mp hb
  obtain ⟨all, joined, located⟩ := tiling.append tiling' detached
  refine scan_eq_ok_iff.mpr ⟨all, joined, ?_⟩
  rw [located, Nat.add_comm, Tile.locate_moved]

theorem scan_parens {text : List Char} {ts : List Lexeme} (h : scan text = .ok ts) :
    ∃ o c, o.token = .symbol .openParen ∧ c.token = .symbol .closeParen ∧
      scan ("(".toList ++ (text ++ ")".toList)) = .ok (o :: (ts.map (moved 1) ++ [c])) := by
  have close : scan ")".toList = .ok [⟨.symbol .closeParen, 0, 1⟩] := rfl
  have behind := scan_append h close (detached_close [])
  obtain ⟨tiles, tiling, located⟩ := scan_eq_ok_iff.mp behind
  have opens : Begins '(' [] (.symbol .openParen) (text ++ ")".toList) := ⟨by decide, rfl⟩
  refine ⟨⟨.symbol .openParen, 0, 1⟩, moved 1 (moved (Text.byteSize text) ⟨.symbol .closeParen, 0, 1⟩),
    rfl, rfl, scan_eq_ok_iff.mpr ⟨_, tiling.begin opens, ?_⟩⟩
  have inner := Tile.locate_moved 1 0 tiles
  rw [← located, List.map_append] at inner
  exact congrArg (_ :: ·) inner.symm

/-- The lexemes of a text are those of its trimmed form, moved. -/
theorem scan_trim {text : List Char} {ts : List Lexeme} (h : scan text = .ok ts) :
    ∃ front back us, text = front ++ (Text.trim text ++ back) ∧ scan (Text.trim text) = .ok us ∧
      ts = us.map (moved (Text.byteSize front)) := by
  obtain ⟨us, trimmed, -⟩ := (lexes_of_scan h).trim.scan
  obtain ⟨front, back, hfront, hback, split⟩ := Text.trim_split text
  have last : scan back = .ok [] := scan_eq_ok_iff.mpr ⟨[], .blanks hback, rfl⟩
  have whole := scan_blanks_append hfront (scan_append trimmed last (detached_blanks hback))
  rw [← split, h, List.map_nil, List.append_nil] at whole
  exact ⟨front, back, us, split, trimmed, Except.ok.inj whole⟩

theorem scan_and {as bs : List Char} {ts us : List Lexeme} (ha : scan as = .ok ts)
    (hb : scan bs = .ok us) :
    ∃ t, t.token = .keyword .and ∧ scan (as ++ (" and ".toList ++ bs)) =
      .ok (ts ++ t :: us.map (moved (Text.byteSize (as ++ " and ".toList)))) := by
  have word : scan " and".toList = .ok [⟨.keyword .and, 1, 4⟩] := rfl
  have space : scan ([' '] ++ bs) = .ok (us.map (moved 1)) := by
    refine scan_blanks_append (fun c hc => ?_) hb
    rw [List.mem_singleton.mp hc]
    rfl
  have behind := scan_append word space (detached_blank bs)
  have whole := scan_append ha behind (detached_blank _)
  refine ⟨moved (Text.byteSize as) ⟨.keyword .and, 1, 4⟩, rfl, whole.trans ?_⟩
  rw [List.singleton_append, List.map_cons, map_moved_moved, map_moved_moved, Text.byteSize_append]
  rfl

end Lexeme

end RelationalAlgebra.Predicate
