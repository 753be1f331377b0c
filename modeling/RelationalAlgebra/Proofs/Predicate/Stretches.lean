import Mathlib.Data.List.Infix
import RelationalAlgebra.Proofs.Predicate.Places
/-!
# Stretches of a predicate

The lexemes of a predicate lie apart from each other and in order, with nothing but blanks around them, and
a stretch of them is found again in the text that it takes up.
-/

namespace RelationalAlgebra.Predicate

/-! ## Places of tiles -/

namespace Tile

theorem le_start_of_mem_locate {offset : Nat} {tiles : List Tile} {t : Lexeme}
    (h : t ∈ locate offset tiles) : offset ≤ t.start := by
  induction tiles generalizing offset with
  | nil => cases h
  | cons tile tiles ih =>
    rcases List.mem_cons.mp h with rfl | h
    · exact Nat.le_add_right _ _
    · have later := ih h
      omega

theorem pairwise_locate (offset : Nat) (tiles : List Tile) :
    (locate offset tiles).Pairwise fun t u => t.stop ≤ u.start := by
  induction tiles generalizing offset with
  | nil => exact List.Pairwise.nil
  | cons tile tiles ih => exact List.pairwise_cons.mpr ⟨fun u hu => le_start_of_mem_locate hu, ih _⟩

theorem start_lt_stop_of_mem_locate {offset : Nat} {tiles : List Tile} {t : Lexeme}
    (bodies : ∀ tile ∈ tiles, 0 < Text.byteSize tile.body) (h : t ∈ locate offset tiles) :
    t.start < t.stop := by
  induction tiles generalizing offset with
  | nil => cases h
  | cons tile tiles ih =>
    rcases List.mem_cons.mp h with rfl | h
    · exact Nat.lt_add_of_pos_right (bodies tile (List.mem_cons_self ..))
    · exact ih (fun tile mem => bodies tile (List.mem_cons_of_mem _ mem)) h

theorem locate_dropGap (offset : Nat) (t : Tile) (ts : List Tile) :
    locate offset (t :: ts) =
      locate (offset + Text.byteSize t.gap) (⟨[], t.body, t.token⟩ :: ts) := by
  rw [locate, locate]
  rfl

end Tile

/-- A character of two texts in a row belongs to one of them. -/
theorem split_of_append_eq {as bs front back : List Char} {c : Char}
    (h : as ++ bs = front ++ c :: back) :
    (∃ m, as = front ++ c :: m) ∨ ∃ m, front = as ++ m ∧ bs = m ++ c :: back := by
  rcases List.append_eq_append_iff.mp h with ⟨m, hfront, hbs⟩ | ⟨m, has, hback⟩
  · exact .inr ⟨m, hfront, hbs⟩
  · cases m with
    | nil => exact .inr ⟨[], by simpa using has.symm, by simpa using hback.symm⟩
    | cons x m =>
      obtain ⟨rfl, -⟩ := List.cons.inj hback
      exact .inl ⟨m, has⟩

namespace Tiling

theorem byteSize_body_pos {text : List Char} {tiles : List Tile} (h : Tiling text tiles) :
    ∀ tile ∈ tiles, 0 < Text.byteSize tile.body := by
  induction h with
  | blanks blank => simp
  | @tile gap w rest c token tiles blank begins tiling ih =>
    refine List.forall_mem_cons.mpr ⟨?_, ih⟩
    have := c.utf8Size_pos
    rw [Text.byteSize]
    omega

/-- A character that belongs to no tile is a blank. -/
theorem isBlank_of_outside {text : List Char} {tiles : List Tile} (h : Tiling text tiles) (offset : Nat)
    {front back : List Char} {c : Char} (split : text = front ++ c :: back)
    (outside : ∀ t ∈ Tile.locate offset tiles,
      offset + Text.byteSize front < t.start ∨ t.stop ≤ offset + Text.byteSize front) :
    Text.isBlank c = true := by
  induction h generalizing offset front with
  | blanks blank => exact blank c (by simp [split])
  | @tile gap w rest d token tiles blank begins tiling ih =>
    rw [Tile.locate, List.forall_mem_cons] at outside
    obtain ⟨first, later⟩ := outside
    rcases split_of_append_eq split with ⟨m, hgap⟩ | ⟨m, rfl, hrest⟩
    · exact blank c (by simp [hgap])
    · rw [Text.byteSize_append] at first later
      rcases split_of_append_eq hrest with ⟨m', hbody⟩ | ⟨m', rfl, hlater⟩
      · -- the bytes of the character are bytes of the tile
        have size := congrArg Text.byteSize hbody
        have width := c.utf8Size_pos
        rw [Text.byteSize_append, Text.byteSize.eq_def (c :: m')] at size
        simp only at first size
        omega
      · refine ih (offset + Text.byteSize gap + Text.byteSize (d :: w)) hlater fun t ht => ?_
        have := later t ht
        rw [Text.byteSize_append] at this
        omega

/-- The lexemes of a stretch of tiles are those of the text that they take up. -/
theorem scan_stretch {text : List Char} {pre mid post : List Tile} {t : Tile}
    (h : Tiling text (pre ++ (t :: mid ++ post))) {first last : Lexeme} {rest : List Lexeme}
    (located : Tile.locate (Tile.total pre) (t :: mid) = first :: rest)
    (hlast : (first :: rest).getLast? = some last) :
    ∃ piece us, Text.slice? first.start last.stop text = some piece ∧ Lexeme.scan piece = .ok us ∧
      us.map (Lexeme.moved first.start) = first :: rest := by
  obtain ⟨front, body, back, rfl, hstart, hstop, tiling, -⟩ := h.exists_cut
  have start : first.start = Text.byteSize front := by
    rw [hstart, ← (List.cons.inj located).1]
  have stop : last.stop = Text.byteSize front + Text.byteSize body := by
    obtain ⟨last', hlast', hstop'⟩ := Tile.getLast?_locate (Tile.total pre) t mid
    rw [located, hlast] at hlast'
    rw [Option.some.inj hlast', hstop', hstop]
  refine ⟨body, _, ?_, Lexeme.scan_eq_ok_iff.mpr ⟨_, tiling, rfl⟩, ?_⟩
  · rw [start, stop]
    exact Text.slice?_append front body back
  · rw [← Tile.locate_moved, ← located, Tile.locate_dropGap _ t mid, start, hstart, Nat.add_zero]

end Tiling

/-! ## The lexemes of a text -/

namespace Lexeme

/-- Lexemes that lie in a text as tiles do: each has characters of its own, in the order of the list, what
lies outside of all of them is blank, and the text of a stretch of them, up to a single one, has just the
lexemes of that stretch. -/
structure Tiles (text : List Char) (ts : List Lexeme) : Prop where
  nonempty : ∀ t ∈ ts, t.start < t.stop
  ordered : ts.Pairwise fun t u => t.stop ≤ u.start
  boundaries : ∀ t ∈ ts, Text.isBoundary t.start text = true ∧ Text.isBoundary t.stop text = true
  blanks : ∀ (front back : List Char) (c : Char), text = front ++ c :: back →
    (∀ t ∈ ts, Text.byteSize front < t.start ∨ t.stop ≤ Text.byteSize front) → Text.isBlank c = true
  stretches : ∀ (first last : Lexeme) (rest : List Lexeme), first :: rest <:+: ts →
    (first :: rest).getLast? = some last →
      ∃ piece us, Text.slice? first.start last.stop text = some piece ∧ scan piece = .ok us ∧
        us.map (moved first.start) = first :: rest

theorem tiles_of_scan {text : List Char} {ts : List Lexeme} (h : scan text = .ok ts) : Tiles text ts := by
  obtain ⟨tiles, tiling, rfl⟩ := scan_eq_ok_iff.mp h
  refine ⟨?_, Tile.pairwise_locate 0 tiles, ?_, ?_, ?_⟩
  · exact fun t ht => Tile.start_lt_stop_of_mem_locate tiling.byteSize_body_pos ht
  · intro t ht
    obtain ⟨front, mid, back, t', rest, last, rfl, single, hlast, hstart, hstop⟩ :=
      exists_split_of_infix h ((List.singleton_infix_iff _ _).mpr ht) (List.cons_ne_nil t [])
    obtain ⟨rfl, -⟩ := List.cons.inj single
    obtain rfl : t = last := by simpa using hlast
    have stop := Text.isBoundary_byteSize (front ++ mid) back
    rw [Text.byteSize_append, List.append_assoc] at stop
    rw [hstart, hstop]
    exact ⟨Text.isBoundary_byteSize front _, stop⟩
  · intro front back c split outside
    exact tiling.isBlank_of_outside 0 split (by simpa using outside)
  · intro first last rest stretch hlast
    obtain ⟨pre, mid, post, rfl, located⟩ := Tile.of_infix_locate stretch
    cases mid with
    | nil => cases located
    | cons t mid => exact tiling.scan_stretch located.symm hlast

/-- A number before a word, points before digits and behind them, and a literal with an escaped quote and a
letter of two bytes. -/
theorem tiles_of_scan_dense : ∃ ts, scan "1.5and.2 'é\\'' >=x.5".toList = .ok ts ∧ ts.length = 9 ∧
    Tiles "1.5and.2 'é\\'' >=x.5".toList ts := by
  obtain ⟨ts, scanned, length⟩ :
      ∃ ts, scan "1.5and.2 'é\\'' >=x.5".toList = .ok ts ∧ ts.length = 9 := by
    decide +kernel
  exact ⟨ts, scanned, length, tiles_of_scan scanned⟩

end Lexeme

end RelationalAlgebra.Predicate
