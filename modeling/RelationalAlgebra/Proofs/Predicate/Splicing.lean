import RelationalAlgebra.Proofs.Predicate.Tiling
import RelationalAlgebra.Proofs.Text.Trimming
/-!
# Texts put together from others

The tokens of a text that is cut out of another, or put together from several, are those of the parts.
What has to be checked is each place where two parts meet: the text that now follows a lexeme must not
extend it.
-/

namespace RelationalAlgebra.Predicate

open Lexeme (Milder)

/-! ## Places where texts meet -/

/-- A text that extends no lexeme before it. -/
def Detached (text : List Char) : Prop :=
  ∀ c ∈ text.head?,
    Name.isPart c = false ∧ Text.isDigit c = false ∧ c ≠ '.' ∧ c ≠ '=' ∧ c ≠ '/'

theorem detached_blank (cs : List Char) : Detached (' ' :: cs) := by
  intro c hc
  obtain rfl : ' ' = c := by simpa using hc
  decide

theorem detached_close (cs : List Char) : Detached (')' :: cs) := by
  intro c hc
  obtain rfl : ')' = c := by simpa using hc
  decide

theorem detached_blanks {gap : List Char} (blank : ∀ c ∈ gap, Text.isBlank c = true) :
    Detached gap := by
  intro c hc
  have hc := blank c (List.mem_of_mem_head? hc)
  refine ⟨?_, ?_, ?_, ?_, ?_⟩
  · by_contra part
    rw [Name.isBlank_of_isPart (by simpa using part)] at hc
    cases hc
  · by_contra digit
    rw [Name.isBlank_of_isDigit (by simpa using digit)] at hc
    cases hc
  all_goals
    rintro rfl
    revert hc
    decide

namespace Lexeme.Milder

theorem takeWhile_ne_nil_iff {p : Char → Bool} {cs : List Char} :
    cs.takeWhile p ≠ [] ↔ cs.head?.any p = true := by
  cases cs with
  | nil => simp
  | cons c cs => by_cases h : p c = true <;> simp [h]

theorem refl (cs : List Char) : Milder cs cs := ⟨id, id, id, id, id⟩

theorem cons (c : Char) {old new : List Char} (m : Milder old new) : Milder (c :: old) (c :: new) := by
  refine ⟨id, id, ?_, id, id⟩
  intro h
  have digit := m.digit
  unfold Lexeme.fractionOf at h ⊢
  split at h
  · next rest heq =>
    obtain ⟨rfl, rfl⟩ := List.cons.inj heq
    change List.takeWhile Text.isDigit old ≠ []
    rw [takeWhile_ne_nil_iff] at h ⊢
    exact digit h
  · exact absurd rfl h

theorem append_left (as : List Char) {old new : List Char} (m : Milder old new) :
    Milder (as ++ old) (as ++ new) := by
  induction as with
  | nil => exact m
  | cons a as ih => exact ih.cons a

theorem nil (old : List Char) : Milder old [] := by
  refine ⟨?_, ?_, ?_, ?_, ?_⟩ <;> simp [Lexeme.fractionOf]

theorem append_right (cs ds : List Char) : Milder (cs ++ ds) cs := by
  have := (nil ds).append_left cs
  rwa [List.append_nil] at this

theorem of_detached {text : List Char} (h : Detached text) : Milder [] text := by
  cases text with
  | nil => exact refl []
  | cons c cs =>
    obtain ⟨part, digit, point, equal, slash⟩ := h c rfl
    refine ⟨?_, ?_, ?_, ?_, ?_⟩
    · simp [part]
    · simp [digit]
    · intro h
      unfold Lexeme.fractionOf at h
      grind
    · simp [equal]
    · simp [slash]

theorem append_detached (cs : List Char) {text : List Char} (h : Detached text) :
    Milder cs (cs ++ text) := by
  have := (of_detached h).append_left cs
  rwa [List.append_nil] at this

end Lexeme.Milder

theorem Begins.tight {c : Char} {w rest : List Char} {token : Token} (h : Begins c w token rest) :
    Text.Tight (c :: w) := Lexeme.isBlank_getLast_first h.2 h.1

theorem Begins.milder {c : Char} {w old new : List Char} {token : Token} (h : Begins c w token old)
    (m : Milder old new) : Begins c w token new :=
  ⟨h.1, Lexeme.first_transfer m h.2⟩

/-! ## Tilings put together -/

/-- Blanks in front of a text move its lexemes and change nothing else. -/
theorem Tiling.blanks_append {gap text : List Char} {tiles : List Tile}
    (blank : ∀ c ∈ gap, Text.isBlank c = true) (h : Tiling text tiles) :
    ∃ tiles', Tiling (gap ++ text) tiles' ∧
      ∀ offset, Tile.locate offset tiles' = Tile.locate (offset + Text.byteSize gap) tiles := by
  induction gap with
  | nil => exact ⟨tiles, h, fun _ => rfl⟩
  | cons c gap ih =>
    obtain ⟨mid, tiling, located⟩ := ih fun x hx => blank x (List.mem_cons_of_mem _ hx)
    obtain ⟨tiles', tiling', located'⟩ :=
      Lexeme.tiling_cons_blank tiling (blank c (List.mem_cons_self ..))
    refine ⟨tiles', tiling', fun offset => ?_⟩
    rw [located', located, Text.byteSize, Nat.add_assoc]

theorem Tiling.append {as bs : List Char} {tiles tiles' : List Tile} (ha : Tiling as tiles)
    (hb : Tiling bs tiles') (detached : Detached bs) :
    ∃ all, Tiling (as ++ bs) all ∧ ∀ offset, Tile.locate offset all =
      Tile.locate offset tiles ++ Tile.locate (offset + Text.byteSize as) tiles' := by
  induction ha with
  | blanks blank => exact hb.blanks_append blank
  | @tile gap w rest c token tiles blank begins tiling ih =>
    obtain ⟨all, tiling', located⟩ := ih
    have begins' := begins.milder (Milder.append_detached rest detached)
    refine ⟨⟨gap, c :: w, token⟩ :: all, ?_, fun offset => ?_⟩
    · have := Tiling.tile blank begins' tiling'
      simpa using this
    · rw [Tile.locate, Tile.locate, located, List.cons_append]
      simp only [Text.byteSize_append, Nat.add_assoc]

/-! ## The tokens of a text -/

/-- Whether a text has these tokens. -/
def Lexes (text : List Char) (tokens : List Token) : Prop :=
  ∃ tiles, Tiling text tiles ∧ tiles.map Tile.token = tokens

theorem lexes_of_scan {text : List Char} {ts : List Lexeme} (h : Lexeme.scan text = .ok ts) :
    Lexes text (ts.map Lexeme.token) := by
  obtain ⟨tiles, tiling, rfl⟩ := Lexeme.scan_eq_ok_iff.mp h
  exact ⟨tiles, tiling, (map_token_locate 0 tiles).symm⟩

theorem Lexes.scan {text : List Char} {tokens : List Token} (h : Lexes text tokens) :
    ∃ ts, Lexeme.scan text = .ok ts ∧ ts.map Lexeme.token = tokens := by
  obtain ⟨tiles, tiling, rfl⟩ := h
  exact ⟨_, Lexeme.scan_eq_ok_iff.mpr ⟨tiles, tiling, rfl⟩, map_token_locate 0 tiles⟩

namespace Lexes

theorem append_blanks {gap text : List Char} {tokens : List Token}
    (blank : ∀ c ∈ gap, Text.isBlank c = true) (h : Lexes text tokens) : Lexes (gap ++ text) tokens := by
  obtain ⟨tiles, tiling, rfl⟩ := h
  obtain ⟨tiles', tiling', located⟩ := tiling.blanks_append blank
  exact ⟨tiles', tiling', by rw [← map_token_locate 0, located, map_token_locate]⟩

theorem of_begins {c : Char} {w rest : List Char} {token : Token} {tokens : List Token}
    (begins : Begins c w token rest) (h : Lexes rest tokens) :
    Lexes (c :: w ++ rest) (token :: tokens) := by
  obtain ⟨tiles, tiling, rfl⟩ := h
  exact ⟨_, tiling.begin begins, rfl⟩

theorem append {as bs : List Char} {ts us : List Token} (ha : Lexes as ts) (hb : Lexes bs us)
    (detached : Detached bs) : Lexes (as ++ bs) (ts ++ us) := by
  obtain ⟨tiles, tiling, rfl⟩ := ha
  obtain ⟨tiles', tiling', rfl⟩ := hb
  obtain ⟨all, joined, located⟩ := tiling.append tiling' detached
  refine ⟨all, joined, ?_⟩
  rw [← map_token_locate 0, located, List.map_append, map_token_locate, map_token_locate]

theorem blanks {cs : List Char} (blank : ∀ c ∈ cs, Text.isBlank c = true) : Lexes cs [] :=
  ⟨[], .blanks blank, rfl⟩

theorem append_space {as bs : List Char} {ts us : List Token} (ha : Lexes as ts) (hb : Lexes bs us) :
    Lexes (as ++ ' ' :: bs) (ts ++ us) := by
  have blank : ∀ c ∈ [' '], Text.isBlank c = true := by
    intro c hc
    rw [List.mem_singleton.mp hc]
    rfl
  have space : Lexes ([' '] ++ bs) us := hb.append_blanks blank
  exact ha.append space (detached_blank bs)

theorem parens {text : List Char} {tokens : List Token} (h : Lexes text tokens) :
    Lexes ('(' :: text ++ [')']) (.symbol .openParen :: tokens ++ [.symbol .closeParen]) := by
  have opens (rest : List Char) : Begins '(' [] (.symbol .openParen) rest := ⟨by decide, rfl⟩
  have closes : Begins ')' [] (.symbol .closeParen) [] := ⟨by decide, rfl⟩
  have close : Lexes [')'] [.symbol .closeParen] := of_begins closes (blanks (by simp))
  exact of_begins (w := []) (opens _) (h.append close (detached_close []))

/-! ## Trimming -/

theorem of_append_blanks {gap text : List Char} {tokens : List Token}
    (blank : ∀ c ∈ gap, Text.isBlank c = true) (h : Lexes (gap ++ text) tokens) :
    Lexes text tokens := by
  obtain ⟨ts, hs, rfl⟩ := h.scan
  rw [Lexeme.scan, Lexeme.scanFrom_blanks 0 text blank] at hs
  obtain ⟨tiles, tiling, rfl⟩ := Lexeme.tiling_of_scanFrom hs
  exact ⟨tiles, tiling, (map_token_locate _ tiles).symm⟩

theorem of_blanks_append {text gap : List Char} {tokens : List Token}
    (blank : ∀ c ∈ gap, Text.isBlank c = true) (h : Lexes (text ++ gap) tokens) :
    Lexes text tokens := by
  obtain ⟨tiles, tiling, rfl⟩ := h
  generalize hall : text ++ gap = all at tiling
  induction tiling generalizing text with
  | blanks h =>
    subst hall
    exact blanks fun c hc => h c (List.mem_append_left _ hc)
  | @tile gap' w rest c token tiles h begins tiling ih =>
    -- the lexeme ends in a character that is no blank, so it lies before the final blanks
    obtain ⟨middle, rfl, rfl⟩ : ∃ middle, text = gap' ++ (c :: w ++ middle) ∧ rest = middle ++ gap := by
      rw [← List.append_assoc] at hall
      rcases List.append_eq_append_iff.mp hall with ⟨m, hm, hgap⟩ | ⟨m, hm, hrest⟩
      · cases hlast : m.getLast? with
        | none =>
          obtain rfl := List.getLast?_eq_none_iff.mp hlast
          exact ⟨[], by simpa using hm.symm, by simpa using hgap.symm⟩
        | some x =>
          have hx : x ∈ (c :: w).getLast? := by
            have := congrArg List.getLast? hm
            rw [List.getLast?_append, List.getLast?_append, hlast] at this
            simpa [List.getLast?_cons] using this
          have hblank := blank x (by
            rw [hgap]
            exact List.mem_append_left _ (List.mem_of_getLast? hlast))
          rw [Lexeme.isBlank_getLast_first begins.2 begins.1 x hx] at hblank
          cases hblank
      · exact ⟨m, by rw [hm, List.append_assoc], hrest⟩
    exact (of_begins (begins.milder (Milder.append_right middle gap)) (ih rfl)).append_blanks h

theorem trim {text : List Char} {tokens : List Token} (h : Lexes text tokens) :
    Lexes (Text.trim text) tokens := by
  obtain ⟨front, back, hfront, hback, split⟩ := Text.trim_split text
  rw [split] at h
  exact (h.of_append_blanks hfront).of_blanks_append hback

end Lexes

/-! ## Stretches of lexemes -/

def Tile.total : List Tile → Nat
  | [] => 0
  | t :: ts => Text.byteSize t.gap + Text.byteSize t.body + total ts

theorem Tile.total_append (as bs : List Tile) :
    Tile.total (as ++ bs) = Tile.total as + Tile.total bs := by
  induction as with
  | nil => simp [Tile.total]
  | cons t ts ih =>
    simp only [List.cons_append, Tile.total, ih]
    omega

theorem Tile.locate_append (offset : Nat) (as bs : List Tile) :
    Tile.locate offset (as ++ bs) =
      Tile.locate offset as ++ Tile.locate (offset + Tile.total as) bs := by
  induction as generalizing offset with
  | nil => rfl
  | cons a as ih => simp [Tile.locate, Tile.total, ih, Nat.add_assoc]

theorem Tile.length_locate (offset : Nat) (tiles : List Tile) :
    (Tile.locate offset tiles).length = tiles.length := by
  rw [← List.length_map (f := Lexeme.token), map_token_locate, List.length_map]

theorem Tile.of_locate_eq_append {offset : Nat} {tiles : List Tile} {xs ys : List Lexeme}
    (h : Tile.locate offset tiles = xs ++ ys) :
    ∃ as bs, tiles = as ++ bs ∧ xs = Tile.locate offset as ∧
      ys = Tile.locate (offset + Tile.total as) bs := by
  have hlen := congrArg List.length h
  rw [Tile.length_locate, List.length_append] at hlen
  refine ⟨tiles.take xs.length, tiles.drop xs.length, by simp, ?_⟩
  rw [← List.take_append_drop xs.length tiles, Tile.locate_append] at h
  obtain ⟨hx, hy⟩ := List.append_inj h (by
    rw [Tile.length_locate, List.length_take]
    omega)
  exact ⟨hx.symm, hy.symm⟩

theorem Tile.getLast?_locate (offset : Nat) (t : Tile) (ts : List Tile) :
    ∃ last, (Tile.locate offset (t :: ts)).getLast? = some last ∧
      last.stop = offset + Tile.total (t :: ts) := by
  induction ts generalizing offset t with
  | nil =>
    refine ⟨_, rfl, ?_⟩
    change offset + Text.byteSize t.gap + Text.byteSize t.body = _
    simp only [Tile.total, Nat.add_assoc, Nat.add_zero]
  | cons u us ih =>
    obtain ⟨last, hlast, hstop⟩ :=
      ih (offset + Text.byteSize t.gap + Text.byteSize t.body) u
    refine ⟨last, ?_, ?_⟩
    · rw [Tile.locate, List.getLast?_cons, hlast]
      rfl
    · simp only [hstop, Tile.total, Nat.add_assoc]

namespace Tiling

theorem of_append {text : List Char} {as bs : List Tile} (h : Tiling text (as ++ bs)) :
    ∃ front back, text = front ++ back ∧ Text.byteSize front = Tile.total as ∧ Text.Tight front ∧
      Tiling front as ∧ Tiling back bs := by
  induction as generalizing text with
  | nil => exact ⟨[], text, rfl, rfl, Text.Tight.nil, .blanks (by simp), h⟩
  | cons a as ih =>
    cases h with
    | @tile gap w rest c token _ blank begins tiling =>
      obtain ⟨front, back, rfl, hsize, hlast, hfront, hback⟩ := ih tiling
      refine ⟨gap ++ (c :: w ++ front), back, by simp, ?_, ?_, ?_, hback⟩
      · simp only [Text.byteSize_append, hsize, Tile.total, Nat.add_assoc]
      · exact (begins.tight.append hlast).append_left (by simp) gap
      · exact .tile blank (begins.milder (Milder.append_right front back)) hfront

/-- Without the blanks in front of it a text has the same tiles, but that the first has no gap. -/
theorem dropGap {text : List Char} {t : Tile} {ts : List Tile} (h : Tiling text (t :: ts)) :
    ∃ body, text = t.gap ++ body ∧ Tiling body (⟨[], t.body, t.token⟩ :: ts) := by
  cases h with
  | tile blank begins tiling => exact ⟨_, rfl, tiling.begin begins⟩

theorem gap_eq_nil_iff {text : List Char} {t : Tile} {ts : List Tile} (h : Tiling text (t :: ts)) :
    t.gap = [] ↔ ∀ c ∈ text.head?, Text.isBlank c = false := by
  cases h with
  | @tile gap w rest c token _ blank begins tiling =>
    cases gap with
    | nil => simpa using begins.1
    | cons g gap => simpa using blank g (List.mem_cons_self ..)

end Tiling

theorem Lexeme.cover_cons {t last : Lexeme} {ts : List Lexeme} (text : List Char)
    (h : (t :: ts).getLast? = some last) :
    Lexeme.cover text (t :: ts) = Text.slice t.start last.stop text := by
  simp only [Lexeme.cover, h]

/-- A stretch of tiles, without its first gap, is cut out of the text at two places. -/
theorem Tiling.exists_cut {text : List Char} {pre mid post : List Tile} {t : Tile}
    (h : Tiling text (pre ++ (t :: mid ++ post))) :
    ∃ front body back, text = front ++ (body ++ back) ∧
      Text.byteSize front = Tile.total pre + Text.byteSize t.gap ∧
      Text.byteSize front + Text.byteSize body = Tile.total pre + Tile.total (t :: mid) ∧
      Tiling body (⟨[], t.body, t.token⟩ :: mid) ∧ Text.Trimmed body := by
  obtain ⟨front, rest, rfl, hfront, -, -, hrest⟩ := h.of_append
  obtain ⟨middle, back, rfl, hmiddle, tight, hmid, -⟩ := hrest.of_append
  obtain ⟨body, rfl, tiling⟩ := hmid.dropGap
  refine ⟨front ++ t.gap, body, back, by simp, ?_, ?_, tiling, tiling.gap_eq_nil_iff.mp rfl,
    tight.of_append⟩
  · rw [Text.byteSize_append, hfront]
  · rw [← hfront, ← hmiddle, Text.byteSize_append, Text.byteSize_append, Nat.add_assoc]

/-- The text that a stretch of lexemes covers has the tiles of that stretch, and no outer blanks. -/
theorem tiling_cover {text : List Char} {pre mid post : List Tile} {t : Tile}
    (h : Tiling text (pre ++ (t :: mid ++ post))) :
    Tiling (Lexeme.cover text (Tile.locate (Tile.total pre) (t :: mid)))
        (⟨[], t.body, t.token⟩ :: mid) ∧
      Text.Trimmed (Lexeme.cover text (Tile.locate (Tile.total pre) (t :: mid))) := by
  obtain ⟨front, body, back, rfl, hstart, hstop, tiling, trimmed⟩ := h.exists_cut
  obtain ⟨last, hlast, hstop'⟩ := Tile.getLast?_locate (Tile.total pre) t mid
  have hcover : Lexeme.cover (front ++ (body ++ back))
      (Tile.locate (Tile.total pre) (t :: mid)) = body := by
    rw [Tile.locate] at hlast ⊢
    rw [Lexeme.cover_cons _ hlast, hstop', ← hstop, ← hstart]
    exact Text.slice_append _ _ _
  rw [hcover]
  exact ⟨tiling, trimmed⟩

/-- A stretch of the lexemes of a tiling is that of a stretch of its tiles. -/
theorem Tile.of_infix_locate {tiles : List Tile} {part : List Lexeme}
    (h : part <:+: Tile.locate 0 tiles) :
    ∃ pre mid post, tiles = pre ++ (mid ++ post) ∧ part = Tile.locate (Tile.total pre) mid := by
  obtain ⟨before, after, split⟩ := h
  rw [List.append_assoc] at split
  obtain ⟨pre, rest, rfl, -, split⟩ := Tile.of_locate_eq_append split.symm
  obtain ⟨mid, post, rfl, rfl, -⟩ := Tile.of_locate_eq_append split.symm
  exact ⟨pre, mid, post, rfl, by rw [Nat.zero_add]⟩

theorem lexes_cover {text : List Char} {ts part : List Lexeme} (h : Lexeme.scan text = .ok ts)
    (infix_ : part <:+: ts) (ne : part ≠ []) :
    Lexes (Lexeme.cover text part) (part.map Lexeme.token) := by
  obtain ⟨tiles, tiling, rfl⟩ := Lexeme.scan_eq_ok_iff.mp h
  obtain ⟨pre, mid, post, rfl, rfl⟩ := Tile.of_infix_locate infix_
  cases mid with
  | nil => exact absurd rfl ne
  | cons t mid =>
    rw [map_token_locate]
    exact ⟨_, (tiling_cover tiling).1, rfl⟩

/-! ## Names -/

theorem Begins.of_name {c : Char} {w rest : List Char} {n : String}
    (h : Begins c w (.name n) rest) :
    Name.isStart c = true ∧ rest.head?.any Name.isPart = false := by
  obtain ⟨-, h⟩ := h
  unfold Lexeme.first at h
  split at h
  · next start =>
    obtain ⟨-, hlen⟩ := Prod.mk.inj (Except.ok.inj h)
    exact ⟨start, (Lexeme.of_length_takeWhile_append hlen).2⟩
  · split at h
    · unfold Lexeme.number at h
      dsimp only at h
      split at h
      · split at h <;> simp at h
      · simp at h
    · split at h
      · split at h <;> simp at h
      · split at h <;> simp at h

theorem ofWord?_eq_none {n : String} (h : Name.reserved.contains n = false) :
    Keyword.ofWord? n = none := by
  unfold Keyword.ofWord?
  split <;> first | rfl | (exfalso; revert h; decide)

theorem begins_name {n : String} (valid : Name.isValid n = true) :
    ∃ c w, n.toList = c :: w ∧ Name.isStart c = true ∧
      ∀ rest : List Char, rest.head?.any Name.isPart = false → Begins c w (.name n) rest := by
  obtain ⟨c, w, heq, start, parts⟩ := Name.exists_cons_of_isValid valid
  have free := ofWord?_eq_none (Name.free_of_isValid valid)
  refine ⟨c, w, heq, start, fun rest hrest => ⟨Name.isBlank_of_isPart (Name.isPart_of_isStart start), ?_⟩⟩
  rw [Lexeme.first, if_pos start]
  simp only [Lexeme.takeWhile_append_of_head parts hrest, Lexeme.word, ← heq, String.ofList_toList, free]

/-- The tokens with the names replaced that `image` maps, but for those after a point. -/
def Token.renamed (image : String → Option String) (afterDot : Bool) : List Token → List Token
  | [] => []
  | .name n :: ts =>
    .name (if afterDot then n else (image n).getD n) :: renamed image false ts
  | t :: ts => t :: renamed image (t = .symbol .dot) ts

theorem Token.renamed_cons {image : String → Option String} {t : Token} {ts : List Token}
    (h : ∀ n, t ≠ .name n) (afterDot : Bool) :
    renamed image afterDot (t :: ts) = t :: renamed image (t = .symbol .dot) ts := by
  cases t with
  | name n => exact absurd rfl (h n)
  | _ => rfl

theorem milder_of_isStart {c d : Char} (cs ds : List Char) (hc : Name.isStart c = true)
    (hd : Name.isStart d = true) : Milder (c :: cs) (d :: ds) := by
  have digit : Text.isDigit d = false := Name.isDigit_of_isStart hd
  have other (x : Char) (hx : Name.isStart x = false) : d ≠ x := by
    rintro rfl
    rw [hd] at hx
    cases hx
  refine ⟨?_, ?_, ?_, ?_, ?_⟩
  · simp [Name.isPart_of_isStart hc]
  · simp [digit]
  · intro h
    unfold Lexeme.fractionOf at h
    split at h
    · next heq => exact absurd (List.cons.inj heq).1 (other '.' (by decide))
    · exact absurd rfl h
  · simp [other '=' (by decide)]
  · simp [other '/' (by decide)]

def Tile.renamed (image : String → Option String) (afterDot : Bool) : List Tile → List Tile
  | [] => []
  | ⟨gap, body, .name n⟩ :: ts =>
    match if afterDot then none else image n with
    | some m => ⟨gap, m.toList, .name m⟩ :: renamed image false ts
    | none => ⟨gap, body, .name n⟩ :: renamed image false ts
  | t :: ts => t :: renamed image (t.token = .symbol .dot) ts

theorem Tile.renamed_cons {image : String → Option String} {t : Tile} {ts : List Tile}
    (h : ∀ n, t.token ≠ .name n) (afterDot : Bool) :
    Tile.renamed image afterDot (t :: ts) =
      t :: Tile.renamed image (t.token = .symbol .dot) ts := by
  obtain ⟨gap, body, token⟩ := t
  cases token with
  | name n => exact absurd rfl (h n)
  | _ => rfl

theorem Tile.map_token_renamed (image : String → Option String) (afterDot : Bool) (tiles : List Tile) :
    (Tile.renamed image afterDot tiles).map Tile.token =
      Token.renamed image afterDot (tiles.map Tile.token) := by
  induction tiles generalizing afterDot with
  | nil => rfl
  | cons t ts ih =>
    obtain ⟨gap, body, token⟩ := t
    cases token with
    | name n =>
      cases afterDot with
      | true => simp [Tile.renamed, Token.renamed, ih]
      | false => cases himage : image n <;> simp [Tile.renamed, Token.renamed, himage, ih]
    | _ => exact congrArg (_ :: ·) (ih _)

/-- A text and what it is once new names are spliced into it.  The splicing is told for a text that
stands after characters kept as they are, as it does once the first tiles are passed. -/
structure Spliced (image : String → Option String) (afterDot : Bool) (text : List Char)
    (tiles : List Tile) (new : List Char) : Prop where
  tiling : Tiling new (Tile.renamed image afterDot tiles)
  milder : Milder text new
  tight : Text.Tight text → Text.Tight new
  splice_eq : ∀ (offset : Nat) (kept : List Char),
    Lexeme.splice image offset (kept ++ text)
        (Lexeme.attributesFrom afterDot (Tile.locate (offset + Text.byteSize kept) tiles)) =
      kept ++ new

section Spliced

variable {image : String → Option String} {gap w rest rest' : List Char} {c : Char}
  {tiles : List Tile}

theorem spliced_blanks (afterDot : Bool) {cs : List Char}
    (blank : ∀ c ∈ cs, Text.isBlank c = true) : Spliced image afterDot cs [] cs :=
  ⟨.blanks blank, Milder.refl cs, id, fun _ _ => rfl⟩

/-- A tile that stays as it is, before a text into which names are spliced. -/
theorem spliced_keep {afterDot dot : Bool} {token : Token}
    (blank : ∀ c ∈ gap, Text.isBlank c = true) (begins : Begins c w token rest)
    (kept : Tile.renamed image afterDot (⟨gap, c :: w, token⟩ :: tiles) =
      ⟨gap, c :: w, token⟩ :: Tile.renamed image dot tiles)
    (skips : ∀ offset text start stop ts,
      Lexeme.splice image offset text
          (Lexeme.attributesFrom afterDot (⟨token, start, stop⟩ :: ts)) =
        Lexeme.splice image offset text (Lexeme.attributesFrom dot ts))
    (h : Spliced image dot rest tiles rest') :
    Spliced image afterDot (gap ++ (c :: w ++ rest)) (⟨gap, c :: w, token⟩ :: tiles)
      (gap ++ (c :: w ++ rest')) where
  tiling := by
    rw [kept]
    exact .tile blank (begins.milder h.milder) h.tiling
  milder := (h.milder.append_left (c :: w)).append_left gap
  tight text := (begins.tight.append (h.tight text.of_append.of_append)).append_left (by simp) gap
  splice_eq offset before := by
    have := h.splice_eq offset (before ++ gap ++ c :: w)
    simp only [Text.byteSize_append, ← Nat.add_assoc] at this
    rw [Tile.locate, skips]
    simpa using this

/-- A name that is replaced: the splicing keeps the blanks before it and goes on behind it. -/
theorem splice_replaced {n m : String} (himage : image n = some m)
    (h : ∀ offset, Lexeme.splice image offset rest
      (Lexeme.attributesFrom false (Tile.locate offset tiles)) = rest') (offset : Nat)
    (kept : List Char) :
    Lexeme.splice image offset (kept ++ (gap ++ (c :: w ++ rest)))
        (Lexeme.attributesFrom false (Tile.locate (offset + Text.byteSize kept)
          (⟨gap, c :: w, .name n⟩ :: tiles))) =
      kept ++ (gap ++ (m.toList ++ rest')) := by
  have hstart : offset + Text.byteSize kept + Text.byteSize gap - offset =
      Text.byteSize (kept ++ gap) := by
    rw [Text.byteSize_append]
    omega
  have hstop : offset + Text.byteSize kept + Text.byteSize gap + Text.byteSize (c :: w)
      - offset = Text.byteSize (kept ++ gap ++ c :: w) := by
    rw [Text.byteSize_append, Text.byteSize_append]
    omega
  have htake := Text.takeBytes_byteSize (kept ++ gap) (c :: w ++ rest)
  have hdrop := Text.dropBytes_byteSize (kept ++ gap ++ c :: w) rest
  have behind := h (offset + Text.byteSize kept + Text.byteSize gap + Text.byteSize (c :: w))
  simp only [List.append_assoc] at htake hdrop hstop
  simp only [Text.byteSize] at behind hstop
  simp only [Tile.locate, Lexeme.attributesFrom, Lexeme.isSymbol, Lexeme.splice, himage,
    Bool.false_eq_true, if_false, hstart, Text.byteSize, hstop, htake, reduceCtorEq, decide_false]
  rw [hdrop, behind, List.append_assoc, List.append_assoc]

theorem spliced_replace {n m : String} (himage : image n = some m)
    (valid : Name.isValid m = true) (blank : ∀ c ∈ gap, Text.isBlank c = true)
    (begins : Begins c w (.name n) rest) (h : Spliced image false rest tiles rest') :
    Spliced image false (gap ++ (c :: w ++ rest)) (⟨gap, c :: w, .name n⟩ :: tiles)
      (gap ++ (m.toList ++ rest')) := by
  obtain ⟨start, -⟩ := begins.of_name
  obtain ⟨d, v, hm, hd, named⟩ := begins_name valid
  have here : Begins d v (.name m) rest' := named rest' (begins.milder h.milder).of_name.2
  refine ⟨?_, ?_, fun text => ?_, splice_replaced himage fun offset => ?_⟩
  · have renamed : Tile.renamed image false (⟨gap, c :: w, .name n⟩ :: tiles) =
        ⟨gap, d :: v, .name m⟩ :: Tile.renamed image false tiles := by
      simp [Tile.renamed, himage, hm]
    rw [renamed, hm]
    exact .tile blank here h.tiling
  · rw [hm]
    exact (milder_of_isStart _ _ start hd).append_left gap
  · rw [hm]
    exact (here.tight.append (h.tight text.of_append.of_append)).append_left (by simp) gap
  · simpa [Text.byteSize] using h.splice_eq offset []

theorem splice_tiling (valid : ∀ n new, image n = some new → Name.isValid new = true)
    {text : List Char} (h : Tiling text tiles) (afterDot : Bool) :
    ∃ new, Spliced image afterDot text tiles new := by
  induction h generalizing afterDot with
  | blanks blank => exact ⟨_, spliced_blanks afterDot blank⟩
  | @tile gap w rest c token tiles blank begins tiling ih =>
    cases token with
    | name n =>
      obtain ⟨rest', spliced⟩ := ih false
      cases afterDot with
      | true => exact ⟨_, spliced_keep blank begins rfl (fun _ _ _ _ _ => rfl) spliced⟩
      | false =>
        cases himage : image n with
        | none =>
          refine ⟨_, spliced_keep blank begins ?_ ?_ spliced⟩
          · simp [Tile.renamed, himage]
          · intro offset text start stop ts
            simp [Lexeme.attributesFrom, Lexeme.splice, Lexeme.isSymbol, himage]
        | some m => exact ⟨_, spliced_replace himage (valid n m himage) blank begins spliced⟩
    | _ =>
      obtain ⟨rest', spliced⟩ := ih _
      exact ⟨_, spliced_keep blank begins rfl (fun _ _ _ _ _ => rfl) spliced⟩

end Spliced

/-- A text with its attributes renamed has the tiles with the names replaced, and ends as before. -/
theorem tiling_splice {image : String → Option String}
    (valid : ∀ n new, image n = some new → Name.isValid new = true) {text : List Char}
    {tiles : List Tile} (h : Tiling text tiles) :
    Tiling (Lexeme.splice image 0 text (Lexeme.attributesFrom false (Tile.locate 0 tiles)))
        (Tile.renamed image false tiles) ∧
      (Text.Tight text →
        Text.Tight (Lexeme.splice image 0 text (Lexeme.attributesFrom false (Tile.locate 0 tiles)))) := by
  obtain ⟨new, tiling, -, tight, splice_eq⟩ := splice_tiling valid h false
  have spliced := splice_eq 0 []
  simp only [List.nil_append, Text.byteSize, Nat.add_zero] at spliced
  rw [spliced]
  exact ⟨tiling, tight⟩

theorem lexes_splice {image : String → Option String}
    (valid : ∀ n new, image n = some new → Name.isValid new = true) {text : List Char}
    {ts : List Lexeme} (h : Lexeme.scan text = .ok ts) :
    Lexes (Lexeme.splice image 0 text (Lexeme.attributesFrom false ts))
      (Token.renamed image false (ts.map Lexeme.token)) := by
  obtain ⟨tiles, tiling, rfl⟩ := Lexeme.scan_eq_ok_iff.mp h
  rw [map_token_locate, ← Tile.map_token_renamed]
  exact ⟨_, (tiling_splice valid tiling).1, rfl⟩

end RelationalAlgebra.Predicate
