import Mathlib.Data.List.TakeWhile
import Mathlib.Tactic.Common
import RelationalAlgebra.Predicate.Clause
import RelationalAlgebra.Proofs.Name.Characters
/-!
# Tilings of predicates

The lexemes of a predicate tile its text: blanks and the characters of a lexeme follow each other, and
blanks may end the text.  A text has lexemes exactly when it has a tiling, and a tiling says nothing of
places, so the lexemes of a text that is put together from others follow from the tilings of its parts.
-/

namespace RelationalAlgebra.Predicate

/-! ## The extent of one lexeme -/

namespace Lexeme

theorem first_offset {o : Nat} (o' : Nat) {c : Char} {cs : List Char} {r : Token × Nat}
    (h : first o c cs = .ok r) : first o' c cs = .ok r := by
  unfold first at h ⊢
  split
  · next hs => rwa [if_pos hs] at h
  · next hs =>
    rw [if_neg hs] at h
    split
    · next hd => rwa [if_pos hd] at h
    · next hd =>
      rw [if_neg hd] at h
      split
      · next hq =>
        rw [if_pos hq] at h
        cases hl : literal? c cs with
        | none => simp [hl] at h
        | some r => simpa [hl] using h
      · next hq =>
        rw [if_neg hq] at h
        cases hl : symbol? c cs.head? with
        | none => simp [hl] at h
        | some r => simpa [hl] using h

theorem length_literal? {quote : Char} {cs text : List Char} {n : Nat}
    (h : literal? quote cs = some (text, n)) : n ≤ cs.length := by
  fun_induction literal? quote cs generalizing text n with
  | case1 => cases h
  | case2 c cs ih =>
    obtain ⟨⟨text', m⟩, hm, heq⟩ := Option.map_eq_some_iff.mp h
    obtain ⟨-, rfl⟩ := Prod.mk.inj heq
    have := ih hm
    simp only [List.length_cons]
    omega
  | case3 => cases h
  | case4 =>
    obtain ⟨-, rfl⟩ := Prod.mk.inj (Option.some.inj h)
    simp
  | case5 c cs _ _ _ ih =>
    obtain ⟨⟨text', m⟩, hm, heq⟩ := Option.map_eq_some_iff.mp h
    obtain ⟨-, rfl⟩ := Prod.mk.inj heq
    have := ih hm
    simp only [List.length_cons]
    omega

theorem length_symbol? {c : Char} {next : Option Char} {s : Symbol} {n : Nat}
    (h : symbol? c next = some (s, n)) : n ≤ next.toList.length := by
  unfold symbol? at h
  split at h <;> grind

/-- The extent of a number: digits, and a point and more digits if there are any. -/
theorem number_eq_ok {c : Char} {cs : List Char} {token : Token} {n : Nat}
    (h : number c cs = .ok (token, n)) :
    n = if fractionOf (cs.dropWhile Text.isDigit) = [] then (cs.takeWhile Text.isDigit).length
      else (cs.takeWhile Text.isDigit).length + 1
        + (fractionOf (cs.dropWhile Text.isDigit)).length := by
  simp only [number] at h
  split at h
  · next hf =>
    rw [if_pos hf]
    split at h
    · obtain ⟨-, rfl⟩ := Prod.mk.inj (Except.ok.inj h)
      simp
    · cases h
  · next hf =>
    rw [if_neg hf]
    obtain ⟨-, rfl⟩ := Prod.mk.inj (Except.ok.inj h)
    simp

theorem fractionOf_ne_nil {cs : List Char} (h : fractionOf cs ≠ []) :
    ∃ rest, cs = '.' :: fractionOf cs ++ rest ∧ rest.head?.any Text.isDigit = false := by
  unfold fractionOf at h ⊢
  split at h
  · next rest =>
    refine ⟨rest.dropWhile Text.isDigit, ?_, ?_⟩
    · simp [List.takeWhile_append_dropWhile]
    · have := List.head?_dropWhile_not Text.isDigit rest
      cases hr : (rest.dropWhile Text.isDigit).head? with
      | none => rfl
      | some x => simpa [hr] using this
  · exact absurd rfl h

theorem length_number {c : Char} {cs : List Char} {token : Token} {n : Nat}
    (h : number c cs = .ok (token, n)) : n ≤ cs.length := by
  have total := congrArg List.length (List.takeWhile_append_dropWhile (p := Text.isDigit) (l := cs))
  rw [List.length_append] at total
  rw [number_eq_ok h]
  split
  · omega
  · next hne =>
    obtain ⟨rest, hrest, -⟩ := fractionOf_ne_nil hne
    have hlen := congrArg List.length hrest
    simp only [List.length_append, List.length_cons] at hlen
    omega

theorem length_first {o : Nat} {c : Char} {cs : List Char} {token : Token} {n : Nat}
    (h : first o c cs = .ok (token, n)) : n ≤ cs.length := by
  unfold first at h
  split at h
  · obtain ⟨-, rfl⟩ := Prod.mk.inj (Except.ok.inj h)
    exact (List.takeWhile_sublist _).length_le
  · split at h
    · exact length_number h
    · split at h
      · split at h
        · next hl =>
          obtain ⟨-, rfl⟩ := Prod.mk.inj (Except.ok.inj h)
          exact length_literal? hl
        · cases h
      · split at h
        · next hl =>
          obtain ⟨-, rfl⟩ := Prod.mk.inj (Except.ok.inj h)
          have := length_symbol? hl
          cases cs with
          | nil => simpa using this
          | cons x xs => simp at this ⊢; omega
        · cases h

/-! ## What follows a lexeme -/

/-- The text `new` extends no lexeme that `old` does not extend. -/
structure Milder (old new : List Char) : Prop where
  part : new.head?.any Name.isPart = true → old.head?.any Name.isPart = true
  digit : new.head?.any Text.isDigit = true → old.head?.any Text.isDigit = true
  point : fractionOf new ≠ [] → fractionOf old ≠ []
  equal : new.head? = some '=' → old.head? = some '='
  slash : new.head? = some '/' → old.head? = some '/'

theorem takeWhile_append_of_head {p : Char → Bool} {w rest : List Char} (hw : ∀ x ∈ w, p x = true)
    (hrest : rest.head?.any p = false) : (w ++ rest).takeWhile p = w := by
  rw [List.takeWhile_append_of_pos hw]
  cases rest with
  | nil => simp
  | cons x xs => simp_all

theorem dropWhile_append_of_head {p : Char → Bool} {w rest : List Char} (hw : ∀ x ∈ w, p x = true)
    (hrest : rest.head?.any p = false) : (w ++ rest).dropWhile p = rest := by
  rw [List.dropWhile_append_of_pos hw]
  cases rest with
  | nil => simp
  | cons x xs => simp_all

theorem of_length_takeWhile_append {p : Char → Bool} {w rest : List Char}
    (h : ((w ++ rest).takeWhile p).length = w.length) :
    (∀ x ∈ w, p x = true) ∧ rest.head?.any p = false := by
  induction w with
  | nil =>
    refine ⟨by simp, ?_⟩
    cases rest with
    | nil => rfl
    | cons x xs => by_cases hx : p x = true <;> simp_all
  | cons x xs ih =>
    by_cases hx : p x = true
    · have := ih (by simpa [hx] using h)
      exact ⟨by simpa [hx] using this.1, this.2⟩
    · simp [hx] at h

/-- The characters of a number after its first digit: digits, or digits, a point and digits. -/
theorem number_shape {c : Char} {w rest : List Char} {token : Token}
    (h : number c (w ++ rest) = .ok (token, w.length)) :
    rest.head?.any Text.isDigit = false ∧
      ((∀ x ∈ w, Text.isDigit x = true) ∧ fractionOf rest = [] ∨
        ∃ ds fs, w = ds ++ '.' :: fs ∧ fs ≠ [] ∧
          (∀ x ∈ ds, Text.isDigit x = true) ∧ ∀ x ∈ fs, Text.isDigit x = true) := by
  have hn := number_eq_ok h
  split at hn
  · next hf =>
    obtain ⟨hw, hrest⟩ := of_length_takeWhile_append hn.symm
    rw [dropWhile_append_of_head hw hrest] at hf
    exact ⟨hrest, .inl ⟨hw, hf⟩⟩
  · next hf =>
    obtain ⟨tail, htail, hhead⟩ := fractionOf_ne_nil hf
    have hsplit : w ++ rest = ((w ++ rest).takeWhile Text.isDigit
        ++ '.' :: fractionOf ((w ++ rest).dropWhile Text.isDigit)) ++ tail := by
      conv => lhs; rw [← List.takeWhile_append_dropWhile (p := Text.isDigit) (l := w ++ rest), htail]
      simp
    obtain ⟨hw, rfl⟩ := List.append_inj hsplit (by
      simp only [List.length_append, List.length_cons]
      omega)
    refine ⟨hhead, .inr ⟨_, _, hw, hf, fun x hx => List.mem_takeWhile_imp hx, ?_⟩⟩
    intro x hx
    unfold fractionOf at hx
    split at hx
    · exact List.mem_takeWhile_imp hx
    · cases hx

theorem number_transfer {c : Char} {w old new : List Char} {token : Token} (m : Milder old new)
    (h : number c (w ++ old) = .ok (token, w.length)) :
    number c (w ++ new) = .ok (token, w.length) := by
  obtain ⟨hold, shape⟩ := number_shape h
  have hnew : new.head?.any Text.isDigit = false := by
    by_contra hc
    simp [m.digit (by simpa using hc)] at hold
  have key : (w ++ new).takeWhile Text.isDigit = (w ++ old).takeWhile Text.isDigit ∧
      fractionOf ((w ++ new).dropWhile Text.isDigit)
        = fractionOf ((w ++ old).dropWhile Text.isDigit) := by
    obtain ⟨hw, hf⟩ | ⟨ds, fs, rfl, -, hds, hfs⟩ := shape
    · rw [dropWhile_append_of_head hw hold, dropWhile_append_of_head hw hnew,
        takeWhile_append_of_head hw hold, takeWhile_append_of_head hw hnew, hf]
      refine ⟨rfl, ?_⟩
      by_contra hc
      exact m.point hc hf
    · have hpoint (x : List Char) : ('.' :: fs ++ x).head?.any Text.isDigit = false := rfl
      rw [List.append_assoc, List.append_assoc, takeWhile_append_of_head hds (hpoint new),
        takeWhile_append_of_head hds (hpoint old), dropWhile_append_of_head hds (hpoint new),
        dropWhile_append_of_head hds (hpoint old)]
      refine ⟨rfl, ?_⟩
      have hfraction {x : List Char} (hx : x.head?.any Text.isDigit = false) :
          fractionOf ('.' :: fs ++ x) = fs := takeWhile_append_of_head hfs hx
      rw [hfraction hnew, hfraction hold]
  rw [number, key.1, key.2]
  exact h

theorem literal?_cons {quote c : Char} (hc : c ≠ '\\') (cs : List Char) :
    literal? quote (c :: cs) =
      if c = quote then some ([], 1)
      else (literal? quote cs).map fun (text, n) => (c :: text, n + 1) := by
  rw [literal?]
  · rw [if_neg hc]
  · intro d ds h
    exact absurd h hc

theorem literal?_take_append {quote : Char} {cs text : List Char} {n : Nat}
    (h : literal? quote cs = some (text, n)) (new : List Char) :
    literal? quote (cs.take n ++ new) = some (text, n) := by
  fun_induction literal? quote cs generalizing text n with
  | case1 => cases h
  | case2 c cs ih =>
    obtain ⟨⟨text', m⟩, hm, heq⟩ := Option.map_eq_some_iff.mp h
    obtain ⟨rfl, rfl⟩ := Prod.mk.inj heq
    simp [literal?, ih hm]
  | case3 => cases h
  | case4 cs _ hq =>
    obtain ⟨rfl, rfl⟩ := Prod.mk.inj (Option.some.inj h)
    simp [literal?_cons hq]
  | case5 c cs _ hc hq ih =>
    obtain ⟨⟨text', m⟩, hm, heq⟩ := Option.map_eq_some_iff.mp h
    obtain ⟨rfl, rfl⟩ := Prod.mk.inj heq
    simp [literal?_cons hc, hq, ih hm]

theorem symbol?_transfer {c : Char} {w old new : List Char} {s : Symbol} (m : Milder old new)
    (h : symbol? c (w ++ old).head? = some (s, w.length)) :
    symbol? c (w ++ new).head? = some (s, w.length) := by
  cases w with
  | cons x w => exact h
  | nil =>
    have equal := m.equal
    have slash := m.slash
    simp only [List.nil_append, List.length_nil] at h ⊢
    unfold symbol? at h ⊢
    -- only the symbols that may have a second character look at what follows
    split at h <;> first | exact h | (split <;> grind)

theorem first_transfer {c : Char} {w old new : List Char} {token : Token} (m : Milder old new)
    (h : first 0 c (w ++ old) = .ok (token, w.length)) :
    first 0 c (w ++ new) = .ok (token, w.length) := by
  unfold first at h ⊢
  split
  · next hs =>
    rw [if_pos hs] at h
    obtain ⟨htoken, hlen⟩ := Prod.mk.inj (Except.ok.inj h)
    obtain ⟨hw, hold⟩ := of_length_takeWhile_append hlen
    have hnew : new.head?.any Name.isPart = false := by
      by_contra hc
      simp [m.part (by simpa using hc)] at hold
    rw [takeWhile_append_of_head hw hold] at htoken
    rw [takeWhile_append_of_head hw hnew, ← htoken]
  · next hs =>
    rw [if_neg hs] at h
    split
    · next hd =>
      rw [if_pos hd] at h
      exact number_transfer m h
    · next hd =>
      rw [if_neg hd] at h
      split
      · next hq =>
        rw [if_pos hq] at h
        cases hl : literal? c (w ++ old) with
        | none => simp [hl] at h
        | some r =>
          obtain ⟨text, n⟩ := r
          rw [hl] at h
          obtain ⟨rfl, rfl⟩ := Prod.mk.inj (Except.ok.inj h)
          have := literal?_take_append hl new
          rw [List.take_left] at this
          rw [this]
      · next hq =>
        rw [if_neg hq] at h
        cases hl : symbol? c (w ++ old).head? with
        | none =>
          rw [hl] at h
          cases h
        | some r =>
          obtain ⟨s, n⟩ := r
          rw [hl] at h
          obtain ⟨rfl, rfl⟩ := Prod.mk.inj (Except.ok.inj h)
          rw [symbol?_transfer m hl]

/-! ## The last character of a lexeme -/

theorem getLast?_literal? {quote : Char} {cs text : List Char} {n : Nat}
    (h : literal? quote cs = some (text, n)) : (cs.take n).getLast? = some quote := by
  fun_induction literal? quote cs generalizing text n with
  | case1 => cases h
  | case2 c cs ih =>
    obtain ⟨⟨text', m⟩, hm, heq⟩ := Option.map_eq_some_iff.mp h
    obtain ⟨-, rfl⟩ := Prod.mk.inj heq
    have := ih hm
    simp only [List.take_succ_cons, List.getLast?_cons, this]
    rfl
  | case3 => cases h
  | case4 cs _ hq =>
    obtain ⟨-, rfl⟩ := Prod.mk.inj (Option.some.inj h)
    simp
  | case5 c cs _ hc hq ih =>
    obtain ⟨⟨text', m⟩, hm, heq⟩ := Option.map_eq_some_iff.mp h
    obtain ⟨-, rfl⟩ := Prod.mk.inj heq
    have := ih hm
    simp only [List.take_succ_cons, List.getLast?_cons, this]
    rfl

theorem symbol?_chars {c : Char} {next : Option Char} {s : Symbol} {n : Nat}
    (h : symbol? c next = some (s, n)) :
    Text.isBlank c = false ∧ (n = 0 ∨ n = 1 ∧ ∃ d, next = some d ∧ Text.isBlank d = false) := by
  unfold symbol? at h
  split at h <;> first
    | (obtain ⟨-, rfl⟩ := Prod.mk.inj (Option.some.inj h); refine ⟨by decide, ?_⟩; first
        | exact .inl rfl
        | exact .inr ⟨rfl, _, rfl, by decide⟩)
    | cases h

theorem isBlank_getLast_first {o : Nat} {c : Char} {w rest : List Char} {token : Token}
    (h : first o c (w ++ rest) = .ok (token, w.length)) (hc : Text.isBlank c = false) :
    ∀ x ∈ (c :: w).getLast?, Text.isBlank x = false := by
  have of_all {p : Char → Bool} (hp : ∀ x, p x = true → Text.isBlank x = false)
      (hw : ∀ x ∈ w, p x = true) : ∀ x ∈ (c :: w).getLast?, Text.isBlank x = false := by
    intro x hx
    rcases List.mem_cons.mp (List.mem_of_getLast? hx) with rfl | hx
    · exact hc
    · exact hp x (hw x hx)
  unfold first at h
  split at h
  · obtain ⟨-, hlen⟩ := Prod.mk.inj (Except.ok.inj h)
    exact of_all (fun x => Name.isBlank_of_isPart) (of_length_takeWhile_append hlen).1
  · split at h
    · obtain ⟨-, ⟨hw, -⟩ | ⟨ds, fs, rfl, hne, -, hfs⟩⟩ := number_shape h
      · exact of_all (fun x => Name.isBlank_of_isDigit) hw
      · intro x hx
        rw [← List.cons_append, List.getLast?_append, List.getLast?_cons] at hx
        have : x ∈ fs.getLast? := by
          cases fs with
          | nil => exact absurd rfl hne
          | cons y ys => simpa [List.getLast?_cons] using hx
        exact Name.isBlank_of_isDigit (hfs x (List.mem_of_getLast? this))
    · split at h
      · next hq =>
        split at h
        · next hl =>
          obtain ⟨-, rfl⟩ := Prod.mk.inj (Except.ok.inj h)
          have hlast := getLast?_literal? hl
          rw [List.take_left] at hlast
          intro x hx
          rw [List.getLast?_cons, hlast] at hx
          obtain rfl : c = x := by simpa using hx
          exact hc
        · cases h
      · split at h
        · next hl =>
          obtain ⟨-, rfl⟩ := Prod.mk.inj (Except.ok.inj h)
          obtain ⟨-, hn | ⟨hn, d, hd, hblank⟩⟩ := symbol?_chars hl
          · obtain rfl := List.length_eq_zero_iff.mp hn
            exact of_all (p := fun _ => false) (by simp) (by simp)
          · obtain ⟨y, rfl⟩ := List.length_eq_one_iff.mp hn
            obtain rfl : y = d := by simpa using hd
            intro x hx
            obtain rfl : y = x := by simpa using hx
            exact hblank
        · cases h

end Lexeme

/-! ## Tilings -/

/-- Blanks, the characters of a lexeme and its token. -/
structure Tile where
  gap : List Char
  body : List Char
  token : Token

/-- Whether `c :: w` is read as one lexeme where `rest` follows. -/
def Begins (c : Char) (w : List Char) (token : Token) (rest : List Char) : Prop :=
  Text.isBlank c = false ∧ Lexeme.first 0 c (w ++ rest) = .ok (token, w.length)

inductive Tiling : List Char → List Tile → Prop
  | blanks {cs : List Char} (blank : ∀ c ∈ cs, Text.isBlank c = true) : Tiling cs []
  | tile {gap w rest : List Char} {c : Char} {token : Token} {tiles : List Tile}
      (blank : ∀ c ∈ gap, Text.isBlank c = true) (begins : Begins c w token rest)
      (tiling : Tiling rest tiles) : Tiling (gap ++ (c :: w ++ rest)) (⟨gap, c :: w, token⟩ :: tiles)

theorem Tiling.begin {c : Char} {w rest : List Char} {token : Token} {tiles : List Tile}
    (h : Tiling rest tiles) (begins : Begins c w token rest) :
    Tiling (c :: w ++ rest) (⟨[], c :: w, token⟩ :: tiles) := by
  have blank : ∀ x ∈ ([] : List Char), Text.isBlank x = true := by simp
  exact Tiling.tile blank begins h

/-- The lexemes of a tiling whose text starts at an offset. -/
def Tile.locate (offset : Nat) : List Tile → List Lexeme
  | [] => []
  | t :: ts =>
    let start := offset + Text.byteSize t.gap
    let stop := start + Text.byteSize t.body
    ⟨t.token, start, stop⟩ :: locate stop ts

@[simp] theorem map_token_locate (offset : Nat) (tiles : List Tile) :
    (Tile.locate offset tiles).map Lexeme.token = tiles.map Tile.token := by
  induction tiles generalizing offset with
  | nil => rfl
  | cons t ts ih => simp [Tile.locate, ih]

namespace Lexeme

theorem scanFrom_skip (offset : Nat) (w rest : List Char) :
    scanFrom offset w.length (w ++ rest) = scanFrom (offset + Text.byteSize w) 0 rest := by
  induction w generalizing offset with
  | nil => rfl
  | cons c w ih =>
    simp only [List.length_cons, List.cons_append, scanFrom, ih, Text.byteSize, Nat.add_assoc]

theorem scanFrom_blanks (offset : Nat) {gap : List Char} (rest : List Char)
    (blank : ∀ c ∈ gap, Text.isBlank c = true) :
    scanFrom offset 0 (gap ++ rest) = scanFrom (offset + Text.byteSize gap) 0 rest := by
  induction gap generalizing offset with
  | nil => rfl
  | cons c gap ih =>
    have hc : Text.isBlank c = true := blank c (by simp)
    simp only [List.cons_append, scanFrom, hc, if_true]
    rw [ih _ fun x hx => blank x (by simp [hx])]
    simp only [Text.byteSize, Nat.add_assoc]

theorem scanFrom_of_tiling {cs : List Char} {tiles : List Tile} (h : Tiling cs tiles)
    (offset : Nat) : scanFrom offset 0 cs = .ok (Tile.locate offset tiles) := by
  induction h generalizing offset with
  | @blanks cs blank =>
    have := scanFrom_blanks offset [] blank
    rw [List.append_nil] at this
    rw [this]
    rfl
  | @tile gap w rest c token tiles blank begins tiling ih =>
    rw [scanFrom_blanks _ _ blank, List.cons_append]
    simp only [scanFrom, begins.1, first_offset _ begins.2, scanFrom_skip, ih, Tile.locate,
      Except.map, List.take_left, Text.byteSize, Bool.false_eq_true, if_false, Nat.add_assoc]

theorem tiling_cons_blank {c : Char} {cs : List Char} {tiles : List Tile} (h : Tiling cs tiles)
    (blank : Text.isBlank c = true) :
    ∃ tiles', Tiling (c :: cs) tiles' ∧
      ∀ offset, Tile.locate offset tiles' = Tile.locate (offset + c.utf8Size) tiles := by
  cases h with
  | blanks h => exact ⟨[], .blanks (by simpa [blank] using h), fun _ => rfl⟩
  | @tile gap w rest c' token tiles h begins tiling =>
    refine ⟨⟨c :: gap, c' :: w, token⟩ :: tiles, ?_, ?_⟩
    · have h' : ∀ x ∈ c :: gap, Text.isBlank x = true := by simpa [blank] using h
      exact Tiling.tile h' begins tiling
    · intro offset
      simp only [Tile.locate, Text.byteSize, Nat.add_assoc]

theorem tiling_of_scanFrom {offset : Nat} {cs : List Char} {ts : List Lexeme}
    (h : scanFrom offset 0 cs = .ok ts) :
    ∃ tiles, Tiling cs tiles ∧ ts = Tile.locate offset tiles := by
  induction hn : cs.length using Nat.strong_induction_on generalizing offset cs ts with
  | _ n ih =>
    cases cs with
    | nil =>
      rw [scanFrom] at h
      exact ⟨[], .blanks (by simp), (Except.ok.inj h).symm⟩
    | cons c cs =>
      rw [scanFrom] at h
      split at h
      · next blank =>
        obtain ⟨tiles, tiling, rfl⟩ := ih cs.length (by simp [← hn]) h rfl
        obtain ⟨tiles', tiling', located⟩ := tiling_cons_blank tiling blank
        exact ⟨tiles', tiling', (located offset).symm⟩
      · next blank =>
        split at h
        · cases h
        · next token n hfirst =>
          obtain ⟨us, hus, rfl⟩ : ∃ us, scanFrom (offset + c.utf8Size) n cs = .ok us ∧
              (⟨token, offset, offset + c.utf8Size + Text.byteSize (cs.take n)⟩ : Lexeme) :: us
                = ts := by
            cases hs : scanFrom (offset + c.utf8Size) n cs with
            | error fault => simp [hs, Except.map] at h
            | ok us => exact ⟨us, rfl, by simpa [hs, Except.map] using h⟩
          obtain ⟨w, rest, rfl, rfl⟩ : ∃ w rest, cs = w ++ rest ∧ n = w.length :=
            ⟨cs.take n, cs.drop n, by simp, by simp [length_first hfirst]⟩
          rw [scanFrom_skip] at hus
          have shorter : rest.length < (c :: (w ++ rest)).length := by
            rw [List.length_cons, List.length_append]
            omega
          obtain ⟨tiles, tiling, rfl⟩ := ih rest.length (hn ▸ shorter) hus rfl
          have begins : Begins c w token rest :=
            ⟨by simpa using blank, first_offset 0 hfirst⟩
          refine ⟨⟨[], c :: w, token⟩ :: tiles, tiling.begin begins, ?_⟩
          simp only [Tile.locate, Text.byteSize, List.take_left, Nat.add_assoc, Nat.add_zero]

theorem scan_eq_ok_iff {cs : List Char} {ts : List Lexeme} :
    scan cs = .ok ts ↔ ∃ tiles, Tiling cs tiles ∧ ts = Tile.locate 0 tiles := by
  refine ⟨tiling_of_scanFrom, ?_⟩
  rintro ⟨tiles, tiling, rfl⟩
  exact scanFrom_of_tiling tiling 0

end Lexeme

end RelationalAlgebra.Predicate
