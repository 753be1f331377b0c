import RelationalAlgebra.Cell.Reading
import RelationalAlgebra.Proofs.Name.Characters
import RelationalAlgebra.Proofs.Text.Pieces
/-!
# Texts of whole numbers and dates

Whole numbers are read back from the texts that are written for them, and so are dates, as long as the year
is not negative, which no date that has been read is.  A text that is read as a whole number is read as a
float as well, and one that is read as a date is read as no number.
-/

namespace RelationalAlgebra

/-! ## Digits -/

namespace Text

theorem isDigit_eq (c : Char) : isDigit c = c.isDigit := by
  simp only [isDigit, Char.isDigit, Char.le_def, UInt32.le_iff_toNat_le, ge_iff_le]

theorem digits_toDigits (n : Nat) : ∀ c ∈ Nat.toDigits 10 n, isDigit c = true := by
  intro c hc
  rw [isDigit_eq]
  exact Nat.isDigit_of_mem_toDigits (by decide) (by decide) hc

theorem natValue_toDigits (n : Nat) : natValue (Nat.toDigits 10 n) = n :=
  Nat.ofDigitChars_ten_toDigits

theorem natValue_zeros_append (k : Nat) (ds : List Char) :
    natValue (List.replicate k '0' ++ ds) = natValue ds := by
  induction k with
  | zero => rfl
  | succ k ih =>
    rw [List.replicate_succ, List.cons_append]
    exact ih

theorem sign_of_digit {c : Char} (h : isDigit c = true) (cs : List Char) :
    sign (c :: cs) = (false, c :: cs) := by
  unfold sign
  split
  · next heq =>
    obtain ⟨rfl, -⟩ := List.cons.inj heq
    cases h
  · next heq =>
    obtain ⟨rfl, -⟩ := List.cons.inj heq
    cases h
  · rfl

theorem takeWhile_digits_append {ds : List Char} (digits : ∀ c ∈ ds, isDigit c = true) {c : Char}
    (h : isDigit c = false) (rest : List Char) :
    (ds ++ c :: rest).takeWhile isDigit = ds ∧ (ds ++ c :: rest).dropWhile isDigit = c :: rest := by
  constructor
  · rw [List.takeWhile_append_of_pos digits, List.takeWhile_cons_of_neg (by simp [h]), List.append_nil]
  · rw [List.dropWhile_append_of_pos digits, List.dropWhile_cons_of_neg (by simp [h])]

theorem isSome_decimal?_of_digits {ds : List Char} (ne : ds ≠ [])
    (digits : ∀ c ∈ ds, isDigit c = true) : (decimal? ds).isSome = true := by
  have taken : ds.takeWhile isDigit = ds := List.takeWhile_eq_self_iff.mpr digits
  have dropped : ds.dropWhile isDigit = [] := List.dropWhile_eq_nil_iff.mpr digits
  unfold decimal?
  rw [taken, dropped]
  simp [ne, exponent?]

theorem decimal?_eq_none_of_digits {ds : List Char} (digits : ∀ c ∈ ds, isDigit c = true) {c : Char}
    (h : c = '-' ∨ c = '/' ∨ c = '\\') (rest : List Char) : decimal? (ds ++ c :: rest) = none := by
  have others : isDigit c = false ∧ c ≠ '.' ∧ c ≠ 'e' ∧ c ≠ 'E' := by
    rcases h with rfl | rfl | rfl <;> decide
  obtain ⟨notDigit, notPoint, notE, notE'⟩ := others
  obtain ⟨taken, dropped⟩ := takeWhile_digits_append digits notDigit rest
  have exponent : exponent? (c :: rest) = none := by simp [exponent?, notE, notE']
  unfold decimal?
  rw [taken, dropped]
  simp [notPoint, exponent]

/-! ## Whole numbers -/

theorem digits_of_int64? {cs : List Char} {v : Int64} (h : int64? cs = some v) :
    (sign cs).2 ≠ [] ∧ ∀ c ∈ (sign cs).2, isDigit c = true := by
  simp only [int64?] at h
  split at h
  · next digits => exact ⟨digits.1, List.all_eq_true.mp digits.2⟩
  · cases h

theorem int64?_of_sign {cs ds : List Char} {neg : Bool} (h : sign cs = (neg, ds)) (ne : ds ≠ [])
    (digits : ∀ c ∈ ds, isDigit c = true) :
    int64? cs = Whole.fit? (if neg then -(natValue ds : Int) else natValue ds) := by
  simp only [int64?, h]
  exact if_pos ⟨ne, List.all_eq_true.mpr digits⟩

theorem isSome_float?_of_int64? {cs : List Char} (h : (int64? cs).isSome = true) :
    (float? cs).isSome = true := by
  obtain ⟨v, hv⟩ := Option.isSome_iff_exists.mp h
  obtain ⟨ne, digits⟩ := digits_of_int64? hv
  rw [float?, Option.isSome_map]
  exact isSome_decimal?_of_digits ne digits

end Text

theorem Whole.fit?_toInt (v : Int64) : fit? v.toInt = some v := by
  have range : least ≤ v.toInt ∧ v.toInt ≤ greatest :=
    ⟨Int64.le_toInt v, by have := Int64.toInt_lt v; unfold greatest; omega⟩
  rw [fit?, if_pos range, Int64.ofInt_toInt]

theorem Text.int64?_toString (v : Int64) : int64? (toString v.toInt).toList = some v := by
  have fits := Whole.fit?_toInt v
  cases h : v.toInt with
  | ofNat n =>
    have text : (toString (Int.ofNat n)).toList = Nat.toDigits 10 n := Nat.toList_repr
    have ne : Nat.toDigits 10 n ≠ [] := Nat.toDigits_ne_nil
    have unsigned : sign (Nat.toDigits 10 n) = (false, Nat.toDigits 10 n) := by
      obtain ⟨d, ds, heq⟩ := List.exists_cons_of_ne_nil ne
      rw [heq]
      exact sign_of_digit (digits_toDigits n d (heq ▸ List.mem_cons_self ..)) ds
    rw [text, int64?_of_sign unsigned ne (digits_toDigits n), natValue_toDigits, ← fits, h]
    rfl
  | negSucc n =>
    have text : (toString (Int.negSucc n)).toList = '-' :: Nat.toDigits 10 (n + 1) := by
      simp [toString, Int.repr]
    have signed : sign ('-' :: Nat.toDigits 10 (n + 1)) = (true, Nat.toDigits 10 (n + 1)) := rfl
    rw [text, int64?_of_sign signed Nat.toDigits_ne_nil (digits_toDigits _), natValue_toDigits, ← fits, h]
    rfl

theorem Text.mem_toString {v : Int} {c : Char} (h : c ∈ (toString v).toList) :
    isDigit c = true ∨ c = '-' := by
  cases v with
  | ofNat n =>
    have text : (toString (Int.ofNat n)).toList = Nat.toDigits 10 n := Nat.toList_repr
    rw [text] at h
    exact .inl (digits_toDigits n c h)
  | negSucc n =>
    have text : (toString (Int.negSucc n)).toList = '-' :: Nat.toDigits 10 (n + 1) := by
      simp [toString, Int.repr]
    rw [text] at h
    exact (List.mem_cons.mp h).symm.imp_left (digits_toDigits _ c)

/-! ## Dates -/

namespace Date

theorem digits_padded (width n : Nat) : ∀ c ∈ padded width n, Text.isDigit c = true := by
  intro c hc
  unfold padded at hc
  rw [show (toString n).toList = Nat.toDigits 10 n from Nat.toList_repr] at hc
  rcases List.mem_append.mp hc with hc | hc
  · rw [List.eq_of_mem_replicate hc]
    rfl
  · exact Text.digits_toDigits n c hc

theorem natValue_padded (width n : Nat) : Text.natValue (padded width n) = n := by
  unfold padded
  rw [show (toString n).toList = Nat.toDigits 10 n from Nat.toList_repr]
  exact (Text.natValue_zeros_append _ _).trans (Text.natValue_toDigits n)

theorem allDigits_padded (width n : Nat) : allDigits (padded width n) = true := by
  have ne : padded width n ≠ [] := by
    unfold padded
    rw [show (toString n).toList = Nat.toDigits 10 n from Nat.toList_repr]
    exact List.append_ne_nil_of_right_ne_nil _ Nat.toDigits_ne_nil
  unfold allDigits
  rw [decide_eq_true ne, Bool.true_and]
  exact List.all_eq_true.mpr (digits_padded width n)

theorem separator_notMem_padded {sep : Char} (h : Text.isDigit sep = false) (width n : Nat) :
    sep ∉ padded width n := by
  intro hsep
  rw [digits_padded width n sep hsep] at h
  cases h

theorem toList_write {d : Date} (h : 0 ≤ d.year) : d.write.toList =
    padded 4 d.year.natAbs ++ '-' :: (padded 2 d.month ++ '-' :: padded 2 d.day) := by
  simp [write, Int.not_lt.mpr h]

theorem mem_write {d : Date} (h : 0 ≤ d.year) {c : Char} (hc : c ∈ d.write.toList) :
    Text.isDigit c = true ∨ c = '-' := by
  rw [toList_write h] at hc
  simp only [List.mem_append, List.mem_cons] at hc
  rcases hc with hc | hc | hc | hc | hc
  · exact .inl (digits_padded _ _ c hc)
  · exact .inr hc
  · exact .inl (digits_padded _ _ c hc)
  · exact .inr hc
  · exact .inl (digits_padded _ _ c hc)

theorem ofText?_write {d : Date} (h : 0 ≤ d.year) : ofText? d.write.toList = some d := by
  have hyphen : ('-' : Char) ∉ padded 4 d.year.natAbs ∧ '-' ∉ padded 2 d.month ∧ '-' ∉ padded 2 d.day :=
    ⟨separator_notMem_padded rfl _ _, separator_notMem_padded rfl _ _, separator_notMem_padded rfl _ _⟩
  have separator : separator? d.write.toList = some '-' := by
    rw [toList_write h]
    simp [separator?]
  have pieces : Text.pieces '-' d.write.toList =
      [padded 4 d.year.natAbs, padded 2 d.month, padded 2 d.day] := by
    rw [toList_write h, Text.pieces_append, Text.pieces_append, Text.pieces_of_notMem hyphen.1,
      Text.pieces_of_notMem hyphen.2.1, Text.pieces_of_notMem hyphen.2.2]
    rfl
  have year : (d.year.natAbs : Int) = d.year := Int.natAbs_of_nonneg h
  unfold ofText?
  rw [separator]
  simp only
  rw [pieces]
  simp only [allDigits_padded, Bool.and_self, if_true, natValue_padded, year]
  exact dif_pos ⟨d.year_mem, d.month_mem, d.day_mem⟩

/-- Dates are read from digits, a separator, digits, the separator again and digits. -/
theorem ofText?_eq_some {cs : List Char} {d : Date} (h : ofText? cs = some d) :
    0 ≤ d.year ∧ ∃ year sep rest, cs = year ++ sep :: rest ∧ year ≠ [] ∧
      (∀ c ∈ year, Text.isDigit c = true) ∧ (sep = '-' ∨ sep = '/' ∨ sep = '\\') := by
  unfold ofText? at h
  split at h
  · cases h
  · next sep separator =>
    split at h
    · next year month day pieces =>
      split at h
      · next digits =>
        have whole := Text.intercalate_pieces sep cs
        rw [pieces, List.intercalate_cons_cons, List.append_assoc, List.singleton_append] at whole
        have one : sep ∈ ['-', '/', '\\'] := List.mem_of_find?_eq_some separator
        have first : allDigits year = true := by
          simp only [Bool.and_eq_true] at digits
          exact digits.1.1
        simp only [allDigits, Bool.and_eq_true, decide_eq_true_eq, List.all_eq_true] at first
        refine ⟨?_, year, sep, _, whole.symm, first.1, first.2, by simpa using one⟩
        unfold ofCalendar? at h
        split at h
        · obtain rfl := Option.some.inj h
          exact Int.natCast_nonneg _
        · cases h
      · cases h
    · cases h

end Date

/-- A text that is read as a date is read as no number. -/
theorem Text.float?_eq_none_of_date {cs : List Char} {d : Date} (h : Date.ofText? cs = some d) :
    float? cs = none := by
  obtain ⟨-, year, sep, rest, rfl, ne, digits, separator⟩ := Date.ofText?_eq_some h
  obtain ⟨c, year, rfl⟩ := List.exists_cons_of_ne_nil ne
  have unsigned : sign (c :: year ++ sep :: rest) = (false, c :: year ++ sep :: rest) :=
    sign_of_digit (digits c (List.mem_cons_self ..)) _
  rw [float?, unsigned]
  simp only
  rw [decimal?_eq_none_of_digits digits separator]
  rfl

theorem Text.int64?_eq_none_of_date {cs : List Char} {d : Date} (h : Date.ofText? cs = some d) :
    int64? cs = none := by
  cases read : int64? cs with
  | none => rfl
  | some v =>
    have whole : (int64? cs).isSome = true := by rw [read, Option.isSome_some]
    have number := isSome_float?_of_int64? whole
    rw [float?_eq_none_of_date h] at number
    cases number

/-! ## Kinds -/

namespace Kind

/-- The kinds that a text can be read as.  Whole numbers are decimal numbers as well; dates are neither. -/
def admitted (raw : String) : List Kind :=
  let cs := Text.trim raw.toList
  if (Text.int64? cs).isSome then [int, float, text]
  else if (Text.float? cs).isSome then [float, text]
  else if (Date.ofText? cs).isSome then [date, text]
  else [text]

theorem mem_admitted_iff {kind : Kind} {raw : String} :
    kind ∈ admitted raw ↔ kind.admits raw = true := by
  have admits : kind.admits raw = true ↔ (kind.read? (Text.trim raw.toList)).isSome = true := Iff.rfl
  rw [admits]
  unfold admitted
  generalize Text.trim raw.toList = cs
  by_cases number : (Text.float? cs).isSome = true
  · have noDate : Date.ofText? cs = none := by
      cases read : Date.ofText? cs with
      | none => rfl
      | some d =>
        rw [Text.float?_eq_none_of_date read] at number
        cases number
    by_cases whole : (Text.int64? cs).isSome = true
    · rw [if_pos whole]
      cases kind <;> simp [read?, whole, number, noDate]
    · rw [if_neg whole, if_pos number]
      cases kind <;> simp [read?, Option.not_isSome_iff_eq_none.mp whole, number, noDate]
  · have notWhole : (Text.int64? cs).isSome ≠ true :=
      fun whole => number (Text.isSome_float?_of_int64? whole)
    rw [if_neg notWhole, if_neg number]
    by_cases day : (Date.ofText? cs).isSome = true
    · rw [if_pos day]
      cases kind <;> simp [read?, Option.not_isSome_iff_eq_none.mp notWhole,
        Option.not_isSome_iff_eq_none.mp number, day]
    · rw [if_neg day]
      cases kind <;> simp [read?, Option.not_isSome_iff_eq_none.mp notWhole,
        Option.not_isSome_iff_eq_none.mp number, Option.not_isSome_iff_eq_none.mp day]

/-- The kind of a column is found in one pass over its texts, which strikes out the kinds that a text does not
admit. -/
theorem ofColumn_eq_strike (column : List String) :
    ofColumn column =
      (column.foldl (fun left raw => left.filter (· ∈ admitted raw)) all).head?.getD text := by
  have strike (left : List Kind) :
      column.foldl (fun left raw => left.filter (· ∈ admitted raw)) left =
        left.filter fun kind => column.all kind.admits := by
    induction column generalizing left with
    | nil => exact (List.filter_eq_self.mpr fun _ _ => rfl).symm
    | cons raw column ih =>
      rw [List.foldl_cons, ih, List.filter_filter]
      refine List.filter_congr fun kind _ => ?_
      rw [List.all_cons, Bool.and_comm, Bool.eq_iff_iff, Bool.and_eq_true, Bool.and_eq_true,
        decide_eq_true_eq, mem_admitted_iff]
  rw [strike, List.head?_filter, ofColumn]

end Kind

end RelationalAlgebra
