import RelationalAlgebra.Proofs.Cell.Comparison
import RelationalAlgebra.Proofs.Number.Overflow
/-!
# Texts of decimal numbers

However a number is laid out, its text is read as a decimal again, and that decimal stands for the same
number.  The text of a decimal has no blanks and no sign in front, and where it keeps a point or an exponent
it is no whole number.
-/

namespace RelationalAlgebra

namespace Decimal

theorem value_mul_pow (n k : Nat) (e : Int) : value ⟨n * 10 ^ k, e⟩ = value ⟨n, e + k⟩ := by
  rw [value, value, zpow_add₀ (by norm_num), zpow_natCast]
  push_cast
  ring

end Decimal

/-! ## Reading decimals -/

namespace Text

variable {whole fraction rest ds cs : List Char}

theorem takeWhile_digits (digits : ∀ c ∈ ds, isDigit c = true)
    (stop : ∀ c ∈ rest.head?, isDigit c = false) :
    (ds ++ rest).takeWhile isDigit = ds ∧ (ds ++ rest).dropWhile isDigit = rest := by
  cases rest with
  | nil =>
    rw [List.append_nil]
    exact ⟨List.takeWhile_eq_self_iff.mpr digits, List.dropWhile_eq_nil_iff.mpr digits⟩
  | cons c rest => exact takeWhile_digits_append digits (stop c rfl) rest

theorem decimal?_of_whole (ne : whole ≠ []) (digits : ∀ c ∈ whole, isDigit c = true)
    (stop : ∀ c ∈ rest.head?, isDigit c = false ∧ c ≠ '.') :
    decimal? (whole ++ rest) = (exponent? rest).map fun e => ⟨natValue whole, e⟩ := by
  obtain ⟨taken, dropped⟩ := takeWhile_digits digits fun c hc => (stop c hc).1
  unfold decimal?
  rw [taken, dropped]
  cases rest with
  | nil => simp [ne]
  | cons c rest => simp [ne, (stop c rfl).2]

theorem decimal?_of_point (ne : whole ≠ []) (digits : ∀ c ∈ whole, isDigit c = true)
    (digits' : ∀ c ∈ fraction, isDigit c = true) (stop : ∀ c ∈ rest.head?, isDigit c = false) :
    decimal? (whole ++ '.' :: (fraction ++ rest)) =
      (exponent? rest).map fun e => ⟨natValue (whole ++ fraction), e - fraction.length⟩ := by
  have point : isDigit '.' = false := rfl
  obtain ⟨taken, dropped⟩ := takeWhile_digits_append digits point (fraction ++ rest)
  obtain ⟨taken', dropped'⟩ := takeWhile_digits digits' stop
  simp only [decimal?, taken, dropped, taken', dropped', ne, false_and, if_false]

theorem natValue_append_zeros (ds : List Char) (k : Nat) :
    natValue (ds ++ List.replicate k '0') = natValue ds * 10 ^ k := by
  induction k with
  | zero => simp
  | succ k ih =>
    rw [List.replicate_succ', ← List.append_assoc, natValue, List.foldl_append, ← natValue, ih,
      Nat.pow_succ, ← Nat.mul_assoc, Nat.mul_comm _ 10]
    rfl

theorem toList_natCast (n : Nat) : (toString (n : Int)).toList = Nat.toDigits 10 n := Nat.toList_repr

theorem sign_toString (v : Int) : sign (toString v).toList = (decide (v < 0), Nat.toDigits 10 v.natAbs) := by
  cases v with
  | ofNat n =>
    obtain ⟨d, ds, heq⟩ := List.exists_cons_of_ne_nil (@Nat.toDigits_ne_nil n 10)
    have digit : isDigit d = true := digits_toDigits n d (heq ▸ List.mem_cons_self ..)
    rw [show (toString (Int.ofNat n)).toList = d :: ds from (toList_natCast n).trans heq, sign_of_digit digit,
      ← heq]
    rfl
  | negSucc n =>
    have text : (toString (Int.negSucc n)).toList = '-' :: Nat.toDigits 10 (n + 1) := by
      simp [toString, Int.repr]
    rw [text, decide_eq_true (Int.negSucc_lt_zero n)]
    rfl

theorem exponent?_of_sign {n : Nat} {neg : Bool} (h : sign cs = (neg, Nat.toDigits 10 n)) :
    exponent? ('e' :: cs) = some (if neg then -(n : Int) else n) := by
  have digits : (Nat.toDigits 10 n).all isDigit = true := List.all_eq_true.mpr (digits_toDigits n)
  simp [exponent?, h, Nat.toDigits_ne_nil, digits, natValue_toDigits]

theorem exponent?_toString (signed : Bool) (v : Int) :
    exponent? ('e' :: ((if signed && 0 ≤ v then ['+'] else []) ++ (toString v).toList)) = some v := by
  split
  · next plus =>
    obtain ⟨n, rfl⟩ := Int.eq_ofNat_of_zero_le (of_decide_eq_true (Bool.and_eq_true_iff.mp plus).2)
    rw [toList_natCast]
    exact exponent?_of_sign (show sign ('+' :: Nat.toDigits 10 n) = (false, _) from rfl)
  · rw [List.nil_append, exponent?_of_sign (sign_toString v)]
    congr 1
    rcases Int.lt_or_le v 0 with negative | nonneg
    · rw [decide_eq_true negative, if_pos rfl]
      omega
    · rw [decide_eq_false (Int.not_lt.mpr nonneg), if_neg Bool.false_ne_true]
      omega

theorem mem_sign {c : Char} (hc : c ∈ cs) : c = '-' ∨ c = '+' ∨ c ∈ (sign cs).2 := by
  unfold sign
  split
  · exact (List.mem_cons.mp hc).imp_right .inr
  · exact .inr (List.mem_cons.mp hc)
  · exact .inr (.inr hc)

theorem isBlank_of_digits (digits : ∀ c ∈ ds, isDigit c = true) : ∀ c ∈ ds, isBlank c = false :=
  fun c hc => Name.isBlank_of_isDigit (digits c hc)

theorem isBlank_of_exponent? (h : (exponent? cs).isSome = true) : ∀ c ∈ cs, isBlank c = false := by
  cases cs with
  | nil => exact List.forall_mem_nil _
  | cons letter cs =>
    simp only [exponent?] at h
    split at h
    · next isLetter =>
      split at h
      · next digits =>
        have letters : isBlank letter = false := by
          rcases Bool.or_eq_true_iff.mp isLetter with e | e <;> rw [of_decide_eq_true e] <;> rfl
        refine List.forall_mem_cons.mpr ⟨letters, fun c hc => ?_⟩
        rcases mem_sign hc with rfl | rfl | hc
        · rfl
        · rfl
        · exact isBlank_of_digits (List.all_eq_true.mp digits.2) c hc
      · cases h
    · cases h

theorem isBlank_of_decimal? (h : (decimal? cs).isSome = true) : ∀ c ∈ cs, isBlank c = false := by
  have run (cs : List Char) : ∀ c ∈ cs.takeWhile isDigit, isBlank c = false :=
    isBlank_of_digits fun _ hc => List.mem_takeWhile_imp hc
  rw [← @List.takeWhile_append_dropWhile _ isDigit cs]
  refine List.forall_mem_append.mpr ⟨run cs, ?_⟩
  unfold decimal? at h
  generalize cs.dropWhile isDigit = rest at h ⊢
  have guarded {p : Prop} [Decidable p] {o : Option Int} {f : Int → Decimal}
      (h : (if p then none else o.map f).isSome = true) : o.isSome = true := by
    split at h
    · cases h
    · rwa [Option.isSome_map] at h
  simp only at h
  split at h
  · next rest =>
    rw [← @List.takeWhile_append_dropWhile _ isDigit rest]
    exact List.forall_mem_cons.mpr
      ⟨rfl, List.forall_mem_append.mpr ⟨run rest, isBlank_of_exponent? (guarded h)⟩⟩
  · exact isBlank_of_exponent? (guarded h)

theorem sign_of_decimal? (h : (decimal? cs).isSome = true) : sign cs = (false, cs) := by
  unfold sign
  split
  · simp [decimal?, isDigit] at h
  · simp [decimal?, isDigit] at h
  · rfl

theorem sign_of_minus (minus : Bool) (h : (decimal? cs).isSome = true) :
    sign ((if minus then ['-'] else []) ++ cs) = (minus, cs) := by
  cases minus with
  | false => exact sign_of_decimal? h
  | true => rfl

theorem isSome_float?_of_decimal? (minus : Bool) (h : (decimal? cs).isSome = true) :
    (float? ((if minus then ['-'] else []) ++ cs)).isSome = true := by
  rw [float?, sign_of_minus minus h, Option.isSome_map]
  exact h

theorem int64?_eq_none_of_decimal? (minus : Bool) (h : (decimal? cs).isSome = true)
    (mixed : ∃ c ∈ cs, isDigit c = false) : int64? ((if minus then ['-'] else []) ++ cs) = none := by
  obtain ⟨c, hc, notDigit⟩ := mixed
  have some : ¬cs.all isDigit = true := fun all => by simp [List.all_eq_true.mp all c hc] at notDigit
  simp only [int64?, sign_of_minus minus h]
  exact if_neg fun digits => some digits.2

/-! ## Shapes of digits -/

theorem take_ne_nil {k : Nat} (ne : ds ≠ []) (pos : 0 < k) : ds.take k ≠ [] := by
  rw [Ne, List.take_eq_nil_iff]
  exact not_or.mpr ⟨pos.ne', ne⟩

theorem digits_take (digits : ∀ c ∈ ds, isDigit c = true) (k : Nat) :
    (∀ c ∈ ds.take k, isDigit c = true) ∧ ∀ c ∈ ds.drop k, isDigit c = true :=
  ⟨fun c hc => digits c (List.mem_of_mem_take hc), fun c hc => digits c (List.mem_of_mem_drop hc)⟩

section

variable (ne : ds ≠ []) (digits : ∀ c ∈ ds, isDigit c = true)

include ne digits

theorem decimal?_point (digits' : ∀ c ∈ fraction, isDigit c = true) :
    decimal? (ds ++ '.' :: fraction) = some ⟨natValue (ds ++ fraction), -fraction.length⟩ := by
  have h := @decimal?_of_point _ _ [] ne digits digits' (by simp)
  rwa [List.append_nil, show exponent? [] = some 0 from rfl, Option.map_some, zero_sub] at h

theorem decimal?_zeros (k : Nat) (point : Bool) :
    ∃ d, decimal? (ds ++ List.replicate k '0' ++ (if point then ['.', '0'] else [])) = some d ∧
      d.value = Decimal.value ⟨natValue ds, k⟩ := by
  have ne' : ds ++ List.replicate k '0' ≠ [] := List.append_ne_nil_of_left_ne_nil ne _
  have digits' : ∀ c ∈ ds ++ List.replicate k '0', isDigit c = true :=
    List.forall_mem_append.mpr ⟨digits, fun c hc => (List.eq_of_mem_replicate hc).symm ▸ rfl⟩
  cases point with
  | false =>
    refine ⟨_, decimal?_of_whole ne' digits' (by simp), ?_⟩
    rw [natValue_append_zeros, Decimal.value_mul_pow, zero_add]
  | true =>
    refine ⟨_, decimal?_point ne' digits' (by decide), ?_⟩
    rw [List.append_assoc, ← List.replicate_succ', natValue_append_zeros, Decimal.value_mul_pow]
    congr 2
    simp

theorem decimal?_split {k : Nat} (pos : 0 < k) : decimal? (ds.take k ++ '.' :: ds.drop k) =
    some ⟨natValue ds, -(ds.length - k : Nat)⟩ := by
  obtain ⟨before, behind⟩ := digits_take digits k
  rw [decimal?_point (take_ne_nil ne pos) before behind, List.take_append_drop, List.length_drop]

omit ne in
theorem decimal?_leading (k : Nat) : decimal? ('0' :: '.' :: (List.replicate k '0' ++ ds)) =
    some ⟨natValue ds, -(k + ds.length)⟩ := by
  have digits' : ∀ c ∈ List.replicate k '0' ++ ds, isDigit c = true :=
    List.forall_mem_append.mpr ⟨fun c hc => (List.eq_of_mem_replicate hc).symm ▸ rfl, digits⟩
  have value : natValue (['0'] ++ (List.replicate k '0' ++ ds)) = natValue ds :=
    natValue_zeros_append (k + 1) ds
  have h := @decimal?_point (List.replicate k '0' ++ ds) ['0'] (by decide) (by decide) digits'
  rwa [value, List.length_append, List.length_replicate, Nat.cast_add] at h

theorem decimal?_scientific {tail : List Char} {v : Int} (exponent : exponent? ('e' :: cs) = some v)
    (point : ds.drop 1 = [] ∧ tail = [] ∨ tail = '.' :: ds.drop 1) :
    decimal? (ds.take 1 ++ (tail ++ 'e' :: cs)) = some ⟨natValue ds, v - (ds.length - 1 : Nat)⟩ := by
  have first := take_ne_nil ne Nat.one_pos
  obtain ⟨before, behind⟩ := digits_take digits 1
  rcases point with ⟨single, rfl⟩ | rfl
  · have whole : ds.take 1 = ds := by
      have := List.take_append_drop 1 ds
      rwa [single, List.append_nil] at this
    have length : ds.length - 1 = 0 := by rw [← List.length_drop, single, List.length_nil]
    rw [List.nil_append, decimal?_of_whole first before (by rintro c ⟨⟩; decide), exponent, whole, length]
    simp
  · rw [List.cons_append, decimal?_of_point first before behind (by rintro c ⟨⟩; decide), exponent,
      List.take_append_drop, List.length_drop]
    rfl

end

end Text

/-! ## Layouts -/

namespace Layout

open Text (isDigit natValue decimal? digits_toDigits)

variable {layout : Layout} {ds : List Char}

/-- The four ways in which a number is laid out. -/
theorem digits_cases (layout : Layout) (d : Decimal) {first : Int}
    (hds : Nat.toDigits 10 d.significand = ds) (hfirst : d.exponent + ds.length - 1 = first) :
    0 ≤ d.exponent ∧ layout.digits d =
        ds ++ zeros d.exponent.toNat ++ (if layout.pointed then ['.', '0'] else []) ∨
      d.exponent < 0 ∧ 0 ≤ first ∧ layout.digits d =
        ds.take (first.toNat + 1) ++ '.' :: ds.drop (first.toNat + 1) ∨
      first < 0 ∧ layout.digits d = '0' :: '.' :: (zeros (-first - 1).toNat ++ ds) ∨
      ∃ tail, (ds.drop 1 = [] ∧ tail = [] ∨ tail = '.' :: ds.drop 1) ∧ layout.digits d =
        ds.take 1 ++ (tail ++ 'e' :: ((if layout.signed && 0 ≤ first then ['+'] else []) ++
          (toString first).toList)) := by
  have text : (toString d.significand).toList = ds := hds ▸ Nat.toList_repr
  have laidOut : layout.digits d = _ ∨ layout.digits d = _ := ite_eq_or_eq ..
  simp only [text, hfirst] at laidOut
  rcases laidOut with positional | scientific
  · split at positional
    · next whole => exact .inl ⟨whole, positional⟩
    · next tenths =>
      split at positional
      · next inside => exact .inr (.inl ⟨by omega, inside, positional⟩)
      · next outside => exact .inr (.inr (.inl ⟨by omega, positional⟩))
  · refine .inr (.inr (.inr ?_))
    simp only [List.append_assoc, List.cons_append] at scientific
    split at scientific
    · next single => exact ⟨[], .inl ⟨single, rfl⟩, scientific⟩
    · exact ⟨_, .inr rfl, scientific⟩

theorem decimal?_digits (layout : Layout) (d : Decimal) :
    ∃ e, Text.decimal? (layout.digits d) = some e ∧ e.value = d.value := by
  obtain ⟨ds, hds⟩ : ∃ ds, Nat.toDigits 10 d.significand = ds := ⟨_, rfl⟩
  have ne : ds ≠ [] := hds ▸ Nat.toDigits_ne_nil
  have digits : ∀ c ∈ ds, isDigit c = true := hds ▸ digits_toDigits _
  have value : natValue ds = d.significand := hds ▸ Text.natValue_toDigits _
  have length : 0 < ds.length := List.length_pos_iff.mpr ne
  rcases digits_cases layout d hds rfl with ⟨whole, h⟩ | ⟨tenths, inside, h⟩ | ⟨outside, h⟩ | ⟨tail, point, h⟩
  · obtain ⟨e, read, same⟩ := Text.decimal?_zeros ne digits d.exponent.toNat layout.pointed
    refine ⟨e, h ▸ read, same.trans ?_⟩
    rw [value, Int.toNat_of_nonneg whole]
  · refine ⟨_, h ▸ Text.decimal?_split ne digits (Nat.succ_pos _), ?_⟩
    rw [value]
    congr 2
    omega
  · refine ⟨_, h ▸ Text.decimal?_leading digits _, ?_⟩
    rw [value]
    congr 2
    omega
  · refine ⟨_, h ▸ Text.decimal?_scientific ne digits (Text.exponent?_toString _ _) point, ?_⟩
    rw [value]
    congr 2
    omega

/-- A layout that keeps the point never writes digits alone. -/
theorem exists_mem_digits (pointed : layout.pointed = true) (d : Decimal) :
    ∃ c ∈ layout.digits d, Text.isDigit c = false := by
  rcases digits_cases layout d rfl rfl with ⟨-, h⟩ | ⟨-, -, h⟩ | ⟨-, h⟩ | ⟨tail, -, h⟩
  · exact ⟨'.', by simp [h, pointed], rfl⟩
  · exact ⟨'.', by simp [h], rfl⟩
  · exact ⟨'.', by simp [h], rfl⟩
  · exact ⟨'e', by simp [h], rfl⟩

theorem toList_write {x : Binary64} (finite : x.isFinite = true) :
    ∃ d, (layout.write x).toList = (if x.negative then ['-'] else []) ++ layout.digits d := by
  rw [write, Binary64.isNaN_of_isFinite finite]
  simp only [Bool.false_eq_true, if_false, finite, not_true_eq_false, String.toList_ofList]
  by_cases zero : x.isZero = true
  · exact ⟨⟨0, 0⟩, by rw [if_pos zero]⟩
  · exact ⟨_, by rw [if_neg zero]⟩

end Layout

end RelationalAlgebra
