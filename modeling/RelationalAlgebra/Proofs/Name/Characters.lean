import Mathlib.Tactic.Common
import RelationalAlgebra.Name
import RelationalAlgebra.Number.Decimal
import RelationalAlgebra.Text.Blank
/-!
# The characters of names

The characters of a name are no blanks, no quotes and no parentheses, and none of the words that have a
meaning in predicates is a name.
-/

namespace RelationalAlgebra.Name

theorem isPart_of_isStart {c : Char} (h : isStart c = true) : isPart c = true := by
  simp [isPart, h]

theorem isPart_of_isDigit {c : Char} (h : Text.isDigit c = true) : isPart c = true := by
  have digit : ('0' ≤ c && c ≤ '9') = true := h
  simp [isPart, digit]

theorem isDigit_of_isStart {c : Char} (h : isStart c = true) : Text.isDigit c = false := by
  have above : 65 ≤ c.toNat := by
    simp only [isStart, Bool.or_eq_true, Bool.and_eq_true, decide_eq_true_eq, Char.le_def,
      UInt32.le_iff_toNat_le] at h
    rcases h with (⟨h, -⟩ | ⟨h, -⟩) | rfl
    · exact h
    · exact Nat.le_trans (by decide) h
    · decide
  simp only [Text.isDigit, Char.le_def, UInt32.le_iff_toNat_le, Bool.and_eq_false_imp,
    decide_eq_true_eq, decide_eq_false_iff_not]
  intro _ below
  have : c.toNat ≤ 57 := below
  omega

theorem isBlank_of_isPart {c : Char} (h : isPart c = true) : Text.isBlank c = false := by
  have bounds : 48 ≤ c.toNat ∧ c.toNat ≤ 122 := by
    simp only [isPart, isStart, Bool.or_eq_true, Bool.and_eq_true, decide_eq_true_eq,
      Char.le_def, UInt32.le_iff_toNat_le] at h
    rcases h with ((⟨h, h'⟩ | ⟨h, h'⟩) | rfl) | ⟨h, h'⟩
    · exact ⟨Nat.le_trans (by decide) h, Nat.le_trans h' (by decide)⟩
    · exact ⟨Nat.le_trans (by decide) h, Nat.le_trans h' (by decide)⟩
    · decide
    · exact ⟨Nat.le_trans (by decide) h, Nat.le_trans h' (by decide)⟩
  obtain ⟨low, high⟩ := bounds
  generalize hn : c.toNat = n at low high
  simp only [Text.isBlank, hn, Bool.or_eq_false_iff, Bool.and_eq_false_iff, decide_eq_false_iff_not,
    beq_eq_false_iff_ne]
  omega

theorem isPart_of_isBlank {c : Char} (h : Text.isBlank c = true) : isPart c = false := by
  by_contra part
  rw [isBlank_of_isPart (by simpa using part)] at h
  cases h

theorem isBlank_of_isDigit {c : Char} (h : Text.isDigit c = true) : Text.isBlank c = false :=
  isBlank_of_isPart (isPart_of_isDigit h)

theorem plain_of_isPart {c : Char} (h : isPart c = true) :
    c ≠ '(' ∧ c ≠ ')' ∧ c ≠ '\'' ∧ c ≠ '"' := by
  refine ⟨?_, ?_, ?_, ?_⟩
  all_goals
    rintro rfl
    cases h

/-! ## Valid names -/

variable {name : String}

theorem exists_cons_of_isValid (h : isValid name = true) :
    ∃ c cs, name.toList = c :: cs ∧ isStart c = true ∧ ∀ x ∈ cs, isPart x = true := by
  unfold isValid at h
  split at h
  · cases h
  · next c cs heq =>
    simp only [Bool.and_eq_true, List.all_eq_true] at h
    exact ⟨c, cs, heq, h.1.1, h.1.2⟩

theorem free_of_isValid (h : isValid name = true) : reserved.contains name = false := by
  unfold isValid at h
  split at h
  · cases h
  · simp only [Bool.and_eq_true, Bool.not_eq_true'] at h
    exact h.2

theorem isPart_of_isValid (h : isValid name = true) : ∀ c ∈ name.toList, isPart c = true := by
  obtain ⟨c, cs, heq, start, parts⟩ := exists_cons_of_isValid h
  rw [heq]
  exact List.forall_mem_cons.mpr ⟨isPart_of_isStart start, parts⟩

theorem notMem_of_isValid (h : isValid name = true) {c : Char} (hc : isPart c = false) :
    c ∉ name.toList := by
  intro mem
  rw [isPart_of_isValid h c mem] at hc
  cases hc

end RelationalAlgebra.Name
