import RelationalAlgebra.Proofs.Text.Trimming
import RelationalAlgebra.Text.Piece
/-!
# Pieces

A text is cut at separators and at nothing else, so parts that have none come out of it as they went in.
-/

namespace RelationalAlgebra.Text

theorem pieces_append (sep : Char) (a b : List Char) :
    pieces sep (a ++ sep :: b) = pieces sep a ++ pieces sep b := by
  induction a with
  | nil => simp [pieces]
  | cons c a ih =>
    rw [List.cons_append, pieces, pieces]
    by_cases separator : c = sep
    · rw [if_pos separator, if_pos separator, ih, List.cons_append]
    · obtain ⟨piece, rest, heq⟩ := List.exists_cons_of_ne_nil (pieces_ne_nil sep a)
      rw [if_neg separator, if_neg separator, ih, heq]
      rfl

theorem pieces_of_notMem {sep : Char} {a : List Char} (h : sep ∉ a) : pieces sep a = [a] := by
  induction a with
  | nil => rfl
  | cons c a ih =>
    obtain ⟨hc, ha⟩ : c ≠ sep ∧ sep ∉ a := by simpa [eq_comm] using h
    rw [pieces, if_neg hc, ih ha]

theorem pieces_intercalate {sep : Char} {parts : List (List Char)} (ne : parts ≠ [])
    (h : ∀ part ∈ parts, sep ∉ part) : pieces sep ([sep].intercalate parts) = parts := by
  induction parts with
  | nil => exact absurd rfl ne
  | cons a parts ih =>
    have first := h a (List.mem_cons_self ..)
    cases parts with
    | nil => simpa using pieces_of_notMem first
    | cons b parts =>
      have later := ih (by simp) fun part hp => h part (List.mem_cons_of_mem _ hp)
      rw [List.intercalate_cons_cons, List.append_assoc, List.singleton_append, pieces_append,
        pieces_of_notMem first, later]
      rfl

theorem intercalate_pieces (sep : Char) (cs : List Char) : [sep].intercalate (pieces sep cs) = cs := by
  induction cs with
  | nil => rfl
  | cons c cs ih =>
    obtain ⟨piece, rest, heq⟩ := List.exists_cons_of_ne_nil (pieces_ne_nil sep cs)
    rw [pieces]
    split
    · next separator =>
      rw [heq, List.intercalate_cons_cons, ← heq, ih, separator]
      rfl
    · rw [heq] at ih ⊢
      cases rest with
      | nil => simpa using ih
      | cons next rest =>
        rw [List.intercalate_cons_cons] at ih ⊢
        rw [← ih]
        rfl

theorem cutAt_append {sep : Char} {a : List Char} (h : sep ∉ a) (b : List Char) :
    cutAt sep (a ++ sep :: b) = some (a, b) := by
  induction a with
  | nil => simp [cutAt]
  | cons c a ih =>
    obtain ⟨hc, ha⟩ : c ≠ sep ∧ sep ∉ a := by simpa [eq_comm] using h
    rw [List.cons_append, cutAt, if_neg hc, ih ha]
    rfl

theorem exists_mem_pieces {sep c : Char} {cs : List Char} (hc : c ∈ cs) (ne : c ≠ sep) :
    ∃ piece ∈ pieces sep cs, c ∈ piece := by
  induction cs with
  | nil => cases hc
  | cons d cs ih =>
    obtain ⟨first, rest, heq⟩ := List.exists_cons_of_ne_nil (pieces_ne_nil sep cs)
    rw [pieces]
    by_cases separator : d = sep
    · have other : c ≠ d := fun same => ne (same.trans separator)
      obtain ⟨piece, hpiece, inside⟩ := ih ((List.mem_cons.mp hc).resolve_left other)
      rw [if_pos separator]
      exact ⟨piece, List.mem_cons_of_mem _ hpiece, inside⟩
    · rw [if_neg separator, heq]
      rcases List.mem_cons.mp hc with rfl | hc
      · exact ⟨c :: first, List.mem_cons_self, List.mem_cons_self⟩
      · obtain ⟨piece, hpiece, inside⟩ := ih hc
        rw [heq] at hpiece
        rcases List.mem_cons.mp hpiece with rfl | hpiece
        · exact ⟨d :: piece, List.mem_cons_self, List.mem_cons_of_mem _ inside⟩
        · exact ⟨piece, List.mem_cons_of_mem _ hpiece, inside⟩

theorem trim_dropReturn (line : List Char) : trim (dropReturn line) = trim line := by
  unfold dropReturn
  split
  · next last =>
    obtain ⟨front, rfl⟩ := List.getLast?_eq_some_iff.mp last
    have ending : ∀ c ∈ ['\r'], isBlank c = true := by decide
    rw [List.dropLast_concat, trim_append_blanks front ending]
  · rfl

end RelationalAlgebra.Text
