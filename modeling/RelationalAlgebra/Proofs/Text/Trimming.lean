import Mathlib.Data.List.TakeWhile
import RelationalAlgebra.Text.Blank
/-!
# Trimming

Trimming takes blanks from both ends of a text and leaves one that has none there.
-/

namespace RelationalAlgebra.Text

-- what holds for the characters of a list is decided on the list, not on all characters that there are
instance (priority := 2000) decidableForallMem (p : Char → Prop) [DecidablePred p] (cs : List Char) :
    Decidable (∀ c ∈ cs, p c) := List.decidableBAll p cs

instance (priority := 2000) decidableForallMem? (p : Char → Prop) [DecidablePred p] (c? : Option Char) :
    Decidable (∀ c ∈ c?, p c) := Option.decidableForallMem c?

def Tight (cs : List Char) : Prop := ∀ c ∈ cs.getLast?, isBlank c = false

instance (cs : List Char) : Decidable (Tight cs) :=
  inferInstanceAs (Decidable (∀ c ∈ cs.getLast?, isBlank c = false))

theorem Tight.nil : Tight [] := fun c hc => by cases hc

theorem Tight.append {as bs : List Char} (ha : Tight as) (hb : Tight bs) : Tight (as ++ bs) := by
  intro c hc
  rcases Option.or_eq_some_iff.mp (List.getLast?_append ▸ hc) with last | ⟨-, last⟩
  · exact hb c last
  · exact ha c last

theorem Tight.append_left {bs : List Char} (h : Tight bs) (ne : bs ≠ []) (as : List Char) :
    Tight (as ++ bs) := by
  intro c hc
  rcases Option.or_eq_some_iff.mp (List.getLast?_append ▸ hc) with last | ⟨none, -⟩
  · exact h c last
  · exact absurd (List.getLast?_eq_none_iff.mp none) ne

theorem Tight.concat {c : Char} (h : isBlank c = false) (as : List Char) : Tight (as ++ [c]) := by
  intro x hx
  obtain rfl : c = x := by simpa using hx
  exact h

theorem Tight.of_append {as bs : List Char} (h : Tight (as ++ bs)) : Tight bs := by
  intro c hc
  refine h c ?_
  rw [List.getLast?_append, Option.mem_def.mp hc]
  rfl

structure Trimmed (cs : List Char) : Prop where
  head : ∀ c ∈ cs.head?, isBlank c = false
  last : Tight cs

theorem Trimmed.append {as bs : List Char} (ha : Trimmed as) (ne : as ≠ []) (hb : Tight bs) :
    Trimmed (as ++ bs) := by
  refine ⟨?_, ha.last.append hb⟩
  obtain ⟨a, as, rfl⟩ := List.exists_cons_of_ne_nil ne
  exact ha.head

theorem dropBlanks_split (cs : List Char) :
    ∃ front, (∀ c ∈ front, isBlank c = true) ∧ cs = front ++ dropBlanks cs :=
  ⟨cs.takeWhile isBlank, fun _ hc => List.mem_takeWhile_imp hc, List.takeWhile_append_dropWhile.symm⟩

theorem dropTrailingBlanks_split (cs : List Char) :
    ∃ back, (∀ c ∈ back, isBlank c = true) ∧ cs = dropTrailingBlanks cs ++ back := by
  refine ⟨(cs.reverse.takeWhile isBlank).reverse,
    fun c hc => List.mem_takeWhile_imp (List.mem_reverse.mp hc), ?_⟩
  rw [dropTrailingBlanks, ← List.reverse_append, List.takeWhile_append_dropWhile, List.reverse_reverse]

theorem trim_split (cs : List Char) : ∃ front back, (∀ c ∈ front, isBlank c = true) ∧
    (∀ c ∈ back, isBlank c = true) ∧ cs = front ++ (trim cs ++ back) := by
  obtain ⟨front, hfront, split⟩ := dropBlanks_split cs
  obtain ⟨back, hback, split'⟩ := dropTrailingBlanks_split (dropBlanks cs)
  exact ⟨front, back, hfront, hback, by rw [trim, ← split', ← split]⟩

theorem head?_dropWhile_isBlank (cs : List Char) :
    ∀ c ∈ (cs.dropWhile isBlank).head?, isBlank c = false := by
  intro c hc
  have := List.head?_dropWhile_not isBlank cs
  rw [Option.mem_def.mp hc] at this
  simpa using this

theorem trimmed_trim (cs : List Char) : Trimmed (trim cs) := by
  refine ⟨fun c hc => ?_, ?_⟩
  · obtain ⟨rest, heq⟩ := List.head?_eq_some_iff.mp (Option.mem_def.mp hc)
    obtain ⟨back, -, split⟩ := dropTrailingBlanks_split (dropBlanks cs)
    rw [show dropTrailingBlanks (dropBlanks cs) = c :: rest from heq] at split
    refine head?_dropWhile_isBlank cs c ?_
    rw [show cs.dropWhile isBlank = c :: rest ++ back from split]
    rfl
  · rw [Tight, trim, dropTrailingBlanks, List.getLast?_reverse]
    exact head?_dropWhile_isBlank _

theorem trim_append {front p back : List Char} (trimmed : Trimmed p)
    (hfront : ∀ c ∈ front, isBlank c = true) (hback : ∀ c ∈ back, isBlank c = true) :
    trim (front ++ (p ++ back)) = p := by
  have drop {gap cs : List Char} (blank : ∀ c ∈ gap, isBlank c = true)
      (head : ∀ c ∈ cs.head?, isBlank c = false) : (gap ++ cs).dropWhile isBlank = cs := by
    rw [List.dropWhile_append_of_pos blank]
    cases cs with
    | nil => rfl
    | cons c cs => rw [List.dropWhile_cons_of_neg (by simp [head c rfl])]
  have trailing : dropTrailingBlanks (p ++ back) = p := by
    rw [dropTrailingBlanks, List.reverse_append, drop, List.reverse_reverse]
    · exact fun c hc => hback c (List.mem_reverse.mp hc)
    · rw [List.head?_reverse]
      exact trimmed.last
  cases p with
  | nil =>
    have all : ∀ c ∈ front ++ ([] ++ back), isBlank c = true := by
      simpa using fun c hc => hc.elim (hfront c) (hback c)
    rw [trim, dropBlanks, List.dropWhile_eq_nil_iff.mpr all]
    rfl
  | cons c cs =>
    have head : ∀ x ∈ (c :: cs ++ back).head?, isBlank x = false := trimmed.head
    rw [trim, dropBlanks, drop hfront head, trailing]

theorem trim_of_trimmed {p : List Char} (h : Trimmed p) : trim p = p := by
  have := trim_append h (List.forall_mem_nil _) (List.forall_mem_nil _)
  rwa [List.nil_append, List.append_nil] at this

theorem trimmed_of_not_blank {cs : List Char} (h : ∀ c ∈ cs, isBlank c = false) : Trimmed cs :=
  ⟨fun c hc => h c (List.mem_of_head? hc), fun c hc => h c (List.mem_of_getLast? hc)⟩

theorem trim_of_not_blank {cs : List Char} (h : ∀ c ∈ cs, isBlank c = false) : trim cs = cs :=
  trim_of_trimmed (trimmed_of_not_blank h)

theorem trim_append_blanks (cs : List Char) {back : List Char} (blank : ∀ c ∈ back, isBlank c = true) :
    trim (cs ++ back) = trim cs := by
  obtain ⟨front, back', hfront, hback', split⟩ := trim_split cs
  have both : ∀ c ∈ back' ++ back, isBlank c = true := List.forall_mem_append.mpr ⟨hback', blank⟩
  have trimmed := trim_append (trimmed_trim cs) hfront both
  rwa [← List.append_assoc (trim cs), ← List.append_assoc front, ← split] at trimmed

theorem mem_trim {c : Char} {cs : List Char} (hc : c ∈ cs) (h : isBlank c = false) : c ∈ trim cs := by
  obtain ⟨front, back, hfront, hback, split⟩ := trim_split cs
  rw [split] at hc
  have notBlank : isBlank c ≠ true := by simp [h]
  rcases List.mem_append.mp hc with hc | hc
  · exact absurd (hfront c hc) notBlank
  · exact (List.mem_append.mp hc).resolve_right fun hc => notBlank (hback c hc)

theorem dropTrailingBlanks_cons {c : Char} (h : isBlank c = false) (cs : List Char) :
    dropTrailingBlanks (c :: cs) = c :: dropTrailingBlanks cs := by
  rw [dropTrailingBlanks, dropTrailingBlanks, List.reverse_cons, List.dropWhile_append]
  split
  · next none => simp [h, List.isEmpty_iff.mp none]
  · simp

theorem trim_cons {c : Char} (h : isBlank c = false) (cs : List Char) :
    trim (c :: cs) = c :: dropTrailingBlanks cs := by
  rw [trim, dropBlanks, List.dropWhile_cons_of_neg (by simp [h]), dropTrailingBlanks_cons h]

theorem dropTrailingBlanks_append (as : List Char) {bs : List Char} {c : Char} (hc : c ∈ bs)
    (h : isBlank c = false) : dropTrailingBlanks (as ++ bs) = as ++ dropTrailingBlanks bs := by
  have some : (bs.reverse.dropWhile isBlank).isEmpty = false := by
    simpa [List.dropWhile_eq_nil_iff] using ⟨c, hc, h⟩
  rw [dropTrailingBlanks, List.reverse_append, List.dropWhile_append, some]
  simp [dropTrailingBlanks]

end RelationalAlgebra.Text
