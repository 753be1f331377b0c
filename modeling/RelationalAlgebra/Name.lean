/-!
# Names

Attributes and relations have names: an ASCII letter or an underscore, then letters, digits and
underscores.  The words of the predicate language are no names.
-/

namespace RelationalAlgebra

namespace Name

def isStart (c : Char) : Bool :=
  ('A' ≤ c && c ≤ 'Z') || ('a' ≤ c && c ≤ 'z') || c = '_'

def isPart (c : Char) : Bool := isStart c || ('0' ≤ c && c ≤ '9')

/-- The words that a predicate gives a meaning to. -/
def reserved : List String := ["and", "or", "not", "True", "False"]

def isValid (name : String) : Bool :=
  match name.toList with
  | [] => false
  | c :: cs => isStart c && cs.all isPart && !reserved.contains name

/-- An ascending list of names with one more, unless it is there already. -/
def insert (name : String) : List String → List String
  | [] => [name]
  | n :: ns =>
    if name < n then name :: n :: ns
    else if name = n then n :: ns
    else n :: insert name ns

def sorted (names : List String) : List String := names.foldl (fun ns n => insert n ns) []

theorem mem_insert {name x : String} {ns : List String} :
    x ∈ insert name ns ↔ x = name ∨ x ∈ ns := by
  induction ns with
  | nil => simp [insert]
  | cons n ns ih =>
    rw [insert]
    split
    · simp
    · split
      · next h => simp [h]
      · simp [ih, or_left_comm]

theorem mem_sorted {x : String} {names : List String} : x ∈ sorted names ↔ x ∈ names := by
  have general (acc : List String) :
      x ∈ names.foldl (fun ns n => insert n ns) acc ↔ x ∈ acc ∨ x ∈ names := by
    induction names generalizing acc with
    | nil => simp
    | cons n ns ih => simp only [List.foldl_cons, ih, mem_insert, List.mem_cons, or_assoc, or_left_comm]
  simpa [sorted] using general []

def subset (names others : List String) : Bool := names.all others.contains

def sameSet (names others : List String) : Bool := subset names others && subset others names

end Name

end RelationalAlgebra
