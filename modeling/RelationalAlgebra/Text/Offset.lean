/-!
# Byte offsets

Positions in a text are counted in bytes of its UTF-8 form.  A slice between two offsets that lie
on character boundaries is the text between them.
-/

namespace RelationalAlgebra.Text

def byteSize : List Char → Nat
  | [] => 0
  | c :: cs => c.utf8Size + byteSize cs

def dropBytes : Nat → List Char → List Char
  | 0, cs => cs
  | _ + 1, [] => []
  | n + 1, c :: cs => dropBytes (n + 1 - c.utf8Size) cs

def takeBytes : Nat → List Char → List Char
  | 0, _ => []
  | _ + 1, [] => []
  | n + 1, c :: cs => c :: takeBytes (n + 1 - c.utf8Size) cs

def slice (start stop : Nat) (cs : List Char) : List Char :=
  takeBytes (stop - start) (dropBytes start cs)

/-- Whether an offset lies between two characters or at an end of the text. -/
def isBoundary (offset : Nat) : List Char → Bool
  | [] => offset = 0
  | c :: cs => offset = 0 || (c.utf8Size ≤ offset && isBoundary (offset - c.utf8Size) cs)

def slice? (start stop : Nat) (cs : List Char) : Option (List Char) :=
  if isBoundary start cs && isBoundary stop cs then some (slice start stop cs) else none

theorem byteSize_append (as bs : List Char) :
    byteSize (as ++ bs) = byteSize as + byteSize bs := by
  induction as with
  | nil => simp [byteSize]
  | cons a as ih => simp [byteSize, ih, Nat.add_assoc]

theorem dropBytes_byteSize (as bs : List Char) : dropBytes (byteSize as) (as ++ bs) = bs := by
  induction as with
  | nil => simp [byteSize, dropBytes]
  | cons a as ih =>
    obtain ⟨n, hn⟩ : ∃ n, byteSize (a :: as) = n + 1 :=
      ⟨byteSize (a :: as) - 1, by have := a.utf8Size_pos; simp only [byteSize]; omega⟩
    rw [hn, List.cons_append, dropBytes]
    have : n + 1 - a.utf8Size = byteSize as := by rw [← hn, byteSize]; omega
    rw [this, ih]

theorem takeBytes_byteSize (as bs : List Char) : takeBytes (byteSize as) (as ++ bs) = as := by
  induction as with
  | nil => simp [byteSize, takeBytes]
  | cons a as ih =>
    obtain ⟨n, hn⟩ : ∃ n, byteSize (a :: as) = n + 1 :=
      ⟨byteSize (a :: as) - 1, by have := a.utf8Size_pos; simp only [byteSize]; omega⟩
    rw [hn, List.cons_append, takeBytes]
    have : n + 1 - a.utf8Size = byteSize as := by rw [← hn, byteSize]; omega
    rw [this, ih]

theorem isBoundary_byteSize (as bs : List Char) : isBoundary (byteSize as) (as ++ bs) = true := by
  induction as with
  | nil => cases bs <;> simp [byteSize, isBoundary]
  | cons a as ih =>
    simp only [List.cons_append, isBoundary, byteSize]
    have : a.utf8Size + byteSize as - a.utf8Size = byteSize as := by omega
    simp [this, ih]

theorem slice_append (as bs cs : List Char) :
    slice (byteSize as) (byteSize as + byteSize bs) (as ++ (bs ++ cs)) = bs := by
  simp [slice, dropBytes_byteSize, takeBytes_byteSize]

theorem slice?_append (as bs cs : List Char) :
    slice? (byteSize as) (byteSize as + byteSize bs) (as ++ (bs ++ cs)) = some bs := by
  have stop := isBoundary_byteSize (as ++ bs) cs
  rw [byteSize_append, List.append_assoc] at stop
  rw [slice?, isBoundary_byteSize, stop, slice_append]
  rfl

end RelationalAlgebra.Text
