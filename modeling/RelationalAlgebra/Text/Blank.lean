/-!
# Blanks

The blank characters are those with the Unicode property `White_Space`.  Every trimming in the
library removes exactly these, so names, parameters, predicates and raw cells agree on what
surrounds them.
-/

namespace RelationalAlgebra.Text

def isBlank (c : Char) : Bool :=
  let n := c.toNat
  (9 ≤ n && n ≤ 13) || n == 0x20 || n == 0x85 || n == 0xA0 || n == 0x1680 ||
    (0x2000 ≤ n && n ≤ 0x200A) || n == 0x2028 || n == 0x2029 || n == 0x202F ||
    n == 0x205F || n == 0x3000

def dropBlanks (cs : List Char) : List Char := cs.dropWhile isBlank

def dropTrailingBlanks (cs : List Char) : List Char :=
  (cs.reverse.dropWhile isBlank).reverse

def trim (cs : List Char) : List Char := dropTrailingBlanks (dropBlanks cs)

def trimmed (s : String) : String := String.ofList (trim s.toList)

def trimmedEnd (s : String) : String := String.ofList (dropTrailingBlanks s.toList)

end RelationalAlgebra.Text
