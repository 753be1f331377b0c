import RelationalAlgebra.Date
import RelationalAlgebra.Text.Digit
/-!
# Numbers, dates and times of TOML

Of a number, a date or a time no more is kept than that it is one, so the readers give only what follows.
A number may end only where no character of a number follows; a date and a time end after their last digit
or after the offset from universal time.
-/

namespace RelationalAlgebra.Toml

/-! ## Numbers -/

/-- Digits, in groups that single underscores separate. -/
def areDigits (isDigit : Char → Bool) (cs : List Char) : Bool :=
  (Text.pieces '_' cs).all fun group => group ≠ [] && group.all isDigit

def dropUnderscores (cs : List Char) : List Char := cs.filter (· ≠ '_')

def isWhole (cs : List Char) : Bool :=
  areDigits Text.isDigit cs && (cs.head? ≠ some '0' || cs.length = 1)

/-- The integers have 64 bits: their magnitude is below this one, which only a minus allows. -/
def integerBound : Nat := Nat.pow 2 63

def isIntegerIn (base : Nat) (cs : List Char) : Bool :=
  areDigits (Text.isDigitIn base) cs && Text.valueIn base (dropUnderscores cs) < integerBound

def isInteger : List Char → Bool
  | '0' :: 'x' :: cs => isIntegerIn 16 cs
  | '0' :: 'o' :: cs => isIntegerIn 8 cs
  | '0' :: 'b' :: cs => isIntegerIn 2 cs
  | cs =>
    let (negative, digits) := Text.sign cs
    isWhole digits &&
      Text.natValue (dropUnderscores digits) < integerBound + (if negative then 1 else 0)

def isExponent (cs : List Char) : Bool := areDigits Text.isDigit (Text.sign cs).2

def isPointed (cs : List Char) : Bool :=
  let (mantissa, exponent?) := match Text.cutAt 'e' (cs.map Char.toLower) with
    | some (mantissa, exponent) => (mantissa, some exponent)
    | none => (cs, none)
  exponent?.all isExponent &&
    match Text.cutAt '.' mantissa with
    | some (whole, fraction) => isWhole whole && areDigits Text.isDigit fraction
    | none => exponent?.isSome && isWhole mantissa

/-- Whether a number has a value; numbers too large for one that is finite have none. -/
def hasValue (cs : List Char) : Bool :=
  (Binary64.ofText? (dropUnderscores cs)).any fun x => x.isFinite || x.negative

def isReal (cs : List Char) : Bool :=
  let body := (Text.sign cs).2
  body = ['i', 'n', 'f'] || body = ['n', 'a', 'n'] || isPointed body && hasValue cs

def isNumberPart (c : Char) : Bool := c.isAlphanum || ['_', '-', '.', '+'].contains c

def afterNumber? (cs : List Char) : Option (List Char) :=
  let number := cs.takeWhile isNumberPart
  if isInteger number || isReal number then some (cs.dropWhile isNumberPart) else none

/-! ## Dates and times -/

/-- The number that a count of digits at the start of a text denotes, if it lies between two others. -/
def bounded? (count least greatest : Nat) (cs : List Char) : Option (Nat × List Char) :=
  let digits := cs.take count
  let value := Text.natValue digits
  if digits.length = count && digits.all Text.isDigit && least ≤ value && value ≤ greatest then
    some (value, cs.drop count)
  else none

def after? (sign : Char) : List Char → Option (List Char)
  | [] => none
  | c :: cs => if c = sign then some cs else none

def afterDay? (cs : List Char) : Option (List Char) := do
  let (year, cs) ← bounded? 4 0 9999 cs
  let (month, cs) ← bounded? 2 1 12 (← after? '-' cs)
  let (_, cs) ← bounded? 2 1 (Calendar.monthLength year month) (← after? '-' cs)
  some cs

def afterMinute? (cs : List Char) : Option (List Char) := do
  let (_, cs) ← bounded? 2 0 23 cs
  let (_, cs) ← bounded? 2 0 59 (← after? ':' cs)
  some cs

def afterFraction : List Char → List Char
  | '.' :: cs => if cs.takeWhile Text.isDigit = [] then '.' :: cs else cs.dropWhile Text.isDigit
  | cs => cs

/-- What follows a time; a minute may have a second more for a leap. -/
def afterTime? (cs : List Char) : Option (List Char) := do
  let cs ← afterMinute? cs
  let (_, cs) ← bounded? 2 0 60 (← after? ':' cs)
  some (afterFraction cs)

def afterOffset (cs : List Char) : List Char :=
  match cs with
  | [] => []
  | c :: rest =>
    if c = 'Z' || c = 'z' then rest
    else if c = '+' || c = '-' then (afterMinute? rest).getD cs
    else cs

def afterMoment? (cs : List Char) : Option (List Char) :=
  match afterDay? cs with
  | none => afterTime? cs
  | some [] => some []
  | some (c :: rest) =>
    let time? := if ['T', 't', ' '].contains c then afterTime? rest else none
    some ((time?.map afterOffset).getD (c :: rest))

end RelationalAlgebra.Toml
