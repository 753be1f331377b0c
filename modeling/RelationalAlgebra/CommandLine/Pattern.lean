/-!
# Patterns

A pattern describes texts.  Of its parts no more is kept than what decides whether it can be used.

Patterns are used without tables of the cases and the kinds of characters beyond ASCII.  So a pattern that
compares characters must not need such a table, and one that compares bytes must not match a part of a
character.
-/

namespace RelationalAlgebra

namespace Pattern

structure Switch where
  letter : Char
  isOn : Bool
deriving DecidableEq

structure Mode where
  /-- Letters match both of their cases. -/
  ignoresCase : Bool := false
  /-- Characters are compared, and not bytes. -/
  isUnicode : Bool := true
  /-- Blanks and comments do not count. -/
  isSpaced : Bool := false
deriving DecidableEq

namespace Mode

def turn (mode : Mode) (switch : Switch) : Mode :=
  match switch.letter with
  | 'i' => { mode with ignoresCase := switch.isOn }
  | 'u' => { mode with isUnicode := switch.isOn }
  | 'x' => { mode with isSpaced := switch.isOn }
  | _ => mode

def apply (mode : Mode) (switches : List Switch) : Mode := switches.foldl turn mode

end Mode

structure Literal where
  char : Char
  /-- Whether it is written as a byte, with two hexadecimal digits. -/
  isByte : Bool
deriving DecidableEq

def Literal.isAscii (l : Literal) : Bool := l.char.toNat < 128

inductive Atom where
  | literal (l : Literal)
  | any
  /-- The start or the end of the text or of a line. -/
  | edge
  /-- A place that is an edge of a word, or one that is not. -/
  | wordEdge
  /-- The digits, the blanks or the characters of words, or all other characters. -/
  | kind (negated : Bool)
deriving DecidableEq

/-- Whether an atom needs no table in a mode, and matches no part of a character. -/
def Atom.isUsable (mode : Mode) : Atom → Bool
  | literal l => if mode.isUnicode then !mode.ignoresCase else !l.isByte || l.isAscii
  | any => mode.isUnicode
  | edge => true
  | wordEdge => !mode.isUnicode
  | kind negated => !mode.isUnicode && !negated

inductive CharSet where
  | nothing
  | literal (l : Literal)
  | range (low high : Literal)
  | kind (negated : Bool)
  /-- A class of ASCII characters that has a name. -/
  | named (negated : Bool)
  | bracket (negated : Bool) (set : CharSet)
  | union (sets : List CharSet)
  /-- The intersection or a difference of two sets. -/
  | combination (left right : CharSet)

namespace CharSet

def depth : CharSet → Nat
  | bracket _ set => set.depth + 1
  | union sets => depthOfAll sets + 1
  | combination left right => max left.depth right.depth + 1
  | _ => 0
where
  depthOfAll : List CharSet → Nat
    | [] => 0
    | set :: sets => max set.depth (depthOfAll sets)

/-- Whether a set needs no table in a mode, and holds no part of a character: of bytes only those of ASCII. -/
def isUsable (mode : Mode) : CharSet → Bool
  | nothing => true
  | literal l => if mode.isUnicode then !mode.ignoresCase else l.isAscii
  | range low high =>
    if mode.isUnicode then !mode.ignoresCase else low.isAscii && high.isAscii
  | kind negated => !mode.isUnicode && !negated
  | named negated => if mode.isUnicode then !mode.ignoresCase else !negated
  | bracket negated set => (mode.isUnicode || !negated) && set.isUsable mode
  | union sets => allUsable mode sets
  | combination left right => left.isUsable mode && right.isUsable mode
where
  allUsable (mode : Mode) : List CharSet → Bool
    | [] => true
    | set :: sets => set.isUsable mode && allUsable mode sets

def ofList : List CharSet → CharSet
  | [] => nothing
  | [set] => set
  | sets => union sets

end CharSet

inductive Opening where
  | plain
  | named (name : String)
  | switched (switches : List Switch)
deriving DecidableEq

end Pattern

inductive Pattern where
  | empty
  | atom (a : Pattern.Atom)
  | oneOf (s : Pattern.CharSet)
  /-- Switches for the rest of the group that they stand in. -/
  | switches (switches : List Pattern.Switch)
  | repetition (p : Pattern)
  | group (opening : Pattern.Opening) (p : Pattern)
  | sequence (ps : List Pattern)
  | choice (ps : List Pattern)

namespace Pattern

def depth : Pattern → Nat
  | oneOf s => s.depth
  | repetition p | group _ p => p.depth + 1
  | sequence ps | choice ps => depthOfAll ps + 1
  | _ => 0
where
  depthOfAll : List Pattern → Nat
    | [] => 0
    | p :: ps => max p.depth (depthOfAll ps)

def depthLimit : Nat := 250

def names : Pattern → List String
  | group (.named name) p => name :: p.names
  | repetition p | group _ p => p.names
  | sequence ps | choice ps => namesOfAll ps
  | _ => []
where
  namesOfAll : List Pattern → List String
    | [] => []
    | p :: ps => p.names ++ namesOfAll ps

/-- The mode behind a pattern that starts in a mode, if it can be used in it.  Switches last up to the end of
their group, also from one branch of a choice to the next. -/
def after? (mode : Mode) : Pattern → Option Mode
  | empty => some mode
  | atom a => if a.isUsable mode then some mode else none
  | oneOf s => if s.isUsable mode then some mode else none
  | switches found => some (mode.apply found)
  | repetition p => p.after? mode
  | group (.switched found) p => (p.after? (mode.apply found)).map fun _ => mode
  | group _ p => (p.after? mode).map fun _ => mode
  | sequence ps | choice ps => afterAll? mode ps
where
  afterAll? (mode : Mode) : List Pattern → Option Mode
    | [] => some mode
    | p :: ps =>
      match p.after? mode with
      | none => none
      | some mode => afterAll? mode ps

/-- Whether a pattern can be used: it is not nested too deeply, no two groups share a name, and every part is
usable in its mode. -/
def isUsable (p : Pattern) : Bool :=
  p.depth ≤ depthLimit && decide p.names.Nodup && (p.after? {}).isSome

def sequenceOf : List Pattern → Pattern
  | [] => empty
  | [p] => p
  | ps => sequence ps

def choiceOf : List Pattern → Pattern
  | [p] => p
  | ps => choice ps

/-- Whether a sign of repetition may follow; switches alone cannot be repeated. -/
def isRepeatable : Pattern → Bool
  | switches _ | empty => false
  | _ => true

end Pattern

end RelationalAlgebra
