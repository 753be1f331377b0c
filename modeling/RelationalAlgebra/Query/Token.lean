import RelationalAlgebra.Query.Operator
import RelationalAlgebra.Text.Quoted
/-!
# Tokens of queries

A query text is a list of tokens, in which the text between a pair of parentheses is one token.
-/

namespace RelationalAlgebra.Query

inductive Token where
  | relation (name : String)
  | binary (operator : Binary)
  | unary (operator : Unary)
  | parameter (text : String)
  | group (tokens : List Token)
  | unknown (text : String)

namespace Token

def unknown? : Token → Option String
  | unknown text => some text
  | _ => none

def binary? : Token → Option Binary
  | binary op => some op
  | _ => none

def unary? : Token → Option Unary
  | unary op => some op
  | _ => none

mutual

def write : Token → String
  | relation name => name
  | binary op => op.symbol.toString
  | unary op => op.symbol.toString
  | parameter text => text
  | group ts => "(" ++ writeAll ts ++ ")"
  | unknown text => text

def writeAll : List Token → String
  | [] => ""
  | [t] => t.write
  | t :: ts => t.write ++ " " ++ writeAll ts

end

mutual

def tagged : Token → String
  | relation name => "rel:" ++ name
  | binary op => "bin:" ++ op.symbol.toString
  | unary op => "un:" ++ op.symbol.toString
  | parameter text => "param:" ++ Text.quoted text
  | group ts => "[" ++ taggedAll ts ++ "]"
  | unknown text => "unk:" ++ Text.quoted text

def taggedAll : List Token → String
  | [] => ""
  | [t] => t.tagged
  | t :: ts => t.tagged ++ " " ++ taggedAll ts

end

end Token

end RelationalAlgebra.Query
