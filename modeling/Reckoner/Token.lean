import Reckoner.Span
import Reckoner.Operation
import Reckoner.Literal

/-!
# Tokens

A token is a classified piece of the source with its span. Kinds carry what
they denote: a literal its format, an operator its operation, a call its
function. Problems found while reading the source are tokens too, so that the
source as a whole always has a token list.
-/

namespace Reckoner

/-- What a token is. -/
inductive Token.Kind
  /-- the end of the source -/
  | finish
  /-- a number literal -/
  | literal (format : Literal.Format)
  /-- a variable name -/
  | name
  /-- a binary operator -/
  | operator (op : Operator)
  /-- the name of a known function with its opening bracket -/
  | call (f : Function)
  /-- any other name with an opening bracket -/
  | unknownCall
  /-- an opening bracket -/
  | opening
  /-- a closing bracket -/
  | closing
  /-- a character that begins no token -/
  | strayCharacter
  /-- a character that cannot continue a number -/
  | strayInNumber
  /-- a character that cannot continue a variable name -/
  | strayInName
deriving DecidableEq, Repr, Inhabited

namespace Token.Kind

/-- The kind of a name that is followed by an opening bracket, from its text with
    that bracket. -/
def ofOpener (text : String) : Kind :=
  match Function.ofOpener? text with
  | some f => call f
  | none => unknownCall

/-- Number literals. -/
def isNumber : Kind → Bool
  | literal _ => true
  | _ => false

/-- Number literals and variables. -/
def isOperand : Kind → Bool
  | literal _ | name => true
  | _ => false

/-- Binary operators. -/
def isOperator : Kind → Bool
  | operator _ => true
  | _ => false

/-- Function calls, known or not. -/
def isCall : Kind → Bool
  | call _ | unknownCall => true
  | _ => false

/-- Kinds that open a bracket level. -/
def opensLevel : Kind → Bool
  | opening | call _ | unknownCall => true
  | _ => false

/-- Problems found while reading the source. -/
def isStray : Kind → Bool
  | strayCharacter | strayInNumber | strayInName => true
  | _ => false

/-- Whether tokens of the kind keep their text. Operators, brackets and the end of
    the source are told by their kind alone. -/
def keepsText : Kind → Bool
  | finish | operator _ | opening | closing => false
  | _ => true

/-- The operator denoted, if one is. -/
def operator? : Kind → Option Operator
  | operator op => some op
  | _ => none

/-- The function called, if a known one is. -/
def function? : Kind → Option Function
  | call f => some f
  | _ => none

/-- What the kind is called in messages. -/
def describe : Kind → String
  | finish => "end of input"
  | literal .integer => "integer"
  | literal .decimal => "decimal"
  | literal .binary => "binary number"
  | literal .hexadecimal => "hexadecimal number"
  | literal .power => "exponential number"
  | name => "variable"
  | operator op => "'" ++ op.symbol ++ "'"
  | call f => f.opener
  | unknownCall => "unknown function"
  | opening => "'('"
  | closing => "')'"
  | strayCharacter => "invalid character"
  | strayInNumber => "invalid character in number"
  | strayInName => "invalid character in variable"

end Token.Kind

/-- A piece of the source. -/
structure Token where
  kind : Token.Kind
  /-- the source text, for the kinds that keep it -/
  text : String
  span : Span
deriving DecidableEq, Repr, Inhabited

namespace Token

/-- The marker of the end of the source. -/
def finish (offset : Nat) : Token := ⟨.finish, "", .emptyAt offset⟩

/-- Whether the token marks the end of the source. -/
def isFinish (t : Token) : Bool := t.kind = .finish

/-- The token as a line of a listing. -/
def render (t : Token) : String :=
  if t.text = "" then t.kind.describe ++ " at " ++ t.span.render
  else t.kind.describe ++ " '" ++ t.text ++ "' at " ++ t.span.render

end Token

end Reckoner
