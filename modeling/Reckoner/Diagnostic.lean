import Reckoner.Token

/-!
# Diagnostics

A diagnostic says what is wrong with an expression and where. Its kind is the cause;
the wording and the advice follow from the cause and the token at fault.
-/

namespace Reckoner

/-- The causes of diagnostics. -/
inductive Diagnostic.Kind
  | operandExpected
  | operatorExpected
  | unknownFunction
  /-- a closing bracket where none is open -/
  | strayClosing
  /-- an opening bracket that is never closed -/
  | unclosed
  | strayCharacter
  | strayInNumber
  | strayInName
  /-- brackets or operators stacked beyond the depth limit -/
  | tooDeep
deriving DecidableEq, Repr, Inhabited

/-- A problem in an expression. -/
structure Diagnostic where
  kind : Diagnostic.Kind
  message : String
  span : Span
  /-- advice on how to mend it -/
  help : Option String
deriving DecidableEq, Repr, Inhabited

namespace Diagnostic

/-- The cause that a stray character in the token list stands for. -/
def Kind.ofStray? : Token.Kind → Option Kind
  | .strayCharacter => some .strayCharacter
  | .strayInNumber => some .strayInNumber
  | .strayInName => some .strayInName
  | _ => none

/-- The advice that goes with a cause. -/
def Kind.help : Kind → Option String
  | operatorExpected => some "Separate operands with an operator such as '+' or '*'"
  | unknownFunction => some "Available functions are sqrt, sin, cos and tan"
  | strayClosing => some "Did you forget a matching '(' earlier?"
  | unclosed => some "Add a ')' to close this bracket"
  | strayInNumber => some "Numbers look like 42, 4.2, 0x2A, 0b101010 or 2^10"
  | strayInName => some "Variable names consist of letters only"
  | operandExpected | strayCharacter | tooDeep => none

/-- The name in the text of a call, without the brackets at its end. -/
def calledName (text : String) : String :=
  String.ofList (text.toList.reverse.dropWhile (· = '(')).reverse

/-- A token as a message names it: operands with their text, others by kind. -/
def describe (t : Token) : String :=
  if t.kind.isOperand then t.kind.describe ++ " '" ++ t.text ++ "'" else t.kind.describe

/-- The wording of a cause at a token. -/
def Kind.message (kind : Kind) (t : Token) : String :=
  match kind with
  | operandExpected => "Expected a number or variable, found " ++ t.kind.describe
  | operatorExpected => "Expected an operator, found " ++ describe t
  | unknownFunction => "Unknown function '" ++ calledName t.text ++ "'"
  | strayClosing => "Unexpected closing bracket"
  | unclosed => "Missing closing bracket"
  | strayCharacter => "Invalid character '" ++ t.text ++ "'"
  | strayInNumber => "Invalid character '" ++ t.text ++ "' in number"
  | strayInName => "Invalid character '" ++ t.text ++ "' in variable name"
  | tooDeep => "Expression is nested too deeply"

/-- A diagnostic with wording of its own. -/
def atSpan (kind : Kind) (span : Span) (message : String) : Diagnostic :=
  ⟨kind, message, span, kind.help⟩

/-- A diagnostic at a token. -/
def atToken (kind : Kind) (t : Token) : Diagnostic := atSpan kind t.span (kind.message t)

/-- The source ends where an operand is due. -/
def unexpectedEnd (span : Span) : Diagnostic :=
  atSpan .operandExpected span "Expected a number or variable, found end of input"

/-- The bracket that a token opens is never closed. -/
def missingClosing (opening : Token) : Diagnostic :=
  let what := if opening.kind = .opening then "(" else opening.text
  atSpan .unclosed opening.span ("Missing closing bracket for '" ++ what ++ "'")

/-- The same diagnostic with other advice. -/
def withHelp (d : Diagnostic) (help : String) : Diagnostic := { d with help := some help }

/-- A token at which the expression exceeds the depth limit. -/
def exceeds (limit : Nat) (t : Token) : Diagnostic :=
  (atSpan .tooDeep t.span s!"Expression is nested deeper than {limit} levels").withHelp
    s!"Split the expression or remove redundant brackets; at most {limit} levels are supported"

@[simp] theorem kind_atToken (kind : Kind) (t : Token) : (atToken kind t).kind = kind := rfl

@[simp] theorem span_atToken (kind : Kind) (t : Token) : (atToken kind t).span = t.span := rfl

@[simp] theorem kind_missingClosing (t : Token) : (missingClosing t).kind = .unclosed := rfl

@[simp] theorem span_missingClosing (t : Token) : (missingClosing t).span = t.span := rfl

@[simp] theorem kind_exceeds (limit : Nat) (t : Token) : (exceeds limit t).kind = .tooDeep := rfl

@[simp] theorem span_exceeds (limit : Nat) (t : Token) : (exceeds limit t).span = t.span := rfl

end Diagnostic

end Reckoner
