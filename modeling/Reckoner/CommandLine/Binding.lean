import Reckoner.Decimal.Reader
import Reckoner.Text.WhiteSpace

/-!
# Bindings on the command line

An argument binds a variable if it is a name, an equals sign and a number. White space
around the name and around the number does not count. Names are ASCII letters, as they
are in expressions.
-/

namespace Reckoner.CommandLine

/-- Why an argument binds nothing. -/
inductive BindingError
  | noEquals (argument : String)
  | badName (name : String)
  /-- there is nothing after the equals sign -/
  | noNumber (name : String)
  | badNumber (name : String)
deriving DecidableEq, Repr, Inhabited

/-- The wording of an error. -/
def BindingError.message : BindingError → String
  | noEquals argument => "expected NAME=VALUE, got '" ++ argument ++ "'"
  | badName name => "invalid variable name '" ++ name ++ "'"
  | noNumber name =>
    "invalid value for '" ++ name ++ "': cannot parse float from empty string"
  | badNumber name => "invalid value for '" ++ name ++ "': invalid float literal"

/-- Whether characters may name a variable. -/
def isName (cs : List Char) : Bool := !cs.isEmpty && cs.all Char.isAlpha

/-- The name and the value that an argument binds to it. The first equals sign counts. -/
def parseBinding (argument : String) : Except BindingError (String × Float) :=
  match argument.toList.dropWhile (· ≠ '=') with
  | [] => .error (.noEquals argument)
  | _ :: value =>
    let nameChars := Text.trim (argument.toList.takeWhile (· ≠ '='))
    let name := String.ofList nameChars
    let value := Text.trim value
    if !isName nameChars then .error (.badName name)
    else if value.isEmpty then .error (.noNumber name)
    else
      match Decimal.readFloat? value with
      | some x => .ok (name, x)
      | none => .error (.badNumber name)

end Reckoner.CommandLine
