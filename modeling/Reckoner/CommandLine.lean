import Reckoner.CommandLine.Binding
import Reckoner.Session
import Reckoner.Diagnostic.Snippet

/-!
# The command line

The arguments are read from left to right into `Options`, or end in a `Stop`: a wrong
argument, or a wish for help. `Options.run` evaluates the expression and answers what is
to be printed.

An option with a value may have it after an equals sign, or as the next argument if that
does not begin with a minus sign. In the second case it takes effect only when the next
argument after it does, so that an unknown argument is noticed first.
-/

namespace Reckoner.CommandLine

/-- What the arguments ask for. -/
structure Options where
  expression : String
  folding : Bool
  streaming : Bool
  caret : Caret
  bindings : List (String × Float)
  verbosity : Nat
deriving Repr

/-- Why there are no options. -/
inductive Stop
  | help
  | version
  | missingExpression
  | unknownArgument
  /-- an option has no value, or one that it does not know -/
  | badValue
  | badBinding (e : BindingError)
  /-- an option that may be given once is given again -/
  | repeated
  /-- an option without a value is given one -/
  | unwantedValue
deriving DecidableEq, Repr

/-- The status with which the program ends then. -/
def Stop.exitCode : Stop → Nat
  | help | version => 0
  | _ => 2

/-- What `--help` prints. -/
def helpText : String :=
  "Usage: reckoner [OPTIONS] EXPRESSION\n\n"
    ++ "Evaluates one arithmetic expression.\n\n"
    ++ "  --optimize          compute constant parts before evaluating\n"
    ++ "  --streaming         read tokens while parsing\n"
    ++ "  --caret MEANING     'exponent' (as in 2^10) or 'xor'\n"
    ++ "  --var NAME=VALUE    bind a variable; may be repeated\n"
    ++ "  -v, --verbose       say more; may be repeated\n"
    ++ "  -h, --help          print this text\n"
    ++ "  -V, --version       print the version"

/-- What is printed instead of a result. -/
def Stop.message : Stop → String
  | help => helpText
  | version => "reckoner 0.1.0"
  | missingExpression => "error: there is no expression to evaluate"
  | unknownArgument => "error: unexpected argument"
  | badValue => "error: an option lacks its value or has an unknown one"
  | badBinding e => "error: " ++ e.message
  | repeated => "error: an option is given twice"
  | unwantedValue => "error: an option takes no value"

/-! ## Arguments -/

/-- The options that have values. -/
inductive Setting
  | caret
  | binding
deriving DecidableEq, Repr

/-- What the arguments read so far say. -/
structure Draft where
  expression : Option String
  folding : Bool
  streaming : Bool
  caret : Option Caret
  bindings : List (String × Float)
  verbosity : Nat
  /-- an option that did not take effect yet, with its value if that was read -/
  pending : Option (Setting × Option String)
  /-- whether no more options may follow -/
  closed : Bool
deriving Repr

namespace Draft

/-- No argument was read. -/
def empty : Draft := ⟨none, false, false, none, [], 0, none, false⟩

/-- The meaning of the caret with a name. -/
def caret? : String → Option Caret
  | "exponent" => some .power
  | "xor" => some .xor
  | _ => none

/-- An option with its value takes effect. -/
def set (d : Draft) (setting : Setting) (value : String) : Except Stop Draft :=
  match setting with
  | .caret =>
    if d.caret.isSome then .error .repeated
    else
      match caret? value with
      | some caret => .ok { d with caret := some caret }
      | none => .error .badValue
  | .binding =>
    match parseBinding value with
    | .ok binding => .ok { d with bindings := d.bindings ++ [binding] }
    | .error e => .error (.badBinding e)

/-- The pending option takes effect. -/
def settle (d : Draft) : Except Stop Draft :=
  match d.pending with
  | none => .ok d
  | some (_, none) => .error .badValue
  | some (setting, some value) => { d with pending := none }.set setting value

/-- An option without a value. -/
def flag (d : Draft) (value : Option String) (effect : Draft → Except Stop Draft) :
    Except Stop Draft :=
  match value with
  | some _ => .error .unwantedValue
  | none => d.settle >>= effect

/-- An option with a value, which may be attached to it or still to come. -/
def setting (d : Draft) (setting : Setting) (value : Option String) : Except Stop Draft := do
  let d ← d.settle
  match value with
  | some v => d.set setting v
  | none => return { d with pending := some (setting, none) }

/-- Folding is switched on, once. -/
def fold (d : Draft) : Except Stop Draft :=
  if d.folding then .error .repeated else .ok { d with folding := true }

/-- Streaming is switched on, once. -/
def stream (d : Draft) : Except Stop Draft :=
  if d.streaming then .error .repeated else .ok { d with streaming := true }

/-- One more level of verbosity. -/
def louder (d : Draft) : Except Stop Draft := .ok { d with verbosity := d.verbosity + 1 }

/-- An option by its long name. -/
def long (d : Draft) (name : String) (value : Option String) : Except Stop Draft :=
  match name with
  | "optimize" => d.flag value fold
  | "streaming" => d.flag value stream
  | "verbose" => d.flag value louder
  | "help" => d.flag value fun _ => .error .help
  | "version" => d.flag value fun _ => .error .version
  | "caret" => d.setting .caret value
  | "var" => d.setting .binding value
  | _ => .error .unknownArgument

/-- An option by its letter. -/
def short (d : Draft) : Char → Except Stop Draft
  | 'v' => d.flag none louder
  | 'h' => d.flag none fun _ => .error .help
  | 'V' => d.flag none fun _ => .error .version
  | _ => .error .unknownArgument

/-- An argument that is no option. There is room for one expression. -/
def positional (d : Draft) (argument : String) : Except Stop Draft :=
  match d.expression with
  | some _ => .error .unknownArgument
  | none => do
    let d ← d.settle
    return { d with expression := some argument }

/-- An argument where options may stand. -/
def free (d : Draft) (argument : String) : Except Stop Draft :=
  match argument.toList with
  | ['-', '-'] => .ok { d with closed := true }
  | '-' :: '-' :: cs =>
    let name := String.ofList (cs.takeWhile (· ≠ '='))
    match cs.dropWhile (· ≠ '=') with
    | [] => d.long name none
    | _ :: value => d.long name (some (String.ofList value))
  | '-' :: c :: cs => (c :: cs).foldlM short d
  | _ =>
    match d.pending with
    | some (setting, none) => .ok { d with pending := some (setting, some argument) }
    | _ => d.positional argument

/-- Reads one argument. -/
def read (d : Draft) (argument : String) : Except Stop Draft :=
  if d.closed then d.positional argument else d.free argument

/-- The end of the arguments. -/
def finish (d : Draft) : Except Stop Options := do
  let d ← d.settle
  match d.expression with
  | some expression =>
    return ⟨expression, d.folding, d.streaming, d.caret.getD .power, d.bindings, d.verbosity⟩
  | none => .error .missingExpression

end Draft

/-- What the arguments ask for. -/
def parseArguments (arguments : List String) : Except Stop Options :=
  arguments.foldlM Draft.read .empty >>= Draft.finish

/-! ## Running -/

/-- What the program prints, and the status with which it ends. -/
structure Outcome where
  exitCode : Nat
  stdout : String
  stderr : String
deriving DecidableEq, Repr

/-- The session that the options describe. -/
def Options.session (o : Options) : Session :=
  let reading := { Reading.default with caret := o.caret, streaming := o.streaming }
  let s := Session.new reading o.expression
  let s := if o.folding then s.enableFolding else s
  o.bindings.foldl (fun s (name, value) => s.bind name value) s

/-- A failure as it is printed. -/
def Options.report (o : Options) : Failure → String
  | .parsing d => d.snippet o.expression
  | .evaluation e => "error: " ++ e.message

/-- Evaluates the expression. -/
def Options.run (o : Options) : Outcome :=
  match o.session.result.1 with
  | .ok x => ⟨0, Numeral.ofResult x ++ "\n", ""⟩
  | .error failures => ⟨1, "", String.join (failures.map fun f => o.report f ++ "\n")⟩

end Reckoner.CommandLine
