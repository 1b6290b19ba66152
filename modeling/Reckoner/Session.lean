import Reckoner.Reading
import Reckoner.Folding

/-!
# Sessions

A session holds one expression with its bindings. The expression is parsed when it is
first needed and not again until it is replaced; once folding is switched on, the next
evaluation replaces the parsed tree by the folded one.
-/

namespace Reckoner

/-- Why an expression has no result. -/
inductive Failure
  | parsing (d : Diagnostic)
  | evaluation (e : EvalError)
deriving DecidableEq, Repr, Inhabited

namespace Failure

/-- The wording of a failure. -/
def message : Failure → String
  | parsing d => "parse error: " ++ d.message
  | evaluation e => "evaluation error: " ++ e.message

/-- The diagnostic of a failure to parse. -/
def diagnostic? : Failure → Option Diagnostic
  | parsing d => some d
  | evaluation _ => none

end Failure

/-- The expression of a session in the form in which it is evaluated. -/
inductive Session.Form
  | parsed (t : Tree)
  | folded (f : Folded)
deriving DecidableEq, Repr, Inhabited

namespace Session.Form

/-- The value against bindings. -/
def evaluate (b : Bindings) : Form → Except EvalError Float
  | parsed t => t.evaluate b
  | folded f => f.evaluate b

/-- The expression as text, if there is one. -/
def render? : Form → Option String
  | parsed .absent => none
  | parsed t => some t.render
  | folded f => some f.render

/-- Whether constant parts are computed, if there is an expression. -/
def isFolded? : Form → Option Bool
  | parsed .absent => none
  | parsed _ => some false
  | folded _ => some true

end Session.Form

/-- What a session keeps of its expression once that is parsed. -/
structure Session.Cache where
  form : Session.Form
  diagnostics : List Diagnostic
  /-- the variables in the order in which they first occur -/
  names : List String
deriving DecidableEq, Repr, Inhabited

/-- A session. -/
structure Session where
  expression : String
  reading : Reading
  folding : Bool
  bindings : Bindings
  cache : Option Session.Cache

namespace Session

/-- A session with nothing bound and nothing parsed. -/
def new (reading : Reading) (expression : String) : Session :=
  ⟨expression, reading, false, ∅, none⟩

/-! ## Settings -/

/-- Replaces the expression. -/
def setExpression (s : Session) (expression : String) : Session :=
  { s with expression := expression, cache := none }

/-- Binds a variable. -/
def bind (s : Session) (name : String) (value : Float) : Session :=
  { s with bindings := s.bindings.insert name value }

/-- Leaves a variable unbound, and answers the value that it had. -/
def unbind (s : Session) (name : String) : Option Float × Session :=
  let (old, bindings) := s.bindings.remove name
  (old, { s with bindings := bindings })

/-- Switches folding on, for good. -/
def enableFolding (s : Session) : Session := { s with folding := true }

/-- Switches streaming on or off. -/
def setStreaming (s : Session) (streaming : Bool) : Session :=
  { s with reading := { s.reading with streaming := streaming } }

/-! ## Answers -/

/-- What is kept of an expression that was just parsed. -/
def Cache.ofParsed (p : Parsed) : Cache := ⟨.parsed p.tree, p.diagnostics, p.tree.names.eraseDups⟩

/-- What is kept, from now on if it was not before. -/
def load (s : Session) : Cache × Session :=
  match s.cache with
  | some c => (c, s)
  | none =>
    let c := Cache.ofParsed (s.reading.parse s.expression)
    (c, { s with cache := some c })

/-- What is wrong with the expression. -/
def diagnostics (s : Session) : List Diagnostic × Session :=
  let (c, s) := s.load
  (c.diagnostics, s)

/-- The variables of the expression in the order in which they first occur. -/
def names (s : Session) : List String × Session :=
  let (c, s) := s.load
  (c.names, s)

/-- The form of the expression that is kept now. Before it is parsed there is none. -/
def form? (s : Session) : Option Form := s.cache.map Cache.form

/-- Folds a parsed expression, if folding is on. An absent expression stays as it is. -/
def foldForm (folding : Bool) (form : Form) : Except EvalError Form :=
  match folding, form with
  | true, .parsed t => do
    match ← t.fold? with
    | some f => return .folded f
    | none => return form
  | _, _ => .ok form

/-- The value of the expression, or everything that is wrong with it, or the first error
    of its evaluation. -/
def result (s : Session) : Except (List Failure) Float × Session :=
  let (c, s) := s.load
  if c.diagnostics.isEmpty then
    match foldForm s.folding c.form with
    | .error e => (.error [.evaluation e], s)
    | .ok form =>
      ((form.evaluate s.bindings).mapError fun e => [.evaluation e],
        { s with cache := some { c with form := form } })
  else (.error (c.diagnostics.map .parsing), s)

end Session

/-- The value of an expression without variables. -/
def interpret (expression : String) : Except (List Failure) Float :=
  (Session.new .default expression).result.1

end Reckoner
