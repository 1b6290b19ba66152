import Reckoner.Tree.Level
import Reckoner.Token.Cursor
import Reckoner.Diagnostic

/-!
# Parsing

Every token list has a tree. The parser takes one token after the other, builds the
innermost open bracket level, and keeps the enclosing levels on a stack. What does not
fit is reported and left out, and parsing goes on. A malformed number or name keeps its
place as an operand, and so does a call of an unknown function.

Brackets may be nested, and a tree may be high, up to a limit. The token that exceeds
the limit is reported and the tokens from there on are dropped; the levels that are
open then are closed without a word.

* `Parser.step` takes one token, `Parser.finish` closes what is open at the end;
* `parse` is the tree and the diagnostics of a token list.
-/

namespace Reckoner

/-- What comes of parsing. -/
structure Parsed where
  /-- the expression, absent if there was no operand at all -/
  tree : Tree
  /-- everything that was wrong, in the order in which it was found -/
  diagnostics : List Diagnostic
deriving DecidableEq, Repr, Inhabited

/-- Whether nothing was wrong. -/
def Parsed.isOk (p : Parsed) : Bool := p.diagnostics.isEmpty

/-- An enclosing bracket level. -/
structure Parser.Frame where
  /-- the token that opened the level inside -/
  opening : Token
  /-- what was read of the enclosing level before it -/
  outer : Level
deriving DecidableEq, Repr, Inhabited

/-- A parser between two tokens. -/
structure Parser where
  /-- the enclosing levels, the innermost first -/
  frames : List Parser.Frame
  /-- the innermost level -/
  level : Level
  /-- what was wrong so far -/
  diagnostics : Array Diagnostic
  /-- whether the depth limit was exceeded -/
  halted : Bool
deriving DecidableEq, Repr, Inhabited

namespace Parser

/-- The parser before the first token. -/
def start : Parser := ⟨[], .empty, #[], false⟩

/-- The number of open brackets. -/
def depth (p : Parser) : Nat := p.frames.length

/-- Notes a problem. -/
def report (p : Parser) (d : Diagnostic) : Parser :=
  { p with diagnostics := p.diagnostics.push d }

/-- Notes that a token exceeds the depth limit, and stops. -/
def halt (limit : Nat) (p : Parser) (t : Token) : Parser :=
  { p.report (.exceeds limit t) with halted := true }

/-- Stops at a token after which the innermost level is too high. -/
def checkHeight (limit : Nat) (p : Parser) (t : Token) : Parser :=
  if p.level.height > limit && !p.halted then p.halt limit t else p

/-- Reads an operand that begins at a token. -/
def addOperand (limit : Nat) (p : Parser) (t : Token) (x : Sized) : Parser :=
  if p.level.expectsOperand then
    { p with level := p.level.addOperand x }.checkHeight limit t
  else p.report (.atToken .operatorExpected t)

/-- Reads an operator. -/
def addOperator (limit : Nat) (p : Parser) (t : Token) (op : Operator) : Parser :=
  if p.level.expectsOperand then p.report (.atToken .operandExpected t)
  else { p with level := p.level.addOperator op }.checkHeight limit t

/-- Reports a stray character. With a defect it stands for an operand, where one is due. -/
def addStray (p : Parser) (t : Token) (kind : Diagnostic.Kind) (defect : Option Tree.Defect) :
    Parser :=
  let p := p.report (.atToken kind t)
  match defect with
  | some d =>
    if p.level.expectsOperand then
      { p with level := p.level.addOperand (.leaf (.invalid d) t.text) }
    else p
  | none => p

/-- Opens a bracket level. -/
def enter (limit : Nat) (p : Parser) (t : Token) : Parser :=
  if p.depth ≥ limit then p.halt limit t
  else { p with frames := ⟨t, p.level⟩ :: p.frames, level := .empty }

/-- Puts the level inside a bracket into the enclosing level, which is the innermost one
    now. Brackets around nothing leave no trace. -/
def attach (limit : Nat) (p : Parser) (opening : Token) (inner : Level) : Parser :=
  match opening.kind with
  | .call f => p.addOperand limit opening ⟨.call f inner.tree, inner.height + 1⟩
  | .unknownCall =>
    (p.report (.atToken .unknownFunction opening)).addOperand limit opening
      ⟨.leaf (.invalid .function) (Diagnostic.calledName opening.text), inner.height + 1⟩
  | _ => if inner.isEmpty then p else p.addOperand limit opening inner.whole

/-- Leaves the innermost level for the enclosing one. -/
def leave (limit : Nat) (p : Parser) (frame : Frame) (frames : List Frame) : Parser :=
  { p with frames := frames, level := frame.outer }.attach limit frame.opening p.level

/-- Closes the innermost bracket. -/
def close (limit : Nat) (p : Parser) (t : Token) : Parser :=
  match p.frames with
  | [] => p.report (.atToken .strayClosing t)
  | frame :: frames =>
    let p := if p.level.expectsOperand then p.report (.atToken .operandExpected t) else p
    p.leave limit frame frames

/-- Takes one token. -/
def step (limit : Nat) (p : Parser) (t : Token) : Parser :=
  if p.halted then p
  else
    match t.kind with
    | .literal format => p.addOperand limit t (.leaf (.literal format) t.text)
    | .name => p.addOperand limit t (.leaf .name t.text)
    | .operator op => p.addOperator limit t op
    | .call _ | .unknownCall | .opening => p.enter limit t
    | .closing => p.close limit t
    | .strayCharacter => p.addStray t .strayCharacter none
    | .strayInNumber => p.addStray t .strayInNumber (some .number)
    | .strayInName => p.addStray t .strayInName (some .name)
    | .finish => p

/-- Reports what is due when the tokens end inside a level: the closing bracket of the
    token that opened it, and an operand. -/
def endLevel (p : Parser) (opening : Option Token) (last : Nat) : Parser :=
  if p.halted then p
  else
    let p := match opening with
      | some t => p.report (.missingClosing t)
      | none => p
    if !p.level.isEmpty && p.level.expectsOperand then
      p.report (.unexpectedEnd (.emptyAt last))
    else p

/-- Ends all levels, the innermost first. The offset is where the tokens ended. -/
def unwind (limit last : Nat) : List Frame → Parser → Parser
  | [], p => p.endLevel none last
  | frame :: frames, p =>
    unwind limit last frames ((p.endLevel (some frame.opening) last).leave limit frame frames)

/-- Ends the token list. -/
def finish (limit last : Nat) (p : Parser) : Parsed :=
  let p := unwind limit last p.frames p
  ⟨p.level.tree, p.diagnostics.toList⟩

end Parser

/-- The tree of a token list, and what is wrong with the list. -/
def parse (limit : Nat) (tokens : List Token) : Parsed :=
  let tokens := Token.upToFinish tokens
  (tokens.foldl (Parser.step limit) .start).finish limit (Token.lastStop tokens)

/-- The depth limit for sources. -/
def depthLimit : Nat := 512

end Reckoner
