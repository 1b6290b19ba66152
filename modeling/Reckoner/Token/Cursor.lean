import Reckoner.Token

/-!
# Reading a token list

A list of tokens is read up to the first marker of the end of the source; what comes
after the marker is not looked at. A `Cursor` reads one token at a time.
-/

namespace Reckoner

namespace Token

/-- The tokens before the first end marker. -/
def upToFinish (tokens : List Token) : List Token := tokens.takeWhile fun t => !t.isFinish

/-- The offset after the last of the tokens, zero if there is none. -/
def lastStop (tokens : List Token) : Nat := (tokens.getLast?.map fun t => t.span.stop).getD 0

end Token

/-- A position in a token list. -/
structure Cursor where
  /-- the tokens read, the last one first -/
  passed : List Token
  /-- the tokens still to read -/
  rest : List Token
  /-- whether the end has been met -/
  exhausted : Bool
deriving DecidableEq, Repr

namespace Cursor

/-- The beginning of a list. -/
def ofList (tokens : List Token) : Cursor := ⟨[], tokens, false⟩

/-- The number of tokens read. -/
def position (c : Cursor) : Nat := c.passed.length

/-- The empty span right after the token read last. -/
def endOfInput (c : Cursor) : Span := .emptyAt (Token.lastStop c.passed.reverse)

/-- Reads a token, or meets the end. -/
def next (c : Cursor) : Option Token × Cursor :=
  match c.rest with
  | t :: rest =>
    if c.exhausted || t.isFinish then (none, { c with exhausted := true })
    else (some t, ⟨t :: c.passed, rest, false⟩)
  | [] => (none, { c with exhausted := true })

end Cursor

end Reckoner
