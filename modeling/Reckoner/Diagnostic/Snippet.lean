import Reckoner.Diagnostic
import Reckoner.Token.Lexer

/-!
# Snippets

A snippet shows a diagnostic in its source: the line where the span starts, and marks
below the characters of the span that lie on that line.

```text
error: Unexpected closing bracket
 --> line 1, col 2
1 | 1)
  |  ^
```

* `Snippet.find` looks the span up in the source;
* `Snippet.render` lays the snippet out.
-/

namespace Reckoner

/-- The place of a span in a source. -/
structure Snippet where
  /-- the number of the line, from one -/
  line : Nat
  /-- the characters of the line before the span -/
  before : List Char
  /-- the characters of the line from the start of the span on -/
  after : List Char
  /-- how many characters of the span lie on the line -/
  width : Nat
deriving DecidableEq, Repr

namespace Snippet

/-- Splits a text after as many characters as fit into a number of bytes. -/
def splitBytes : Nat → List Char → List Char × List Char
  | _, [] => ([], [])
  | n, c :: cs =>
    if c.utf8Size ≤ n then
      let (taken, rest) := splitBytes (n - c.utf8Size) cs
      (c :: taken, rest)
    else ([], c :: cs)

theorem splitBytes_append (n : Nat) (cs : List Char) :
    (splitBytes n cs).1 ++ (splitBytes n cs).2 = cs := by
  induction cs generalizing n with
  | nil => rfl
  | cons c cs ih =>
    unfold splitBytes
    split
    · simp [ih]
    · rfl

/-- Whether a character is part of a line. -/
def inLine (c : Char) : Bool := c ≠ '\n'

/-- The place of a span. A span that starts beyond the source is at its end. -/
def find (span : Span) (source : String) : Snippet :=
  let (passed, rest) := splitBytes span.start source.toList
  let start := min span.start source.utf8ByteSize
  let after := rest.takeWhile inLine
  { line := passed.count '\n' + 1
    before := (passed.reverse.takeWhile inLine).reverse
    after := after
    width := (splitBytes (span.stop - start) after).1.length }

/-- The number of the span's first column, from one. -/
def column (s : Snippet) : Nat := s.before.length + 1

/-- The marks below the span: a caret below one character or none, else a tilde below
    each. -/
def marks (s : Snippet) : String :=
  if s.width ≤ 1 then "^" else String.ofList (List.replicate s.width '~')

/-- Blanks. -/
def spaces (n : Nat) : String := String.ofList (List.replicate n ' ')

/-- The blanks that stand in for the line number in rows without one. -/
def gutter (s : Snippet) : String := spaces (toString s.line).length

/-- The row with the source line. -/
def sourceRow (s : Snippet) : String :=
  toString s.line ++ " | " ++ String.ofList (s.before ++ s.after)

/-- The row with the marks. -/
def markRow (s : Snippet) : String := s.gutter ++ " | " ++ spaces s.before.length ++ s.marks

/-- The rows of the snippet of a diagnostic. -/
def rows (s : Snippet) (d : Diagnostic) : List String :=
  let placed := ["error: " ++ d.message,
    s.gutter ++ s!"--> line {s.line}, col {s.column}", s.sourceRow, s.markRow]
  match d.help with
  | some help => placed ++ [s.gutter ++ " = help: " ++ help]
  | none => placed

end Snippet

/-- The snippet of a diagnostic in its source. -/
def Diagnostic.snippet (d : Diagnostic) (source : String) : String :=
  String.intercalate "\n" ((Snippet.find d.span source).rows d)

end Reckoner
