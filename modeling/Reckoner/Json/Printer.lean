import Reckoner.Json

/-!
# Printing JSON

`Json.pretty` writes a value over several lines, with two blanks for each level of
nesting. Inside strings only quotes, backslashes and control characters are escaped.
The functions here write in front of the characters that follow.
-/

namespace Reckoner.Json.Printer

/-- The digit of base sixteen with a value. -/
def hexDigit (n : Nat) : Char := Nat.digitChar n

/-- A character inside a string. -/
def escape (c : Char) : List Char :=
  if c = '"' then ['\\', '"']
  else if c = '\\' then ['\\', '\\']
  else if c = '\x08' then ['\\', 'b']
  else if c = '\t' then ['\\', 't']
  else if c = '\n' then ['\\', 'n']
  else if c = '\x0c' then ['\\', 'f']
  else if c = '\r' then ['\\', 'r']
  else if c.toNat < 0x20 then
    ['\\', 'u', '0', '0', hexDigit (c.toNat / 16), hexDigit (c.toNat % 16)]
  else [c]

/-- A string in quotes. A string without contents is half of a surrogate pair. -/
def text (s : Json.Text) (rest : List Char) : List Char :=
  match s with
  | some s => '"' :: s.toList.flatMap escape ++ '"' :: rest
  | none => '"' :: '\\' :: 'u' :: 'd' :: '8' :: '0' :: '0' :: '"' :: rest

/-- A new line at a level of nesting. -/
def line (level : Nat) (rest : List Char) : List Char :=
  '\n' :: List.replicate (2 * level) ' ' ++ rest

mutual

/-- A value at a level of nesting. -/
def value (level : Nat) : Json → List Char → List Char
  | .null, rest => 'n' :: 'u' :: 'l' :: 'l' :: rest
  | .bool true, rest => 't' :: 'r' :: 'u' :: 'e' :: rest
  | .bool false, rest => 'f' :: 'a' :: 'l' :: 's' :: 'e' :: rest
  | .number n, rest => n.chars ++ rest
  | .string s, rest => text s rest
  | .array [], rest => '[' :: ']' :: rest
  | .array (v :: vs), rest =>
    '[' :: line (level + 1) (value (level + 1) v (items level vs (line level (']' :: rest))))
  | .object [], rest => '\x7b' :: '\x7d' :: rest
  | .object ((name, v) :: fs), rest =>
    '\x7b' :: line (level + 1) (text name (':' :: ' ' ::
      value (level + 1) v (fields level fs (line level ('\x7d' :: rest)))))

/-- The items of an array after the first. -/
def items (level : Nat) : List Json → List Char → List Char
  | [], rest => rest
  | v :: vs, rest => ',' :: line (level + 1) (value (level + 1) v (items level vs rest))

/-- The fields of an object after the first. -/
def fields (level : Nat) : List (Json.Text × Json) → List Char → List Char
  | [], rest => rest
  | (name, v) :: fs, rest =>
    ',' :: line (level + 1) (text name (':' :: ' ' ::
      value (level + 1) v (fields level fs rest)))

end

end Reckoner.Json.Printer

namespace Reckoner.Json

/-- The text of a value. -/
def pretty (v : Json) : String := String.ofList (Printer.value 0 v [])

end Reckoner.Json
