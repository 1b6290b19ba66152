import Reckoner.Json
import Reckoner.Digit

/-!
# Reading JSON

`Json.read? text` is the value that a text writes, if it writes one: a value with
blanks around it and nothing else. Every function here takes the text and answers
what it read with the text that follows.

Control characters must be escaped inside strings, numbers have no leading zeros,
and no comma may trail. Nesting may be of any depth.
-/

namespace Reckoner.Json.Reader

/-- The blanks of JSON. -/
def isBlank (c : Char) : Bool := c = ' ' || c = '\n' || c = '\t' || c = '\r'

/-- The text after the blanks. -/
def skipBlanks (cs : List Char) : List Char := cs.dropWhile isBlank

/-! ## Numbers -/

/-- One digit or more. -/
def digits? (cs : List Char) : Option (List Char × List Char) :=
  match cs.takeWhile Char.isDigit with
  | [] => none
  | ds => some (ds, cs.dropWhile Char.isDigit)

/-- The digits before the point: one zero, or digits that begin with none. -/
def whole? : List Char → Option (List Char × List Char)
  | '0' :: cs => if cs.head?.any Char.isDigit then none else some (['0'], cs)
  | cs => digits? cs

/-- A point with digits, or nothing. -/
def fraction? : List Char → Option (Option (List Char) × List Char)
  | '.' :: cs => (digits? cs).map fun (ds, rest) => (some ds, rest)
  | cs => some (none, cs)

/-- The sign of an exponent. -/
def exponentSign : List Char → Numeral.Sign × List Char
  | '+' :: cs => (.plus, cs)
  | '-' :: cs => (.minus, cs)
  | cs => (.unsigned, cs)

/-- The part of a numeral after the letter of its exponent. -/
def exponentBody? (cs : List Char) : Option (Option Numeral.Exponent × List Char) :=
  let (sign, body) := exponentSign cs
  (digits? body).map fun (ds, rest) => (some ⟨sign, ds⟩, rest)

/-- An exponent, or nothing. -/
def exponent? : List Char → Option (Option Numeral.Exponent × List Char)
  | 'e' :: cs | 'E' :: cs => exponentBody? cs
  | cs => some (none, cs)

/-- A number without its sign. -/
def unsigned? (negative : Bool) (cs : List Char) : Option (Numeral × List Char) := do
  let (whole, cs) ← whole? cs
  let (fraction, cs) ← fraction? cs
  let (exponent, cs) ← exponent? cs
  return (⟨negative, whole, fraction, exponent⟩, cs)

/-- A number. -/
def numeral? : List Char → Option (Numeral × List Char)
  | '-' :: cs => unsigned? true cs
  | cs => unsigned? false cs

/-! ## Strings -/

/-- What one character or one escape puts into a string. -/
inductive StringUnit
  | char (c : Char)
  /-- a code unit of UTF-16, from an escape with four digits -/
  | code (unit : Nat)
deriving DecidableEq, Repr

/-- The value of four digits of base sixteen. -/
def codeUnit? (a b c d : Char) : Option Nat :=
  if [a, b, c, d].all Digit.isHex then some (Digit.ofHex [a, b, c, d]) else none

/-- The character that a letter stands for after a backslash. -/
def escaped? : Char → Option Char
  | '"' => some '"'
  | '\\' => some '\\'
  | '/' => some '/'
  | 'b' => some '\x08'
  | 'f' => some '\x0c'
  | 'n' => some '\n'
  | 'r' => some '\r'
  | 't' => some '\t'
  | _ => none

/-- The units of a string up to its closing quote. -/
def units? : List Char → Option (List StringUnit × List Char)
  | [] => none
  | '"' :: rest => some ([], rest)
  | '\\' :: 'u' :: a :: b :: c :: d :: rest => do
    let unit ← codeUnit? a b c d
    let (us, rest) ← units? rest
    return (.code unit :: us, rest)
  | '\\' :: e :: rest => do
    let c ← escaped? e
    let (us, rest) ← units? rest
    return (.char c :: us, rest)
  | c :: rest =>
    if c = '\\' ∨ c.toNat < 0x20 then none
    else do
      let (us, rest) ← units? rest
      return (.char c :: us, rest)

/-- Whether a code unit is the first half of a pair. -/
def isLead (unit : Nat) : Bool := 0xD800 ≤ unit && unit < 0xDC00

/-- Whether a code unit is the second half of a pair. -/
def isTrail (unit : Nat) : Bool := 0xDC00 ≤ unit && unit < 0xE000

/-- The characters that units stand for. Halves of pairs must come in pairs, the first
    half right before the second. -/
def chars? : List StringUnit → Option (List Char)
  | [] => some []
  | .char c :: us => (chars? us).map (c :: ·)
  | .code lead :: .code trail :: us =>
    if isLead lead then
      if isTrail trail then
        (chars? us).map (.ofNat (0x10000 + (lead - 0xD800) * 0x400 + (trail - 0xDC00)) :: ·)
      else none
    else if isTrail lead then none
    else (chars? (.code trail :: us)).map (.ofNat lead :: ·)
  | .code unit :: us =>
    if isLead unit || isTrail unit then none else (chars? us).map (.ofNat unit :: ·)

/-- A string after its opening quote. -/
def text? (cs : List Char) : Option (Json.Text × List Char) :=
  (units? cs).map fun (us, rest) => ((chars? us).map String.ofList, rest)

/-! ## Values -/

mutual

/-- A value with the blanks before it. The first argument bounds the recursion. -/
def value? : Nat → List Char → Option (Json × List Char)
  | 0, _ => none
  | fuel + 1, cs =>
    match skipBlanks cs with
    | 'n' :: 'u' :: 'l' :: 'l' :: rest => some (.null, rest)
    | 't' :: 'r' :: 'u' :: 'e' :: rest => some (.bool true, rest)
    | 'f' :: 'a' :: 'l' :: 's' :: 'e' :: rest => some (.bool false, rest)
    | '"' :: rest => (text? rest).map fun (s, rest) => (.string s, rest)
    | '[' :: rest =>
      match skipBlanks rest with
      | ']' :: rest => some (.array [], rest)
      | rest => (items? fuel rest).map fun (vs, rest) => (.array vs, rest)
    | '\x7b' :: rest =>
      match skipBlanks rest with
      | '\x7d' :: rest => some (.object [], rest)
      | rest => (fields? fuel rest).map fun (fs, rest) => (.object fs, rest)
    | rest => (numeral? rest).map fun (n, rest) => (.number n, rest)

/-- The items of an array, one at least, with its closing bracket. -/
def items? : Nat → List Char → Option (List Json × List Char)
  | 0, _ => none
  | fuel + 1, cs => do
    let (v, rest) ← value? fuel cs
    match skipBlanks rest with
    | ',' :: rest => (items? fuel rest).map fun (vs, rest) => (v :: vs, rest)
    | ']' :: rest => some ([v], rest)
    | _ => none

/-- The fields of an object, one at least, with its closing brace. -/
def fields? : Nat → List Char → Option (List (Json.Text × Json) × List Char)
  | 0, _ => none
  | fuel + 1, cs =>
    match skipBlanks cs with
    | '"' :: rest => do
      let (name, rest) ← text? rest
      match skipBlanks rest with
      | ':' :: rest =>
        let (v, rest) ← value? fuel rest
        match skipBlanks rest with
        | ',' :: rest => (fields? fuel rest).map fun (fs, rest) => ((name, v) :: fs, rest)
        | '\x7d' :: rest => some ([(name, v)], rest)
        | _ => none
      | _ => none
    | _ => none

end

/-- The value that the characters write, if they write one. -/
def document? (cs : List Char) : Option Json :=
  match value? (2 * cs.length + 1) cs with
  | some (v, rest) => if skipBlanks rest = [] then some v else none
  | none => none

end Reckoner.Json.Reader

namespace Reckoner.Json

/-- The value that a text writes, if it writes one. -/
def read? (text : String) : Option Json := Reader.document? text.toList

end Reckoner.Json
