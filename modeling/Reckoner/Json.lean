import Reckoner.Numeral

/-!
# JSON values

Values as JSON texts write them. Nothing that a decoder may look at is decided here:
numbers keep the digits they are written with, the fields of an object keep their order
and may repeat a name, and a string may fail to have contents.
-/

namespace Reckoner

/-- The contents of a written string. A string whose escapes name half of a surrogate
    pair is well formed but has none. -/
abbrev Json.Text := Option String

/-- A JSON value. -/
inductive Json
  | null
  | bool (b : Bool)
  | number (n : Numeral)
  | string (contents : Json.Text)
  | array (items : List Json)
  | object (fields : List (Json.Text × Json))
deriving Repr, Inhabited

namespace Json

/-- A string with contents. -/
def ofString (s : String) : Json := .string (some s)

/-- An object from its fields. -/
def ofFields (fields : List (String × Json)) : Json :=
  .object (fields.map fun (name, value) => (some name, value))

end Json

end Reckoner
