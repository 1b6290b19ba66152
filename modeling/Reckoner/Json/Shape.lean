import Reckoner.Json

/-!
# Records and variants in JSON

How data is laid out in JSON. A record is an object with its fields in any order; fields
that it does not know are passed over, but none of its own may come twice. It may also be
an array of all its fields in their order. A variant with contents is an object with one
field, named for the variant. A variant without contents is a string, or such an object
with nothing in it.

Decoders are given the number of containers that may still be open. Each record and each
variant in an object needs one, and values that are passed over need none.
-/

namespace Reckoner.Json

/-- The contents of a string. -/
def toText? : Json → Option String
  | .string s => s
  | _ => none

/-- The value of the field with a name, nothing if there is none. Fails if there are two. -/
def field? (fields : List (Json.Text × Json)) (name : String) : Option (Option Json) :=
  match fields.filter fun f => f.1 == some name with
  | [] => some none
  | [(_, v)] => some (some v)
  | _ => none

/-- The fields of a record. Those that are missing are nothing. -/
def record? (names : List String) : Json → Option (List (Option Json))
  | .object fields =>
    if fields.all fun f => f.1.isSome then names.mapM (field? fields) else none
  | .array items => if items.length = names.length then some (items.map some) else none
  | _ => none

/-- The name and the contents of a variant with contents. -/
def variant? : Json → Option (String × Json)
  | .object [(some name, contents)] => some (name, contents)
  | _ => none

/-- The name of a variant without contents. -/
def tag? (budget : Nat) : Json → Option String
  | .string s => s
  | .object [(some name, .null)] => if 0 < budget then some name else none
  | _ => none

/-- How many containers may be open at once. -/
def nestingLimit : Nat := 127

/-- A variant with contents. -/
def ofVariant (name : String) (contents : Json) : Json := ofFields [(name, contents)]

end Reckoner.Json
