import Std.Data.TreeMap

/-!
# Bindings

A finite map from variable names to doubles. The listing is in the order of the names,
by code points.
-/

namespace Reckoner

/-- The values of variables. -/
structure Bindings where
  table : Std.TreeMap String Float

namespace Bindings

/-- No variable has a value. -/
def empty : Bindings := ⟨∅⟩

instance : EmptyCollection Bindings := ⟨empty⟩

instance : Inhabited Bindings := ⟨empty⟩

/-- The value of a name, if it is bound. -/
def get? (b : Bindings) (name : String) : Option Float := b.table[name]?

/-- Whether a name is bound. -/
def contains (b : Bindings) (name : String) : Bool := b.table.contains name

/-- The number of names that are bound. -/
def size (b : Bindings) : Nat := b.table.size

/-- Whether no name is bound. -/
def isEmpty (b : Bindings) : Bool := b.table.isEmpty

/-- Binds a name, which loses the value it may have had. -/
def insert (b : Bindings) (name : String) (value : Float) : Bindings :=
  ⟨b.table.insert name value⟩

/-- Leaves a name unbound. -/
def erase (b : Bindings) (name : String) : Bindings := ⟨b.table.erase name⟩

/-- Binds a name, and answers the value that it had. -/
def replace (b : Bindings) (name : String) (value : Float) : Option Float × Bindings :=
  (b.get? name, b.insert name value)

/-- Leaves a name unbound, and answers the value that it had. -/
def remove (b : Bindings) (name : String) : Option Float × Bindings :=
  (b.get? name, b.erase name)

/-- Binds names one after the other, so that of two values of one name the later counts. -/
def extend (b : Bindings) (pairs : List (String × Float)) : Bindings :=
  pairs.foldl (fun b (name, value) => b.insert name value) b

/-- The bindings of a list of names with values. -/
def ofList (pairs : List (String × Float)) : Bindings := empty.extend pairs

/-- The names with their values, in the order of the names. -/
def toList (b : Bindings) : List (String × Float) := b.table.toList

/-- Bindings are equal if they bind the same names to equal numbers. Zeros are equal
    whatever their sign, and what is no number is equal to nothing. -/
instance : BEq Bindings where
  beq a b := a.size == b.size && a.toList.all fun (name, value) => b.get? name == some value

/-! ## The map -/

@[simp] theorem get?_empty (name : String) : (∅ : Bindings).get? name = none := by
  show (∅ : Std.TreeMap String Float)[name]? = none
  simp

theorem get?_insert (b : Bindings) (name other : String) (value : Float) :
    (b.insert name value).get? other = if name = other then some value else b.get? other := by
  simp [get?, insert, Std.TreeMap.getElem?_insert]

theorem get?_erase (b : Bindings) (name other : String) :
    (b.erase name).get? other = if name = other then none else b.get? other := by
  simp [get?, erase, Std.TreeMap.getElem?_erase]

theorem contains_eq_isSome_get? (b : Bindings) (name : String) :
    b.contains name = (b.get? name).isSome :=
  Std.TreeMap.contains_eq_isSome_getElem?

theorem mem_toList {b : Bindings} {name : String} {value : Float} :
    (name, value) ∈ b.toList ↔ b.get? name = some value :=
  Std.TreeMap.mem_toList_iff_getElem?_eq_some

theorem length_toList (b : Bindings) : b.toList.length = b.size := Std.TreeMap.length_toList

end Bindings

end Reckoner
