import ViewTyping.Table

/-!
# Value types

Every expression has one value type: either a plain type, known before solving, or the type of a
decision variable. A value composed with a variable is a variable (`boolLike`, `intLike`).
-/

set_option autoImplicit false

namespace ViewTyping

inductive ValueType where
  | bool
  | integer
  | long
  | float
  | string
  | arrayOfObjects
  /-- A truth value that the solver decides. -/
  | boolVar
  /-- A number that the solver decides. -/
  | intVar
deriving DecidableEq, Repr

namespace ValueType

def all : List ValueType :=
  [bool, integer, long, float, string, arrayOfObjects, boolVar, intVar]

def name : ValueType → String
  | bool => "Bool"
  | integer => "Integer"
  | long => "Long"
  | float => "Float"
  | string => "String"
  | arrayOfObjects => "ArrayOfObjects"
  | boolVar => "BoolVar"
  | intVar => "IntVar"

/-- Whether the value is a decision variable. -/
def isVar : ValueType → Bool
  | boolVar | intVar => true
  | _ => false

/-- The type of a truth value, a variable if `var`. -/
def boolLike (var : Bool) : ValueType := if var then boolVar else bool

/-- The type of a number, a variable if `var`. -/
def intLike (var : Bool) : ValueType := if var then intVar else integer

/-- The type of an input value of the given kind. -/
def ofKind : Kind → ValueType
  | .string => string
  | .bool => bool
  | .long => long
  | .integer => integer
  | .float => float
  | .arrayOfObjects => arrayOfObjects

/-- The type of a table's column: a controllable column is an integer variable whatever its
declared kind. -/
def ofColumn (c : Column) : ValueType :=
  if c.controllable then intVar else ofKind c.kind

/-- The types of a tuple's fields as a list separated by commas. -/
def renderTuple (types : List ValueType) : String :=
  ", ".intercalate (types.map name)

end ValueType

end ViewTyping
