import ViewTyping.Name
import ViewTyping.Text.Blank

/-!
# Column kinds

The declared kind of a column. A schema names a kind by one of several type names, in any case and
with blanks around it (`Kind.ofName?`).
-/

set_option autoImplicit false

namespace ViewTyping

/-- The declared kind of a column's values. -/
inductive Kind where
  | string
  | bool
  | long
  | integer
  | float
  | arrayOfObjects
deriving DecidableEq, Repr

namespace Kind

/-- The name under which a kind is written. -/
def name : Kind → String
  | string => "String"
  | bool => "Bool"
  | long => "Long"
  | integer => "Integer"
  | float => "Float"
  | arrayOfObjects => "ArrayOfObjects"

/-- The kind that a type name in upper case stands for. -/
def ofUpperName? : String → Option Kind
  | "VARCHAR" | "CHAR" | "TEXT" | "STRING" => some string
  | "BOOLEAN" | "BOOL" => some bool
  | "BIGINT" | "LONG" => some long
  | "INTEGER" | "INT" | "SMALLINT" | "TINYINT" => some integer
  | "FLOAT" | "REAL" | "DOUBLE" => some float
  | "ARRAY" | "ARRAYOFOBJECTS" => some arrayOfObjects
  | _ => none

/-- The kind that a type name stands for; blanks around it and the case of its letters are of no
account. -/
def ofName? (name : String) : Option Kind :=
  ofUpperName? (Name.normalize (Text.trim name))

/-- The message about a type name that stands for no kind. -/
def unknownMessage (name : String) : String :=
  "unrecognized column kind `" ++ name ++ "`"

end Kind

end ViewTyping
