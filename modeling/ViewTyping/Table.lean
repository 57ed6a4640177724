import ViewTyping.Kind

/-!
# Tables

A table is a name and its columns in order. A controllable column holds decision variables: the
solver assigns its values.
-/

set_option autoImplicit false

namespace ViewTyping

/-- A column of a table. -/
structure Column where
  name : String
  kind : Kind
  /-- Whether the solver assigns the column's values. -/
  controllable : Bool := false
deriving DecidableEq, Repr

/-- A base table and its columns, in order. -/
structure Table where
  name : String
  columns : List Column
deriving DecidableEq, Repr

def Column.render (c : Column) : String :=
  c.name ++ " " ++ c.kind.name ++ if c.controllable then " (controllable)" else ""

end ViewTyping
