import ViewTyping.ValueType

/-!
# Tuple layouts

The layout of a scope, that is of a table or a view, gives each field its name, its position in
the tuple and its type.
-/

set_option autoImplicit false

namespace ViewTyping

inductive ScopeKind where
  | table
  | view
deriving DecidableEq, Repr

def ScopeKind.name : ScopeKind → String
  | table => "Table"
  | view => "View"

structure Field where
  name : String
  position : Nat
  type : ValueType
deriving DecidableEq, Repr

/-- The fields of a scope, in the order of their positions. -/
structure Layout where
  scope : String
  kind : ScopeKind
  fields : List Field
deriving DecidableEq, Repr

def Field.render (f : Field) : String :=
  f.name ++ "@" ++ toString f.position ++ ": " ++ f.type.name

namespace Layout

def types (l : Layout) : List ValueType := l.fields.map Field.type

def field? (l : Layout) (name : String) : Option Field :=
  l.fields.find? fun f => f.name == name

/-- The layout with one more field at the next position, unless it has a field of that name. -/
def push? (l : Layout) (name : String) (type : ValueType) : Option Layout :=
  if (l.field? name).isSome then none
  else some { l with fields := l.fields ++ [⟨name, l.fields.length, type⟩] }

def render (l : Layout) : String :=
  l.scope ++ "(" ++ ", ".intercalate (l.fields.map Field.render) ++ ")"

end Layout

end ViewTyping
