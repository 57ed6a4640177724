import ViewTyping.Diagnostic
import ViewTyping.Layout

/-!
# The catalog

The layouts of the tables and views known so far, in the order in which they were registered.
Tables are found by their name as written, views and their fields by their normalized name.
-/

set_option autoImplicit false

namespace ViewTyping

structure Catalog where
  layouts : List Layout := []
deriving DecidableEq, Repr

namespace Catalog

def table? (c : Catalog) (name : String) : Option Layout :=
  c.layouts.find? fun l => l.kind == .table && l.scope == name

def view? (c : Catalog) (name : String) : Option Layout :=
  c.layouts.find? fun l => l.kind == .view && l.scope == Name.normalize name

def isView (c : Catalog) (name : String) : Bool := (c.view? name).isSome

/-- Whether a view of that name would take the name of a table. -/
def namesTable (c : Catalog) (name : String) : Bool :=
  c.layouts.any fun l => l.kind == .table && Name.normalize l.scope == Name.normalize name

/-- The layout of a scope. A table is looked for first. -/
def layout (c : Catalog) (scope : String) : Except Diagnostic Layout :=
  match c.table? scope with
  | some l => .ok l
  | none =>
    match c.view? scope with
    | some l => .ok l
    | none => .error (.unknownScope scope)

/-- A field of a scope. -/
def field (c : Catalog) (scope field : String) : Except Diagnostic Field :=
  match c.layout scope with
  | .error d => .error d
  | .ok l =>
    match l.field? (if l.kind = .view then Name.normalize field else field) with
    | some f => .ok f
    | none => .error (.unknownField l.scope field)

def typeOf (c : Catalog) (scope field : String) : Except Diagnostic ValueType :=
  (c.field scope field).map Field.type

def positionOf (c : Catalog) (scope field : String) : Except Diagnostic Nat :=
  (c.field scope field).map Field.position

end Catalog

end ViewTyping
