import ViewTyping.Typing

/-!
# Registering tables and views

A table or a view enters the catalog as a whole or not at all, and is never changed afterwards.
-/

set_option autoImplicit false

namespace ViewTyping

/-- The layout with a table's column as its next field. -/
def Layout.addColumn (l : Layout) (column : Column) : Except Diagnostic Layout :=
  match l.push? column.name (.ofColumn column) with
  | some l => .ok l
  | none => .error (.duplicateField l.scope column.name)

/-- The name under which an output of a view is stored: that of its alias, or of the column that
it is. -/
def Expr.outputName (view : String) (e : Expr) : Except Diagnostic String :=
  match e.alias? with
  | some name => .ok (Name.normalize name)
  | none =>
    match e.column? with
    | some ref => .ok (Name.normalize ref.column.name)
    | none => .error (.unaliasedOutputField view e.render)

namespace Catalog

def push (c : Catalog) (l : Layout) : Catalog := ⟨c.layouts ++ [l]⟩

/-- The layout of a table that is to enter the catalog, one field for each column. -/
def tableLayout (c : Catalog) (t : Table) : Logged Layout :=
  if (c.table? t.name).isSome || c.isView t.name then
    .fail (.scopeAlreadyRegistered t.name)
  else do
    let l ← .ofExcept (t.columns.foldlM Layout.addColumn ⟨t.name, .table, []⟩)
    Logged.emit (.registeredTable l.scope l.types)
    return l

/-- The layout with an output of a view as its next field. -/
def addOutput (c : Catalog) (l : Layout) (e : Expr) : Logged Layout := do
  let name ← .ofExcept (e.outputName l.scope)
  let t ← c.typing e
  Logged.emit (.typedField l.scope name t)
  match l.push? name t with
  | some l => return l
  | none => .fail (.duplicateField l.scope name)

/-- The layout of a view that is to enter the catalog, one field for each output. -/
def viewLayout (c : Catalog) (name : String) (select : List Expr) : Logged Layout :=
  let key := Name.normalize name
  if c.isView key || c.namesTable key then
    .fail (.scopeAlreadyRegistered key)
  else do
    let l ← select.foldlM c.addOutput ⟨key, .view, []⟩
    Logged.emit (.registeredView l.scope l.types)
    return l

def registerTable (c : Catalog) (t : Table) : Logged Catalog := do
  let l ← c.tableLayout t
  return c.push l

def registerView (c : Catalog) (name : String) (select : List Expr) : Logged Catalog := do
  let l ← c.viewLayout name select
  return c.push l

end Catalog

end ViewTyping
