import ViewTyping.Typing

/-!
# The registry

What a catalog holds, as it is stored: the scopes of tables and of views in two maps, and the order
in which they were registered. A scope lists its fields, and keeps their types and their positions
in two maps of its own. So each fact is written in several places, and each call reads some of them.
-/

set_option autoImplicit false

namespace ViewTyping

/-! ## Maps -/

/-- Values by name. A name that is inserted again has the new value only. -/
structure NameMap (α : Type) where
  entries : List (String × α) := []
deriving DecidableEq, Repr

/-- Why a call stops before its end. -/
inductive Halt where
  | refused (d : Diagnostic)
  /-- A map holds nothing under a name that is taken to be there, and the call breaks off. -/
  | missing (name : String)
deriving DecidableEq, Repr

namespace NameMap

variable {α : Type}

def get? (m : NameMap α) (name : String) : Option α :=
  (m.entries.find? fun entry => entry.1 == name).map Prod.snd

def contains (m : NameMap α) (name : String) : Bool := (m.get? name).isSome

def names (m : NameMap α) : List String := m.entries.map Prod.fst

def insert (m : NameMap α) (name : String) (a : α) : NameMap α :=
  ⟨(name, a) :: m.entries.filter fun entry => entry.1 != name⟩

/-- The value under a name that is taken to be there. -/
def lookUp (m : NameMap α) (name : String) : Except Halt α :=
  match m.get? name with
  | some a => .ok a
  | none => .error (.missing name)

theorem mem_names {m : NameMap α} {name : String} :
    name ∈ m.names ↔ (m.get? name).isSome = true := by
  simp [names, get?]

theorem get?_insert (m : NameMap α) (name key : String) (a : α) :
    (m.insert name a).get? key = if key = name then some a else m.get? key := by
  by_cases h : key = name
  · simp [get?, insert, h]
  · have hother : (m.entries.filter fun entry => entry.1 != name).find? (fun entry =>
        entry.1 == key) = m.entries.find? fun entry => entry.1 == key := by
      rw [List.find?_filter]
      congr 1
      funext entry
      by_cases hkey : entry.1 = key <;> simp [hkey, h]
    simp only [get?, insert, List.find?_cons, hother, if_neg h, beq_eq_false_iff_ne.2 (Ne.symm h)]

end NameMap

/-! ## Scopes -/

/-- The fields of a table or a view: their names in order, and by name their types and positions. -/
structure Scope where
  fields : List String := []
  types : NameMap ValueType := {}
  positions : NameMap Nat := {}
deriving DecidableEq, Repr

namespace Scope

/-- Appends a field at the next position. A field that is there already is left, and the answer is
`false`. -/
def push (s : Scope) (field : String) (type : ValueType) : Bool × Scope :=
  if s.types.contains field then (false, s)
  else
    (true,
      { positions := s.positions.insert field s.fields.length
        types := s.types.insert field type
        fields := s.fields ++ [field] })

/-- The types of the fields, in order. -/
def tupleType (s : Scope) : Except Halt (List ValueType) := s.fields.mapM s.types.lookUp

/-- The layout of the scope, under the given name. -/
def layout (s : Scope) (name : String) (kind : ScopeKind) : Except Halt Layout := do
  let fields ← s.fields.zipIdx.mapM fun field =>
    (s.types.lookUp field.1).map fun type => Field.mk field.1 field.2 type
  return ⟨name, kind, fields⟩

end Scope

/-- The scopes that have been registered. Tables are stored under their names, views under their
normalized names. -/
structure Registry where
  tables : NameMap Scope := {}
  views : NameMap Scope := {}
  order : List (ScopeKind × String) := []
deriving DecidableEq, Repr

namespace Registry

/-- The scopes of a kind. -/
def scopes (m : Registry) : ScopeKind → NameMap Scope
  | .table => m.tables
  | .view => m.views

/-- The registry with a scope among those of its kind. -/
def store (m : Registry) (kind : ScopeKind) (key : String) (scope : Scope) : Registry :=
  match kind with
  | .table => { m with tables := m.tables.insert key scope }
  | .view => { m with views := m.views.insert key scope }

/-! ## Look-ups -/

/-- A field that has been found: the scope, and the name under which it has a type there. -/
structure Found where
  scope : Scope
  name : String
  typed : scope.types.contains name = true

def Found.type (f : Found) : ValueType := (f.scope.types.get? f.name).get f.typed

/-- The field that is stored as `name` in a scope, if it is there; it was asked for as `asked`. -/
def findField (scope : Scope) (key name asked : String) : Except Diagnostic Found :=
  if h : scope.types.contains name = true then .ok ⟨scope, name, h⟩
  else .error (.unknownField key asked)

/-- The field of a scope. A table of that name is looked for first. -/
def resolve (m : Registry) (scope field : String) : Except Diagnostic Found :=
  match m.tables.get? scope with
  | some table => findField table scope field field
  | none =>
    match m.views.get? (Name.normalize scope) with
    | some view => findField view (Name.normalize scope) (Name.normalize field) field
    | none => .error (.unknownScope scope)

def typeOf (m : Registry) (scope field : String) : Except Diagnostic ValueType :=
  (m.resolve scope field).map Found.type

def positionOf (m : Registry) (scope field : String) : Except Halt Nat :=
  match m.resolve scope field with
  | .ok found => found.scope.positions.lookUp found.name
  | .error d => .error (.refused d)

def isView (m : Registry) (name : String) : Bool := m.views.contains (Name.normalize name)

/-- Whether a view of that name would take the name of a table. -/
def namesTable (m : Registry) (name : String) : Bool :=
  m.tables.names.any fun table => Name.normalize table == Name.normalize name

/-- The layout of a scope. A table of that name is looked for first. -/
def layout (m : Registry) (scope : String) : Except Halt Layout :=
  match m.tables.get? scope with
  | some table => table.layout scope .table
  | none =>
    match m.views.get? (Name.normalize scope) with
    | some view => view.layout (Name.normalize scope) .view
    | none => .error (.refused (.unknownScope scope))

/-- The scope of an entry of the order, if it is stored. -/
def stored? (m : Registry) (entry : ScopeKind × String) : Option (Scope × String × ScopeKind) :=
  ((m.scopes entry.1).get? entry.2).map fun scope => (scope, entry.2, entry.1)

/-- The layouts in the order of registration. An entry whose scope is not stored is left out. -/
def layouts (m : Registry) : Except Halt (List Layout) :=
  (m.order.filterMap m.stored?).mapM fun x => x.1.layout x.2.1 x.2.2

/-! ## Typing -/

/-- A controllable column is an integer variable, a column of a view has the type recorded for it,
any other column that of its declared kind. -/
def columnType (m : Registry) (ref : ColumnRef) : Except Diagnostic ValueType :=
  if ref.column.controllable then .ok .intVar
  else if m.isView ref.table then m.typeOf ref.table ref.column.name
  else .ok (.ofKind ref.column.kind)

def typing (m : Registry) (e : Expr) : Logged ValueType := e.typing m.columnType

/-- The types of expressions, up to the first that has none. -/
def tupleTyping (m : Registry) (es : List Expr) : Logged (List ValueType) := es.mapM m.typing

end Registry

end ViewTyping
