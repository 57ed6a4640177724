import ViewTyping.Catalog.Call
import ViewTyping.Registry.Basic

/-!
# Calls on a registry

A registration writes to the stores of a registry one after the other, and may stop at many places.
What it has written by then stays written (`Registry.Action`).
-/

set_option autoImplicit false

namespace ViewTyping.Registry

open Catalog (Call Answer)

/-- A registry in use, and the events that have been reported. -/
structure Session where
  registry : Registry
  events : List Event := []

/-- A computation on a session. Where it stops, the session is left as it is then. -/
def Action (α : Type) : Type := Session → Except Halt α × Session

namespace Action

variable {α β : Type}

instance : Monad Action where
  pure a := fun s => (.ok a, s)
  bind x f := fun s =>
    match x s with
    | (.ok a, s') => f a s'
    | (.error h, s') => (.error h, s')

theorem bind_of_ok {x : Action α} {s s' : Session} {a : α} (h : x s = (.ok a, s'))
    (f : α → Action β) : (x >>= f) s = f a s' := by
  simp only [bind, h]

theorem bind_of_error {x : Action α} {s s' : Session} {e : Halt} (h : x s = (.error e, s'))
    (f : α → Action β) : (x >>= f) s = (.error e, s') := by
  simp only [bind, h]

def halt (h : Halt) : Action α := fun s => (.error h, s)

def ofExcept (x : Except Halt α) : Action α := fun s => (x, s)

/-- A computation that reports events and may be refused. -/
def ofLogged (x : Logged α) : Action α := fun s =>
  (x.result.mapError .refused, { s with events := s.events ++ x.events })

def emit (e : Event) : Action Unit := ofLogged (Logged.emit e)

/-- The registry as it is now. -/
def registry : Action Registry := fun s => (.ok s.registry, s)

def write (f : Registry → Registry) : Action Unit := fun s =>
  (.ok (), { s with registry := f s.registry })

end Action

open ViewTyping.Registry.Action

/-! ## Registration -/

/-- The scope with one more field, unless it has a field of that name. -/
def addField (key : String) (scope : Scope) (field : String) (type : ValueType) : Action Scope :=
  match scope.push field type with
  | (true, scope) => return scope
  | (false, _) => halt (.refused (.duplicateField key field))

/-- The scope with a table's column as its next field. -/
def addColumn (table : String) (scope : Scope) (column : Column) : Action Scope :=
  addField table scope column.name (.ofColumn column)

/-- The scope with an output of a view as its next field. -/
def addOutput (view : String) (scope : Scope) (e : Expr) : Action Scope := do
  let field ← ofLogged (.ofExcept (e.outputName view))
  let m ← registry
  let type ← ofLogged (m.typing e)
  emit (.typedField view field type)
  addField view scope field type

/-- Stores a scope whose fields are complete, and answers their types. -/
def enter (kind : ScopeKind) (key : String) (registered : String → List ValueType → Event)
    (scope : Scope) : Action (List ValueType) := do
  let tuple ← ofExcept scope.tupleType
  emit (registered key tuple)
  write fun m => m.store kind key scope
  write fun m => { m with order := m.order ++ [(kind, key)] }
  return tuple

def registerTable (t : Table) : Action (List ValueType) := do
  let m ← registry
  if m.tables.contains t.name || m.views.contains (Name.normalize t.name) then
    halt (.refused (.scopeAlreadyRegistered t.name))
  else
    let scope ← t.columns.foldlM (addColumn t.name) {}
    enter .table t.name .registeredTable scope

def registerView (name : String) (select : List Expr) : Action (List ValueType) := do
  let key := Name.normalize name
  let m ← registry
  if m.views.contains key || m.namesTable key then
    halt (.refused (.scopeAlreadyRegistered key))
  else
    let scope ← select.foldlM (addOutput key) {}
    enter .view key .registeredView scope

/-! ## Calls -/

/-- What a call does: the registry after it, its answer, if it does not break off, and the events on
the way. -/
structure Outcome where
  registry : Registry
  answer? : Option Answer
  events : List Event

/-- The answer that a result amounts to. -/
def answerOf {α : Type} (answer : α → Answer) : Except Halt α → Option Answer
  | .ok a => some (answer a)
  | .error (.refused d) => some (.refused d)
  | .error (.missing _) => none

/-- Runs a registration. -/
def register (m : Registry) (action : Action (List ValueType)) : Outcome :=
  let run := action ⟨m, []⟩
  ⟨run.2.registry, answerOf .tuple run.1, run.2.events⟩

def perform (m : Registry) : Call → Outcome
  | .registerTable t => m.register (registerTable t)
  | .registerView name select => m.register (registerView name select)
  | .infer e => ⟨m, some (.ofResult .type (m.typing e).result), (m.typing e).events⟩
  | .inferTuple es =>
    ⟨m, some (.ofResult .tuple (m.tupleTyping es).result), (m.tupleTyping es).events⟩
  | .typeOf scope field => ⟨m, some (.ofResult .type (m.typeOf scope field)), []⟩
  | .positionOf scope field => ⟨m, answerOf .position (m.positionOf scope field), []⟩
  | .isView name => ⟨m, some (.isView (m.isView name)), []⟩
  | .layout scope => ⟨m, answerOf .layout (m.layout scope), []⟩
  | .layouts => ⟨m, answerOf .layouts m.layouts, []⟩

/-- The outcomes of calls made one after the other. -/
def performAll (m : Registry) : List Call → List Outcome
  | [] => []
  | call :: calls =>
    let outcome := m.perform call
    outcome :: outcome.registry.performAll calls

/-- The registry after calls made one after the other. -/
def after (m : Registry) (calls : List Call) : Registry :=
  calls.foldl (fun m call => (m.perform call).registry) m

end ViewTyping.Registry
