import ViewTyping.Catalog.Register

/-!
# Calls on a catalog

A catalog is used through calls. Each call has an answer; only a successful registration changes
the catalog.
-/

set_option autoImplicit false

namespace ViewTyping.Catalog

inductive Call where
  | registerTable (t : Table)
  | registerView (name : String) (select : List Expr)
  | infer (e : Expr)
  | inferTuple (es : List Expr)
  | typeOf (scope field : String)
  | positionOf (scope field : String)
  | isView (name : String)
  | layout (scope : String)
  | layouts

inductive Answer where
  /-- The types of a tuple's fields. -/
  | tuple (types : List ValueType)
  | type (t : ValueType)
  | position (n : Nat)
  | isView (b : Bool)
  | layout (l : Layout)
  | layouts (ls : List Layout)
  | refused (d : Diagnostic)
deriving DecidableEq, Repr

/-- The answer that a result amounts to. -/
def Answer.ofResult {α : Type} (answer : α → Answer) : Except Diagnostic α → Answer
  | .ok a => answer a
  | .error d => .refused d

/-- The catalog after a registration that came out as given. -/
def afterRegistration (c : Catalog) : Except Diagnostic Layout → Catalog
  | .ok l => c.push l
  | .error _ => c

/-- What a call does: the catalog after it, its answer and the events on the way. -/
structure Outcome where
  catalog : Catalog
  answer : Answer
  events : List Event

/-- The outcome of a registration. -/
def enter (c : Catalog) (layout : Logged Layout) : Outcome :=
  ⟨c.afterRegistration layout.result, .ofResult (fun l => .tuple l.types) layout.result,
    layout.events⟩

def perform (c : Catalog) : Call → Outcome
  | .registerTable t => c.enter (c.tableLayout t)
  | .registerView name select => c.enter (c.viewLayout name select)
  | .infer e => ⟨c, .ofResult .type (c.typing e).result, (c.typing e).events⟩
  | .inferTuple es => ⟨c, .ofResult .tuple (c.tupleTyping es).result, (c.tupleTyping es).events⟩
  | .typeOf scope field => ⟨c, .ofResult .type (c.typeOf scope field), []⟩
  | .positionOf scope field => ⟨c, .ofResult .position (c.positionOf scope field), []⟩
  | .isView name => ⟨c, .isView (c.isView name), []⟩
  | .layout scope => ⟨c, .ofResult .layout (c.layout scope), []⟩
  | .layouts => ⟨c, .layouts c.layouts, []⟩

/-- The outcomes of calls made one after the other. -/
def performAll (c : Catalog) : List Call → List Outcome
  | [] => []
  | call :: calls =>
    let outcome := c.perform call
    outcome :: outcome.catalog.performAll calls

end ViewTyping.Catalog
