import ViewTyping.Catalog.Basic
import ViewTyping.Event
import ViewTyping.Expr.Render

/-!
# Typing

The type of an expression comes from the types of its parts, from the declared kinds of the columns
it reads and, for columns of views, from the catalog. Predicates, groupings and the arguments of
constraints are not looked at.
-/

set_option autoImplicit false

namespace ViewTyping

def Literal.type : Literal → Except Diagnostic ValueType
  | .string _ => .ok .string
  | .int _ => .ok .integer
  | .bool _ => .ok .bool
  | .long _ => .ok .long
  | .float x => .error (.unsupportedLiteral (Literal.float x).render)
  | .null => .error (.unsupportedLiteral Literal.null.render)

/-- A negation is a variable only if its operand is a truth value that the solver decides. -/
def UnaryOp.resultType : UnaryOp → ValueType → ValueType
  | .not, t => .boolLike (t == .boolVar)
  | .minus, t | .plus, t => t

def BinaryOp.resultType (op : BinaryOp) (left right : ValueType) : ValueType :=
  if op.isArithmetic then .intLike (left.isVar || right.isVar)
  else .boolLike (left.isVar || right.isVar)

/-- The type of an aggregate of values of type `t`; the constraints are no aggregates. -/
def Builtin.aggregateType? : Builtin → ValueType → Option ValueType
  | .sum, t | .count, t => some (if t.isVar then .intVar else .long)
  | .max, t | .min, t => some t
  | .any, t | .all, t | .allEqual, t | .allDifferent, t | .increasing, t =>
    some (.boolLike t.isVar)
  | .scalarProduct, _ | .capacityConstraint, _ => none

/-- The type of a call with none or several arguments, whatever they are. -/
def Builtin.constraintType? : Builtin → (arity : Nat) → Option ValueType
  | .scalarProduct, 2 => some .intVar
  | .capacityConstraint, 4 => some .boolVar
  | _, _ => none

/-- The type of an expression, given the types of columns, with a warning for each sub-query that
is used as a value. -/
def Expr.typing (column : ColumnRef → Except Diagnostic ValueType) : Expr → Logged ValueType
  | .column ref => .ofExcept (column ref)
  | .literal value => .ofExcept value.type
  | .unary op arg => do
    let t ← arg.typing column
    return op.resultType t
  | .binary op left right => do
    let l ← left.typing column
    let r ← right.typing column
    return op.resultType l r
  | .call function [arg] => do
    let t ← arg.typing column
    match function.aggregateType? t with
    | some t => return t
    | none => .fail (.unsupportedFunction function 1 (Expr.call function [arg]).render)
  | .call function args =>
    match function.constraintType? args.length with
    | some t => return t
    | none =>
      .fail (.unsupportedFunction function args.length (Expr.call function args).render)
  | .test _ arg => do
    let t ← arg.typing column
    return .boolLike t.isVar
  | .subquery [e] qualifiers groupBy => do
    let t ← e.typing column
    Logged.emit (.typedSubquery (Expr.subquery [e] qualifiers groupBy).render t)
    return t
  | .subquery select qualifiers groupBy =>
    .fail (.ambiguousSubqueryType (Expr.subquery select qualifiers groupBy).render select.length)
  | .aliased e _ => e.typing column

namespace Catalog

/-- A controllable column is an integer variable, a column of a view has the type recorded for it,
any other column that of its declared kind. -/
def columnType (c : Catalog) (ref : ColumnRef) : Except Diagnostic ValueType :=
  if ref.column.controllable then .ok .intVar
  else if c.isView ref.table then c.typeOf ref.table ref.column.name
  else .ok (.ofKind ref.column.kind)

def typing (c : Catalog) (e : Expr) : Logged ValueType := e.typing c.columnType

/-- The type of an expression. -/
def infer (c : Catalog) (e : Expr) : Except Diagnostic ValueType := (c.typing e).result

/-- The types of expressions, up to the first that has none. -/
def tupleTyping (c : Catalog) (es : List Expr) : Logged (List ValueType) := es.mapM c.typing

/-- The types of expressions, in order. -/
def inferTuple (c : Catalog) (es : List Expr) : Except Diagnostic (List ValueType) :=
  (c.tupleTyping es).result

end Catalog

end ViewTyping
