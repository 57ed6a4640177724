import ViewTyping.Decimal.Binary64
import ViewTyping.Operator
import ViewTyping.Table

/-!
# Expressions

The expressions of a program, and the names given to them: an expression may be wrapped in any
number of aliases, of which only the outermost names it.
-/

set_option autoImplicit false

namespace ViewTyping

/-- A reference to a column of a table or of a view. -/
structure ColumnRef where
  /-- The table or view, as written. -/
  table : String
  column : Column
deriving DecidableEq, Repr

inductive Literal where
  | string (s : String)
  | int (n : Int32)
  | bool (b : Bool)
  | long (n : Int64)
  | float (x : Binary64)
  | null
deriving DecidableEq, Repr

/-- A test of a value for presence. -/
inductive Test where
  | existence
  | isNull
  | isNotNull
deriving DecidableEq, Repr

mutual

inductive Expr where
  | column (ref : ColumnRef)
  | literal (value : Literal)
  | unary (op : UnaryOp) (arg : Expr)
  | binary (op : BinaryOp) (left right : Expr)
  | call (function : Builtin) (args : List Expr)
  | test (test : Test) (arg : Expr)
  /-- The rows selected from the sources that the qualifiers name, as far as their predicates
  hold; grouped by columns if `groupBy` is given, even if it lists none. -/
  | subquery (select : List Expr) (qualifiers : List Qualifier) (groupBy : Option (List ColumnRef))
  | aliased (expr : Expr) (name : String)

/-- What follows the selection of a sub-query: sources of rows, and predicates on them. -/
inductive Qualifier where
  | source (table : String)
  | filter (predicate : Expr)
  | join (predicate : Expr)

end

namespace Expr

/-- The expression inside its aliases. -/
def unaliased : Expr → Expr
  | aliased e _ => e.unaliased
  | e => e

/-- The expression under one alias, in place of those it has. -/
def named (e : Expr) (name : String) : Expr := aliased e.unaliased name

/-- The outermost alias. -/
def alias? : Expr → Option String
  | aliased _ name => some name
  | _ => none

/-- The column that the expression is, apart from aliases. -/
def column? (e : Expr) : Option ColumnRef :=
  match e.unaliased with
  | column ref => some ref
  | _ => none

end Expr

end ViewTyping
