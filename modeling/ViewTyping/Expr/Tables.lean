import ViewTyping.Expr.Basic

/-!
# The tables and views that an expression reads

`Expr.tables` lists the names in the order in which they first occur. In a sub-query the
qualifiers come first, then the selection, then the columns of the grouping.
-/

set_option autoImplicit false

namespace ViewTyping

/-- A list of names with one more name, unless it is there already. -/
def insertName (names : List String) (name : String) : List String :=
  if name ∈ names then names else names ++ [name]

mutual

/-- The names in `names`, then the new ones that the expression reads. -/
def Expr.addTables (names : List String) : Expr → List String
  | .column ref => insertName names ref.table
  | .literal _ => names
  | .unary _ arg => arg.addTables names
  | .binary _ left right => right.addTables (left.addTables names)
  | .call _ args => addTablesOfExprs names args
  | .test _ arg => arg.addTables names
  | .subquery select qualifiers groupBy =>
    (groupBy.getD []).foldl (fun names ref => insertName names ref.table)
      (addTablesOfExprs (addTablesOfQualifiers names qualifiers) select)
  | .aliased e _ => e.addTables names

def addTablesOfExprs (names : List String) : List Expr → List String
  | [] => names
  | e :: es => addTablesOfExprs (e.addTables names) es

def Qualifier.addTables (names : List String) : Qualifier → List String
  | .source table => insertName names table
  | .filter e => e.addTables names
  | .join e => e.addTables names

def addTablesOfQualifiers (names : List String) : List Qualifier → List String
  | [] => names
  | q :: qs => addTablesOfQualifiers (q.addTables names) qs

end

/-- Every table or view that the expression reads, each once, in order of first occurrence. -/
def Expr.tables (e : Expr) : List String := e.addTables []

end ViewTyping
