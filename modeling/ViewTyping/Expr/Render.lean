import ViewTyping.Decimal.Shortest
import ViewTyping.Expr.Basic

/-!
# The text of an expression

Diagnostics show expressions in the notation of queries.
-/

set_option autoImplicit false

namespace ViewTyping

def ColumnRef.render (ref : ColumnRef) : String := ref.table ++ "." ++ ref.column.name

/-- A text between quotes, with the quotes inside it written twice. -/
def quoteText (s : String) : String :=
  "'" ++ String.ofList (s.toList.flatMap fun c => if c = '\'' then ['\'', '\''] else [c]) ++ "'"

def Literal.render : Literal → String
  | .string s => quoteText s
  | .int n => toString n.toInt
  | .bool b => if b then "true" else "false"
  | .long n => toString n.toInt ++ "L"
  | .float x => x.render
  | .null => "NULL"

/-- The sources that qualifiers name, in order. -/
def Qualifier.source? : Qualifier → Option String
  | .source table => some table
  | _ => none

/-- A heading and the items under it, or nothing if there are none. -/
def clause (heading separator : String) (items : List String) : String :=
  if items.isEmpty then "" else heading ++ separator.intercalate items

mutual

def Expr.render : Expr → String
  | .column ref => ref.render
  | .literal value => value.render
  | .unary .not arg => "NOT " ++ arg.render
  | .unary op arg => op.symbol ++ arg.render
  | .binary op left right =>
    "(" ++ left.render ++ " " ++ op.symbol ++ " " ++ right.render ++ ")"
  | .call function args => function.symbol ++ "(" ++ ", ".intercalate (renderExprs args) ++ ")"
  | .test .existence arg => "EXISTS(" ++ arg.render ++ ")"
  | .test .isNull arg => arg.render ++ " IS NULL"
  | .test .isNotNull arg => arg.render ++ " IS NOT NULL"
  | .subquery select qualifiers groupBy =>
    "[SELECT " ++ ", ".intercalate (renderExprs select) ++
      clause " FROM " ", " (qualifiers.filterMap Qualifier.source?) ++
      clause " WHERE " " AND " (renderPredicates qualifiers) ++
      (match groupBy with
        | none => ""
        | some refs => " GROUP BY " ++ ", ".intercalate (refs.map ColumnRef.render)) ++ "]"
  | .aliased e name => e.render ++ " AS " ++ name

def renderExprs : List Expr → List String
  | [] => []
  | e :: es => e.render :: renderExprs es

def Qualifier.renderPredicate? : Qualifier → Option String
  | .source _ => none
  | .filter e => some e.render
  | .join e => some e.render

/-- The texts of the predicates among qualifiers, in order. -/
def renderPredicates : List Qualifier → List String
  | [] => []
  | q :: qs => q.renderPredicate?.toList ++ renderPredicates qs

end

end ViewTyping
