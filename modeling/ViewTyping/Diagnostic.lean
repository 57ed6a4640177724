import ViewTyping.Operator

/-!
# Diagnostics

Why a table, a view or an expression is refused. Expressions are carried as text, so a diagnostic
stands apart from the program that it is about.
-/

set_option autoImplicit false

namespace ViewTyping

inductive Diagnostic where
  /-- A scope of that name exists already. -/
  | scopeAlreadyRegistered (scope : String)
  | unknownScope (scope : String)
  | unknownField (scope field : String)
  /-- A literal of a kind that has no type. -/
  | unsupportedLiteral (literal : String)
  /-- A function applied to a number of arguments for which it has no type. -/
  | unsupportedFunction (function : Builtin) (arity : Nat) (expr : String)
  /-- An output of a view that is neither aliased nor a column. -/
  | unaliasedOutputField (view expr : String)
  | duplicateField (scope field : String)
  /-- A sub-query used as a value that selects none or several fields. -/
  | ambiguousSubqueryType (expr : String) (fields : Nat)
  /-- Views that read each other in a cycle; the first name is repeated at the end. -/
  | viewCycle (cycle : List String)
deriving DecidableEq, Repr

namespace Diagnostic

/-- Whether the fault lies with the program that produced the input, not with its author. -/
def isInternal : Diagnostic → Bool
  | scopeAlreadyRegistered _ | unknownScope _ | unknownField .. | unsupportedLiteral _
  | unsupportedFunction .. => true
  | unaliasedOutputField .. | duplicateField .. | ambiguousSubqueryType .. | viewCycle _ => false

/-- The words for who has to act. -/
def className (d : Diagnostic) : String :=
  if d.isInternal then "internal compiler error" else "error"

/-- The stable code of a diagnostic, `E` for authors and `I` for internal faults. -/
def code : Diagnostic → String
  | unaliasedOutputField .. => "E0001"
  | duplicateField .. => "E0002"
  | ambiguousSubqueryType .. => "E0003"
  | viewCycle _ => "E0004"
  | scopeAlreadyRegistered _ => "I0001"
  | unknownScope _ => "I0002"
  | unknownField .. => "I0003"
  | unsupportedLiteral _ => "I0004"
  | unsupportedFunction .. => "I0005"

def message : Diagnostic → String
  | scopeAlreadyRegistered scope => "scope `" ++ scope ++ "` is already registered"
  | unknownScope scope => "unknown scope `" ++ scope ++ "`"
  | unknownField scope field => "scope `" ++ scope ++ "` has no field `" ++ field ++ "`"
  | unsupportedLiteral literal => "no type for literal `" ++ literal ++ "`"
  | unsupportedFunction function arity expr =>
    "unsupported function `" ++ function.symbol ++ "` with " ++ toString arity ++
      (if arity = 1 then " argument: " else " arguments: ") ++ expr
  | unaliasedOutputField view expr =>
    "non-column output fields must be aliased: `" ++ expr ++ "` in view `" ++ view ++ "`"
  | duplicateField scope field =>
    "field `" ++ field ++ "` appears more than once in `" ++ scope ++ "`"
  | ambiguousSubqueryType expr fields =>
    "ambiguous tuple type for sub-query: expected 1 output field, found " ++ toString fields ++
      ": " ++ expr
  | viewCycle cycle => "views depend on each other: " ++ " -> ".intercalate cycle

end Diagnostic

end ViewTyping
