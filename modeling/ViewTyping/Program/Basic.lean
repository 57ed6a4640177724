import ViewTyping.Expr.Basic

/-!
# Programs
-/

set_option autoImplicit false

namespace ViewTyping

/-- A named selection from tables and other views. -/
structure View where
  name : String
  select : List Expr

/-- Tables and views. Views may be listed in any order. -/
structure Program where
  tables : List Table := []
  views : List View := []

end ViewTyping
