import ViewTyping.Expr.Basic

/-!
# Assembling expressions

Expressions are assembled on a stack, in postfix order: a step takes the parts of an expression
from the stack and puts the expression in their place.
-/

set_option autoImplicit false

namespace ViewTyping.Assembly

/-- A qualifier whose predicate, if it has one, is taken from the stack. -/
inductive QualifierForm where
  | source (table : String)
  | filter
  | join
deriving DecidableEq, Repr

inductive Step where
  | push (e : Expr)
  | unary (op : UnaryOp)
  | binary (op : BinaryOp)
  | call (function : Builtin) (arity : Nat)
  | test (test : Test)
  | alias (name : String)
  | unalias
  | duplicate
  | subquery (select : Nat) (qualifiers : List QualifierForm) (groupBy : Option (List ColumnRef))

/-- The number of predicates that qualifiers take from the stack. -/
def predicateCount (forms : List QualifierForm) : Nat :=
  forms.countP fun
    | .source _ => false
    | _ => true

/-- The qualifiers with the given predicates, in order. -/
def fill : List QualifierForm → List Expr → List Qualifier
  | .source table :: forms, es => .source table :: fill forms es
  | .filter :: forms, e :: es => .filter e :: fill forms es
  | .join :: forms, e :: es => .join e :: fill forms es
  | _, _ => []

/-- Takes the `n` uppermost expressions from a stack, the lowest of them first. -/
def pop (n : Nat) (stack : List Expr) : Option (List Expr × List Expr) :=
  if n ≤ stack.length then some ((stack.take n).reverse, stack.drop n) else none

/-- The stack after a step, or nothing if it holds too few expressions. The head of the list is
the top of the stack. -/
def step (stack : List Expr) : Step → Option (List Expr)
  | .push e => some (e :: stack)
  | .unary op =>
    match stack with
    | arg :: stack => some (.unary op arg :: stack)
    | [] => none
  | .binary op =>
    match stack with
    | right :: left :: stack => some (.binary op left right :: stack)
    | _ => none
  | .call function arity => do
    let (args, stack) ← pop arity stack
    return .call function args :: stack
  | .test test =>
    match stack with
    | arg :: stack => some (.test test arg :: stack)
    | [] => none
  | .alias name =>
    match stack with
    | e :: stack => some (e.named name :: stack)
    | [] => none
  | .unalias =>
    match stack with
    | e :: stack => some (e.unaliased :: stack)
    | [] => none
  | .duplicate =>
    match stack with
    | e :: stack => some (e :: e :: stack)
    | [] => none
  | .subquery select qualifiers groupBy => do
    let (parts, stack) ← pop (select + predicateCount qualifiers) stack
    return .subquery (parts.take select) (fill qualifiers (parts.drop select)) groupBy :: stack

end ViewTyping.Assembly
