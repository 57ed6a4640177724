/-!
# Operators and built-in functions
-/

set_option autoImplicit false

namespace ViewTyping

inductive UnaryOp where
  | not
  | minus
  | plus
deriving DecidableEq, Repr

inductive BinaryOp where
  | equal
  | notEqual
  | lessThan
  | lessThanOrEqual
  | greaterThan
  | greaterThanOrEqual
  | isIn
  | or
  | and
  | contains
  | add
  | subtract
  | multiply
  | divide
  | modulus
deriving DecidableEq, Repr

/-- Aggregates, and the constraints that only a solver can evaluate. -/
inductive Builtin where
  | sum
  | count
  | max
  | min
  | any
  | all
  | allEqual
  | allDifferent
  | increasing
  | scalarProduct
  | capacityConstraint
deriving DecidableEq, Repr

namespace UnaryOp

def all : List UnaryOp := [not, minus, plus]

/-- The name in a program's text. -/
def name : UnaryOp → String
  | not => "Not"
  | minus => "Minus"
  | plus => "Plus"

def symbol : UnaryOp → String
  | not => "NOT"
  | minus => "-"
  | plus => "+"

end UnaryOp

namespace BinaryOp

def all : List BinaryOp :=
  [equal, notEqual, lessThan, lessThanOrEqual, greaterThan, greaterThanOrEqual, isIn, or, and,
    contains, add, subtract, multiply, divide, modulus]

/-- The name in a program's text. -/
def name : BinaryOp → String
  | equal => "Equal"
  | notEqual => "NotEqual"
  | lessThan => "LessThan"
  | lessThanOrEqual => "LessThanOrEqual"
  | greaterThan => "GreaterThan"
  | greaterThanOrEqual => "GreaterThanOrEqual"
  | isIn => "In"
  | or => "Or"
  | and => "And"
  | contains => "Contains"
  | add => "Add"
  | subtract => "Subtract"
  | multiply => "Multiply"
  | divide => "Divide"
  | modulus => "Modulus"

def symbol : BinaryOp → String
  | equal => "="
  | notEqual => "!="
  | lessThan => "<"
  | lessThanOrEqual => "<="
  | greaterThan => ">"
  | greaterThanOrEqual => ">="
  | isIn => "IN"
  | or => "OR"
  | and => "AND"
  | contains => "CONTAINS"
  | add => "+"
  | subtract => "-"
  | multiply => "*"
  | divide => "/"
  | modulus => "%"

/-- Whether the operator computes a number. -/
def isArithmetic : BinaryOp → Bool
  | add | subtract | multiply | divide | modulus => true
  | _ => false

/-- Whether the operator computes a truth value. -/
def isComparison (op : BinaryOp) : Bool := !op.isArithmetic

end BinaryOp

namespace Builtin

/-- All built-in functions. -/
def every : List Builtin :=
  [sum, count, max, min, any, all, allEqual, allDifferent, increasing, scalarProduct,
    capacityConstraint]

/-- The name in a program's text. -/
def name : Builtin → String
  | sum => "Sum"
  | count => "Count"
  | max => "Max"
  | min => "Min"
  | any => "Any"
  | all => "All"
  | allEqual => "AllEqual"
  | allDifferent => "AllDifferent"
  | increasing => "Increasing"
  | scalarProduct => "ScalarProduct"
  | capacityConstraint => "CapacityConstraint"

def symbol : Builtin → String
  | sum => "SUM"
  | count => "COUNT"
  | max => "MAX"
  | min => "MIN"
  | any => "ANY"
  | all => "ALL"
  | allEqual => "ALL_EQUAL"
  | allDifferent => "ALL_DIFFERENT"
  | increasing => "INCREASING"
  | scalarProduct => "SCALAR_PRODUCT"
  | capacityConstraint => "CAPACITY_CONSTRAINT"

end Builtin

end ViewTyping
