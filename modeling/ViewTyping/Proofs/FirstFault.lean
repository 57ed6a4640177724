import ViewTyping.Proofs.CatalogHistory

/-!
# The first fault of an expression

Typing goes through an expression from left to right and from the inside to the outside, and ends at
the first node that is at fault by itself.

* `Expr.visited`: the nodes on this way, in order. Predicates, groupings and the arguments of
  constraints are not on it.
* `Expr.ownFault?`: what is wrong with a node when nothing is wrong with its parts.
* `faultOf_typing`: typing fails with the first fault on the way, whatever is wrong with columns.
* `infer_first_fault`: in a catalog with a history, columns are at fault for fields that views lack.
-/

set_option autoImplicit false

namespace ViewTyping

/-! ## Faults of results -/

section
variable {α β : Type}

/-- The fault that a computation has come to, if any. -/
def faultOf : Except Diagnostic α → Option Diagnostic
  | .ok _ => none
  | .error d => some d

theorem faultOf_eq_some {x : Except Diagnostic α} {d : Diagnostic} :
    faultOf x = some d ↔ x = .error d := by
  cases x <;> simp [faultOf]

/-- A second part that has the same fault whatever the first comes to. -/
theorem faultOf_bind {x : Except Diagnostic α} {f : α → Except Diagnostic β}
    {second : Option Diagnostic} (hf : ∀ a, faultOf (f a) = second) :
    faultOf (x.bind f) = (faultOf x).or second := by
  cases x with
  | error d => rfl
  | ok a => exact hf a

end

/-! ## Nodes on the way -/

/-- The nodes that typing comes to, each behind its parts, and the parts from left to right. It
enters the arguments of a call only if there is one, and the selection of a sub-query only if it is
a single expression. -/
def Expr.visited : Expr → List Expr
  | column ref => [column ref]
  | literal value => [literal value]
  | unary op arg => arg.visited ++ [unary op arg]
  | binary op left right => left.visited ++ (right.visited ++ [binary op left right])
  | call function [arg] => arg.visited ++ [call function [arg]]
  | call function args => [call function args]
  | test t arg => arg.visited ++ [test t arg]
  | subquery [e] qualifiers groupBy => e.visited ++ [subquery [e] qualifiers groupBy]
  | subquery select qualifiers groupBy => [subquery select qualifiers groupBy]
  | aliased e name => e.visited ++ [aliased e name]

/-- The number of arguments with which a function has a type. -/
def Builtin.arity : Builtin → Nat
  | .scalarProduct => 2
  | .capacityConstraint => 4
  | _ => 1

/-- What is wrong with a node by itself, if `column` says what is wrong with columns. -/
def Expr.ownFault? (column : ColumnRef → Option Diagnostic) : Expr → Option Diagnostic
  | .column ref => column ref
  | .literal (.float x) => some (.unsupportedLiteral (Literal.float x).render)
  | .literal .null => some (.unsupportedLiteral Literal.null.render)
  | .call function args =>
    if args.length = function.arity then none
    else some (.unsupportedFunction function args.length (Expr.call function args).render)
  | .subquery select qualifiers groupBy =>
    if select.length = 1 then none
    else some (.ambiguousSubqueryType (Expr.subquery select qualifiers groupBy).render
      select.length)
  | _ => none

theorem Builtin.isSome_aggregateType? {function : Builtin} {t : ValueType} :
    (function.aggregateType? t).isSome = true ↔ 1 = function.arity := by
  cases function <;> simp [aggregateType?, arity]

/-- Of the calls with none or several arguments, only the constraints have a type. -/
theorem Builtin.isSome_constraintType? {function : Builtin} {n : Nat} (hn : n ≠ 1) :
    (function.constraintType? n).isSome = true ↔ n = function.arity := by
  unfold constraintType? arity
  split
  · simp
  · simp
  · split <;> grind

theorem length_ne_one {es : List Expr} (h : ∀ e, es = [e] → False) : es.length ≠ 1 := by
  intro hlength
  obtain ⟨e, he⟩ := List.length_eq_one_iff.1 hlength
  exact h e he

section
variable {column : ColumnRef → Except Diagnostic ValueType}

theorem faultOf_literal (value : Literal) (f : ColumnRef → Option Diagnostic) :
    faultOf value.type = (Expr.literal value).ownFault? f := by
  cases value <;> rfl

/-- **Typing fails with the first fault on the way.** -/
theorem faultOf_typing (e : Expr) : faultOf (e.typing column).result =
    e.visited.findSome? (Expr.ownFault? fun ref => faultOf (column ref)) := by
  induction e using Expr.typing.induct with
  | case1 ref =>
    rw [Expr.typing, Expr.visited, List.findSome?_singleton]
    rfl
  | case2 value =>
    rw [Expr.typing, Expr.visited, List.findSome?_singleton]
    exact faultOf_literal value _
  | case3 op arg ih =>
    rw [Expr.typing, Expr.visited, List.findSome?_append, List.findSome?_singleton, ← ih,
      Logged.result_bind]
    exact faultOf_bind fun t => rfl
  | case4 op left right ihl ihr =>
    rw [Expr.typing, Expr.visited, List.findSome?_append, List.findSome?_append,
      List.findSome?_singleton, ← ihl, ← ihr, Logged.result_bind]
    refine faultOf_bind fun l => ?_
    rw [Logged.result_bind]
    exact faultOf_bind fun r => rfl
  | case5 function arg ih =>
    rw [Expr.typing, Expr.visited, List.findSome?_append, List.findSome?_singleton, ← ih,
      Logged.result_bind]
    refine faultOf_bind fun t => ?_
    -- whether there is a rule depends on the function only, not on the type of its argument
    have harity : (function.aggregateType? t).isSome = true ↔ [arg].length = function.arity :=
      Builtin.isSome_aggregateType?
    cases ht : function.aggregateType? t with
    | none =>
      rw [ht] at harity
      rw [Expr.ownFault?, if_neg fun h => (by cases harity.2 h)]
      rfl
    | some t' =>
      rw [ht] at harity
      rw [Expr.ownFault?, if_pos (harity.1 rfl)]
      rfl
  | case6 function args hne t ht =>
    have harity : args.length = function.arity :=
      (Builtin.isSome_constraintType? (length_ne_one hne)).1 (by rw [ht]; rfl)
    rw [Expr.typing, ht, Expr.visited, List.findSome?_singleton, Expr.ownFault?, if_pos harity]
    · rfl
    · exact hne
    · exact hne
  | case7 function args hne hnone =>
    have harity : ¬ args.length = function.arity := fun h => by
      have := (Builtin.isSome_constraintType? (length_ne_one hne)).2 h
      rw [hnone] at this
      cases this
    rw [Expr.typing, hnone, Expr.visited, List.findSome?_singleton, Expr.ownFault?, if_neg harity]
    · rfl
    · exact hne
    · exact hne
  | case8 t arg ih =>
    rw [Expr.typing, Expr.visited, List.findSome?_append, List.findSome?_singleton, ← ih,
      Logged.result_bind]
    exact faultOf_bind fun t => rfl
  | case9 e qualifiers groupBy ih =>
    rw [Expr.typing, Expr.visited, List.findSome?_append, List.findSome?_singleton, ← ih,
      Logged.result_bind]
    exact faultOf_bind fun t => rfl
  | case10 select qualifiers groupBy hne =>
    rw [Expr.typing, Expr.visited, List.findSome?_singleton, Expr.ownFault?,
      if_neg (length_ne_one hne)]
    · rfl
    · exact hne
    · exact hne
  | case11 e name ih =>
    rw [Expr.typing, Expr.visited, List.findSome?_append, List.findSome?_singleton, ← ih]
    exact (Option.or_none).symm

end

theorem ownFault?_ne_unknownScope {column : ColumnRef → Option Diagnostic} {scope : String}
    (hcolumn : ∀ ref, column ref ≠ some (.unknownScope scope)) (n : Expr) :
    n.ownFault? column ≠ some (.unknownScope scope) := by
  unfold Expr.ownFault?
  split
  · exact hcolumn _
  · simp
  · simp
  · split <;> simp
  · split <;> simp
  · simp

/-! ## Faults in a catalog -/

namespace Catalog

variable {c : Catalog}

/-- A column is at fault if it is said to be one of a view that has no field of its name, unless it
is controllable. -/
def columnFault? (c : Catalog) (ref : ColumnRef) : Option Diagnostic :=
  if ref.column.controllable then none
  else (c.view? ref.table).bind fun l =>
    if Name.normalize ref.column.name ∈ l.fields.map Field.name then none
    else some (.unknownField (Name.normalize ref.table) ref.column.name)

/-- What is wrong with a node by itself. -/
def ownFault? (c : Catalog) (n : Expr) : Option Diagnostic := n.ownFault? c.columnFault?

theorem Consistent.faultOf_columnType (hc : c.Consistent) (ref : ColumnRef) :
    faultOf (c.columnType ref) = c.columnFault? ref := by
  unfold columnType columnFault? isView
  split
  · rfl
  cases hv : c.view? ref.table with
  | none => rfl
  | some l =>
    simp only [Option.isSome_some, if_true, Option.bind_some, hc.typeOf_of_view? hv, Layout.type?,
      ← Layout.field?_isSome]
    cases l.field? (Name.normalize ref.column.name) <;> rfl

theorem columnFault?_ne_unknownScope (ref : ColumnRef) (scope : String) :
    c.columnFault? ref ≠ some (.unknownScope scope) := by
  unfold columnFault?
  split
  · simp
  · cases c.view? ref.table with
    | none => simp
    | some l =>
      rw [Option.bind_some]
      split <;> simp

theorem Consistent.faultOf_infer (hc : c.Consistent) (e : Expr) :
    faultOf (c.infer e) = e.visited.findSome? c.ownFault? := by
  have hcolumns : (fun ref => faultOf (c.columnType ref)) = c.columnFault? :=
    funext hc.faultOf_columnType
  rw [infer, typing, faultOf_typing, hcolumns]
  rfl

/-- **An expression is refused for the first faulty node on the way**: it is refused exactly if one
of the visited nodes is faulty, with the diagnostic of that node which comes first, and never for a
scope that is not known. -/
theorem infer_first_fault (h : c.Reachable) (e : Expr) :
    ((∃ d, c.infer e = .error d) ↔ ∃ n ∈ e.visited, (c.ownFault? n).isSome = true) ∧
    (∀ d, c.infer e = .error d ↔ ∃ earlier n later, e.visited = earlier ++ n :: later ∧
      c.ownFault? n = some d ∧ ∀ m ∈ earlier, c.ownFault? m = none) ∧
    ∀ scope, c.infer e ≠ .error (.unknownScope scope) := by
  have hfault := h.consistent.faultOf_infer e
  have hfirst (d : Diagnostic) : c.infer e = .error d ↔
      e.visited.findSome? c.ownFault? = some d := by
    rw [← faultOf_eq_some, hfault]
  refine ⟨?_, fun d => (hfirst d).trans List.findSome?_eq_some_iff, fun scope hscope => ?_⟩
  · rw [← List.findSome?_isSome_iff, Option.isSome_iff_exists]
    exact exists_congr hfirst
  · obtain ⟨n, -, hn⟩ := List.exists_of_findSome?_eq_some ((hfirst _).1 hscope)
    exact ownFault?_ne_unknownScope (columnFault?_ne_unknownScope · scope) n hn

/-- A conjunction with two faults on the way, both of its right part: a field that the view lacks,
then a sum of two values. What the constraint and the sub-query's predicate hold is not visited. -/
def faultyQuery : Expr :=
  .binary .and (.test .isNotNull (.call .scalarProduct [.literal .null, .literal .null]))
    (.binary .lessThan
      (.call .max [.subquery [.column ⟨"Ids", ⟨"gone", .string, false⟩⟩]
        [.source "ids", .filter (.call .sum [])] none])
      (.call .sum [.literal .null, .literal .null]))

/-- The query is refused for the field: the column comes first, though it lies deepest. -/
theorem infer_first_fault_query :
    nodeCatalog.Reachable ∧
      nodeCatalog.infer faultyQuery = .error (.unknownField "IDS" "gone") := by
  have hreach : nodeCatalog.Reachable := ⟨nodeCalls, rfl⟩
  obtain ⟨-, hfirst, -⟩ := infer_first_fault hreach faultyQuery
  refine ⟨hreach, (hfirst _).2 ⟨[_, _], _, [_, _, _, _, _], rfl, by decide, ?_⟩⟩
  decide

end Catalog

end ViewTyping
