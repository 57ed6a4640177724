import ViewTyping.Proofs.CatalogHistory
import ViewTyping.Proofs.TypingShape

/-!
# Parts that typing does not look at

The qualifiers and the grouping of a sub-query and the arguments of a constraint have no say in
types. `Expr.blanked` leaves them out: of the arguments only their number is kept. Two expressions
that are equal once this is done may differ in any number of such places, at any depth, and what
stands there may be faulty.

* `alike_blanked`: blanking out keeps what typing looks at.
* `events_alike`: expressions that are alike give the same warnings, apart from quoted text.
* `infer_of_blanked_eq`: expressions that are equal when blanked out have the same type or the same
  fault, apart from quoted text.
-/

set_option autoImplicit false

namespace ViewTyping

/-! ## Blanking out -/

mutual

/-- The expression without qualifiers and groupings and without the contents of the arguments of
calls that have none or several. A sub-query that is grouped stays one that is. -/
def Expr.blanked : Expr → Expr
  | .column ref => .column ref
  | .literal value => .literal value
  | .unary op arg => .unary op arg.blanked
  | .binary op left right => .binary op left.blanked right.blanked
  | .call function [arg] => .call function [arg.blanked]
  | .call function args => .call function (args.map fun _ => .literal .null)
  | .test t arg => .test t arg.blanked
  | .subquery select _ groupBy => .subquery (blankedExprs select) [] (groupBy.map fun _ => [])
  | .aliased e name => .aliased e.blanked name

def blankedExprs : List Expr → List Expr
  | [] => []
  | e :: es => e.blanked :: blankedExprs es

end

theorem length_blankedExprs (es : List Expr) : (blankedExprs es).length = es.length := by
  induction es with
  | nil => rfl
  | cons e es ih => rw [blankedExprs, List.length_cons, List.length_cons, ih]

theorem blanked_call {function : Builtin} {args : List Expr} (h : args.length ≠ 1) :
    (Expr.call function args).blanked = .call function (args.map fun _ => .literal .null) := by
  rw [Expr.blanked]
  exact ne_singleton h

/-- **Blanking out keeps what typing looks at.** -/
theorem alike_blanked (e : Expr) : Expr.Alike Eq e e.blanked := by
  induction e using Expr.induct with
  | column ref => exact .column rfl
  | literal value => exact .literal value
  | unary op arg ih => exact .unary ih
  | binary op left right ihl ihr => exact .binary ihl ihr
  | call function args ih =>
    by_cases hlen : args.length = 1
    · obtain ⟨arg, rfl⟩ := List.length_eq_one_iff.1 hlen
      exact .aggregate (ih arg (.head _))
    · rw [blanked_call hlen]
      exact .constraint (List.length_map _) hlen
  | test t arg ih => exact .test ih
  | subquery select qualifiers groupBy ihs _ =>
    by_cases hlen : select.length = 1
    · obtain ⟨e, rfl⟩ := List.length_eq_one_iff.1 hlen
      exact .value (ihs e (.head _))
    · exact .rows (length_blankedExprs select) hlen
  | aliased e name ih => exact .aliasedLeft (.aliasedRight ih)

/-! ## Warnings -/

/-- The event without the text of the expression that it is about. -/
def Event.withoutText : Event → Event
  | typedSubquery _ type => typedSubquery "" type
  | event => event

/-- Computations in two parts give the same events if their parts do and the first parts agree on
what they come to. -/
theorem map_events_bind {α β ε δ : Type} {w : Event → δ} {f : Diagnostic → ε} {x y : Logged α}
    {k k' : α → Logged β} (hresult : x.result.mapError f = y.result.mapError f)
    (hevents : x.events.map w = y.events.map w)
    (hk : ∀ a, x.result = .ok a → (k a).events.map w = (k' a).events.map w) :
    (x >>= k).events.map w = (y >>= k').events.map w := by
  obtain ⟨hok, herror⟩ := agree_of_mapError hresult
  cases hx : x.result with
  | error d =>
    obtain ⟨d', hy, -⟩ := herror d hx
    rwa [Logged.events_bind_of_error hx, Logged.events_bind_of_error hy]
  | ok a =>
    have hy := (hok a).1 hx
    rw [Logged.events_bind_of_ok hx, Logged.events_bind_of_ok hy, List.map_append,
      List.map_append, hevents, hk a hx]

/-- **Expressions that are alike give the same warnings**, apart from quoted text, if their columns
have the same types. -/
theorem events_alike {R : ColumnRef → ColumnRef → Prop}
    {column column' : ColumnRef → Except Diagnostic ValueType}
    (hcolumn : ∀ ref ref', R ref ref' → (column ref).mapError Diagnostic.withoutText =
      (column' ref').mapError Diagnostic.withoutText) {e e' : Expr} (h : Expr.Alike R e e') :
    (e.typing column).events.map Event.withoutText =
      (e'.typing column').events.map Event.withoutText := by
  induction h with
  | column h => rw [Expr.typing, Expr.typing]; rfl
  | literal value => rw [Expr.typing, Expr.typing]
  | unary h ih =>
    rw [Expr.typing, Expr.typing]
    exact map_events_bind (typing_alike (g := id) hcolumn h) ih fun _ _ => rfl
  | binary hl hr ihl ihr =>
    rw [Expr.typing, Expr.typing]
    refine map_events_bind (typing_alike (g := id) hcolumn hl) ihl fun _ _ => ?_
    exact map_events_bind (typing_alike (g := id) hcolumn hr) ihr fun _ _ => rfl
  | @aggregate function _ _ h ih =>
    rw [Expr.typing, Expr.typing]
    refine map_events_bind (typing_alike (g := id) hcolumn h) ih fun t _ => ?_
    cases function.aggregateType? t <;> rfl
  | @constraint function args args' hlen hne =>
    rw [Expr.typing, Expr.typing, hlen]
    · cases function.constraintType? args.length <;> rfl
    · exact ne_singleton (hlen ▸ hne)
    · exact ne_singleton hne
  | test h ih =>
    rw [Expr.typing, Expr.typing]
    exact map_events_bind (typing_alike (g := id) hcolumn h) ih fun _ _ => rfl
  | value h ih =>
    rw [Expr.typing, Expr.typing]
    exact map_events_bind (typing_alike (g := id) hcolumn h) ih fun _ _ => rfl
  | rows hlen hne =>
    rw [Expr.typing, Expr.typing]
    · rfl
    · exact ne_singleton (hlen ▸ hne)
    · exact ne_singleton hne
  | aliasedLeft _ ih => rw [Expr.typing]; exact ih
  | aliasedRight _ ih => rw [Expr.typing]; exact ih

namespace Catalog

/-! ## Types -/

theorem infer_blanked (c : Catalog) (e : Expr) :
    (c.infer e).mapError Diagnostic.withoutText =
      (c.infer e.blanked).mapError Diagnostic.withoutText :=
  typing_alike (g := id) (fun _ _ h => by rw [h]) (alike_blanked e)

theorem events_blanked (c : Catalog) (e : Expr) :
    (c.typing e).events.map Event.withoutText =
      (c.typing e.blanked).events.map Event.withoutText :=
  events_alike (fun _ _ h => by rw [h]) (alike_blanked e)

/-- **Predicates, groupings and the arguments of constraints have no say in types.** Expressions
that are equal once these are blanked out have the same type; if one has none, neither has the
other, and both are refused with the same diagnostic but for the text of the expression in it. -/
theorem infer_of_blanked_eq (c : Catalog) {e e' : Expr} (h : e.blanked = e'.blanked) :
    (∀ t, c.infer e = .ok t ↔ c.infer e' = .ok t) ∧
    ∀ d, c.infer e = .error d →
      ∃ d', c.infer e' = .error d' ∧ d'.withoutText = d.withoutText := by
  refine agree_of_mapError ?_
  rw [infer_blanked, h, ← infer_blanked]

/-- A weighted sum that is bounded by the least value of the rows that pass a test. -/
def boundedSum (function : Builtin) (terms : List Expr) (predicate : Expr)
    (groups : List ColumnRef) : Expr :=
  .binary .lessThan (.call function terms)
    (.subquery [.call .min [.column ⟨"node", ⟨"ID", .bool, true⟩⟩]]
      [.source "node", .filter predicate] (some groups))

/-- A field that the view lacks. -/
def lostField : Expr :=
  .column ⟨"Ids", ⟨"gone", .string, false⟩⟩

/-- The lost field is a fault of its own, but neither among the terms of a weighted sum nor in the
test of a sub-query. It does not replace the fault of a sum of two values either. -/
theorem infer_of_blanked_eq_boundedSum :
    nodeCatalog.infer lostField = .error (.unknownField "IDS" "gone") ∧
      nodeCatalog.infer (boundedSum .scalarProduct [lostField, .call .sum []]
        (.binary .and lostField lostField) [⟨"Ids", ⟨"gone", .string, false⟩⟩]) = .ok .boolVar ∧
      ∃ text, nodeCatalog.infer (boundedSum .sum [lostField, lostField] lostField []) =
        .error (.unsupportedFunction .sum 2 text) := by
  have htyped : nodeCatalog.infer
      (boundedSum .scalarProduct [.literal .null, .literal .null] (.literal (.bool true)) []) =
        .ok .boolVar := rfl
  have hrefused : nodeCatalog.infer
      (boundedSum .sum [.literal .null, .literal .null] (.literal (.bool true)) []) =
        .error (.unsupportedFunction .sum 2
          (Expr.call .sum [.literal .null, .literal .null]).render) := rfl
  have hblanked :
      (boundedSum .sum [.literal .null, .literal .null] (.literal (.bool true)) []).blanked =
        (boundedSum .sum [lostField, lostField] lostField []).blanked := rfl
  refine ⟨by decide, ?_, ?_⟩
  · exact ((infer_of_blanked_eq nodeCatalog rfl).1 _).1 htyped
  · obtain ⟨d, hd, htext⟩ := (infer_of_blanked_eq nodeCatalog hblanked).2 _ hrefused
    cases d with
    | unsupportedFunction function arity text =>
      obtain ⟨rfl, rfl, -⟩ := Diagnostic.unsupportedFunction.inj htext
      exact ⟨text, hd⟩
    | _ => cases htext

end Catalog

end ViewTyping
