import Mathlib.Data.List.Basic
import ViewTyping.Proofs.TypingShape

/-!
# Aliases have no say

An alias may stand around any part of an expression, and around another alias. `Expr.withoutAliases`
takes all of them away, at every depth. `Expr.named`, which gives an expression its one name, takes
away those around the whole expression only.

* `aliases_withoutAliases`: no alias is left.
* `names_withoutAliases`, `alike_withoutAliases`: names are read in the same order, and what typing
  looks at is the same.
* `typing_unaliased`: aliases around the whole expression leave no trace in typing, not even in the
  texts that it quotes.
* `aliases_transparent`: aliases change neither the tables that are read nor the type.
-/

set_option autoImplicit false

namespace ViewTyping

/-! ## Taking aliases away -/

mutual

/-- The expression without its aliases: those around the expression, and those around the operands,
arguments, selected expressions and predicates in it. -/
def Expr.withoutAliases : Expr → Expr
  | .column ref => .column ref
  | .literal value => .literal value
  | .unary op arg => .unary op arg.withoutAliases
  | .binary op left right => .binary op left.withoutAliases right.withoutAliases
  | .call function args => .call function (exprsWithoutAliases args)
  | .test t arg => .test t arg.withoutAliases
  | .subquery select qualifiers groupBy =>
    .subquery (exprsWithoutAliases select) (qualifiersWithoutAliases qualifiers) groupBy
  | .aliased e _ => e.withoutAliases

def exprsWithoutAliases : List Expr → List Expr
  | [] => []
  | e :: es => e.withoutAliases :: exprsWithoutAliases es

def Qualifier.withoutAliases : Qualifier → Qualifier
  | .source table => .source table
  | .filter e => .filter e.withoutAliases
  | .join e => .join e.withoutAliases

def qualifiersWithoutAliases : List Qualifier → List Qualifier
  | [] => []
  | q :: qs => q.withoutAliases :: qualifiersWithoutAliases qs

end

theorem exprsWithoutAliases_eq (es : List Expr) :
    exprsWithoutAliases es = es.map Expr.withoutAliases := by
  induction es with
  | nil => rfl
  | cons e es ih => rw [exprsWithoutAliases, ih, List.map_cons]

theorem qualifiersWithoutAliases_eq (qs : List Qualifier) :
    qualifiersWithoutAliases qs = qs.map Qualifier.withoutAliases := by
  induction qs with
  | nil => rfl
  | cons q qs ih => rw [qualifiersWithoutAliases, ih, List.map_cons]

mutual

/-- The aliases in an expression, at every depth. -/
def Expr.aliases : Expr → List String
  | .column _ => []
  | .literal _ => []
  | .unary _ arg => arg.aliases
  | .binary _ left right => left.aliases ++ right.aliases
  | .call _ args => aliasesOfExprs args
  | .test _ arg => arg.aliases
  | .subquery select qualifiers _ => aliasesOfExprs select ++ aliasesOfQualifiers qualifiers
  | .aliased e name => name :: e.aliases

def aliasesOfExprs : List Expr → List String
  | [] => []
  | e :: es => e.aliases ++ aliasesOfExprs es

def Qualifier.aliases : Qualifier → List String
  | .source _ => []
  | .filter e => e.aliases
  | .join e => e.aliases

def aliasesOfQualifiers : List Qualifier → List String
  | [] => []
  | q :: qs => q.aliases ++ aliasesOfQualifiers qs

end

theorem aliasesOfExprs_eq (es : List Expr) : aliasesOfExprs es = es.flatMap Expr.aliases := by
  induction es with
  | nil => rfl
  | cons e es ih => rw [aliasesOfExprs, ih, List.flatMap_cons]

theorem aliasesOfQualifiers_eq (qs : List Qualifier) :
    aliasesOfQualifiers qs = qs.flatMap Qualifier.aliases := by
  induction qs with
  | nil => rfl
  | cons q qs ih => rw [aliasesOfQualifiers, ih, List.flatMap_cons]

/-- **No alias is left.** -/
theorem aliases_withoutAliases (e : Expr) : e.withoutAliases.aliases = [] := by
  have hexprs : ∀ es : List Expr, (∀ e ∈ es, e.withoutAliases.aliases = []) →
      aliasesOfExprs (exprsWithoutAliases es) = [] := by
    intro es hes
    rw [exprsWithoutAliases_eq, aliasesOfExprs_eq, List.flatMap_map]
    exact List.flatMap_eq_nil_iff.2 hes
  induction e using Expr.induct with
  | column ref => rfl
  | literal value => rfl
  | unary op arg ih => exact ih
  | binary op left right ihl ihr =>
    rw [Expr.withoutAliases, Expr.aliases, ihl, ihr, List.append_nil]
  | call function args ih => exact hexprs args ih
  | test t arg ih => exact ih
  | subquery select qualifiers groupBy ihs ihq =>
    have hq : aliasesOfQualifiers (qualifiersWithoutAliases qualifiers) = [] := by
      rw [qualifiersWithoutAliases_eq, aliasesOfQualifiers_eq, List.flatMap_map]
      refine List.flatMap_eq_nil_iff.2 fun q hq => ?_
      cases q with
      | source table => rfl
      | filter e => exact ihq _ hq e rfl
      | join e => exact ihq _ hq e rfl
    rw [Expr.withoutAliases, Expr.aliases, hexprs select ihs, hq, List.append_nil]
  | aliased e name ih => exact ih

/-! ## What is read, and what typing looks at -/

/-- **The same names are read, in the same order.** -/
theorem names_withoutAliases (e : Expr) : e.withoutAliases.names = e.names := by
  have hexprs : ∀ es : List Expr, (∀ e ∈ es, e.withoutAliases.names = e.names) →
      namesOfExprs (exprsWithoutAliases es) = namesOfExprs es := by
    intro es hes
    rw [exprsWithoutAliases_eq, namesOfExprs_eq, namesOfExprs_eq, List.flatMap_map,
      List.flatMap_congr hes]
  induction e using Expr.induct with
  | column ref => rfl
  | literal value => rfl
  | unary op arg ih => exact ih
  | binary op left right ihl ihr => rw [Expr.withoutAliases, Expr.names, Expr.names, ihl, ihr]
  | call function args ih => exact hexprs args ih
  | test t arg ih => exact ih
  | subquery select qualifiers groupBy ihs ihq =>
    have hq : namesOfQualifiers (qualifiersWithoutAliases qualifiers) =
        namesOfQualifiers qualifiers := by
      rw [qualifiersWithoutAliases_eq, namesOfQualifiers_eq, namesOfQualifiers_eq,
        List.flatMap_map]
      refine List.flatMap_congr fun q hq => ?_
      cases q with
      | source table => rfl
      | filter e => exact ihq _ hq e rfl
      | join e => exact ihq _ hq e rfl
    rw [Expr.withoutAliases, Expr.names, Expr.names, hexprs select ihs, hq]
  | aliased e name ih => exact ih

/-- **Typing looks at the same parts.** -/
theorem alike_withoutAliases (e : Expr) : Expr.Alike Eq e.withoutAliases e := by
  induction e using Expr.induct with
  | column ref => exact .column rfl
  | literal value => exact .literal value
  | unary op arg ih => exact .unary ih
  | binary op left right ihl ihr => exact .binary ihl ihr
  | call function args ih =>
    rw [Expr.withoutAliases, exprsWithoutAliases_eq]
    by_cases hlen : args.length = 1
    · obtain ⟨arg, rfl⟩ := List.length_eq_one_iff.1 hlen
      exact .aggregate (ih arg (.head _))
    · exact .constraint (by rw [List.length_map]) (by rwa [List.length_map])
  | test t arg ih => exact .test ih
  | subquery select qualifiers groupBy ihs _ =>
    rw [Expr.withoutAliases, exprsWithoutAliases_eq]
    by_cases hlen : select.length = 1
    · obtain ⟨e, rfl⟩ := List.length_eq_one_iff.1 hlen
      exact .value (ihs e (.head _))
    · exact .rows (by rw [List.length_map]) (by rwa [List.length_map])
  | aliased e name ih => exact .aliasedRight ih

/-! ## The name of an expression -/

theorem unaliased_ne_aliased (e e' : Expr) (name : String) : e.unaliased ≠ .aliased e' name := by
  fun_induction Expr.unaliased e with
  | case1 e _ ih => exact ih
  | case2 e hne => exact hne e' name

theorem unaliased_unaliased (e : Expr) : e.unaliased.unaliased = e.unaliased := by
  fun_induction Expr.unaliased e with
  | case1 e _ ih => exact ih
  | case2 e hne => rw [Expr.unaliased.eq_2 e hne]

theorem typing_unaliased (column : ColumnRef → Except Diagnostic ValueType) (e : Expr) :
    e.unaliased.typing column = e.typing column := by
  fun_induction Expr.unaliased e with
  | case1 e _ ih => rw [ih, Expr.typing]
  | case2 e hne => rfl

theorem unaliased_named (e : Expr) (name : String) : (e.named name).unaliased = e.unaliased :=
  unaliased_unaliased e

/-- **A new name takes the place of the old one.** -/
theorem named_named (e : Expr) (name name' : String) :
    (e.named name).named name' = e.named name' := by
  rw [Expr.named, unaliased_named]
  rfl

namespace Catalog

theorem typing_named (c : Catalog) (e : Expr) (name : String) :
    c.typing (e.named name) = c.typing e := by
  show (Expr.aliased e.unaliased name).typing c.columnType = e.typing c.columnType
  rw [Expr.typing, typing_unaliased]

/-- **Aliases have no say**, at whatever depth they stand and however they are stacked: neither in
what is read nor in the type, and in a diagnostic only by the text that it quotes. -/
theorem aliases_transparent (e : Expr) :
    e.withoutAliases.aliases = [] ∧ e.withoutAliases.tables = e.tables ∧
    (∀ c : Catalog, (∀ t, c.infer e.withoutAliases = .ok t ↔ c.infer e = .ok t) ∧
      ∀ d, c.infer e.withoutAliases = .error d →
        ∃ d', c.infer e = .error d' ∧ d'.withoutText = d.withoutText) ∧
    ∀ a b, (e.named a).named b = e.named b ∧ (e.named b).unaliased = e.unaliased ∧
      (∀ e' name, e.unaliased ≠ .aliased e' name) ∧
      ∀ c : Catalog, c.infer (e.named b) = c.infer e := by
  refine ⟨aliases_withoutAliases e, ?_, fun c => ?_, fun a b => ?_⟩
  · rw [Expr.tables, Expr.tables, addTables_eq, addTables_eq, names_withoutAliases]
  · apply agree_of_mapError (f := Diagnostic.withoutText)
    exact typing_alike (g := id) (fun _ _ h => by rw [h]) (alike_withoutAliases e)
  · refine ⟨named_named e a b, unaliased_named e b, unaliased_ne_aliased e, fun c => ?_⟩
    exact congrArg Logged.result (typing_named c e b)

end Catalog

end ViewTyping
